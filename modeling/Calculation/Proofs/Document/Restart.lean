import Calculation.Proofs.Document.LineStart
import Calculation.Proofs.Document.Order
import Calculation.Proofs.Seam.Stretch

/-!
Reading from the middle of a document. Nothing that was read of one segment decides about the next one, and nothing
depends on where a text starts: read from the line where a segment starts, the text has that segment and those
behind it, moved to where they stand now.
-/
namespace Calculation

section

variable {d l : Nat} {e k : Int}

theorem moved_add (n : Nat) : moved (moved n d) e = moved n (d + e) :=
  moved_moved (by omega)

theorem movedLines_add (lines : List Nat) (h : 0 ≤ l + k) :
    movedLines (movedLines lines l) k = movedLines lines (l + k) := by
  have hthere : movedLines lines l = lines.map (moved · l) := movedLines_of_nonneg fun n _ => by omega
  rw [hthere, movedLines_of_nonneg, movedLines_of_nonneg fun n _ => by omega]
  · simp [moved_add, Function.comp_def]
  · intro n hn
    obtain ⟨m, -, rfl⟩ := List.mem_map.mp hn
    simp only [moved]
    omega

theorem Range.shifted_add (r : Range) : (r.shifted d).shifted e = r.shifted (d + e) := by
  simp [Range.shifted, moved_add]

theorem Diagnostic.shifted_add (x : Diagnostic) : (x.shifted d).shifted e = x.shifted (d + e) := by
  simp [Diagnostic.shifted, Range.shifted_add, Function.comp_def]

theorem Symbol.Kind.shifted_add (x : Symbol.Kind) : (x.shifted d).shifted e = x.shifted (d + e) := by
  cases x <;> simp [Kind.shifted, Branch.shifted, Argument.shifted, Range.shifted_add, Function.comp_def]

namespace Symbol

mutual

theorem shifted_add (hl : 0 ≤ l + k) :
    ∀ s : Symbol, (s.shifted d l).shifted e k = s.shifted (d + e) (l + k)
  | ⟨n, x, r, cs, c, ls⟩ => by
    rw [shifted, shifted, shifted, shiftedAll_add hl cs, Kind.shifted_add, Range.shifted_add,
      movedLines_add _ hl]

theorem shiftedAll_add (hl : 0 ≤ l + k) :
    ∀ ss : List Symbol, shiftedAll e k (shiftedAll d l ss) = shiftedAll (d + e) (l + k) ss
  | [] => by rw [shiftedAll, shiftedAll, shiftedAll]
  | s :: ss => by rw [shiftedAll, shiftedAll, shiftedAll, shifted_add hl s, shiftedAll_add hl ss]

end

end Symbol

/-- A move onwards and a further one add up, as long as no line falls above the first. -/
theorem Piece.shifted_add (p : Piece) (hl : 0 ≤ l + k) :
    (p.shifted d l).shifted e k = p.shifted (d + e) (l + k) := by
  simp [Piece.shifted, moved_add, Range.shifted_add, Symbol.shiftedAll_add hl, Diagnostic.shifted_add, Function.comp_def]

end

theorem Piece.shifted_back (p : Piece) (d l : Nat) : (p.shifted d l).shifted (-d) (-l) = p := by
  rw [shifted_add p (by omega), Int.add_right_neg, Int.add_right_neg, shifted_zero]

namespace Piece

variable {k w : Nat}

/-- Two ways to part pieces at the same offset are one. -/
theorem take_of_parted {as bs : List Piece} (hproper : ∀ p ∈ as ++ bs, p.range.start < p.range.stop)
    (has : ∀ p ∈ as, p.range.stop ≤ w) (hbs : ∀ p ∈ bs, w ≤ p.range.start)
    (htake : ∀ p ∈ (as ++ bs).take k, p.range.stop ≤ w) (hdrop : ∀ p ∈ (as ++ bs).drop k, w ≤ p.range.start)
    (hk : k ≤ (as ++ bs).length) : k = as.length := by
  rcases Nat.lt_trichotomy k as.length with hlt | heq | hlt
  · have hmem : as[k] ∈ (as ++ bs).drop k := by
      rw [List.drop_append_of_le_length (Nat.le_of_lt hlt), List.drop_eq_getElem_cons hlt]
      exact List.mem_cons_self
    have h₁ := has _ (List.getElem_mem hlt)
    have h₂ := hproper _ (List.mem_of_mem_drop hmem)
    have h₃ := hdrop _ hmem
    omega
  · exact heq
  · cases bs with
    | nil =>
      rw [List.append_nil] at hk
      omega
    | cons b bs =>
      have hmem : b ∈ (as ++ b :: bs).take k := by
        rw [List.take_append, List.take_of_length_le (Nat.le_of_lt hlt)]
        obtain ⟨n, hn⟩ : ∃ n, k - as.length = n + 1 := ⟨k - as.length - 1, by omega⟩
        rw [hn, List.take_succ_cons]
        exact List.mem_append_right _ List.mem_cons_self
      have h₁ := hbs b List.mem_cons_self
      have h₂ := hproper b (List.mem_of_mem_take hmem)
      have h₃ := htake b hmem
      omega

end Piece

namespace Reading

variable {src : Source} {offset k : Nat} {u v : List Char} {q : Piece}

/-- Where the line of a piece starts the text falls apart, and the pieces before this one are those of the first
half. -/
theorem exists_halves_at (hq : (pieces src (Token.lex offset (u ++ v)))[k]? = some q)
    (hline : src.lines.lineOf (offset + Text.bytes u) = q.firstLine)
    (hstarts : src.lines.StartsLine (offset + Text.bytes u)) (hends : Text.EndsLine u) :
    (∀ p ∈ pieces src (Token.lex offset (u ++ v)), p.range.Avoids (offset + Text.bytes u)) ∧
      offset + Text.bytes u ≤ q.range.start ∧
      ∃ is, Halves src offset u v is ∧ k = (firstHalf src offset u is).length := by
  have hinOrder := Piece.pieces_inOrder src (Item.TokensInLine.lex offset (u ++ v))
  obtain ⟨htake, hdrop⟩ := hinOrder.parted hq hline hstarts
  have havoids : ∀ p ∈ pieces src (Token.lex offset (u ++ v)), p.range.Avoids (offset + Text.bytes u) := by
    intro p hp
    rw [← List.take_append_drop k (pieces src _)] at hp
    exact (List.mem_append.mp hp).symm.imp (hdrop p) (htake p)
  obtain ⟨is, hhalves⟩ := exists_halves (.inl hends) havoids
  have hlt := (List.getElem?_eq_some_iff.mp hq).1
  refine ⟨havoids, ?_, is, hhalves, ?_⟩
  · rw [← List.head?_drop] at hq
    exact hdrop q (List.mem_of_head? hq)
  have hfirst := firstHalf_between src hhalves.between
  have hsecond := pieces_between src (offset + Text.bytes u) v
  rw [hhalves.pieces hstarts] at htake hdrop hlt
  refine Piece.take_of_parted (fun p hp => ?_) (fun p hp => (hfirst p hp).stop) (fun p hp => (hsecond p hp).start)
    htake hdrop (Nat.le_of_lt hlt)
  exact (List.mem_append.mp hp).elim (fun hp => (hfirst p hp).proper) fun hp => (hsecond p hp).proper

end Reading

namespace Outline

variable {options : Options} {text : String} {k : Nat}

/-- The second part of a text starts where a line starts when the first one ends a line. -/
theorem startsLine_second (options : Options) {u : List Char} (v : List Char) (hends : Text.EndsLine u) :
    (Source.ofText options (u ++ v)).lines.StartsLine (0 + Text.bytes u) := by
  rw [Nat.zero_add]
  exact LineTable.startsLine_bytes hends

/-- So it is with a whole text, where the line of a piece starts behind as many line feeds as its number says. -/
theorem exists_halves_at {u v : List Char} {q : Piece}
    (hq : (Reading.pieces (.ofText options (u ++ v)) (Token.lex 0 (u ++ v)))[k]? = some q)
    (hline : u.count '\n' = q.firstLine) (hends : Text.EndsLine u) :
    (∀ p ∈ Reading.pieces (.ofText options (u ++ v)) (Token.lex 0 (u ++ v)), p.range.Avoids (0 + Text.bytes u)) ∧
      0 + Text.bytes u ≤ q.range.start ∧
      ∃ is, Reading.Halves (.ofText options (u ++ v)) 0 u v is ∧
        k = (Reading.firstHalf (.ofText options (u ++ v)) 0 u is).length := by
  refine Reading.exists_halves_at hq ?_ (startsLine_second options v hends) hends
  rw [Nat.zero_add]
  exact (LineTable.lineOf_bytes u v).trans hline

/-- The pieces of a text from the line on where one of them starts are those of the rest of the text, moved. -/
theorem pieces_restart {u v : List Char} {q : Piece}
    (hq : (Reading.pieces (.ofText options (u ++ v)) (Token.lex 0 (u ++ v)))[k]? = some q)
    (hline : u.count '\n' = q.firstLine) (hends : Text.EndsLine u) :
    (Reading.pieces (.ofText options (u ++ v)) (Token.lex 0 (u ++ v))).drop k =
      (Reading.pieces (.ofText options v) (Token.lex 0 v)).map (.shifted (Text.bytes u) (u.count '\n')) := by
  obtain ⟨-, -, is, hhalves, hk⟩ := exists_halves_at hq hline hends
  rw [hhalves.pieces (startsLine_second options v hends), hk, List.drop_left, Nat.zero_add]
  exact Reading.pieces_shifted (Source.moves_suffix options u v _)

/-- Reading can be taken up again at every segment. The text from the line on where the segment starts reads as
the segments from this one on, with their symbols and faults, moved to the front; and the whole text reads as the
segments before this one followed by those of that text. -/
theorem reads_again_from_segment {s : Segment} (hs : (ofText options text).segments[k]? = some s) :
    ∃ front rest : List Char, text.toList = front ++ rest ∧
      (LineTable.ofText text.toList).start? s.firstLine = some (Text.bytes front) ∧
      Splice.reading (ofText options (.ofList rest)) =
        Splice.follow .empty (Splice.onwards (Splice.reading (ofText options text)) k) (-(Text.bytes front : Int))
          (-(s.firstLine : Int)) s.symbols.start s.faults.start ∧
      Splice.reading (ofText options text) =
        Splice.follow (Splice.upTo (Splice.reading (ofText options text)) k)
          (Splice.reading (ofText options (.ofList rest))) (Text.bytes front) s.firstLine 0 0 := by
  obtain ⟨ps, hps⟩ : ∃ ps, ps = Reading.pieces (.ofText options text.toList) (Token.lex 0 text.toList) := ⟨_, rfl⟩
  have hreading := reading_ofText options text
  rw [← hps] at hreading
  have hsegs : (ofText options text).segments = Piece.segments 0 0 ps := congrArg Reading.segments hreading
  have hinOrder : Piece.InOrder (LineTable.ofText text.toList) 0 (Text.bytes text.toList) ps :=
    hps ▸ Piece.ofText_inOrder options text.toList
  rw [hsegs, Piece.segments_getElem?, Nat.zero_add, Nat.zero_add] at hs
  obtain ⟨q, hq, rfl⟩ := Option.map_eq_some_iff.mp hs
  have hfirst : (q.segment ((ps.take k).flatMap (·.symbols)).length ((ps.take k).flatMap (·.faults)).length).firstLine =
      q.firstLine := rfl
  -- Where the line of the piece starts the text is cut.
  obtain ⟨front, rest, htext, hstart, hlines, hends⟩ := hinOrder.split (List.mem_of_getElem? hq)
  refine ⟨front, rest, htext, hstart, ?_⟩
  rw [htext] at hps
  have hdrop := pieces_restart (hps ▸ hq) hlines hends
  rw [← hps, hlines] at hdrop
  have hrest := reading_ofText options (.ofList rest)
  rw [String.toList_ofList] at hrest
  rw [hrest, hreading, hfirst, Splice.onwards_ofPieces, Splice.upTo_ofPieces, hdrop]
  refine ⟨?_, ?_⟩
  · have hback := Splice.follow_pieces (-(Text.bytes front : Int)) (-(q.firstLine : Int))
      ((ps.take k).flatMap (·.symbols)).length ((ps.take k).flatMap (·.faults)).length []
      ((Reading.pieces (.ofText options rest) (Token.lex 0 rest)).map (.shifted (Text.bytes front) q.firstLine))
    rw [Reading.ofPieces_nil] at hback
    have hsymbols : (q.segment ((ps.take k).flatMap (·.symbols)).length
        ((ps.take k).flatMap (·.faults)).length).symbols.start = ((ps.take k).flatMap (·.symbols)).length := rfl
    have hfaults : (q.segment ((ps.take k).flatMap (·.symbols)).length
        ((ps.take k).flatMap (·.faults)).length).faults.start = ((ps.take k).flatMap (·.faults)).length := rfl
    rw [hsymbols, hfaults, hback, List.nil_append, List.map_map]
    simp only [Function.comp_def, Piece.shifted_back, List.map_id']
  · have hahead := Splice.follow_pieces (Text.bytes front) q.firstLine 0 0 (ps.take k)
      (Reading.pieces (.ofText options rest) (Token.lex 0 rest))
    rw [← hdrop, List.take_append_drop] at hahead
    exact hahead.symm

/-- For instance from the second statement on, when the first one is a call that is not closed. -/
theorem reads_again_from_third_line : ∃ s front rest, (ofText .default "SUM(1\n\n[A] + 2").segments[1]? = some s ∧
    s.firstLine = 2 ∧ "SUM(1\n\n[A] + 2".toList = front ++ rest ∧
      Splice.reading (ofText .default "SUM(1\n\n[A] + 2") =
        Splice.follow (Splice.upTo (Splice.reading (ofText .default "SUM(1\n\n[A] + 2")) 1)
          (Splice.reading (ofText .default (.ofList rest))) (Text.bytes front) s.firstLine 0 0 := by
  have hline : (ofText .default "SUM(1\n\n[A] + 2").segments[1]?.map (·.firstLine) = some 2 := by decide +kernel
  obtain ⟨s, hs, hfirst⟩ := Option.map_eq_some_iff.mp hline
  obtain ⟨front, rest, htext, -, -, hwhole⟩ := reads_again_from_segment hs
  exact ⟨s, front, rest, hs, hfirst, htext, hwhole⟩

end Outline

end Calculation
