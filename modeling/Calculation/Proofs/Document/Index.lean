import Calculation.Proofs.Diagnostic.Placing
import Calculation.Proofs.Document.LineStart
import Calculation.Proofs.Document.Order
import Calculation.Proofs.Document.Tiling
import Calculation.Proofs.Token.Cutting

/-!
The index of a document: its segments. However the document was edited, they share no lines and know their own,
their symbols and faults stand in the document one segment after the other, nothing but blanks stands outside them,
and the faults are in the order of the text.
-/
namespace Calculation

namespace Text

/-- The byte at the offset belongs to a character `c` of the text. -/
def HasAt (cs : List Char) (n : Nat) (c : Char) : Prop :=
  ∃ u v, cs = u ++ c :: v ∧ bytes u ≤ n ∧ n < bytes u + c.utf8Size

variable {a b cs : List Char} {n : Nat} {c : Char}

theorem HasAt.lt (h : HasAt cs n c) : n < bytes cs := by
  obtain ⟨u, v, rfl, -, hlt⟩ := h
  rw [bytes_append, bytes_cons]
  omega

theorem HasAt.appendRight (h : HasAt a n c) (b : List Char) : HasAt (a ++ b) n c := by
  obtain ⟨u, v, rfl, hle, hlt⟩ := h
  exact ⟨u, v ++ b, by simp, hle, hlt⟩

theorem HasAt.appendLeft (a : List Char) (h : HasAt b n c) : HasAt (a ++ b) (bytes a + n) c := by
  obtain ⟨u, v, rfl, hle, hlt⟩ := h
  exact ⟨a ++ u, v, by simp, by rw [bytes_append]; omega, by rw [bytes_append]; omega⟩

/-- A byte of two texts in a row is one of the first or one of the second. -/
theorem HasAt.split (h : HasAt (a ++ b) n c) : HasAt a n c ∨ ∃ m, n = bytes a + m ∧ HasAt b m c := by
  obtain ⟨u, v, happ, hle, hlt⟩ := h
  rcases List.append_eq_append_iff.mp happ with ⟨w, rfl, hb⟩ | ⟨w, rfl, hw⟩
  · refine .inr ⟨n - bytes a, ?_, w, v, hb, ?_, ?_⟩ <;> rw [bytes_append] at hle hlt <;> omega
  · cases w with
    | nil =>
      rw [List.append_nil]
      exact .inr ⟨n - bytes u, by omega, [], v, hw.symm, Nat.zero_le _, by simp only [bytes_nil]; omega⟩
    | cons d w =>
      obtain ⟨rfl, rfl⟩ := List.cons.inj hw
      exact .inl ⟨u, w, rfl, hle, hlt⟩

theorem HasAt.mem (h : HasAt cs n c) : c ∈ cs := by
  obtain ⟨u, v, rfl, -, -⟩ := h
  simp

end Text

/-- The byte at the offset lies in the range. -/
def Range.Has (r : Range) (n : Nat) : Prop :=
  r.start ≤ n ∧ n < r.stop

/-- Each byte of a text lies in a token, and in one of blanks only if it is one. -/
theorem Token.lex_has (offset : Nat) {cs : List Char} {n : Nat} {c : Char} (h : Text.HasAt cs n c) :
    ∃ t ∈ lex offset cs, t.range.Has (offset + n) ∧ (t.kind = .whitespace → Scan.isSpace c = true) := by
  induction hk : cs.length using Nat.strongRecOn generalizing cs offset n with
  | _ k ih =>
    cases cs with
    | nil =>
      obtain ⟨u, v, hcs, -⟩ := h
      simp at hcs
    | cons d ds =>
      obtain ⟨text, htext⟩ : ∃ text, text = d :: ds.take ((first (d :: ds)).2.size - 1) := ⟨_, rfl⟩
      have hsplit : d :: ds = text ++ ds.drop ((first (d :: ds)).2.size - 1) := by
        rw [htext, List.cons_append, List.take_append_drop]
      rw [lex_taking, ← htext]
      have h' := h
      rw [hsplit] at h'
      rcases h'.split with htake | ⟨m, rfl, hdrop⟩
      · refine ⟨_, List.mem_cons_self, ⟨Nat.le_add_right _ _, Nat.add_lt_add_left htake.lt offset⟩, fun hw => ?_⟩
        have hmem := htake.mem
        rw [htext, first_whitespace hw] at hmem
        exact Scan.mem_takeWhile hmem
      · have hlen : (ds.drop ((first (d :: ds)).2.size - 1)).length < k := by
          rw [← hk, List.length_drop, List.length_cons]
          omega
        obtain ⟨t, ht, hhas, hspace⟩ := ih _ hlen (offset + Text.bytes text) hdrop rfl
        rw [Nat.add_assoc] at hhas
        exact ⟨t, List.mem_cons_of_mem _ ht, hhas, hspace⟩

/-- Each byte of a text that is no blank lies in a piece. -/
theorem Reading.pieces_has (src : Source) (offset : Nat) {cs : List Char} {n : Nat} {c : Char} (h : Text.HasAt cs n c)
    (hc : Token.Scan.isSpace c = false) : ∃ p ∈ pieces src (Token.lex offset cs), p.range.Has (offset + n) := by
  obtain ⟨t, ht, ⟨hstart, hstop⟩, hspace⟩ := Token.lex_has offset h
  have hkind : t.kind ≠ .whitespace := fun hw => by rw [hspace hw] at hc; cases hc
  have hparts : ∃ r : Range, (r.start ≤ t.range.start ∧ t.range.stop ≤ r.stop) ∧
      ((∃ i ∈ Statement.readAll src (Lexeme.significant false (Token.lex offset cs)), i.range = r) ∨
        ∃ u ∈ (Token.lex offset cs).filter (·.kind.isComment), u.range = r) := by
    by_cases hcomment : t.kind.isComment = true
    · exact ⟨t.range, ⟨Nat.le_refl _, Nat.le_refl _⟩, .inr ⟨t, List.mem_filter.mpr ⟨ht, hcomment⟩, rfl⟩⟩
    · have hmem : t ∈ (Lexeme.significant false (Token.lex offset cs)).map (·.token) := by
        rw [Lexeme.significant_tokens]
        refine List.mem_filter.mpr ⟨ht, ?_⟩
        simp [Token.Kind.isTrivia, hkind, hcomment]
      obtain ⟨l, hl, rfl⟩ := List.mem_map.mp hmem
      have hin := ((Item.TokensInLine.lex offset cs).lexemes false).ranges
      obtain ⟨i, hi, hcovers⟩ := Statement.readAll_covers src hin hl
      exact ⟨i.range, hcovers, .inl ⟨i, hi, rfl⟩⟩
  obtain ⟨r, ⟨h₁, h₂⟩, hr⟩ := hparts
  obtain ⟨p, hp, h₃, h₄⟩ : ∃ p ∈ pieces src (Token.lex offset cs), p.range.start ≤ r.start ∧ r.stop ≤ p.range.stop :=
    Piece.ofParts_covers hr
  exact ⟨p, hp, by omega, by omega⟩

namespace Piece

/-- All bytes outside of the pieces are blanks. -/
def Gapless (cs : List Char) (ps : List Piece) : Prop :=
  ∀ n c, Text.HasAt cs n c → (∀ p ∈ ps, ¬p.range.Has n) → Token.Scan.isSpace c = true

end Piece

namespace Splice

variable {e : Edited} {old : List Char} {o : Outline} {stop cut : Nat} {tokens : List Token}
variable {before removed added behind : List Char} {ps : List Piece}

/-- Where the window starts the pieces kept in front part from the others. -/
theorem Spliced.front (h : Spliced e old o stop tokens cut)
    (hparts : e.change.Parts old e.text before removed added behind) (hprev : reading e.previous = .ofPieces ps)
    (hps : Piece.InOrder (LineTable.ofText old) 0 (Text.bytes old) ps) :
    ∃ u v, before = u ++ v ∧ e.windowStart = Text.bytes u ∧ ∀ p ∈ ps.drop e.first, Text.bytes u ≤ p.range.start := by
  have hsegs : e.previous.segments = Piece.segments 0 0 ps := congrArg Reading.segments hprev
  obtain ⟨u, v, hbefore, hstart, hends, -⟩ := windowStart_spec hparts hps (hsegs ▸ h.isFirst ▸ h.starts)
  refine ⟨u, v, hbefore, hstart, ?_⟩
  have hstarts := h.starts
  unfold StartsAt at hstarts
  split at hstarts
  · rw [← hstart, hstarts]
    exact fun p _ => Nat.zero_le _
  · obtain ⟨s, hs, hline⟩ := hstarts
    rw [hsegs, Piece.segments_getElem?] at hs
    obtain ⟨q, hq, rfl⟩ := Option.map_eq_some_iff.mp hs
    obtain ⟨u', v', hold, hstart', hcount, hends'⟩ := hps.split (List.mem_of_getElem? hq)
    have hsame : Text.bytes u' = Text.bytes u := by
      rw [← hstart]
      exact Option.some.inj (hstart'.symm.trans hline)
    have hat : (LineTable.ofText old).lineOf (Text.bytes u') = q.firstLine := by
      rw [hold, LineTable.lineOf_bytes, hcount]
    rw [← hsame]
    exact (hps.parted hq hat (hold ▸ LineTable.startsLine_bytes hends')).2

/-- What stands behind the change is blank outside of pieces, as it was before the edit. -/
theorem Spliced.blank_behind (h : Spliced e old o stop tokens cut)
    (hparts : e.change.Parts old e.text before removed added behind)
    (hprev : reading e.previous = .ofPieces ps) (hps : Piece.InOrder (LineTable.ofText old) 0 (Text.bytes old) ps)
    (hgapless : Piece.Gapless old ps) {q : Piece} (hq : ps[stop]? = some q) {n : Nat} {c : Char}
    (hn : (q.range.shifted e.change.byteDelta).start ≤ n) (hat : Text.HasAt e.text n c)
    (hout : ∀ p ∈ (ps.drop stop).map (Piece.shifted e.change.byteDelta e.change.lineDelta), ¬p.range.Has n) :
    Token.Scan.isSpace c = true := by
  have hstops := h.kept_behind hparts hprev hps
  have hqmem : q ∈ ps.drop stop := by
    rw [← List.head?_drop] at hq
    exact List.mem_of_mem_head? hq
  -- An offset behind the change, and where it was before.
  have hmoved : ∀ m, Text.bytes (before ++ removed) ≤ m →
      moved m e.change.byteDelta + Text.bytes (before ++ removed) = m + Text.bytes (before ++ added) := by
    intro m hm
    have hmove := hparts.moved_oldStop (m - Text.bytes (before ++ removed))
    rw [Nat.add_sub_cancel' hm] at hmove
    omega
  have hqstart := hmoved _ (hstops q hqmem)
  have hn' : moved q.range.start e.change.byteDelta ≤ n := hn
  have hge : Text.bytes (before ++ removed) ≤ q.range.start := hstops q hqmem
  rw [hparts.new] at hat
  rcases hat.split with hfront | ⟨k, rfl, hbehind⟩
  · have := hfront.lt
    omega
  have hold : Text.HasAt old (Text.bytes (before ++ removed) + k) c := hparts.old ▸ hbehind.appendLeft _
  refine hgapless _ _ hold fun p hp => ?_
  rw [← List.take_append_drop stop ps] at hp
  rcases List.mem_append.mp hp with hp | hp
  · have hbefore := (hps.sound p (List.mem_of_mem_take hp)).stop_le_start
      (hps.sound q (List.mem_of_mem_drop hqmem)) (hps.lastLine_lt hp hq)
    rintro ⟨-, hlt⟩
    omega
  · rintro ⟨h₁, h₂⟩
    have hpstart := hmoved _ (hstops p hp)
    have hpstop := hmoved p.range.stop
      (Nat.le_trans (hstops p hp) (Nat.le_of_lt (hps.sound p (List.mem_of_mem_drop hp)).proper))
    refine hout _ (List.mem_map_of_mem hp) ⟨?_, ?_⟩
    · show moved p.range.start e.change.byteDelta ≤ _
      omega
    · show _ < moved p.range.stop e.change.byteDelta
      omega

/-- What is read again ends behind the start of the piece that is kept first behind, or with the text. -/
theorem le_windowStop (stop : Nat) (hprev : reading e.previous = .ofPieces ps) (hexact : e.Lossless ps)
    (hps : Piece.InOrder (LineTable.ofText old) 0 (Text.bytes old) ps) :
    e.lines.size ≤ e.windowStop stop ∨
      ∃ q, ps[stop]? = some q ∧ (q.range.shifted e.change.byteDelta).start ≤ e.windowStop stop := by
  rcases windowStop_cases stop hprev hexact with hstop | ⟨hlt, j, p, hj, hp, -, hstop⟩
  · exact .inl (Nat.le_of_eq hstop.symm)
  · rw [hstop]
    refine .inr ⟨ps[stop], List.getElem?_eq_getElem hlt, moved_mono ?_ _⟩
    have hmem : ps[stop] ∈ ps.take j := List.mem_take_iff_getElem.mpr ⟨stop, by omega, rfl⟩
    have hlast := hps.lastLine_lt hmem hp
    have hfirst := hps.sound ps[stop] (List.getElem_mem hlt)
    have hsound := hps.sound p (List.mem_of_getElem? hp)
    have hstops := hfirst.stop_le_start hsound hlast
    have := hfirst.proper
    have := hsound.proper
    omega

/-- Pieces of the window behind the cut are there only when pieces are kept behind. -/
theorem exists_behind_of_drop {ws : List Piece} (hprev : reading e.previous = .ofPieces ps)
    (hcut : e.cut? stop (.ofPieces ws) = some cut) {p : Piece} (hp : p ∈ ws.drop cut) : ∃ q, ps[stop]? = some q := by
  cases hq : ps[stop]? with
  | some q => exact ⟨q, rfl⟩
  | none =>
    rw [cut_at_end hprev hcut hq, List.drop_length] at hp
    cases hp

/-- What the window has outside of the pieces up to the cut and of those kept behind is blank: each byte that is no
blank lies in a piece of the window, and if this is not up to the cut, it is behind the piece that is kept first. -/
theorem Spliced.blank_in_window (h : Spliced e old o stop tokens cut)
    (hparts : e.change.Parts old e.text before removed added behind) (hlines : e.lines = LineTable.ofText e.text)
    (hprev : reading e.previous = .ofPieces ps) (hps : Piece.InOrder (LineTable.ofText old) 0 (Text.bytes old) ps)
    (hgapless : Piece.Gapless old ps) {w : List Char} (htokens : tokens = Token.lex e.windowStart w) {m : Nat} {c : Char}
    (hw : Text.HasAt w m c) (hat : Text.HasAt e.text (e.windowStart + m) c)
    (hread : ∀ p ∈ (Reading.pieces ⟨e.options, e.text, e.lines⟩ tokens).take cut, ¬p.range.Has (e.windowStart + m))
    (hkept : ∀ p ∈ (ps.drop stop).map (Piece.shifted e.change.byteDelta e.change.lineDelta),
      ¬p.range.Has (e.windowStart + m)) : Token.Scan.isSpace c = true := by
  cases hspace : Token.Scan.isSpace c with
  | true => rfl
  | false =>
    obtain ⟨p, hp, hhas⟩ : ∃ p ∈ Reading.pieces ⟨e.options, e.text, e.lines⟩ tokens,
        p.range.Has (e.windowStart + m) := htokens ▸ Reading.pieces_has _ _ hw hspace
    rw [← List.take_append_drop cut (Reading.pieces _ _)] at hp
    have hdrop := (List.mem_append.mp hp).resolve_left fun htake => hread p htake hhas
    have hcuts := h.cuts
    rw [Reading.ofTokens_eq] at hcuts
    obtain ⟨q, hq⟩ := exists_behind_of_drop hprev hcuts hdrop
    obtain ⟨x, hx, hrange⟩ := cut_at hprev (h.lossless hparts hlines hps) hcuts hq
    have hinOrder := Piece.pieces_inOrder ⟨e.options, e.text, e.lines⟩ (window_inLine h.reads)
    have hpx := hinOrder.start_le hx hdrop
    rw [hrange] at hpx
    exact hspace.symm.trans (h.blank_behind hparts hprev hps hgapless hq (Nat.le_trans hpx hhas.1) hat hkept)

/-- A splice leaves nothing but blanks outside of its pieces. -/
theorem Spliced.gapless (h : Spliced e old o stop tokens cut)
    (hparts : e.change.Parts old e.text before removed added behind) (hlines : e.lines = LineTable.ofText e.text)
    (hprev : reading e.previous = .ofPieces ps) (hps : Piece.InOrder (LineTable.ofText old) 0 (Text.bytes old) ps)
    (hgapless : Piece.Gapless old ps) :
    Piece.Gapless e.text (ps.take e.first ++ (Reading.pieces ⟨e.options, e.text, e.lines⟩ tokens).take cut ++
      (ps.drop stop).map (.shifted e.change.byteDelta e.change.lineDelta)) := by
  obtain ⟨u, v, hbefore, hstart, hfront⟩ := h.front hparts hprev hps
  have htext : e.text = u ++ (v ++ added ++ behind) := by
    rw [hparts.new, hbefore, List.append_assoc, List.append_assoc, List.append_assoc]
  obtain ⟨w, z, hwz, htokens, hwindow⟩ := window_text h.reads htext hstart
  rw [← hstart] at htokens hwindow
  intro n c hat hout
  simp only [List.mem_append, or_imp, forall_and] at hout
  obtain ⟨⟨hkept, hread⟩, hbehind⟩ := hout
  have hat' := hat
  rw [htext, hwz] at hat'
  rcases hat'.split with hu | ⟨m, rfl, hrest⟩
  · -- In front of the window nothing has changed.
    have hold : Text.HasAt old n c := by
      rw [hparts.old, hbefore, List.append_assoc, List.append_assoc]
      exact hu.appendRight _
    refine hgapless n c hold fun p hp => ?_
    rw [← List.take_append_drop e.first ps] at hp
    rcases List.mem_append.mp hp with hp | hp
    · exact hkept p hp
    · rintro ⟨hle, -⟩
      have := hfront p hp
      have := hu.lt
      omega
  · rw [← hstart] at hat hread hbehind
    rcases hrest.split with hw | ⟨k, rfl, hz⟩
    · exact h.blank_in_window hparts hlines hprev hps hgapless htokens hw hat hread hbehind
    · -- Behind the window the text is what it was behind the change.
      have hlt := hat.lt
      have hsize : e.lines.size = Text.bytes e.text := by rw [hlines]; rfl
      rcases le_windowStop stop hprev (h.lossless hparts hlines hps) hps with hend | ⟨q, hq, hqstart⟩
      · omega
      · exact h.blank_behind hparts hprev hps hgapless hq (by omega) hat hbehind

end Splice

namespace Diagnostic

/-- Faults none of which starts before an earlier one. -/
def Sorted (ds : List Diagnostic) : Prop :=
  ds.Pairwise fun a b => a.range.start ≤ b.range.start

theorem inPlaceOrder_sorted (ds : List Diagnostic) : Sorted (inPlaceOrder ds) := by
  refine (inPlaceOrder_precedes ds).imp fun {a b} h => ?_
  simp only [Precedes, placeKey, keyLe, Bool.or_eq_true, decide_eq_true_eq, Bool.and_eq_true, beq_iff_eq] at h
  omega

theorem Sorted.shifted {ds : List Diagnostic} (h : Sorted ds) (d : Int) : Sorted (ds.map (·.shifted d)) :=
  List.pairwise_map.mpr (h.imp fun hle => moved_mono hle d)

end Diagnostic

namespace Piece

variable {lines : LineTable} {lo hi : Nat} {ps : List Piece}

/-- Pieces in order whose faults are sorted have them sorted as a whole. -/
theorem InOrder.sorted (h : InOrder lines lo hi ps) (hs : ∀ p ∈ ps, Diagnostic.Sorted p.faults) :
    Diagnostic.Sorted (ps.flatMap (·.faults)) := by
  refine List.pairwise_flatMap.mpr ⟨hs, ?_⟩
  refine (List.pairwise_map.mp h.inLine.pairwise).imp_of_mem fun {p q} hp hq hle x hx y hy => ?_
  obtain ⟨⟨-, hx₁, hx₂⟩, -⟩ := (h.sound p hp).faults x hx
  obtain ⟨⟨hy₁, -, -⟩, -⟩ := (h.sound q hq).faults y hy
  omega

end Piece

namespace Outline

theorem gapless_lasting : Lasting fun cs ps => Piece.Gapless cs ps ∧ ∀ p ∈ ps, Diagnostic.Sorted p.faults := by
  have hread : ∀ (src : Source) (ts : List Token), ∀ p ∈ Reading.pieces src ts, Diagnostic.Sorted p.faults := by
    intro src ts p hp
    obtain ⟨r, -, rfl⟩ := List.mem_map.mp hp
    exact Diagnostic.inPlaceOrder_sorted _
  refine ⟨fun options cs => ⟨fun n c hat hout => ?_, hread _ _⟩, fun hs hparts hlines hprev hps h => ?_⟩
  · cases hspace : Token.Scan.isSpace c with
    | true => rfl
    | false =>
      obtain ⟨p, hp, hhas⟩ := Reading.pieces_has ⟨options, cs, LineTable.ofText cs⟩ 0 hat hspace
      rw [Nat.zero_add] at hhas
      exact absurd hhas (hout p hp)
  · refine ⟨hs.gapless hparts hlines hprev hps h.1, fun p hp => ?_⟩
    rcases List.mem_append.mp hp with hp | hp
    · rcases List.mem_append.mp hp with hp | hp
      · exact h.2 p (List.mem_of_mem_take hp)
      · exact hread _ _ p (List.mem_of_mem_take hp)
    · obtain ⟨q, hq, rfl⟩ := List.mem_map.mp hp
      exact (h.2 q (List.mem_of_mem_drop hq)).shifted _

end Outline

/-- Ranges in a row without a gap, from the one offset to the other. -/
def Range.Tile : Nat → Nat → List Range → Prop
  | lo, hi, [] => lo = hi
  | lo, hi, r :: rs => r.start = lo ∧ r.start ≤ r.stop ∧ Tile r.stop hi rs

namespace Piece

variable {ps : List Piece} {symbols faults i : Nat} {s : Segment}

theorem segments_tile (symbols faults : Nat) (ps : List Piece) :
    Range.Tile symbols (symbols + (ps.flatMap (·.symbols)).length) ((segments symbols faults ps).map (·.symbols)) ∧
      Range.Tile faults (faults + (ps.flatMap (·.faults)).length) ((segments symbols faults ps).map (·.faults)) := by
  induction ps generalizing symbols faults with
  | nil => exact ⟨rfl, rfl⟩
  | cons p ps ih =>
    obtain ⟨h₁, h₂⟩ := ih (symbols + p.symbols.length) (faults + p.faults.length)
    rw [List.flatMap_cons, List.flatMap_cons, List.length_append, List.length_append, ← Nat.add_assoc, ← Nat.add_assoc]
    exact ⟨⟨rfl, Nat.le_add_right _ _, h₁⟩, ⟨rfl, Nat.le_add_right _ _, h₂⟩⟩

/-- The parts of a piece stand in those of all pieces where its segment says. -/
theorem extract_flatMap {α : Type} (part : Piece → List α) {p : Piece} (hp : ps[i]? = some p) :
    (ps.flatMap part).extract ((ps.take i).flatMap part).length
      (((ps.take i).flatMap part).length + (part p).length) = part p := by
  rw [← List.head?_drop] at hp
  obtain ⟨rest, hrest⟩ := List.head?_eq_some_iff.mp hp
  rw [List.extract_eq_take_drop, Splice.drop_flatMap, hrest, List.flatMap_cons, Nat.add_sub_cancel_left,
    List.take_left]

/-- A segment of pieces is the one of the piece that stands where it does. -/
theorem exists_at (hs : s ∈ segments 0 0 ps) : ∃ (i : Nat) (p : Piece), ps[i]? = some p ∧
    s = p.segment ((ps.take i).flatMap (·.symbols)).length ((ps.take i).flatMap (·.faults)).length := by
  obtain ⟨i, hi⟩ := List.mem_iff_getElem?.mp hs
  rw [segments_getElem?, Nat.zero_add, Nat.zero_add] at hi
  obtain ⟨p, hp, hsegment⟩ := Option.map_eq_some_iff.mp hi
  exact ⟨i, p, hp, hsegment.symm⟩

/-- It has the symbols and the faults that the segment names. -/
theorem exists_of_segment (hs : s ∈ segments 0 0 ps) : ∃ p ∈ ps, s.range = p.range ∧
    (s.firstLine, s.lastLine) = (p.firstLine, p.lastLine) ∧
      (ps.flatMap (·.symbols)).extract s.symbols.start s.symbols.stop = p.symbols ∧
      (ps.flatMap (·.faults)).extract s.faults.start s.faults.stop = p.faults := by
  obtain ⟨i, p, hp, rfl⟩ := exists_at hs
  exact ⟨p, List.mem_of_getElem? hp, rfl, rfl, extract_flatMap _ hp, extract_flatMap _ hp⟩

end Piece

namespace Outline

variable {text : String} {o : Outline}

/-- Whatever text was read and however it was edited, the segments index the outline. They share no lines and know
the lines of their ranges; the symbols and the faults of the document fall apart into those of its segments, in
order, and lie in their ranges; the faults are sorted; outside of all segments there are only blanks; and the
tallies of the segments add up to what the document was recovered from. -/
theorem Reachable.indexed (h : Reachable text o) :
    o.segments.Pairwise (fun a b => a.lastLine < b.firstLine) ∧
      (∀ s ∈ o.segments, (s.firstLine, s.lastLine) = (LineTable.ofText text.toList).linesOf s.range) ∧
      Range.Tile 0 o.symbols.length (o.segments.map (·.symbols)) ∧
      Range.Tile 0 o.faults.length (o.segments.map (·.faults)) ∧
      (∀ s ∈ o.segments,
        (∀ x ∈ Symbol.walkAll (o.symbols.extract s.symbols.start s.symbols.stop), s.range.contains x.range = true) ∧
          ∀ d ∈ o.faults.extract s.faults.start s.faults.stop, s.range.contains d.range = true) ∧
      o.faults.Pairwise (fun a b => a.range.start ≤ b.range.start) ∧
      (∀ n c, Text.HasAt text.toList n c → (∀ s ∈ o.segments, ¬s.range.Has n) → Token.Scan.isSpace c = true) ∧
      o.recovery = .ofTallies (o.segments.map (·.tally)) := by
  obtain ⟨ps, hps, hgapless, hsorted⟩ := h.pieced_with gapless_lasting
  have hsymbols : o.symbols = ps.flatMap (·.symbols) := congrArg Reading.symbols hps.reading
  have hfaults : o.faults = ps.flatMap (·.faults) := congrArg Reading.faults hps.reading
  have hsegments : o.segments = Piece.segments 0 0 ps := congrArg Reading.segments hps.reading
  obtain ⟨htile₁, htile₂⟩ := Piece.segments_tile 0 0 ps
  rw [Nat.zero_add] at htile₁ htile₂
  rw [hsymbols, hfaults, hsegments, hps.recovery]
  refine ⟨?_, fun s hs => ?_, htile₁, htile₂, fun s hs => ?_, hps.inOrder.sorted hsorted, fun n c hat hout => ?_, ?_⟩
  · have hlines : (Piece.segments 0 0 ps).map (fun s => (s.firstLine, s.lastLine)) =
        ps.map fun p => (p.firstLine, p.lastLine) := Piece.map_segments (fun _ _ _ => rfl) 0 0 ps
    have hpairs : (ps.map fun p => (p.firstLine, p.lastLine)).Pairwise fun a b => a.2 < b.1 :=
      List.pairwise_map.mpr hps.inOrder.apart
    rw [← hlines] at hpairs
    exact List.pairwise_map.mp hpairs
  · obtain ⟨p, hp, hrange, hlines, -⟩ := Piece.exists_of_segment hs
    rw [hlines, hrange, (hps.inOrder.sound p hp).lines]
  · obtain ⟨p, hp, hrange, -, hs₁, hs₂⟩ := Piece.exists_of_segment hs
    have hsound := hps.inOrder.sound p hp
    rw [hs₁, hs₂, hrange]
    refine ⟨fun x hx => ?_, fun d hd => ?_⟩
    · obtain ⟨h₁, -, h₃⟩ := Symbol.InLine.walkAll_bounds _ hsound.symbols x hx
      simp [Range.contains, h₁, h₃]
    · obtain ⟨⟨h₁, -, h₃⟩, -⟩ := hsound.faults d hd
      simp [Range.contains, h₁, h₃]
  · refine hgapless n c hat fun p hp => ?_
    have hranges : (Piece.segments 0 0 ps).map (·.range) = ps.map (·.range) :=
      Piece.map_segments (fun _ _ _ => rfl) 0 0 ps
    obtain ⟨s, hs, hrange⟩ := List.mem_map.mp (hranges ▸ List.mem_map_of_mem hp)
    exact hrange ▸ hout s hs
  · exact congrArg Recovery.ofTallies (Piece.map_segments (fun _ _ _ => rfl) 0 0 ps).symm

/-- For instance after a call that is not closed has got a second line. -/
theorem reachable_indexed_after_edit :
    (reparse .default 0 "SUM(1" (ofText .default "SUM(1") "SUM(1\n\n[A").faults.Pairwise
      fun a b => a.range.start ≤ b.range.start :=
  (Reachable.indexed (.again .default 0 (.read .default "SUM(1") "SUM(1\n\n[A")).2.2.2.2.2.1

end Outline

end Calculation
