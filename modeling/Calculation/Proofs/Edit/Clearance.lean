import Calculation.Proofs.Document.Bounds
import Calculation.Proofs.Edit.Splicing

/-!
Nothing that a splice moves falls below zero, and no bits of it are lost. What is kept behind a change stands behind what
the edit removed, in bytes and in lines, and behind the symbols and faults of the pieces before it; so all of it can be
moved by as much as the edit makes the text shorter. Where it is moved to it stands in the new text, which is short enough
for offsets of 32 bits.
-/
namespace Calculation

open Located Calculation.Symbol

/-- How far to move bytes, lines, symbols and faults. -/
def Shift.of (bytes lines symbols faults : Int) : Shift
  | .byte => bytes
  | .line => lines
  | .symbol => symbols
  | .fault => faults

namespace Splice

/-- How `append` moves what it puts behind a reading. -/
def appendShift (a : Reading) (delta lines : Int) (symbols faults : Nat) : Shift :=
  .of delta lines ((a.symbols.length : Int) - symbols) ((a.faults.length : Int) - faults)

variable (a b : Reading) (delta lines : Int) (symbols faults : Nat)

theorem append_eq : append a b delta lines symbols faults =
    ⟨a.symbols ++ (relocated (appendShift a delta lines symbols faults) b).symbols,
      a.faults ++ (relocated (appendShift a delta lines symbols faults) b).faults,
      a.segments ++ (relocated (appendShift a delta lines symbols faults) b).segments⟩ := by
  rw [append, relocatedAll_eq_map]
  rfl

theorem follow_eq : follow a b delta lines symbols faults =
    ⟨a.symbols ++ (shifted (appendShift a delta lines symbols faults) b).symbols,
      a.faults ++ (shifted (appendShift a delta lines symbols faults) b).faults,
      a.segments ++ (shifted (appendShift a delta lines symbols faults) b).segments⟩ := by
  rw [follow, shiftedAll_eq_map]
  rfl

variable {a b delta lines symbols faults}

theorem append_eq_follow (h : Keeps (appendShift a delta lines symbols faults) b) :
    append a b delta lines symbols faults = follow a b delta lines symbols faults := by
  rw [append_eq, follow_eq, Lawful.relocated_eq h]

/-- All that a splice moves can be moved so far that `P` holds: what it reads again, what it keeps behind that, and the
boundaries that it looks for in the window. -/
structure Edited.Clear (P : ∀ {α : Type} [Located α], Shift → α → Prop) (e : Edited) (stop : Nat) (window : Reading)
    (cut : Nat) : Prop where
  again : P (appendShift (upTo (reading e.previous) e.first) 0 0 0 0) (upTo window cut)
  behind : P
    (appendShift (follow (upTo (reading e.previous) e.first) (upTo window cut) 0 0 0 0)
      e.change.byteDelta e.change.lineDelta
      ((reading e.previous).symbols.length - (onwards (reading e.previous) stop).symbols.length)
      ((reading e.previous).faults.length - (onwards (reading e.previous) stop).faults.length))
    (onwards (reading e.previous) stop)
  boundary : ∀ s ∈ e.previous.segments.drop stop, P (.of e.change.byteDelta e.change.lineDelta 0 0) s.range

variable {e : Edited} {o : Outline} {old before removed added behind : List Char} {ps : List Piece} {stop cut : Nat}
  {tokens : List Token}

/-- A splice that loses no bits puts readings together exactly. -/
theorem Edited.Clear.assemble_eq {window : Reading} (h : e.Clear Keeps stop window cut) :
    e.assemble stop window cut = e.joined stop window cut := by
  unfold assemble joined
  dsimp only
  rw [append_eq_follow h.again, append_eq_follow h.behind]

/-- What stands behind a change can be moved as far as the change makes the text shorter. -/
theorem movable_behind (hparts : e.change.Parts old e.text before removed added behind)
    (hps : Piece.InOrder (LineTable.ofText old) 0 (Text.bytes old) ps)
    (hstop : ∀ p ∈ ps.drop stop, Text.bytes (before ++ removed) ≤ p.range.start) :
    ∀ p ∈ ps.drop stop, 0 ≤ (p.range.start : Int) + e.change.byteDelta ∧
      0 ≤ (p.firstLine : Int) + e.change.lineDelta := by
  intro p hp
  have hstart := hstop p hp
  have hline := firstLine_ge (hps.sound p (List.mem_of_mem_drop hp)) (congrArg LineTable.ofText hparts.old) hstart
  rw [List.count_append] at hline
  have hdelta := hparts.lineDelta
  have hold := hparts.oldStop
  refine ⟨?_, by omega⟩
  unfold LineChange.byteDelta
  omega

/-- What stands in a text that is short enough can be moved as far as the change makes the text longer. -/
theorem bounded_behind (hparts : e.change.Parts old e.text before removed added behind)
    (hps : Piece.InOrder (LineTable.ofText old) 0 (Text.bytes old) ps) (hold : Text.bytes old < capacity)
    (hnew : Text.bytes e.text < capacity) :
    ∀ p ∈ ps, (p.range.stop < capacity ∧ (p.range.stop : Int) + e.change.byteDelta < capacity) ∧
      p.lastLine < capacity ∧ (p.lastLine : Int) + e.change.lineDelta < capacity := by
  intro p hp
  have hstop := (hps.bounds p hp).2
  have hline := LineTable.lineOf_le_feeds old (p.range.stop - 1)
  rw [← (hps.sound p hp).lastLine_eq] at hline
  have hfeeds := Text.feeds_le_bytes old
  have hfeeds' := Text.feeds_le_bytes e.text
  have hsize := hparts.size_eq
  have hdelta := hparts.lineDelta
  have hcount : (e.text.count '\n' : Int) = old.count '\n' + e.change.lineDelta := by
    rw [hdelta, hparts.old, hparts.new]
    simp only [List.count_append]
    omega
  omega

/-- The places that the segments kept behind name can be moved to behind what is put in front. -/
theorem places_behind (hprev : reading e.previous = .ofPieces ps) (stop : Nat) (a : Reading) (delta lines : Int) :
    let behind := onwards (reading e.previous) stop
    let δ := appendShift a delta lines ((reading e.previous).symbols.length - behind.symbols.length)
      ((reading e.previous).faults.length - behind.faults.length)
    (∀ n, ((ps.take stop).flatMap (·.symbols)).length ≤ n → 0 ≤ (n : Int) + δ .symbol) ∧
      ∀ n, ((ps.take stop).flatMap (·.faults)).length ≤ n → 0 ≤ (n : Int) + δ .fault := by
  intro behind δ
  have hsymbols : (reading e.previous).symbols = ps.flatMap (·.symbols) := congrArg Reading.symbols hprev
  have hfaults : (reading e.previous).faults = ps.flatMap (·.faults) := congrArg Reading.faults hprev
  have hbehind : behind = partOf _ _ (ps.drop stop) := (congrArg (onwards · stop) hprev).trans (onwards_ofPieces ps stop)
  refine ⟨fun n hn => ?_, fun n hn => ?_⟩
  · simp only [δ, appendShift, Shift.of, hbehind, partOf, hsymbols, length_flatMap_sub]
    omega
  · simp only [δ, appendShift, Shift.of, hbehind, partOf, hfaults, length_flatMap_sub]
    omega

/-- What holds of the ends of the pieces kept behind holds of all that is moved there. -/
theorem clear_of_ends {Q : Shift → Axis × Nat → Prop} (hQ : ∀ δ, Convex (Q δ))
    (hplace : ∀ (δ : Shift) (i : Axis) (n : Nat), i = .symbol ∨ i = .fault → 0 ≤ (n : Int) + δ i → Q δ (i, n))
    (hprev : reading e.previous = .ofPieces ps) (hps : Piece.InOrder (LineTable.ofText old) 0 (Text.bytes old) ps)
    (hspans : ∀ p ∈ ps, p.Spans)
    (hends : ∀ p ∈ ps.drop stop, ∀ symbols faults, p.Ends (Q (.of e.change.byteDelta e.change.lineDelta symbols faults)))
    {window : Reading}
    (hagain : ∀ x ∈ coordinates (upTo window cut), Q (appendShift (upTo (reading e.previous) e.first) 0 0 0 0) x) :
    e.Clear (fun δ a => ∀ x ∈ coordinates a, Q δ x) stop window cut := by
  refine ⟨hagain, ?_, ?_⟩
  · obtain ⟨hsymbols, hfaults⟩ := places_behind hprev stop
      (follow (upTo (reading e.previous) e.first) (upTo window cut) 0 0 0 0) e.change.byteDelta e.change.lineDelta
    have hbehind : onwards (reading e.previous) stop = partOf _ _ (ps.drop stop) :=
      (congrArg (onwards · stop) hprev).trans (onwards_ofPieces ps stop)
    intro x hx
    rw [hbehind] at hx
    exact Piece.Ends.partOf (fun p hp => hps.sound p (List.mem_of_mem_drop hp))
      (fun p hp => hspans p (List.mem_of_mem_drop hp)) (fun p hp => hends p hp _ _) (hQ _)
      (fun n hn => hplace _ _ n (.inl rfl) (hsymbols n hn)) (fun n hn => hplace _ _ n (.inr rfl) (hfaults n hn)) x hx
  · intro s hs
    have hsegments : e.previous.segments = Piece.segments 0 0 ps := congrArg Reading.segments hprev
    obtain ⟨i, hi⟩ := List.mem_iff_getElem?.mp hs
    rw [hsegments, Piece.segments_drop, Piece.segments_getElem?] at hi
    obtain ⟨p, hp, rfl⟩ := Option.map_eq_some_iff.mp hi
    have hp := hends p (List.mem_of_getElem? hp) 0 0
    exact List.forall_mem_cons.mpr ⟨hp.start, List.forall_mem_singleton.mpr hp.stop⟩

/-- The ends of a piece can be moved when neither its start falls below zero nor its end needs more than 32 bits. -/
theorem ends_keep {p : Piece} {lines : LineTable} {δ : Shift} (hp : p.Sound lines)
    (hstart : 0 ≤ (p.range.start : Int) + δ .byte) (hfirst : 0 ≤ (p.firstLine : Int) + δ .line)
    (hstop : p.range.stop < capacity ∧ (p.range.stop : Int) + δ .byte < capacity)
    (hlast : p.lastLine < capacity ∧ (p.lastLine : Int) + δ .line < capacity) :
    p.Ends fun x => x.1.Holds x.2 ∧ x.1.Holds (x.2 + δ x.1) := by
  have hproper := hp.proper
  have hlines := hp.lines_le
  constructor <;> simp only [Axis.Holds] <;> omega

/-- No bits are lost either, when the texts are short enough for their offsets. -/
theorem clear_keeps (hparts : e.change.Parts old e.text before removed added behind)
    (hlines : e.lines = LineTable.ofText e.text) (hprev : reading e.previous = .ofPieces ps)
    (hps : Piece.InOrder (LineTable.ofText old) 0 (Text.bytes old) ps) (hspans : ∀ p ∈ ps, p.Spans)
    (hstop : ∀ p ∈ ps.drop stop, Text.bytes (before ++ removed) ≤ p.range.start)
    (hold : Text.bytes old < capacity) (hnew : Text.bytes e.text < capacity) (hreads : e.window? stop = some tokens)
    (cut : Nat) : e.Clear Keeps stop (.ofTokens ⟨e.options, e.text, e.lines⟩ tokens) cut := by
  have hplace : ∀ (δ : Shift) (i : Axis) (n : Nat), i = .symbol ∨ i = .fault → 0 ≤ (n : Int) + δ i →
      i.Holds n ∧ i.Holds (n + δ i) := by
    rintro δ i n (rfl | rfl) h <;> exact ⟨⟨Int.natCast_nonneg n, nofun⟩, h, nofun⟩
  refine clear_of_ends convex_keeps hplace hprev hps hspans (fun p hp symbols faults => ?_) ?_
  · obtain ⟨hstart, hfirst⟩ := movable_behind hparts hps hstop p hp
    obtain ⟨hstop, hlast⟩ := bounded_behind hparts hps hold hnew p (List.mem_of_mem_drop hp)
    exact ends_keep (hps.sound p (List.mem_of_mem_drop hp)) hstart hfirst hstop hlast
  · -- What is read again stands in the new text already.
    have hwindow := Piece.pieces_inOrder ⟨e.options, e.text, e.lines⟩ (window_inLine hreads)
    have hspans := Piece.pieces_spans _ _ hwindow
    rw [Reading.ofTokens_eq, upTo_ofPieces]
    refine Piece.Ends.partOf (fun p hp => hwindow.sound p (List.mem_of_mem_take hp))
      (fun p hp => hspans p (List.mem_of_mem_take hp)) (fun p hp => ?_) (convex_keeps _)
      (fun n _ => hplace _ _ n (.inl rfl) ?_) fun n _ => hplace _ _ n (.inr rfl) ?_
    · have hmem := List.mem_of_mem_take hp
      have hsound := hwindow.sound p hmem
      have hstop := (hwindow.bounds p hmem).2
      have hline := LineTable.lineOf_le_feeds e.text (p.range.stop - 1)
      rw [← hlines, ← hsound.lastLine_eq] at hline
      have hfeeds := Text.feeds_le_bytes e.text
      refine ends_keep hsound ?_ ?_ ?_ ?_ <;> simp only [appendShift, Shift.of] <;> omega
    · simp only [appendShift, Shift.of]
      omega
    · simp only [appendShift, Shift.of]
      omega

/-- What a splice assembles: the pieces kept in front, those of the window, and those kept behind, moved exactly. -/
theorem Spliced.assembles (h : Spliced e old o stop tokens cut)
    (hparts : e.change.Parts old e.text before removed added behind) (hlines : e.lines = LineTable.ofText e.text)
    (hprev : reading e.previous = .ofPieces ps) (hps : Piece.InOrder (LineTable.ofText old) 0 (Text.bytes old) ps)
    (hspans : ∀ p ∈ ps, p.Spans) :
    o = .ofReading (.ofPieces (ps.take e.first ++ (Reading.pieces ⟨e.options, e.text, e.lines⟩ tokens).take cut ++
      (ps.drop stop).map (.shifted e.change.byteDelta e.change.lineDelta))) e.lines.count := by
  have hnew := h.newShort
  rw [hlines] at hnew
  have hclear := clear_keeps hparts hlines hprev hps hspans (h.kept_behind hparts hprev hps) h.oldShort hnew h.reads cut
  have hgives := h.gives
  rw [hclear.assemble_eq, Reading.ofTokens_eq, joined_pieces e stop cut hprev] at hgives
  exact hgives

/-- The pieces of a splice span their symbols. -/
theorem Spliced.spans (h : Spliced e old o stop tokens cut) (hspans : ∀ p ∈ ps, p.Spans) :
    ∀ p ∈ ps.take e.first ++ (Reading.pieces ⟨e.options, e.text, e.lines⟩ tokens).take cut ++
      (ps.drop stop).map (.shifted e.change.byteDelta e.change.lineDelta), p.Spans := by
  intro p hp
  rcases List.mem_append.mp hp with hp | hp
  · rcases List.mem_append.mp hp with hp | hp
    · exact hspans p (List.mem_of_mem_take hp)
    · have hwindow := Piece.pieces_inOrder ⟨e.options, e.text, e.lines⟩ (window_inLine h.reads)
      exact Piece.pieces_spans _ _ hwindow p (List.mem_of_mem_take hp)
  · obtain ⟨q, hq, rfl⟩ := List.mem_map.mp hp
    exact (hspans q (List.mem_of_mem_drop hq)).shifted _ _

end Splice

end Calculation
