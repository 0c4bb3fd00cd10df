import Calculation.Proofs.Document.Weaving
import Calculation.Proofs.Seam.Moves
import Calculation.Proofs.Text.Slices

namespace Calculation

open Movable

variable {lines₁ lines₂ : LineTable} {bytes lines size : Nat}

/-- The lines of a text, up to `size`, are those of another one so many bytes and lines further on. -/
def LineTable.Moves (lines₁ lines₂ : LineTable) (bytes lines size : Nat) : Prop :=
  ∀ n ≤ size, lines₂.lineOf (n + bytes) = lines₁.lineOf n + lines

namespace LineTable

theorem moves_prefix (a b c : List Char) : Moves (ofText (a ++ b)) (ofText (a ++ c)) 0 0 (Text.bytes a) :=
  fun n hn => by rw [Nat.add_zero, Nat.add_zero, lineOf_prefix a b hn, lineOf_prefix a c hn]

theorem moves_suffix (a b : List Char) (size : Nat) :
    Moves (ofText b) (ofText (a ++ b)) (Text.bytes a) (a.count '\n') size :=
  fun n _ => by rw [Nat.add_comm, lineOf_suffix, Nat.add_comm]

theorem Moves.linesOf (h : Moves lines₁ lines₂ bytes lines size) {r : Range} (hr : r.start ≤ r.stop)
    (hsize : r.stop ≤ size) :
    lines₂.linesOf (r.shifted bytes) = ((lines₁.linesOf r).1 + lines, (lines₁.linesOf r).2 + lines) := by
  rw [Range.shifted_nat]
  by_cases he : r.start = r.stop
  · have h₁ := h r.start (Nat.le_trans hr hsize)
    simp [LineTable.linesOf, Range.isEmpty, he, he ▸ h₁]
  · have hlt : r.start < r.stop := by omega
    have h₁ := h r.start (Nat.le_trans hr hsize)
    have h₂ := h (r.stop - 1) (by omega)
    have hlast : r.stop + bytes - 1 = r.stop - 1 + bytes := by omega
    rw [linesOf_proper lines₁ hlt, linesOf_proper lines₂ (r := ⟨r.start + bytes, r.stop + bytes⟩)
      (Nat.add_lt_add_right hlt bytes), hlast, h₁, h₂]

theorem Moves.continuation (h : Moves lines₁ lines₂ bytes lines size) {r : Range} (hr : r.start ≤ r.stop)
    (hsize : r.stop ≤ size) :
    lines₂.continuation (r.shifted bytes) = movedLines (lines₁.continuation r) lines := by
  have hmoved : movedLines (lines₁.continuation r) lines = (lines₁.continuation r).map (· + lines) := by
    rw [movedLines_of_nonneg fun n _ => by omega]
    exact List.map_congr_left fun n _ => moved_nat n lines
  have hdiff : ∀ a b : Nat, a + lines - (b + lines) = a - b := fun a b => Nat.add_sub_add_right a lines b
  rw [hmoved]
  simp only [LineTable.continuation, h.linesOf hr hsize, hdiff, List.map_map]
  refine List.map_congr_left fun n _ => ?_
  simp only [Function.comp_apply]
  omega

end LineTable

theorem Token.shifted_zero (t : Token) : t.shifted 0 = t := by
  have h : t.range.shifted ((0 : Nat) : Int) = t.range := Range.shifted_zero t.range
  rw [Token.shifted, h]

theorem Token.map_shifted_zero (ts : List Token) : ts.map (·.shifted 0) = ts :=
  (List.map_congr_left fun t _ => t.shifted_zero).trans (List.map_id' ts)

theorem Lexeme.map_shifted_zero (ls : List Lexeme) : ls.map (·.shifted 0) = ls := by
  have hone : ∀ l : Lexeme, l.shifted 0 = l := fun l => by rw [Lexeme.shifted, Token.shifted_zero]
  exact (List.map_congr_left fun l _ => hone l).trans (List.map_id' ls)

theorem Event.map_shifted_zero (es : List Event) : es.map (·.shifted 0) = es := by
  have hone : ∀ e : Event, e.shifted 0 = e := fun e => by
    cases e with
    | valid => rfl
    | fault d => exact congrArg Event.fault d.shifted_zero
  exact (List.map_congr_left fun e _ => hone e).trans (List.map_id' es)

theorem Item.map_shifted_zero (is : List Item) : is.map (Item.shifted 0 0) = is := by
  have hone : ∀ i : Item, i.shifted 0 0 = i := fun i => by
    have hrange : i.range.shifted ((0 : Nat) : Int) = i.range := Range.shifted_zero i.range
    have hsymbols : move 0 0 i.symbols = i.symbols := (move_symbols i.symbols).trans (Symbol.shiftedAll_zero _)
    rw [Item.shifted, hrange, hsymbols, Event.map_shifted_zero]
  exact (List.map_congr_left fun i _ => hone i).trans (List.map_id' is)

/-- A source, up to `size`, stands so many bytes and lines further on in another one. -/
structure Source.Moves (src₁ src₂ : Source) (bytes lines size : Nat) : Prop where
  options : src₂.options = src₁.options
  lines : LineTable.Moves src₁.lines src₂.lines bytes lines size
  trimmed : ∀ r : Range, r.start ≤ r.stop → r.stop ≤ size → src₂.trimmed (r.shifted bytes) = src₁.trimmed r

/-- A text with the lines that it has. -/
def Source.ofText (options : Options) (cs : List Char) : Source :=
  ⟨options, cs, .ofText cs⟩

theorem Outline.reading_ofText (options : Options) (text : String) :
    Splice.reading (ofText options text) =
      .ofPieces (Reading.pieces (.ofText options text.toList) (Token.lex 0 text.toList)) :=
  Reading.ofTokens_eq _ _

namespace Source

theorem moves_prefix (options : Options) (a b c : List Char) :
    Moves (ofText options (a ++ b)) (ofText options (a ++ c)) 0 0 (Text.bytes a) := by
  refine ⟨rfl, LineTable.moves_prefix a b c, fun r hr hsize => ?_⟩
  have hzero : r.shifted ((0 : Nat) : Int) = r := Range.shifted_zero r
  have hslice : Text.slice? r (a ++ c) = Text.slice? r (a ++ b) :=
    (Text.slice?_prefix c hr hsize).trans (Text.slice?_prefix b hr hsize).symm
  rw [hzero]
  simp only [trimmed, ofText, hslice]

theorem moves_suffix (options : Options) (a b : List Char) (size : Nat) :
    Moves (ofText options b) (ofText options (a ++ b)) (Text.bytes a) (a.count '\n') size := by
  refine ⟨rfl, LineTable.moves_suffix a b size, fun r _ _ => ?_⟩
  simp only [trimmed, ofText, Range.shifted_nat, Text.slice?_suffix]

end Source

namespace Symbol

theorem shifted_eq (s : Symbol) (bytes lines : Int) :
    s.shifted bytes lines = ⟨s.name, s.kind.shifted bytes, s.range.shifted bytes, shiftedAll bytes lines s.children,
      s.isComplete, movedLines s.continuation lines⟩ := by
  cases s
  rw [shifted]

mutual

theorem withComment_shifted (bytes lines : Nat) (comment : Symbol) : ∀ s : Symbol,
    withComment (comment.shifted bytes lines) (s.shifted bytes lines) = (withComment comment s).shifted bytes lines
  | ⟨n, k, r, cs, c, l⟩ => by
    rw [shifted, withComment, withComment, shifted, insertComment_shifted bytes lines comment cs]

theorem insertComment_shifted (bytes lines : Nat) (comment : Symbol) : ∀ ss : List Symbol,
    insertComment (comment.shifted bytes lines) (shiftedAll bytes lines ss) =
      shiftedAll bytes lines (insertComment comment ss)
  | [] => by
    rw [shiftedAll, insertComment, insertComment, shiftedAll, shiftedAll]
  | s :: ss => by
    have hr : ∀ x : Symbol, (x.shifted bytes lines).range = x.range.shifted bytes := fun x => by rw [shifted_eq]
    have hle : ∀ a b : Nat, a + bytes ≤ b + bytes ↔ a ≤ b := fun a b => Nat.add_le_add_iff_right
    rw [shiftedAll, insertComment, insertComment, hr, hr, Range.shifted_contains]
    simp only [Range.shifted_nat, hle]
    split
    · rw [insertComment_shifted bytes lines comment ss, shiftedAll]
    · split
      · rw [withComment_shifted bytes lines comment s, shiftedAll]
      · rw [shiftedAll, shiftedAll]

end

end Symbol

namespace Item

variable {comment : Item} {is : List Item} {cs : List Token}

theorem withComment_shifted (i comment : Item) :
    (i.shifted bytes lines).withComment (comment.shifted bytes lines) =
      (i.withComment comment).shifted bytes lines := by
  have hsymbols : ∀ cs ss : List Symbol,
      (move bytes lines cs).foldl (fun ss s => s.insertComment ss) (move bytes lines ss) =
        move bytes lines (cs.foldl (fun ss s => s.insertComment ss) ss) := by
    intro cs
    induction cs with
    | nil => exact fun _ => rfl
    | cons c cs ih =>
      intro ss
      have hone : (move bytes lines c).insertComment (move bytes lines ss) =
          move bytes lines (c.insertComment ss) := by
        rw [move_symbols, move_symbols, ← Symbol.insertComment_shifted]
        rfl
      rw [move_cons, List.foldl_cons, List.foldl_cons, hone, ih]
  simp only [withComment, shifted, hsymbols, List.map_append]

theorem attach_shifted (comment : Item) (is : List Item) :
    attach (comment.shifted bytes lines) (is.map (shifted bytes lines)) =
      (attach comment is).map (shifted bytes lines) := by
  have hle : ∀ a b : Nat, a + bytes ≤ b + bytes ↔ a ≤ b := fun a b => Nat.add_le_add_iff_right
  induction is with
  | nil => rfl
  | cons i is ih =>
    have hr : ∀ x : Item, (x.shifted bytes lines).range = x.range.shifted bytes := fun _ => rfl
    rw [List.map_cons, attach, attach, hr, hr, Range.shifted_contains]
    simp only [Range.shifted_nat, hle]
    split
    · rw [ih, List.map_cons]
    · split
      · rw [withComment_shifted, List.map_cons]
      · rw [List.map_cons, List.map_cons]

theorem ofComment_shifted (h : LineTable.Moves lines₁ lines₂ bytes lines size) {t : Token}
    (ht : t.range.start ≤ t.range.stop) (hsize : t.range.stop ≤ size) :
    ofComment lines₂ (t.shifted bytes) = (ofComment lines₁ t).shifted bytes lines := by
  have hopening : (t.range.shifted bytes).opening 2 = (t.range.opening 2).shifted bytes := by
    simp only [Range.opening, Range.shifted_nat, Range.mk.injEq, true_and]
    omega
  have hcont := h.continuation ht hsize
  unfold ofComment
  simp only [Token.shifted, hcont, hopening, Cause.spanning_shifted Cause.openComment _ _ rfl]
  split
  · simp [shifted, Event.shifted, move, Symbol.shifted_eq, Symbol.shiftedAll, Symbol.Kind.shifted]
  · simp [shifted, move, Symbol.shifted_eq, Symbol.shiftedAll, Symbol.Kind.shifted]

theorem weave_shifted (h : LineTable.Moves lines₁ lines₂ bytes lines size)
    (hc : ∀ t ∈ cs, t.range.start ≤ t.range.stop ∧ t.range.stop ≤ size) (is : List Item) :
    weave lines₂ (cs.map (·.shifted bytes)) (is.map (shifted bytes lines)) =
      (weave lines₁ cs is).map (shifted bytes lines) := by
  induction cs generalizing is with
  | nil => rfl
  | cons t cs ih =>
    obtain ⟨⟨hproper, hsize⟩, hcs⟩ := List.forall_mem_cons.mp hc
    rw [List.map_cons, weave_cons, weave_cons, ofComment_shifted h hproper hsize, attach_shifted, ih hcs]

end Item

namespace Run

def shifted (bytes lines : Nat) (r : Run) : Run :=
  ⟨r.firstLine + lines, r.lastLine + lines, r.statements, r.item.shifted bytes lines⟩

theorem join_shifted (a b : Run) :
    (a.shifted bytes lines).join (b.shifted bytes lines) = (a.join b).shifted bytes lines := by
  simp only [join, shifted, Item.shifted, Nat.add_max_add_right, Range.shifted_cover, move_append, List.map_append]

theorem gather_shifted (x : Run) (xs : List Run) :
    gather (x.shifted bytes lines) (xs.map (shifted bytes lines)) = (gather x xs).map (shifted bytes lines) := by
  induction xs generalizing x with
  | nil => rfl
  | cons y ys ih =>
    have hline : (y.shifted bytes lines).firstLine ≤ (x.shifted bytes lines).lastLine ↔
        y.firstLine ≤ x.lastLine := Nat.add_le_add_iff_right
    rw [List.map_cons, gather, gather]
    simp only [hline]
    split
    · rw [join_shifted, ih]
    · rw [ih, List.map_cons]

theorem ofItems_shifted (h : LineTable.Moves lines₁ lines₂ bytes lines size) {is : List Item}
    (hi : ∀ i ∈ is, i.range.start ≤ i.range.stop ∧ i.range.stop ≤ size) :
    ofItems lines₂ (is.map (Item.shifted bytes lines)) = (ofItems lines₁ is).map (shifted bytes lines) := by
  have hone : ∀ i ∈ is, ofItem lines₂ (i.shifted bytes lines) = (ofItem lines₁ i).shifted bytes lines := by
    intro i hmem
    obtain ⟨hproper, hsize⟩ := hi i hmem
    have hr : (i.shifted bytes lines).range = i.range.shifted bytes := rfl
    simp only [ofItem, hr, h.linesOf hproper hsize, shifted]
    rfl
  have hmap : (is.map (Item.shifted bytes lines)).map (ofItem lines₂) =
      (is.map (ofItem lines₁)).map (shifted bytes lines) := by
    rw [List.map_map, List.map_map]
    exact List.map_congr_left hone
  unfold ofItems
  rw [hmap]
  cases is.map (ofItem lines₁) with
  | nil => rfl
  | cons r rs => exact gather_shifted r rs

end Run

namespace Piece

theorem inPlaceOrder_shifted (bytes : Nat) (ds : List Diagnostic) :
    Diagnostic.inPlaceOrder (ds.map (·.shifted bytes)) = (Diagnostic.inPlaceOrder ds).map (·.shifted bytes) := by
  refine (List.map_mergeSort fun a _ b _ => ?_).symm
  have heq : ∀ a b : Nat, (a + bytes == b + bytes) = (a == b) := fun a b => by
    rw [Bool.eq_iff_iff]
    simp
  simp [Diagnostic.placeKey, Diagnostic.shifted, Range.shifted_nat, Diagnostic.keyLe, heq]

theorem faults_shifted (bytes : Nat) (es : List Event) :
    Event.faults (es.map (·.shifted bytes)) = (Event.faults es).map (·.shifted bytes) := by
  induction es with
  | nil => rfl
  | cons e es ih =>
    cases e with
    | valid => exact ih
    | fault d => exact congrArg (d.shifted bytes :: ·) ih

theorem tally_shifted (bytes : Nat) (es : List Event) :
    Tally.ofEvents (es.map (·.shifted bytes)) = Tally.ofEvents es := by
  rw [Tally.ofEvents, List.foldl_map, Tally.ofEvents]
  congr 1
  funext t e
  cases e <;> rfl

theorem ofRun_shifted (r : Run) : ofRun (r.shifted bytes lines) = (ofRun r).shifted bytes lines := by
  simp only [ofRun, Run.shifted, Item.shifted, Piece.shifted, faults_shifted, inPlaceOrder_shifted, tally_shifted,
    moved_nat, move_symbols]

/-- The pieces of moved statements and comments are their pieces, moved. -/
theorem ofParts_shifted (h : LineTable.Moves lines₁ lines₂ bytes lines size) {is : List Item} {cs : List Token}
    {lo : Nat} (hi : ∀ i ∈ is, i.range.Between lo size) (hc : ∀ t ∈ cs, t.range.Between lo size) :
    ofParts lines₂ (cs.map (·.shifted bytes)) (is.map (Item.shifted bytes lines)) =
      (ofParts lines₁ cs is).map (.shifted bytes lines) := by
  have hproper : ∀ {r : Range}, r.Between lo size → r.start ≤ r.stop ∧ r.stop ≤ size :=
    fun hr => ⟨Nat.le_of_lt hr.proper, hr.stop⟩
  unfold ofParts
  rw [Item.weave_shifted h (fun t ht => hproper (hc t ht)),
    Run.ofItems_shifted h (fun i hmem => hproper (Item.weave_between hi hc i hmem)), List.map_map, List.map_map]
  exact List.map_congr_left fun r _ => ofRun_shifted r

end Piece

end Calculation
