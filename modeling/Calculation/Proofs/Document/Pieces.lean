import Calculation.Edit.Splice
import Calculation.Proofs.Tree.Shifting

/-!
A document in pieces. A segment names its symbols and faults by their places in the document; a piece has them
itself. A reading made of pieces is cut and joined as their list is, so that what a splice assembles is a list of
pieces: those kept in front, those read again, and those kept behind, moved.
-/
namespace Calculation

/-- A segment together with its symbols and faults. -/
structure Piece where
  firstLine : Nat
  lastLine : Nat
  range : Range
  symbols : List Symbol
  faults : List Diagnostic
  statements : Nat
  tally : Tally

namespace Piece

def ofRun (r : Run) : Piece :=
  ⟨r.firstLine, r.lastLine, r.item.range, r.item.symbols, Diagnostic.inPlaceOrder (Event.faults r.item.events),
    r.statements, .ofEvents r.item.events⟩

def shifted (delta lines : Int) (p : Piece) : Piece :=
  { p with
    firstLine := moved p.firstLine lines
    lastLine := moved p.lastLine lines
    range := p.range.shifted delta
    symbols := Symbol.shiftedAll delta lines p.symbols
    faults := p.faults.map (·.shifted delta) }

/-- The segment of a piece behind so many symbols and faults. -/
def segment (symbols faults : Nat) (p : Piece) : Segment :=
  ⟨p.firstLine, p.lastLine, p.range, ⟨symbols, symbols + p.symbols.length⟩, ⟨faults, faults + p.faults.length⟩,
    p.statements, p.tally⟩

/-- The segments of pieces in a row that stand behind so many symbols and faults. -/
def segments (symbols faults : Nat) : List Piece → List Segment
  | [] => []
  | p :: ps => p.segment symbols faults :: segments (symbols + p.symbols.length) (faults + p.faults.length) ps

end Piece

namespace Reading

def ofPieces (ps : List Piece) : Reading :=
  ⟨ps.flatMap (·.symbols), ps.flatMap (·.faults), Piece.segments 0 0 ps⟩

end Reading

namespace Piece

variable {ps qs : List Piece} {symbols faults : Nat}

@[simp] theorem length_segments (symbols faults : Nat) (ps : List Piece) :
    (segments symbols faults ps).length = ps.length := by
  induction ps generalizing symbols faults with
  | nil => rfl
  | cons p ps ih => simp [segments, ih]

theorem segments_append (symbols faults : Nat) (ps qs : List Piece) :
    segments symbols faults (ps ++ qs) = segments symbols faults ps ++
      segments (symbols + (ps.flatMap (·.symbols)).length) (faults + (ps.flatMap (·.faults)).length) qs := by
  induction ps generalizing symbols faults with
  | nil => rfl
  | cons p ps ih => simp [segments, ih, Nat.add_assoc]

theorem segments_take (symbols faults i : Nat) (ps : List Piece) :
    (segments symbols faults ps).take i = segments symbols faults (ps.take i) := by
  induction ps generalizing symbols faults i with
  | nil => simp [segments]
  | cons p ps ih =>
    cases i with
    | zero => rfl
    | succ i => simp [segments, ih]

/-- What segments have from their pieces alone. -/
theorem map_segments {α : Type} {f : Segment → α} {g : Piece → α} (h : ∀ p m n, f (p.segment m n) = g p)
    (symbols faults : Nat) (ps : List Piece) : (segments symbols faults ps).map f = ps.map g := by
  induction ps generalizing symbols faults with
  | nil => rfl
  | cons p ps ih => rw [segments, List.map_cons, List.map_cons, h, ih]

/-- Where the pieces from `i` on stand among all. -/
theorem segments_drop (symbols faults i : Nat) (ps : List Piece) :
    (segments symbols faults ps).drop i =
      segments (symbols + ((ps.take i).flatMap (·.symbols)).length)
        (faults + ((ps.take i).flatMap (·.faults)).length) (ps.drop i) := by
  induction ps generalizing symbols faults i with
  | nil => simp [segments]
  | cons p ps ih =>
    cases i with
    | zero => rfl
    | succ i => simp [segments, ih, Nat.add_assoc]

theorem segments_getElem? (symbols faults i : Nat) (ps : List Piece) :
    (segments symbols faults ps)[i]? = ps[i]?.map
      (segment (symbols + ((ps.take i).flatMap (·.symbols)).length)
        (faults + ((ps.take i).flatMap (·.faults)).length)) := by
  rw [← List.head?_drop, segments_drop, ← List.head?_drop]
  cases ps.drop i <;> rfl

end Piece

namespace Reading

theorem ofPieces_nil : ofPieces [] = empty := rfl

/-- The segments of what was read have the ranges of its pieces. -/
theorem segments_ranges (ps : List Piece) : (ofPieces ps).segments.map (·.range) = ps.map (·.range) :=
  Piece.map_segments (fun _ _ _ => rfl) 0 0 ps

theorem push_ofPieces (ps : List Piece) (r : Run) : (ofPieces ps).push r = ofPieces (ps ++ [.ofRun r]) := by
  simp [push, ofPieces, Piece.segments_append, Piece.segments, Piece.segment, Piece.ofRun, segmentOf,
    Diagnostic.inPlaceOrder]

theorem foldl_push (ps : List Piece) (rs : List Run) :
    rs.foldl push (ofPieces ps) = ofPieces (ps ++ rs.map .ofRun) := by
  induction rs generalizing ps with
  | nil => simp
  | cons r rs ih => rw [List.foldl_cons, push_ofPieces, ih, List.map_cons, List.append_assoc]; rfl

/-- The pieces of the tokens of a source. -/
def pieces (src : Source) (tokens : List Token) : List Piece :=
  (Run.ofItems src.lines (Item.ofTokens src tokens)).map .ofRun

theorem ofTokens_eq (src : Source) (tokens : List Token) : ofTokens src tokens = ofPieces (pieces src tokens) :=
  foldl_push [] _

end Reading

theorem movedLines_zero (lines : List Nat) : movedLines lines 0 = lines := by
  rw [movedLines_of_nonneg fun n _ => by omega]
  simp [moved_zero]

theorem Range.shifted_zero (r : Range) : r.shifted 0 = r := by
  simp [Range.shifted, moved_zero]

theorem Diagnostic.shifted_zero (d : Diagnostic) : d.shifted 0 = d := by
  simp [Diagnostic.shifted, Range.shifted_zero]

theorem Symbol.Kind.shifted_zero (k : Symbol.Kind) : k.shifted 0 = k := by
  cases k <;> simp [Kind.shifted, Branch.shifted, Argument.shifted, Range.shifted_zero]

namespace Symbol

mutual

theorem shifted_zero : ∀ s : Symbol, s.shifted 0 0 = s
  | ⟨n, k, r, cs, c, l⟩ => by
    rw [shifted, shiftedAll_zero cs, Kind.shifted_zero, Range.shifted_zero, movedLines_zero]

theorem shiftedAll_zero : ∀ ss : List Symbol, shiftedAll 0 0 ss = ss
  | [] => by rw [shiftedAll]
  | s :: ss => by rw [shiftedAll, shifted_zero s, shiftedAll_zero ss]

end

theorem shiftedAll_append (delta lines : Int) (a b : List Symbol) :
    shiftedAll delta lines (a ++ b) = shiftedAll delta lines a ++ shiftedAll delta lines b := by
  simp [shiftedAll_eq_map]

end Symbol

theorem Piece.shifted_zero (p : Piece) : p.shifted 0 0 = p := by
  simp [Piece.shifted, moved_zero, Range.shifted_zero, Symbol.shiftedAll_zero, Diagnostic.shifted_zero]

theorem Piece.map_shifted_zero (ps : List Piece) : ps.map (.shifted 0 0) = ps :=
  (List.map_congr_left fun p _ => p.shifted_zero).trans (List.map_id' ps)

namespace Splice
open Reading

section Parts

variable {α : Type} (part : Piece → List α) (ps : List Piece) (i : Nat)

theorem flatMap_split : ps.flatMap part = (ps.take i).flatMap part ++ (ps.drop i).flatMap part := by
  rw [← List.flatMap_append, List.take_append_drop]

theorem take_flatMap : (ps.flatMap part).take ((ps.take i).flatMap part).length = (ps.take i).flatMap part := by
  rw [flatMap_split part ps i, List.take_left]

theorem drop_flatMap : (ps.flatMap part).drop ((ps.take i).flatMap part).length = (ps.drop i).flatMap part := by
  rw [flatMap_split part ps i, List.drop_left]

theorem length_flatMap_sub :
    (ps.flatMap part).length - ((ps.drop i).flatMap part).length = ((ps.take i).flatMap part).length := by
  rw [flatMap_split part ps i, List.length_append, Nat.add_sub_cancel]

end Parts

theorem upTo_ofPieces (ps : List Piece) (i : Nat) : upTo (ofPieces ps) i = ofPieces (ps.take i) := by
  unfold upTo
  split
  · rename_i s hs
    have hs' : (Piece.segments 0 0 ps)[i]? = some s := hs
    rw [Piece.segments_getElem?] at hs'
    obtain ⟨p, -, rfl⟩ := Option.map_eq_some_iff.mp hs'
    simp only [ofPieces, Piece.segment, Piece.segments_take, Nat.zero_add, take_flatMap]
  · rename_i hs
    have hi : ps.length ≤ i := by simpa [ofPieces] using hs
    rw [List.take_of_length_le hi]

/-- Pieces as a part of a larger reading, where they stand behind so many symbols and faults. -/
def partOf (symbols faults : Nat) (ps : List Piece) : Reading :=
  ⟨ps.flatMap (·.symbols), ps.flatMap (·.faults), Piece.segments symbols faults ps⟩

theorem onwards_ofPieces (ps : List Piece) (i : Nat) :
    onwards (ofPieces ps) i = partOf ((ps.take i).flatMap (·.symbols)).length
      ((ps.take i).flatMap (·.faults)).length (ps.drop i) := by
  unfold onwards
  split
  · rename_i s hs
    have hs' : (Piece.segments 0 0 ps)[i]? = some s := hs
    rw [Piece.segments_getElem?] at hs'
    obtain ⟨p, -, rfl⟩ := Option.map_eq_some_iff.mp hs'
    simp only [ofPieces, partOf, Piece.segment, Piece.segments_drop, Nat.zero_add, drop_flatMap]
  · rename_i hs
    have hi : ps.length ≤ i := by simpa [ofPieces] using hs
    rw [List.drop_of_length_le hi]
    rfl

/-- Two readings one after the other, the second one moved exactly. Its segments name places in lists that had
`symbols` symbols and `faults` faults before its own. -/
def follow (a b : Reading) (delta lines : Int) (symbols faults : Nat) : Reading :=
  ⟨a.symbols ++ Symbol.shiftedAll delta lines b.symbols,
    a.faults ++ b.faults.map (·.shifted delta),
    a.segments ++ b.segments.map
      (·.shifted delta lines ((a.symbols.length : Int) - symbols) ((a.faults.length : Int) - faults))⟩

/-- What a splice assembles, where 32 bits are enough. -/
def Edited.joined (e : Edited) (stop : Nat) (window : Reading) (cut : Nat) : Reading :=
  let before := reading e.previous
  let behind := onwards before stop
  let head := follow (upTo before e.first) (upTo window cut) 0 0 0 0
  follow head behind e.change.byteDelta e.change.lineDelta (before.symbols.length - behind.symbols.length)
    (before.faults.length - behind.faults.length)

theorem segment_shifted (delta lines : Int) (m n symbols faults k l : Nat) (p : Piece) :
    (p.segment (m + k) (n + l)).shifted delta lines ((symbols : Int) - m) ((faults : Int) - n) =
      (p.shifted delta lines).segment (symbols + k) (faults + l) := by
  simp only [Piece.segment, Segment.shifted, Piece.shifted, Range.shifted, Symbol.shiftedAll_eq_map,
    List.length_map, moved, Segment.mk.injEq, Range.mk.injEq, and_true, true_and]
  omega

theorem segments_shifted (delta lines : Int) (m n symbols faults k l : Nat) (ps : List Piece) :
    (Piece.segments (m + k) (n + l) ps).map (·.shifted delta lines ((symbols : Int) - m) ((faults : Int) - n)) =
      Piece.segments (symbols + k) (faults + l) (ps.map (.shifted delta lines)) := by
  induction ps generalizing k l with
  | nil => rfl
  | cons p ps ih =>
    have h := ih (k + p.symbols.length) (l + p.faults.length)
    simp only [Piece.segments, List.map_cons, segment_shifted]
    rw [Nat.add_assoc, Nat.add_assoc, h]
    simp [Piece.shifted, Symbol.shiftedAll_eq_map, Nat.add_assoc]

theorem flatMap_shifted (delta lines : Int) (ps : List Piece) :
    (ps.map (Piece.shifted delta lines)).flatMap (·.symbols) =
        Symbol.shiftedAll delta lines (ps.flatMap (·.symbols)) ∧
      (ps.map (Piece.shifted delta lines)).flatMap (·.faults) =
        (ps.flatMap (·.faults)).map (·.shifted delta) := by
  induction ps with
  | nil => exact ⟨by rw [List.flatMap_nil, Symbol.shiftedAll]; rfl, rfl⟩
  | cons p ps ih =>
    rw [List.map_cons, List.flatMap_cons, List.flatMap_cons, List.flatMap_cons, List.flatMap_cons,
      Symbol.shiftedAll_append, List.map_append, ih.1, ih.2]
    exact ⟨rfl, rfl⟩

/-- Pieces behind others: the places that their segments name become those in the whole. -/
theorem follow_pieces (delta lines : Int) (symbols faults : Nat) (as bs : List Piece) :
    follow (ofPieces as) (partOf symbols faults bs) delta lines symbols faults =
      ofPieces (as ++ bs.map (.shifted delta lines)) := by
  have hs := segments_shifted delta lines symbols faults (as.flatMap (·.symbols)).length
    (as.flatMap (·.faults)).length 0 0 bs
  simp only [Nat.add_zero] at hs
  simp only [follow, ofPieces, partOf, hs, List.flatMap_append, Piece.segments_append, flatMap_shifted,
    Nat.zero_add]

/-- What a splice puts together: the pieces kept in front, those of the window, and those kept behind, moved. -/
theorem joined_pieces (e : Edited) (stop cut : Nat) {ps ws : List Piece}
    (hp : reading e.previous = ofPieces ps) :
    e.joined stop (ofPieces ws) cut = ofPieces (ps.take e.first ++ ws.take cut ++
      (ps.drop stop).map (.shifted e.change.byteDelta e.change.lineDelta)) := by
  have hhead : follow (ofPieces (ps.take e.first)) (ofPieces (ws.take cut)) 0 0 0 0 =
      ofPieces (ps.take e.first ++ ws.take cut) := by
    have h := follow_pieces 0 0 0 0 (ps.take e.first) (ws.take cut)
    rw [Piece.map_shifted_zero] at h
    exact h
  unfold Edited.joined
  dsimp only
  rw [hp, upTo_ofPieces, upTo_ofPieces, onwards_ofPieces, hhead]
  have hb := follow_pieces e.change.byteDelta e.change.lineDelta ((ps.take stop).flatMap (·.symbols)).length
    ((ps.take stop).flatMap (·.faults)).length (ps.take e.first ++ ws.take cut) (ps.drop stop)
  rw [← hb, ← length_flatMap_sub, ← length_flatMap_sub]
  rfl

end Splice

end Calculation
