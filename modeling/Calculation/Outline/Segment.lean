import Calculation.Diagnostic.Canonical
import Calculation.Statement.Item
import Calculation.Symbol.Tree

/-!
Segments: runs of items that share lines. No two segments share a line, so a segment can be read again, or
moved, without the others.
-/
namespace Calculation

structure Segment where
  firstLine : Nat
  /-- The last line that the segment touches. -/
  lastLine : Nat
  range : Range
  /-- Where the segment's symbols stand among the roots of the document. -/
  symbols : Range
  /-- Where its faults stand among the faults of the document. -/
  faults : Range
  /-- How many statements it holds; a segment of comments has none. -/
  statements : Nat
  tally : Tally
deriving DecidableEq, Repr, Inhabited

/-- The segment moved. Its places in the document are not bound to 32 bits. -/
def Segment.relocated (s : Segment) (delta lines symbols faults : Int) : Segment :=
  { s with
    firstLine := relocate s.firstLine lines
    lastLine := relocate s.lastLine lines
    range := s.range.relocated delta
    symbols := ⟨moved s.symbols.start symbols, moved s.symbols.stop symbols⟩
    faults := ⟨moved s.faults.start faults, moved s.faults.stop faults⟩ }

/-- Items that share lines, from the first to the last of which they reach. -/
structure Run where
  firstLine : Nat
  lastLine : Nat
  statements : Nat
  item : Item
deriving DecidableEq, Repr, Inhabited

namespace Run

def ofItem (lines : LineTable) (i : Item) : Run :=
  let (first, last) := lines.linesOf i.range
  ⟨first, last, if i.isStatement then 1 else 0, i⟩

/-- One run made of two that share a line. -/
def join (a b : Run) : Run :=
  ⟨a.firstLine, max a.lastLine b.lastLine, a.statements + b.statements,
    { a.item with
      range := a.item.range.cover b.item.range
      symbols := a.item.symbols ++ b.item.symbols
      events := a.item.events ++ b.item.events }⟩

/-- Joins each run to the one before as long as it starts on a line that this one touches. -/
def gather (before : Run) : List Run → List Run
  | [] => [before]
  | r :: rs => if r.firstLine ≤ before.lastLine then gather (before.join r) rs else before :: gather r rs

def ofItems (lines : LineTable) (items : List Item) : List Run :=
  match items.map (ofItem lines) with
  | [] => []
  | r :: rs => gather r rs

end Run

/-- The symbols, faults and segments of a stretch of a document. -/
structure Reading where
  symbols : List Symbol
  faults : List Diagnostic
  segments : List Segment
deriving DecidableEq, Repr, Inhabited

namespace Reading

def empty : Reading :=
  ⟨[], [], []⟩

/-- The segment of a run whose symbols and faults come behind those of `before`. -/
def segmentOf (before : Reading) (r : Run) : Segment :=
  ⟨r.firstLine, r.lastLine, r.item.range,
    ⟨before.symbols.length, before.symbols.length + r.item.symbols.length⟩,
    ⟨before.faults.length, before.faults.length + (Event.faults r.item.events).length⟩, r.statements,
    .ofEvents r.item.events⟩

def push (before : Reading) (r : Run) : Reading :=
  ⟨before.symbols ++ r.item.symbols, before.faults ++ Diagnostic.inPlaceOrder (Event.faults r.item.events),
    before.segments ++ [before.segmentOf r]⟩

/-- The reading of tokens of a source; they may start anywhere in it. -/
def ofTokens (src : Source) (tokens : List Token) : Reading :=
  (Run.ofItems src.lines (Item.ofTokens src tokens)).foldl push empty

end Reading

end Calculation
