import Calculation.Text.Slice

/-!
Lines and columns. Lines are counted from zero and every line feed starts a new one, so a text has at
least one line; a column is the byte distance from the start of its line.
-/
namespace Calculation

structure Position where
  line : Nat
  column : Nat
deriving DecidableEq, Repr, Inhabited

namespace Position

/-- Reading order: by line, within a line by column. -/
def le (a b : Position) : Bool :=
  a.line < b.line || (a.line == b.line && a.column ≤ b.column)

end Position

structure Span where
  start : Position
  stop : Position
deriving DecidableEq, Repr, Inhabited

namespace Span

/-- Both ends belong to the span. -/
def contains (s : Span) (p : Position) : Bool :=
  s.start.le p && p.le s.stop

def isMultiline (s : Span) : Bool :=
  s.start.line < s.stop.line

end Span

/-- Where each line of a text starts, and how many bytes the text has. -/
structure LineTable where
  starts : List Nat
  size : Nat
deriving DecidableEq, Repr, Inhabited

namespace LineTable

/-- The offsets right behind each line feed of a text that starts at `offset`. -/
def startsAfter : Nat → List Char → List Nat
  | _, [] => []
  | offset, c :: cs =>
    let next := offset + c.utf8Size
    if c = '\n' then next :: startsAfter next cs else startsAfter next cs

def ofText (text : List Char) : LineTable :=
  ⟨0 :: startsAfter 0 text, Text.bytes text⟩

def count (t : LineTable) : Nat :=
  t.starts.length

/-- The line of an offset; what lies past the end belongs to the last line. -/
def lineOf (t : LineTable) (offset : Nat) : Nat :=
  t.starts.countP (· ≤ offset) - 1

/-- The offset where a line starts. The line after the last one starts at the end of the text. -/
def start? (t : LineTable) (line : Nat) : Option Nat :=
  if line = t.count then some t.size else t.starts[line]?

def position (t : LineTable) (offset : Nat) : Position :=
  let offset := min offset t.size
  let line := t.lineOf offset
  ⟨line, offset - t.starts[line]?.getD 0⟩

def span (t : LineTable) (r : Range) : Span :=
  ⟨t.position r.start, t.position r.stop⟩

/-- The first and the last line with a byte of the range; an empty range lies on the line of its start. -/
def linesOf (t : LineTable) (r : Range) : Nat × Nat :=
  let first := t.lineOf r.start
  let last := if r.isEmpty then first else t.lineOf (r.stop - 1)
  (first, max last first)

/-- The lines of a range behind its first one. -/
def continuation (t : LineTable) (r : Range) : List Nat :=
  let (first, last) := t.linesOf r
  (List.range (last - first)).map (first + 1 + ·)

end LineTable

end Calculation
