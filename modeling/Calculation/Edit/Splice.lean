import Calculation.Edit.LineChange
import Calculation.Outline.Basic

/-!
Reading a document again after an edit. Only a window of the new text around the changed lines is read; its
segments are spliced between those of the outline before the edit. Where that does not work out, the whole
text is read.
-/
namespace Calculation

/-- The last place that halving an interval of `size` places from `base` leaves, going up where `p` holds. -/
def halving (p : Nat → Bool) (base size : Nat) : Nat :=
  if 1 < size then
    halving p (if p (base + size / 2) then base + size / 2 else base) (size - size / 2)
  else base
termination_by size
decreasing_by omega

/-- Where the elements with the property `p` end, found by halving; those with it come first. -/
def partitionPoint {α : Type} (p : α → Bool) (xs : List α) : Nat :=
  let holds := fun i => xs[i]?.any p
  let base := halving holds 0 xs.length
  if holds base then base + 1 else base

namespace Splice

/-- The segment at or before `i` that holds a statement, or the first one. -/
def backToStatement (segments : List Segment) : Nat → Nat
  | 0 => 0
  | i + 1 => if segments[i + 1]?.any (·.statements == 0) then backToStatement segments i else i + 1

/-- The first segment to read again after a change at `line`. A change can extend the statement before it, so
this is a segment with a statement before the last one that starts above the change. -/
def firstAffected (segments : List Segment) (line : Nat) : Nat :=
  backToStatement segments (partitionPoint (fun s : Segment => s.firstLine < line) segments - 1 - 1)

/-- The first segment with a statement from the place `i` on, or the end. -/
def nextStatement (segments : List Segment) (i : Nat) : Nat :=
  let i := min i segments.length
  i + ((segments.drop i).takeWhile (·.statements == 0)).length

/-- How many segments the attempts to find a boundary go further down than the change reaches. -/
def growths : List Nat :=
  [0, 2, 4, 8]

/-- An edit of a document whose outline is known. -/
structure Edited where
  options : Options
  previous : Outline
  text : List Char
  lines : LineTable
  change : LineChange
  /-- The first segment that is read again. -/
  first : Nat
  windowStart : Nat

/-- How far the window reaches when the segments from `stop` on are kept. It takes in the statement behind the
boundary, so that what stands there decides about the one before as it would in the whole text. -/
def Edited.windowStop (e : Edited) (stop : Nat) : Nat :=
  let segments := e.previous.segments
  if stop < segments.length then
    match segments[nextStatement segments (stop + 1)]? with
    | some s => relocate s.range.stop e.change.byteDelta
    | none => e.lines.size
  else e.lines.size

/-- The tokens of the window, if it is a stretch of the text. -/
def Edited.window? (e : Edited) (stop : Nat) : Option (List Token) :=
  let window : Range := ⟨e.windowStart, max (e.windowStop stop) e.windowStart⟩
  (Text.slice? window e.text).map (Token.lex e.windowStart)

/-- Which segment of the window starts what is kept behind it. -/
def Edited.cut? (e : Edited) (stop : Nat) (r : Reading) : Option Nat :=
  match e.previous.segments[stop]? with
  | none => some r.segments.length
  | some s => r.segments.findIdx? fun t => t.range == s.range.relocated e.change.byteDelta

/-- The parts of a reading before the segment `i`. -/
def upTo (r : Reading) (i : Nat) : Reading :=
  match r.segments[i]? with
  | some s => ⟨r.symbols.take s.symbols.start, r.faults.take s.faults.start, r.segments.take i⟩
  | none => r

/-- The parts of a reading from the segment `i` on; the places that its segments name are those in the whole. -/
def onwards (r : Reading) (i : Nat) : Reading :=
  match r.segments[i]? with
  | some s => ⟨r.symbols.drop s.symbols.start, r.faults.drop s.faults.start, r.segments.drop i⟩
  | none => .empty

/-- Two readings one after the other, the second one moved. Its segments name places in lists that had
`symbols` symbols and `faults` faults before its own. -/
def append (a b : Reading) (delta lines : Int) (symbols faults : Nat) : Reading :=
  ⟨a.symbols ++ Symbol.relocatedAll delta lines b.symbols,
    a.faults ++ b.faults.map (·.relocated delta),
    a.segments ++ b.segments.map
      (·.relocated delta lines ((a.symbols.length : Int) - symbols) ((a.faults.length : Int) - faults))⟩

/-- What the outline before the edit was made of. -/
def reading (o : Outline) : Reading :=
  ⟨o.symbols, o.faults, o.segments⟩

/-- The segments of the window up to its segment `cut`, between those kept before and behind it. -/
def Edited.assemble (e : Edited) (stop : Nat) (window : Reading) (cut : Nat) : Reading :=
  let before := reading e.previous
  let behind := onwards before stop
  let head := append (upTo before e.first) (upTo window cut) 0 0 0 0
  append head behind e.change.byteDelta e.change.lineDelta (before.symbols.length - behind.symbols.length)
    (before.faults.length - behind.faults.length)

/-- How an attempt to splice ends. -/
inductive Attempt where
  | spliced (o : Outline)
  | cancelled
  | failed
deriving DecidableEq, Repr, Inhabited

/-- Tries the windows that keep the segments behind `after` and the growths given, until one of them has a
segment at its boundary. -/
def Edited.attempt (e : Edited) (isCancelled : Bool) (after : Nat) : List Nat → Attempt
  | [] => .failed
  | growth :: growths =>
    let stop := nextStatement e.previous.segments (after + growth)
    match e.window? stop with
    | none => .failed
    | some tokens =>
      if isCancelled && tokens.any (!·.kind.isTrivia) then .cancelled
      else
        let window := Reading.ofTokens ⟨e.options, e.text, e.lines⟩ tokens
        match e.cut? stop window with
        | some cut => .spliced (.ofReading (e.assemble stop window cut) e.lines.count)
        | none => e.attempt isCancelled after growths

/-- Splices the outline of a document after an edit, if the outline before it fits the text before it. Texts that are
too long for offsets of 32 bits are not spliced. -/
def attempt (options : Options) (isCancelled : Bool) (old : List Char) (previous : Outline) (new : List Char)
    (lines : LineTable) (change : LineChange) : Attempt :=
  let oldLines := LineTable.ofText old
  if capacity ≤ max oldLines.size lines.size ∨ oldLines.count ≠ previous.lineCount then .failed
  else
    let segments := previous.segments
    let lastLine := (oldLines.linesOf change.oldRange).2
    let first := firstAffected segments change.firstLine
    let after := partitionPoint (fun s : Segment => s.firstLine ≤ lastLine) segments
    let start? := if first = 0 then some 0 else segments[first]?.bind fun s => oldLines.start? s.firstLine
    match start? with
    | none => .failed
    | some start => (Edited.mk options previous new lines change first start).attempt isCancelled after growths

/-- An attempt asks the outline before the edit for its reading, and for nothing else. -/
theorem Edited.attempt_congr (e : Edited) {other : Outline} (h : reading other = reading e.previous)
    (isCancelled : Bool) (after : Nat) (growths : List Nat) :
    { e with previous := other }.attempt isCancelled after growths = e.attempt isCancelled after growths := by
  have hsegments : other.segments = e.previous.segments := congrArg Reading.segments h
  induction growths with
  | nil => rfl
  | cons growth growths ih =>
    rw [attempt, attempt, ih]
    simp only [window?, windowStop, cut?, assemble, hsegments, h]

theorem attempt_congr (options : Options) (isCancelled : Bool) (old : List Char) {previous other : Outline}
    (new : List Char) (lines : LineTable) (change : LineChange) (h : reading other = reading previous)
    (hcount : other.lineCount = previous.lineCount) :
    attempt options isCancelled old other new lines change =
      attempt options isCancelled old previous new lines change := by
  have hsegments : other.segments = previous.segments := congrArg Reading.segments h
  unfold attempt
  dsimp only
  rw [hcount, hsegments]
  split
  · rfl
  · split
    · rfl
    · rename_i start _
      exact Edited.attempt_congr ⟨options, previous, new, lines, change, _, start⟩ h isCancelled _ _

end Splice

namespace Outline

/-- The outline of `new`, made from the one of `old` where that pays: texts of fewer than `threshold` lines are
read as a whole. Nothing is made when the reading is cancelled before its first statement. -/
def reparse? (options : Options) (threshold : Nat) (isCancelled : Bool) (old : String) (previous : Outline)
    (new : String) : Option Outline :=
  match LineChange.between? old.toList new.toList with
  | none => some { previous with changedLines := some [] }
  | some change =>
    let lines := LineTable.ofText new.toList
    let touched := change.touchedLines lines
    let attempt :=
      if lines.count < threshold || previous.segments.isEmpty then .failed
      else Splice.attempt options isCancelled old.toList previous new.toList lines change
    match attempt with
    | .spliced o => some { o with changedLines := some touched }
    | .cancelled => none
    | .failed => (ofText? options isCancelled new).map ({ · with changedLines := some touched })

def reparse (options : Options) (threshold : Nat) (old : String) (previous : Outline) (new : String) : Outline :=
  (reparse? options threshold false old previous new).getD (ofText options new)

end Outline

end Calculation
