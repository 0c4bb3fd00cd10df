import Calculation.Text.Lines

/-!
What an edit changed, in whole lines: the lines between the longest common start and the longest common end
of the two texts.
-/
namespace Calculation

namespace Text

/-- The lines of a text, each with its line feed; only the last one may be without. -/
def lines : List Char → List (List Char)
  | [] => []
  | c :: cs =>
    if c = '\n' then [c] :: lines cs
    else match lines cs with
      | [] => [[c]]
      | l :: ls => (c :: l) :: ls

theorem flatten_lines (cs : List Char) : (lines cs).flatten = cs := by
  induction cs with
  | nil => rfl
  | cons c cs ih =>
    rw [lines]
    split
    · rw [List.flatten_cons, ih]; rfl
    · split
      · rename_i hl
        rw [hl] at ih
        simp at ih
        simp [← ih]
      · rename_i hl
        rw [hl] at ih
        simp only [List.flatten_cons, List.cons_append] at ih ⊢
        rw [ih]

end Text

/-- What two lists have in common before they first differ. -/
def commonStart {α : Type} [DecidableEq α] : List α → List α → List α
  | a :: as, b :: bs => if a = b then a :: commonStart as bs else []
  | _, _ => []

structure LineChange where
  /-- Where the first changed line starts, in both texts. -/
  start : Nat
  oldStop : Nat
  newStop : Nat
  firstLine : Nat
  /-- How many line feeds the edit added. -/
  lineDelta : Int
deriving DecidableEq, Repr, Inhabited

namespace LineChange

def oldRange (d : LineChange) : Range :=
  ⟨d.start, d.oldStop⟩

def newRange (d : LineChange) : Range :=
  ⟨d.start, d.newStop⟩

/-- How far the edit moves what stands behind it. -/
def byteDelta (d : LineChange) : Int :=
  d.newStop - d.oldStop

/-- The change between two lists of lines. Only lines with a line feed are common at the start, and those at
the end are looked for behind them. -/
def ofLines (old new : List (List Char)) : LineChange :=
  let before := (commonStart old new).takeWhile fun l => l.getLast? == some '\n'
  let oldRest := old.drop before.length
  let newRest := new.drop before.length
  let after := commonStart oldRest.reverse newRest.reverse
  let oldChanged := (oldRest.take (oldRest.length - after.length)).flatten
  let newChanged := (newRest.take (newRest.length - after.length)).flatten
  let start := Text.bytes before.flatten
  { start := start
    oldStop := start + Text.bytes oldChanged
    newStop := start + Text.bytes newChanged
    firstLine := before.length
    lineDelta := (newChanged.count '\n' : Int) - oldChanged.count '\n' }

/-- What changed from `old` to `new`; nothing if they are the same. -/
def between? (old new : List Char) : Option LineChange :=
  if old = new then none else some (ofLines (Text.lines old) (Text.lines new))

/-- The lines of the new text that the edit touched. -/
def touchedLines (d : LineChange) (lines : LineTable) : List Nat :=
  let (first, last) := lines.linesOf d.newRange
  (List.range (last + 1 - first)).map (first + ·)

end LineChange

end Calculation
