/-!
Byte ranges. Offsets count the bytes of the text's UTF-8 form; a range runs from `start` up to but
not including `stop`.
-/
namespace Calculation

structure Range where
  start : Nat
  stop : Nat
deriving DecidableEq, Repr, Inhabited

namespace Range

def empty (offset : Nat) : Range :=
  ⟨offset, offset⟩

def length (r : Range) : Nat :=
  r.stop - r.start

def isEmpty (r : Range) : Bool :=
  r.start == r.stop

/-- The smallest range that holds both. -/
def cover (a b : Range) : Range :=
  ⟨min a.start b.start, max a.stop b.stop⟩

def contains (outer inner : Range) : Bool :=
  outer.start ≤ inner.start && inner.stop ≤ outer.stop

/-- An offset touches a range also when it stands right behind its last byte. -/
def touches (r : Range) (offset : Nat) : Bool :=
  r.start ≤ offset && offset ≤ r.stop

/-- The first `n` bytes of a range, or all of it when it is shorter. -/
def opening (r : Range) (n : Nat) : Range :=
  ⟨r.start, min (r.start + n) r.stop⟩

end Range

/-- Moves an offset, a line or an index; what would fall below zero stays at zero. -/
def moved (n : Nat) (by_ : Int) : Nat :=
  (n + by_).toNat

/-- A set of lines, in ascending order, moved; the lines that would fall below zero become line zero. -/
def movedLines (lines : List Nat) (by_ : Int) : List Nat :=
  let kept := (lines.filter fun n : Nat => 0 ≤ n + by_).map (moved · by_)
  if lines.any (fun n : Nat => n + by_ < 0) && !kept.contains 0 then 0 :: kept else kept

/-- How many offsets there are, and how many numbers of lines: each of them has 32 bits. -/
def capacity : Nat :=
  Nat.pow 2 32

/-- An offset or the number of a line, moved. Of the number that comes out the low 32 bits are kept. -/
def relocate (n : Nat) (by_ : Int) : Nat :=
  moved n by_ % capacity

/-- Puts a line into a set of lines in ascending order. -/
def insertLine (n : Nat) : List Nat → List Nat
  | [] => [n]
  | m :: ms => if n < m then n :: m :: ms else if n = m then m :: ms else m :: insertLine n ms

/-- A set of lines, in ascending order, moved; the lines whose numbers have more than 32 bits stand elsewhere in it. -/
def relocatedLines (lines : List Nat) (by_ : Int) : List Nat :=
  let all := movedLines lines by_
  (all.filter (capacity ≤ ·)).foldr (fun n kept => insertLine (n % capacity) kept) (all.filter (· < capacity))

/-- Moves a range. When bits of its end are lost and none of its start, it ends before it starts; a splice moves no
range as far as that. -/
def Range.relocated (r : Range) (delta : Int) : Range :=
  ⟨relocate r.start delta, relocate r.stop delta⟩

theorem movedLines_of_nonneg {lines : List Nat} {d : Int} (h : ∀ n ∈ lines, 0 ≤ n + d) :
    movedLines lines d = lines.map (moved · d) := by
  have hk : lines.filter (fun n : Nat => decide (0 ≤ n + d)) = lines :=
    List.filter_eq_self.mpr fun n hn => by simpa using h n hn
  have hb : lines.any (fun n : Nat => decide (n + d < 0)) = false :=
    List.any_eq_false.mpr fun n hn => by simpa using h n hn
  simp [movedLines, hk, hb]

theorem moved_zero (n : Nat) : moved n 0 = n := by
  simp [moved]

/-- No clamping, no loss: two moves add up as long as the first one stays above zero. -/
theorem moved_moved {n : Nat} {a b : Int} (h : 0 ≤ n + a) : moved (moved n a) b = moved n (a + b) := by
  simp only [moved]
  omega

end Calculation
