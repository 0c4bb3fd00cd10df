import Calculation.Symbol.Basic

/-!
What is asked of a symbol tree: its symbols in reading order, the deepest symbol at an offset, whether the
symbols nest properly, how much memory they take, and the tree moved to another place.
-/
namespace Calculation

namespace Symbol

mutual

/-- The symbols of the tree in reading order, parents before children, each with its depth. -/
def walkFrom (depth : Nat) : Symbol → List (Nat × Symbol)
  | ⟨n, k, r, cs, c, l⟩ => (depth, ⟨n, k, r, cs, c, l⟩) :: walkAllFrom (depth + 1) cs

def walkAllFrom (depth : Nat) : List Symbol → List (Nat × Symbol)
  | [] => []
  | s :: ss => s.walkFrom depth ++ walkAllFrom depth ss

end

mutual

def walk : Symbol → List Symbol
  | ⟨n, k, r, cs, c, l⟩ => ⟨n, k, r, cs, c, l⟩ :: walkAll cs

/-- The symbols of all trees in reading order. -/
def walkAll : List Symbol → List Symbol
  | [] => []
  | s :: ss => s.walk ++ walkAll ss

end

mutual

def count : Symbol → Nat
  | ⟨_, _, _, cs, _, _⟩ => 1 + countAll cs

def countAll : List Symbol → Nat
  | [] => 0
  | s :: ss => s.count + countAll ss

end

mutual

/-- The deepest symbol that touches `offset`, looked for only below symbols that touch it. -/
def findAt? (offset : Nat) : Symbol → Option Symbol
  | ⟨n, k, r, cs, c, l⟩ =>
    if r.touches offset then (findAtAll? offset cs).or (some ⟨n, k, r, cs, c, l⟩) else none

/-- What the first of the trees that has an answer finds. -/
def findAtAll? (offset : Nat) : List Symbol → Option Symbol
  | [] => none
  | s :: ss => (s.findAt? offset).or (findAtAll? offset ss)

end

end Symbol

/-- How a tree fails to nest. -/
inductive Disorder where
  | escapes (child : String) (childRange : Range) (parent : String) (parentRange : Range)
  | overlaps (child : String) (childRange : Range) (parent : String)
  | rootOverlaps (name : String)
  | tooMuchRecovered
deriving DecidableEq, Repr, Inhabited

namespace Disorder

def rangeText (r : Range) : String :=
  toString r.start ++ ".." ++ toString r.stop

def message : Disorder → String
  | escapes child range parent parentRange =>
    "child '" ++ child ++ "' " ++ rangeText range ++ " escapes parent '" ++ parent ++ "' " ++ rangeText parentRange
  | overlaps child range parent =>
    "child '" ++ child ++ "' " ++ rangeText range ++ " overlaps its predecessor in '" ++ parent ++ "'"
  | rootOverlaps name => "root '" ++ name ++ "' overlaps its predecessor"
  | tooMuchRecovered => "recovered errors exceed total errors"

end Disorder

/-- The sum of what each element counts for. -/
def sumOf {α : Type} (weight : α → Nat) : List α → Nat
  | [] => 0
  | a :: as => weight a + sumOf weight as

namespace Symbol

mutual

/-- The first disorder below a symbol: every child lies inside it, and behind the child before it. -/
def disorder? : Symbol → Option Disorder
  | ⟨n, _, r, cs, _, _⟩ => disorderAll? n r none cs

def disorderAll? (parent : String) (within : Range) (previousStop : Option Nat) : List Symbol → Option Disorder
  | [] => none
  | s :: ss =>
    if !within.contains s.range then some (.escapes s.name s.range parent within)
    else if previousStop.any (s.range.start < ·) then some (.overlaps s.name s.range parent)
    else s.disorder?.or (disorderAll? parent within (some s.range.stop) ss)

end

/-- Bytes that the parts of a symbol take, apart from its children. -/
def Kind.footprint : Kind → Nat
  | .block _ branches _ => 20 * branches.length
  | .call arguments _ => sumOf (fun a => 40 + a.text.utf8ByteSize) arguments
  | _ => 0

mutual

/-- A rough count of the bytes that a tree takes. -/
def footprint : Symbol → Nat
  | ⟨n, k, _, cs, _, l⟩ => 128 + n.utf8ByteSize + 8 * l.length + k.footprint + footprintAll cs

def footprintAll : List Symbol → Nat
  | [] => 0
  | s :: ss => s.footprint + footprintAll ss

end

end Symbol

def Branch.relocated (b : Branch) (delta : Int) : Branch :=
  { b with keyword := b.keyword.relocated delta, range := b.range.relocated delta }

def Argument.relocated (a : Argument) (delta : Int) : Argument :=
  { a with range := a.range.relocated delta }

namespace Symbol

def Kind.relocated (delta : Int) : Kind → Kind
  | .block b branches terminator =>
    .block b (branches.map (·.relocated delta)) (terminator.map (·.relocated delta))
  | .call arguments isNested => .call (arguments.map (·.relocated delta)) isNested
  | k => k

mutual

/-- The tree `delta` bytes and `lines` lines further on. -/
def relocated (delta lines : Int) : Symbol → Symbol
  | ⟨n, k, r, cs, c, l⟩ =>
    ⟨n, k.relocated delta, r.relocated delta, relocatedAll delta lines cs, c, relocatedLines l lines⟩

def relocatedAll (delta lines : Int) : List Symbol → List Symbol
  | [] => []
  | s :: ss => s.relocated delta lines :: relocatedAll delta lines ss

end

end Symbol

end Calculation
