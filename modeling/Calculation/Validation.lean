import Calculation.Outline.Basic

/-!
Validation: what a finished tree says about calls and blocks. Skipped stretches are not looked into, for
what they hold is a guess.
-/
namespace Calculation

structure ValidationOptions where
  /-- How many IF and CASE blocks may stand inside each other. -/
  maxNesting : Nat
deriving DecidableEq, Repr, Inhabited

def ValidationOptions.default : ValidationOptions :=
  ⟨3⟩

namespace Validation

/-- What stands around a symbol. -/
structure Surroundings where
  blockDepth : Nat
  /-- The opening of the innermost LOD block. -/
  lod : Option Range
  /-- The nearest aggregate call, unless an LOD block stands between: its name and where that stands. -/
  aggregate : Option (String × Range)
  /-- A block further out has been reported as nested too deep. -/
  isReported : Bool
deriving DecidableEq, Repr, Inhabited

def Surroundings.outside : Surroundings :=
  ⟨0, none, none, false⟩

mutual

/-- The levels of IF and CASE blocks in a tree, itself included. -/
def nesting : Symbol → Nat
  | ⟨_, k, _, cs, _, _⟩ =>
    (match k with
      | .block b _ _ => if b.isConditional then 1 else 0
      | _ => 0) + nestingAll cs

def nestingAll : List Symbol → Nat
  | [] => 0
  | s :: ss => if s.isSkipped then nestingAll ss else max (nesting s) (nestingAll ss)

end

/-- A block without its terminator. -/
def checkTerminator (s : Symbol) (b : BlockKind) (terminator : Option Range) : List Diagnostic :=
  if terminator.isNone then [(Cause.openBlock b.name b.closer).spanning (s.opener b)] else []

/-- The findings on an IF or CASE block, and what it is for its children. -/
def checkConditional (o : ValidationOptions) (around : Surroundings) (s : Symbol) (b : BlockKind) :
    List Diagnostic × Surroundings :=
  let depth := around.blockDepth + 1
  if o.maxNesting < depth && !around.isReported then
    ([(Cause.deepNesting (around.blockDepth + nesting s) o.maxNesting).spanning (s.opener b)],
      { around with blockDepth := depth, isReported := true })
  else ([], { around with blockDepth := depth })

/-- The findings on an LOD block, and what it is for its children. -/
def checkLod (around : Surroundings) (s : Symbol) (scope : LodScope) (branches : List Branch) :
    List Diagnostic × Surroundings :=
  let opener := s.opener (.lod scope)
  let nested := (around.lod.map fun outer => (Cause.nestedLod outer).spanning opener).toList
  let bare :=
    if scope = .fixed && !branches.any (·.kind == .dimensions) then [Cause.fixedWithoutDimensions.spanning s.range]
    else []
  (nested ++ bare, { around with lod := some opener, aggregate := none })

/-- The findings on a call of a known function, and what it is for its children. -/
def checkKnown (around : Surroundings) (s : Symbol) (count : Nat) (isNested : Bool) (f : Signature) :
    List Diagnostic × Surroundings :=
  let name := s.nameRange
  let arity :=
    if s.isComplete && !f.accepts count then [(Cause.wrongArity s.name f.expected count).spanning name] else []
  let table := if f.isTableCalculation then [(Cause.tableCalculation s.name).spanning name] else []
  let nested :=
    if f.isAggregate && (isNested || around.aggregate.isSome) then
      [(Cause.nestedAggregate s.name around.aggregate).spanning name]
    else []
  (arity ++ table ++ nested, if f.isAggregate then { around with aggregate := some (s.name, name) } else around)

/-- The findings on a symbol itself, and what stands around its children. -/
def check (t : SignatureTable) (o : ValidationOptions) (around : Surroundings) (s : Symbol) :
    List Diagnostic × Surroundings :=
  match s.kind with
  | .block b branches terminator =>
    let (found, around) := match b with
      | .lod scope => checkLod around s scope branches
      | b => checkConditional o around s b
    (checkTerminator s b terminator ++ found, around)
  | .call arguments isNested =>
    match t.get? s.name with
    | none => ([(Cause.unknownFunction s.name).spanning s.nameRange], around)
    | some f => checkKnown around s arguments.length isNested f
  | _ => ([], around)

mutual

/-- The findings on a tree in reading order. -/
def findings (t : SignatureTable) (o : ValidationOptions) (around : Surroundings) : Symbol → List Diagnostic
  | ⟨n, k, r, cs, c, l⟩ =>
    if k = .skipped then []
    else
      let (found, inner) := check t o around ⟨n, k, r, cs, c, l⟩
      found ++ findingsAll t o inner cs

def findingsAll (t : SignatureTable) (o : ValidationOptions) (around : Surroundings) :
    List Symbol → List Diagnostic
  | [] => []
  | s :: ss => findings t o around s ++ findingsAll t o around ss

end

end Validation

/-- All diagnostics of an outline: the faults of reading and the findings on its tree. The faults come first,
so that of two reports of the same fault the one with a remedy stays. -/
def validate (o : Outline) (t : SignatureTable) (options : ValidationOptions) : List Diagnostic :=
  Diagnostic.canonical (o.faults ++ Validation.findingsAll t options .outside o.symbols)

/-- Reads a document and validates it. -/
def analyze (options : Options) (validation : ValidationOptions) (text : String) : Outline :=
  let o := Outline.ofText options text
  { o with diagnostics := validate o options.signatures validation }

end Calculation
