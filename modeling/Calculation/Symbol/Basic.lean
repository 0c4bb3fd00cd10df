import Calculation.Text.Range

/-!
Symbols: the tree that reading a calculation gives. A symbol is a construct of the text with its range; the
constructs inside it are its children, in the order of the text.
-/
namespace Calculation

/-- How an LOD block chooses its level of detail; without a keyword it takes the whole table. -/
inductive LodScope where
  | fixed | include_ | exclude | table
deriving DecidableEq, Repr, Inhabited

inductive BlockKind where
  | if_ | case_ | lod (scope : LodScope)
deriving DecidableEq, Repr, Inhabited

namespace BlockKind

def name : BlockKind → String
  | if_ => "IF"
  | case_ => "CASE"
  | lod .fixed => "FIXED"
  | lod .include_ => "INCLUDE"
  | lod .exclude => "EXCLUDE"
  | lod .table => "LOD"

/-- What a message calls the end of the block. -/
def closer : BlockKind → String
  | if_ => "END"
  | case_ => "END"
  | lod _ => "'\x7d'"

/-- The number of bytes of the keyword or brace that opens the block. -/
def openerSize : BlockKind → Nat
  | if_ => 2
  | case_ => 4
  | lod _ => 1

def isConditional : BlockKind → Bool
  | lod _ => false
  | _ => true

end BlockKind

inductive BranchKind where
  | if_ | then_ | elseIf | else_ | case_ | when_ | dimensions | aggregate
deriving DecidableEq, Repr, Inhabited

/-- A clause of a block, from the keyword that introduces it to the end of its expression. -/
structure Branch where
  kind : BranchKind
  keyword : Range
  range : Range
deriving DecidableEq, Repr, Inhabited

structure Argument where
  /-- The source of the argument without blanks around it. -/
  text : String
  range : Range
  isComplete : Bool
deriving DecidableEq, Repr, Inhabited

inductive LiteralKind where
  | number | string | date | boolean | null
deriving DecidableEq, Repr, Inhabited

inductive Symbol.Kind where
  /-- A whole document. -/
  | calculation
  | block (block : BlockKind) (branches : List Branch) (terminator : Option Range)
  /-- A call is nested when an aggregate calls an aggregate with no LOD block between them. -/
  | call (arguments : List Argument) (isNested : Bool)
  | field (qualifier : Option String)
  | operator
  | literal (literal : LiteralKind)
  | comment
  /-- A stretch that was skipped; what was found inside is a guess. -/
  | skipped
deriving DecidableEq, Repr, Inhabited

structure Symbol where
  name : String
  kind : Symbol.Kind
  range : Range
  children : List Symbol
  isComplete : Bool
  /-- The lines of the symbol behind its first one. -/
  continuation : List Nat
deriving Repr, Inhabited

namespace Symbol

namespace Kind

def displayName : Kind → String
  | calculation => "calculation"
  | block .if_ _ _ => "IF block"
  | block .case_ _ _ => "CASE block"
  | block (.lod _) _ _ => "LOD expression"
  | call .. => "function call"
  | field _ => "field reference"
  | operator => "operator"
  | literal _ => "literal"
  | comment => "comment"
  | skipped => "error"

end Kind

def isCall (s : Symbol) : Bool :=
  match s.kind with
  | .call .. => true
  | _ => false

def isField (s : Symbol) : Bool :=
  match s.kind with
  | .field _ => true
  | _ => false

def isSkipped (s : Symbol) : Bool :=
  s.kind == .skipped

def isComment (s : Symbol) : Bool :=
  s.kind == .comment

def block? (s : Symbol) : Option BlockKind :=
  match s.kind with
  | .block block _ _ => some block
  | _ => none

def arguments (s : Symbol) : List Argument :=
  match s.kind with
  | .call arguments _ => arguments
  | _ => []

/-- The keyword or brace that opens a block. -/
def opener (s : Symbol) (block : BlockKind) : Range :=
  s.range.opening block.openerSize

/-- The name at the start of a call. -/
def nameRange (s : Symbol) : Range :=
  s.range.opening s.name.utf8ByteSize

mutual

def decEq : (a b : Symbol) → Decidable (a = b)
  | ⟨n, k, r, cs, c, l⟩, ⟨n', k', r', cs', c', l'⟩ =>
    match decEqAll cs cs' with
    | isFalse h => isFalse fun e => h (Symbol.mk.inj e).2.2.2.1
    | isTrue h =>
      if he : n = n' ∧ k = k' ∧ r = r' ∧ c = c' ∧ l = l' then
        isTrue (by obtain ⟨rfl, rfl, rfl, rfl, rfl⟩ := he; rw [h])
      else isFalse fun e => he (by cases e; simp)

def decEqAll : (as bs : List Symbol) → Decidable (as = bs)
  | [], [] => isTrue rfl
  | [], _ :: _ => isFalse nofun
  | _ :: _, [] => isFalse nofun
  | a :: as, b :: bs =>
    match decEq a b with
    | isFalse h => isFalse fun e => h (List.cons.inj e).1
    | isTrue ha =>
      match decEqAll as bs with
      | isFalse h => isFalse fun e => h (List.cons.inj e).2
      | isTrue hs => isTrue (by rw [ha, hs])

end

instance : DecidableEq Symbol := decEq

end Symbol

end Calculation
