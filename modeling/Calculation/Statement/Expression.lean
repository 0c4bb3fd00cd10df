import Calculation.Statement.Block
import Calculation.Statement.Call
import Calculation.Statement.Leaf

/-!
Expressions: operands with operators between them. An expression holds others one level further down, and
below the last level nothing is read.
-/
namespace Calculation.Statement

def isSign : Token.Kind → Bool
  | .not_ | .minus | .plus => true
  | _ => false

/-- NOT or a sign in front of an operand. -/
def sign? (src : Source) (c : Cursor) : Option ((Token × List Symbol) × Cursor) :=
  if c.kind?.any isSign then
    c.take?.map fun (t, c) =>
      let (symbols, c) := operatorSymbol src t c
      ((t, symbols), c)
  else none

/-- A further sign; no blank line may stand before it. -/
def nextSign? (src : Source) (c : Cursor) : Option ((Token × List Symbol) × Cursor) :=
  if c.afterBlank then none else sign? src c

/-- All signs in front of an operand. -/
def signs (src : Source) (c : Cursor) : List (Token × List Symbol) × Cursor :=
  match sign? src c with
  | none => ([], c)
  | some (first, c) =>
    let (more, c) := c.many (nextSign? src)
    (first :: more, c)

theorem signs_nil {src : Source} {c : Cursor} (h : (signs src c).1 = []) : (signs src c).2 = c := by
  unfold signs at h ⊢
  split at h
  · rfl
  · cases h

/-- A word: a call when a parenthesis stands behind it. -/
def word (src : Source) (expr : ReadExpression) (t : Token) (c : Cursor) : Symbol × Cursor :=
  match c.eat? .leftParen with
  | some (paren, c) => call src expr t paren c
  | none => bareIdentifier src t c

/-- The construct that starts with the token `t`, which has been taken. -/
def primary (src : Source) (expr : ReadExpression) (t : Token) (c : Cursor) : List Symbol × Cursor :=
  let one (read : Symbol × Cursor) : List Symbol × Cursor := ([read.1], read.2)
  match t.kind with
  | .field => one (fieldReference src t c)
  | .identifier => one (word src expr t c)
  | .leftParen => grouping expr false t c
  | .leftBrace => one (lodBlock src expr t c)
  | .if_ => one (ifBlock src expr t c)
  | .case_ => one (caseBlock src expr t c)
  | _ => one (literal src t c)

/-- What stands behind some signs. A sign with nothing behind it is reported. -/
def signed (src : Source) (expr : ReadExpression) (signs : List (Token × List Symbol)) (c : Cursor) :
    List Symbol × Cursor :=
  let words := signs.flatMap (·.2)
  let last? := signs.getLast?.map (·.1)
  let isReadable := c.kind?.any Token.Kind.startsExpression && !(last?.isSome && c.afterBlank)
  match if isReadable then c.take? else none with
  | some (t, c) =>
    let (symbols, c) := primary src expr t c
    (words ++ symbols, c)
  | none =>
    match last? with
    | some op => (words, c.fault (.missingExpression op.kind) op.range)
    | none => (words, c)

/-- Signs and what they stand before. -/
def operand (src : Source) (expr : ReadExpression) (c : Cursor) : List Symbol × Cursor :=
  let (signs, c) := signs src c
  signed src expr signs c

/-- What stands behind a binary operator: an operand, or behind IN also a list. -/
def rightSide (src : Source) (expr : ReadExpression) (place : Place) (op : Token) (c : Cursor) :
    List Symbol × Cursor :=
  match if op.kind = .in_ ∧ !c.afterBlank then c.eat? .leftParen else none with
  | some (paren, c) => grouping expr true paren c
  | none => if c.atOperand then operand src expr c else ([], c.fault (.missingOperand op.kind place) op.range)

/-- An operator that goes on with the expression before it, and its right side. -/
def link? (src : Source) (expr : ReadExpression) (place : Place) (c : Cursor) : Option (List Symbol × Cursor) :=
  c.operator?.map fun (op, c) =>
    let (word, c) := operatorSymbol src op c
    let (symbols, c) := rightSide src expr place op c
    (word ++ symbols, c)

/-- An operand and all operators with theirs. -/
def chain (src : Source) (expr : ReadExpression) : ReadExpression := fun place c =>
  let (first, c) := operand src expr c
  let (more, c) := c.many (link? src expr place)
  (first ++ more.flatten, c)

/-- An expression with `levels` levels left for it and those inside it. -/
def expression (src : Source) : Nat → ReadExpression
  | 0 => tooDeep src
  | levels + 1 => chain src (expression src levels)

end Calculation.Statement
