import Calculation.Statement.Cursor

/-!
Parentheses and lists. Every construct that holds expressions takes the way to read one, `expr`, from
outside; how deep that may go is settled where the two are tied together.
-/
namespace Calculation.Statement

/-- Reads an expression at a place, with the cursor at a lexeme that starts one. -/
abbrev ReadExpression := Place → Cursor → List Symbol × Cursor

/-- An expression behind a comma. -/
def nextInList? (expr : ReadExpression) (place : Place) (c : Cursor) : Option (List Symbol × Cursor) :=
  match c.eat? .comma with
  | some (_, c) => if c.atOperand then some (expr place c) else none
  | none => none

/-- A comma that may stand behind a list. -/
def skipComma (c : Cursor) : Cursor :=
  ((c.eat? .comma).map (·.2)).getD c

/-- Expressions with commas between them and perhaps one behind; there may be none at all. -/
def commaList (expr : ReadExpression) (place : Place) (c : Cursor) : List Symbol × Cursor :=
  if c.atOperand then
    let (first, c) := expr place c
    let (more, c) := c.many (nextInList? expr place)
    (first ++ more.flatten, skipComma c)
  else ([], c)

/-- What stands between parentheses. An open parenthesis with nothing behind it is only that. -/
def groupingBody (expr : ReadExpression) (isList : Bool) (paren : Token) (c : Cursor) : List Symbol × Cursor :=
  if c.atOperand then
    if isList then commaList expr .grouping c else expr .grouping c
  else if c.isAt .rightParen then ([], c.fault .emptyGrouping paren.range)
  else ([], c)

/-- Closes a parenthesis, or reports that it stays open. -/
def closeGrouping (paren : Token) (c : Cursor) : Cursor :=
  match c.eat? .rightParen with
  | some (_, c) => c
  | none => c.fault .openGrouping paren.range

/-- An expression, or the values of a list, in parentheses; `paren` has been taken. -/
def grouping (expr : ReadExpression) (isList : Bool) (paren : Token) (c : Cursor) : List Symbol × Cursor :=
  let (symbols, c) := c.inside .rightParen (groupingBody expr isList paren)
  (symbols, closeGrouping paren c)

end Calculation.Statement
