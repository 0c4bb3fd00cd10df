namespace Calculation

inductive Code where
  | invalidCharacter | openString | openComment | openField | openDate
  | unexpectedToken | openBrace | openParenthesis | unexpectedCloser
  | missingEnd | missingWhen | missingThen | missingColon | unexpectedInBlock
  | missingExpression | bareIdentifier | tooDeep
  | wrongArity | unknownFunction
  | nestedAggregate | deepNesting | tableCalculation | fixedWithoutDimensions | nestedLod
  | internal
deriving DecidableEq, Repr, Inhabited

namespace Code

def all : List Code :=
  [invalidCharacter, openString, openComment, openField, openDate, unexpectedToken, openBrace, openParenthesis,
    unexpectedCloser, missingEnd, missingWhen, missingThen, missingColon, unexpectedInBlock, missingExpression,
    bareIdentifier, tooDeep, wrongArity, unknownFunction, nestedAggregate, deepNesting, tableCalculation,
    fixedWithoutDimensions, nestedLod, internal]

def number : Code → Nat
  | invalidCharacter => 101
  | openString => 102
  | openComment => 103
  | openField => 104
  | openDate => 105
  | unexpectedToken => 201
  | openBrace => 202
  | openParenthesis => 203
  | unexpectedCloser => 205
  | missingEnd => 301
  | missingWhen => 302
  | missingThen => 303
  | missingColon => 304
  | unexpectedInBlock => 305
  | missingExpression => 401
  | bareIdentifier => 402
  | tooDeep => 403
  | wrongArity => 501
  | unknownFunction => 502
  | nestedAggregate => 601
  | deepNesting => 602
  | tableCalculation => 603
  | fixedWithoutDimensions => 604
  | nestedLod => 605
  | internal => 999

/-- The letter E and four digits. -/
def label (c : Code) : String :=
  "E0" ++ toString c.number

def category (c : Code) : String :=
  match c.number / 100 with
  | 1 => "lexical error"
  | 2 => "delimiter error"
  | 3 => "block error"
  | 4 => "expression error"
  | 5 => "signature error"
  | 6 => "semantic advisory"
  | _ => "internal error"

/-- A structural fault leaves the tree incomplete and counts towards recovery; the others are advice. -/
def isStructural (c : Code) : Bool :=
  c.number < 500

def defaultMessage : Code → String
  | invalidCharacter => "invalid character"
  | openString => "unterminated string literal"
  | openComment => "unterminated block comment"
  | openField => "unclosed bracket in field reference"
  | openDate => "unterminated date literal"
  | unexpectedToken => "unexpected token"
  | openBrace => "unclosed brace"
  | openParenthesis => "unclosed parenthesis"
  | unexpectedCloser => "unexpected closing delimiter"
  | missingEnd => "block is missing END"
  | missingWhen => "CASE without WHEN"
  | missingThen => "missing THEN"
  | missingColon => "LOD expression is missing ':'"
  | unexpectedInBlock => "unexpected token in block"
  | missingExpression => "expected expression"
  | bareIdentifier => "field names must be enclosed in brackets"
  | tooDeep => "expression nested too deeply"
  | wrongArity => "wrong number of arguments"
  | unknownFunction => "unknown function"
  | nestedAggregate => "aggregate nested inside another aggregate"
  | deepNesting => "nesting depth exceeds maximum"
  | tableCalculation => "table calculation depends on view partitioning"
  | fixedWithoutDimensions => "FIXED expression without dimensions"
  | nestedLod => "LOD expression nested inside another LOD expression"
  | internal => "internal parser error"

theorem number_injective {a b : Code} (h : a.number = b.number) : a = b := by
  cases a <;> cases b <;> simp_all [number]

end Code

end Calculation
