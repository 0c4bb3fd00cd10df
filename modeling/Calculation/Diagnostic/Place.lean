import Calculation.Token.Kind

/-!
Places: the innermost construct around a fault. A place tells messages where the fault stands and
recovery where it may stop.
-/
namespace Calculation

inductive Place where
  | topLevel | arguments | grouping | ifBlock | caseBlock | lodDimensions | lodBody
deriving DecidableEq, Repr, Inhabited

namespace Place

def description : Place → String
  | topLevel => "at top level"
  | arguments => "in function arguments"
  | grouping => "in parenthesized expression"
  | ifBlock => "in IF block"
  | caseBlock => "in CASE block"
  | lodDimensions => "in LOD dimensions"
  | lodBody => "in LOD expression"

def expected : Place → String
  | topLevel => "an expression"
  | arguments => "',' or ')'"
  | grouping => "')'"
  | ifBlock => "ELSEIF, ELSE or END"
  | caseBlock => "WHEN, ELSE or END"
  | lodDimensions => "',' or ':'"
  | lodBody => "'\x7d'"

/-- Tokens that end the skipping of unexpected ones, besides blank lines and the end of the text. -/
def stops : Place → List Token.Kind
  | topLevel | ifBlock | caseBlock => [.end_, .else_, .elseIf, .when_]
  | lodDimensions | lodBody => [.end_, .else_, .elseIf, .when_, .rightBrace]
  | arguments | grouping => [.end_, .else_, .elseIf, .when_, .rightParen]

def isBlock : Place → Bool
  | ifBlock | caseBlock | lodDimensions | lodBody => true
  | _ => false

/-- The message for something that cannot stand in this place. -/
def unexpected (p : Place) (found : String) : String :=
  "unexpected " ++ found ++ " " ++ p.description ++ ", expected " ++ p.expected

end Place

end Calculation
