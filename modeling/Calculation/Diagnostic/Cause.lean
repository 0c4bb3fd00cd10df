import Calculation.Diagnostic.Basic
import Calculation.Diagnostic.Place

/-!
Causes of diagnostics. A cause settles the code, the severity, the wording, the remedy and the related
places; only where it happened comes from outside.
-/
namespace Calculation

inductive Cause where
  /-- A token that cannot stand here; a run of them is reported at its first. -/
  | unexpected (kind : Token.Kind) (text : String) (isRun : Bool) (place : Place)
  | missingOperand (operator : Token.Kind) (place : Place)
  | missingExpression (keyword : Token.Kind)
  | emptyGrouping
  | missingArgument (function : String)
  | tooDeep (limit : Nat)
  | openString
  | openDate
  | openField (text : String)
  | openComment
  | bareIdentifier (name : String)
  | openGrouping
  | openCall (function : String) (name : Range)
  | missingThen (opener : Token.Kind)
  | missingEnd (opener : Token.Kind)
  | missingWhen
  | missingColon (keyword : Token.Kind)
  | openBrace
  | wrongArity (function expected : String) (found : Nat)
  | unknownFunction (function : String)
  | openBlock (keyword closer : String)
  | nestedAggregate (inner : String) (outer : Option (String × Range))
  | deepNesting (depth limit : Nat)
  | tableCalculation (function : String)
  | fixedWithoutDimensions
  | nestedLod (outer : Range)
deriving DecidableEq, Repr, Inhabited

namespace Cause

def code : Cause → Code
  | unexpected kind _ _ place =>
    if kind = .invalid then .invalidCharacter
    else if kind.isClosingDelimiter then .unexpectedCloser
    else if place.isBlock then .unexpectedInBlock
    else .unexpectedToken
  | missingOperand .. => .missingExpression
  | missingExpression _ => .missingExpression
  | emptyGrouping => .missingExpression
  | missingArgument _ => .missingExpression
  | tooDeep _ => .tooDeep
  | openString => .openString
  | openDate => .openDate
  | openField _ => .openField
  | openComment => .openComment
  | bareIdentifier _ => .bareIdentifier
  | openGrouping => .openParenthesis
  | openCall .. => .openParenthesis
  | missingThen _ => .missingThen
  | missingEnd _ => .missingEnd
  | missingWhen => .missingWhen
  | missingColon _ => .missingColon
  | openBrace => .openBrace
  | wrongArity .. => .wrongArity
  | unknownFunction _ => .unknownFunction
  | openBlock _ closer => if closer = "END" then .missingEnd else .openBrace
  | nestedAggregate .. => .nestedAggregate
  | deepNesting .. => .deepNesting
  | tableCalculation _ => .tableCalculation
  | fixedWithoutDimensions => .fixedWithoutDimensions
  | nestedLod _ => .nestedLod

theorem unexpected_ne_tooDeep (kind : Token.Kind) (text : String) (isRun : Bool) (place : Place) :
    (unexpected kind text isRun place).code ≠ .tooDeep := by
  rw [code]
  split
  · simp
  · split
    · simp
    · split <;> simp

def severity : Cause → Severity
  | unknownFunction _ | nestedAggregate .. | deepNesting .. | nestedLod _ => .warning
  | tableCalculation _ | fixedWithoutDimensions => .info
  | _ => .error

def message (c : Cause) : String :=
  match c with
  | unexpected kind text isRun place =>
    let found := if kind = .invalid then "character '" ++ text ++ "'" else kind.displayName
    place.unexpected (if isRun then found ++ " and following tokens" else found)
  | missingOperand operator place => "expected expression after " ++ operator.displayName ++ " " ++ place.description
  | missingExpression keyword => "expected expression after " ++ keyword.displayName
  | emptyGrouping => "expected expression inside parentheses"
  | missingArgument function => "missing argument in call to " ++ function
  | tooDeep limit => "expression nested more than " ++ toString limit ++ " levels deep"
  | openField text => "unclosed bracket in field reference '" ++ text ++ "'"
  | bareIdentifier name =>
    "'" ++ name ++ "' is not a function call; field names must be enclosed in brackets"
  | openCall function _ => "unclosed parenthesis in call to " ++ function
  | missingThen opener => opener.displayName ++ " is missing THEN"
  | missingEnd opener => opener.displayName ++ " block is missing END"
  | missingColon keyword => keyword.displayName ++ " expression is missing ':'"
  | openBrace => "unclosed '\x7b' in LOD expression"
  | wrongArity function expected found =>
    function ++ " expects " ++ expected ++ " argument" ++ (if expected = "1" then "" else "s") ++ ", found " ++
      toString found
  | unknownFunction function => "unknown function '" ++ function ++ "'"
  | openBlock keyword closer => keyword ++ " is missing its closing " ++ closer
  | nestedAggregate inner outer =>
    "aggregate " ++ inner ++ " is nested inside " ++
      (match outer with
        | some (name, _) => "aggregate " ++ name
        | none => "another aggregate") ++
      "; use an LOD expression to aggregate at a different level"
  | deepNesting depth limit =>
    "block nesting depth " ++ toString depth ++ " exceeds maximum of " ++ toString limit
  | tableCalculation function =>
    function ++ " is a table calculation; its result depends on how the view is partitioned"
  | fixedWithoutDimensions => "FIXED expression has no dimensions and aggregates over the entire data source"
  | nestedLod _ => "LOD expression nested inside another LOD expression may be expensive to compute"
  | openString | openDate | openComment | openGrouping | missingWhen => c.code.defaultMessage

def remedy : Cause → Option String
  | unexpected kind text _ _ =>
    if kind = .invalid then some ("remove '" ++ text ++ "'")
    else if kind.isClosingDelimiter then some ("remove the unmatched " ++ kind.displayName)
    else if kind.isBlockContinuation then some ("remove the stray " ++ kind.displayName)
    else none
  | missingOperand .. => some "add an operand"
  | missingArgument _ => some "add an argument or remove the extra ','"
  | tooDeep _ => some "split the calculation into smaller parts"
  | openString => some "add the closing quote"
  | openDate => some "add the closing '#'"
  | openField _ => some "add ']'"
  | openComment => some "add '*/'"
  | bareIdentifier name => some ("wrap in brackets: [" ++ name ++ "]")
  | openGrouping | openCall .. => some "add ')'"
  | missingThen _ => some "add THEN"
  | missingEnd _ => some "add END"
  | missingWhen => some "add a WHEN ... THEN clause"
  | missingColon _ => some "add ':' before the aggregate expression"
  | openBrace => some "add '\x7d'"
  | _ => none

def related : Cause → List Related
  | openCall function name => [⟨function ++ " called here", name⟩]
  | nestedAggregate _ (some (outer, range)) => [⟨"outer aggregate " ++ outer, range⟩]
  | nestedLod outer => [⟨"enclosing LOD expression", outer⟩]
  | _ => []

/-- The diagnostic for this cause at `range`. -/
def spanning (c : Cause) (range : Range) : Diagnostic :=
  ⟨c.code, c.severity, range, c.message, c.remedy, c.related⟩

end Cause

end Calculation
