import Calculation.Diagnostic.Code
import Calculation.Text.Range

namespace Calculation

inductive Severity where
  | error | warning | info | hint
deriving DecidableEq, Repr, Inhabited

namespace Severity

/-- The worst comes first. -/
def rank : Severity → Nat
  | error => 0
  | warning => 1
  | info => 2
  | hint => 3

end Severity

/-- A second place that belongs to a diagnostic, such as the name of a call that is not closed. -/
structure Related where
  message : String
  range : Range
deriving DecidableEq, Repr, Inhabited

structure Diagnostic where
  code : Code
  severity : Severity
  range : Range
  message : String
  /-- A remedy that an editor can offer. -/
  remedy : Option String
  related : List Related
deriving DecidableEq, Repr, Inhabited

namespace Diagnostic

/-- An error with the message that belongs to its code. -/
def ofCode (code : Code) : Diagnostic :=
  ⟨code, .error, .empty 0, code.defaultMessage, none, []⟩

def isError (d : Diagnostic) : Bool :=
  d.severity == .error

/-- A fault that makes the tree incomplete. -/
def isStructural (d : Diagnostic) : Bool :=
  d.code.isStructural

/-- Code and message, with the remedy on a second line. -/
def format (d : Diagnostic) : String :=
  d.code.label ++ ": " ++ d.message ++ (d.remedy.map ("\n  hint: " ++ ·)).getD ""

def relocated (d : Diagnostic) (delta : Int) : Diagnostic :=
  { d with
    range := d.range.relocated delta
    related := d.related.map fun r => { r with range := r.range.relocated delta } }

end Diagnostic

end Calculation
