import Calculation.Json.Reader
import Calculation.Signature.Table
import Calculation.Text.Blank

/-!
Reading signatures from JSON. The whole text is read first; then each signature is checked in turn, and the
first one that fails decides the answer.
-/
namespace Calculation

inductive SignatureError where
  | unreadable
  | emptyName
  | invalidArity (name : String) (min max : Nat)
deriving DecidableEq, Repr, Inhabited

namespace SignatureError

def message : SignatureError → String
  | unreadable => "the text holds no list of signatures"
  | emptyName => "Invalid signature: function name is empty"
  | invalidArity name min max =>
    "Invalid signature for " ++ name ++ ": maxArgs " ++ toString max ++ " is less than minArgs " ++ toString min

end SignatureError

namespace Category

/-- A category by its name, or by an object that holds nothing but null under its name. -/
def ofJson? : Json → Option Category
  | .string (some text) => ofName? text
  | .object [(some text, .null)] => ofName? text
  | _ => none

end Category

namespace Signature

def fieldNames : List String :=
  ["name", "minArgs", "maxArgs", "argTypes", "returnType", "category"]

/-- A count of arguments, where null stands for any number. -/
def maxOfJson? : Json → Option (Option Nat)
  | .null => some none
  | value => (value.unsigned? 64).map some

/-- Without the name or the least count there is no signature; the other fields have defaults. -/
def ofJson? (value : Json) : Option Signature := do
  match ← value.record? fieldNames with
  | [some name, some minArgs, maxArgs, argTypes, returnType, category] =>
    return {
      name := ← name.text?
      minArgs := ← minArgs.unsigned? 64
      maxArgs := ← maxArgs.elim (some none) maxOfJson?
      argTypes := ← argTypes.elim (some []) fun v => do (← v.items?).mapM Json.text?
      returnType := ← returnType.elim (some "any") Json.text?
      category := ← category.elim (some .other) Category.ofJson? }
  | _ => none

/-- A signature needs a name that is not blank and room for its least number of arguments. -/
def check (s : Signature) : Except SignatureError Unit :=
  if (Text.trim s.name.toList).isEmpty then .error .emptyName
  else match s.maxArgs with
    | some max => if max < s.minArgs then .error (.invalidArity s.name s.minArgs max) else .ok ()
    | none => .ok ()

end Signature

namespace SignatureTable

/-- The table of a list of signatures, unless one of them fails its check. -/
def load (ss : List Signature) : Except SignatureError SignatureTable := do
  ss.forM Signature.check
  return ofList ss

def read (text : String) : Except SignatureError SignatureTable :=
  match (Json.parse? text).bind fun value => do (← value.items?).mapM Signature.ofJson? with
  | some ss => load ss
  | none => .error .unreadable

end SignatureTable

end Calculation
