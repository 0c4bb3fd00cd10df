/-!
JSON values as they are written: a number keeps its text, an object keeps its members in order and
repeated ones too. Records are read from them either by name or by place.
-/
namespace Calculation

/-- A string that escapes half a surrogate pair has no text. -/
inductive Json where
  | null
  | bool (value : Bool)
  | number (text : String)
  | string (text : Option String)
  | array (items : List Json)
  | object (members : List (Option String × Json))
deriving Repr, Inhabited

namespace Json

/-- The value of decimal digits. -/
def digitsValue (cs : List Char) : Nat :=
  cs.foldl (fun n c => 10 * n + (c.toNat - '0'.toNat)) 0

/-- The number of a text with nothing but digits. -/
def natural? (text : String) : Option Nat :=
  if text.toList.all Char.isDigit && !text.isEmpty then some (digitsValue text.toList) else none

/-- A non-negative integer below 2 ^ `width`, written with digits alone. -/
def unsigned? (width : Nat) : Json → Option Nat
  | number text => (natural? text).filter (· < Nat.pow 2 width)
  | _ => none

/-- An integer of `width` bits with a sign, written without fraction or exponent. There is no minus zero. -/
def signed? (width : Nat) : Json → Option Int
  | number text =>
    match text.toList with
    | '-' :: digits => (natural? (.ofList digits)).bind fun n =>
        if 0 < n ∧ n ≤ Nat.pow 2 (width - 1) then some (-(n : Int)) else none
    | _ => (natural? text).bind fun n => if n < Nat.pow 2 (width - 1) then some (n : Int) else none
  | _ => none

def text? : Json → Option String
  | string text => text
  | _ => none

def bool? : Json → Option Bool
  | bool value => some value
  | _ => none

def items? : Json → Option (List Json)
  | array items => some items
  | _ => none

/-- The values of the fields `names` in their order, read from the members of an object. A member that no
field is named for is skipped; one that has no text for a name, or comes twice, spoils the record. -/
def fields? (names : List String) (members : List (Option String × Json)) : Option (List (Option Json)) :=
  if members.any (fun m => m.1.isNone) then none
  else names.mapM fun name =>
    match members.filter (fun m => m.1 == some name) with
    | [] => some none
    | [(_, value)] => some (some value)
    | _ => none

/-- The values of the fields `names`: from an object by name, from an array by place. An array may stop
early, but not go on. -/
def record? (names : List String) : Json → Option (List (Option Json))
  | object members => fields? names members
  | array items =>
    if items.length ≤ names.length then
      some (items.map some ++ List.replicate (names.length - items.length) none)
    else none
  | _ => none

mutual

/-- The value with only the last of repeated members, at the place of the first. -/
def lastMembers : Json → Json
  | array items => array (lastMembersEach items)
  | object members => object (lastMembersOf members)
  | value => value

def lastMembersEach : List Json → List Json
  | [] => []
  | item :: items => lastMembers item :: lastMembersEach items

def lastMembersOf : List (Option String × Json) → List (Option String × Json)
  | [] => []
  | (name, value) :: members =>
    let rest := lastMembersOf members
    match rest.find? (fun m => m.1 == name) with
    | some later => later :: rest.filter (fun m => m.1 != name)
    | none => (name, lastMembers value) :: rest

end

/-- The member of an object by its name. -/
def member? (name : String) : Json → Option Json
  | object members => (members.find? (fun m => m.1 == some name)).map (·.2)
  | _ => none

end Json

end Calculation
