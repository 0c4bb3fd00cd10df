import Calculation.Json.Value

/-!
Reading JSON text strictly: no comments, no commas before a closing bracket, no leading zeros, no control
characters inside strings, nothing but blanks around the value.
-/
namespace Calculation.Json

abbrev Reader (α : Type) := List Char → Option (α × List Char)

namespace Reader

def isSpace (c : Char) : Bool :=
  c = ' ' || c = '\t' || c = '\n' || c = '\r'

def skipSpace (cs : List Char) : List Char :=
  cs.dropWhile isSpace

def word (text : List Char) (value : Json) : Reader Json := fun cs =>
  if text.isPrefixOf cs then some (value, cs.drop text.length) else none

def digits : Reader (List Char) := fun cs =>
  match cs.span Char.isDigit with
  | ([], _) => none
  | (ds, rest) => some (ds, rest)

/-- A whole part without leading zeros. -/
def whole : Reader (List Char)
  | '0' :: cs => some (['0'], cs)
  | cs => digits cs

/-- A point and the digits behind it, where a point stands. -/
def fraction : Reader (List Char)
  | '.' :: cs => (digits cs).map fun (ds, rest) => ('.' :: ds, rest)
  | cs => some ([], cs)

/-- An exponent, where its mark stands. -/
def exponent : Reader (List Char)
  | c :: cs =>
    if c = 'e' ∨ c = 'E' then
      match cs with
      | s :: ds =>
        if s = '+' ∨ s = '-' then (digits ds).map fun (ds, rest) => (c :: s :: ds, rest)
        else (digits cs).map fun (ds, rest) => (c :: ds, rest)
      | [] => none
    else some ([], c :: cs)
  | [] => some ([], [])

/-- The text of a number. -/
def number : Reader (List Char) := fun cs => do
  let (sign, cs) := match cs with
    | '-' :: rest => (['-'], rest)
    | _ => ([], cs)
  let (w, cs) ← whole cs
  let (f, cs) ← fraction cs
  let (e, cs) ← exponent cs
  return (sign ++ w ++ f ++ e, cs)

def hexDigit? (c : Char) : Option Nat :=
  if c.isDigit then some (c.toNat - '0'.toNat)
  else if 'a' ≤ c && c ≤ 'f' then some (c.toNat - 'a'.toNat + 10)
  else if 'A' ≤ c && c ≤ 'F' then some (c.toNat - 'A'.toNat + 10)
  else none

def escape? : Char → Option Char
  | '"' => some '"'
  | '\\' => some '\\'
  | '/' => some '/'
  | 'b' => some '\x08'
  | 'f' => some '\x0c'
  | 'n' => some '\n'
  | 'r' => some '\r'
  | 't' => some '\t'
  | _ => none

/-- The code points of a string behind its opening quote, each escaped UTF-16 unit by itself. -/
def units : Reader (List Nat)
  | [] => none
  | '"' :: cs => some ([], cs)
  | '\\' :: 'u' :: a :: b :: c :: d :: cs => do
    let n := 4096 * (← hexDigit? a) + 256 * (← hexDigit? b) + 16 * (← hexDigit? c) + (← hexDigit? d)
    let (rest, cs) ← units cs
    return (n :: rest, cs)
  | '\\' :: c :: cs => do
    let c ← escape? c
    let (rest, cs) ← units cs
    return (c.toNat :: rest, cs)
  | c :: cs =>
    if c = '\\' || c.toNat < 0x20 then none
    else (units cs).map fun (rest, cs) => (c.toNat :: rest, cs)

def isHigh (n : Nat) : Bool :=
  0xD800 ≤ n && n < 0xDC00

def isLow (n : Nat) : Bool :=
  0xDC00 ≤ n && n < 0xE000

/-- Joins each pair of surrogates into its character; a surrogate without its partner makes no text. -/
def joinPairs : List Nat → Option (List Char)
  | [] => some []
  | [n] => if isHigh n || isLow n then none else some [Char.ofNat n]
  | n :: m :: ns =>
    if isHigh n then
      if isLow m then
        (joinPairs ns).map (Char.ofNat (0x10000 + 1024 * (n - 0xD800) + (m - 0xDC00)) :: ·)
      else none
    else if isLow n then none
    else (joinPairs (m :: ns)).map (Char.ofNat n :: ·)

def string : Reader (Option String) := fun cs =>
  (units cs).map fun (ns, rest) => ((joinPairs ns).map String.ofList, rest)

/-- The items behind an opening bracket and one item: each after a comma, up to the bracket's end. -/
def moreItems (item : Reader Json) : Nat → Reader (List Json)
  | 0, _ => none
  | budget + 1, cs =>
    match skipSpace cs with
    | ']' :: cs => some ([], cs)
    | ',' :: cs => do
      let (first, cs) ← item cs
      let (rest, cs) ← moreItems item budget cs
      return (first :: rest, cs)
    | _ => none

def items (item : Reader Json) : Reader (List Json) := fun cs =>
  match skipSpace cs with
  | ']' :: cs => some ([], cs)
  | _ => do
    let (first, rest) ← item cs
    let (more, rest) ← moreItems item (rest.length + 1) rest
    return (first :: more, rest)

def member (item : Reader Json) : Reader (Option String × Json) := fun cs =>
  match skipSpace cs with
  | '"' :: cs => do
    let (name, cs) ← string cs
    match skipSpace cs with
    | ':' :: cs => (item cs).map fun (value, cs) => ((name, value), cs)
    | _ => none
  | _ => none

def moreMembers (item : Reader Json) : Nat → Reader (List (Option String × Json))
  | 0, _ => none
  | budget + 1, cs =>
    match skipSpace cs with
    | '\x7d' :: cs => some ([], cs)
    | ',' :: cs => do
      let (first, cs) ← member item cs
      let (rest, cs) ← moreMembers item budget cs
      return (first :: rest, cs)
    | _ => none

def members (item : Reader Json) : Reader (List (Option String × Json)) := fun cs =>
  match skipSpace cs with
  | '\x7d' :: cs => some ([], cs)
  | _ => do
    let (first, rest) ← member item cs
    let (more, rest) ← moreMembers item (rest.length + 1) rest
    return (first :: more, rest)

/-- A value with at most `depth` values around each other. -/
def value : Nat → Reader Json
  | 0, _ => none
  | depth + 1, cs =>
    match skipSpace cs with
    | 'n' :: cs => word ['u', 'l', 'l'] .null cs
    | 't' :: cs => word ['r', 'u', 'e'] (.bool true) cs
    | 'f' :: cs => word ['a', 'l', 's', 'e'] (.bool false) cs
    | '"' :: cs => (string cs).map fun (text, cs) => (.string text, cs)
    | '[' :: cs => (items (value depth) cs).map fun (items, cs) => (.array items, cs)
    | '\x7b' :: cs => (members (value depth) cs).map fun (members, cs) => (.object members, cs)
    | cs => (number cs).map fun (text, cs) => (.number (.ofList text), cs)

end Reader

/-- The value of a JSON text. Its values cannot be nested deeper than it has characters. -/
def parse? (text : String) : Option Json :=
  match Reader.value (text.length + 1) text.toList with
  | some (value, rest) => if (Reader.skipSpace rest).isEmpty then some value else none
  | none => none

end Calculation.Json
