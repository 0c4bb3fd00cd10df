import Calculation.Token.Kind

/-!
The table of token rules. A rule looks at the start of a text and says how many characters it takes and
whether the token is still missing its end. The lexer takes the longest match, and of two equally long
ones that of the rule that stands first.
-/
namespace Calculation.Token

/-- How much of the text a rule takes. An open match is one whose closing delimiter is missing. -/
structure Match where
  size : Nat
  isOpen : Bool
deriving DecidableEq, Repr, Inhabited

def Match.after (m : Match) (n : Nat) : Match :=
  { m with size := n + m.size }

/-- A match that ends with itself; an empty one is none. -/
def Match.whole? (size : Nat) : Option Match :=
  if size = 0 then none else some ⟨size, false⟩

abbrev Scan := List Char → Option Match

structure Rule where
  kind : Kind
  scan : Scan

namespace Scan

def isSpace (c : Char) : Bool :=
  c = ' ' || c = '\t' || c = '\r' || c = '\n' || c = '\x0c'

def isLineEnd (c : Char) : Bool :=
  c = '\n' || c = '\r'

def spaces : Scan := fun cs =>
  Match.whole? (cs.takeWhile isSpace).length

/-- Two slashes and all up to the next line feed. -/
def lineComment : Scan
  | '/' :: '/' :: cs => some ⟨2 + (cs.takeWhile (· ≠ '\n')).length, false⟩
  | _ => none

/-- All through the first star that a slash follows. -/
def throughStarSlash : List Char → Match
  | [] => ⟨0, true⟩
  | [_] => ⟨1, true⟩
  | c :: d :: cs => if c = '*' ∧ d = '/' then ⟨2, false⟩ else (throughStarSlash (d :: cs)).after 1

def blockComment : Scan
  | '/' :: '*' :: cs => some ((throughStarSlash cs).after 2)
  | _ => none

/-- All through the first `close` on the line that is not doubled; a doubled one stands for itself. -/
def throughClose (close : Char) : List Char → Match
  | [] => ⟨0, true⟩
  | [c] => if isLineEnd c then ⟨0, true⟩ else ⟨1, c ≠ close⟩
  | c :: d :: cs =>
    if isLineEnd c then ⟨0, true⟩
    else if c = close then
      if d = close then (throughClose close cs).after 2 else ⟨1, false⟩
    else (throughClose close (d :: cs)).after 1

/-- Text between delimiters that a doubled closing delimiter does not end. -/
def delimited (opener close : Char) : Scan
  | [] => none
  | c :: cs => if c = opener then some ((throughClose close cs).after 1) else none

/-- All through the next number sign on the line. -/
def throughNumberSign : List Char → Match
  | [] => ⟨0, true⟩
  | c :: cs =>
    if isLineEnd c then ⟨0, true⟩
    else if c = '#' then ⟨1, false⟩
    else (throughNumberSign cs).after 1

def date : Scan
  | '#' :: cs => some ((throughNumberSign cs).after 1)
  | _ => none

def digits (cs : List Char) : Nat :=
  (cs.takeWhile Char.isDigit).length

/-- The length of a fraction, which needs a digit behind its point. -/
def fraction : List Char → Nat
  | '.' :: cs => if digits cs = 0 then 0 else 1 + digits cs
  | _ => 0

/-- The length of an exponent, which needs a digit behind its mark and sign. -/
def exponent : List Char → Nat
  | c :: cs =>
    if c = 'e' ∨ c = 'E' then
      let sign := match cs with
        | s :: _ => if s = '+' ∨ s = '-' then 1 else 0
        | [] => 0
      let n := digits (cs.drop sign)
      if n = 0 then 0 else 1 + sign + n
    else 0
  | [] => 0

/-- Digits with an optional fraction, or a fraction alone; then an optional exponent. -/
def number : Scan := fun cs =>
  let whole := digits cs
  let mantissa := whole + fraction (cs.drop whole)
  if mantissa = 0 then none else some ⟨mantissa + exponent (cs.drop mantissa), false⟩

def isNameStart (c : Char) : Bool :=
  c.isAlpha || c = '_'

def isNameRest (c : Char) : Bool :=
  c.isAlphanum || c = '_'

def identifier : Scan
  | [] => none
  | c :: cs => if isNameStart c then some ⟨1 + (cs.takeWhile isNameRest).length, false⟩ else none

/-- Simple case folding, as far as its result is an ASCII letter: the long s and the Kelvin sign fold too. -/
def fold (c : Char) : Char :=
  if c = 'ſ' then 's' else if c = '\u212a' then 'k' else c.toLower

/-- The fixed text `word`. -/
def exactly (word : String) : Scan := fun cs =>
  if cs.take word.length = word.toList then Match.whole? word.length else none

/-- The word in any spelling that folds to it; `word` itself is in small letters. -/
def keyword (word : String) : Scan := fun cs =>
  if (cs.take word.length).map fold = word.toList then Match.whole? word.length else none

end Scan

namespace Rule

def keywords : List Rule :=
  [("if", .if_), ("then", .then_), ("elseif", .elseIf), ("else", .else_), ("end", .end_), ("case", .case_),
    ("when", .when_), ("fixed", .fixed), ("include", .include_), ("exclude", .exclude), ("true", .true_),
    ("false", .false_), ("null", .null), ("and", .and_), ("or", .or_), ("not", .not_), ("in", .in_)].map
    fun (word, kind) => ⟨kind, Scan.keyword word⟩

def operators : List Rule :=
  [("==", .equalEqual), ("!=", .bangEqual), ("<>", .lessGreater), ("<=", .lessEqual), (">=", .greaterEqual),
    ("&&", .and_), ("||", .or_), ("(", .leftParen), (")", .rightParen), ("\x7b", .leftBrace),
    ("\x7d", .rightBrace), ("]", .rightBracket), (",", .comma), (":", .colon), (".", .dot), ("+", .plus),
    ("-", .minus), ("*", .star), ("/", .slash), ("%", .percent), ("^", .caret), ("=", .equal), ("<", .less),
    (">", .greater)].map
    fun (text, kind) => ⟨kind, Scan.exactly text⟩

/-- All rules; the keywords stand before the identifiers, which match them too. -/
def all : List Rule :=
  [⟨.whitespace, Scan.spaces⟩, ⟨.lineComment, Scan.lineComment⟩, ⟨.blockComment, Scan.blockComment⟩,
    ⟨.string, Scan.delimited '"' '"'⟩, ⟨.string, Scan.delimited '\'' '\''⟩, ⟨.field, Scan.delimited '[' ']'⟩,
    ⟨.date, Scan.date⟩] ++ keywords ++ [⟨.identifier, Scan.identifier⟩, ⟨.number, Scan.number⟩] ++ operators

/-- What holds of each rule with a way of its own to scan, of the keywords and of the operators, holds of all rules. -/
theorem forall_all {P : Rule → Prop} (hspaces : P ⟨.whitespace, Scan.spaces⟩)
    (hline : P ⟨.lineComment, Scan.lineComment⟩) (hblock : P ⟨.blockComment, Scan.blockComment⟩)
    (hdouble : P ⟨.string, Scan.delimited '"' '"'⟩) (hsingle : P ⟨.string, Scan.delimited '\'' '\''⟩)
    (hbracket : P ⟨.field, Scan.delimited '[' ']'⟩) (hdate : P ⟨.date, Scan.date⟩)
    (hkeyword : ∀ r ∈ keywords, P r) (hidentifier : P ⟨.identifier, Scan.identifier⟩)
    (hnumber : P ⟨.number, Scan.number⟩) (hoperator : ∀ r ∈ operators, P r) : ∀ r ∈ all, P r := by
  intro r hr
  rcases List.mem_append.mp hr with hr | hr
  · rcases List.mem_append.mp hr with hr | hr
    · rcases List.mem_append.mp hr with hr | hr
      · simp only [List.mem_cons, List.not_mem_nil, or_false] at hr
        rcases hr with rfl | rfl | rfl | rfl | rfl | rfl | rfl
        · exact hspaces
        · exact hline
        · exact hblock
        · exact hdouble
        · exact hsingle
        · exact hbracket
        · exact hdate
      · exact hkeyword r hr
    · simp only [List.mem_cons, List.not_mem_nil, or_false] at hr
      rcases hr with rfl | rfl
      · exact hidentifier
      · exact hnumber
  · exact hoperator r hr

end Rule

end Calculation.Token
