import Calculation.Statement.Cursor

/-!
Operands and operators that are a token or two: literals, references to fields, words that are no call.
Each is read with the cursor behind its first token.
-/
namespace Calculation

namespace Text

def unquoted : List Char → List Char
  | ']' :: ']' :: cs => ']' :: unquoted cs
  | c :: cs => c :: unquoted cs
  | [] => []

end Text

namespace Token

/-- The name of a field token: what stands between its brackets, where a doubled bracket stands for one. -/
def fieldName (t : Token) : String :=
  let inner := t.text.toList.drop 1
  .ofList (Text.unquoted (if t.isOpen then inner else inner.dropLast))

end Token

namespace Statement

/-- A logical operator is a symbol; other operators leave none. -/
def operatorSymbol (src : Source) (op : Token) (c : Cursor) : List Symbol × Cursor :=
  if op.kind.isLogicalOperator then
    let (s, c) := c.leaf src op.kind.displayName .operator op.range true
    ([s], c)
  else ([], c)

def literalKind : Token.Kind → LiteralKind
  | .string => .string
  | .date => .date
  | .true_ => .boolean
  | .false_ => .boolean
  | .null => .null
  | _ => .number

/-- What is wrong with a literal that is not closed. -/
def openLiteral? (t : Token) : Option Cause :=
  if t.isOpen then
    match t.kind with
    | .string => some .openString
    | .date => some .openDate
    | _ => none
  else none

def literal (src : Source) (t : Token) (c : Cursor) : Symbol × Cursor :=
  let cause := openLiteral? t
  let c := match cause with
    | some cause => c.fault cause t.range
    | none => c
  c.leaf src t.text (.literal (literalKind t.kind)) t.range cause.isNone

/-- Reports a field token whose bracket is open. -/
def checkField (t : Token) (c : Cursor) : Cursor :=
  if t.isOpen then c.fault (.openField t.text) t.range else c

theorem checkField_closed {t : Token} (h : t.isOpen = false) (c : Cursor) : checkField t c = c := by
  rw [checkField, h]
  rfl

/-- The second field of a qualified reference, behind its dot. -/
def qualified? (c : Cursor) : Option (Token × Cursor) :=
  (c.eat? .dot).bind fun (_, c) => c.eat? .field

def fieldReference (src : Source) (t : Token) (c : Cursor) : Symbol × Cursor :=
  let c := checkField t c
  match if t.isOpen then none else qualified? c with
  | some (t', c) =>
    let c := checkField t' c
    c.leaf src t'.fieldName (.field (some t.fieldName)) (t.range.cover t'.range) (!t'.isOpen)
  | none => c.leaf src t.fieldName (.field none) t.range (!t.isOpen)

/-- A word that is no call is taken for a field without its brackets. -/
def bareIdentifier (src : Source) (t : Token) (c : Cursor) : Symbol × Cursor :=
  (c.fault (.bareIdentifier t.text) t.range).leaf src t.text (.field none) t.range false

end Statement

end Calculation
