import Calculation.Proofs.Reading.Derivation

/-!
The grammar of calculations. A rule tells which lexemes make a phrase, and with it the symbols that stand for the
phrase: the derivation is the symbol tree. Rules get the expressions that they hold from outside; how deep these
nest is settled where the rules are tied together.
-/
namespace Calculation.Grammar
open Statement

/-- Lexemes that make a phrase, and its symbols. -/
abbrev Phrase := List Lexeme → List Symbol → Prop

/-- Lexemes that make a row of clauses, with the symbols and the branches. -/
abbrev ClausePhrase := List Lexeme → List Symbol → List Branch → Prop

/-- Expressions inside of the innermost aggregate call or LOD block around them. -/
abbrev Expressions := Option Scope → Phrase

/-- A complete symbol. -/
def node (src : Source) (name : String) (kind : Symbol.Kind) (range : Range) (children : List Symbol) : Symbol :=
  ⟨name, kind, range, children, true, src.lines.continuation range⟩

/-- An operator that is a word is a symbol. -/
def operator (src : Source) (op : Token) : List Symbol :=
  if op.kind.isLogicalOperator then [node src op.kind.displayName .operator op.range []] else []

/-- A branch from its keyword to the end of its expression. -/
def clause (kind : BranchKind) (keyword : Lexeme) (ls : List Lexeme) : Branch :=
  ⟨kind, keyword.token.range, keyword.span ls⟩

def argument (src : Source) (l : Lexeme) (ls : List Lexeme) (ss : List Symbol) : CallPart :=
  ⟨⟨src.trimmed (l.span ls), l.span ls, true⟩, ss⟩

def isAggregate (src : Source) (name : Token) : Bool :=
  (src.options.signatures.get? name.text).any Signature.isAggregate

/-- What is around the arguments of a call. -/
def argumentScope (src : Source) (name : Token) (around : Option Scope) : Option Scope :=
  if isAggregate src name then some .aggregate else around

def block (src : Source) (kind : BlockKind) (opener : Lexeme) (ls : List Lexeme) (bs : List Branch) (stop : Lexeme)
    (ss : List Symbol) : Symbol :=
  node src kind.name (.block kind bs (some stop.token.range)) (opener.span (ls ++ [stop])) ss

def isLiteral : Token.Kind → Bool
  | .number | .string | .date | .true_ | .false_ | .null => true
  | _ => false

/-- Expressions with a comma in front of each. -/
inductive More (E : Phrase) : Phrase
  | nil : More E [] []
  | cons {comma : Lexeme} {as bs : List Lexeme} {ss tt : List Symbol} (hcomma : comma.token.kind = .comma)
    (ha : E as ss) (hb : More E bs tt) : More E (comma :: as ++ bs) (ss ++ tt)

/-- Expressions with commas between them, and perhaps one behind. -/
inductive CommaList (E : Phrase) : Phrase
  | plain {as bs : List Lexeme} {ss tt : List Symbol} (ha : E as ss) (hb : More E bs tt) :
    CommaList E (as ++ bs) (ss ++ tt)
  | trailing {comma : Lexeme} {as bs : List Lexeme} {ss tt : List Symbol} (ha : E as ss) (hb : More E bs tt)
    (hcomma : comma.token.kind = .comma) : CommaList E (as ++ bs ++ [comma]) (ss ++ tt)

/-- The arguments of a call, of which there are some. -/
inductive Arguments (src : Source) (E : Phrase) : List Lexeme → List CallPart → Prop
  | one {l : Lexeme} {ls : List Lexeme} {ss : List Symbol} (h : E (l :: ls) ss) :
    Arguments src E (l :: ls) [argument src l ls ss]
  | cons {l comma : Lexeme} {ls as : List Lexeme} {ss : List Symbol} {parts : List CallPart} (h : E (l :: ls) ss)
    (hcomma : comma.token.kind = .comma) (hm : Arguments src E as parts) :
    Arguments src E (l :: ls ++ comma :: as) (argument src l ls ss :: parts)

/-- What stands behind the parenthesis of a call. -/
inductive Closed (src : Source) (E : Phrase) : List Lexeme → List CallPart → Prop
  | empty {close : Lexeme} (hclose : close.token.kind = .rightParen) : Closed src E [close] []
  | arguments {close : Lexeme} {as : List Lexeme} {parts : List CallPart} (h : Arguments src E as parts)
    (hclose : close.token.kind = .rightParen) : Closed src E (as ++ [close]) parts

theorem Arguments.complete {src : Source} {E : Phrase} {as : List Lexeme} {parts : List CallPart}
    (h : Arguments src E as parts) : parts.all (·.argument.isComplete) = true := by
  induction h with
  | one => rfl
  | cons _ _ _ ih => simp [ih, argument]

theorem Closed.complete {src : Source} {E : Phrase} {as : List Lexeme} {parts : List CallPart}
    (h : Closed src E as parts) : parts.all (·.argument.isComplete) = true := by
  cases h with
  | empty => rfl
  | arguments h => exact h.complete

/-- A condition and its value, behind the keyword. -/
inductive Condition (E : Phrase) (kind : BranchKind) (keyword : Lexeme) : ClausePhrase
  | mk {then_ : Lexeme} {as bs : List Lexeme} {ss tt : List Symbol} (ha : E as ss)
    (hthen : then_.token.kind = .then_) (hb : E bs tt) :
    Condition E kind keyword (as ++ then_ :: bs) (ss ++ tt) [clause kind keyword as, clause .then_ then_ bs]

/-- Conditions that a keyword starts, and values behind ELSE, in any order. -/
inductive ClauseRow (E : Phrase) (keyword : Token.Kind) (kind : BranchKind) : ClausePhrase
  | nil : ClauseRow E keyword kind [] [] []
  | condition {l : Lexeme} {as ls : List Lexeme} {ss tt : List Symbol} {bs cs : List Branch}
    (hl : l.token.kind = keyword) (h : Condition E kind l as ss bs) (hm : ClauseRow E keyword kind ls tt cs) :
    ClauseRow E keyword kind (l :: as ++ ls) (ss ++ tt) (bs ++ cs)
  | else_ {l : Lexeme} {as ls : List Lexeme} {ss tt : List Symbol} {cs : List Branch} (hl : l.token.kind = .else_)
    (h : E as ss) (hm : ClauseRow E keyword kind ls tt cs) :
    ClauseRow E keyword kind (l :: as ++ ls) (ss ++ tt) (clause .else_ l as :: cs)

/-- The dimensions behind the keyword of an LOD block, of which there may be none. -/
inductive Dimensions (E : Phrase) (keyword : Lexeme) : ClausePhrase
  | none : Dimensions E keyword [] [] []
  | list {as : List Lexeme} {ss : List Symbol} (h : CommaList E as ss) :
    Dimensions E keyword as ss [clause .dimensions keyword as]

/-- The inside of an LOD block: an expression over the whole table, or a level of detail with its expression. -/
inductive Detail (E : Phrase) (brace : Lexeme) : LodScope → ClausePhrase
  | table {as : List Lexeme} {ss : List Symbol} (h : E as ss) :
    Detail E brace .table as ss [clause .aggregate brace as]
  | level {keyword colon : Lexeme} {as cs : List Lexeme} {ss tt : List Symbol} {bs : List Branch} {scope : LodScope}
    (hscope : scopeOf? keyword.token.kind = some scope) (hd : Dimensions E keyword as ss bs)
    (hcolon : colon.token.kind = .colon) (h : E cs tt) :
    Detail E brace scope (keyword :: as ++ colon :: cs) (ss ++ tt) (bs ++ [clause .aggregate colon cs])

variable (src : Source) (E : Expressions) (around : Option Scope)

/-- What an operator has on its sides. -/
inductive Primary : Phrase
  | literal {l : Lexeme} (hl : isLiteral l.token.kind = true) (hclosed : openLiteral? l.token = none) :
    Primary [l] [node src l.token.text (.literal (literalKind l.token.kind)) l.token.range []]
  | field {l : Lexeme} (hl : l.token.kind = .field) (hclosed : l.token.isOpen = false) :
    Primary [l] [node src l.token.fieldName (.field none) l.token.range []]
  | qualified {l dot l' : Lexeme} (hl : l.token.kind = .field) (hclosed : l.token.isOpen = false)
    (hdot : dot.token.kind = .dot) (hl' : l'.token.kind = .field) (hclosed' : l'.token.isOpen = false) :
    Primary [l, dot, l'] [node src l'.token.fieldName (.field (some l.token.fieldName))
      (l.token.range.cover l'.token.range) []]
  | call {name paren : Lexeme} {as : List Lexeme} {parts : List CallPart} (hname : name.token.kind = .identifier)
    (hparen : paren.token.kind = .leftParen) (h : Closed src (E (argumentScope src name.token around)) as parts) :
    Primary (name :: paren :: as) [node src name.token.text
      (.call (parts.map (·.argument)) (isAggregate src name.token && around == some .aggregate))
      (name.span (paren :: as)) (parts.flatMap (·.symbols))]
  | group {paren close : Lexeme} {as : List Lexeme} {ss : List Symbol} (hparen : paren.token.kind = .leftParen)
    (h : E around as ss) (hclose : close.token.kind = .rightParen) : Primary (paren :: as ++ [close]) ss
  | ifBlock {l stop : Lexeme} {as cs : List Lexeme} {ss tt : List Symbol} {bs ds : List Branch}
    (hl : l.token.kind = .if_) (h : Condition (E around) .if_ l as ss bs)
    (hm : ClauseRow (E around) .elseIf .elseIf cs tt ds) (hstop : stop.token.kind = .end_) :
    Primary (l :: (as ++ cs) ++ [stop]) [block src .if_ l (as ++ cs) (bs ++ ds) stop (ss ++ tt)]
  | caseBlock {l stop : Lexeme} {as cs : List Lexeme} {ss tt : List Symbol} {ds : List Branch}
    (hl : l.token.kind = .case_) (h : E around as ss) (hm : ClauseRow (E around) .when_ .when_ cs tt ds)
    (hwhen : ∃ b ∈ ds, b.kind = .when_) (hstop : stop.token.kind = .end_) :
    Primary (l :: (as ++ cs) ++ [stop])
      [block src .case_ l (as ++ cs) (clause .case_ l as :: ds) stop (ss ++ tt)]
  | lodBlock {brace stop : Lexeme} {as : List Lexeme} {ss : List Symbol} {bs : List Branch} {scope : LodScope}
    (hbrace : brace.token.kind = .leftBrace) (h : Detail (E (some .lod)) brace scope as ss bs)
    (hstop : stop.token.kind = .rightBrace) :
    Primary (brace :: as ++ [stop]) [block src (.lod scope) brace as bs stop ss]

/-- Signs and NOT in front of what they stand before. -/
inductive Operand : Phrase
  | signed {l : Lexeme} {as : List Lexeme} {ss : List Symbol} (hl : isSign l.token.kind = true)
    (h : Operand as ss) : Operand (l :: as) (operator src l.token ++ ss)
  | primary {as : List Lexeme} {ss : List Symbol} (h : Primary src E around as ss) : Operand as ss

/-- Binary operators with what stands on their right sides; behind IN that may be a list. -/
inductive Links : Phrase
  | nil : Links [] []
  | operand {l : Lexeme} {as bs : List Lexeme} {ss tt : List Symbol} (hl : l.token.kind.isBinaryOperator = true)
    (h : Operand src E around as ss) (hm : Links bs tt) : Links (l :: as ++ bs) (operator src l.token ++ ss ++ tt)
  | list {l paren close : Lexeme} {as bs : List Lexeme} {ss tt : List Symbol} (hl : l.token.kind = .in_)
    (hparen : paren.token.kind = .leftParen) (h : CommaList (E around) as ss)
    (hclose : close.token.kind = .rightParen) (hm : Links bs tt) :
    Links (l :: (paren :: as ++ [close]) ++ bs) (operator src l.token ++ ss ++ tt)

inductive Chain : Phrase
  | mk {as bs : List Lexeme} {ss tt : List Symbol} (ha : Operand src E around as ss) (hb : Links src E around bs tt) :
    Chain (as ++ bs) (ss ++ tt)

/-- Expressions of which at most so many are nested in one another. -/
def Expression : Nat → Expressions
  | 0 => fun _ _ _ => False
  | levels + 1 => Chain src (Expression levels)

/-- Statements one behind the other, with nothing between them. -/
inductive Statements (E : Phrase) : Phrase
  | nil : Statements E [] []
  | cons {as bs : List Lexeme} {ss tt : List Symbol} (ha : E as ss) (hb : Statements E bs tt) :
    Statements E (as ++ bs) (ss ++ tt)

/-- The statements that are read from a source. -/
def Program (src : Source) : Phrase :=
  Statements (Expression src src.options.levels none)

end Calculation.Grammar
