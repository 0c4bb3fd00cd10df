import Calculation.Statement.Grouping

namespace Calculation.Statement

/-- An argument and the symbols in it. -/
structure CallPart where
  argument : Argument
  symbols : List Symbol

/-- The argument that stands here. A comma or a closing parenthesis in its place means that it is missing;
anything else that starts no expression ends the list. -/
def argument? (src : Source) (expr : ReadExpression) (function : String) (c : Cursor) :
    Option (CallPart × Cursor) :=
  match c.rest with
  | [] => none
  | l :: _ =>
    let t := l.token
    if t.kind = .comma ∨ t.kind = .rightParen then
      some (⟨⟨"", .empty t.range.start, false⟩, []⟩, c.fault (.missingArgument function) t.range)
    else if c.atOperand then
      let ((symbols, met), c) := c.recording (expr .arguments)
      let range := c.since t.range.start
      some (⟨⟨src.trimmed range, range, !met.any Event.isStructural⟩, symbols⟩, c)
    else none

/-- What stands behind an argument: a comma leads to the next one, a closing parenthesis ends the list, anything
else leaves it open. The result is the last argument and whether the list was closed. -/
def behindArgument (part : CallPart) (c : Cursor) : Cursor.Round CallPart (List CallPart × Bool) :=
  if c.isAt .comma then
    let c := c.advance
    if c.atEnd || c.afterBlank then .done ([part], false) c else .next part c
  else if c.isAt .rightParen then .done ([part], true) c.advance
  else .done ([part], false) c

/-- One argument and what stands behind it. -/
def argumentRound (src : Source) (expr : ReadExpression) (function : String) (c : Cursor) :
    Cursor.Round CallPart (List CallPart × Bool) :=
  match argument? src expr function c with
  | none => .done ([], false) c
  | some (part, c) => behindArgument part c

/-- Arguments up to the one that ends the list, and whether it was closed. -/
def argumentList (src : Source) (expr : ReadExpression) (function : String) (c : Cursor) :
    (List CallPart × Bool) × Cursor :=
  let ((parts, last), c) := c.loop (argumentRound src expr function) ([], false)
  ((parts ++ last.1, last.2), c)

/-- The arguments behind an open parenthesis, and whether it was closed. -/
def arguments (src : Source) (expr : ReadExpression) (function : String) (c : Cursor) :
    (List CallPart × Bool) × Cursor :=
  match c.eat? .rightParen with
  | some (_, c) => (([], true), c)
  | none => c.inside .rightParen (argumentList src expr function)

/-- Checks the number of arguments of a complete call. -/
def checkSignature (name : Token) (signature? : Option Signature) (count : Nat) (c : Cursor) : Cursor :=
  match signature? with
  | none => c.fault (.unknownFunction name.text) name.range
  | some s => if s.accepts count then c else c.fault (.wrongArity name.text s.expected count) name.range

/-- The arguments of a call. An aggregate opens a scope for its own. -/
def scopedArguments (src : Source) (expr : ReadExpression) (name : Token) (isAggregate : Bool) (c : Cursor) :
    (List CallPart × Bool) × Cursor :=
  if isAggregate then c.inScope .aggregate (arguments src expr name.text) else arguments src expr name.text c

/-- Reports a call that is not closed, or checks one that is complete and not in a skipped stretch. -/
def checkCall (name paren : Token) (signature? : Option Signature) (isClosed isComplete : Bool) (count : Nat)
    (c : Cursor) : Cursor :=
  if !isClosed then c.fault (.openCall name.text name.range) paren.range
  else if isComplete && c.scans == 0 then checkSignature name signature? count c
  else c

/-- Finishes a call from its arguments. -/
def finishCall (src : Source) (name paren : Token) (isNested : Bool) (parts : List CallPart) (isClosed : Bool)
    (c : Cursor) : Symbol × Cursor :=
  let args := parts.map (·.argument)
  let isComplete := isClosed && args.all (·.isComplete)
  let c := checkCall name paren (src.options.signatures.get? name.text) isClosed isComplete args.length c
  c.finish src
    ⟨name.text, .call args isNested, c.since name.range.start, parts.flatMap (·.symbols), isComplete, []⟩

/-- A call; its name and parenthesis have been taken. -/
def call (src : Source) (expr : ReadExpression) (name paren : Token) (c : Cursor) : Symbol × Cursor :=
  let isAggregate := (src.options.signatures.get? name.text).any Signature.isAggregate
  let isNested := isAggregate && c.scopes.head? == some .aggregate
  let ((parts, isClosed), c) := scopedArguments src expr name isAggregate c
  finishCall src name paren isNested parts isClosed c

end Calculation.Statement
