import Calculation.Statement.Item

/-!
A parser that knows its place by number. It holds all lexemes of a text and a position among them, counts the
expressions that it is inside of, and pushes and pops by hand what else is around it. A cursor has none of that to
look after: its lexemes are taken off a list, and a construct is read with its surroundings given. An action of the
parser comes back with a value, or not at all: when it would take a lexeme behind the last one, and when one of its
loops does not end.
-/
namespace Calculation

structure Parser where
  lexemes : List Lexeme
  pos : Nat
  /-- How many expressions are being read, each inside the one before. -/
  depth : Nat
  /-- What the statement being read has met, the newest first. -/
  trail : List Event
  closers : List Token.Kind
  scopes : List Scope
  scans : Nat

namespace Parser

def current? (p : Parser) : Option Lexeme :=
  p.lexemes[p.pos]?

def kind? (p : Parser) : Option Token.Kind :=
  p.current?.map (·.token.kind)

/-- The kind of the lexeme behind the current one. -/
def kindBehind? (p : Parser) : Option Token.Kind :=
  p.lexemes[p.pos + 1]?.map (·.token.kind)

def isAt (p : Parser) (kind : Token.Kind) : Bool :=
  p.kind? == some kind

def atEnd (p : Parser) : Bool :=
  p.lexemes.length ≤ p.pos

def afterBlank (p : Parser) : Bool :=
  p.current?.any (·.afterBlank)

def atOperand (p : Parser) : Bool :=
  p.kind?.any Token.Kind.startsExpression && !p.afterBlank

def atBinaryOperator (p : Parser) : Bool :=
  p.kind?.any Token.Kind.isBinaryOperator && !p.afterBlank

def atCloser (p : Parser) : Bool :=
  p.kind?.any (p.closers.contains ·)

/-- The clauses of a block stop here. -/
def isInterrupted (p : Parser) : Bool :=
  match p.kind? with
  | none => true
  | some kind => (p.afterBlank && !kind.isBlockContinuation) || p.atCloser

/-- The end of the last lexeme taken. -/
def lastEnd (p : Parser) : Nat :=
  match p.pos with
  | 0 => 0
  | n + 1 => (p.lexemes[n]?.map (·.token.range.stop)).getD 0

def since (p : Parser) (start : Nat) : Range :=
  ⟨start, max p.lastEnd start⟩

/-- How many structural faults the statement being read has met. -/
def structuralFaults (p : Parser) : Nat :=
  p.trail.countP Event.isStructural

end Parser

/-- What the parser does: it changes its state and comes back with a value, or does not come back. -/
abbrev Parse :=
  StateT Parser Option

namespace Parse

def bump : Parse Token := fun p =>
  p.current?.map fun l => (l.token, { p with pos := p.pos + 1 })

/-- The lexeme that stands here, which is not taken. -/
def here : Parse Token := fun p =>
  p.current?.map fun l => (l.token, p)

def skip : Parse Unit :=
  discard bump

def eat? (kind : Token.Kind) : Parse (Option Token) := do
  let p ← get
  if p.isAt kind then some <$> bump else return none

/-- Does `act` or nothing. -/
def doWhen (b : Bool) (act : Parse Unit) : Parse Unit :=
  if b then act else return ()

def fault (cause : Cause) (r : Range) : Parse Unit :=
  modify fun p => { p with trail := .fault (cause.spanning r) :: p.trail }

def noteValid : Parse Unit :=
  modify fun p => if p.scans = 0 then { p with trail := .valid :: p.trail } else p

def finish (src : Source) (s : Symbol) : Parse Symbol := do
  doWhen s.isComplete noteValid
  return { s with continuation := src.lines.continuation s.range }

def enter : Parse Unit :=
  modify fun p => { p with depth := p.depth + 1 }

def leave : Parse Unit :=
  modify fun p => { p with depth := p.depth - 1 }

def pushCloser (kind : Token.Kind) : Parse Unit :=
  modify fun p => { p with closers := kind :: p.closers }

def popCloser : Parse Unit :=
  modify fun p => { p with closers := p.closers.tail }

def pushScope (scope : Scope) : Parse Unit :=
  modify fun p => { p with scopes := scope :: p.scopes }

def popScope : Parse Unit :=
  modify fun p => { p with scopes := p.scopes.tail }

def beginScan : Parse Unit :=
  modify fun p => { p with scans := p.scans + 1 }

def endScan : Parse Unit :=
  modify fun p => { p with scans := p.scans - 1 }

def checkField (t : Token) : Parse Unit :=
  doWhen t.isOpen (fault (.openField t.text) t.range)

/-- Reports the unexpected lexeme that stands here, and takes it unless it starts an expression. -/
def bumpUnexpected (place : Place) : Parse Token := do
  let t ← here
  fault (.unexpected t.kind t.text false place) t.range
  doWhen (!t.kind.startsExpression) skip
  return t

/-- What the statement that ends here has met. -/
def takeEvents : Parse (List Event) := fun p =>
  some (p.trail.reverse, { p with trail := [] })

end Parse

namespace Source
open Parse
open Statement (CallPart Clause isSign balanceBehind? scopeOf? openLiteral? literalKind)

/-- An operator, which is a symbol only where it is a word. -/
def operatorWord (src : Source) (isWord : Bool) (op : Token) : Parse (List Symbol) :=
  if isWord then return [← finish src ⟨op.kind.displayName, .operator, op.range, [], true, []⟩] else return []

def literal (src : Source) : Parse Symbol := do
  let t ← bump
  match openLiteral? t with
  | some cause =>
    fault cause t.range
    finish src ⟨t.text, .literal (literalKind t.kind), t.range, [], false, []⟩
  | none => finish src ⟨t.text, .literal (literalKind t.kind), t.range, [], true, []⟩

def fieldReference (src : Source) : Parse Symbol := do
  let t ← bump
  checkField t
  let p ← get
  if !t.isOpen ∧ p.isAt .dot ∧ p.kindBehind? = some .field then
    skip
    let t' ← bump
    checkField t'
    finish src ⟨t'.fieldName, .field (some t.fieldName), t.range.cover t'.range, [], !t'.isOpen, []⟩
  else finish src ⟨t.fieldName, .field none, t.range, [], !t.isOpen, []⟩

def bareIdentifier (src : Source) : Parse Symbol := do
  let t ← bump
  fault (.bareIdentifier t.text) t.range
  finish src ⟨t.text, .field none, t.range, [], false, []⟩

/-- Signs in front of an operand, behind the sign `last?`. -/
def signs (src : Source) (last? : Option Token) : Parse (Option Token × List Symbol) := do
  let p ← get
  if p.kind?.any isSign && !(last?.isSome && p.afterBlank) then
    let op ← bump
    let word ← src.operatorWord (op.kind = .not_) op
    let (last?, words) ← src |>.signs (some op)
    return (last?, word ++ words)
  else return (last?, [])
partial_fixpoint

/-- The rest of a balanced run with so much open. -/
def skipBalanced (src : Source) (balance : Nat) : Parse Unit := do
  let p ← get
  match p.current?.bind fun l => (balanceBehind? balance l.token.kind).filter fun b => !(b = 0 ∧ l.afterBlank) with
  | some b =>
    skip
    src |>.skipBalanced b
  | none => return ()
partial_fixpoint

def tooDeep (src : Source) : Parse (List Symbol) := do
  let first ← bump
  src |>.skipBalanced ((balanceBehind? 0 first.kind).getD 0)
  let p ← get
  fault (.tooDeep src.options.levels) (p.since first.range.start)
  return [← finish src ⟨"error", .skipped, p.since first.range.start, [], false, []⟩]

/-- The rest of some lexemes that start no statement. -/
def skipStray (src : Source) : Parse Unit := do
  let p ← get
  if p.atEnd || p.kind?.any Token.Kind.startsExpression || p.afterBlank then return ()
  else
    skip
    src |>.skipStray
partial_fixpoint

def strayTokens (src : Source) : Parse Unit := do
  let first ← bump
  let p ← get
  src |>.skipStray
  let q ← get
  fault (.unexpected first.kind first.text (p.pos < q.pos) .topLevel) (q.since first.range.start)

def checkSignature (src : Source) (name : Token) (count : Nat) : Parse Unit :=
  match src.options.signatures.get? name.text with
  | none => fault (.unknownFunction name.text) name.range
  | some s => doWhen (!s.accepts count) (fault (.wrongArity name.text s.expected count) name.range)

def checkCall (src : Source) (name paren : Token) (isClosed isComplete : Bool) (count : Nat) : Parse Unit := do
  let p ← get
  if !isClosed then fault (.openCall name.text name.range) paren.range
  else doWhen (isComplete && p.scans == 0) (src.checkSignature name count)

def finishCall (src : Source) (name paren : Token) (isNested : Bool) (parts : List CallPart) (isClosed : Bool) :
    Parse Symbol := do
  let args := parts.map (·.argument)
  let isComplete := isClosed && args.all (·.isComplete)
  src.checkCall name paren isClosed isComplete args.length
  let p ← get
  finish src ⟨name.text, .call args isNested, p.since name.range.start, parts.flatMap (·.symbols), isComplete, []⟩

def finishBlock (src : Source) (kind : BlockKind) (opener : Token) (body : Clause) (terminator : Option Range) :
    Parse Symbol := do
  let p ← get
  finish src ⟨kind.name, .block kind body.branches terminator, p.since opener.range.start, body.symbols,
    body.isComplete && terminator.isSome, []⟩

mutual

/-- An expression, which may be one too many inside the others. -/
def expression (src : Source) (place : Place) : Parse (List Symbol) := do
  let p ← get
  if src.options.levels ≤ p.depth then src.tooDeep
  else
    enter
    let symbols ← src |>.chain place
    leave
    return symbols
partial_fixpoint

/-- An operand and all operators with theirs. -/
def chain (src : Source) (place : Place) : Parse (List Symbol) := do
  let first ← src |>.operand
  let more ← src |>.links place
  return first ++ more
partial_fixpoint

/-- Operators that go on with the expression before them, each with its right side. -/
def links (src : Source) (place : Place) : Parse (List Symbol) := do
  let p ← get
  if p.atBinaryOperator then
    let op ← bump
    let word ← src.operatorWord op.kind.isLogicalOperator op
    let symbols ← src |>.rightSide place op
    let more ← src |>.links place
    return word ++ symbols ++ more
  else return []
partial_fixpoint

def rightSide (src : Source) (place : Place) (op : Token) : Parse (List Symbol) := do
  let p ← get
  if op.kind = .in_ ∧ !p.afterBlank ∧ p.isAt .leftParen then src |>.grouping true
  else if p.atOperand then src |>.operand
  else
    fault (.missingOperand op.kind place) op.range
    return []
partial_fixpoint

def operand (src : Source) : Parse (List Symbol) := do
  let (last?, words) ← src |>.signs none
  src |>.signed last? words
partial_fixpoint

/-- What stands behind the sign `last?`, or behind none. -/
def signed (src : Source) (last? : Option Token) (words : List Symbol) : Parse (List Symbol) := do
  let p ← get
  if p.kind?.any Token.Kind.startsExpression && !(last?.isSome && p.afterBlank) then
    let symbols ← src |>.primary
    return words ++ symbols
  else
    match last? with
    | some op =>
      fault (.missingExpression op.kind) op.range
      return words
    | none => return words
partial_fixpoint

def primary (src : Source) : Parse (List Symbol) := do
  let p ← get
  match p.kind? with
  | some .field => return [← src.fieldReference]
  | some .identifier =>
    if p.kindBehind? = some .leftParen then return [← src |>.call] else return [← src.bareIdentifier]
  | some .leftParen => src |>.grouping false
  | some .leftBrace => return [← src |>.lodBlock]
  | some .if_ => return [← src |>.ifBlock]
  | some .case_ => return [← src |>.caseBlock]
  | _ => return [← src.literal]
partial_fixpoint

def grouping (src : Source) (isList : Bool) : Parse (List Symbol) := do
  let paren ← bump
  pushCloser .rightParen
  let symbols ← src |>.groupingBody isList paren
  popCloser
  let stop ← eat? .rightParen
  doWhen stop.isNone (fault .openGrouping paren.range)
  return symbols
partial_fixpoint

def groupingBody (src : Source) (isList : Bool) (paren : Token) : Parse (List Symbol) := do
  let p ← get
  if p.atOperand then src |>.groupingItems isList
  else
    doWhen (p.isAt .rightParen) (fault .emptyGrouping paren.range)
    return []
partial_fixpoint

def groupingItems (src : Source) (isList : Bool) : Parse (List Symbol) := do
  let first ← src |>.expression .grouping
  if isList then
    match ← eat? .comma with
    | some _ =>
      let p ← get
      if p.atOperand then
        let more ← src |>.groupingItems isList
        return first ++ more
      else return first
    | none => return first
  else return first
partial_fixpoint

def call (src : Source) : Parse Symbol := do
  let name ← bump
  let paren ← bump
  let p ← get
  let isAggregate := (src.options.signatures.get? name.text).any Signature.isAggregate
  doWhen isAggregate (pushScope .aggregate)
  let (parts, isClosed) ← src |>.arguments name.text
  doWhen isAggregate popScope
  src.finishCall name paren (isAggregate && p.scopes.head? == some .aggregate) parts isClosed
partial_fixpoint

def arguments (src : Source) (function : String) : Parse (List CallPart × Bool) := do
  match ← eat? .rightParen with
  | some _ => return ([], true)
  | none =>
    pushCloser .rightParen
    let list ← src |>.argumentList function
    popCloser
    return list
partial_fixpoint

def argumentList (src : Source) (function : String) : Parse (List CallPart × Bool) := do
  let p ← get
  match p.current? with
  | none => return ([], false)
  | some l =>
    if l.token.kind = .comma ∨ l.token.kind = .rightParen then
      fault (.missingArgument function) l.token.range
      src |>.argumentsBehind function ⟨⟨"", .empty l.token.range.start, false⟩, []⟩
    else if p.atOperand then
      let symbols ← src |>.expression .arguments
      let q ← get
      let range := q.since l.token.range.start
      src |>.argumentsBehind function
        ⟨⟨src.trimmed range, range, q.structuralFaults == p.structuralFaults⟩, symbols⟩
    else return ([], false)
partial_fixpoint

/-- An argument and those behind it, up to the end of the list. -/
def argumentsBehind (src : Source) (function : String) (part : CallPart) : Parse (List CallPart × Bool) := do
  let p ← get
  if p.isAt .comma then
    skip
    let q ← get
    if q.atEnd || q.afterBlank then return ([part], false)
    else
      let (parts, isClosed) ← src |>.argumentList function
      return (part :: parts, isClosed)
  else if p.isAt .rightParen then
    skip
    return ([part], true)
  else return ([part], false)
partial_fixpoint

def required (src : Source) (place : Place) (keyword : Token) : Parse (List Symbol) := do
  let p ← get
  if p.atOperand then src |>.expression place
  else
    fault (.missingExpression keyword.kind) keyword.range
    return []
partial_fixpoint

def branch (src : Source) (place : Place) (kind : BranchKind) (keyword : Token) : Parse Clause := do
  let symbols ← src |>.required place keyword
  let p ← get
  return ⟨symbols, [⟨kind, keyword.range, p.since keyword.range.start⟩], true⟩
partial_fixpoint

def thenClause (src : Source) (place : Place) (opener : Token) : Parse Clause := do
  match ← eat? .then_ with
  | some t => src |>.branch place .then_ t
  | none =>
    fault (.missingThen opener.kind) opener.range
    let p ← get
    let symbols ← (if p.atOperand then src |>.expression place else return [])
    return ⟨symbols, [], false⟩
partial_fixpoint

def condition (src : Source) (place : Place) (kind : BranchKind) (keyword : Token) : Parse Clause := do
  let head ← src |>.branch place kind keyword
  let tail ← src |>.thenClause place keyword
  return head.append tail
partial_fixpoint

/-- The clauses of an IF or CASE block, where `keyword` starts a condition, up to its END. -/
def clauses (src : Source) (place : Place) (keyword : Token.Kind) (kind : BranchKind) :
    Parse (Clause × Option Range) := do
  let p ← get
  if p.isInterrupted then return (.empty, none)
  else if p.isAt keyword then
    let t ← bump
    let clause ← src |>.condition place kind t
    let (more, stop) ← src |>.clauses place keyword kind
    return (clause.append more, stop)
  else if p.isAt .else_ then
    let t ← bump
    let clause ← src |>.branch place .else_ t
    let (more, stop) ← src |>.clauses place keyword kind
    return (clause.append more, stop)
  else if p.isAt .end_ then
    let t ← bump
    return (.empty, some t.range)
  else
    let s ← src |>.resync place
    let (more, stop) ← src |>.clauses place keyword kind
    return (Clause.append ⟨[s], [], true⟩ more, stop)
partial_fixpoint

def ifBlock (src : Source) : Parse Symbol := do
  let opener ← bump
  let head ← src |>.condition .ifBlock .if_ opener
  let (more, stop) ← src |>.clauses .ifBlock .elseIf .elseIf
  doWhen stop.isNone (fault (.missingEnd opener.kind) opener.range)
  src.finishBlock .if_ opener (head.append more) stop
partial_fixpoint

def caseBlock (src : Source) : Parse Symbol := do
  let opener ← bump
  let head ← src |>.branch .caseBlock .case_ opener
  let (more, stop) ← src |>.clauses .caseBlock .when_ .when_
  let body := head.append more
  doWhen (!body.hasWhen) (fault .missingWhen opener.range)
  doWhen stop.isNone (fault (.missingEnd opener.kind) opener.range)
  src.finishBlock .case_ opener { body with isComplete := body.isComplete && body.hasWhen } stop
partial_fixpoint

def dimensionItems (src : Source) : Parse (List Symbol) := do
  let p ← get
  if p.atOperand then
    let first ← src |>.expression .lodDimensions
    match ← eat? .comma with
    | some _ =>
      let more ← src |>.dimensionItems
      return first ++ more
    | none => return first
  else return []
partial_fixpoint

def dimensions (src : Source) (keyword : Token) : Parse Clause := do
  let p ← get
  let symbols ← src |>.dimensionItems
  let q ← get
  if p.pos < q.pos then return ⟨symbols, [⟨.dimensions, keyword.range, q.since keyword.range.start⟩], true⟩
  else return ⟨symbols, [], true⟩
partial_fixpoint

def aggregate (src : Source) (keyword : Token) : Parse Clause := do
  match ← eat? .colon with
  | some colon => src |>.branch .lodBody .aggregate colon
  | none =>
    fault (.missingColon keyword.kind) keyword.range
    return ⟨[], [], false⟩
partial_fixpoint

def lodHead (src : Source) (brace : Token) : Parse (LodScope × Clause) := do
  let p ← get
  match p.kind?.bind scopeOf? with
  | some scope =>
    let keyword ← bump
    let head ← src |>.dimensions keyword
    let body ← src |>.aggregate keyword
    return (scope, head.append body)
  | none =>
    let body ← src |>.branch .lodBody .aggregate brace
    return (.table, body)
partial_fixpoint

/-- What is skipped at the end of an LOD block, up to its closing brace. -/
def lodTail (src : Source) : Parse (Clause × Option Range) := do
  let p ← get
  if p.isAt .rightBrace then
    let t ← bump
    return (.empty, some t.range)
  else if p.isInterrupted || p.kind?.any (fun k => k.isBlockContinuation && k != .then_) then
    return (.empty, none)
  else
    let s ← src |>.resync .lodBody
    let (more, stop) ← src |>.lodTail
    return (Clause.append ⟨[s], [], true⟩ more, stop)
partial_fixpoint

def lodBody (src : Source) (brace : Token) : Parse (LodScope × Clause × Option Range) := do
  let (scope, head) ← src |>.lodHead brace
  let (skipped, stop) ← src |>.lodTail
  return (scope, head.append skipped, stop)
partial_fixpoint

def lodBlock (src : Source) : Parse Symbol := do
  let brace ← bump
  pushScope .lod
  pushCloser .rightBrace
  let (scope, body, stop) ← src |>.lodBody brace
  popScope
  popCloser
  doWhen stop.isNone (fault .openBrace brace.range)
  src.finishBlock (.lod scope) brace body stop
partial_fixpoint

/-- What is found in a skipped stretch that starts at the position `start`. -/
def scan (src : Source) (place : Place) (start : Nat) : Parse (List Symbol) := do
  let p ← get
  if p.atEnd || p.kind?.any (place.stops.contains ·) || p.atCloser || (start < p.pos && p.afterBlank) then
    return []
  else
    let symbols ← (if p.kind?.any Token.Kind.startsExpression then src |>.expression place else return [])
    let q ← get
    doWhen (q.pos == p.pos) skip
    let more ← src |>.scan place start
    return symbols ++ more
partial_fixpoint

/-- Reports the unexpected lexeme that stands here, and gives what is found up to the next stop. -/
def skipStretch (src : Source) (place : Place) : Parse (Token × List Symbol) := do
  let p ← get
  let t ← bumpUnexpected place
  beginScan
  let symbols ← src |>.scan place p.pos
  endScan
  return (t, symbols)
partial_fixpoint

/-- A skipped stretch, which is at least one lexeme. -/
def resync (src : Source) (place : Place) : Parse Symbol := do
  let p ← get
  let (t, symbols) ← src |>.skipStretch place
  let q ← get
  doWhen (q.pos == p.pos) skip
  let q ← get
  finish src ⟨"error", .skipped, q.since t.range.start, symbols, false, []⟩
partial_fixpoint

end

def statement (src : Source) : Parse (List Symbol) := do
  let p ← get
  if p.kind?.any Token.Kind.startsExpression then src |>.expression .topLevel
  else
    doWhen (!p.atEnd) src.strayTokens
    return []

/-- All statements; `fallback` is what is done about one that takes no lexeme. -/
def run (src : Source) (fallback : Parse Unit) : Parse (List Item) := do
  let p ← get
  match p.current? with
  | none => return []
  | some l =>
    let symbols ← src.statement
    let q ← get
    doWhen (q.pos == p.pos) fallback
    let q ← get
    let events ← takeEvents
    let items ← src |>.run fallback
    return ⟨q.since l.token.range.start, true, symbols, events⟩ :: items
partial_fixpoint

end Source

end Calculation
