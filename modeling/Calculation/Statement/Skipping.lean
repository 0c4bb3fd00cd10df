import Calculation.Statement.Grouping

/-!
Skipping what cannot be read: unexpected tokens inside a block, runs that are nested too deep, and tokens
that start no statement.
-/
namespace Calculation.Statement

/-- The next thing of a skipped stretch, up to a stop of the place, a delimiter that something around waits
for, or a blank line. -/
def skipNext? (expr : ReadExpression) (place : Place) (c : Cursor) : Option (List Symbol × Cursor) :=
  match c.rest with
  | [] => none
  | l :: _ =>
    if place.stops.contains l.token.kind || c.atCloser || l.afterBlank then none
    else if l.token.kind.startsExpression then some (expr place c)
    else some ([], c.advance)

/-- The first of a skipped stretch: the expression that starts with `t`, or `t` alone. -/
def skipFirst (expr : ReadExpression) (place : Place) (t : Token) (c : Cursor) : List Symbol × Cursor :=
  if t.kind.startsExpression then expr place c else ([], c.advance)

/-- A skipped stretch from `t` up to the next stop. What looks like an expression on the way is kept. -/
def skipStretch (expr : ReadExpression) (place : Place) (t : Token) (c : Cursor) : List Symbol × Cursor :=
  let (first, c) := skipFirst expr place t c
  let (more, c) := c.many (skipNext? expr place)
  (first ++ more.flatten, c)

/-- Reports the unexpected token `t` that stands here and skips to the next stop. -/
def resync (src : Source) (expr : ReadExpression) (place : Place) (t : Token) (c : Cursor) : Symbol × Cursor :=
  let c := c.fault (.unexpected t.kind t.text false place) t.range
  let (symbols, c) := c.scanning (skipStretch expr place t)
  c.finish src ⟨"error", .skipped, c.since t.range.start, symbols, false, []⟩

/-- The number of open brackets and blocks behind a token, unless it ends the run that they belong to. -/
def balanceBehind? (balance : Nat) (kind : Token.Kind) : Option Nat :=
  match kind with
  | .leftParen | .leftBrace | .if_ | .case_ => some (balance + 1)
  | .rightParen | .rightBrace | .end_ => if balance = 0 then none else some (balance - 1)
  | .comma => if balance = 0 then none else some balance
  | _ => some balance

/-- How many lexemes belong to a balanced run. A blank line ends it where nothing is open. -/
def runLength (balance : Nat) : List Lexeme → Nat
  | [] => 0
  | l :: ls =>
    match balanceBehind? balance l.token.kind with
    | none => 0
    | some b => if b = 0 ∧ l.afterBlank then 0 else 1 + runLength b ls

/-- Skips the balanced run that starts here, because an expression may not nest deeper. -/
def tooDeep (src : Source) : ReadExpression := fun _ c =>
  match c.rest with
  | [] => ([], c)
  | l :: ls =>
    let c := c.skip (1 + runLength ((balanceBehind? 0 l.token.kind).getD 0) ls)
    let range := c.since l.token.range.start
    let (s, c) := (c.fault (.tooDeep src.options.levels) range).leaf src "error" .skipped range false
    ([s], c)

/-- Skips the tokens up to the next one that can start a statement, and reports them together. -/
def strayTokens (c : Cursor) : Cursor :=
  match c.rest with
  | [] => c
  | l :: ls =>
    let more := (ls.takeWhile fun l => !(l.token.kind.startsExpression || l.afterBlank)).length
    let c := c.skip (1 + more)
    c.fault (.unexpected l.token.kind l.token.text (0 < more) .topLevel) (c.since l.token.range.start)

end Calculation.Statement
