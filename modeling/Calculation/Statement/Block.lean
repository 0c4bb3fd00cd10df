import Calculation.Statement.Skipping

/-!
Blocks: IF, CASE and LOD. A block is a row of clauses; each gives branches and symbols to the block, and may
leave it incomplete.
-/
namespace Calculation.Statement

structure Clause where
  symbols : List Symbol
  branches : List Branch
  isComplete : Bool

namespace Clause

def empty : Clause :=
  ⟨[], [], true⟩

def append (a b : Clause) : Clause :=
  ⟨a.symbols ++ b.symbols, a.branches ++ b.branches, a.isComplete && b.isComplete⟩

def join (clauses : List Clause) : Clause :=
  ⟨clauses.flatMap (·.symbols), clauses.flatMap (·.branches), clauses.all (·.isComplete)⟩

theorem join_cons (a : Clause) (as : List Clause) : join (a :: as) = a.append (join as) := by
  simp [join, append]

end Clause

/-- The expression that has to stand behind `keyword`. -/
def required (expr : ReadExpression) (place : Place) (keyword : Token) (c : Cursor) : List Symbol × Cursor :=
  if c.atOperand then expr place c else ([], c.fault (.missingExpression keyword.kind) keyword.range)

/-- A branch: its keyword, which has been taken, and the expression behind it. -/
def branch (expr : ReadExpression) (place : Place) (kind : BranchKind) (keyword : Token) (c : Cursor) :
    Clause × Cursor :=
  let (symbols, c) := required expr place keyword c
  (⟨symbols, [⟨kind, keyword.range, c.since keyword.range.start⟩], true⟩, c)

/-- THEN and its value. Without THEN the value is still read, but belongs to no branch. -/
def thenClause (expr : ReadExpression) (place : Place) (opener : Token) (c : Cursor) : Clause × Cursor :=
  match c.eat? .then_ with
  | some (t, c) => branch expr place .then_ t c
  | none =>
    let c := c.fault (.missingThen opener.kind) opener.range
    let (symbols, c) := if c.atOperand then expr place c else ([], c)
    (⟨symbols, [], false⟩, c)

/-- A condition, behind its keyword, and the THEN that belongs to it. -/
def condition (expr : ReadExpression) (place : Place) (kind : BranchKind) (keyword : Token) (c : Cursor) :
    Clause × Cursor :=
  let (head, c) := branch expr place kind keyword c
  let (tail, c) := thenClause expr place keyword c
  (head.append tail, c)

/-- The block ends here without its terminator: at the end of the text, at a blank line that no keyword of a
block follows, or at a delimiter that something around waits for. -/
def isInterrupted (c : Cursor) : Bool :=
  match c.kind? with
  | none => true
  | some kind => (c.afterBlank && !kind.isBlockContinuation) || c.atCloser

/-- A skipped stretch as a clause. -/
def skippedClause (src : Source) (expr : ReadExpression) (place : Place) (t : Token) (c : Cursor) :
    Clause × Cursor :=
  let (s, c) := resync src expr place t c
  (⟨[s], [], true⟩, c)

/-- The next clause of an IF or CASE block, where `keyword` starts a condition. -/
def nextClause? (src : Source) (expr : ReadExpression) (place : Place) (keyword : Token.Kind)
    (kind : BranchKind) (c : Cursor) : Option (Clause × Cursor) :=
  if isInterrupted c then none
  else match c.rest with
    | [] => none
    | l :: _ =>
      let t := l.token
      if t.kind = .end_ then none
      else if t.kind = keyword then some (condition expr place kind t c.advance)
      else if t.kind = .else_ then some (branch expr place .else_ t c.advance)
      else some (skippedClause src expr place t c)

/-- Finishes a block from what was read of it. -/
def finishBlock (src : Source) (kind : BlockKind) (opener : Token) (body : Clause) (terminator : Option Range)
    (c : Cursor) : Symbol × Cursor :=
  c.finish src
    ⟨kind.name, .block kind body.branches terminator, c.since opener.range.start, body.symbols,
      body.isComplete && terminator.isSome, []⟩

/-- END, or a report that it is missing. -/
def terminator (opener : Token) (c : Cursor) : Option Range × Cursor :=
  match c.eat? .end_ with
  | some (t, c) => (some t.range, c)
  | none => (none, c.fault (.missingEnd opener.kind) opener.range)

/-- The clauses of an IF block. -/
def ifBody (src : Source) (expr : ReadExpression) (opener : Token) (c : Cursor) : Clause × Cursor :=
  let (head, c) := condition expr .ifBlock .if_ opener c
  let (clauses, c) := c.many (nextClause? src expr .ifBlock .elseIf .elseIf)
  (head.append (.join clauses), c)

/-- An IF block; its keyword has been taken. -/
def ifBlock (src : Source) (expr : ReadExpression) (opener : Token) (c : Cursor) : Symbol × Cursor :=
  let (body, c) := ifBody src expr opener c
  let (stop, c) := terminator opener c
  finishBlock src .if_ opener body stop c

/-- The clauses of a CASE block. -/
def caseBody (src : Source) (expr : ReadExpression) (opener : Token) (c : Cursor) : Clause × Cursor :=
  let (head, c) := branch expr .caseBlock .case_ opener c
  let (clauses, c) := c.many (nextClause? src expr .caseBlock .when_ .when_)
  (head.append (.join clauses), c)

def Clause.hasWhen (body : Clause) : Bool :=
  body.branches.any (·.kind == .when_)

/-- Reports a CASE block that has no WHEN. -/
def checkWhen (opener : Token) (hasWhen : Bool) (c : Cursor) : Cursor :=
  if hasWhen then c else c.fault .missingWhen opener.range

/-- A CASE block, which needs a WHEN; its keyword has been taken. -/
def caseBlock (src : Source) (expr : ReadExpression) (opener : Token) (c : Cursor) : Symbol × Cursor :=
  let (body, c) := caseBody src expr opener c
  let c := checkWhen opener body.hasWhen c
  let (stop, c) := terminator opener c
  finishBlock src .case_ opener { body with isComplete := body.isComplete && body.hasWhen } stop c

def scopeOf? : Token.Kind → Option LodScope
  | .fixed => some .fixed
  | .include_ => some .include_
  | .exclude => some .exclude
  | _ => none

theorem scopeOf?_of_starts {k : Token.Kind} (h : k.startsExpression = true) : scopeOf? k = none := by
  revert h
  cases k <;> simp [Token.Kind.startsExpression, scopeOf?]

/-- The dimensions behind a scope keyword; without an expression there is no branch for them. -/
def dimensions (expr : ReadExpression) (keyword : Token) (c : Cursor) : Clause × Cursor :=
  if c.atOperand then
    let (symbols, c) := commaList expr .lodDimensions c
    (⟨symbols, [⟨.dimensions, keyword.range, c.since keyword.range.start⟩], true⟩, c)
  else (.empty, c)

/-- The aggregate expression behind its colon. -/
def aggregate (expr : ReadExpression) (keyword : Token) (c : Cursor) : Clause × Cursor :=
  match c.eat? .colon with
  | some (colon, c) => branch expr .lodBody .aggregate colon c
  | none => (⟨[], [], false⟩, c.fault (.missingColon keyword.kind) keyword.range)

/-- The scope of an LOD block and what was read of it, up to its skipped tokens. Without a keyword the whole
is the aggregate expression. -/
def lodHead (expr : ReadExpression) (brace : Token) (c : Cursor) : (LodScope × Clause) × Cursor :=
  match c.kind?.bind scopeOf?, c.take? with
  | some scope, some (keyword, c) =>
    let (head, c) := dimensions expr keyword c
    let (body, c) := aggregate expr keyword c
    ((scope, head.append body), c)
  | _, _ =>
    let (body, c) := branch expr .lodBody .aggregate brace c
    ((.table, body), c)

/-- The next skipped stretch of an LOD block, unless it ends here. -/
def nextSkipped? (src : Source) (expr : ReadExpression) (c : Cursor) : Option (Clause × Cursor) :=
  if isInterrupted c then none
  else match c.rest with
    | [] => none
    | l :: _ =>
      if l.token.kind.isBlockContinuation && l.token.kind != .then_ then none
      else some (skippedClause src expr .lodBody l.token c)

/-- The inside of an LOD block, with the closing brace if it stands where the block ends. -/
def lodBody (src : Source) (expr : ReadExpression) (brace : Token) (c : Cursor) :
    (LodScope × Clause × Option Range) × Cursor :=
  let ((scope, head), c) := lodHead expr brace c
  let (skipped, c) := c.many (nextSkipped? src expr)
  let body := head.append (.join skipped)
  match c.eat? .rightBrace with
  | some (t, c) => ((scope, body, some t.range), c)
  | none => ((scope, body, none), c)

/-- Reports an LOD block without its closing brace. -/
def checkBrace (brace : Token) (stop : Option Range) (c : Cursor) : Cursor :=
  if stop.isSome then c else c.fault .openBrace brace.range

/-- An LOD block; its brace has been taken. -/
def lodBlock (src : Source) (expr : ReadExpression) (brace : Token) (c : Cursor) : Symbol × Cursor :=
  let ((scope, body, stop), c) := c.inScope .lod fun c => c.inside .rightBrace (lodBody src expr brace)
  finishBlock src (.lod scope) brace body stop (checkBrace brace stop c)

end Calculation.Statement
