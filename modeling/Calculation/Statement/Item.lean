import Calculation.Statement.Expression

/-!
Items: the statements of a document and the comments between them, each with its symbols and with what
reading it met. A comment inside a statement belongs to the deepest symbol around it.
-/
namespace Calculation

structure Item where
  range : Range
  isStatement : Bool
  symbols : List Symbol
  /-- What reading it met, in the order in which it was met. -/
  events : List Event
deriving DecidableEq, Repr, Inhabited

namespace Statement

/-- Reads one statement, or the tokens that start none. -/
def statement (src : Source) (c : Cursor) : List Symbol × Cursor :=
  if c.kind?.any Token.Kind.startsExpression then expression src src.options.levels .topLevel c
  else ([], strayTokens c)

/-- The item of the statement that starts with `l`, and the cursor behind it. -/
def nextItem (src : Source) (l : Lexeme) (ls : List Lexeme) : Item × Cursor :=
  let (symbols, c) := statement src (.start (l :: ls))
  (⟨c.since l.token.range.start, true, symbols, c.trail.reverse⟩, c)

/-- All statements, one after the other; each starts with nothing around it. -/
def statements (src : Source) : Nat → List Lexeme → List Item
  | budget + 1, l :: ls =>
    let (item, c) := nextItem src l ls
    item :: statements src budget c.rest
  | _, _ => []

end Statement

namespace Symbol

mutual

/-- The tree with a comment below its deepest symbol around the comment. -/
def withComment (comment : Symbol) : Symbol → Symbol
  | ⟨n, k, r, cs, c, l⟩ => ⟨n, k, r, insertComment comment cs, c, l⟩

/-- Puts a comment below the sibling around it, or between the siblings. -/
def insertComment (comment : Symbol) : List Symbol → List Symbol
  | [] => [comment]
  | s :: ss =>
    if s.range.stop ≤ comment.range.start then s :: insertComment comment ss
    else if s.range.contains comment.range then withComment comment s :: ss
    else comment :: s :: ss

end

end Symbol

namespace Item

/-- What a comment token gives: its symbol and, when it is open, the fault. -/
def ofComment (lines : LineTable) (t : Token) : Item :=
  let symbol : Symbol :=
    ⟨.ofList (Text.trimEnd t.text.toList), .comment, t.range, [], !t.isOpen, lines.continuation t.range⟩
  if t.isOpen then
    ⟨t.range, false, [symbol], [.fault (Cause.openComment.spanning (t.range.opening 2))]⟩
  else ⟨t.range, false, [symbol], []⟩

/-- The item with the comment inside. -/
def withComment (i comment : Item) : Item :=
  { i with
    symbols := comment.symbols.foldl (fun ss s => s.insertComment ss) i.symbols
    events := i.events ++ comment.events }

/-- Puts a comment into the statement around it, or between the items. -/
def attach (comment : Item) : List Item → List Item
  | [] => [comment]
  | i :: is =>
    if i.range.stop ≤ comment.range.start then i :: attach comment is
    else if i.range.contains comment.range then i.withComment comment :: is
    else comment :: i :: is

/-- The items of the tokens of a source, which may start anywhere in it. -/
def ofTokens (src : Source) (tokens : List Token) : List Item :=
  let lexemes := Lexeme.significant false tokens
  let comments := (tokens.filter (·.kind.isComment)).map (ofComment src.lines)
  comments.foldl (fun items comment => attach comment items) (Statement.statements src lexemes.length lexemes)

end Item

end Calculation
