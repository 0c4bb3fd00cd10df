import Calculation.Diagnostic.Cause
import Calculation.Recovery
import Calculation.Signature.Builtin
import Calculation.Symbol.Basic
import Calculation.Text.Blank
import Calculation.Text.Lines
import Calculation.Token.Lexer

/-!
The cursor: how far the reading of a statement has come, what surrounds it, and which faults it has met.
Statements are read from lexemes, the tokens that are neither blank nor comment. The main statements say
that a loop whose rounds each take a lexeme goes on until its step ends it: the budget of the loop is never
what ends it.
-/
namespace Calculation

/-- What decides how a text is read: the known functions and how deep expressions may nest. -/
structure Options where
  signatures : SignatureTable
  levels : Nat
deriving DecidableEq, Repr, Inhabited

def Options.default : Options :=
  ⟨.builtin, 128⟩

/-- The text that statements are read from. -/
structure Source where
  options : Options
  text : List Char
  lines : LineTable

/-- The source at a range without blanks around it. -/
def Source.trimmed (src : Source) (r : Range) : String :=
  .ofList (Text.trim ((Text.slice? r src.text).getD []))

structure Lexeme where
  token : Token
  /-- A blank line stands between this lexeme and the one before it. -/
  afterBlank : Bool
deriving DecidableEq, Repr, Inhabited

namespace Lexeme

/-- Blanks with two line feeds hold a blank line. -/
def isBlankLine (t : Token) : Bool :=
  2 ≤ t.text.toList.count '\n'

/-- The lexemes among tokens; `blank` tells whether a blank line has been seen since the last one. -/
def significant (blank : Bool) : List Token → List Lexeme
  | [] => []
  | t :: ts =>
    if t.kind = .whitespace then significant (blank || isBlankLine t) ts
    else if t.kind.isComment then significant blank ts
    else ⟨t, blank⟩ :: significant false ts

end Lexeme

inductive Scope where
  | aggregate | lod
deriving DecidableEq, Repr, Inhabited

structure Cursor where
  rest : List Lexeme
  /-- The end of the last lexeme taken. -/
  lastEnd : Nat
  /-- What has been met, the newest first. -/
  trail : List Event
  /-- The closing delimiters that open constructs wait for, the innermost first. -/
  closers : List Token.Kind
  /-- The aggregate calls and LOD blocks around, the innermost first. -/
  scopes : List Scope
  /-- How many skipped stretches are being looked through. -/
  scans : Nat
deriving DecidableEq, Repr, Inhabited

namespace Cursor

/-- The cursor at the start of a statement. -/
def start (rest : List Lexeme) : Cursor :=
  ⟨rest, 0, [], [], [], 0⟩

def kind? (c : Cursor) : Option Token.Kind :=
  c.rest.head?.map (·.token.kind)

def isAt (c : Cursor) (kind : Token.Kind) : Bool :=
  c.kind? == some kind

def atEnd (c : Cursor) : Bool :=
  c.rest.isEmpty

def afterBlank (c : Cursor) : Bool :=
  c.rest.head?.any (·.afterBlank)

/-- An expression can start here without crossing a blank line. -/
def atOperand (c : Cursor) : Bool :=
  c.kind?.any Token.Kind.startsExpression && !c.afterBlank

/-- Something around waits for the delimiter that stands here. -/
def atCloser (c : Cursor) : Bool :=
  c.kind?.any (c.closers.contains ·)

def advance (c : Cursor) : Cursor :=
  match c.rest with
  | [] => c
  | l :: ls => { c with rest := ls, lastEnd := l.token.range.stop }

def take? (c : Cursor) : Option (Token × Cursor) :=
  c.rest.head?.map fun l => (l.token, c.advance)

/-- Takes the next lexeme if it is of this kind. -/
def eat? (c : Cursor) (kind : Token.Kind) : Option (Token × Cursor) :=
  if c.isAt kind then c.take? else none

/-- The binary operator that stands here and goes on with the expression before it. -/
def operator? (c : Cursor) : Option (Token × Cursor) :=
  if c.kind?.any Token.Kind.isBinaryOperator && !c.afterBlank then c.take? else none

/-- Takes `n` lexemes. -/
def skip : Nat → Cursor → Cursor
  | 0, c => c
  | n + 1, c => skip n c.advance

/-- From `start` to the end of the last lexeme taken. -/
def since (c : Cursor) (start : Nat) : Range :=
  ⟨start, max c.lastEnd start⟩

/-- Reports a fault. -/
def fault (c : Cursor) (cause : Cause) (r : Range) : Cursor :=
  { c with trail := .fault (cause.spanning r) :: c.trail }

/-- A complete symbol has ended. Within a skipped stretch it proves nothing. -/
def noteValid (c : Cursor) : Cursor :=
  if c.scans = 0 then { c with trail := .valid :: c.trail } else c

/-- Reads with `closer` among the delimiters that are waited for. -/
def inside {α : Type} (closer : Token.Kind) (read : Cursor → α × Cursor) (c : Cursor) : α × Cursor :=
  let result := read { c with closers := closer :: c.closers }
  (result.1, { result.2 with closers := c.closers })

def inScope {α : Type} (scope : Scope) (read : Cursor → α × Cursor) (c : Cursor) : α × Cursor :=
  let result := read { c with scopes := scope :: c.scopes }
  (result.1, { result.2 with scopes := c.scopes })

/-- Reads a skipped stretch, where complete symbols do not count. -/
def scanning {α : Type} (read : Cursor → α × Cursor) (c : Cursor) : α × Cursor :=
  let result := read { c with scans := c.scans + 1 }
  (result.1, { result.2 with scans := c.scans })

/-- Reads, and tells what was met on the way. -/
def recording {α : Type} (read : Cursor → α × Cursor) (c : Cursor) : (α × List Event) × Cursor :=
  let result := read { c with trail := [] }
  ((result.1, result.2.trail), { result.2 with trail := result.2.trail ++ c.trail })

/-- What one round of a loop gives: something and another round, or the result of the whole. -/
inductive Round (α β : Type) where
  | next (a : α) (c : Cursor)
  | done (b : β) (c : Cursor)

/-- At most `budget` rounds of a loop; when none is left the result is `spent`. -/
def rounds {α β : Type} (step : Cursor → Round α β) (spent : β) : Nat → Cursor → (List α × β) × Cursor
  | 0, c => (([], spent), c)
  | budget + 1, c =>
    match step c with
    | .done b c => (([], b), c)
    | .next a c =>
      let ((as, b), c) := rounds step spent budget c
      ((a :: as, b), c)

/-- Each round that is not the last takes a lexeme. -/
def Advances {α β : Type} (step : Cursor → Round α β) : Prop :=
  ∀ c a d, step c = .next a d → d.rest.length < c.rest.length

/-- Rounds until one is the last. A step that takes a lexeme each time never spends the budget. -/
def loop {α β : Type} (step : Cursor → Round α β) (spent : β) (c : Cursor) : (List α × β) × Cursor :=
  rounds step spent (c.rest.length + 1) c

/-- As many readings as there are. -/
def many {α : Type} (read? : Cursor → Option (α × Cursor)) (c : Cursor) : List α × Cursor :=
  let ((as, _), c) := loop (fun c => match read? c with
    | some (a, c) => .next a c
    | none => .done () c) () c
  (as, c)

theorem rounds_eq_of_advances {α β : Type} {step : Cursor → Round α β} (h : Advances step) (spent spent' : β)
    {n m : Nat} {c : Cursor} (hn : c.rest.length < n) (hm : c.rest.length < m) :
    rounds step spent n c = rounds step spent' m c := by
  induction n generalizing m c with
  | zero => omega
  | succ n ih =>
    obtain ⟨m, rfl⟩ : ∃ k, m = k + 1 := ⟨m - 1, by omega⟩
    simp only [rounds]
    cases hs : step c with
    | done b d => rfl
    | next a d =>
      have hd := h c a d hs
      simp only
      rw [ih (by omega) (by omega : d.rest.length < m)]

theorem loop_eq_of_advances {α β : Type} {step : Cursor → Round α β} (h : Advances step) (spent : β)
    (c : Cursor) :
    loop step spent c = match step c with
      | .done b d => (([], b), d)
      | .next a d => ((a :: (loop step spent d).1.1, (loop step spent d).1.2), (loop step spent d).2) := by
  rw [loop, rounds]
  cases hs : step c with
  | done b d => rfl
  | next a d =>
    have hd := h c a d hs
    simp only [loop]
    rw [rounds_eq_of_advances h spent spent hd (Nat.lt_succ_self d.rest.length)]

theorem many_eq_of_advances {α : Type} {read? : Cursor → Option (α × Cursor)}
    (h : ∀ c a d, read? c = some (a, d) → d.rest.length < c.rest.length) (c : Cursor) :
    many read? c = match read? c with
      | some (a, d) => (a :: (many read? d).1, (many read? d).2)
      | none => ([], c) := by
  rw [many, loop_eq_of_advances]
  · cases hr : read? c <;> rfl
  · intro c a d hs
    cases hr : read? c with
    | none => simp [hr] at hs
    | some p =>
      obtain ⟨a', d'⟩ := p
      simp only [hr, Round.next.injEq] at hs
      exact hs.2 ▸ h c a' d' hr

/-- Finishes a symbol: notes the lines it runs over and, if it is complete, that it is. -/
def finish (src : Source) (s : Symbol) (c : Cursor) : Symbol × Cursor :=
  ({ s with continuation := src.lines.continuation s.range }, if s.isComplete then c.noteValid else c)

/-- Finishes a symbol without children. -/
def leaf (src : Source) (name : String) (kind : Symbol.Kind) (r : Range) (isComplete : Bool) (c : Cursor) :
    Symbol × Cursor :=
  c.finish src ⟨name, kind, r, [], isComplete, []⟩

end Cursor

end Calculation
