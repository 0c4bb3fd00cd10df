import Calculation.Proofs.Machine.Descent
import Calculation.Proofs.Document.Moving

/-!
Every call of the parser comes back with what is around as it was and further on in the lexemes. The parser is at the
place of a cursor, so that is what standing for a reading says. With it all statements are read one after the other,
and each of them takes a lexeme.
-/
namespace Calculation

namespace Parser

/-- The parser at the start of a text. -/
def start (lexemes : List Lexeme) : Parser :=
  ⟨lexemes, 0, 0, [], [], [], 0⟩

/-- What is left as it was: the lexemes, the depth, and what is awaited and open around. -/
structure Restores (p q : Parser) : Prop where
  lexemes : q.lexemes = p.lexemes
  depth : q.depth = p.depth
  closers : q.closers = p.closers
  scopes : q.scopes = p.scopes
  scans : q.scans = p.scans

def frame (p : Parser) : Frame :=
  ⟨p.lexemes, p.depth, []⟩

def cursor (p : Parser) : Cursor :=
  ⟨p.lexemes.drop p.pos, Cursor.endOf 0 (p.lexemes.take p.pos), p.trail, p.closers, p.scopes, p.scans⟩

variable {p : Parser}

theorem frame_holds (p : Parser) : p.frame.Holds p.cursor :=
  ⟨p.lexemes.take p.pos, (List.take_append_drop p.pos p.lexemes).symm, rfl⟩

theorem frame_cursor (hp : p.pos ≤ p.lexemes.length) : p.frame.parser p.cursor = p := by
  have hpos : p.lexemes.length - (p.lexemes.drop p.pos).length = p.pos := by
    rw [List.length_drop]
    omega
  simp only [Frame.parser, frame, cursor, hpos, List.append_nil]

end Parser

namespace Statement
open Cursor

variable {src : Source} {c : Cursor} {l : Lexeme} {ls : List Lexeme}

/-- What takes the first lexeme does not ask where the one before it ends. -/
theorem operand_lastEnd (src : Source) (expr : ReadExpression) (n : Nat) (hl : c.rest = l :: ls)
    (h : l.token.kind.startsExpression = true) :
    operand src expr { c with lastEnd := n } = operand src expr c := by
  unfold operand signs sign?
  by_cases hs : isSign l.token.kind = true
  · simp [kind?, take?, advance, hl, hs]
  · simp [kind?, take?, advance, hl, hs, signed, h]

theorem statement_lastEnd (src : Source) (n : Nat) (hl : c.rest = l :: ls) :
    statement src { c with lastEnd := n } = statement src c := by
  have hskip (m : Nat) : ({ c with lastEnd := n } : Cursor).skip (1 + m) = c.skip (1 + m) := by
    rw [Parse.skip_succ, Parse.skip_succ]
    simp only [advance, hl]
  rw [hl] at hskip
  have hkind : ({ c with lastEnd := n } : Cursor).kind? = c.kind? := rfl
  unfold statement
  rw [hkind]
  by_cases h : c.kind?.any Token.Kind.startsExpression = true
  · rw [if_pos h, if_pos h]
    cases src.options.levels with
    | zero => simp only [expression, tooDeep, hl, hskip]
    | succ levels =>
      have hx : l.token.kind.startsExpression = true := by simpa [Cursor.kind?, hl] using h
      simp only [expression, chain]
      rw [operand_lastEnd src _ n hl hx]
  · rw [if_neg h, if_neg h]
    simp only [strayTokens, hl, hskip]

end Statement

namespace Cursor

/-- Nothing is around, and nothing has been met. -/
structure Fresh (c : Cursor) : Prop where
  trail : c.trail = []
  closers : c.closers = []
  scopes : c.scopes = []
  scans : c.scans = 0

/-- Where nothing is around, a statement is read as at the start of a text. -/
theorem Fresh.statement_eq {c : Cursor} (h : c.Fresh) (src : Source) {l : Lexeme} {ls : List Lexeme}
    (hl : c.rest = l :: ls) : Statement.statement src c = Statement.statement src (.start c.rest) := by
  have hc : ({ c with lastEnd := 0 } : Cursor) = .start c.rest := by
    simp only [start, h.trail, h.closers, h.scopes, h.scans]
  rw [← hc, Statement.statement_lastEnd src 0 hl]

end Cursor

namespace Parse
open Cursor Statement

/-- From here the action comes back with what is around as it was, at least `n` lexemes further on and not past the
last one. -/
def Returns {α : Type} (n : Nat) (m : Parse α) (p : Parser) : Prop :=
  ∃ a q, m p = some (a, q) ∧ p.Restores q ∧ p.pos + n ≤ q.pos ∧ q.pos ≤ p.lexemes.length

variable {src : Source} {p : Parser}

theorem Runs.returns {α : Type} {n : Nat} {m : Parse α} {r : α × Cursor} (h : Runs p.frame n m p.cursor r)
    (hp : p.pos ≤ p.lexemes.length) : Returns n m p := by
  have hc := p.frame_holds
  obtain ⟨a, d, hm, hcd, hn, -⟩ := h hc
  have hstart := hc.pos_add
  have hstop := (hc.onward hcd).pos_add
  rw [Parser.frame_cursor hp] at hm hstart
  have hlen : p.frame.lexemes.length = p.lexemes.length := rfl
  exact ⟨a, p.frame.parser d, hm, ⟨rfl, rfl, hcd.closers, hcd.scopes, hcd.scans⟩, by omega, by omega⟩

theorem atStart_cursor (hp : p.pos ≤ p.lexemes.length) (hx : p.kind?.any Token.Kind.startsExpression) :
    AtStart p.cursor := by
  rw [AtStart, ← p.frame_holds.kind?, Parser.frame_cursor hp]
  exact hx

theorem exists_rest (hp : p.pos ≤ p.lexemes.length) (hend : p.atEnd = false) : ∃ l ls, p.cursor.rest = l :: ls := by
  rw [← Parser.frame_cursor hp, p.frame_holds.atEnd] at hend
  exact List.exists_cons_of_ne_nil (List.isEmpty_eq_false_iff.mp hend)

/-- Where only closing delimiters are awaited, and the parser awaits no others, its expressions are those that are read
at its cursor with the levels that are left. -/
theorem expression_reads (src : Source) (place : Place) (hp : p.pos ≤ p.lexemes.length)
    (hx : p.kind?.any Token.Kind.startsExpression) (hclosing : ∀ k ∈ p.closers, k = .rightParen ∨ k = .rightBrace) :
    src.expression place p =
      some ((Statement.expression src (src.options.levels - p.depth) place p.cursor).1,
        p.frame.parser (Statement.expression src (src.options.levels - p.depth) place p.cursor).2) := by
  obtain ⟨symbols, d, hm, -, -, hread⟩ := (knows src p.depth).runs place rfl (atStart_cursor hp hx) p.frame_holds
  rw [Parser.frame_cursor hp] at hm
  rw [hm, hread hclosing]

theorem statement_runs {f : Frame} {c : Cursor} {l : Lexeme} {ls : List Lexeme} {expr : ReadExpression}
    (h : Knows src f.depth expr) (hl : c.rest = l :: ls) : Runs f 1 src.statement c
      (if c.kind?.any Token.Kind.startsExpression then expr .topLevel c else ([], Statement.strayTokens c)) := by
  rw [Source.statement]
  refine .get fun hc => ?_
  rw [hc.kind?, hc.atEnd]
  by_cases hx : c.kind?.any Token.Kind.startsExpression = true
  · rw [if_pos hx, if_pos hx]
    exact h.runs .topLevel rfl hx
  · have hnot : c.atEnd = false := by simp [Cursor.atEnd, hl]
    rw [if_neg hx, if_neg hx, hnot]
    exact .bindPast (fun _ d => ([], d)) (strayTokens_runs hl) fun _ _ _ _ => .pure _

theorem get_bind {α : Type} (m : Parser → Parse α) (p : Parser) : (get >>= m) p = m p p :=
  rfl

/-- All statements are read, whatever would be done about one that takes no lexeme. -/
theorem run_reads (src : Source) {f : Frame} {c : Cursor} (hc : f.Holds c) :
    ∃ items q, (∀ fallback, src.run fallback (f.parser c) = some (items, q)) ∧ (f.parser c).Restores q ∧
      q.pos = f.lexemes.length ∧ (f.depth = 0 → f.before = [] → c.Fresh → items = readAll src c.rest) := by
  induction hn : c.rest.length using Nat.strongRecOn generalizing f c with
  | _ n ih =>
    have hpos := hc.pos_add
    cases hl : c.rest with
    | nil =>
      rw [hl, List.length_nil, Nat.add_zero] at hpos
      refine ⟨[], f.parser c, fun fallback => ?_, ⟨rfl, rfl, rfl, rfl, rfl⟩, hpos, fun _ _ _ => rfl⟩
      rw [Source.run, get_bind, hc.current?, hl]
      rfl
    | cons l ls =>
      obtain ⟨symbols, d, hm, hcd, hlt, hread⟩ := statement_runs (knows src f.depth) hl hc
      have hd := hc.onward hcd
      have hrest := hd.pos_add
      have hholds : ({ f with before := [] } : Frame).Holds { d with trail := [] } := hd
      obtain ⟨items, q, hrun, hrestores, hend, hitems⟩ := ih d.rest.length (by omega) hholds rfl
      refine ⟨⟨d.since l.token.range.start, true, symbols, (d.trail ++ f.before).reverse⟩ :: items, q,
        fun fallback => ?_, ⟨hrestores.lexemes, hrestores.depth, hrestores.closers.trans hcd.closers,
          hrestores.scopes.trans hcd.scopes, hrestores.scans.trans hcd.scans⟩, hend, fun hdepth hbefore hstart => ?_⟩
      · have hmoved : ((f.parser d).pos == (f.parser c).pos) = false := beq_eq_false_iff_ne.mpr (by omega)
        rw [Source.run, get_bind, hc.current?, hl]
        show (src.statement (f.parser c)).bind _ = _
        rw [hm]
        show (doWhen ((f.parser d).pos == (f.parser c).pos) fallback (f.parser d)).bind _ = _
        rw [hmoved]
        show (src.run fallback (({ f with before := [] } : Frame).parser { d with trail := [] })).bind _ = _
        rw [hrun, ← hd.since]
        rfl
      · have hclosing : c.Closing := by simp [Cursor.Closing, hstart.closers]
        have hstatement : Statement.statement src (.start (l :: ls)) = (symbols, d) := by
          rw [← hread hclosing, hdepth, ← hl, ← hstart.statement_eq src hl]
          rfl
        have hnext : nextItem src l ls = (⟨d.since l.token.range.start, true, symbols, d.trail.reverse⟩, d) := by
          rw [nextItem, hstatement]
        have hagain : ({ d with trail := [] } : Cursor).Fresh :=
          ⟨rfl, hcd.closers.trans hstart.closers, hcd.scopes.trans hstart.scopes, hcd.scans.trans hstart.scans⟩
        rw [readAll_cons, hnext, hbefore, List.append_nil, hitems hdepth rfl hagain]

/-- Each call comes back further on, from where its callers make it. -/
structure CallsReturn (src : Source) (p : Parser) : Prop where
  expression : p.kind?.any Token.Kind.startsExpression → ∀ place, Returns 1 (src.expression place) p
  operand : p.kind?.any Token.Kind.startsExpression → Returns 1 src.operand p
  grouping : p.isAt .leftParen → ∀ isList, Returns 1 (src.grouping isList) p
  call : p.isAt .identifier → p.kindBehind? = some .leftParen → Returns 1 src.call p
  ifBlock : p.isAt .if_ → Returns 1 src.ifBlock p
  caseBlock : p.isAt .case_ → Returns 1 src.caseBlock p
  lodBlock : p.isAt .leftBrace → Returns 1 src.lodBlock p
  resync : p.atEnd = false → ∀ place, Returns 1 (src.resync place) p

/-- Each loop comes back: that of an expression over its operators, of an operand over its signs, those that skip, and
those of lists, arguments, clauses, dimensions, LOD blocks and skipped stretches. -/
structure LoopsReturn (src : Source) (p : Parser) : Prop where
  links : ∀ place, Returns 0 (src.links place) p
  signs : ∀ last?, Returns 0 (src.signs last?) p
  skipBalanced : ∀ balance, Returns 0 (src.skipBalanced balance) p
  skipStray : Returns 0 src.skipStray p
  groupingItems : p.atOperand → ∀ isList, Returns 0 (src.groupingItems isList) p
  argumentList : ∀ function, Returns 0 (src.argumentList function) p
  ifClauses : Returns 0 (src.clauses .ifBlock .elseIf .elseIf) p
  caseClauses : Returns 0 (src.clauses .caseBlock .when_ .when_) p
  dimensionItems : Returns 0 src.dimensionItems p
  lodTail : Returns 0 src.lodTail p
  scan : ∀ place start, start ≤ p.pos → Returns 0 (src.scan place start) p

theorem calls_return (src : Source) (hp : p.pos ≤ p.lexemes.length) : CallsReturn src p := by
  have hc := p.frame_holds
  have h := knows src p.frame.depth
  have hat {kind : Token.Kind} (hk : p.isAt kind) : ∃ l ls, p.cursor.rest = l :: ls ∧ l.token.kind = kind := by
    refine exists_of_isAt ?_
    rw [← hc.isAt, Parser.frame_cursor hp]
    exact hk
  refine
    { expression := fun hx place => (h.runs place rfl (atStart_cursor hp hx)).returns hp
      operand := fun hx => (operand_runs h (atStart_cursor hp hx)).returns hp
      grouping := fun hk isList => ?_
      call := fun hk hparen => ?_
      ifBlock := fun hk => ?_
      caseBlock := fun hk => ?_
      lodBlock := fun hk => ?_
      resync := fun hend place => ?_ }
  · obtain ⟨l, ls, hl, -⟩ := hat hk
    exact (grouping_runs h isList hl).returns hp
  · obtain ⟨l, ls, hl, -⟩ := hat hk
    rw [← Parser.frame_cursor hp, hc.kindBehind?, hl, List.getElem?_cons_succ] at hparen
    cases ls with
    | nil => cases hparen
    | cons l' ls => exact (call_runs h hl).returns hp
  · obtain ⟨l, ls, hl, -⟩ := hat hk
    exact (ifBlock_runs h hl).returns hp
  · obtain ⟨l, ls, hl, -⟩ := hat hk
    exact (caseBlock_runs h hl).returns hp
  · obtain ⟨l, ls, hl, -⟩ := hat hk
    exact (lodBlock_runs h hl).returns hp
  · obtain ⟨l, ls, hl⟩ := exists_rest hp hend
    exact (resync_runs h place hl).returns hp

theorem loops_return (src : Source) (hp : p.pos ≤ p.lexemes.length) : LoopsReturn src p := by
  have hc := p.frame_holds
  have h := knows src p.frame.depth
  refine
    { links := fun place => (links_runs h place _).returns hp
      signs := fun last? => ?_
      skipBalanced := fun balance => (skipBalanced_runs balance _).returns hp
      skipStray := (skipStray_runs _).returns hp
      groupingItems := fun hop isList => ?_
      argumentList := fun function => (argumentList_runs h function _).returns hp
      ifClauses := (clauses_runs h .ifBlock .elseIf .elseIf (by decide) _).returns hp
      caseClauses := (clauses_runs h .caseBlock .when_ .when_ (by decide) _).returns hp
      dimensionItems := (dimensionItems_runs h _).forget.returns hp
      lodTail := (lodTail_runs h _).returns hp
      scan := fun place start hstart => ?_ }
  · cases last? with
    | some op => exact (signs_behind op _).returns hp
    | none =>
      by_cases hs : p.cursor.kind?.any isSign = true
      · obtain ⟨l, ls, hl, hsign⟩ := exists_of_kind hs
        exact (signs_runs hl hsign).forget.returns hp
      · exact (Runs.known (signs_none (by simpa using hs)) (.refl _)).returns hp
  · rw [← Parser.frame_cursor hp, hc.atOperand] at hop
    exact (groupingItems_runs h isList hop).forget.returns hp
  · rcases Nat.lt_or_eq_of_le hstart with hlt | rfl
    · exact (scan_runs h place start _ fun _ => by rwa [Parser.frame_cursor hp]).returns hp
    · have hhere := scanHere_runs h place p.cursor
      rw [Parser.frame_cursor hp] at hhere
      exact hhere.returns hp

theorem statement_returns (src : Source) (hp : p.pos ≤ p.lexemes.length) (hend : p.atEnd = false) :
    Returns 1 src.statement p := by
  obtain ⟨l, ls, hl⟩ := exists_rest hp hend
  exact (statement_runs (knows src p.frame.depth) hl).returns hp

/-- From every place in the lexemes, whatever is around, each call comes back with all that is around as it was, and
further on but not past the end. All loops come to an end, the one over the statements included, in which nothing is
ever done about a statement that takes no lexeme; from the start of a text it gives the statements of the text. -/
theorem context_restored (src : Source) (p : Parser) (hp : p.pos ≤ p.lexemes.length) :
    CallsReturn src p ∧ LoopsReturn src p ∧ (p.atEnd = false → Returns 1 src.statement p) ∧
      ∃ items q, (∀ fallback, src.run fallback p = some (items, q)) ∧ p.Restores q ∧ q.pos = p.lexemes.length ∧
        (p = .start p.lexemes → items = Statement.statements src p.lexemes.length p.lexemes) := by
  refine ⟨calls_return src hp, loops_return src hp, statement_returns src hp, ?_⟩
  obtain ⟨items, q, hrun, hrestores, hend, hitems⟩ := run_reads src p.frame_holds
  rw [Parser.frame_cursor hp] at hrun hrestores
  refine ⟨items, q, hrun, hrestores, hend, fun hstart => ?_⟩
  have hdepth : p.frame.depth = 0 := by rw [hstart]; rfl
  have hfresh : p.cursor.Fresh := by rw [hstart]; exact ⟨rfl, rfl, rfl, rfl⟩
  have hrest : p.cursor.rest = p.lexemes := by rw [hstart]; rfl
  rw [hitems hdepth rfl hfresh, hrest]
  rfl

/-- An IF among the arguments of a call, and nothing behind it. -/
def amongArguments : Parser :=
  { Parser.start (Lexeme.significant false (Token.lex 0 "SUM(IF".toList)) with
    pos := 2, depth := 1, closers := [.rightParen], scopes := [.aggregate] }

theorem context_restored_among_arguments :
    amongArguments.pos ≤ amongArguments.lexemes.length ∧ amongArguments.isAt .if_ ∧
      Returns 1 (Source.ifBlock (.ofText .default "SUM(IF".toList)) amongArguments :=
  have hplace : amongArguments.pos ≤ amongArguments.lexemes.length := by decide +kernel
  have hif : amongArguments.isAt .if_ := by decide +kernel
  ⟨hplace, hif, (context_restored (.ofText .default "SUM(IF".toList) amongArguments hplace).1.ifBlock hif⟩

end Parse

end Calculation
