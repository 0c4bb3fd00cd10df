import Mathlib.Data.List.Forall2
import Calculation.Proofs.Reading.Progress
import Calculation.Statement.Item

/-!
Two readings side by side. The tokens of two sources correspond one to one and are of the same kinds; they may stand at
other places or be spelled in other ways, and expressions may have more levels in the one source than in the other, as
long as nothing is too deep. What corresponds is given by relations, one for each sort of thing that is read; once these
suit the smallest steps, all that is read of the two sources corresponds.
-/
namespace Calculation

namespace Likeness

variable (R : Range → Range → Prop)

structure Branches (b b' : Branch) : Prop where
  kind : b'.kind = b.kind
  keyword : R b.keyword b'.keyword
  range : R b.range b'.range

/-- Kinds that are the same but for the ranges in them and the arguments. -/
inductive Kinds (A : Argument → Argument → Prop) : Symbol.Kind → Symbol.Kind → Prop
  | block {block : BlockKind} {bs bs' : List Branch} {stop stop' : Option Range}
    (hbranches : List.Forall₂ (Branches R) bs bs') (hstop : Option.Rel R stop stop') :
    Kinds A (.block block bs stop) (.block block bs' stop')
  | call {as as' : List Argument} {isNested : Bool} (harguments : List.Forall₂ A as as') :
    Kinds A (.call as isNested) (.call as' isNested)
  | field (qualifier : Option String) : Kinds A (.field qualifier) (.field qualifier)
  | operator : Kinds A .operator .operator
  | literal (literal : LiteralKind) : Kinds A (.literal literal) (.literal literal)
  | skipped : Kinds A .skipped .skipped

/-- Causes that differ at most in a word which does not matter for the code, or in the place of a name. -/
inductive Causes (T : Token → Token → Prop) (W : String → String → Prop) : Cause → Cause → Prop
  | word (f : String → Cause) {x y : String} (h : W x y) (hcode : (f y).code = (f x).code)
    (hseverity : (f y).severity = (f x).severity) (hrelated : (f x).related = []) : Causes T W (f x) (f y)
  | openCall {x y : String} {t u : Token} (h : W x y) (ht : T t u) :
    Causes T W (.openCall x t.range) (.openCall y u.range)

end Likeness

/-- What corresponds in two sources, sort by sort, and why the smallest steps of reading keep to it. -/
structure Likeness (src src' : Source) where
  Tokens : Token → Token → Prop
  Words : String → String → Prop
  Ranges : Range → Range → Prop
  /-- Ends of what has been taken last. -/
  Ends : Nat → Nat → Prop
  Arguments : Argument → Argument → Prop
  Symbols : Symbol → Symbol → Prop
  Events : Event → Event → Prop
  levels : src.options.levels ≤ src'.options.levels
  -- Tokens are told apart by no more than what tokens that correspond have in common.
  kind : ∀ {t u : Token}, Tokens t u → u.kind = t.kind
  isOpen : ∀ {t u : Token}, Tokens t u → u.isOpen = t.isOpen
  proper : ∀ {t u : Token}, Tokens t u → t.range.start < t.range.stop
  text : ∀ {t u : Token}, Tokens t u → Words t.text u.text
  /-- The name of a field is part of a word; so fields have the same text. -/
  field : ∀ {t u : Token}, Tokens t u → t.kind = .field → u.text = t.text
  range : ∀ {t u : Token}, Tokens t u → Ranges t.range u.range
  cover : ∀ {t u t' u' : Token}, Tokens t u → Tokens t' u' →
    Ranges (t.range.cover t'.range) (u.range.cover u'.range)
  -- Words matter only where a function is looked up.
  same : ∀ w : String, Words w w
  signature : ∀ {a b : String}, Words a b → src'.options.signatures.get? b = src.options.signatures.get? a
  -- Where something ends that starts with a token, the ends of what was taken last tell.
  unmoved : Ends 0 0
  taken : ∀ {t u : Token}, Tokens t u → Ends t.range.stop u.range.stop
  since : ∀ {c c' : Cursor} {t u : Token}, Ends c.lastEnd c'.lastEnd → Tokens t u →
    Ranges (c.since t.range.start) (c'.since u.range.start)
  -- What is put together of things that correspond corresponds.
  whole : ∀ {a a' : Argument}, Arguments a a' → a'.isComplete = a.isComplete
  missing : ∀ {t u : Token}, Tokens t u →
    Arguments ⟨"", .empty t.range.start, false⟩ ⟨"", .empty u.range.start, false⟩
  argument : ∀ {r r' : Range} (isComplete : Bool), Ranges r r' →
    Arguments ⟨src.trimmed r, r, isComplete⟩ ⟨src'.trimmed r', r', isComplete⟩
  symbol : ∀ {n n' : String} {k k' : Symbol.Kind} {r r' : Range} {cs cs' : List Symbol} (isComplete : Bool),
    Words n n' → Likeness.Kinds Ranges Arguments k k' → Ranges r r' → List.Forall₂ Symbols cs cs' →
      Symbols ⟨n, k, r, cs, isComplete, src.lines.continuation r⟩
        ⟨n', k', r', cs', isComplete, src'.lines.continuation r'⟩
  valid : Events .valid .valid
  fault : ∀ {a b : Cause} {r r' : Range}, Likeness.Causes Tokens Words a b → Ranges r r' → r.start < r.stop →
    Events (.fault (a.spanning r)) (.fault (b.spanning r'))
  structural : ∀ {e e' : Event}, Events e e' → e'.isStructural = e.isStructural

namespace Likeness
open Cursor

/-- Either both give up at the same level or what has been met so far was not too deep for the first. -/
def Shallow (src src' : Source) (c : Cursor) : Prop :=
  src'.options.levels = src.options.levels ∨ ∀ d ∈ Event.faults c.trail, d.code ≠ .tooDeep

variable {src src' : Source} (m : Likeness src src')

/-- Lists of symbols that correspond one by one. -/
abbrev Trees : List Symbol → List Symbol → Prop :=
  List.Forall₂ m.Symbols

structure Lexemes (l l' : Lexeme) : Prop where
  token : m.Tokens l.token l'.token
  afterBlank : l'.afterBlank = l.afterBlank

structure Cursors (c c' : Cursor) : Prop where
  rest : List.Forall₂ m.Lexemes c.rest c'.rest
  inLine : c.rest.Pairwise fun a b => a.token.range.stop ≤ b.token.range.start
  lastEnd : m.Ends c.lastEnd c'.lastEnd
  trail : List.Forall₂ m.Events c.trail c'.trail
  closers : c'.closers = c.closers
  scopes : c'.scopes = c.scopes
  scans : c'.scans = c.scans

/-- What is alike by `R`, with cursors that are alike. -/
structure Both {α : Type} (R : α → α → Prop) (x x' : α × Cursor) : Prop where
  value : R x.1 x'.1
  cursor : m.Cursors x.2 x'.2

/-- What has been read is alike unless something was too deep. -/
def Read {α : Type} (R : α → α → Prop) (x x' : α × Cursor) : Prop :=
  Shallow src src' x.2 → m.Both R x x'

/-- Ways to read that are alike wherever they start. -/
def Readers {α : Type} (R : α → α → Prop) (read read' : Cursor → α × Cursor) : Prop :=
  ∀ c c', m.Cursors c c' → m.Read R (read c) (read' c')

/-- The same of ways to read that may find nothing to read; then both find nothing. -/
def Readers? {α : Type} (R : α → α → Prop) (read? read?' : Cursor → Option (α × Cursor)) : Prop :=
  ∀ c c', m.Cursors c c' → Option.Rel (m.Read R) (read? c) (read?' c')

variable {m : Likeness src src'} {c d c' : Cursor} {t u : Token} {a b : Cause} {r r' : Range} {α β : Type}
  {R : α → α → Prop} {S : β → β → Prop}

/-- What is not too deep in the end was not too deep on the way. -/
theorem Shallow.back (h : Shallow src src' d) (hon : Onward c d) : Shallow src src' c := by
  obtain ⟨met, hmet⟩ := hon.trail
  refine h.imp_right fun hall e he => hall e ?_
  rw [hmet, Event.faults, List.filterMap_append]
  exact List.mem_append_right _ he

theorem Both.read {x x' : α × Cursor} (h : m.Both R x x') : m.Read R x x' :=
  fun _ => h

namespace Cursors

/-- Lexemes in front of which nothing has been taken. -/
theorem start {ls ls' : List Lexeme} (h : List.Forall₂ m.Lexemes ls ls')
    (hline : ls.Pairwise fun a b => a.token.range.stop ≤ b.token.range.start) : m.Cursors (.start ls) (.start ls') :=
  ⟨h, hline, m.unmoved, .nil, rfl, rfl, rfl⟩

theorem rest_cases (hc : m.Cursors c c') : (c.rest = [] ∧ c'.rest = []) ∨
    ∃ l ls l' ls', c.rest = l :: ls ∧ c'.rest = l' :: ls' ∧ m.Lexemes l l' ∧ List.Forall₂ m.Lexemes ls ls' := by
  have h := hc.rest
  generalize c.rest = ls, c'.rest = ls' at h
  cases h with
  | nil => exact .inl ⟨rfl, rfl⟩
  | cons hl hls => exact .inr ⟨_, _, _, _, rfl, rfl, hl, hls⟩

theorem kind? (hc : m.Cursors c c') : c'.kind? = c.kind? := by
  unfold Cursor.kind?
  rcases hc.rest_cases with ⟨h, h'⟩ | ⟨l, ls, l', ls', h, h', hl, -⟩
  · rw [h, h']
  · rw [h, h', List.head?_cons, List.head?_cons, Option.map_some, Option.map_some, m.kind hl.token]

theorem isAt (hc : m.Cursors c c') (k : Token.Kind) : c'.isAt k = c.isAt k := by
  rw [Cursor.isAt, Cursor.isAt, hc.kind?]

theorem atEnd (hc : m.Cursors c c') : c'.atEnd = c.atEnd := by
  unfold Cursor.atEnd
  rcases hc.rest_cases with ⟨h, h'⟩ | ⟨l, ls, l', ls', h, h', -, -⟩
  · rw [h, h']
  · rw [h, h']
    rfl

theorem afterBlank (hc : m.Cursors c c') : c'.afterBlank = c.afterBlank := by
  unfold Cursor.afterBlank
  rcases hc.rest_cases with ⟨h, h'⟩ | ⟨l, ls, l', ls', h, h', hl, -⟩
  · rw [h, h']
  · rw [h, h', List.head?_cons, List.head?_cons, Option.any_some, Option.any_some, hl.afterBlank]

theorem atOperand (hc : m.Cursors c c') : c'.atOperand = c.atOperand := by
  rw [Cursor.atOperand, Cursor.atOperand, hc.kind?, hc.afterBlank]

theorem atCloser (hc : m.Cursors c c') : c'.atCloser = c.atCloser := by
  rw [Cursor.atCloser, Cursor.atCloser, hc.kind?, hc.closers]

theorem since (hc : m.Cursors c c') (ht : m.Tokens t u) :
    m.Ranges (c.since t.range.start) (c'.since u.range.start) :=
  m.since hc.lastEnd ht

theorem advance (hc : m.Cursors c c') : m.Cursors c.advance c'.advance := by
  unfold Cursor.advance
  rcases hc.rest_cases with ⟨h, h'⟩ | ⟨l, ls, l', ls', h, h', hl, hls⟩
  · rw [h, h']
    exact hc
  · have hline := hc.inLine
    rw [h] at hline
    rw [h, h']
    exact ⟨hls, (List.pairwise_cons.mp hline).2, m.taken hl.token, hc.trail, hc.closers, hc.scopes, hc.scans⟩

theorem take? (hc : m.Cursors c c') : Option.Rel (m.Both m.Tokens) c.take? c'.take? := by
  have hadvance := hc.advance
  unfold Cursor.take?
  rcases hc.rest_cases with ⟨h, h'⟩ | ⟨l, ls, l', ls', h, h', hl, -⟩
  · rw [h, h']
    exact .none
  · rw [h, h']
    exact .some ⟨hl.token, hadvance⟩

theorem eat? (hc : m.Cursors c c') (k : Token.Kind) : Option.Rel (m.Both m.Tokens) (c.eat? k) (c'.eat? k) := by
  unfold Cursor.eat?
  rw [hc.isAt]
  split
  · exact hc.take?
  · exact .none

theorem operator? (hc : m.Cursors c c') : Option.Rel (m.Both m.Tokens) c.operator? c'.operator? := by
  unfold Cursor.operator?
  rw [hc.kind?, hc.afterBlank]
  split
  · exact hc.take?
  · exact .none

theorem skip (hc : m.Cursors c c') (n : Nat) : m.Cursors (c.skip n) (c'.skip n) := by
  induction n generalizing c c' with
  | zero => exact hc
  | succ n ih => exact ih hc.advance

/-- What has been left behind stays behind. -/
theorem lt_skip (hc : m.Cursors c c') {n : Nat} (hbehind : n < c.lastEnd)
    (hahead : ∀ l ∈ c.rest, n ≤ l.token.range.start) (k : Nat) : n < (c.skip k).lastEnd := by
  induction k generalizing c c' with
  | zero => exact hbehind
  | succ k ih =>
    rcases hc.rest_cases with ⟨h, -⟩ | ⟨l, ls, l', ls', h, -, hl, -⟩
    · have hstay : c.advance = c := by rw [Cursor.advance, h]
      rw [Cursor.skip, hstay]
      exact ih hc hbehind hahead
    · have hmove : c.advance = { c with rest := ls, lastEnd := l.token.range.stop } := by rw [Cursor.advance, h]
      rw [h] at hahead
      obtain ⟨hfirst, hrest⟩ := List.forall_mem_cons.mp hahead
      refine ih hc.advance ?_ ?_
      · rw [hmove]
        exact Nat.lt_of_le_of_lt hfirst (m.proper hl.token)
      · rw [hmove]
        exact hrest

/-- Lexemes that are skipped take more than nothing. -/
theorem lt_since_skip (hc : m.Cursors c c') {l : Lexeme} {ls : List Lexeme} (h : c.rest = l :: ls) (n : Nat) :
    l.token.range.start < ((c.skip (1 + n)).since l.token.range.start).stop := by
  obtain ⟨hnone, -⟩ | ⟨x, xs, l', ls', hsome, -, hl, -⟩ := hc.rest_cases
  · rw [hnone] at h
    cases h
  · rw [hsome] at h
    cases h
    have hline := hc.inLine
    rw [hsome] at hline
    have hproper := m.proper hl.token
    have hadvance : c.advance = { c with rest := ls, lastEnd := l.token.range.stop } := by
      rw [Cursor.advance, hsome]
    refine Nat.lt_of_lt_of_le ?_ (Nat.le_max_left _ _)
    rw [Nat.add_comm]
    refine hc.advance.lt_skip ?_ (fun x hx => ?_) n
    · rw [hadvance]
      exact hproper
    · rw [hadvance] at hx
      exact Nat.le_trans (Nat.le_of_lt hproper) ((List.pairwise_cons.mp hline).1 x hx)

theorem meet (hc : m.Cursors c c') {e e' : Event} (he : m.Events e e') :
    m.Cursors { c with trail := e :: c.trail } { c' with trail := e' :: c'.trail } :=
  ⟨hc.rest, hc.inLine, hc.lastEnd, .cons he hc.trail, hc.closers, hc.scopes, hc.scans⟩

theorem fault (hc : m.Cursors c c') (h : Causes m.Tokens m.Words a b) (hr : m.Ranges r r')
    (hproper : r.start < r.stop) : m.Cursors (c.fault a r) (c'.fault b r') :=
  hc.meet (m.fault h hr hproper)

/-- A fault at a token, whose cause names a word. -/
theorem faultAt (hc : m.Cursors c c') (f : String → Cause) {x y : String} (h : m.Words x y) (ht : m.Tokens t u)
    (hcode : (f y).code = (f x).code) (hseverity : (f y).severity = (f x).severity) (hrelated : (f x).related = []) :
    m.Cursors (c.fault (f x) t.range) (c'.fault (f y) u.range) :=
  hc.fault (.word f h hcode hseverity hrelated) (m.range ht) (m.proper ht)

/-- The same of a cause that names none. -/
theorem plainAt (hc : m.Cursors c c') (cause : Cause) (ht : m.Tokens t u) (hrelated : cause.related = []) :
    m.Cursors (c.fault cause t.range) (c'.fault cause u.range) :=
  hc.faultAt (fun _ => cause) (m.same "") ht rfl rfl hrelated

theorem noteValid (hc : m.Cursors c c') : m.Cursors c.noteValid c'.noteValid := by
  unfold Cursor.noteValid
  rw [hc.scans]
  split
  · exact hc.scans ▸ hc.meet m.valid
  · exact hc

/-- In other surroundings, if these are the same for both. -/
theorem within (hc : m.Cursors c c') {closers closers' : List Token.Kind} {scopes scopes' : List Scope}
    {scans scans' : Nat} (hclosers : closers' = closers) (hscopes : scopes' = scopes) (hscans : scans' = scans) :
    m.Cursors { c with closers := closers, scopes := scopes, scans := scans }
      { c' with closers := closers', scopes := scopes', scans := scans' } :=
  ⟨hc.rest, hc.inLine, hc.lastEnd, hc.trail, hclosers, hscopes, hscans⟩

end Cursors

theorem any_isStructural {es es' : List Event} (h : List.Forall₂ m.Events es es') :
    es'.any Event.isStructural = es.any Event.isStructural := by
  induction h with
  | nil => rfl
  | cons he _ ih => rw [List.any_cons, List.any_cons, ih, m.structural he]

section Ways

variable {read read' : Cursor → α × Cursor} {read? read?' : Cursor → Option (α × Cursor)}

theorem Readers.inside (h : m.Readers R read read') (closer : Token.Kind) :
    m.Readers R (Cursor.inside closer read) (Cursor.inside closer read') := by
  intro c c' hc hshallow
  have hclosers : closer :: c'.closers = closer :: c.closers := by rw [hc.closers]
  obtain ⟨hvalue, hcursor⟩ := h _ _ (hc.within hclosers hc.scopes hc.scans) hshallow
  exact ⟨hvalue, hcursor.within hc.closers hcursor.scopes hcursor.scans⟩

theorem Readers.inScope (h : m.Readers R read read') (scope : Scope) :
    m.Readers R (Cursor.inScope scope read) (Cursor.inScope scope read') := by
  intro c c' hc hshallow
  have hscopes : scope :: c'.scopes = scope :: c.scopes := by rw [hc.scopes]
  obtain ⟨hvalue, hcursor⟩ := h _ _ (hc.within hc.closers hscopes hc.scans) hshallow
  exact ⟨hvalue, hcursor.within hcursor.closers hc.scopes hcursor.scans⟩

theorem Readers.scanning (h : m.Readers R read read') :
    m.Readers R (Cursor.scanning read) (Cursor.scanning read') := by
  intro c c' hc hshallow
  have hscans : c'.scans + 1 = c.scans + 1 := by rw [hc.scans]
  obtain ⟨hvalue, hcursor⟩ := h _ _ (hc.within hc.closers hc.scopes hscans) hshallow
  exact ⟨hvalue, hcursor.within hcursor.closers hcursor.scopes hc.scans⟩

/-- What is met on the way is alike too. -/
theorem Readers.recording (h : m.Readers R read read') :
    m.Readers (fun x x' => R x.1 x'.1 ∧ List.Forall₂ m.Events x.2 x'.2) (Cursor.recording read)
      (Cursor.recording read') := by
  intro c c' hc hshallow
  have hinner : Shallow src src' (read { c with trail := [] }).2 := by
    refine hshallow.imp_right fun hall e he => hall e ?_
    rw [Cursor.recording, Event.faults, List.filterMap_append]
    exact List.mem_append_left _ he
  obtain ⟨hvalue, hcursor⟩ := h { c with trail := [] } { c' with trail := [] }
    ⟨hc.rest, hc.inLine, hc.lastEnd, .nil, hc.closers, hc.scopes, hc.scans⟩ hinner
  exact ⟨⟨hvalue, hcursor.trail⟩, hcursor.rest, hcursor.inLine, hcursor.lastEnd, List.rel_append hcursor.trail hc.trail,
    hcursor.closers, hcursor.scopes, hcursor.scans⟩

/-- Rounds of a loop that are alike: both go on, or both are the last. -/
inductive Rounds (m : Likeness src src') (R : α → α → Prop) (S : β → β → Prop) :
    Cursor.Round α β → Cursor.Round α β → Prop
  | next {a a' : α} {c c' : Cursor} (ha : R a a') (hc : m.Cursors c c') : Rounds m R S (.next a c) (.next a' c')
  | done {b b' : β} {c c' : Cursor} (hb : S b b') (hc : m.Cursors c c') : Rounds m R S (.done b c) (.done b' c')

theorem loop {step step' : Cursor → Cursor.Round α β} {spent spent' : β} (hon : ∀ c, Onward c (step c).cursor)
    (h : ∀ c c', m.Cursors c c' → Shallow src src' (step c).cursor → m.Rounds R S (step c) (step' c'))
    (hspent : S spent spent') :
    m.Readers (fun x x' => List.Forall₂ R x.1 x'.1 ∧ S x.2 x'.2) (Cursor.loop step spent)
      (Cursor.loop step' spent') := by
  intro c c' hc
  unfold Cursor.loop
  rw [← hc.rest.length_eq]
  generalize c.rest.length + 1 = budget
  induction budget generalizing c c' with
  | zero => exact fun _ => ⟨⟨.nil, hspent⟩, hc⟩
  | succ budget ih =>
    have hstep := h c c' hc
    have hround := hon c
    unfold Cursor.rounds
    generalize step c = round, step' c' = round' at hstep hround
    intro hshallow
    cases round with
    | next a d =>
      cases hstep (hshallow.back (onward_rounds hon budget d)) with
      | next ha hd =>
        obtain ⟨⟨hmore, hlast⟩, hcursor⟩ := ih _ _ hd hshallow
        exact ⟨⟨.cons ha hmore, hlast⟩, hcursor⟩
    | done b d =>
      cases hstep hshallow with
      | done hb hd => exact ⟨⟨.nil, hb⟩, hd⟩

/-- A round of the loop that reads as often as there is something to read. -/
def manyRound (read? : Cursor → Option (α × Cursor)) (c : Cursor) : Cursor.Round α Unit :=
  match read? c with
  | some (a, c) => .next a c
  | none => .done () c

theorem Readers?.many (h : m.Readers? R read? read?') (hon : Steady? read?) :
    m.Readers (List.Forall₂ R) (Cursor.many read?) (Cursor.many read?') := by
  have honward : ∀ c, Onward c (manyRound read? c).cursor := by
    intro c
    unfold manyRound
    cases hr : read? c with
    | none => exact .refl c
    | some x => exact hon c x.1 x.2 hr
  have hrounds : ∀ c c', m.Cursors c c' → Shallow src src' (manyRound read? c).cursor →
      m.Rounds R (fun _ _ => True) (manyRound read? c) (manyRound read?' c') := by
    intro c c' hc
    have hread := h c c' hc
    unfold manyRound
    generalize read? c = x, read?' c' = x' at hread
    cases hread with
    | none => exact fun _ => .done trivial hc
    | some hx => exact fun hs => .next (hx hs).value (hx hs).cursor
  intro c c' hc hshallow
  obtain ⟨⟨hvalue, -⟩, hcursor⟩ := loop honward hrounds trivial c c' hc hshallow
  exact ⟨hvalue, hcursor⟩

end Ways

theorem Cursors.finish (hc : m.Cursors c c') {n n' : String} {k k' : Symbol.Kind} {cs cs' : List Symbol}
    (isComplete : Bool) (hname : m.Words n n') (hkind : Kinds m.Ranges m.Arguments k k') (hr : m.Ranges r r')
    (hcs : m.Trees cs cs') : m.Both m.Symbols (c.finish src ⟨n, k, r, cs, isComplete, []⟩)
      (c'.finish src' ⟨n', k', r', cs', isComplete, []⟩) := by
  refine ⟨m.symbol isComplete hname hkind hr hcs, ?_⟩
  cases isComplete with
  | true => exact hc.noteValid
  | false => exact hc

theorem Cursors.leaf (hc : m.Cursors c c') {n n' : String} {k : Symbol.Kind} (isComplete : Bool)
    (hname : m.Words n n') (hkind : Kinds m.Ranges m.Arguments k k) (hr : m.Ranges r r') :
    m.Both m.Symbols (c.leaf src n k r isComplete) (c'.leaf src' n' k r' isComplete) :=
  hc.finish isComplete hname hkind hr .nil

end Likeness

end Calculation
