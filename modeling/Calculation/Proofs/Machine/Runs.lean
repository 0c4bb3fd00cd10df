import Calculation.Proofs.Machine.Parser
import Calculation.Proofs.Reading.Progress

/-!
What an action of the parser has to do with a reading. Besides what a cursor has, the parser has a frame: the lexemes
in front, the depth, and what was met before. From the place of a cursor an action has to come back, with the frame as
it was and at a place that the cursor leads onward to; and where only closing delimiters are awaited, it has to give
what the reading gives. Actions in a row do, and so do those between a push and its pop.
-/
namespace Calculation
open Cursor

/-- What a parser has besides a cursor. -/
structure Frame where
  lexemes : List Lexeme
  depth : Nat
  /-- What was met before the trail of the cursor begins. -/
  before : List Event

namespace Frame

/-- The parser at the place of a cursor. -/
def parser (f : Frame) (c : Cursor) : Parser :=
  ⟨f.lexemes, f.lexemes.length - c.rest.length, f.depth, c.trail ++ f.before, c.closers, c.scopes, c.scans⟩

/-- The cursor has some lexemes of the frame in front of it and the others behind. -/
def Holds (f : Frame) (c : Cursor) : Prop :=
  ∃ taken, f.lexemes = taken ++ c.rest ∧ c.lastEnd = endOf 0 taken

variable {f : Frame} {c d : Cursor}

theorem Holds.onward (h : f.Holds c) (hcd : Onward c d) : f.Holds d := by
  obtain ⟨taken, hlex, hend⟩ := h
  obtain ⟨more, hrest, hend'⟩ := hcd.rest
  exact ⟨taken ++ more, by rw [hlex, hrest, List.append_assoc], by rw [hend', hend, endOf_append]⟩

theorem Holds.pos (h : f.Holds c) : ∃ taken, f.lexemes = taken ++ c.rest ∧ c.lastEnd = endOf 0 taken ∧
    (f.parser c).pos = taken.length := by
  obtain ⟨taken, hlex, hend⟩ := h
  refine ⟨taken, hlex, hend, ?_⟩
  show f.lexemes.length - c.rest.length = _
  rw [hlex, List.length_append, Nat.add_sub_cancel]

theorem Holds.pos_add (h : f.Holds c) : (f.parser c).pos + c.rest.length = f.lexemes.length := by
  obtain ⟨taken, hlex, -, hpos⟩ := h.pos
  rw [hpos, hlex, List.length_append]

theorem Holds.getElem? (h : f.Holds c) (n : Nat) : (f.parser c).lexemes[(f.parser c).pos + n]? = c.rest[n]? := by
  obtain ⟨taken, hlex, -, hpos⟩ := h.pos
  show f.lexemes[_]? = _
  rw [hpos, hlex, List.getElem?_append_right (Nat.le_add_right _ _), Nat.add_sub_cancel_left]

theorem Holds.current? (h : f.Holds c) : (f.parser c).current? = c.rest.head? := by
  rw [Parser.current?, ← Nat.add_zero (f.parser c).pos, h.getElem?, List.head?_eq_getElem?]

theorem Holds.kind? (h : f.Holds c) : (f.parser c).kind? = c.kind? := by
  rw [Parser.kind?, h.current?, Cursor.kind?]

theorem Holds.kindBehind? (h : f.Holds c) : (f.parser c).kindBehind? = c.rest[1]?.map (·.token.kind) := by
  rw [Parser.kindBehind?, h.getElem?]

theorem Holds.isAt (h : f.Holds c) (kind : Token.Kind) : (f.parser c).isAt kind = c.isAt kind := by
  rw [Parser.isAt, h.kind?, Cursor.isAt]

theorem Holds.atEnd (h : f.Holds c) : (f.parser c).atEnd = c.atEnd := by
  have hpos := h.pos_add
  show decide (f.lexemes.length ≤ _) = _
  rw [← hpos]
  cases hr : c.rest <;> simp [Cursor.atEnd, hr]

theorem Holds.afterBlank (h : f.Holds c) : (f.parser c).afterBlank = c.afterBlank := by
  rw [Parser.afterBlank, h.current?, Cursor.afterBlank]

theorem Holds.atOperand (h : f.Holds c) : (f.parser c).atOperand = c.atOperand := by
  rw [Parser.atOperand, h.kind?, h.afterBlank, Cursor.atOperand]

theorem Holds.atBinaryOperator (h : f.Holds c) :
    (f.parser c).atBinaryOperator = (c.kind?.any Token.Kind.isBinaryOperator && !c.afterBlank) := by
  rw [Parser.atBinaryOperator, h.kind?, h.afterBlank]

theorem Holds.atCloser (h : f.Holds c) : (f.parser c).atCloser = c.atCloser := by
  rw [Parser.atCloser, h.kind?]
  rfl

theorem Holds.isInterrupted (h : f.Holds c) : (f.parser c).isInterrupted = Statement.isInterrupted c := by
  rw [Parser.isInterrupted, h.kind?, h.afterBlank, h.atCloser]
  rfl

theorem Holds.lastEnd (h : f.Holds c) : (f.parser c).lastEnd = c.lastEnd := by
  obtain ⟨taken, hlex, hend, hpos⟩ := h.pos
  rw [Parser.lastEnd, hpos, hend]
  rw [show (f.parser c).lexemes = taken ++ c.rest from hlex]
  rcases List.eq_nil_or_concat taken with rfl | ⟨init, l, rfl⟩
  · rfl
  · simp [endOf_append]

theorem Holds.since (h : f.Holds c) (start : Nat) : (f.parser c).since start = c.since start := by
  rw [Parser.since, h.lastEnd, Cursor.since]

end Frame

theorem Cursor.exists_of_isAt {c : Cursor} {kind : Token.Kind} (h : c.isAt kind = true) :
    ∃ l ls, c.rest = l :: ls ∧ l.token.kind = kind := by
  cases hr : c.rest with
  | nil => simp [Cursor.isAt, Cursor.kind?, hr] at h
  | cons l ls => exact ⟨l, ls, rfl, by simpa [Cursor.isAt, Cursor.kind?, hr] using h⟩

theorem Cursor.eat_cons {c : Cursor} {l : Lexeme} {ls : List Lexeme} (hl : c.rest = l :: ls) :
    c.eat? l.token.kind = some (l.token, c.advance) := by
  simp [Cursor.eat?, Cursor.isAt, Cursor.kind?, Cursor.take?, hl]

/-- Only closing delimiters are awaited. -/
def Cursor.Closing (c : Cursor) : Prop :=
  ∀ k ∈ c.closers, k = .rightParen ∨ k = .rightBrace

theorem Cursor.Onward.closing {c d : Cursor} (h : Onward c d) (hc : c.Closing) : d.Closing := by
  unfold Closing
  rw [h.closers]
  exact hc

/-- From the place of the cursor the action comes back to the same frame, with what surrounds the cursor as it was and
`n` lexemes or more taken; where only closing delimiters are awaited, it gives `r`. -/
def Parse.Runs {α : Type} (f : Frame) (n : Nat) (m : Parse α) (c : Cursor) (r : α × Cursor) : Prop :=
  f.Holds c → ∃ a d, m (f.parser c) = some (a, f.parser d) ∧ Onward c d ∧ d.rest.length + n ≤ c.rest.length ∧
    (c.Closing → r = (a, d))

namespace Parse.Runs

variable {α β : Type} {f : Frame} {n : Nat} {c d : Cursor} {m : Parse α} {k : α → Parse β} {r : α × Cursor}
  {t : β × Cursor}

theorem pure (a : α) : Runs f 0 (Pure.pure a) c (a, c) :=
  fun _ => ⟨a, c, rfl, .refl c, Nat.le_refl _, fun _ => rfl⟩

theorem forget (h : Runs f n m c r) : Runs f 0 m c r := by
  intro hc
  obtain ⟨a, d, hm, hcd, hn, hr⟩ := h hc
  exact ⟨a, d, hm, hcd, hcd.length_le, hr⟩

theorem cast {r' : α × Cursor} (h : Runs f n m c r) (hr : c.Closing → r' = r) : Runs f n m c r' := by
  intro hc
  obtain ⟨a, d, hm, hcd, hn, he⟩ := h hc
  exact ⟨a, d, hm, hcd, hn, fun hclosing => (hr hclosing).trans (he hclosing)⟩

/-- An action whose outcome is known, and what is done behind it. -/
theorem stepPast {a : α} {i : Nat} (hm : f.Holds c → m (f.parser c) = some (a, f.parser d)) (hcd : Onward c d)
    (hi : d.rest.length + i ≤ c.rest.length) (h : Runs f n (k a) d t) : Runs f (n + i) (m >>= k) c t := by
  intro hc
  obtain ⟨b, e, hk, hde, hn, ht⟩ := h (hc.onward hcd)
  refine ⟨b, e, ?_, hcd.trans hde, by omega, fun hclosing => ht (hcd.closing hclosing)⟩
  show (m (f.parser c)).bind (fun x => k x.1 x.2) = _
  rw [hm hc]
  exact hk

theorem step {a : α} (hm : f.Holds c → m (f.parser c) = some (a, f.parser d)) (hcd : Onward c d)
    (h : Runs f n (k a) d t) : Runs f n (m >>= k) c t :=
  stepPast hm hcd (i := 0) hcd.length_le h

/-- An action whose outcome is known. -/
theorem known {a : α} (hm : f.Holds c → m (f.parser c) = some (a, f.parser d)) (hcd : Onward c d) :
    Runs f 0 m c (a, d) :=
  fun hc => ⟨a, d, hm hc, hcd, hcd.length_le, fun _ => rfl⟩

theorem get {g : Parser → Parse β} (h : f.Holds c → Runs f n (g (f.parser c)) c t) :
    Runs f n (MonadState.get >>= g) c t :=
  fun hc => h hc hc

/-- Two actions in a row; the second one is known to stand for a reading wherever the first one leads. -/
theorem bind (s : α → Cursor → β × Cursor) (h : Runs f 0 m c r) (hk : ∀ a d, Onward c d → Runs f n (k a) d (s a d)) :
    Runs f n (m >>= k) c (s r.1 r.2) := by
  intro hc
  obtain ⟨a, d, hm, hcd, -, hr⟩ := h hc
  obtain ⟨b, e, hke, hde, hn, hs⟩ := hk a d hcd (hc.onward hcd)
  refine ⟨b, e, ?_, hcd.trans hde, Nat.le_trans hn hcd.length_le, fun hclosing => ?_⟩
  · show (m (f.parser c)).bind (fun x => k x.1 x.2) = _
    rw [hm]
    exact hke
  · rw [hr hclosing]
    exact hs (hcd.closing hclosing)

/-- The same where the first one takes lexemes. -/
theorem bindPast (s : α → Cursor → β × Cursor) (h : Runs f n m c r)
    (hk : ∀ a d, Onward c d → d.rest.length + n ≤ c.rest.length → Runs f 0 (k a) d (s a d)) :
    Runs f n (m >>= k) c (s r.1 r.2) := by
  intro hc
  obtain ⟨a, d, hm, hcd, hn, hr⟩ := h hc
  obtain ⟨b, e, hke, hde, -, hs⟩ := hk a d hcd hn (hc.onward hcd)
  refine ⟨b, e, ?_, hcd.trans hde, ?_, fun hclosing => ?_⟩
  · show (m (f.parser c)).bind (fun x => k x.1 x.2) = _
    rw [hm]
    exact hke
  · have := hde.length_le
    omega
  · rw [hr hclosing]
    exact hs (hcd.closing hclosing)

theorem bump_eq {l : Lexeme} {ls : List Lexeme} (hl : c.rest = l :: ls) (h : f.Holds c) :
    Parse.bump (f.parser c) = some (l.token, f.parser c.advance) := by
  have hpos := h.pos_add
  have hrest : c.advance = { c with rest := ls, lastEnd := l.token.range.stop } := by rw [Cursor.advance, hl]
  rw [hl, List.length_cons] at hpos
  rw [Parse.bump, h.current?, hl, hrest]
  simp only [List.head?_cons, Option.map_some, Option.some.injEq, Prod.mk.injEq, true_and]
  rw [show (f.parser c).pos + 1 = f.lexemes.length - ls.length by omega]
  rfl

theorem bump {k : Token → Parse β} {l : Lexeme} {ls : List Lexeme} (hl : c.rest = l :: ls)
    (h : Runs f 0 (k l.token) c.advance t) : Runs f 1 (Parse.bump >>= k) c t :=
  stepPast (bump_eq hl) (.advance c) (i := 1) (length_advance hl) h

theorem here {k : Token → Parse β} {l : Lexeme} {ls : List Lexeme} (hl : c.rest = l :: ls)
    (h : Runs f n (k l.token) c t) : Runs f n (Parse.here >>= k) c t := by
  refine step (fun hc => ?_) (.refl c) h
  rw [Parse.here, hc.current?, hl]
  rfl

theorem eat {kind : Token.Kind} {k : Option Token → Parse β}
    (hsome : ∀ x d, c.eat? kind = some (x, d) → Runs f n (k (some x)) d t)
    (hnone : c.eat? kind = none → Runs f n (k none) c t) : Runs f n (Parse.eat? kind >>= k) c t := by
  by_cases hat : c.isAt kind = true
  · obtain ⟨l, ls, hl, rfl⟩ := exists_of_isAt hat
    refine step (fun hc => ?_) (.advance c) (hsome _ _ (eat_cons hl))
    show (if (f.parser c).isAt _ = true then some <$> Parse.bump else Pure.pure none : Parse _) (f.parser c) = _
    rw [hc.isAt, if_pos hat]
    show (Parse.bump (f.parser c)).bind _ = _
    rw [bump_eq hl hc]
    rfl
  · have heat : c.eat? kind = none := by rw [Cursor.eat?, if_neg hat]
    refine step (fun hc => ?_) (.refl c) (hnone heat)
    show (if (f.parser c).isAt kind = true then some <$> Parse.bump else Pure.pure none : Parse _) (f.parser c) = _
    rw [hc.isAt, if_neg hat]
    rfl

theorem skip {m : Parse β} {l : Lexeme} {ls : List Lexeme} (hl : c.rest = l :: ls) (h : Runs f 0 m c.advance t) :
    Runs f 1 (Parse.skip >>= fun _ => m) c t := by
  refine stepPast (a := ()) (fun hc => ?_) (.advance c) (i := 1) (length_advance hl) h
  show (Parse.bump (f.parser c)).bind _ = _
  rw [bump_eq hl hc]
  rfl

theorem fault {cause : Cause} {range : Range} {m : Parse β} (h : Runs f n m (c.fault cause range) t) :
    Runs f n (Parse.fault cause range >>= fun _ => m) c t :=
  step (fun _ => rfl) (.fault c _ _) h

theorem report (cause : Cause) (range : Range) : Runs f 0 (Parse.fault cause range) c ((), c.fault cause range) :=
  known (fun _ => rfl) (.fault c _ _)

theorem doWhen {b : Bool} {act : Parse Unit} {m : Parse β} (htrue : b = true → Runs f n (act >>= fun _ => m) c t)
    (hfalse : b = false → Runs f n m c t) : Runs f n (Parse.doWhen b act >>= fun _ => m) c t := by
  cases b with
  | true => exact htrue rfl
  | false => exact hfalse rfl

/-- What is reported under a condition. -/
theorem reporting {b : Bool} {cause : Cause} {range : Range} {m : Parse β}
    (h : Runs f n m (if b then c.fault cause range else c) t) :
    Runs f n (Parse.doWhen b (Parse.fault cause range) >>= fun _ => m) c t := by
  cases b with
  | true => exact .fault h
  | false => exact h

theorem finish (src : Source) (s : Symbol) : Runs f 0 (Parse.finish src s) c (c.finish src s) := by
  rw [Cursor.finish]
  refine doWhen (fun hs => ?_) (fun hs => ?_) <;> rw [hs]
  · refine step (a := ()) (fun _ => ?_) (.noteValid c) (pure _)
    show some ((), if c.scans = 0 then _ else _) = _
    rw [Cursor.noteValid]
    split <;> rfl
  · exact pure _

/-- An action that ought to take a lexeme, behind which one is taken if it did not. -/
theorem orSkip (s : α → Cursor → β × Cursor) (hne : c.rest ≠ []) (h : Runs f 0 m c r)
    (htakes : r.2.rest.length < c.rest.length) (hk : ∀ a d, Onward c d → Runs f 0 (k a) d (s a d)) :
    Runs f 1 (do let a ← m; let q ← MonadState.get; Parse.doWhen (q.pos == (f.parser c).pos) Parse.skip; k a) c
      (s r.1 r.2) := by
  intro hc
  obtain ⟨a, d, hm, hcd, -, hr⟩ := h hc
  have hd := hc.onward hcd
  have hp := hc.pos_add
  have hq := hd.pos_add
  have hle := hcd.length_le
  -- Behind the action, whether a lexeme is still to be taken.
  have hrest : Runs f (if d.rest.length = c.rest.length then 1 else 0) (do
      let q ← MonadState.get; Parse.doWhen (q.pos == (f.parser c).pos) Parse.skip; k a) d
      (s a (if d.rest.length = c.rest.length then d.advance else d)) := by
    refine .get fun _ => ?_
    by_cases hsame : d.rest.length = c.rest.length
    · rw [if_pos hsame, if_pos hsame, beq_iff_eq.mpr (by omega)]
      cases hl : d.rest with
      | nil => exact absurd (List.length_eq_zero_iff.mp (by rw [← hsame, hl]; rfl)) hne
      | cons l ls => exact .skip hl (hk a _ (hcd.trans (.advance d)))
    · rw [if_neg hsame, if_neg hsame, beq_eq_false_iff_ne.mpr (by omega)]
      exact hk a d hcd
  obtain ⟨b, e, hke, hde, hn, hs⟩ := hrest hd
  refine ⟨b, e, ?_, hcd.trans hde, ?_, fun hclosing => ?_⟩
  · show (m (f.parser c)).bind _ = _
    rw [hm]
    exact hke
  · split at hn <;> omega
  · rw [hr hclosing] at htakes ⊢
    rw [← hs (hcd.closing hclosing), if_neg (Nat.ne_of_lt htakes)]

/-- What holds of a loop when it holds from everywhere further on. -/
theorem byLength (read : Cursor → α × Cursor) (h : ∀ c, (∀ d, d.rest.length < c.rest.length → Runs f 0 m d (read d)) →
    Runs f 0 m c (read c)) (c : Cursor) : Runs f 0 m c (read c) := by
  induction hn : c.rest.length using Nat.strongRecOn generalizing c with
  | _ n ih => exact h c fun d hd => ih _ (hn ▸ hd) d rfl

/-- Between a push and the pop that takes it back. -/
theorem around {i : Nat} {f' : Frame} {push pop : Parse Unit} (c' : Cursor) (back : Cursor → Cursor)
    (s : α → Cursor → β × Cursor) (h : Runs f' i m c' r) (hpush : push (f.parser c) = some ((), f'.parser c'))
    (hholds : f.Holds c → f'.Holds c') (hclosing : c.Closing → c'.Closing)
    (hpop : ∀ d, Onward c' d → pop (f'.parser d) = some ((), f.parser (back d)))
    (hback : ∀ d, Onward c' d → Onward c (back d))
    (hrest : ∀ d, d.rest.length + i ≤ c'.rest.length → (back d).rest.length + i ≤ c.rest.length)
    (hk : ∀ a d, Onward c d → d.rest.length + i ≤ c.rest.length → Runs f n (k a) d (s a d)) :
    Runs f (n + i) (do push; let a ← m; pop; k a) c (s r.1 (back r.2)) := by
  intro hc
  obtain ⟨a, d, hm, hcd, hi, hr⟩ := h (hholds hc)
  have hd := hback d hcd
  have hi := hrest d hi
  obtain ⟨b, e, hke, hde, hn, hs⟩ := hk a (back d) hd hi (hc.onward hd)
  refine ⟨b, e, ?_, hd.trans hde, by omega, fun hclosed => ?_⟩
  · show (push (f.parser c)).bind (fun x => (m x.2).bind fun y => (pop y.2).bind fun z => k y.1 z.2) = _
    rw [hpush]
    show (m (f'.parser c')).bind (fun y => (pop y.2).bind fun z => k y.1 z.2) = _
    rw [hm]
    show (pop (f'.parser d)).bind (fun z => k a z.2) = _
    rw [hpop d hcd]
    exact hke
  · rw [hr (hclosing hclosed)]
    exact hs (hd.closing hclosed)

theorem awaiting {closer : Token.Kind} {read : Cursor → α × Cursor} (s : α → Cursor → β × Cursor)
    (hcloser : closer = .rightParen ∨ closer = .rightBrace) (h : ∀ d, Runs f 0 m d (read d))
    (hk : ∀ a d, Onward c d → Runs f n (k a) d (s a d)) :
    Runs f n (do pushCloser closer; let a ← m; popCloser; k a) c
      (s (c.inside closer read).1 (c.inside closer read).2) := by
  refine around (i := 0) { c with closers := closer :: c.closers } (fun d => { d with closers := c.closers }) s
    (r := read { c with closers := closer :: c.closers }) (h _) rfl id ?_ ?_ ?_ (fun _ => id) fun a d hd _ => hk a d hd
  · exact fun hclosed k hk => (List.mem_cons.mp hk).elim (· ▸ hcloser) (hclosed k)
  · intro d hd
    show some ((), ({ f.parser d with closers := d.closers.tail } : Parser)) = _
    rw [hd.closers]
    rfl
  · exact fun d hd => ⟨hd.rest, hd.trail, rfl, hd.scopes, hd.scans⟩

theorem inScope {scope : Scope} {read : Cursor → α × Cursor} (s : α → Cursor → β × Cursor)
    (h : ∀ d, Runs f 0 m d (read d)) (hk : ∀ a d, Onward c d → Runs f n (k a) d (s a d)) :
    Runs f n (do pushScope scope; let a ← m; popScope; k a) c
      (s (c.inScope scope read).1 (c.inScope scope read).2) := by
  refine around (i := 0) { c with scopes := scope :: c.scopes } (fun d => { d with scopes := c.scopes }) s
    (r := read { c with scopes := scope :: c.scopes }) (h _) rfl id id ?_ ?_ (fun _ => id) fun a d hd _ => hk a d hd
  · intro d hd
    show some ((), ({ f.parser d with scopes := d.scopes.tail } : Parser)) = _
    rw [hd.scopes]
    rfl
  · exact fun d hd => ⟨hd.rest, hd.trail, hd.closers, rfl, hd.scans⟩

/-- A scope and a closer are pushed in this order, and popped in the same. -/
theorem inBlock {scope : Scope} {closer : Token.Kind} {read : Cursor → α × Cursor} (s : α → Cursor → β × Cursor)
    (hcloser : closer = .rightParen ∨ closer = .rightBrace)
    (h : Runs f 0 m { c with scopes := scope :: c.scopes, closers := closer :: c.closers }
      (read { c with scopes := scope :: c.scopes, closers := closer :: c.closers }))
    (hk : ∀ a d, Onward c d → Runs f n (k a) d (s a d)) :
    Runs f n (do pushScope scope; pushCloser closer; let a ← m; popScope; popCloser; k a) c
      (s (c.inScope scope fun c => c.inside closer read).1 (c.inScope scope fun c => c.inside closer read).2) := by
  have hassoc : (do pushScope scope; pushCloser closer; let a ← m; popScope; popCloser; k a) =
      (pushScope scope >>= fun _ => pushCloser closer) >>= fun _ => m >>= fun a =>
        (popScope >>= fun _ => popCloser) >>= fun _ => k a := by
    simp only [bind_assoc]
  rw [hassoc]
  refine around (i := 0) { c with scopes := scope :: c.scopes, closers := closer :: c.closers }
    (fun d => { d with scopes := c.scopes, closers := c.closers }) s
    (r := read { c with scopes := scope :: c.scopes, closers := closer :: c.closers }) h rfl id ?_ ?_ ?_
    (fun _ => id) fun a d hd _ => hk a d hd
  · exact fun hclosed k hk => (List.mem_cons.mp hk).elim (· ▸ hcloser) (hclosed k)
  · intro d hd
    show some ((), ({ f.parser d with scopes := d.scopes.tail, closers := d.closers.tail } : Parser)) = _
    rw [hd.scopes, hd.closers]
    rfl
  · exact fun d hd => ⟨hd.rest, hd.trail, rfl, rfl, hd.scans⟩

theorem scanning {i : Nat} (read : Cursor → α × Cursor) (s : α → Cursor → β × Cursor)
    (h : Runs f i m { c with scans := c.scans + 1 } (read { c with scans := c.scans + 1 }))
    (hk : ∀ a d, Onward c d → d.rest.length + i ≤ c.rest.length → Runs f n (k a) d (s a d)) :
    Runs f (n + i) (do beginScan; let a ← m; endScan; k a) c (s (c.scanning read).1 (c.scanning read).2) := by
  refine around { c with scans := c.scans + 1 } (fun d => { d with scans := c.scans }) s
    (r := read { c with scans := c.scans + 1 }) h rfl id id ?_ ?_ (fun _ => id) hk
  · intro d hd
    show some ((), ({ f.parser d with scans := d.scans - 1 } : Parser)) = _
    rw [hd.scans]
    rfl
  · exact fun d hd => ⟨hd.rest, hd.trail, hd.closers, hd.scopes, rfl⟩

/-- One expression further in. -/
theorem nested (h : Runs { f with depth := f.depth + 1 } n m c r) :
    Runs f n (do enter; let a ← m; leave; return a) c r :=
  Nat.zero_add n ▸ around c id (fun a d => (a, d)) h rfl id id (fun _ _ => rfl) (fun _ h => h) (fun _ => id)
    fun _ _ _ _ => .pure _

theorem structuralFaults_eq (met trail : List Event) :
    ((f.parser { d with trail := met ++ trail }).structuralFaults ==
        (f.parser { c with trail := trail }).structuralFaults) =
      !met.any Event.isStructural := by
  simp only [Parser.structuralFaults, Frame.parser, List.append_assoc, List.countP_append]
  rw [Bool.eq_iff_iff, beq_iff_eq, Bool.not_eq_true', Nat.add_eq_right, List.countP_eq_zero, List.any_eq_false]

/-- While what is met is recorded. Whether a structural fault was met on the way is told by their number. -/
theorem recording (read : Cursor → α × Cursor) (s : α × List Event → Cursor → β × Cursor)
    (h : Runs { f with before := c.trail ++ f.before } n m { c with trail := [] } (read { c with trail := [] }))
    (hk : ∀ a met d, Onward c d → d.rest.length + n ≤ c.rest.length →
      ((f.parser d).structuralFaults == (f.parser c).structuralFaults) = !met.any Event.isStructural →
      Runs f 0 (k a) d (s (a, met) d)) :
    Runs f n (m >>= k) c (s (c.recording read).1 (c.recording read).2) := by
  intro hc
  obtain ⟨a, d, hm, hcd, hn, hr⟩ := h hc
  have hd : Onward c { d with trail := d.trail ++ c.trail } :=
    ⟨hcd.rest, ⟨d.trail, rfl⟩, hcd.closers, hcd.scopes, hcd.scans⟩
  have hfaults := structuralFaults_eq (f := f) (c := c) (d := d) d.trail c.trail
  obtain ⟨b, e, hke, hde, -, hs⟩ := hk a d.trail _ hd hn hfaults (hc.onward hd)
  refine ⟨b, e, ?_, hd.trans hde, ?_, fun hclosed => ?_⟩
  · show (m (f.parser c)).bind (fun x => k x.1 x.2) = _
    have hback : ({ f with before := c.trail ++ f.before } : Frame).parser d =
        f.parser { d with trail := d.trail ++ c.trail } := by
      simp only [Frame.parser, List.append_assoc]
    rw [show m (f.parser c) = _ from hm, hback]
    exact hke
  · exact Nat.le_trans (Nat.add_le_add_right hde.length_le n) hn
  · rw [Cursor.recording, hr hclosed]
    exact hs (hd.closing hclosed)

end Parse.Runs

end Calculation
