import Calculation.Proofs.Machine.Runs

namespace Calculation.Parse
open Cursor Statement

variable {f : Frame} {src : Source} {c : Cursor} {l : Lexeme} {ls : List Lexeme}

theorem operatorWord_runs (op : Token) :
    Runs f 0 (src.operatorWord op.kind.isLogicalOperator op) c (Statement.operatorSymbol src op c) := by
  rw [Source.operatorWord, Statement.operatorSymbol]
  split
  · exact Runs.bind (fun s d => ([s], d)) (.finish src _) fun _ _ _ => .pure _
  · exact .pure _

theorem literal_runs (hl : c.rest = l :: ls) :
    Runs f 1 src.literal c (Statement.literal src l.token c.advance) := by
  refine .bump hl ?_
  unfold Statement.literal
  cases openLiteral? l.token with
  | none => exact .finish src _
  | some cause => exact .fault (.finish src _)

theorem bareIdentifier_runs (hl : c.rest = l :: ls) :
    Runs f 1 src.bareIdentifier c (Statement.bareIdentifier src l.token c.advance) :=
  .bump hl (.fault (.finish src _))

/-- A qualified reference goes on with a dot and a field right here. -/
theorem qualified?_eq (d : Cursor) : qualified? d =
    if d.isAt .dot ∧ d.rest[1]?.map (·.token.kind) = some .field then
      d.rest[1]?.map fun l => (l.token, d.advance.advance)
    else none := by
  cases hr : d.rest with
  | nil => simp [qualified?, Cursor.eat?, Cursor.isAt, Cursor.kind?, hr]
  | cons l ls =>
    cases ls with
    | nil => simp [qualified?, Cursor.eat?, Cursor.isAt, Cursor.kind?, Cursor.take?, Cursor.advance, hr]
    | cons l' ls =>
      simp only [qualified?, Cursor.eat?, Cursor.isAt, Cursor.kind?, Cursor.take?, Cursor.advance, hr]
      by_cases hdot : l.token.kind = .dot <;> by_cases hfield : l'.token.kind = .field <;> simp [hdot, hfield]

/-- A field that ends with its text is reported as open. -/
theorem checkField_runs {α : Type} {n : Nat} {t : Token} {m : Parse α} {r : α × Cursor}
    (h : Runs f n m (Statement.checkField t c) r) : Runs f n (checkField t >>= fun _ => m) c r :=
  .reporting h

theorem fieldReference_runs (hl : c.rest = l :: ls) :
    Runs f 1 src.fieldReference c (Statement.fieldReference src l.token c.advance) := by
  refine .bump hl (checkField_runs (.get fun h => ?_))
  unfold Statement.fieldReference
  dsimp only
  generalize Statement.checkField l.token c.advance = d at h ⊢
  rw [h.isAt, h.kindBehind?, qualified?_eq]
  cases hopen : l.token.isOpen with
  | true =>
    rw [if_neg (by simp)]
    exact .finish src _
  | false =>
    rw [if_neg Bool.false_ne_true]
    by_cases hq : d.isAt .dot ∧ d.rest[1]?.map (·.token.kind) = some .field
    · obtain ⟨l₁, l₂, ls₂, hrest⟩ : ∃ l₁ l₂ ls₂, d.rest = l₁ :: l₂ :: ls₂ := by
        match hr : d.rest with
        | [] | [_] => simp [hr] at hq
        | l₁ :: l₂ :: ls₂ => exact ⟨l₁, l₂, ls₂, rfl⟩
      have hrest' : d.advance.rest = l₂ :: ls₂ := by rw [Cursor.advance, hrest]
      rw [if_pos hq, if_pos (by simpa using hq), hrest]
      exact (Runs.skip hrest (Runs.bump hrest' (checkField_runs (.finish src _))).forget).forget
    · rw [if_neg hq, if_neg (by simpa using hq)]
      exact .finish src _

theorem exists_of_kind {P : Token.Kind → Bool} (h : c.kind?.any P = true) :
    ∃ l ls, c.rest = l :: ls ∧ P l.token.kind = true := by
  cases hr : c.rest with
  | nil => simp [Cursor.kind?, hr] at h
  | cons l ls => exact ⟨l, ls, rfl, by simpa [Cursor.kind?, hr] using h⟩

theorem sign_isLogical {k : Token.Kind} (h : isSign k = true) : decide (k = .not_) = k.isLogicalOperator := by
  cases k <;> first | rfl | cases h

/-- The last of some signs, and the symbols of all. -/
def lastSign (last? : Option Token) (signs : List (Token × List Symbol)) : Option Token × List Symbol :=
  ((signs.getLast?.map (·.1)).or last?, signs.flatMap (·.2))

theorem sign?_eq (hl : c.rest = l :: ls) (hs : isSign l.token.kind = true) : sign? src c =
    some ((l.token, (Statement.operatorSymbol src l.token c.advance).1),
      (Statement.operatorSymbol src l.token c.advance).2) := by
  simp [sign?, Cursor.kind?, Cursor.take?, hl, hs]

theorem lastSign_cons (last? : Option Token) (t : Token) (ss : List Symbol) (signs : List (Token × List Symbol)) :
    lastSign last? ((t, ss) :: signs) = ((lastSign (some t) signs).1, ss ++ (lastSign (some t) signs).2) := by
  cases signs <;> simp [lastSign, List.getLast?_cons]

/-- A sign that stands here, and those behind it. -/
theorem signs_cons {last? : Option Token} (hl : c.rest = l :: ls) (hs : isSign l.token.kind = true)
    (hblank : (last?.isSome && c.afterBlank) = false)
    (hrest : ∀ d, d.rest.length < c.rest.length → Runs f 0 (src.signs (some l.token)) d
      (lastSign (some l.token) (d.many (nextSign? src)).1, (d.many (nextSign? src)).2)) :
    Runs f 1 (src.signs last?) c
      (lastSign last? ((l.token, (Statement.operatorSymbol src l.token c.advance).1) ::
          ((Statement.operatorSymbol src l.token c.advance).2.many (nextSign? src)).1),
        ((Statement.operatorSymbol src l.token c.advance).2.many (nextSign? src)).2) := by
  rw [Source.signs]
  refine .get fun h => ?_
  have hkind : c.kind?.any isSign = true := by simp [Cursor.kind?, hl, hs]
  rw [h.kind?, h.afterBlank, hkind, hblank, if_pos (by rfl)]
  refine .bump hl ?_
  rw [sign_isLogical hs]
  have hlt := length_advance hl
  refine .bind (fun word d => (lastSign last? ((l.token, word) :: (d.many (nextSign? src)).1),
    (d.many (nextSign? src)).2)) (operatorWord_runs l.token) fun word d hd => ?_
  refine Runs.cast (.bind (fun x e => ((x.1, word ++ x.2), e))
    (hrest d (Nat.lt_of_le_of_lt hd.length_le hlt)) fun x e _ => .pure _) fun _ => ?_
  rw [lastSign_cons]

/-- No sign, or none that goes on with those before. -/
theorem signs_none {last? : Option Token} (h : (c.kind?.any isSign && !(last?.isSome && c.afterBlank)) = false) :
    f.Holds c → src.signs last? (f.parser c) = some ((last?, []), f.parser c) := by
  intro hc
  rw [Source.signs]
  show (if ((f.parser c).kind?.any isSign && !(last?.isSome && (f.parser c).afterBlank)) = true then _ else _ :
    Parse (Option Token × List Symbol)) (f.parser c) = _
  rw [hc.kind?, hc.afterBlank, h]
  rfl

theorem signs_behind (op : Token) (c : Cursor) : Runs f 0 (src.signs (some op)) c
    (lastSign (some op) (c.many (nextSign? src)).1, (c.many (nextSign? src)).2) := by
  induction hn : c.rest.length using Nat.strongRecOn generalizing op c with
  | _ n ih =>
    rw [many_eq_of_advances (nextSign?_takes src)]
    by_cases hgo : (c.kind?.any isSign && !c.afterBlank) = true
    · obtain ⟨hkind, hblank⟩ := Bool.and_eq_true_iff.mp hgo
      obtain ⟨l, ls, hl, hs⟩ := exists_of_kind hkind
      have hblank := Bool.not_eq_true' _ |>.mp hblank
      rw [nextSign?, if_neg (by simp [hblank]), sign?_eq hl hs]
      exact (signs_cons hl hs (by simp [hblank]) fun d hd => ih _ (hn ▸ hd) _ d rfl).forget
    · have hnone : nextSign? src c = none := by
        rw [nextSign?, sign?]
        cases hb : c.afterBlank <;> simp_all
      rw [hnone]
      exact .known (signs_none (by simpa using hgo)) (.refl c)

/-- All signs in front of an operand. -/
theorem signs_runs (hl : c.rest = l :: ls) (hs : isSign l.token.kind = true) : Runs f 1 (src.signs none) c
    (lastSign none (Statement.signs src c).1, (Statement.signs src c).2) := by
  rw [Statement.signs, sign?_eq hl hs]
  exact signs_cons hl hs (by simp) fun d _ => signs_behind _ d

theorem skip_succ (n : Nat) (c : Cursor) : c.skip (1 + n) = c.advance.skip n := by
  rw [Nat.add_comm]
  rfl

theorem skipBalanced_runs (balance : Nat) (c : Cursor) :
    Runs f 0 (src.skipBalanced balance) c ((), c.skip (runLength balance c.rest)) := by
  induction hn : c.rest.length using Nat.strongRecOn generalizing balance c with
  | _ n ih =>
    rw [Source.skipBalanced]
    refine .get fun h => ?_
    rw [h.current?]
    cases hl : c.rest with
    | nil => exact .pure _
    | cons l ls =>
      rw [List.head?_cons, Option.bind_some, runLength]
      cases hb : balanceBehind? balance l.token.kind with
      | none => exact .pure _
      | some b =>
        rw [Option.filter_some]
        by_cases hstop : b = 0 ∧ l.afterBlank
        · simp only [hstop]
          exact .pure _
        · simp only [hstop, decide_false, Bool.not_false, if_pos, if_false]
          have hrest : c.advance.rest = ls := by rw [Cursor.advance, hl]
          rw [skip_succ, ← hrest]
          exact (Runs.skip hl (ih _ (hn ▸ length_advance hl) b c.advance rfl)).forget

/-- The marker of what was skipped from `start` to here. -/
def deepMarker (src : Source) (start : Nat) (c : Cursor) : Symbol × Cursor :=
  (c.fault (.tooDeep src.options.levels) (c.since start)).leaf src "error" .skipped (c.since start) false

theorem tooDeep_runs (place : Place) (hl : c.rest = l :: ls) :
    Runs f 1 src.tooDeep c (Statement.tooDeep src place c) := by
  rw [Statement.tooDeep, hl]
  dsimp only
  refine .bump hl ?_
  have hrest : c.advance.rest = ls := by rw [Cursor.advance, hl]
  rw [skip_succ, ← hrest]
  refine .bind (fun _ d => ([(deepMarker src l.token.range.start d).1], (deepMarker src l.token.range.start d).2))
    (skipBalanced_runs _ _) fun _ d _ => .get fun h => ?_
  rw [h.since]
  exact .fault (.bind (fun s d => ([s], d)) (.finish src _) fun _ _ _ => .pure _)

/-- How many lexemes start no statement, up to the first that does. -/
def strayLength (ls : List Lexeme) : Nat :=
  (ls.takeWhile fun l => !(l.token.kind.startsExpression || l.afterBlank)).length

theorem skipStray_runs (c : Cursor) : Runs f 0 src.skipStray c ((), c.skip (strayLength c.rest)) := by
  refine .byLength (fun c => ((), c.skip (strayLength c.rest))) (fun c ih => ?_) c
  rw [Source.skipStray]
  refine .get fun h => ?_
  rw [h.atEnd, h.kind?, h.afterBlank]
  cases hl : c.rest with
  | nil =>
    simp only [Cursor.atEnd, hl, List.isEmpty_nil, Bool.true_or, if_pos]
    exact .pure _
  | cons l ls =>
    have hstop : (c.atEnd || c.kind?.any Token.Kind.startsExpression || c.afterBlank) =
        (l.token.kind.startsExpression || l.afterBlank) := by
      simp [Cursor.atEnd, Cursor.kind?, Cursor.afterBlank, hl]
    have hrest : c.advance.rest = ls := by rw [Cursor.advance, hl]
    rw [hstop, strayLength, List.takeWhile_cons]
    by_cases hs : (l.token.kind.startsExpression || l.afterBlank) = true
    · rw [if_pos hs, if_neg (by simp [hs])]
      exact .pure _
    · rw [if_neg hs, if_pos (by simpa using hs), List.length_cons, Nat.add_comm, skip_succ, ← hrest]
      exact (Runs.skip hl (ih c.advance (length_advance hl))).forget

theorem strayTokens_runs (hl : c.rest = l :: ls) : Runs f 1 src.strayTokens c ((), Statement.strayTokens c) := by
  rw [Statement.strayTokens, hl]
  dsimp only
  refine .bump hl (.get fun hc => ?_)
  have hrest : c.advance.rest = ls := by rw [Cursor.advance, hl]
  rw [skip_succ, ← hrest]
  refine Runs.cast (.bind (fun _ d => ((), d.fault (.unexpected l.token.kind l.token.text
    (decide (d.rest.length < c.advance.rest.length)) .topLevel) (d.since l.token.range.start)))
    (skipStray_runs c.advance) fun _ d hd => .get fun h => ?_) fun _ => ?_
  · have hmore : decide ((f.parser c.advance).pos < (f.parser d).pos) =
        decide (d.rest.length < c.advance.rest.length) := by
      have hp := hc.pos_add
      have hq := h.pos_add
      exact decide_eq_decide.mpr (by omega)
    rw [h.since, hmore]
    exact .report _ _
  · have hle : strayLength c.advance.rest ≤ c.advance.rest.length :=
      (List.takeWhile_sublist _).length_le
    have hmore : decide (0 < strayLength c.advance.rest) =
        decide ((c.advance.skip (strayLength c.advance.rest)).rest.length < c.advance.rest.length) := by
      rw [skip_eq, List.length_drop]
      exact decide_eq_decide.mpr (by omega)
    exact congrArg (fun b => ((), (c.advance.skip (strayLength c.advance.rest)).fault
      (.unexpected l.token.kind l.token.text b .topLevel)
      ((c.advance.skip (strayLength c.advance.rest)).since l.token.range.start))) hmore

theorem checkSignature_runs (name : Token) (count : Nat) : Runs f 0 (src.checkSignature name count) c
    ((), Statement.checkSignature name (src.options.signatures.get? name.text) count c) := by
  unfold Source.checkSignature Statement.checkSignature
  cases src.options.signatures.get? name.text with
  | none => exact .report _ _
  | some s =>
    cases ha : s.accepts count with
    | true => simp only [ha]; exact .pure _
    | false => simp only [ha]; exact .report _ _

theorem checkCall_runs (name paren : Token) (isClosed isComplete : Bool) (count : Nat) :
    Runs f 0 (src.checkCall name paren isClosed isComplete count) c ((), Statement.checkCall name paren
      (src.options.signatures.get? name.text) isClosed isComplete count c) := by
  rw [Source.checkCall, Statement.checkCall]
  refine .get fun _ => ?_
  cases isClosed with
  | false => exact .report _ _
  | true =>
    show Runs f 0 (Parse.doWhen (isComplete && c.scans == 0) _) c _
    cases isComplete && c.scans == 0 with
    | true => exact checkSignature_runs name count
    | false => exact .pure _

theorem finishCall_runs (name paren : Token) (isNested : Bool) (parts : List CallPart) (isClosed : Bool) :
    Runs f 0 (src.finishCall name paren isNested parts isClosed) c
      (Statement.finishCall src name paren isNested parts isClosed c) := by
  refine .bind (fun _ d => d.finish src ⟨name.text, .call (parts.map (·.argument)) isNested,
    d.since name.range.start, parts.flatMap (·.symbols),
    isClosed && (parts.map (·.argument)).all (·.isComplete), []⟩) (checkCall_runs name paren isClosed _ _)
    fun _ d _ => .get fun h => ?_
  rw [h.since]
  exact .finish src _

theorem finishBlock_runs (kind : BlockKind) (opener : Token) (body : Clause) (stop : Option Range) :
    Runs f 0 (src.finishBlock kind opener body stop) c (Statement.finishBlock src kind opener body stop c) := by
  refine .get fun h => ?_
  rw [h.since]
  exact .finish src _

end Calculation.Parse
