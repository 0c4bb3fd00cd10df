import Calculation.Proofs.Seam.Skipping

namespace Calculation.Seam
open Statement Movable

variable {m : Seam} {v : List Lexeme} {c₁ c₂ : Cursor} {expr₁ expr₂ : ReadExpression}

@[simp] theorem symbols_append_clause (a b : Clause) : (a.append b).symbols = a.symbols ++ b.symbols := rfl

theorem move_clause_append (bytes lines : Nat) (a b : Clause) :
    (move bytes lines a).append (move bytes lines b) = move bytes lines (a.append b) := by
  simp [move, Clause.append]

theorem move_clause_join (bytes lines : Nat) (clauses : List Clause) :
    Clause.join (move bytes lines clauses) = move bytes lines (Clause.join clauses) := by
  induction clauses with
  | nil => rfl
  | cons a as ih =>
    rw [move_cons, Clause.join_cons, Clause.join_cons, ih, move_clause_append]

/-- A clause and the clauses behind it, put together. -/
theorem Sim.clauses {x₁ x₂ : Clause × Cursor} {y₁ y₂ : List Clause × Cursor} (h : m.Sim x₁ x₂)
    (ho₁ : Cursor.Onward x₁.2 y₁.2) (ho₂ : Cursor.Onward x₂.2 y₂.2) (hnext : m.Twin x₁.2 x₂.2 → m.Sim y₁ y₂) :
    m.Sim (x₁.1.append (.join y₁.1), y₁.2) (x₂.1.append (.join y₂.1), y₂.2) :=
  h.both (fun a b => a.append (.join b)) (fun a b => a.append (.join b)) (fun _ _ => rfl)
    (fun a b => by rw [move_clause_join, move_clause_append]) ho₁ ho₂ hnext

theorem required_sim (hm : m.Sound) (h : m.SimExpression expr₁ expr₂) (place : Place) (keyword : Token) :
    m.Sims (required expr₁ place keyword) (required expr₂ place (keyword.shifted m.bytes)) := by
  intro c₁ c₂ hc
  unfold required
  rw [hc.atOperand hm]
  by_cases ha : c₁.atOperand = true
  · rw [if_pos ha, if_pos ha]
    exact h.sim place c₁ c₂ hc (atStart_of_atOperand ha)
  · rw [if_neg ha, if_neg ha]
    exact .same rfl (hc.fault (.missingExpression keyword.kind) _ rfl (by simp [Cause.code])) calm_nil

/-- The branch that its keyword and the symbols behind it make. -/
def branchOf (kind : BranchKind) (keyword : Token) (x : List Symbol × Cursor) : Clause × Cursor :=
  (⟨x.1, [⟨kind, keyword.range, x.2.since keyword.range.start⟩], true⟩, x.2)

theorem branchOf_sim (kind : BranchKind) (keyword : Token) {x₁ x₂ : List Symbol × Cursor} (hx : m.Sim x₁ x₂) :
    m.Sim (branchOf kind keyword x₁) (branchOf kind (keyword.shifted m.bytes) x₂) := by
  refine hx.next (.refl _) (.refl _) (fun s hs => ?_) fun hmove htwin hcalm => ?_
  · rw [symbols_list] at hs
    exact hs
  · rw [symbols_list] at hcalm
    refine .same ?_ htwin hcalm
    rw [Token.range_shifted, htwin.since, hmove]
    rfl

theorem branch_sim (hm : m.Sound) (h : m.SimExpression expr₁ expr₂) (place : Place) (kind : BranchKind)
    (keyword : Token) :
    m.Sims (branch expr₁ place kind keyword) (branch expr₂ place kind (keyword.shifted m.bytes)) :=
  fun c₁ c₂ hc => branchOf_sim kind keyword (required_sim hm h place keyword c₁ c₂ hc)

theorem thenClause_sim (hm : m.Sound) (h : m.SimExpression expr₁ expr₂) (place : Place) (opener : Token) :
    m.Sims (thenClause expr₁ place opener) (thenClause expr₂ place (opener.shifted m.bytes)) := by
  intro c₁ c₂ hc
  unfold thenClause
  rcases hc.eat hm (k := .then_) rfl with ⟨h₁, h₂⟩ | ⟨t, d₁, d₂, h₁, h₂, hd⟩
  · rw [h₁, h₂]
    have hfault := hc.fault (.missingThen opener.kind) opener.range rfl (by simp [Cause.code])
    have hvalue : m.Sim
        (if (c₁.fault (.missingThen opener.kind) opener.range).atOperand then
          expr₁ place (c₁.fault (.missingThen opener.kind) opener.range)
        else ([], c₁.fault (.missingThen opener.kind) opener.range))
        (if (c₂.fault (.missingThen opener.kind) (opener.range.shifted m.bytes)).atOperand then
          expr₂ place (c₂.fault (.missingThen opener.kind) (opener.range.shifted m.bytes))
        else ([], c₂.fault (.missingThen opener.kind) (opener.range.shifted m.bytes))) := by
      rw [hfault.atOperand hm]
      by_cases ha : (c₁.fault (.missingThen opener.kind) opener.range).atOperand = true
      · rw [if_pos ha, if_pos ha]
        exact h.sim place _ _ hfault (atStart_of_atOperand ha)
      · rw [if_neg ha, if_neg ha]
        exact .same rfl hfault calm_nil
    exact hvalue.map (fun ss => (⟨ss, [], false⟩ : Clause)) (fun ss => (⟨ss, [], false⟩ : Clause))
      (fun ss => (symbols_list ss).symm) (fun _ => rfl)
  · rw [h₁, h₂]
    rcases hd with hlost | ⟨htwin, -⟩
    · exact .lost hlost (branch_onward h.first place .then_ t d₁)
    · exact branch_sim hm h place .then_ t d₁ d₂ htwin

theorem condition_sim (hm : m.Sound) (h : m.SimExpression expr₁ expr₂) (place : Place) (kind : BranchKind)
    (keyword : Token) :
    m.Sims (condition expr₁ place kind keyword) (condition expr₂ place kind (keyword.shifted m.bytes)) := by
  intro c₁ c₂ hc
  exact (branch_sim hm h place kind keyword c₁ c₂ hc).both Clause.append Clause.append (fun _ _ => rfl)
    (move_clause_append _ _) (thenClause_onward h.first place keyword _) (thenClause_onward h.second place _ _)
    (thenClause_sim hm h place keyword _ _)

theorem skippedClause_sim (hm : m.Sound) (h : m.SimExpression expr₁ expr₂) (place : Place) {l : Lexeme}
    {ls : List Lexeme} (hl : c₁.rest = l :: ls) (hpast : m.Past l.token.range ∨ c₁.rest = m.rest₁)
    (hc : m.Twin c₁ c₂) :
    m.Sim (skippedClause m.src₁ expr₁ place l.token c₁)
      (skippedClause m.src₂ expr₂ place (l.token.shifted m.bytes) c₂) :=
  (resync_sim hm h place hl hpast hc).map (fun s => (⟨[s], [], true⟩ : Clause)) (fun s => (⟨[s], [], true⟩ : Clause))
    (fun _ => rfl) (fun _ => rfl)

theorem interrupted_of_nil {c : Cursor} (h : c.rest = []) : isInterrupted c = true := by
  simp [isInterrupted, Cursor.kind?, h]

theorem nextClause?_sim (hm : m.Sound) (h : m.SimExpression expr₁ expr₂) (place : Place) (keyword : Token.Kind)
    (kind : BranchKind) (hk : keyword ≠ .identifier) :
    m.Sims? (nextClause? m.src₁ expr₁ place keyword kind) (nextClause? m.src₂ expr₂ place keyword kind) := by
  intro c₁ c₂ hc
  have hinterrupted := hc.isInterrupted hm
  unfold nextClause?
  rw [hinterrupted]
  by_cases hi : isInterrupted c₁ = true
  · rw [if_pos hi, if_pos hi]
    exact .inl ⟨rfl, rfl⟩
  · rw [if_neg hi, if_neg hi]
    cases hc.heads hm with
    | none h₁ h₂ => exact absurd (interrupted_of_nil h₁) hi
    | blank l ls h₁ h₂ hb hs => exact absurd (interrupted_of_nil h₁) hi
    | same l ls₁ ls₂ h₁ h₂ hl =>
      rw [h₁, h₂]
      dsimp only
      rw [kind_shifted]
      by_cases hend : l.token.kind = .end_
      · rw [if_pos hend, if_pos hend]
        exact .inl ⟨rfl, rfl⟩
      · rw [if_neg hend, if_neg hend]
        by_cases hkeyword : l.token.kind = keyword
        · rw [if_pos hkeyword, if_pos hkeyword]
          refine .inr ⟨_, _, rfl, rfl, ?_⟩
          rcases hc.advance hm h₁ (hkeyword ▸ hk) with hlost | ⟨htwin, -⟩
          · exact .lost hlost (condition_onward h.first place kind l.token _)
          · exact condition_sim hm h place kind l.token _ _ htwin
        · rw [if_neg hkeyword, if_neg hkeyword]
          by_cases helse : l.token.kind = .else_
          · rw [if_pos helse, if_pos helse]
            refine .inr ⟨_, _, rfl, rfl, ?_⟩
            rcases hc.advance hm h₁ (by simp [helse]) with hlost | ⟨htwin, -⟩
            · exact .lost hlost (branch_onward h.first place .else_ l.token _)
            · exact branch_sim hm h place .else_ l.token _ _ htwin
          · rw [if_neg helse, if_neg helse]
            exact .inr ⟨_, _, rfl, rfl, skippedClause_sim hm h place h₁ hl hc⟩

/-- A block from what was read of it, with its terminator. -/
theorem finishBlock_sim (hm : m.Sound) (kind : BlockKind) {opener : Token} (ho : m.Past opener.range) {body : Clause}
    (hcalm : m.Calm body.symbols) (terminator : Option Range) (hc : m.Twin c₁ c₂) :
    m.Sim (finishBlock m.src₁ kind opener body terminator c₁)
      (finishBlock m.src₂ kind (opener.shifted m.bytes) (move m.bytes m.lines body)
        (move m.bytes m.lines terminator) c₂) := by
  unfold finishBlock
  refine hc.finish hm ?_ (hc.since_past ho) (unmarked_of_kind (by simp)) hcalm
  rw [Token.range_shifted, hc.since]
  cases terminator <;> simp [Symbol.shifted, Symbol.Kind.shifted, move, Symbol.shiftedAll_eq_map, movedLines]

theorem terminator_sim (hm : m.Sound) (opener : Token) :
    m.Sims (terminator opener) (terminator (opener.shifted m.bytes)) := by
  intro c₁ c₂ hc
  unfold terminator
  rcases hc.eat hm (k := .end_) rfl with ⟨h₁, h₂⟩ | ⟨t, d₁, d₂, h₁, h₂, hd⟩
  · rw [h₁, h₂]
    exact .same rfl (hc.fault (.missingEnd opener.kind) _ rfl (by simp [Cause.code])) calm_nil
  · rw [h₁, h₂]
    rcases hd with hlost | ⟨htwin, -⟩
    · exact .inl hlost
    · exact .same rfl htwin calm_nil

theorem ifBody_sim (hm : m.Sound) (h : m.SimExpression expr₁ expr₂) (opener : Token) :
    m.Sims (ifBody m.src₁ expr₁ opener) (ifBody m.src₂ expr₂ (opener.shifted m.bytes)) := by
  intro c₁ c₂ hc
  have ho₁ := nextClause?_onward m.src₁ h.first .ifBlock .elseIf .elseIf
  have ho₂ := nextClause?_onward m.src₂ h.second .ifBlock .elseIf .elseIf
  exact (condition_sim hm h .ifBlock .if_ opener c₁ c₂ hc).clauses (ho₁.many _) (ho₂.many _)
    ((nextClause?_sim hm h _ _ _ (by simp)).many (nextClause?_takes _ h.first _ _ _)
      (nextClause?_takes _ h.second _ _ _) ho₁ ho₂ _ _)

theorem caseBody_sim (hm : m.Sound) (h : m.SimExpression expr₁ expr₂) (opener : Token) :
    m.Sims (caseBody m.src₁ expr₁ opener) (caseBody m.src₂ expr₂ (opener.shifted m.bytes)) := by
  intro c₁ c₂ hc
  have ho₁ := nextClause?_onward m.src₁ h.first .caseBlock .when_ .when_
  have ho₂ := nextClause?_onward m.src₂ h.second .caseBlock .when_ .when_
  exact (branch_sim hm h .caseBlock .case_ opener c₁ c₂ hc).clauses (ho₁.many _) (ho₂.many _)
    ((nextClause?_sim hm h _ _ _ (by simp)).many (nextClause?_takes _ h.first _ _ _)
      (nextClause?_takes _ h.second _ _ _) ho₁ ho₂ _ _)

/-- A block that ends with END, or with a report that it is missing. -/
def blockOf (src : Source) (kind : BlockKind) (opener : Token) (x : Clause × Cursor) : Symbol × Cursor :=
  finishBlock src kind opener x.1 (terminator opener x.2).1 (terminator opener x.2).2

theorem blockOf_onward (src : Source) (kind : BlockKind) (opener : Token) (x : Clause × Cursor) :
    Cursor.Onward x.2 (blockOf src kind opener x).2 :=
  (terminator_onward opener x.2).trans (.finish src _ _)

theorem blockOf_sim (hm : m.Sound) (kind : BlockKind) {opener : Token} (ho : m.Past opener.range)
    {x₁ x₂ : Clause × Cursor} (hx : m.Sim x₁ x₂) :
    m.Sim (blockOf m.src₁ kind opener x₁) (blockOf m.src₂ kind (opener.shifted m.bytes) x₂) := by
  refine hx.next (blockOf_onward ..) (blockOf_onward ..) (fun s hs => mem_walkAll_one hs) ?_
  intro hmove htwin hcalm
  refine (terminator_sim hm opener _ _ htwin).next (.finish ..) (.finish ..) (fun s hs => ?_) ?_
  · rw [symbols_option_range, Symbol.walkAll_nil] at hs
    cases hs
  · intro hmove' htwin' _
    have hfinish := finishBlock_sim hm kind ho hcalm (terminator opener x₁.2).1 htwin'
    rw [← hmove, ← hmove'] at hfinish
    exact hfinish

theorem ifBlock_sim (hm : m.Sound) (h : m.SimExpression expr₁ expr₂) {opener : Token} (ho : m.Past opener.range) :
    m.Sims (ifBlock m.src₁ expr₁ opener) (ifBlock m.src₂ expr₂ (opener.shifted m.bytes)) :=
  fun c₁ c₂ hc => blockOf_sim hm .if_ ho (ifBody_sim hm h opener c₁ c₂ hc)

theorem hasWhen_move (bytes lines : Nat) (body : Clause) : (move bytes lines body).hasWhen = body.hasWhen := by
  simp only [Clause.hasWhen, move, List.any_map]
  rfl

/-- The clauses of a CASE block, which is complete only with a WHEN. -/
def checkedCase (opener : Token) (x : Clause × Cursor) : Clause × Cursor :=
  ({ x.1 with isComplete := x.1.isComplete && x.1.hasWhen }, checkWhen opener x.1.hasWhen x.2)

theorem checkedCase_sim (opener : Token) {x₁ x₂ : Clause × Cursor} (hx : m.Sim x₁ x₂) :
    m.Sim (checkedCase opener x₁) (checkedCase (opener.shifted m.bytes) x₂) := by
  refine hx.next (checkWhen_onward ..) (checkWhen_onward ..) (fun s hs => hs) fun hmove htwin hcalm => ?_
  unfold checkedCase checkWhen
  rw [hmove, hasWhen_move]
  refine .same rfl ?_ hcalm
  by_cases hw : x₁.1.hasWhen = true
  · rw [if_pos hw, if_pos hw]
    exact htwin
  · rw [if_neg hw, if_neg hw]
    exact htwin.fault .missingWhen _ rfl (by simp [Cause.code])

theorem caseBlock_sim (hm : m.Sound) (h : m.SimExpression expr₁ expr₂) {opener : Token}
    (ho : m.Past opener.range) :
    m.Sims (caseBlock m.src₁ expr₁ opener) (caseBlock m.src₂ expr₂ (opener.shifted m.bytes)) :=
  fun c₁ c₂ hc => blockOf_sim hm .case_ ho (checkedCase_sim opener (caseBody_sim hm h opener c₁ c₂ hc))

theorem dimensions_sim (hm : m.Sound) (h : m.SimExpression expr₁ expr₂) (keyword : Token) :
    m.Sims (dimensions expr₁ keyword) (dimensions expr₂ (keyword.shifted m.bytes)) := by
  intro c₁ c₂ hc
  unfold dimensions
  rw [hc.atOperand hm]
  by_cases ha : c₁.atOperand = true
  · rw [if_pos ha, if_pos ha]
    exact branchOf_sim .dimensions keyword (commaList_sim hm h .lodDimensions c₁ c₂ hc)
  · rw [if_neg ha, if_neg ha]
    exact .same rfl hc calm_nil

theorem aggregate_sim (hm : m.Sound) (h : m.SimExpression expr₁ expr₂) (keyword : Token) :
    m.Sims (aggregate expr₁ keyword) (aggregate expr₂ (keyword.shifted m.bytes)) := by
  intro c₁ c₂ hc
  unfold aggregate
  rcases hc.eat hm (k := .colon) rfl with ⟨h₁, h₂⟩ | ⟨t, d₁, d₂, h₁, h₂, hd⟩
  · rw [h₁, h₂]
    exact .same rfl (hc.fault (.missingColon keyword.kind) _ rfl (by simp [Cause.code])) calm_nil
  · rw [h₁, h₂]
    rcases hd with hlost | ⟨htwin, -⟩
    · exact .lost hlost (branch_onward h.first _ _ t d₁)
    · exact branch_sim hm h .lodBody .aggregate t d₁ d₂ htwin

/-- What stands behind a scope keyword. -/
def keywordHead (expr : ReadExpression) (scope : LodScope) (keyword : Token) (c : Cursor) :
    (LodScope × Clause) × Cursor :=
  let head := dimensions expr keyword c
  let body := aggregate expr keyword head.2
  ((scope, head.1.append body.1), body.2)

theorem keywordHead_onward (h : SteadyExpression expr₁) (scope : LodScope) (keyword : Token) :
    Cursor.Steady (keywordHead expr₁ scope keyword) :=
  fun c => (dimensions_onward h keyword c).trans (aggregate_onward h keyword _)

theorem keywordHead_sim (hm : m.Sound) (h : m.SimExpression expr₁ expr₂) (scope : LodScope) (keyword : Token) :
    m.Sims (keywordHead expr₁ scope keyword) (keywordHead expr₂ scope (keyword.shifted m.bytes)) := by
  intro c₁ c₂ hc
  exact (dimensions_sim hm h keyword c₁ c₂ hc).both (fun a b => (scope, a.append b)) (fun a b => (scope, a.append b))
    (fun _ _ => rfl) (fun a b => by rw [move_clause_append]; rfl) (aggregate_onward h.first keyword _)
    (aggregate_onward h.second _ _) (aggregate_sim hm h keyword _ _)

theorem lodHead_keyword {expr : ReadExpression} {brace : Token} {c : Cursor} {l : Lexeme} {ls : List Lexeme}
    {scope : LodScope} (hl : c.rest = l :: ls) (hs : scopeOf? l.token.kind = some scope) :
    lodHead expr brace c = keywordHead expr scope l.token c.advance := by
  simp only [lodHead, Cursor.kind?, Cursor.take?, hl, List.head?_cons, Option.map_some, Option.bind_some, hs]
  rfl

theorem lodHead_table {expr : ReadExpression} {brace : Token} {c : Cursor} (hs : c.kind?.bind scopeOf? = none) :
    lodHead expr brace c = ((.table, (branch expr .lodBody .aggregate brace c).1),
      (branch expr .lodBody .aggregate brace c).2) := by
  simp only [lodHead, hs]

theorem lodHead_sim (hm : m.Sound) (h : m.SimExpression expr₁ expr₂) (brace : Token) :
    m.Sims (lodHead expr₁ brace) (lodHead expr₂ (brace.shifted m.bytes)) := by
  intro c₁ c₂ hc
  have htable (h₁ : c₁.kind?.bind scopeOf? = none) (h₂ : c₂.kind?.bind scopeOf? = none) :
      m.Sim (lodHead expr₁ brace c₁) (lodHead expr₂ (brace.shifted m.bytes) c₂) := by
    rw [lodHead_table h₁, lodHead_table h₂]
    exact (branch_sim hm h .lodBody .aggregate brace c₁ c₂ hc).map (fun a => (LodScope.table, a))
      (fun a => (LodScope.table, a)) (fun _ => rfl) (fun _ => rfl)
  cases hc.heads hm with
  | none h₁ h₂ => exact htable (by simp [Cursor.kind?, h₁]) (by simp [Cursor.kind?, h₂])
  | blank l ls h₁ h₂ hb hs =>
    exact htable (by simp [Cursor.kind?, h₁]) (by simp [Cursor.kind?, h₂, scopeOf?_of_starts hs])
  | same l ls₁ ls₂ h₁ h₂ hl =>
    cases hscope : scopeOf? l.token.kind with
    | none => exact htable (by simp [Cursor.kind?, h₁, hscope]) (by simp [Cursor.kind?, h₂, hscope])
    | some scope =>
      have hk : l.token.kind ≠ .identifier := by
        intro hk
        simp [hk, scopeOf?] at hscope
      rw [lodHead_keyword h₁ hscope, lodHead_keyword h₂ hscope]
      rcases hc.advance hm h₁ hk with hlost | ⟨htwin, -⟩
      · exact .lost hlost (keywordHead_onward h.first scope l.token _)
      · exact keywordHead_sim hm h scope l.token _ _ htwin

theorem nextSkipped?_sim (hm : m.Sound) (h : m.SimExpression expr₁ expr₂) :
    m.Sims? (nextSkipped? m.src₁ expr₁) (nextSkipped? m.src₂ expr₂) := by
  intro c₁ c₂ hc
  have hinterrupted := hc.isInterrupted hm
  unfold nextSkipped?
  rw [hinterrupted]
  by_cases hi : isInterrupted c₁ = true
  · rw [if_pos hi, if_pos hi]
    exact .inl ⟨rfl, rfl⟩
  · rw [if_neg hi, if_neg hi]
    cases hc.heads hm with
    | none h₁ h₂ => exact absurd (interrupted_of_nil h₁) hi
    | blank l ls h₁ h₂ hb hs => exact absurd (interrupted_of_nil h₁) hi
    | same l ls₁ ls₂ h₁ h₂ hl =>
      rw [h₁, h₂]
      dsimp only
      rw [kind_shifted]
      by_cases hend : (l.token.kind.isBlockContinuation && l.token.kind != .then_) = true
      · rw [if_pos hend, if_pos hend]
        exact .inl ⟨rfl, rfl⟩
      · rw [if_neg hend, if_neg hend]
        exact .inr ⟨_, _, rfl, rfl, skippedClause_sim hm h .lodBody h₁ hl hc⟩

theorem symbols_closeBrace (x : (LodScope × Clause) × Cursor) : symbols (closeBrace x).1 = x.1.2.symbols := by
  unfold closeBrace
  split <;> simp

theorem closeBrace_sim (hm : m.Sound) {x₁ x₂ : (LodScope × Clause) × Cursor} (hx : m.Sim x₁ x₂) :
    m.Sim (closeBrace x₁) (closeBrace x₂) := by
  refine hx.next (closeBrace_onward _) (closeBrace_onward _) (fun s hs => ?_) fun hmove htwin hcalm => ?_
  · rw [symbols_closeBrace]
    exact hs
  · have hcalm' : m.Calm (symbols (closeBrace x₁).1) := by
      rw [symbols_closeBrace]
      exact hcalm
    unfold closeBrace at hcalm' ⊢
    rcases htwin.eat hm (k := .rightBrace) rfl with ⟨h₁, h₂⟩ | ⟨t, d₁, d₂, h₁, h₂, hd⟩
    · rw [h₁] at hcalm' ⊢
      rw [h₂, hmove]
      exact .same rfl htwin hcalm'
    · rw [h₁] at hcalm' ⊢
      rw [h₂, hmove]
      rcases hd with hlost | ⟨htwin', -⟩
      · exact .inl hlost
      · exact .same rfl htwin' hcalm'

theorem lodBody_sim (hm : m.Sound) (h : m.SimExpression expr₁ expr₂) (brace : Token) :
    m.Sims (lodBody m.src₁ expr₁ brace) (lodBody m.src₂ expr₂ (brace.shifted m.bytes)) := by
  intro c₁ c₂ hc
  have ho₁ := nextSkipped?_onward m.src₁ h.first
  have ho₂ := nextSkipped?_onward m.src₂ h.second
  rw [lodBody_eq, lodBody_eq]
  apply closeBrace_sim hm
  exact (lodHead_sim hm h brace c₁ c₂ hc).both (fun a bs => (a.1, a.2.append (.join bs)))
    (fun a bs => (a.1, a.2.append (.join bs))) (fun _ _ => rfl)
    (fun a bs => by rw [move_clause_join]; exact congrArg (Prod.mk a.1) (move_clause_append _ _ _ _))
    (ho₁.many _) (ho₂.many _)
    ((nextSkipped?_sim hm h).many (nextSkipped?_takes _ h.first) (nextSkipped?_takes _ h.second) ho₁ ho₂ _ _)

/-- An LOD block from what was read inside its braces. -/
def lodOf (src : Source) (brace : Token) (x : (LodScope × Clause × Option Range) × Cursor) : Symbol × Cursor :=
  finishBlock src (.lod x.1.1) brace x.1.2.1 x.1.2.2 (checkBrace brace x.1.2.2 x.2)

theorem lodOf_onward (src : Source) (brace : Token) (x : (LodScope × Clause × Option Range) × Cursor) :
    Cursor.Onward x.2 (lodOf src brace x).2 :=
  (checkBrace_onward brace _ x.2).trans (.finish src _ _)

theorem symbols_lodInside (x : LodScope × Clause × Option Range) : symbols x = x.2.1.symbols := by
  have h : symbols x = symbols x.1 ++ (symbols x.2.1 ++ symbols x.2.2) := rfl
  rw [h, symbols_option_range, List.append_nil]
  rfl

theorem checkBrace_twin (brace : Token) (stop : Option Range) (hc : m.Twin c₁ c₂) :
    m.Twin (checkBrace brace stop c₁) (checkBrace (brace.shifted m.bytes) (move m.bytes m.lines stop) c₂) := by
  unfold checkBrace
  cases stop with
  | none => exact hc.fault .openBrace _ rfl (by simp [Cause.code])
  | some r => exact hc

theorem lodOf_sim (hm : m.Sound) {brace : Token} (hb : m.Past brace.range)
    {x₁ x₂ : (LodScope × Clause × Option Range) × Cursor} (hx : m.Sim x₁ x₂) :
    m.Sim (lodOf m.src₁ brace x₁) (lodOf m.src₂ (brace.shifted m.bytes) x₂) := by
  refine hx.next (lodOf_onward ..) (lodOf_onward ..) (fun s hs => mem_walkAll_one ?_) fun hmove htwin hcalm => ?_
  · rw [symbols_lodInside] at hs
    exact hs
  · rw [symbols_lodInside] at hcalm
    unfold lodOf
    rw [hmove]
    exact finishBlock_sim hm (.lod x₁.1.1) hb hcalm x₁.1.2.2 (checkBrace_twin brace x₁.1.2.2 htwin)

theorem lodBlock_sim (hm : m.Sound) (h : m.SimExpression expr₁ expr₂) {brace : Token} (hb : m.Past brace.range) :
    m.Sims (lodBlock m.src₁ expr₁ brace) (lodBlock m.src₂ expr₂ (brace.shifted m.bytes)) :=
  fun c₁ c₂ hc => lodOf_sim hm hb (((lodBody_sim hm h brace).inside .rightBrace).inScope .lod c₁ c₂ hc)

/-- The sign `t`, which has been taken, with its symbol. -/
def signOf (src : Source) (t : Token) (c : Cursor) : (Token × List Symbol) × Cursor :=
  ((t, (operatorSymbol src t c).1), (operatorSymbol src t c).2)

theorem sign?_of_sign {src : Source} {c : Cursor} {l : Lexeme} {ls : List Lexeme} (hl : c.rest = l :: ls)
    (hs : isSign l.token.kind = true) : sign? src c = some (signOf src l.token c.advance) := by
  simp only [sign?, Cursor.kind?, Cursor.take?, hl, List.head?_cons, Option.map_some, Option.any_some, hs, if_true]
  rfl

theorem sign?_eq_none {src : Source} {c : Cursor} (h : c.kind?.any isSign = false) : sign? src c = none := by
  simp [sign?, h]

/-- Where both see the same lexeme, both take it for a sign or none does. -/
theorem sign?_sim (hm : m.Sound) (hc : m.Twin c₁ c₂) {l : Lexeme} {ls₁ ls₂ : List Lexeme} (h₁ : c₁.rest = l :: ls₁)
    (h₂ : c₂.rest = l.shifted m.bytes :: ls₂) : m.Sim? (sign? m.src₁ c₁) (sign? m.src₂ c₂) := by
  by_cases hs : isSign l.token.kind = true
  · rw [sign?_of_sign h₁ hs, sign?_of_sign h₂ hs]
    refine .inr ⟨_, _, rfl, rfl, ?_⟩
    have hk : l.token.kind ≠ .identifier := by
      intro hk
      simp [hk, isSign] at hs
    rcases hc.advance hm h₁ hk with hlost | ⟨htwin, hpast⟩
    · exact .lost hlost (operatorSymbol_onward m.src₁ l.token _)
    · exact (operatorSymbol_sim hm htwin hpast).map (fun ss => (l.token, ss))
        (fun ss => (l.token.shifted m.bytes, ss)) (fun _ => rfl) (fun _ => rfl)
  · rw [Bool.not_eq_true] at hs
    rw [sign?_eq_none (by simp [Cursor.kind?, h₁, hs]), sign?_eq_none (by simp [Cursor.kind?, h₂, hs])]
    exact .inl ⟨rfl, rfl⟩

theorem nextSign?_sim (hm : m.Sound) : m.Sims? (nextSign? m.src₁) (nextSign? m.src₂) := by
  intro c₁ c₂ hc
  unfold nextSign?
  cases hc.heads hm with
  | none h₁ h₂ =>
    rw [sign?_eq_none (by simp [Cursor.kind?, h₁]), sign?_eq_none (by simp [Cursor.kind?, h₂]), ite_self, ite_self]
    exact .inl ⟨rfl, rfl⟩
  | blank l ls h₁ h₂ hb hs =>
    have hblank : c₂.afterBlank = true := by simp [Cursor.afterBlank, h₂, hb]
    rw [sign?_eq_none (by simp [Cursor.kind?, h₁]), ite_self, if_pos hblank]
    exact .inl ⟨rfl, rfl⟩
  | same l ls₁ ls₂ h₁ h₂ hl =>
    have hblank : c₂.afterBlank = c₁.afterBlank := by simp [Cursor.afterBlank, h₁, h₂]
    rw [hblank]
    by_cases hb : c₁.afterBlank = true
    · rw [if_pos hb, if_pos hb]
      exact .inl ⟨rfl, rfl⟩
    · rw [if_neg hb, if_neg hb]
      exact sign?_sim hm hc h₁ h₂

theorem Twin.head_of_start (hm : m.Sound) (hc : m.Twin c₁ c₂) (ha : AtStart c₁) :
    ∃ l ls₁ ls₂, c₁.rest = l :: ls₁ ∧ c₂.rest = l.shifted m.bytes :: ls₂ := by
  obtain ⟨l, ls, hl, -⟩ := atStart_iff.mp ha
  cases hc.heads hm with
  | none h₁ h₂ =>
    rw [h₁] at hl
    cases hl
  | blank l ls h₁ h₂ hb hs =>
    rw [h₁] at hl
    cases hl
  | same l ls₁ ls₂ h₁ h₂ hl => exact ⟨l, ls₁, ls₂, h₁, h₂⟩

theorem signs_sim (hm : m.Sound) (hc : m.Twin c₁ c₂) (ha : AtStart c₁) :
    m.Sim (signs m.src₁ c₁) (signs m.src₂ c₂) := by
  obtain ⟨l, ls₁, ls₂, h₁, h₂⟩ := hc.head_of_start hm ha
  unfold signs
  rcases sign?_sim hm hc h₁ h₂ with ⟨e₁, e₂⟩ | ⟨y₁, y₂, e₁, e₂, hsim⟩
  · rw [e₁, e₂]
    exact .same rfl hc calm_nil
  · rw [e₁, e₂]
    exact hsim.both (fun a as => a :: as) (fun a as => a :: as) symbols_cons (fun _ _ => rfl)
      ((nextSign?_onward m.src₁).many _) ((nextSign?_onward m.src₂).many _)
      ((nextSign?_sim hm).many (nextSign?_takes m.src₁) (nextSign?_takes m.src₂) (nextSign?_onward m.src₁)
        (nextSign?_onward m.src₂) _ _)

/-- Behind a word both see a parenthesis or none does, unless the shared lexemes end with the word. -/
theorem paren_seen (hm : m.Sound) {pre : List Lexeme} {l : Lexeme} (hl : m.before = pre ++ l :: v)
    (hk : l.token.kind = .identifier) (hc : m.TwinAt v c₁ c₂) :
    c₂.isAt .leftParen = c₁.isAt .leftParen := by
  cases hc.toRaw.heads hm with
  | none h₁ h₂ => simp [Cursor.isAt, Cursor.kind?, h₁, h₂]
  | same x ls₁ ls₂ h₁ h₂ hx => simp [Cursor.isAt, Cursor.kind?, h₁, h₂]
  | blank x ls h₁ h₂ hb hs =>
    have hnil : v = [] ∧ m.rest₁ = [] := List.append_eq_nil_iff.mp (hc.rest₁.symm.trans h₁)
    have hrest₂ : m.rest₂ = x :: ls := by
      have h := hc.rest₂
      rw [hnil.1, h₂] at h
      exact h.symm
    have hno : startsWith .leftParen m.rest₂ = false := by
      rw [Bool.eq_false_iff]
      intro hparen
      refine hc.call hnil.1 ⟨⟨pre, l, hnil.1 ▸ hl, hk⟩, ?_, hparen⟩
      simp [startsWith, hnil.2]
    have hx : x.token.kind ≠ .leftParen := by simpa [startsWith, hrest₂] using hno
    simp [Cursor.isAt, Cursor.kind?, h₁, h₂, hx]

/-- A word is a call for both readings or for none, or it is the last shared lexeme and a call for the second
reading alone. -/
theorem word_sim (hm : m.Sound) (h : m.SimExpression expr₁ expr₂) {pre : List Lexeme} {l : Lexeme}
    (hl : m.before = pre ++ l :: v) (hk : l.token.kind = .identifier) (hpast : m.Past l.token.range)
    (hc : m.Raw v c₁ c₂) :
    m.Sim (word m.src₁ expr₁ l.token c₁) (word m.src₂ expr₂ (l.token.shifted m.bytes) c₂) := by
  by_cases hopen : v = [] ∧ m.OpenCall
  · obtain ⟨rfl, hcall⟩ := hopen
    have hrest₂ : c₂.rest = m.rest₂ := hc.rest₂
    refine .inr (.inr ⟨?_, .inr (.inl hcall)⟩)
    obtain ⟨x, ls, hx⟩ : ∃ x ls, m.rest₂ = x :: ls := by
      cases hrest : m.rest₂ with
      | nil => simp [OpenCall, startsWith, hrest] at hcall
      | cons x ls => exact ⟨x, ls, rfl⟩
    have hparen : x.token.kind = .leftParen := by simpa [startsWith, hx] using hcall.2.2
    have heat : c₂.eat? .leftParen = some (x.token, c₂.advance) := by
      simp [Cursor.eat?, Cursor.isAt, Cursor.kind?, Cursor.take?, hrest₂, hx, hparen]
    have hlt := Cursor.length_advance (hrest₂.trans hx)
    rw [hrest₂] at hlt
    unfold word
    rw [heat]
    exact Lost₂.onward hlt (call_onward m.src₂ h.second _ _ _)
  · have htwin : m.TwinAt v c₁ c₂ := ⟨hc, fun hv hcall => hopen ⟨hv, hcall⟩⟩
    have hmet := Twin.take_of hm ⟨v, htwin⟩ (p := fun c => c.isAt .leftParen) (paren_seen hm hl hk htwin)
      fun hat => ⟨.leftParen, beq_iff_eq.mp hat, by simp⟩
    have heat₁ : (if c₁.isAt .leftParen then c₁.take? else none) = c₁.eat? .leftParen := rfl
    have heat₂ : (if c₂.isAt .leftParen then c₂.take? else none) = c₂.eat? .leftParen := rfl
    unfold word
    rw [heat₁, heat₂] at hmet
    rcases hmet with ⟨h₁, h₂⟩ | ⟨t, d₁, d₂, h₁, h₂, hd⟩
    · rw [h₁, h₂]
      exact bareIdentifier_sim hm ⟨v, htwin⟩ hpast
    · rw [h₁, h₂]
      rcases hd with hlost | ⟨htwin', -⟩
      · exact .lost hlost (call_onward m.src₁ h.first l.token t d₁)
      · exact call_sim hm h t hpast htwin'

theorem primary_sim (hm : m.Sound) (h : m.SimExpression expr₁ expr₂) {pre : List Lexeme} {l : Lexeme}
    (hl : m.before = pre ++ l :: v) (hpast : m.Past l.token.range) (hc : m.Raw v c₁ c₂) :
    m.Sim (primary m.src₁ expr₁ l.token c₁) (primary m.src₂ expr₂ (l.token.shifted m.bytes) c₂) := by
  by_cases hk : l.token.kind = .identifier
  · have hword := word_sim hm h hl hk hpast hc
    unfold primary
    rw [Token.kind_shifted, hk]
    exact hword.one
  · have htwin := hc.twinAt hl hk
    unfold primary
    rw [Token.kind_shifted]
    cases hkind : l.token.kind with
    | identifier => exact absurd hkind hk
    | field => exact (fieldReference_sim hm htwin hl hpast).one
    | leftParen => exact grouping_sim hm h false l.token c₁ c₂ ⟨v, htwin⟩
    | leftBrace => exact (lodBlock_sim hm h hpast c₁ c₂ ⟨v, htwin⟩).one
    | if_ => exact (ifBlock_sim hm h hpast c₁ c₂ ⟨v, htwin⟩).one
    | case_ => exact (caseBlock_sim hm h hpast c₁ c₂ ⟨v, htwin⟩).one
    | _ => exact (literal_sim hm ⟨v, htwin⟩ hpast).one

theorem flatMap_words (signs : List (Token × List Symbol)) : signs.flatMap (·.2) = symbols signs := by
  induction signs with
  | nil => rfl
  | cons a as ih =>
    have h : symbols a = a.2 := symbols_list a.2
    rw [List.flatMap_cons, ih, symbols_cons, h]

theorem words_move (bytes lines : Nat) (signs : List (Token × List Symbol)) :
    symbols (move bytes lines signs) = move bytes lines (symbols signs) := by
  induction signs with
  | nil => rfl
  | cons a as ih =>
    have h : symbols (move bytes lines a) = move bytes lines (symbols a) := by
      show symbols (move bytes lines a.2) = move bytes lines (symbols a.2)
      rw [symbols_list, symbols_list]
    rw [move_cons, symbols_cons, symbols_cons, move_append, ih, h]

/-- The operand that starts with `t`, behind some signs. -/
def operandOf (src : Source) (expr : ReadExpression) (signs : List (Token × List Symbol)) (t : Token) (c : Cursor) :
    List Symbol × Cursor :=
  (signs.flatMap (·.2) ++ (primary src expr t c).1, (primary src expr t c).2)

theorem signed_readable {src : Source} {expr : ReadExpression} {signs : List (Token × List Symbol)} {c : Cursor}
    {l : Lexeme} {ls : List Lexeme} (hl : c.rest = l :: ls) (hs : l.token.kind.startsExpression = true)
    (hb : signs = [] ∨ l.afterBlank = false) :
    signed src expr signs c = operandOf src expr signs l.token c.advance := by
  have hread : (c.kind?.any Token.Kind.startsExpression &&
      !((signs.getLast?.map (·.1)).isSome && c.afterBlank)) = true := by
    rcases hb with rfl | hb
    · simp [Cursor.kind?, hl, hs]
    · simp [Cursor.kind?, Cursor.afterBlank, hl, hs, hb]
  have htake : c.take? = some (l.token, c.advance) := by simp [Cursor.take?, hl]
  unfold signed
  simp only [hread, if_true, htake]
  rfl

theorem signed_unreadable {src : Source} {expr : ReadExpression} {signs : List (Token × List Symbol)} {c : Cursor}
    {op : Token} (hlast : signs.getLast?.map (·.1) = some op) (ha : c.atOperand = false) :
    signed src expr signs c = (signs.flatMap (·.2), c.fault (.missingExpression op.kind) op.range) := by
  have hread : (c.kind?.any Token.Kind.startsExpression && !((some op).isSome && c.afterBlank)) = false := by
    simpa [Cursor.atOperand] using ha
  unfold signed
  simp only [hlast, hread]
  rfl

theorem signed_sim (hm : m.Sound) (h : m.SimExpression expr₁ expr₂) {signs : List (Token × List Symbol)}
    (hcalm : m.Calm (symbols signs)) (hc : m.Twin c₁ c₂) (hstart : signs = [] → AtStart c₁) :
    m.Sim (signed m.src₁ expr₁ signs c₁) (signed m.src₂ expr₂ (move m.bytes m.lines signs) c₂) := by
  have hoperand := hc.atOperand hm
  by_cases hread : signs = [] ∨ c₁.atOperand = true
  · have ha : AtStart c₁ := hread.elim hstart atStart_of_atOperand
    obtain ⟨l, ls, hl, hs⟩ := atStart_iff.mp ha
    have hb : signs = [] ∨ l.afterBlank = false := by
      refine hread.imp id fun hat => ?_
      simp only [Cursor.atOperand, Cursor.afterBlank, hl, Bool.and_eq_true] at hat
      simpa using hat.2
    rw [signed_readable hl hs hb]
    obtain ⟨v, hv⟩ := hc
    cases v with
    | nil =>
      have hlost : m.Lost₁ c₁.advance := lost_of_takes hv.rest₁ (Cursor.length_advance hl)
      exact .lost hlost (primary_onward m.src₁ h.first l.token _)
    | cons x v =>
      obtain ⟨rfl, -⟩ : x = l ∧ v ++ m.rest₁ = ls := List.cons.inj (hv.rest₁.symm.trans hl)
      obtain ⟨pre, hpre⟩ := hv.left
      have hb₂ : move m.bytes m.lines signs = [] ∨ (x.shifted m.bytes).afterBlank = false :=
        hb.imp (fun he => by rw [he]; rfl) id
      have h₂ : signed m.src₂ expr₂ (move m.bytes m.lines signs) c₂ =
          operandOf m.src₂ expr₂ (move m.bytes m.lines signs) (x.token.shifted m.bytes) c₂.advance :=
        signed_readable hv.rest₂ hs hb₂
      rw [h₂]
      have hprimary := primary_sim hm h hpre (hv.past hm) (hv.toRaw.advance hm)
      refine hprimary.next (.refl _) (.refl _) (fun s hs => ?_) fun hmove htwin hcalm' => ?_
      · rw [symbols_list] at hs
        simp only [operandOf, symbols_list, Symbol.walkAll_append, List.mem_append]
        exact .inr hs
      · rw [symbols_list] at hcalm'
        refine .same ?_ htwin ?_
        · rw [hmove, flatMap_words, flatMap_words, words_move, move_append]
        · rw [symbols_list, calm_append, flatMap_words]
          exact ⟨hcalm, hcalm'⟩
  · rw [not_or, Bool.not_eq_true] at hread
    obtain ⟨hne, ha⟩ := hread
    obtain ⟨op, hop⟩ : ∃ op, signs.getLast?.map (·.1) = some op := by
      cases hlast : signs.getLast? with
      | none => exact absurd (List.getLast?_eq_none_iff.mp hlast) hne
      | some x => exact ⟨x.1, rfl⟩
    have hop₂ : (move m.bytes m.lines signs).getLast?.map (·.1) = some (op.shifted m.bytes) := by
      obtain ⟨x, hx, rfl⟩ := Option.map_eq_some_iff.mp hop
      have hlast : (move m.bytes m.lines signs).getLast? = some (move m.bytes m.lines x) := by
        show (signs.map _).getLast? = _
        rw [List.getLast?_map, hx]
        rfl
      rw [hlast]
      rfl
    rw [signed_unreadable hop ha, signed_unreadable hop₂ (hoperand.trans ha)]
    refine .same ?_ (hc.fault (.missingExpression op.kind) _ rfl (by simp [Cause.code])) ?_
    · rw [flatMap_words, flatMap_words, words_move]
    · rw [symbols_list, flatMap_words]
      exact hcalm

theorem words_kept (src : Source) (expr : ReadExpression) (signs : List (Token × List Symbol)) (c : Cursor) :
    ∃ ss, (signed src expr signs c).1 = symbols signs ++ ss := by
  unfold signed
  rw [flatMap_words]
  dsimp only
  split
  · exact ⟨_, rfl⟩
  · split
    · exact ⟨[], (List.append_nil _).symm⟩
    · exact ⟨[], (List.append_nil _).symm⟩

theorem operand_sim (hm : m.Sound) (h : m.SimExpression expr₁ expr₂) (hc : m.Twin c₁ c₂) (ha : AtStart c₁) :
    m.Sim (operand m.src₁ expr₁ c₁) (operand m.src₂ expr₂ c₂) := by
  refine (signs_sim hm hc ha).next (signed_onward m.src₁ h.first _ _) (signed_onward m.src₂ h.second _ _) ?_ ?_
  · intro s hs
    obtain ⟨ss, hss⟩ := words_kept m.src₁ expr₁ (signs m.src₁ c₁).1 (signs m.src₁ c₁).2
    have he : (operand m.src₁ expr₁ c₁).1 = symbols (signs m.src₁ c₁).1 ++ ss := hss
    rw [symbols_list, he, Symbol.walkAll_append]
    exact List.mem_append_left _ hs
  · intro hmove htwin hcalm
    have hsigned := signed_sim hm h hcalm htwin fun hnil => by rw [signs_nil hnil]; exact ha
    rw [← hmove] at hsigned
    exact hsigned

/-- The list that may stand behind IN: its parenthesis must not be behind a blank line. -/
theorem list_seen (hm : m.Sound) (kind : Token.Kind) (hc : m.Twin c₁ c₂) :
    m.Met (if kind = .in_ ∧ !c₁.afterBlank then c₁.eat? .leftParen else none)
      (if kind = .in_ ∧ !c₂.afterBlank then c₂.eat? .leftParen else none) := by
  have heq (c : Cursor) : (if kind = .in_ ∧ !c.afterBlank then c.eat? .leftParen else none) =
      if (kind == .in_ && !c.afterBlank && c.isAt .leftParen) then c.take? else none := by
    by_cases hin : kind = .in_ <;> by_cases hb : c.afterBlank = true <;> simp [hin, hb, Cursor.eat?]
  rw [heq, heq]
  refine hc.take_of hm (p := fun c => kind == .in_ && !c.afterBlank && c.isAt .leftParen) ?_ ?_
  · cases hc.heads hm with
    | none h₁ h₂ => simp [Cursor.isAt, Cursor.kind?, h₁, h₂]
    | blank l ls h₁ h₂ hb hs => simp [Cursor.isAt, Cursor.kind?, Cursor.afterBlank, h₁, h₂, hb]
    | same l ls₁ ls₂ h₁ h₂ hl => simp [Cursor.isAt, Cursor.kind?, Cursor.afterBlank, h₁, h₂]
  · intro hp
    simp only [Bool.and_eq_true] at hp
    exact ⟨.leftParen, beq_iff_eq.mp hp.2, by simp⟩

theorem rightSide_sim (hm : m.Sound) (h : m.SimExpression expr₁ expr₂) (place : Place) (op : Token) :
    m.Sims (rightSide m.src₁ expr₁ place op) (rightSide m.src₂ expr₂ place (op.shifted m.bytes)) := by
  intro c₁ c₂ hc
  unfold rightSide
  rw [Token.kind_shifted]
  rcases list_seen hm op.kind hc with ⟨h₁, h₂⟩ | ⟨t, d₁, d₂, h₁, h₂, hd⟩
  · rw [h₁, h₂]
    dsimp only
    rw [hc.atOperand hm]
    by_cases ha : c₁.atOperand = true
    · rw [if_pos ha, if_pos ha]
      exact operand_sim hm h hc (atStart_of_atOperand ha)
    · rw [if_neg ha, if_neg ha]
      exact .same rfl (hc.fault (.missingOperand op.kind place) _ rfl (by simp [Cause.code])) calm_nil
  · rw [h₁, h₂]
    rcases hd with hlost | ⟨htwin, -⟩
    · exact .lost hlost (grouping_onward h.first true t d₁)
    · exact grouping_sim hm h true t d₁ d₂ htwin

theorem link?_sim (hm : m.Sound) (h : m.SimExpression expr₁ expr₂) (place : Place) :
    m.Sims? (link? m.src₁ expr₁ place) (link? m.src₂ expr₂ place) := by
  intro c₁ c₂ hc
  unfold link?
  rcases hc.operator hm with ⟨h₁, h₂⟩ | ⟨op, d₁, d₂, h₁, h₂, hd⟩
  · rw [h₁, h₂]
    exact .inl ⟨rfl, rfl⟩
  · rw [h₁, h₂]
    refine .inr ⟨_, _, rfl, rfl, ?_⟩
    have ho₁ := rightSide_onward m.src₁ h.first place op
    rcases hd with hlost | ⟨htwin, hpast⟩
    · exact .lost hlost ((operatorSymbol_onward m.src₁ op d₁).trans (ho₁ _))
    · exact (operatorSymbol_sim hm htwin hpast).both (fun a b => a ++ b) (fun a b => a ++ b) (fun a b => by simp)
        (fun a b => by simp) (ho₁ _) (rightSide_onward m.src₂ h.second place _ _) (rightSide_sim hm h place op _ _)

theorem chain_sim (hm : m.Sound) (h : m.SimExpression expr₁ expr₂) (place : Place) (hc : m.Twin c₁ c₂)
    (ha : AtStart c₁) : m.Sim (chain m.src₁ expr₁ place c₁) (chain m.src₂ expr₂ place c₂) := by
  have ho₁ := link?_onward m.src₁ h.first place
  have ho₂ := link?_onward m.src₂ h.second place
  exact (operand_sim hm h hc ha).both (fun first more => first ++ more.flatten)
    (fun first more => first ++ more.flatten) (fun a b => by simp) (fun a b => by simp) (ho₁.many _) (ho₂.many _)
    ((link?_sim hm h place).many (link?_takes _ h.first place) (link?_takes _ h.second place) ho₁ ho₂ _ _)

theorem expression_sim (hm : m.Sound) (levels : Nat) :
    m.SimExpression (expression m.src₁ levels) (expression m.src₂ levels) := by
  refine ⟨expression_steady m.src₁ levels, expression_steady m.src₂ levels, ?_⟩
  induction levels with
  | zero => exact fun place c₁ c₂ hc ha => tooDeep_sim hm place hc ha
  | succ levels ih =>
    intro place c₁ c₂ hc ha
    exact chain_sim hm ⟨expression_steady m.src₁ levels, expression_steady m.src₂ levels, ih⟩ place hc ha

theorem statement_sim (hm : m.Sound) (hc : m.Twin c₁ c₂) {l : Lexeme} {ls₁ ls₂ : List Lexeme}
    (h₁ : c₁.rest = l :: ls₁) (h₂ : c₂.rest = l.shifted m.bytes :: ls₂) :
    m.Sim (statement m.src₁ c₁) (statement m.src₂ c₂) := by
  have hk₁ : c₁.kind?.any Token.Kind.startsExpression = l.token.kind.startsExpression := by
    simp [Cursor.kind?, h₁]
  have hk₂ : c₂.kind?.any Token.Kind.startsExpression = l.token.kind.startsExpression := by
    simp [Cursor.kind?, h₂]
  unfold statement
  rw [hk₁, hk₂, hm.options]
  by_cases hs : l.token.kind.startsExpression = true
  · rw [if_pos hs, if_pos hs]
    exact (expression_sim hm _).sim .topLevel c₁ c₂ hc (hk₁.trans hs)
  · rw [if_neg hs, if_neg hs]
    rw [Bool.not_eq_true] at hs
    rcases strayTokens_sim hm h₁ hs hc with hlost | htwin
    · exact .inl hlost
    · exact .same rfl htwin calm_nil

end Calculation.Seam
