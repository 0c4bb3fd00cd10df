import Calculation.Proofs.Reading.Derived

namespace Calculation

namespace Branch

variable {kinds : List BranchKind} {as bs : List Branch}

theorem followed_nil : Followed kinds [] := by
  intro i b hb
  cases hb

theorem followed_singleton {b : Branch} : Followed kinds [b] ↔ b.kind ∉ kinds := by
  constructor
  · intro h hb
    obtain ⟨t, ht, -⟩ := h 0 b rfl hb
    cases ht
  · intro h i x hx hk
    cases i with
    | zero =>
      cases hx
      exact absurd hk h
    | succ i => cases hx

theorem followed_pair {b t : Branch} (ht : t.kind = .then_) (hn : .then_ ∉ kinds) : Followed kinds [b, t] := by
  intro i x hx hk
  match i, hx with
  | 0, _ => exact ⟨t, rfl, ht⟩
  | 1, hx =>
    cases hx
    exact absurd (ht ▸ hk) hn

/-- Where no THEN stands at the front of the second row, each row decides for itself. -/
theorem followed_append (hb : ∀ b ∈ bs.head?, b.kind ≠ .then_) :
    Followed kinds (as ++ bs) ↔ Followed kinds as ∧ Followed kinds bs := by
  constructor
  · intro h
    refine ⟨fun i b hi hk => ?_, fun i b hi hk => ?_⟩
    · have hlt := (List.getElem?_eq_some_iff.mp hi).1
      obtain ⟨t, ht, htk⟩ := h i b (by rw [List.getElem?_append_left hlt]; exact hi) hk
      by_cases hlt' : i + 1 < as.length
      · exact ⟨t, by rwa [List.getElem?_append_left hlt'] at ht, htk⟩
      · rw [List.getElem?_append_right (by omega), show i + 1 - as.length = 0 by omega] at ht
        exact absurd htk (hb t (by rw [List.head?_eq_getElem?]; exact ht))
    · obtain ⟨t, ht, htk⟩ := h (as.length + i) b (by rw [List.getElem?_append_right (by omega)]; simpa using hi) hk
      rw [List.getElem?_append_right (by omega), show as.length + i + 1 - as.length = i + 1 by omega] at ht
      exact ⟨t, ht, htk⟩
  · rintro ⟨ha, hb'⟩ i b hi hk
    by_cases hlt : i < as.length
    · rw [List.getElem?_append_left hlt] at hi
      obtain ⟨t, ht, htk⟩ := ha i b hi hk
      have hlt' := (List.getElem?_eq_some_iff.mp ht).1
      exact ⟨t, by rwa [List.getElem?_append_left hlt'], htk⟩
    · rw [List.getElem?_append_right (by omega)] at hi
      obtain ⟨t, ht, htk⟩ := hb' _ b hi hk
      refine ⟨t, ?_, htk⟩
      rwa [List.getElem?_append_right (by omega), show i + 1 - as.length = i - as.length + 1 by omega]

end Branch

namespace Statement
open Cursor Reading

variable {src : Source} {expr : ReadExpression} {behind : List Range} {c d e : Cursor} {t keyword : Token}
  {kinds : List BranchKind} {a b : Clause}

/-- A clause is complete when a THEN follows each of its conditions; none comes first. -/
structure Clause.Paired (kinds : List BranchKind) (a : Clause) : Prop where
  head : ∀ b ∈ a.branches.head?, b.kind ≠ .then_
  complete : a.isComplete = true ↔ Branch.Followed kinds a.branches

theorem Clause.Paired.append (ha : a.Paired kinds) (hb : b.Paired kinds) : (a.append b).Paired kinds := by
  refine ⟨fun x hx => ?_, ?_⟩
  · rw [Clause.append, List.head?_append, Option.mem_def, Option.or_eq_some_iff] at hx
    rcases hx with hx | ⟨-, hx⟩
    · exact ha.head x hx
    · exact hb.head x hx
  · rw [Clause.append, Branch.followed_append hb.head, ← ha.complete, ← hb.complete, Bool.and_eq_true]

theorem Clause.Paired.join {as : List Clause} (h : ∀ a ∈ as, a.Paired kinds) : (Clause.join as).Paired kinds := by
  induction as with
  | nil => exact ⟨by simp [Clause.join], by simpa [Clause.join] using Branch.followed_nil⟩
  | cons a as ih =>
    obtain ⟨ha, has⟩ := List.forall_mem_cons.mp h
    rw [Clause.join_cons]
    exact ha.append (ih has)

theorem branch_paired (expr : ReadExpression) (place : Place) {kind : BranchKind} (keyword : Token) (c : Cursor)
    (hk : kind ∉ kinds) (ht : kind ≠ .then_) : (branch expr place kind keyword c).1.Paired kinds := by
  refine ⟨?_, ?_⟩
  · rintro b hb
    cases hb
    exact ht
  · exact iff_of_true rfl (Branch.followed_singleton.mpr hk)

/-- A condition is complete when its THEN is there. -/
theorem condition_paired (expr : ReadExpression) (place : Place) {kind : BranchKind} (keyword : Token) (c : Cursor)
    (hk : kind ∈ kinds) (hn : .then_ ∉ kinds) : (condition expr place kind keyword c).1.Paired kinds := by
  have hkind : kind ≠ .then_ := fun h => hn (h ▸ hk)
  unfold condition thenClause
  dsimp only
  split
  · refine ⟨?_, ?_⟩
    · rintro b hb
      cases hb
      exact hkind
    · exact iff_of_true rfl (Branch.followed_pair rfl hn)
  · refine ⟨?_, ?_⟩
    · rintro b hb
      cases hb
      exact hkind
    · exact iff_of_false (by simp [Clause.append]) fun h => Branch.followed_singleton.mp h hk

theorem nextClause?_paired (src : Source) (expr : ReadExpression) (place : Place) (keyword : Token.Kind)
    {kind : BranchKind} (hk : kind ∈ kinds) (hn : .then_ ∉ kinds) (he : .else_ ∉ kinds)
    (h : nextClause? src expr place keyword kind c = some (a, d)) : a.Paired kinds := by
  unfold nextClause? at h
  split at h
  · cases h
  · split at h
    · cases h
    · dsimp only at h
      split at h
      · cases h
      · split at h
        · have hp := condition_paired expr place (‹Lexeme›).token c.advance hk hn
          rw [Option.some.inj h] at hp
          exact hp
        · split at h
          · have hp := branch_paired expr place (‹Lexeme›).token c.advance he (by simp)
            rw [Option.some.inj h] at hp
            exact hp
          · cases h
            exact ⟨by simp, iff_of_true rfl Branch.followed_nil⟩

/-- What many readings give has what each of them gives. -/
theorem forall_mem_many {α : Type} {read? : Cursor → Option (α × Cursor)} {P : α → Prop}
    (h : ∀ c a d, read? c = some (a, d) → P a) (c : Cursor) : ∀ a ∈ (c.many read?).1, P a := by
  refine many_rule (P := fun _ as _ => ∀ a ∈ as, P a) (by simp) ?_ c
  intro c a d as e hr has
  exact List.forall_mem_cons.mpr ⟨h c a d hr, has⟩

theorem clauses_paired (src : Source) (expr : ReadExpression) (place : Place) (keyword : Token.Kind)
    {kind : BranchKind} (hk : kind ∈ kinds) (hn : .then_ ∉ kinds) (he : .else_ ∉ kinds) (c : Cursor) :
    (Clause.join (c.many (nextClause? src expr place keyword kind)).1).Paired kinds :=
  .join (forall_mem_many (fun _ _ _ h => nextClause?_paired src expr place keyword hk hn he h) c)

theorem ifBody_paired (src : Source) (expr : ReadExpression) (opener : Token) (c : Cursor) :
    (ifBody src expr opener c).1.Paired [.if_, .elseIf] := by
  have hn : BranchKind.then_ ∉ [BranchKind.if_, .elseIf] := by simp
  have hhead : (condition expr .ifBlock .if_ opener c).1.Paired [.if_, .elseIf] :=
    condition_paired expr .ifBlock opener c (by simp) hn
  exact hhead.append (clauses_paired src expr .ifBlock .elseIf (by simp) hn (by simp) _)

theorem caseBody_paired (src : Source) (expr : ReadExpression) (opener : Token) (c : Cursor) :
    (caseBody src expr opener c).1.Paired [.when_] := by
  have hhead : (branch expr .caseBlock .case_ opener c).1.Paired [.when_] :=
    branch_paired expr .caseBlock opener c (by simp) (by simp)
  exact hhead.append (clauses_paired src expr .caseBlock .when_ (by simp) (by simp) (by simp) _)

/-- A clause is complete when it has an aggregate expression. -/
def Clause.Aggregated (a : Clause) : Prop :=
  a.isComplete = true ↔ ∃ b ∈ a.branches, b.kind = .aggregate

theorem dimensions_branches (expr : ReadExpression) (keyword : Token) (c : Cursor) :
    (dimensions expr keyword c).1.isComplete = true ∧
      ∀ b ∈ (dimensions expr keyword c).1.branches, b.kind ≠ .aggregate := by
  unfold dimensions
  split
  · simp
  · simp [Clause.empty]

theorem aggregate_aggregated (expr : ReadExpression) (keyword : Token) (c : Cursor) :
    (aggregate expr keyword c).1.Aggregated := by
  unfold aggregate Clause.Aggregated
  split
  · simp [branch]
  · simp

/-- What is complete and has no aggregate expression decides nothing. -/
theorem Clause.Aggregated.append (ha : a.isComplete = true) (hn : ∀ x ∈ a.branches, x.kind ≠ .aggregate)
    (hb : b.Aggregated) : (a.append b).Aggregated := by
  unfold Clause.Aggregated at hb ⊢
  simp only [Clause.append, ha, Bool.true_and, hb, List.mem_append]
  constructor
  · rintro ⟨x, hx, hk⟩
    exact ⟨x, .inr hx, hk⟩
  · rintro ⟨x, hx | hx, hk⟩
    · exact absurd hk (hn x hx)
    · exact ⟨x, hx, hk⟩

theorem lodHead_aggregated (expr : ReadExpression) (brace : Token) (c : Cursor) :
    (lodHead expr brace c).1.2.Aggregated := by
  unfold lodHead
  split
  · rename_i keyword d _ _
    obtain ⟨hc, hn⟩ := dimensions_branches expr keyword d
    exact .append hc hn (aggregate_aggregated expr keyword _)
  · simp [Clause.Aggregated, branch]

theorem skipped_join (src : Source) (expr : ReadExpression) (c : Cursor) :
    (Clause.join (c.many (nextSkipped? src expr)).1).isComplete = true ∧
      (Clause.join (c.many (nextSkipped? src expr)).1).branches = [] := by
  have hall : ∀ a ∈ (c.many (nextSkipped? src expr)).1, a.isComplete = true ∧ a.branches = [] := by
    refine forall_mem_many (fun c a d h => ?_) c
    unfold nextSkipped? at h
    split at h
    · cases h
    · split at h
      · cases h
      · split at h
        · cases h
        · cases h
          exact ⟨rfl, rfl⟩
  refine ⟨List.all_eq_true.mpr fun a ha => (hall a ha).1, List.flatMap_eq_nil_iff.mpr fun a ha => (hall a ha).2⟩

theorem lodBody_aggregated (src : Source) (expr : ReadExpression) (brace : Token) (c : Cursor) :
    (lodBody src expr brace c).1.2.1.Aggregated := by
  have hhead := lodHead_aggregated expr brace c
  obtain ⟨hc, hb⟩ := skipped_join src expr (lodHead expr brace c).2
  have hbody : ((lodHead expr brace c).1.2.append
      (.join ((lodHead expr brace c).2.many (nextSkipped? src expr)).1)).Aggregated := by
    unfold Clause.Aggregated at hhead ⊢
    rw [Clause.append, hc, hb, List.append_nil, Bool.and_true]
    exact hhead
  unfold lodBody
  dsimp only
  split
  · exact hbody
  · exact hbody

/-- A clause is derived, and one that is not complete has met a fault. -/
def Clauses (behind : List Range) (c : Cursor) (a : Clause) (d : Cursor) : Prop :=
  ∃ fs, Yields behind c a.symbols fs d ∧ (a.isComplete = false → fs ≠ [])

theorem Clauses.append (hcd : Clauses behind c a d) (hde : Clauses behind d b e) :
    Clauses behind c (a.append b) e := by
  obtain ⟨fs, hf, ha⟩ := hcd
  obtain ⟨gs, hg, hb⟩ := hde
  refine ⟨fs ++ gs, hf.trans hg, fun h => ?_⟩
  rw [Clause.append, Bool.and_eq_false_iff] at h
  rcases h with h | h
  · exact List.append_ne_nil_of_left_ne_nil (ha h) gs
  · exact List.append_ne_nil_of_right_ne_nil fs (hb h)

theorem Clauses.join {read? : Cursor → Option (Clause × Cursor)}
    (h : ∀ c a d, read? c = some (a, d) → Clauses behind c a d) (c : Cursor) :
    Clauses behind c (.join (c.many read?).1) (c.many read?).2 := by
  refine many_rule (P := fun c as e => Clauses behind c (.join as) e) ?_ ?_ c
  · intro c
    exact ⟨[], .refl behind c, by simp [Clause.join]⟩
  · intro c a d as e hr ih
    exact (h c a d hr).append ih

/-- A clause behind a token that leaves no symbol. -/
theorem Clauses.token (ht : c.take? = some (t, d)) (hk : t.kind.startsConstruct = false)
    (h : Clauses (t.range :: behind) d a e) : Clauses behind c a e := by
  obtain ⟨fs, hf, ha⟩ := h
  exact ⟨fs, hf.token ht hk, ha⟩

theorem required_yields (h : DerivedExpression expr) (place : Place) (hk : keyword.range ∈ behind) :
    Yielding behind (required expr place keyword) := by
  intro c
  unfold required
  split
  · exact h.yields behind place c
  · exact ⟨_, .report hk rfl⟩

theorem branch_clauses (h : DerivedExpression expr) (place : Place) (kind : BranchKind)
    (hk : keyword.range ∈ behind) (c : Cursor) :
    Clauses behind c (branch expr place kind keyword c).1 (branch expr place kind keyword c).2 := by
  obtain ⟨fs, hr⟩ := required_yields h place hk c
  exact ⟨fs, hr, by simp [branch]⟩

theorem thenClause_clauses (h : DerivedExpression expr) (place : Place) (hk : keyword.range ∈ behind) (c : Cursor) :
    Clauses behind c (thenClause expr place keyword c).1 (thenClause expr place keyword c).2 := by
  unfold thenClause
  split
  · rename_i t d he
    obtain ⟨he, hthen⟩ := eat?_eq_some he
    exact .token he (by rw [hthen]; rfl) (branch_clauses h place .then_ List.mem_cons_self d)
  · have hf : Yields behind c [] _ (c.fault (.missingThen keyword.kind) keyword.range) := .report hk rfl
    dsimp only
    split
    · obtain ⟨fs, hx⟩ := h.yields behind place (c.fault (.missingThen keyword.kind) keyword.range)
      exact ⟨_, hf.trans hx, by simp⟩
    · exact ⟨_, hf, by simp⟩

theorem condition_clauses (h : DerivedExpression expr) (place : Place) (kind : BranchKind)
    (hk : keyword.range ∈ behind) (c : Cursor) :
    Clauses behind c (condition expr place kind keyword c).1 (condition expr place kind keyword c).2 :=
  (branch_clauses h place kind hk c).append (thenClause_clauses h place hk _)

theorem skippedClause_clauses (src : Source) (h : DerivedExpression expr) {place : Place} (hp : place.isBlock = true)
    {l : Lexeme} {ls : List Lexeme} (hl : c.rest = l :: ls) :
    Clauses behind c (skippedClause src expr place l.token c).1 (skippedClause src expr place l.token c).2 := by
  obtain ⟨fs, hs⟩ := resync_yields src h hp hl
  exact ⟨fs, hs, by simp [skippedClause]⟩

theorem nextClause?_clauses (src : Source) (h : DerivedExpression expr) {place : Place} (hp : place.isBlock = true)
    {k : Token.Kind} (hk : k.startsConstruct = false) (kind : BranchKind)
    (hd : nextClause? src expr place k kind c = some (a, d)) : Clauses behind c a d := by
  unfold nextClause? at hd
  split at hd
  · cases hd
  · split at hd
    · cases hd
    · rename_i l ls hl
      dsimp only at hd
      split at hd
      · cases hd
      · split at hd
        · rename_i hkind
          have hx : Clauses (l.token.range :: behind) _ _ _ :=
            condition_clauses h place kind List.mem_cons_self c.advance
          rw [Option.some.inj hd] at hx
          exact hx.token (take?_of_rest hl) (hkind ▸ hk)
        · split at hd
          · rename_i helse
            have hx : Clauses (l.token.range :: behind) _ _ _ :=
              branch_clauses h place .else_ List.mem_cons_self c.advance
            rw [Option.some.inj hd] at hx
            exact hx.token (take?_of_rest hl) (by rw [helse]; rfl)
          · have hx : Clauses behind _ _ _ := skippedClause_clauses src h hp hl
            rw [Option.some.inj hd] at hx
            exact hx

/-- The end of a block: there, or missing and reported at the opener. -/
theorem terminator_yields {opener : Token} (ho : opener.range ∈ behind) (c : Cursor) :
    ∃ fs, Yields behind c [] fs (terminator opener c).2 ∧ ((terminator opener c).1.isSome = false → fs ≠ []) := by
  unfold terminator
  split
  · rename_i t d he
    obtain ⟨he, hk⟩ := eat?_eq_some he
    exact ⟨[], (Yields.refl _ d).token he (by rw [hk]; rfl), by simp⟩
  · exact ⟨_, .report ho rfl, by simp⟩

theorem checkWhen_yields {opener : Token} (ho : opener.range ∈ behind) (hasWhen : Bool) (c : Cursor) :
    ∃ fs, Yields behind c [] fs (checkWhen opener hasWhen c) ∧ (hasWhen = false → fs ≠ []) := by
  unfold checkWhen
  cases hasWhen with
  | true => exact ⟨[], .refl behind c, by simp⟩
  | false => exact ⟨_, .report ho rfl, by simp⟩

theorem checkBrace_yields {brace : Token} (ho : brace.range ∈ behind) (stop : Option Range) (c : Cursor) :
    ∃ fs, Yields behind c [] fs (checkBrace brace stop c) ∧ (stop.isSome = false → fs ≠ []) := by
  unfold checkBrace
  split
  · rename_i hs
    exact ⟨[], .refl behind c, by simp [hs]⟩
  · exact ⟨_, .report ho rfl, by simp⟩

/-- A block from what was read of it and how it ends. -/
theorem finishBlock_yields (src : Source) {opener : Token} {kind : BlockKind} {body : Clause} {stop : Option Range}
    {fs gs : List Diagnostic} {f : Cursor} (ht : c.take? = some (opener, d))
    (hk : opener.kind.startsConstruct = true) (hb : Yields [opener.range] d body.symbols fs e)
    (hs : Yields [opener.range] e [] gs f) (hf : body.isComplete = false → fs ++ gs ≠ [])
    (hstop : stop.isSome = false → fs ++ gs ≠ [])
    (hfilled : body.isComplete = true ↔ kind.Filled body.branches) :
    ∃ fs, Yields behind c [(finishBlock src kind opener body stop f).1] fs
      (finishBlock src kind opener body stop f).2 := by
  have hboth := hb.trans hs
  rw [List.append_nil] at hboth
  refine ⟨_, hboth.construct src ht hk rfl fun _ _ => .block rfl ?_ fun h => ?_⟩
  · dsimp only
    rw [Bool.and_eq_true, hfilled, and_comm]
  · rcases Bool.and_eq_false_iff.mp h with h | h
    · exact hf h
    · exact hstop h

theorem ifBlock_yields (src : Source) (h : DerivedExpression expr) {opener : Token}
    (ht : c.take? = some (opener, d)) (hk : opener.kind = .if_) :
    ∃ fs, Yields behind c [(ifBlock src expr opener d).1] fs (ifBlock src expr opener d).2 := by
  have ho : opener.range ∈ [opener.range] := List.mem_singleton_self _
  have hbody : Clauses [opener.range] d (ifBody src expr opener d).1 (ifBody src expr opener d).2 :=
    (condition_clauses h .ifBlock .if_ ho d).append
      (.join (fun _ _ _ hx => nextClause?_clauses src h rfl rfl .elseIf hx) _)
  obtain ⟨fs, hb, hf⟩ := hbody
  obtain ⟨gs, hs, hg⟩ := terminator_yields ho (ifBody src expr opener d).2
  exact finishBlock_yields src ht (by rw [hk]; rfl) hb hs
    (fun h => List.append_ne_nil_of_left_ne_nil (hf h) gs) (fun h => List.append_ne_nil_of_right_ne_nil fs (hg h))
    (ifBody_paired src expr opener d).complete

theorem Clause.Paired.filled (ha : a.Paired [.when_]) :
    (a.isComplete && a.hasWhen) = true ↔ BlockKind.case_.Filled a.branches := by
  rw [BlockKind.Filled, ← ha.complete, Bool.and_eq_true, Clause.hasWhen, List.any_eq_true, and_comm]
  simp

theorem caseBlock_yields (src : Source) (h : DerivedExpression expr) {opener : Token}
    (ht : c.take? = some (opener, d)) (hk : opener.kind = .case_) :
    ∃ fs, Yields behind c [(caseBlock src expr opener d).1] fs (caseBlock src expr opener d).2 := by
  have ho : opener.range ∈ [opener.range] := List.mem_singleton_self _
  have hbody : Clauses [opener.range] d (caseBody src expr opener d).1 (caseBody src expr opener d).2 :=
    (branch_clauses h .caseBlock .case_ ho d).append
      (.join (fun _ _ _ hx => nextClause?_clauses src h rfl rfl .when_ hx) _)
  have hfilled := (caseBody_paired src expr opener d).filled
  unfold caseBlock
  revert hbody hfilled
  generalize caseBody src expr opener d = r
  obtain ⟨body, e⟩ := r
  rintro ⟨fs, hb, hf⟩ hfilled
  dsimp only at hb hf hfilled ⊢
  obtain ⟨ws, hw, hwhen⟩ := checkWhen_yields ho body.hasWhen e
  obtain ⟨gs, hs, hg⟩ := terminator_yields ho (checkWhen opener body.hasWhen e)
  refine finishBlock_yields src ht (by rw [hk]; rfl) hb (hw.trans hs) ?_ ?_ hfilled
  · intro h
    rcases Bool.and_eq_false_iff.mp h with h | h
    · exact List.append_ne_nil_of_left_ne_nil (hf h) _
    · exact List.append_ne_nil_of_right_ne_nil _ (List.append_ne_nil_of_left_ne_nil (hwhen h) _)
  · intro h
    exact List.append_ne_nil_of_right_ne_nil _ (List.append_ne_nil_of_right_ne_nil _ (hg h))

theorem dimensions_yields (h : DerivedExpression expr) (keyword : Token) (c : Cursor) :
    Clauses behind c (dimensions expr keyword c).1 (dimensions expr keyword c).2 := by
  unfold dimensions
  split
  · obtain ⟨fs, hx⟩ := commaList_yields h .lodDimensions c
    exact ⟨fs, hx, by simp⟩
  · exact ⟨[], .refl behind c, by simp [Clause.empty]⟩

theorem aggregate_clauses (h : DerivedExpression expr) (hk : keyword.range ∈ behind) (c : Cursor) :
    Clauses behind c (aggregate expr keyword c).1 (aggregate expr keyword c).2 := by
  unfold aggregate
  split
  · rename_i colon d he
    obtain ⟨he, hkind⟩ := eat?_eq_some he
    exact .token he (by rw [hkind]; rfl) (branch_clauses h .lodBody .aggregate List.mem_cons_self d)
  · exact ⟨_, .report hk rfl, by simp⟩

theorem startsConstruct_of_scope {k : Token.Kind} {scope : LodScope} (h : scopeOf? k = some scope) :
    k.startsConstruct = false := by
  cases k <;> first | rfl | cases h

theorem lodHead_clauses (h : DerivedExpression expr) {brace : Token} (ho : brace.range ∈ behind) (c : Cursor) :
    Clauses behind c (lodHead expr brace c).1.2 (lodHead expr brace c).2 := by
  unfold lodHead
  split
  · rename_i scope keyword d hscope ht
    have hk : keyword.kind.startsConstruct = false := by
      obtain ⟨l, ls, hls, rfl, -⟩ := take?_eq_some ht
      simp only [kind?, hls, List.head?_cons, Option.map_some, Option.bind_some] at hscope
      exact startsConstruct_of_scope hscope
    exact .token ht hk ((dimensions_yields h keyword d).append (aggregate_clauses h List.mem_cons_self _))
  · exact branch_clauses h .lodBody .aggregate ho c

theorem nextSkipped?_clauses (src : Source) (h : DerivedExpression expr) (hd : nextSkipped? src expr c = some (a, d)) :
    Clauses behind c a d := by
  unfold nextSkipped? at hd
  split at hd
  · cases hd
  · split at hd
    · cases hd
    · rename_i l ls hl
      split at hd
      · cases hd
      · have hp : Place.lodBody.isBlock = true := rfl
        have hx : Clauses behind c _ _ := skippedClause_clauses src h hp hl
        rw [Option.some.inj hd] at hx
        exact hx

theorem lodBody_clauses (src : Source) (h : DerivedExpression expr) {brace : Token} (ho : brace.range ∈ behind)
    (c : Cursor) : Clauses behind c (lodBody src expr brace c).1.2.1 (lodBody src expr brace c).2 := by
  have hbody : Clauses behind c _ ((lodHead expr brace c).2.many (nextSkipped? src expr)).2 :=
    (lodHead_clauses h ho c).append (.join (fun _ _ _ hx => nextSkipped?_clauses src h hx) _)
  unfold lodBody
  dsimp only
  split
  · rename_i t d he
    obtain ⟨he, hk⟩ := eat?_eq_some he
    obtain ⟨fs, hb, hf⟩ := hbody
    have hone : Yields behind _ [] [] d := (Yields.refl _ d).token he (by rw [hk]; rfl)
    exact ⟨_, List.append_nil (_ : List Symbol) ▸ hb.trans hone, by simpa using hf⟩
  · exact hbody

theorem lodBlock_yields (src : Source) (h : DerivedExpression expr) {brace : Token}
    (ht : c.take? = some (brace, d)) (hk : brace.kind = .leftBrace) :
    ∃ fs, Yields behind c [(lodBlock src expr brace d).1] fs (lodBlock src expr brace d).2 := by
  have ho : brace.range ∈ [brace.range] := List.mem_singleton_self _
  obtain ⟨fs, hb, hf⟩ := lodBody_clauses src h ho
    { d with scopes := .lod :: d.scopes, closers := .rightBrace :: d.closers }
  have hb' : Yields _ d _ fs (d.inScope .lod fun c => c.inside .rightBrace (lodBody src expr brace)).2 :=
    Yields.inScope hb.inside
  obtain ⟨gs, hs, hg⟩ := checkBrace_yields ho
    (d.inScope .lod fun c => c.inside .rightBrace (lodBody src expr brace)).1.2.2
    (d.inScope .lod fun c => c.inside .rightBrace (lodBody src expr brace)).2
  exact finishBlock_yields src ht (by rw [hk]; rfl) hb' hs
    (fun h => List.append_ne_nil_of_left_ne_nil (hf h) gs) (fun h => List.append_ne_nil_of_right_ne_nil fs (hg h))
    (lodBody_aggregated src expr brace _)

/-- Signs with the cursor behind them: what is derived from there on, also with faults at the signs, is derived
with the signs in front. -/
def SignsAhead (c : Cursor) (signs : List (Token × List Symbol)) (d : Cursor) : Prop :=
  ∀ (behind : List Range) (ss : List Symbol) (e : Cursor),
    (∀ inner : List Range, behind ⊆ inner → (∀ s ∈ signs, s.1.range ∈ inner) → ∃ fs, Yields inner d ss fs e) →
      ∃ fs, Yields behind c (signs.flatMap (·.2) ++ ss) fs e

theorem SignsAhead.nil (c : Cursor) : SignsAhead c [] c :=
  fun behind _ _ h => h behind (List.Subset.refl _) (by simp)

theorem SignsAhead.cons {s : Token × List Symbol} {signs : List (Token × List Symbol)}
    (hs : sign? src c = some (s, d)) (h : SignsAhead d signs e) : SignsAhead c (s :: signs) e := by
  unfold sign? at hs
  split at hs
  · rename_i hk
    obtain ⟨⟨t, d'⟩, ht, he⟩ := Option.map_eq_some_iff.mp hs
    have hconstruct : t.kind.startsConstruct = false := by
      obtain ⟨l, ls, hls, rfl, -⟩ := take?_eq_some ht
      simp only [kind?, hls, List.head?_cons, Option.map_some, Option.any_some] at hk
      revert hk
      cases l.token.kind <;> simp [isSign, Token.Kind.startsConstruct]
    cases he
    intro behind ss f hrest
    obtain ⟨fs, hd⟩ := h (t.range :: behind) ss f fun inner hin hall => by
      refine hrest inner (fun r hr => hin (List.mem_cons_of_mem _ hr)) ?_
      exact List.forall_mem_cons.mpr ⟨hin List.mem_cons_self, hall⟩
    rw [List.flatMap_cons, List.append_assoc]
    exact ⟨fs, operator_yields src ht hconstruct hd⟩
  · cases hs

/-- Behind all signs no other one stands, but for a blank line between. -/
def PastSigns (signs : List (Token × List Symbol)) (c : Cursor) : Prop :=
  c.kind?.any isSign = false ∨ (signs ≠ [] ∧ c.afterBlank = true)

theorem sign?_eq_none (h : sign? src c = none) : c.kind?.any isSign = false := by
  unfold sign? at h
  split at h
  · rename_i hk
    rw [Option.map_eq_none_iff, take?, Option.map_eq_none_iff] at h
    simp [kind?, h] at hk
  · rename_i hk
    simpa using hk

theorem signs_ahead (src : Source) (c : Cursor) :
    SignsAhead c (signs src c).1 (signs src c).2 ∧ PastSigns (signs src c).1 (signs src c).2 := by
  have hmany : ∀ c : Cursor, SignsAhead c (c.many (nextSign? src)).1 (c.many (nextSign? src)).2 ∧
      ((c.many (nextSign? src)).2.kind?.any isSign = false ∨ (c.many (nextSign? src)).2.afterBlank = true) := by
    refine many_induction (P := fun c signs e => SignsAhead c signs e ∧
      (e.kind?.any isSign = false ∨ e.afterBlank = true)) (nextSign?_takes src) ?_ ?_
    · intro c hn
      refine ⟨.nil c, ?_⟩
      unfold nextSign? at hn
      split at hn
      · rename_i hblank
        exact .inr hblank
      · exact .inl (sign?_eq_none hn)
    · rintro c s d signs e hs ⟨ih, hpast⟩
      unfold nextSign? at hs
      split at hs
      · cases hs
      · exact ⟨.cons hs ih, hpast⟩
  unfold signs
  split
  · rename_i hn
    exact ⟨.nil c, .inl (sign?_eq_none hn)⟩
  · rename_i first d hs
    obtain ⟨hahead, hpast⟩ := hmany d
    exact ⟨.cons hs hahead, hpast.imp id fun hb => ⟨by simp, hb⟩⟩

theorem word_yields (src : Source) (h : DerivedExpression expr) (ht : c.take? = some (t, d))
    (hk : t.kind.startsConstruct = true) : ∃ fs, Yields behind c [(word src expr t d).1] fs (word src expr t d).2 := by
  unfold word
  split
  · rename_i paren e he
    obtain ⟨he, hparen⟩ := eat?_eq_some he
    exact call_yields src h ht hk he hparen
  · exact bareIdentifier_yields src ht hk

/-- The construct that starts with a token which is no sign. -/
theorem primary_yields (src : Source) (h : DerivedExpression expr) (ht : c.take? = some (t, d))
    (hs : t.kind.startsExpression = true) (hn : isSign t.kind = false) :
    ∃ fs, Yields behind c (primary src expr t d).1 fs (primary src expr t d).2 := by
  unfold primary
  dsimp only
  split
  · rename_i hk
    exact fieldReference_yields src ht hk
  · rename_i hk
    exact word_yields src h ht (by rw [hk]; rfl)
  · rename_i hk
    exact grouping_yields h false ht hk
  · rename_i hk
    exact lodBlock_yields src h ht hk
  · rename_i hk
    exact ifBlock_yields src h ht hk
  · rename_i hk
    exact caseBlock_yields src h ht hk
  · rename_i hparen _ _ _
    refine literal_yields src ht ?_
    revert hs hn hparen
    cases t.kind <;> simp [Token.Kind.startsExpression, isSign, Token.Kind.startsConstruct]

theorem operand_yields (src : Source) (h : DerivedExpression expr) : Yielding behind (operand src expr) := by
  intro c
  obtain ⟨hahead, hpast⟩ := signs_ahead src c
  unfold operand signed
  revert hahead hpast
  generalize signs src c = r
  obtain ⟨signs, d⟩ := r
  intro hahead hpast
  dsimp only at hahead hpast ⊢
  split
  · rename_i t e ht
    split at ht
    · rename_i hread
      obtain ⟨hstart, hblank⟩ := Bool.and_eq_true_iff.mp hread
      obtain ⟨l, ls, hls, hl, -⟩ := take?_eq_some ht
      simp only [kind?, hls, List.head?_cons, Option.map_some, Option.any_some, hl] at hstart
      have hsign : isSign t.kind = false := by
        rcases hpast with hk | ⟨hne, hb⟩
        · simpa [kind?, hls, hl] using hk
        · simp [hb, hne] at hblank
      exact hahead behind _ _ fun inner _ _ => primary_yields src h ht hstart hsign
    · cases ht
  · split
    · rename_i op hlast
      obtain ⟨s, hmem, rfl⟩ := Option.map_eq_some_iff.mp hlast
      have hx := hahead behind [] (d.fault (.missingExpression s.1.kind) s.1.range) fun inner _ hall =>
        ⟨_, .report (hall s (List.mem_of_getLast? hmem)) rfl⟩
      rwa [List.append_nil] at hx
    · have hx := hahead behind [] d fun inner _ _ => ⟨[], .refl inner d⟩
      rwa [List.append_nil] at hx

theorem rightSide_yields (src : Source) (h : DerivedExpression expr) (place : Place) {op : Token}
    (ho : op.range ∈ behind) : Yielding behind (rightSide src expr place op) := by
  intro c
  unfold rightSide
  split
  · rename_i paren d hparen
    split at hparen
    · obtain ⟨ht, hk⟩ := eat?_eq_some hparen
      exact grouping_yields h true ht hk
    · cases hparen
  · split
    · exact operand_yields src h c
    · exact ⟨_, .report ho rfl⟩

theorem link?_yields (src : Source) (h : DerivedExpression expr) (place : Place) :
    Yielding? behind (link? src expr place) := by
  intro c ss d hd
  unfold link? at hd
  obtain ⟨⟨op, e⟩, ho, he⟩ := Option.map_eq_some_iff.mp hd
  obtain ⟨ht, hk⟩ := operator?_eq_some ho
  have hconstruct : op.kind.startsConstruct = false := by
    revert hk
    cases op.kind <;> simp [Token.Kind.isBinaryOperator, Token.Kind.startsConstruct]
  obtain ⟨fs, hr⟩ := rightSide_yields src h place (List.mem_cons_self (a := op.range) (l := behind))
    (operatorSymbol src op e).2
  cases he
  exact ⟨fs, operator_yields src ht hconstruct hr⟩

theorem chain_yields (src : Source) (h : DerivedExpression expr) (place : Place) :
    Yielding behind (chain src expr place) := by
  intro c
  have hone : Yielding behind _ := operand_yields src h
  have hmore : Yielding? behind _ := link?_yields src h place
  obtain ⟨fs, ho⟩ := hone c
  obtain ⟨gs, hm⟩ := hmore.many (operand src expr c).2
  exact ⟨_, ho.trans hm⟩

theorem expression_derived (src : Source) (levels : Nat) : DerivedExpression (expression src levels) := by
  induction levels with
  | zero => exact ⟨expression_steady src 0, fun _ place => tooDeep_yields src place⟩
  | succ levels ih => exact ⟨expression_steady src (levels + 1), fun _ place => chain_yields src ih place⟩

end Statement

end Calculation
