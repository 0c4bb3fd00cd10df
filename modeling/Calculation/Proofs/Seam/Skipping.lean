import Calculation.Proofs.Document.Items
import Calculation.Proofs.Seam.Construct

namespace Calculation.Seam
open Statement Movable

variable {m : Seam} {v : List Lexeme} {c₁ c₂ : Cursor} {expr₁ expr₂ : ReadExpression}

theorem skipNext?_sim (hm : m.Sound) (h : m.SimExpression expr₁ expr₂) (place : Place) :
    m.Sims? (skipNext? expr₁ place) (skipNext? expr₂ place) := by
  intro c₁ c₂ hc
  unfold skipNext?
  cases hc.heads hm with
  | none h₁ h₂ =>
    rw [h₁, h₂]
    exact .inl ⟨rfl, rfl⟩
  | blank l ls h₁ h₂ hb hs =>
    rw [h₁, h₂]
    simp only [hb, Bool.or_true, if_true]
    exact .inl ⟨rfl, rfl⟩
  | same l ls₁ ls₂ h₁ h₂ hl =>
    have hcloser : c₂.atCloser = c₁.atCloser := by
      simp [Cursor.atCloser, Cursor.kind?, h₁, h₂, hc.closers]
    rw [h₁, h₂]
    dsimp only
    rw [hcloser, kind_shifted, blank_shifted]
    by_cases hstop : (place.stops.contains l.token.kind || c₁.atCloser || l.afterBlank) = true
    · rw [if_pos hstop, if_pos hstop]
      exact .inl ⟨rfl, rfl⟩
    · rw [if_neg hstop, if_neg hstop]
      by_cases hs : l.token.kind.startsExpression = true
      · rw [if_pos hs, if_pos hs]
        exact .inr ⟨_, _, rfl, rfl, h.sim place c₁ c₂ hc (atStart_cons h₁ hs)⟩
      · rw [if_neg hs, if_neg hs]
        refine .inr ⟨_, _, rfl, rfl, ?_⟩
        have hk : l.token.kind ≠ .identifier := fun hk => hs (by rw [hk]; rfl)
        rcases hc.advance hm h₁ hk with hlost | ⟨htwin, -⟩
        · exact .inl hlost
        · exact .same rfl htwin calm_nil

theorem skipFirst_sim (hm : m.Sound) (h : m.SimExpression expr₁ expr₂) (place : Place) {l : Lexeme}
    {ls : List Lexeme} (hl : c₁.rest = l :: ls) (hc : m.Twin c₁ c₂) :
    m.Sim (skipFirst expr₁ place l.token c₁) (skipFirst expr₂ place (l.token.shifted m.bytes) c₂) := by
  unfold skipFirst
  rw [Token.kind_shifted]
  by_cases hs : l.token.kind.startsExpression = true
  · rw [if_pos hs, if_pos hs]
    exact h.sim place c₁ c₂ hc (atStart_cons hl hs)
  · rw [if_neg hs, if_neg hs]
    have hk : l.token.kind ≠ .identifier := fun hk => hs (by rw [hk]; rfl)
    rcases hc.advance hm hl hk with hlost | ⟨htwin, -⟩
    · exact .inl hlost
    · exact .same rfl htwin calm_nil

theorem skipStretch_sim (hm : m.Sound) (h : m.SimExpression expr₁ expr₂) (place : Place) {l : Lexeme}
    {ls : List Lexeme} (hl : c₁.rest = l :: ls) (hc : m.Twin c₁ c₂) :
    m.Sim (skipStretch expr₁ place l.token c₁) (skipStretch expr₂ place (l.token.shifted m.bytes) c₂) := by
  have ho₁ := skipNext?_onward h.first place
  have ho₂ := skipNext?_onward h.second place
  have hmany := (skipNext?_sim hm h place).many (skipNext?_takes h.first place) (skipNext?_takes h.second place)
    ho₁ ho₂
  exact (skipFirst_sim hm h place hl hc).both (fun first more => first ++ more.flatten)
    (fun first more => first ++ more.flatten) (fun a b => by simp) (fun a b => by simp) (ho₁.many _) (ho₂.many _)
    (hmany _ _)

/-- The symbol of a skipped stretch that starts with `t`. -/
def skippedOf (src : Source) (t : Token) (x : List Symbol × Cursor) : Symbol × Cursor :=
  x.2.finish src ⟨"error", .skipped, x.2.since t.range.start, x.1, false, []⟩

theorem skippedOf_sim (hm : m.Sound) {t : Token} (ht : m.Past t.range) {x₁ x₂ : List Symbol × Cursor}
    (hx : m.Sim x₁ x₂) : m.Sim (skippedOf m.src₁ t x₁) (skippedOf m.src₂ (t.shifted m.bytes) x₂) := by
  refine hx.next (.finish ..) (.finish ..) (fun s hs => mem_walkAll_one ?_) fun hmove htwin hcalm => ?_
  · rw [symbols_list] at hs
    exact hs
  · rw [symbols_list] at hcalm
    refine htwin.finish hm ?_ (htwin.since_past ht) (unmarked_of_kind (by simp)) hcalm
    rw [Token.range_shifted, htwin.since, hmove, move_symbols]
    simp [Symbol.shifted, Symbol.Kind.shifted, movedLines]

theorem resync_sim (hm : m.Sound) (h : m.SimExpression expr₁ expr₂) (place : Place) {l : Lexeme}
    {ls : List Lexeme} (hl : c₁.rest = l :: ls) (hpast : m.Past l.token.range ∨ c₁.rest = m.rest₁)
    (hc : m.Twin c₁ c₂) :
    m.Sim (resync m.src₁ expr₁ place l.token c₁) (resync m.src₂ expr₂ place (l.token.shifted m.bytes) c₂) := by
  rcases hpast with hpast | hseam
  · have hfault := hc.fault (.unexpected l.token.kind l.token.text false place) l.token.range rfl
      (Cause.unexpected_ne_tooDeep _ _ _ _)
    exact skippedOf_sim hm hpast (.scanning hfault fun d₁ d₂ hd htwin =>
      skipStretch_sim hm h place (hd.trans hl) htwin)
  · exact .inl (lost_of_takes hseam (resync_takes m.src₁ h.first place hl))

/-- A run that ends among the shared lexemes ends at the same place for both readings. -/
theorem runLength_shared (balance : Nat) (v : List Lexeme) :
    (runLength balance (v ++ m.rest₁) < v.length ∧
        runLength balance (m.shifted v ++ m.rest₂) = runLength balance (v ++ m.rest₁)) ∨
      (v.length ≤ runLength balance (v ++ m.rest₁) ∧ v.length ≤ runLength balance (m.shifted v ++ m.rest₂)) := by
  induction v generalizing balance with
  | nil => exact .inr ⟨Nat.zero_le _, Nat.zero_le _⟩
  | cons l v ih =>
    rw [shifted_cons, List.cons_append, List.cons_append, runLength, runLength, kind_shifted, blank_shifted]
    cases hb : balanceBehind? balance l.token.kind with
    | none => exact .inl ⟨Nat.zero_lt_succ _, rfl⟩
    | some b =>
      dsimp only
      by_cases hend : b = 0 ∧ l.afterBlank = true
      · rw [if_pos hend, if_pos hend]
        exact .inl ⟨Nat.zero_lt_succ _, rfl⟩
      · rw [if_neg hend, if_neg hend, List.length_cons]
        rcases ih b with ⟨h₁, h₂⟩ | ⟨h₁, h₂⟩
        · exact .inl ⟨by omega, by omega⟩
        · exact .inr ⟨by omega, by omega⟩

theorem runLength_le (balance : Nat) (ls : List Lexeme) : runLength balance ls ≤ ls.length := by
  induction ls generalizing balance with
  | nil => exact Nat.le_refl _
  | cons l ls ih =>
    rw [runLength]
    split
    · exact Nat.zero_le _
    · rename_i b _
      split
      · exact Nat.zero_le _
      · have := ih b
        rw [List.length_cons]
        omega

/-- An open parenthesis always belongs to the run before it. -/
theorem runLength_paren {balance : Nat} {v r : List Lexeme} (hr : startsWith .leftParen r = true)
    (h : v.length ≤ runLength balance (v ++ r)) : v.length < runLength balance (v ++ r) := by
  induction v generalizing balance with
  | nil =>
    cases r with
    | nil => cases hr
    | cons l ls =>
      have hk : l.token.kind = .leftParen := by simpa [startsWith] using hr
      simp only [List.nil_append, runLength, balanceBehind?, hk, List.length_nil]
      rw [if_neg (by omega)]
      omega
  | cons l v ih =>
    rw [List.cons_append, runLength] at h ⊢
    cases hb : balanceBehind? balance l.token.kind with
    | none => simp [hb] at h
    | some b =>
      rw [hb] at h
      dsimp only at h ⊢
      split at h
      · simp at h
      · rename_i hend
        rw [if_neg hend]
        rw [List.length_cons] at h ⊢
        have := @ih b (by omega)
        omega

theorem skip_rest (n : Nat) (c : Cursor) : (c.skip n).rest = c.rest.drop n := by
  rw [Cursor.skip_eq]

theorem Raw.skip (hm : m.Sound) {u : List Lexeme} (hc : m.Raw (u ++ v) c₁ c₂) :
    m.Raw v (c₁.skip u.length) (c₂.skip u.length) := by
  induction u generalizing c₁ c₂ with
  | nil => exact hc
  | cons l u ih => exact ih (hc.advance hm)

/-- The length of the run that starts with `l`, behind it. -/
def runBehind (l : Lexeme) (ls : List Lexeme) : Nat :=
  runLength ((balanceBehind? 0 l.token.kind).getD 0) ls

/-- The symbol of a run that is nested too deep, which starts with `t`. -/
def tooDeepOf (src : Source) (t : Token) (c : Cursor) : List Symbol × Cursor :=
  let x := (c.fault (.tooDeep src.options.levels) (c.since t.range.start)).leaf src "error" .skipped
    (c.since t.range.start) false
  ([x.1], x.2)

theorem tooDeep_eq (src : Source) (place : Place) {c : Cursor} {l : Lexeme} {ls : List Lexeme}
    (hl : c.rest = l :: ls) : tooDeep src place c = tooDeepOf src l.token (c.skip (1 + runBehind l ls)) := by
  unfold tooDeep
  rw [hl]
  rfl

theorem tooDeepOf_sim (hm : m.Sound) {u v pre : List Lexeme} {l : Lexeme} (hl : m.before = pre ++ l :: u)
    (hpast : m.Past l.token.range) (hrun : ¬m.OpenRun l u) (hc : m.TwinAt v c₁ c₂) :
    m.Sim (tooDeepOf m.src₁ l.token c₁) (tooDeepOf m.src₂ (l.shifted m.bytes).token c₂) := by
  have hsince : c₂.since (l.shifted m.bytes).token.range.start = (c₁.since l.token.range.start).shifted m.bytes :=
    hc.toRaw.since l.token.range
  have hrange := hc.toRaw.since_past hpast
  have hmark : ¬m.MarksEvent (.fault ((Cause.tooDeep m.src₁.options.levels).spanning
      (c₁.since l.token.range.start))) := by
    rintro ⟨d, pre', l', u', he, -, hl', hr, hopen⟩
    cases he
    obtain ⟨rfl, rfl⟩ := hm.behind_unique hl hl' hr
    exact hrun hopen
  have hfault := hc.report (Cause.spanning_shifted _ _ m.bytes rfl) hmark
  unfold tooDeepOf
  rw [hsince, hm.options]
  exact (Twin.leaf hm ⟨v, hfault⟩ _ _ rfl hrange (unmarked_of_kind (by simp))).one

theorem tooDeepOf_rest (src : Source) (t : Token) (c : Cursor) : (tooDeepOf src t c).2.rest = c.rest := rfl

/-- The first reading takes a run that is too deep up to the seam, and the second one goes on. -/
theorem tooDeepOf_marked {src : Source} {pre : List Lexeme} {l : Lexeme} (hl : m.before = pre ++ l :: v)
    (hrun : m.OpenRun l v) (c : Cursor) (ss : List Symbol) : m.Marked (tooDeepOf src l.token c).2 ss := by
  refine .inl ⟨.fault ((Cause.tooDeep src.options.levels).spanning (c.since l.token.range.start)), ?_, _, pre, l, v,
    rfl, rfl, hl, rfl, hrun⟩
  exact List.mem_cons_self

/-- Both readings skip the same run of shared lexemes, or the first one goes over the seam, or only the second
one. -/
theorem run_cases (m : Seam) (l : Lexeme) (v : List Lexeme) :
    (runBehind l (v ++ m.rest₁) ≤ v.length ∧
        runBehind (l.shifted m.bytes) (m.shifted v ++ m.rest₂) = runBehind l (v ++ m.rest₁) ∧ ¬m.OpenRun l v ∧
        (v.length ≤ runBehind l (v ++ m.rest₁) → ¬m.OpenCall)) ∨
      v.length < runBehind l (v ++ m.rest₁) ∨ m.OpenRun l v := by
  have hkind : (l.shifted m.bytes).token.kind = l.token.kind := rfl
  unfold runBehind OpenRun
  rw [hkind]
  generalize (balanceBehind? 0 l.token.kind).getD 0 = balance
  rcases runLength_shared (m := m) balance v with ⟨hlt, heq⟩ | ⟨hge₁, hge₂⟩
  · refine .inl ⟨Nat.le_of_lt hlt, heq, fun h => ?_, fun h => ?_⟩
    · exact absurd h.1 (Nat.ne_of_lt hlt)
    · exact absurd hlt (Nat.not_lt_of_le h)
  · by_cases hover : v.length < runLength balance (v ++ m.rest₁)
    · exact .inr (.inl hover)
    · have heq₁ : runLength balance (v ++ m.rest₁) = v.length := by omega
      by_cases hopen : v.length < runLength balance (m.shifted v ++ m.rest₂)
      · exact .inr (.inr ⟨heq₁, hopen⟩)
      · refine .inl ⟨Nat.le_of_eq heq₁, by omega, fun h => hopen h.2, fun _ hcall => hopen ?_⟩
        have hparen : (m.shifted v).length < runLength balance (m.shifted v ++ m.rest₂) :=
          runLength_paren hcall.2.2 (by rw [length_shifted]; exact hge₂)
        rwa [length_shifted] at hparen

theorem tooDeep_sim (hm : m.Sound) (place : Place) (hc : m.Twin c₁ c₂) (ha : AtStart c₁) :
    m.Sim (tooDeep m.src₁ place c₁) (tooDeep m.src₂ place c₂) := by
  obtain ⟨v, hv⟩ := hc
  cases v with
  | nil => exact .inl (lost_of_takes hv.rest₁ (tooDeep_takes m.src₁ place ha))
  | cons l v =>
    obtain ⟨pre, hpre⟩ := hv.left
    have hpast := hv.past hm
    have h₁ : tooDeep m.src₁ place c₁ =
        tooDeepOf m.src₁ l.token (c₁.skip (1 + runBehind l (v ++ m.rest₁))) := tooDeep_eq _ _ hv.rest₁
    have h₂ : tooDeep m.src₂ place c₂ = tooDeepOf m.src₂ (l.shifted m.bytes).token
        (c₂.skip (1 + runBehind (l.shifted m.bytes) (m.shifted v ++ m.rest₂))) := tooDeep_eq _ _ hv.rest₂
    have hlen₁ : c₁.rest.length = 1 + v.length + m.rest₁.length := by
      rw [hv.rest₁, List.length_append, List.length_cons, Nat.add_comm v.length]
    have hlen₂ : c₂.rest.length = 1 + v.length + m.rest₂.length := by
      rw [hv.rest₂, List.length_append, length_shifted, List.length_cons, Nat.add_comm v.length]
    rw [h₁, h₂]
    rcases run_cases m l v with ⟨hle, heq, hrun, hcall⟩ | hover | hopen
    · rw [heq]
      generalize runBehind l (v ++ m.rest₁) = n at hle hcall ⊢
      have hsplit : l :: v = (l :: v.take n) ++ v.drop n := by
        rw [List.cons_append, List.take_append_drop]
      have hn : 1 + n = (l :: v.take n).length := by
        rw [List.length_cons, List.length_take, Nat.min_eq_left hle, Nat.add_comm]
      have hraw : m.Raw ((l :: v.take n) ++ v.drop n) c₁ c₂ := hsplit ▸ hv.toRaw
      rw [hn]
      refine tooDeepOf_sim hm hpre hpast hrun ⟨hraw.skip hm, fun hnil => hcall ?_⟩
      have hzero := congrArg List.length hnil
      rw [List.length_drop, List.length_nil] at hzero
      omega
    · have hle := runLength_le ((balanceBehind? 0 l.token.kind).getD 0) (v ++ m.rest₁)
      have hrun : runBehind l (v ++ m.rest₁) ≤ (v ++ m.rest₁).length := hle
      rw [List.length_append] at hrun
      left
      rw [Lost₁, tooDeepOf_rest, skip_rest, List.length_drop]
      omega
    · have hle := runLength_le ((balanceBehind? 0 l.token.kind).getD 0) (m.shifted v ++ m.rest₂)
      have hrun : runBehind (l.shifted m.bytes) (m.shifted v ++ m.rest₂) ≤ (m.shifted v ++ m.rest₂).length := hle
      have hover : v.length < runBehind (l.shifted m.bytes) (m.shifted v ++ m.rest₂) := hopen.2
      rw [List.length_append, length_shifted] at hrun
      refine .inr (.inr ⟨?_, tooDeepOf_marked hpre hopen _ _⟩)
      rw [Lost₂, tooDeepOf_rest, skip_rest, List.length_drop]
      omega

/-- Such a token is skipped together with the one before it. -/
def isStray (l : Lexeme) : Bool :=
  !(l.token.kind.startsExpression || l.afterBlank)

/-- Behind the seam nothing is skipped by the second reading unless something is by the first. -/
theorem strays_seam (hm : m.Sound) (h : m.rest₁.takeWhile isStray = []) : m.rest₂.takeWhile isStray = [] := by
  cases hm.joint with
  | ends h₁ h₂ => simp [h₂]
  | ahead l ls₁ ls₂ h₁ h₂ =>
    rw [h₁] at h
    rw [h₂]
    by_cases hl : isStray l = true
    · rw [List.takeWhile_cons_of_pos hl] at h
      cases h
    · exact List.takeWhile_cons_of_neg hl
  | blank l ls h₁ h₂ hb hs =>
    rw [h₂]
    exact List.takeWhile_cons_of_neg (by simp [isStray, hb])

/-- Both readings skip the same stray tokens, or the first one goes over the seam. -/
theorem strays_cases (hm : m.Sound) (v : List Lexeme) :
    (((v ++ m.rest₁).takeWhile isStray).length ≤ v.length ∧
        ((m.shifted v ++ m.rest₂).takeWhile isStray).length = ((v ++ m.rest₁).takeWhile isStray).length ∧
        (v.length ≤ ((v ++ m.rest₁).takeWhile isStray).length → ∀ x ∈ v, isStray x = true)) ∨
      v.length < ((v ++ m.rest₁).takeWhile isStray).length := by
  have hshifted : (m.shifted v).takeWhile isStray = m.shifted (v.takeWhile isStray) := List.takeWhile_map ..
  rw [List.takeWhile_append, List.takeWhile_append, hshifted, length_shifted, length_shifted]
  by_cases hall : (v.takeWhile isStray).length = v.length
  · rw [if_pos hall, if_pos hall, List.length_append, List.length_append, length_shifted]
    by_cases hseam : m.rest₁.takeWhile isStray = []
    · rw [strays_seam hm hseam, hseam]
      refine .inl ⟨Nat.le_refl _, rfl, fun _ => ?_⟩
      have hself : v.takeWhile isStray = v := (List.takeWhile_prefix _).eq_of_length hall
      exact List.all_eq_true.mp (hself ▸ List.all_takeWhile)
    · right
      have := List.length_pos_iff.mpr hseam
      omega
  · have hle := (List.takeWhile_prefix (l := v) isStray).length_le
    rw [if_neg hall, if_neg hall, length_shifted]
    exact .inl ⟨hle, rfl, fun h => absurd (Nat.le_antisymm hle h) hall⟩

/-- Reports the stray tokens from `l` on, `n` of them behind it. -/
def straysOf (l : Lexeme) (n : Nat) (c : Cursor) : Cursor :=
  c.fault (.unexpected l.token.kind l.token.text (0 < n) .topLevel) (c.since l.token.range.start)

theorem strayTokens_eq {c : Cursor} {l : Lexeme} {ls : List Lexeme} (hl : c.rest = l :: ls) :
    strayTokens c = straysOf l (ls.takeWhile isStray).length (c.skip (1 + (ls.takeWhile isStray).length)) := by
  unfold strayTokens
  rw [hl]
  rfl

theorem strayTokens_sim (hm : m.Sound) {l : Lexeme} {ls : List Lexeme} (hl : c₁.rest = l :: ls)
    (hstart : l.token.kind.startsExpression = false) (hc : m.Twin c₁ c₂) :
    m.Lost₁ (strayTokens c₁) ∨ m.Twin (strayTokens c₁) (strayTokens c₂) := by
  obtain ⟨v, hv⟩ := hc
  cases v with
  | nil => exact .inl (lost_of_takes hv.rest₁ (strayTokens_takes hl))
  | cons x v =>
    obtain ⟨rfl, rfl⟩ : x = l ∧ v ++ m.rest₁ = ls := List.cons.inj (hv.rest₁.symm.trans hl)
    obtain ⟨pre, hpre⟩ := hv.left
    have h₂ : strayTokens c₂ = straysOf (x.shifted m.bytes) ((m.shifted v ++ m.rest₂).takeWhile isStray).length
        (c₂.skip (1 + ((m.shifted v ++ m.rest₂).takeWhile isStray).length)) := strayTokens_eq hv.rest₂
    rw [strayTokens_eq hl, h₂]
    rcases strays_cases hm v with ⟨hle, heq, hall⟩ | hover
    · rw [heq]
      generalize ((v ++ m.rest₁).takeWhile isStray).length = n at hle hall ⊢
      have hsplit : x :: v = (x :: v.take n) ++ v.drop n := by
        rw [List.cons_append, List.take_append_drop]
      have hn : 1 + n = (x :: v.take n).length := by
        rw [List.length_cons, List.length_take, Nat.min_eq_left hle, Nat.add_comm]
      have hraw : m.Raw ((x :: v.take n) ++ v.drop n) c₁ c₂ := hsplit ▸ hv.toRaw
      have hskip := hraw.skip hm
      rw [← hn] at hskip
      have hcall : v.drop n = [] → ¬m.OpenCall := by
        rintro hnil ⟨⟨pre', l', hl', hk⟩, -⟩
        have hzero := congrArg List.length hnil
        rw [List.length_drop, List.length_nil] at hzero
        have hmem : l' ∈ x :: v := by
          have hlast : (x :: v).getLast? = some l' := by
            have h := congrArg List.getLast? (hpre.symm.trans hl')
            rw [List.getLast?_append, List.getLast?_concat, List.getLast?_cons] at h
            rwa [List.getLast?_cons]
          exact List.mem_of_getLast? hlast
        rcases List.mem_cons.mp hmem with rfl | hmem
        · simp [hk, Token.Kind.startsExpression] at hstart
        · have hstray := hall (by omega) l' hmem
          simp [isStray, hk, Token.Kind.startsExpression] at hstray
      have htwin : m.TwinAt (v.drop n) (c₁.skip (1 + n)) (c₂.skip (1 + n)) := ⟨hskip, hcall⟩
      have hfault := Twin.fault ⟨_, htwin⟩ (.unexpected x.token.kind x.token.text (0 < n) .topLevel)
        ((c₁.skip (1 + n)).since x.token.range.start) rfl (Cause.unexpected_ne_tooDeep _ _ _ _)
      unfold straysOf
      rw [← hskip.since] at hfault
      exact .inr hfault
    · have hle := (List.takeWhile_prefix (l := v ++ m.rest₁) isStray).length_le
      have hlen : c₁.rest.length = 1 + v.length + m.rest₁.length := by
        rw [hv.rest₁, List.length_append, List.length_cons, Nat.add_comm v.length]
      rw [List.length_append] at hle
      left
      show (c₁.skip _).rest.length < _
      rw [skip_rest, List.length_drop]
      omega

end Calculation.Seam
