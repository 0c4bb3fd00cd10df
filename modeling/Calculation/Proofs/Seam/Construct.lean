import Calculation.Proofs.Seam.Steps

/-!
What twins read. Each construct reads the same from both, or takes the first one over the seam, or leaves a mark.
The constructs get the way to read an expression from outside, so what they do is stated for any pair of ways that
read alike.
-/
namespace Calculation.Seam
open Statement Movable

variable {m : Seam} {v : List Lexeme} {c₁ c₂ : Cursor}

/-- Two ways to read an expression that read alike from twins. -/
structure SimExpression (m : Seam) (expr₁ expr₂ : ReadExpression) : Prop where
  first : SteadyExpression expr₁
  second : SteadyExpression expr₂
  sim : ∀ place c₁ c₂, m.Twin c₁ c₂ → AtStart c₁ → m.Sim (expr₁ place c₁) (expr₂ place c₂)

variable {expr₁ expr₂ : ReadExpression}

theorem Sim.one {x₁ x₂ : Symbol × Cursor} (h : m.Sim x₁ x₂) : m.Sim ([x₁.1], x₁.2) ([x₂.1], x₂.2) :=
  h.map (fun s => [s]) (fun s => [s]) (fun _ => rfl) (fun _ => rfl)

theorem operatorSymbol_sim (hm : m.Sound) (hc : m.Twin c₁ c₂) {op : Token} (hop : m.Past op.range) :
    m.Sim (operatorSymbol m.src₁ op c₁) (operatorSymbol m.src₂ (op.shifted m.bytes) c₂) := by
  unfold operatorSymbol
  rw [Token.kind_shifted]
  by_cases hk : op.kind.isLogicalOperator = true
  · rw [if_pos hk, if_pos hk]
    exact (hc.leaf hm _ true rfl hop (unmarked_of_kind (by simp))).one
  · rw [if_neg hk, if_neg hk]
    exact .same rfl hc calm_nil

theorem literal_sim (hm : m.Sound) (hc : m.Twin c₁ c₂) {t : Token} (ht : m.Past t.range) :
    m.Sim (literal m.src₁ t c₁) (literal m.src₂ (t.shifted m.bytes) c₂) := by
  have hopen : openLiteral? (t.shifted m.bytes) = openLiteral? t := rfl
  have hcause : ∀ cause, openLiteral? t = some cause → cause.related = [] ∧ cause.code ≠ .tooDeep := by
    intro cause h
    unfold openLiteral? at h
    split at h
    · split at h
      · cases h
        exact ⟨rfl, by simp [Cause.code]⟩
      · cases h
        exact ⟨rfl, by simp [Cause.code]⟩
      · cases h
    · cases h
  unfold literal
  rw [hopen]
  cases h : openLiteral? t with
  | none => exact hc.leaf hm _ _ rfl ht (unmarked_of_kind (by simp))
  | some cause =>
    obtain ⟨hrelated, hcode⟩ := hcause cause h
    exact (hc.fault cause t.range hrelated hcode).leaf hm _ _ rfl ht (unmarked_of_kind (by simp))

theorem checkField_twin (hc : m.TwinAt v c₁ c₂) (t : Token) :
    m.TwinAt v (checkField t c₁) (checkField (t.shifted m.bytes) c₂) := by
  unfold checkField
  rw [Token.isOpen_shifted]
  by_cases h : t.isOpen = true
  · rw [if_pos h, if_pos h]
    exact hc.report (Cause.spanning_shifted _ _ _ rfl) (unmarked_of_code (by simp [Cause.spanning, Cause.code]))
  · rw [if_neg h, if_neg h]
    exact hc

theorem bareIdentifier_sim (hm : m.Sound) (hc : m.Twin c₁ c₂) {t : Token} (ht : m.Past t.range) :
    m.Sim (bareIdentifier m.src₁ t c₁) (bareIdentifier m.src₂ (t.shifted m.bytes) c₂) := by
  unfold bareIdentifier
  exact (hc.fault (.bareIdentifier t.text) t.range rfl (by simp [Cause.code])).leaf hm _ _ rfl ht
    fun h => Bool.false_ne_true h.2.1

theorem qualifies_iff {ls : List Lexeme} : qualifies ls = true ↔
    ∃ dot field rest, ls = dot :: field :: rest ∧ dot.token.kind = .dot ∧ field.token.kind = .field := by
  match ls with
  | [] => simp [qualifies]
  | [_] => simp [qualifies]
  | dot :: field :: rest =>
    constructor
    · intro h
      exact ⟨dot, field, rest, rfl, by simpa [qualifies] using h⟩
    · rintro ⟨dot', field', rest', h, hd, hf⟩
      cases h
      simp [qualifies, hd, hf]

theorem qualified?_of_qualifies {c : Cursor} {dot field : Lexeme} {ls : List Lexeme}
    (hc : c.rest = dot :: field :: ls) (hd : dot.token.kind = .dot) (hf : field.token.kind = .field) :
    qualified? c = some (field.token, c.advance.advance) := by
  simp [qualified?, Cursor.eat?, Cursor.take?, Cursor.isAt, Cursor.kind?, Cursor.advance, hc, hd, hf]

theorem qualified?_eq_none {c : Cursor} (h : qualifies c.rest = false) : qualified? c = none := by
  unfold qualified? Cursor.eat? Cursor.take? Cursor.isAt Cursor.kind?
  match hc : c.rest with
  | [] => simp
  | [dot] =>
    by_cases hd : dot.token.kind = .dot
    · simp [hd, Cursor.advance, hc]
    · simp [hd]
  | dot :: field :: ls =>
    rw [hc] at h
    by_cases hd : dot.token.kind = .dot
    · have hf : field.token.kind ≠ .field := by simpa [qualifies, hd] using h
      simp [hd, hf, Cursor.advance, hc]
    · simp [hd]

/-- A lexeme among the shared ones is known by where it starts. -/
theorem Sound.behind_unique (hm : m.Sound) {pre pre' v' : List Lexeme} {l l' : Lexeme}
    (h : m.before = pre ++ l :: v) (h' : m.before = pre' ++ l' :: v')
    (hr : l.token.range.start = l'.token.range.start) : l = l' ∧ v = v' := by
  have hpair := hm.ranges.pairwise
  rw [List.pairwise_map] at hpair
  have hlt : ∀ {a b c : List Lexeme} {x y : Lexeme}, m.before = a ++ x :: (b ++ y :: c) →
      x.token.range.start ≠ y.token.range.start := by
    intro a b c x y he hxy
    rw [he] at hpair
    have hxs := (List.pairwise_append.mp hpair).2.1
    have hstop := (List.pairwise_cons.mp hxs).1 y (by simp)
    have hproper := hm.proper x (by simp [he])
    omega
  obtain ⟨as, rfl, h₂⟩ | ⟨as, rfl, h₂⟩ := List.append_eq_append_iff.mp (h.symm.trans h')
  · cases as with
    | nil => exact List.cons.inj h₂
    | cons a as =>
      obtain ⟨rfl, rfl⟩ := List.cons.inj h₂
      exact absurd hr (hlt h)
  · cases as with
    | nil => exact List.cons.inj h₂.symm
    | cons a as =>
      obtain ⟨rfl, rfl⟩ := List.cons.inj h₂
      exact absurd hr.symm (hlt h')

/-- Where two more lexemes are shared, both readings qualify a field or none does. -/
theorem qualifies_shared {v : List Lexeme} (h : 2 ≤ v.length) :
    qualifies (m.shifted v ++ m.rest₂) = qualifies (v ++ m.rest₁) := by
  match v, h with
  | _ :: _ :: _, _ => rfl

theorem checkField_rest (t : Token) (c : Cursor) : (checkField t c).rest = c.rest := by
  unfold checkField
  split <;> rfl

theorem fieldReference_plain (src : Source) {t : Token} {c : Cursor}
    (h : t.isOpen = true ∨ qualifies c.rest = false) :
    fieldReference src t c = (checkField t c).leaf src t.fieldName (.field none) t.range (!t.isOpen) := by
  have hq : (if t.isOpen then none else qualified? (checkField t c)) = none := by
    rcases h with h | h
    · rw [if_pos h]
    · by_cases hopen : t.isOpen = true
      · rw [if_pos hopen]
      · rw [if_neg hopen]
        exact qualified?_eq_none (checkField_rest t c ▸ h)
  unfold fieldReference
  simp only [hq]

theorem fieldReference_qualified (src : Source) {t : Token} {c : Cursor} {dot field : Lexeme} {ls : List Lexeme}
    (hopen : t.isOpen = false) (hc : c.rest = dot :: field :: ls) (hd : dot.token.kind = .dot)
    (hf : field.token.kind = .field) :
    fieldReference src t c = (checkField field.token c.advance.advance).leaf src field.token.fieldName
      (.field (some t.fieldName)) (t.range.cover field.token.range) (!field.token.isOpen) := by
  have hq : (if t.isOpen then none else qualified? c) = some (field.token, c.advance.advance) := by
    rw [if_neg (by simp [hopen]), qualified?_of_qualifies hc hd hf]
  unfold fieldReference
  simp only [checkField_closed hopen, hq]

/-- A field that is qualified by two lexemes that are not both shared takes one behind the seam. -/
theorem length_qualified (src : Source) {t : Token} {c : Cursor} {dot field : Lexeme} {ls v r : List Lexeme}
    (hopen : t.isOpen = false) (hc : c.rest = dot :: field :: ls) (hd : dot.token.kind = .dot)
    (hf : field.token.kind = .field) (hv : c.rest = v ++ r) (hlen : ¬2 ≤ v.length) :
    (fieldReference src t c).2.rest.length < r.length := by
  have hrest : c.advance.advance.rest = ls := by simp [Cursor.advance, hc]
  rw [fieldReference_qualified src hopen hc hd hf]
  refine Nat.lt_of_le_of_lt ((checkField_onward field.token _).trans (.leaf src _ _ _ _ _)).length_le ?_
  have hlength := congrArg List.length (hc.symm.trans hv)
  simp only [List.length_cons, List.length_append] at hlength
  rw [hrest]
  omega

theorem fieldReference_sim (hm : m.Sound) {pre : List Lexeme} {l : Lexeme} (hc : m.TwinAt v c₁ c₂)
    (hl : m.before = pre ++ l :: v) (hp : m.Past l.token.range) :
    m.Sim (fieldReference m.src₁ l.token c₁) (fieldReference m.src₂ (l.token.shifted m.bytes) c₂) := by
  have hplain {isComplete : Bool} (h : isComplete = true → ¬m.OpenReference v) :
      ¬m.MarksSymbol ⟨l.token.fieldName, .field none, l.token.range, [], isComplete, []⟩ := by
    rintro ⟨-, hcomplete, pre', l', v', hl', hr, hopen⟩
    exact h hcomplete ((hm.behind_unique hl hl' (congrArg Range.start hr)).2 ▸ hopen)
  have hd : m.Twin (checkField l.token c₁) (checkField (l.token.shifted m.bytes) c₂) := ⟨v, checkField_twin hc _⟩
  by_cases hopen : l.token.isOpen = true
  · rw [fieldReference_plain _ (.inl hopen), fieldReference_plain _ (t := l.token.shifted m.bytes) (.inl hopen)]
    exact hd.leaf hm _ _ rfl hp (hplain fun h => by simp [hopen] at h)
  have hclosed : l.token.isOpen = false := by simpa using hopen
  cases h₁ : qualifies c₁.rest with
  | true =>
    obtain ⟨dot, field, rest, hrest, hdot, hfield⟩ := qualifies_iff.mp h₁
    match v, hc, hl with
    | [], hc, _ => exact .inl (length_qualified _ hclosed hrest hdot hfield hc.rest₁ (by simp))
    | [_], hc, _ => exact .inl (length_qualified _ hclosed hrest hdot hfield hc.rest₁ (by simp))
    | x :: y :: v', hc, _ =>
      have hrest₂ := hc.rest₂
      obtain ⟨rfl, rfl, -⟩ : x = dot ∧ y = field ∧ v' ++ m.rest₁ = rest := by
        have := hc.rest₁.symm.trans hrest
        simpa using this
      rw [fieldReference_qualified _ hclosed hrest hdot hfield,
        fieldReference_qualified _ (t := l.token.shifted m.bytes) hclosed hrest₂ hdot hfield]
      obtain ⟨pre', hpre⟩ := hc.left
      have hdot' : m.TwinAt (y :: v') c₁.advance c₂.advance :=
        (hc.toRaw.advance hm).twinAt hpre (by simp [hdot])
      have hpre' : m.before = (pre' ++ [x]) ++ y :: v' := by simp [hpre]
      have hfield' : m.TwinAt v' c₁.advance.advance c₂.advance.advance :=
        (hdot'.toRaw.advance hm).twinAt hpre' (by simp [hfield])
      have hr := hp.cover (hdot'.toRaw.past hm)
      have hkind : (Symbol.Kind.field (some l.token.fieldName)).shifted m.bytes = .field (some l.token.fieldName) :=
        rfl
      have hleaf := Twin.leaf hm ⟨v', checkField_twin hfield' y.token⟩ y.token.fieldName (!y.token.isOpen) hkind hr
        (unmarked_of_kind (by simp))
      rw [Range.shifted_cover] at hleaf
      exact hleaf
  | false =>
    rw [fieldReference_plain _ (.inr h₁)]
    cases h₂ : qualifies c₂.rest with
    | true =>
      have hmark : m.OpenReference v := ⟨hc.rest₁ ▸ h₁, hc.rest₂ ▸ h₂⟩
      have hv : ¬2 ≤ v.length := fun hv => by
        have := qualifies_shared (m := m) hv
        rw [hmark.1, hmark.2] at this
        cases this
      obtain ⟨dot, field, rest, hrest, hdot, hfield⟩ := qualifies_iff.mp h₂
      refine .inr (.inr ⟨length_qualified _ (t := l.token.shifted m.bytes) hclosed hrest hdot hfield hc.rest₂ ?_, ?_⟩)
      · rw [length_shifted]
        exact hv
      · refine .inr (.inr ⟨((checkField l.token c₁).leaf m.src₁ l.token.fieldName (.field none) l.token.range
          (!l.token.isOpen)).1, ?_, rfl, ?_, pre, l, v, hl, rfl, hmark⟩)
        · rw [symbols_symbol, Symbol.walkAll_singleton, Symbol.walk_eq]
          exact List.mem_cons_self
        · simp [Cursor.leaf, Cursor.finish, hclosed]
    | false =>
      rw [fieldReference_plain _ (t := l.token.shifted m.bytes) (.inr h₂)]
      exact hd.leaf hm _ _ rfl hp (hplain fun _ h => by
        have := h.2
        rw [← hc.rest₂, h₂] at this
        cases this)

/-- The first reading stands at the seam, with a comma behind it. -/
def AtComma (m : Seam) (c : Cursor) : Prop :=
  c.rest = m.rest₁ ∧ c.isAt .comma = true

/-- Behind a comma both readings look for an expression; if the comma stands behind the seam, they may see
different things there. -/
theorem nextInList?_sim (hm : m.Sound) (h : m.SimExpression expr₁ expr₂) (place : Place) (hc : m.Twin c₁ c₂) :
    m.Sim? (nextInList? expr₁ place c₁) (nextInList? expr₂ place c₂) ∨ m.AtComma c₁ := by
  obtain ⟨v, hv⟩ := hc
  have hat := Twin.isAt hm ⟨v, hv⟩ (k := .comma) rfl
  unfold nextInList? Cursor.eat?
  rw [hat]
  by_cases hcomma : c₁.isAt .comma = true
  · cases v with
    | nil => exact .inr ⟨hv.rest₁, hcomma⟩
    | cons l v =>
      refine .inl ?_
      have hk : l.token.kind = .comma := by
        simpa [Cursor.isAt, Cursor.kind?, hv.rest₁] using hcomma
      have htwin : m.Twin c₁.advance c₂.advance := hv.advance hm (by simp [hk])
      have h₁ : c₁.take? = some (l.token, c₁.advance) := by simp [Cursor.take?, hv.rest₁]
      have h₂ : c₂.take? = some (l.token.shifted m.bytes, c₂.advance) := by
        simp [Cursor.take?, hv.rest₂, shifted_cons, Lexeme.shifted]
      rw [if_pos hcomma, if_pos hcomma, h₁, h₂]
      dsimp only
      rw [htwin.atOperand hm]
      by_cases ha : c₁.advance.atOperand = true
      · rw [if_pos ha, if_pos ha]
        exact .inr ⟨_, _, rfl, rfl, h.sim place _ _ htwin (atStart_of_atOperand ha)⟩
      · rw [if_neg ha, if_neg ha]
        exact .inl ⟨rfl, rfl⟩
  · rw [if_neg hcomma, if_neg hcomma]
    exact .inl (.inl ⟨rfl, rfl⟩)

theorem skipComma_sim (hm : m.Sound) (hc : m.Twin c₁ c₂) :
    m.Lost₁ (skipComma c₁) ∨ m.Twin (skipComma c₁) (skipComma c₂) := by
  unfold skipComma
  rcases hc.eat hm (k := .comma) rfl with ⟨h₁, h₂⟩ | ⟨t, d₁, d₂, h₁, h₂, hd⟩
  · rw [h₁, h₂]
    exact .inr hc
  · rw [h₁, h₂]
    exact hd.imp id And.left

theorem skipComma_lost {c : Cursor} (hc : m.AtComma c) : m.Lost₁ (skipComma c) := by
  obtain ⟨hrest, hcomma⟩ := hc
  cases hl : c.rest with
  | nil => simp [Cursor.isAt, Cursor.kind?, hl] at hcomma
  | cons l ls =>
    have he : skipComma c = c.advance := by simp [skipComma, Cursor.eat?, hcomma, Cursor.take?, hl]
    rw [he]
    exact lost_of_takes hrest (Cursor.length_advance hl)

theorem commaList_sim (hm : m.Sound) (h : m.SimExpression expr₁ expr₂) (place : Place) :
    m.Sims (commaList expr₁ place) (commaList expr₂ place) := by
  intro c₁ c₂ hc
  have ho₁ := nextInList?_onward h.first place
  have ho₂ := nextInList?_onward h.second place
  have hmore (d₁ d₂ : Cursor) (hd : m.Twin d₁ d₂) :
      m.Sim ((d₁.many (nextInList? expr₁ place)).1, skipComma (d₁.many (nextInList? expr₁ place)).2)
        ((d₂.many (nextInList? expr₂ place)).1, skipComma (d₂.many (nextInList? expr₂ place)).2) := by
    have hmany := many_until (p := m.AtComma) (fun c₁ c₂ hc => nextInList?_sim hm h place hc) (fun _ h => h.1)
      (nextInList?_takes h.first place) (nextInList?_takes h.second place) ho₁ ho₂ hd
    rcases hmany with hsim | hcomma
    · exact hsim.goOn (skipComma_onward _) (skipComma_onward _) (skipComma_sim hm)
    · exact .inl (skipComma_lost hcomma)
  unfold commaList
  rw [hc.atOperand hm]
  by_cases ha : c₁.atOperand = true
  · rw [if_pos ha, if_pos ha]
    exact Sim.both (fun first more => first ++ more.flatten) (fun first more => first ++ more.flatten)
      (fun a b => by simp) (fun a b => by simp) (h.sim place c₁ c₂ hc (atStart_of_atOperand ha))
      ((ho₁.many _).trans (skipComma_onward _)) ((ho₂.many _).trans (skipComma_onward _)) (hmore _ _)
  · rw [if_neg ha, if_neg ha]
    exact .same rfl hc calm_nil

theorem groupingBody_sim (hm : m.Sound) (h : m.SimExpression expr₁ expr₂) (isList : Bool) (paren : Token) :
    m.Sims (groupingBody expr₁ isList paren) (groupingBody expr₂ isList (paren.shifted m.bytes)) := by
  intro c₁ c₂ hc
  unfold groupingBody
  rw [hc.atOperand hm, hc.isAt hm (k := .rightParen) rfl]
  by_cases ha : c₁.atOperand = true
  · rw [if_pos ha, if_pos ha]
    cases isList with
    | true => exact commaList_sim hm h .grouping c₁ c₂ hc
    | false => exact h.sim .grouping c₁ c₂ hc (atStart_of_atOperand ha)
  · rw [if_neg ha, if_neg ha]
    by_cases hp : c₁.isAt .rightParen = true
    · rw [if_pos hp, if_pos hp]
      exact .same rfl (hc.fault .emptyGrouping _ rfl (by simp [Cause.code])) calm_nil
    · rw [if_neg hp, if_neg hp]
      exact .same rfl hc calm_nil

theorem closeGrouping_sim (hm : m.Sound) (paren : Token) (hc : m.Twin c₁ c₂) :
    m.Lost₁ (closeGrouping paren c₁) ∨
      m.Twin (closeGrouping paren c₁) (closeGrouping (paren.shifted m.bytes) c₂) := by
  unfold closeGrouping
  rcases hc.eat hm (k := .rightParen) rfl with ⟨h₁, h₂⟩ | ⟨t, d₁, d₂, h₁, h₂, hd⟩
  · rw [h₁, h₂]
    exact .inr (hc.fault .openGrouping _ rfl (by simp [Cause.code]))
  · rw [h₁, h₂]
    exact hd.imp id And.left

theorem grouping_sim (hm : m.Sound) (h : m.SimExpression expr₁ expr₂) (isList : Bool) (paren : Token) :
    m.Sims (grouping expr₁ isList paren) (grouping expr₂ isList (paren.shifted m.bytes)) := by
  intro c₁ c₂ hc
  have hbody := (groupingBody_sim hm h isList paren).inside .rightParen c₁ c₂ hc
  exact hbody.goOn (closeGrouping_onward paren _) (closeGrouping_onward _ _) (closeGrouping_sim hm paren)

theorem symbols_behindArgument (part : CallPart) (c : Cursor) :
    symbols (behindArgument part c).result.1 = part.symbols := by
  unfold behindArgument
  split
  · dsimp only
    split <;> simp [Cursor.Round.result]
  · split <;> simp [Cursor.Round.result]

theorem behindArgument_onward' (part : CallPart) (c : Cursor) :
    Cursor.Onward c (behindArgument part c).result.2 := by
  have h := behindArgument_onward part c
  cases hr : behindArgument part c <;> rw [hr] at h <;> exact h

theorem behindArgument_sim (hm : m.Sound) {part : CallPart} (hcalm : m.Calm part.symbols) (hc : m.Twin c₁ c₂) :
    m.Sim (behindArgument part c₁).result (behindArgument (move m.bytes m.lines part) c₂).result := by
  have hlast (isClosed : Bool) : m.Calm (symbols (Sum.inr ([part], isClosed) : CallPart ⊕ List CallPart × Bool)) := by
    simpa using hcalm
  unfold behindArgument
  rw [hc.isAt hm (k := .comma) rfl, hc.isAt hm (k := .rightParen) rfl]
  by_cases hcomma : c₁.isAt .comma = true
  · rw [if_pos hcomma, if_pos hcomma]
    dsimp only
    rcases hc.advance_at hm hcomma (by simp) with hlost | htwin
    · left
      split <;> exact hlost
    · rw [htwin.atBreak hm]
      split
      · exact .same rfl htwin (hlast false)
      · exact .same rfl htwin hcalm
  · rw [if_neg hcomma, if_neg hcomma]
    by_cases hparen : c₁.isAt .rightParen = true
    · rw [if_pos hparen, if_pos hparen]
      rcases hc.advance_at hm hparen (by simp) with hlost | htwin
      · exact .inl hlost
      · exact .same rfl htwin (hlast true)
    · rw [if_neg hparen, if_neg hparen]
      exact .same rfl hc (hlast false)

/-- The argument that an expression gives. -/
def argumentOf (src : Source) (start : Nat) (x : (List Symbol × List Event) × Cursor) : CallPart :=
  ⟨⟨src.trimmed (x.2.since start), x.2.since start, !x.1.2.any Event.isStructural⟩, x.1.1⟩

theorem argumentRound_none {src : Source} {expr : ReadExpression} {function : String} {c : Cursor}
    (h : argument? src expr function c = none) : argumentRound src expr function c = .done ([], false) c := by
  simp only [argumentRound, h]

theorem argumentRound_some {src : Source} {expr : ReadExpression} {function : String} {c d : Cursor}
    {part : CallPart} (h : argument? src expr function c = some (part, d)) :
    argumentRound src expr function c = behindArgument part d := by
  simp only [argumentRound, h]

theorem argument?_end {src : Source} {expr : ReadExpression} {function : String} {c : Cursor}
    (ha : c.atOperand = false) (hcomma : c.isAt .comma = false) (hparen : c.isAt .rightParen = false) :
    argument? src expr function c = none := by
  unfold argument?
  cases hl : c.rest with
  | nil => rfl
  | cons l ls =>
    have h₁ : l.token.kind ≠ .comma := by simpa [Cursor.isAt, Cursor.kind?, hl] using hcomma
    have h₂ : l.token.kind ≠ .rightParen := by simpa [Cursor.isAt, Cursor.kind?, hl] using hparen
    simp [h₁, h₂, ha]

theorem argument?_missing {src : Source} {expr : ReadExpression} {function : String} {c : Cursor} {l : Lexeme}
    {ls : List Lexeme} (hl : c.rest = l :: ls) (h : l.token.kind = .comma ∨ l.token.kind = .rightParen) :
    argument? src expr function c = some (⟨⟨"", .empty l.token.range.start, false⟩, []⟩,
      c.fault (.missingArgument function) l.token.range) := by
  unfold argument?
  rw [hl]
  exact if_pos h

theorem argument?_read {src : Source} {expr : ReadExpression} {function : String} {c : Cursor} {l : Lexeme}
    {ls : List Lexeme} (hl : c.rest = l :: ls) (h : ¬(l.token.kind = .comma ∨ l.token.kind = .rightParen))
    (ha : c.atOperand = true) :
    argument? src expr function c = some (argumentOf src l.token.range.start (c.recording (expr .arguments)),
      (c.recording (expr .arguments)).2) := by
  unfold argument?
  rw [hl]
  dsimp only
  rw [if_neg h, if_pos ha]
  rfl

theorem symbols_recorded (x : List Symbol × List Event) : symbols x = x.1 := by
  have h : symbols x = symbols x.1 ++ symbols x.2 := rfl
  rw [h, symbols_list, symbols_events, List.append_nil]

/-- The same expression gives the same argument. -/
theorem argumentOf_move (hm : m.Sound) {x₁ x₂ : (List Symbol × List Event) × Cursor} {r : Range} (hr : m.Past r)
    (hmove : x₂.1 = move m.bytes m.lines x₁.1) (hc : m.Twin x₁.2 x₂.2) :
    argumentOf m.src₂ (r.shifted m.bytes).start x₂ = move m.bytes m.lines (argumentOf m.src₁ r.start x₁) := by
  have hsince := hc.since_past hr
  have htrimmed := hm.trimmed _ hsince.proper hsince.stop
  have hevents : x₂.1.2.any Event.isStructural = x₁.1.2.any Event.isStructural := by
    rw [hmove]
    exact Event.any_isStructural_shifted _ _
  unfold argumentOf
  rw [hc.since, htrimmed, hevents, hmove]
  rfl

theorem argumentRound_sim (hm : m.Sound) (h : m.SimExpression expr₁ expr₂) (function : String) (c₁ c₂ : Cursor)
    (hc : m.Twin c₁ c₂) :
    m.Sim (argumentRound m.src₁ expr₁ function c₁).result (argumentRound m.src₂ expr₂ function c₂).result := by
  have hnone {d : Cursor} (hd : d.rest = []) : d.isAt .comma = false ∧ d.isAt .rightParen = false := by
    simp [Cursor.isAt, Cursor.kind?, hd]
  have hcomma := hc.isAt hm (k := .comma) rfl
  have hparen := hc.isAt hm (k := .rightParen) rfl
  have hoperand := hc.atOperand hm
  cases hc.heads hm with
  | none h₁ h₂ =>
    have ha : c₁.atOperand = false := by simp [Cursor.atOperand, Cursor.kind?, h₁]
    rw [argumentRound_none (argument?_end ha (hnone h₁).1 (hnone h₁).2),
      argumentRound_none (argument?_end (hoperand.trans ha) (hnone h₂).1 (hnone h₂).2)]
    exact .same rfl hc calm_nil
  | blank l ls h₁ h₂ hb hs =>
    have ha : c₁.atOperand = false := by simp [Cursor.atOperand, Cursor.kind?, h₁]
    rw [argumentRound_none (argument?_end ha (hnone h₁).1 (hnone h₁).2),
      argumentRound_none (argument?_end (hoperand.trans ha) (hcomma.trans (hnone h₁).1) (hparen.trans (hnone h₁).2))]
    exact .same rfl hc calm_nil
  | same l ls₁ ls₂ h₁ h₂ hl =>
    by_cases hmissing : l.token.kind = .comma ∨ l.token.kind = .rightParen
    · rw [argumentRound_some (argument?_missing h₁ hmissing), argumentRound_some (argument?_missing h₂ hmissing)]
      have hfault := hc.fault (.missingArgument function) l.token.range rfl (by simp [Cause.code])
      have hempty : (Range.empty l.token.range.start).shifted m.bytes =
          .empty (l.token.range.shifted m.bytes).start := rfl
      have hpart : m.Calm (⟨⟨"", .empty l.token.range.start, false⟩, []⟩ : CallPart).symbols := calm_nil
      exact behindArgument_sim hm hpart hfault
    · cases ha : c₁.atOperand with
      | false =>
        have hne : l.token.kind ≠ .comma ∧ l.token.kind ≠ .rightParen := not_or.mp hmissing
        have hc₁ : c₁.isAt .comma = false ∧ c₁.isAt .rightParen = false := by
          simp [Cursor.isAt, Cursor.kind?, h₁, hne]
        rw [argumentRound_none (argument?_end ha hc₁.1 hc₁.2),
          argumentRound_none (argument?_end (hoperand.trans ha) (hcomma.trans hc₁.1) (hparen.trans hc₁.2))]
        exact .same rfl hc calm_nil
      | true =>
        rw [argumentRound_some (argument?_read h₁ hmissing ha),
          argumentRound_some (argument?_read h₂ hmissing (hoperand.trans ha))]
        have hread := Sim.recording hc fun d₁ d₂ hd htwin => h.sim .arguments d₁ d₂ htwin (by
          have := atStart_of_atOperand ha
          unfold AtStart Cursor.kind? at this ⊢
          rwa [hd])
        refine hread.next (behindArgument_onward' _ _) (behindArgument_onward' _ _) ?_ fun hmove htwin hcalm => ?_
        · intro s hs
          rw [symbols_behindArgument]
          rw [symbols_recorded] at hs
          exact hs
        · rcases hl with hl | hl
          · have hpart := argumentOf_move hm hl hmove htwin
            rw [symbols_recorded] at hcalm
            exact hpart ▸ behindArgument_sim hm hcalm htwin
          · have htakes := h.first.takes .arguments { c₁ with trail := [] } (atStart_of_atOperand ha)
            have hlost : m.Lost₁ (c₁.recording (expr₁ .arguments)).2 := lost_of_takes hl htakes
            exact .lost hlost (behindArgument_onward' _ _)

theorem argumentList_sim (hm : m.Sound) (h : m.SimExpression expr₁ expr₂) (function : String) :
    m.Sims (argumentList m.src₁ expr₁ function) (argumentList m.src₂ expr₂ function) := by
  intro c₁ c₂ hc
  have hloop : m.Sim (c₁.loop (argumentRound m.src₁ expr₁ function) ([], false))
      (c₂.loop (argumentRound m.src₂ expr₂ function) ([], false)) := loop_sim (argumentRound_sim hm h function)
    (argumentRound_advances m.src₁ h.first function) (argumentRound_advances m.src₂ h.second function)
    (argumentRound_onward m.src₁ h.first function) (argumentRound_onward m.src₂ h.second function) hc
  exact hloop.map (fun x => (x.1 ++ x.2.1, x.2.2)) (fun x => (x.1 ++ x.2.1, x.2.2))
    (fun ⟨as, bs, _⟩ => by simp) (fun ⟨as, bs, _⟩ => by simp)

theorem arguments_sim (hm : m.Sound) (h : m.SimExpression expr₁ expr₂) (function : String) :
    m.Sims (arguments m.src₁ expr₁ function) (arguments m.src₂ expr₂ function) := by
  intro c₁ c₂ hc
  unfold arguments
  rcases hc.eat hm (k := .rightParen) rfl with ⟨h₁, h₂⟩ | ⟨t, d₁, d₂, h₁, h₂, hd⟩
  · rw [h₁, h₂]
    exact (argumentList_sim hm h function).inside .rightParen c₁ c₂ hc
  · rw [h₁, h₂]
    rcases hd with hlost | ⟨htwin, -⟩
    · exact .inl hlost
    · exact .same rfl htwin calm_nil

theorem scopedArguments_sim (hm : m.Sound) (h : m.SimExpression expr₁ expr₂) (name : Token) (isAggregate : Bool) :
    m.Sims (scopedArguments m.src₁ expr₁ name isAggregate)
      (scopedArguments m.src₂ expr₂ (name.shifted m.bytes) isAggregate) := by
  intro c₁ c₂ hc
  unfold scopedArguments
  cases isAggregate with
  | true => exact (arguments_sim hm h name.text).inScope .aggregate c₁ c₂ hc
  | false => exact arguments_sim hm h name.text c₁ c₂ hc

theorem checkSignature_twin (hc : m.Twin c₁ c₂) (name : Token) (signature? : Option Signature) (count : Nat) :
    m.Twin (checkSignature name signature? count c₁)
      (checkSignature (name.shifted m.bytes) signature? count c₂) := by
  unfold checkSignature
  cases signature? with
  | none => exact hc.fault _ _ rfl (by simp [Cause.code])
  | some s =>
    dsimp only
    by_cases ha : s.accepts count = true
    · rw [if_pos ha, if_pos ha]
      exact hc
    · rw [if_neg ha, if_neg ha]
      exact hc.fault _ _ rfl (by simp [Cause.code])

theorem checkCall_twin (hc : m.Twin c₁ c₂) (name paren : Token) (signature? : Option Signature)
    (isClosed isComplete : Bool) (count : Nat) :
    m.Twin (checkCall name paren signature? isClosed isComplete count c₁)
      (checkCall (name.shifted m.bytes) (paren.shifted m.bytes) signature? isClosed isComplete count c₂) := by
  unfold checkCall
  rw [hc.scans]
  cases isClosed with
  | false =>
    obtain ⟨v, hv⟩ := hc
    exact ⟨v, hv.report (Cause.openCall_shifted _ _ _ _) (unmarked_of_code (by simp [Cause.spanning, Cause.code]))⟩
  | true =>
    by_cases h : (isComplete && c₁.scans == 0) = true
    · simp only [Bool.not_true, h, if_true]
      exact checkSignature_twin hc name signature? count
    · simp only [Bool.not_true, h]
      exact hc

theorem flatMap_symbols (parts : List CallPart) : parts.flatMap (·.symbols) = symbols parts := rfl

theorem arguments_move (bytes lines : Nat) (parts : List CallPart) :
    (move bytes lines parts).map (·.argument) = (parts.map (·.argument)).map (·.shifted bytes) := by
  induction parts with
  | nil => rfl
  | cons p parts ih => exact congrArg _ ih

theorem symbols_move (bytes lines : Nat) (parts : List CallPart) :
    symbols (move bytes lines parts) = move bytes lines (symbols parts) := by
  induction parts with
  | nil => rfl
  | cons p parts ih =>
    rw [move_cons, symbols_cons, symbols_cons, move_append, ih]
    rfl

theorem all_isComplete_shifted (n : Nat) (args : List Argument) :
    (args.map (·.shifted (n : Int))).all (·.isComplete) = args.all (·.isComplete) := by
  rw [List.all_map]
  rfl

theorem finishCall_sim (hm : m.Sound) {name : Token} (paren : Token) (isNested isClosed : Bool)
    {parts : List CallPart} (hname : m.Past name.range) (hcalm : m.Calm (symbols parts)) (hc : m.Twin c₁ c₂) :
    m.Sim (finishCall m.src₁ name paren isNested parts isClosed c₁)
      (finishCall m.src₂ (name.shifted m.bytes) (paren.shifted m.bytes) isNested (move m.bytes m.lines parts)
        isClosed c₂) := by
  unfold finishCall
  dsimp only
  rw [arguments_move, all_isComplete_shifted, hm.options, flatMap_symbols, flatMap_symbols, symbols_move,
    Token.text_shifted]
  simp only [List.length_map]
  have hcheck := checkCall_twin hc name paren (m.src₁.options.signatures.get? name.text) isClosed
    (isClosed && (parts.map (·.argument)).all (·.isComplete)) parts.length
  apply hcheck.finish hm
  · rw [Token.range_shifted, hcheck.since]
    simp [Symbol.shifted, Symbol.Kind.shifted, move_symbols, movedLines]
  · exact hcheck.since_past hname
  · exact unmarked_of_kind fun hkind => by cases hkind
  · exact hcalm

/-- Finishes a call from what its arguments gave. -/
def callOf (src : Source) (name paren : Token) (isNested : Bool) (x : (List CallPart × Bool) × Cursor) :
    Symbol × Cursor :=
  finishCall src name paren isNested x.1.1 x.1.2 x.2

theorem symbols_flagged {α : Type} [Movable α] (x : α × Bool) : symbols x = symbols x.1 := by
  have h : symbols x = symbols x.1 ++ symbols x.2 := rfl
  rw [h, symbols_bool, List.append_nil]

theorem children_finishCall (src : Source) (name paren : Token) (isNested isClosed : Bool) (parts : List CallPart)
    (c : Cursor) : (finishCall src name paren isNested parts isClosed c).1.children = symbols parts := rfl

theorem call_sim (hm : m.Sound) (h : m.SimExpression expr₁ expr₂) {name : Token} (paren : Token)
    (hname : m.Past name.range) (hc : m.Twin c₁ c₂) :
    m.Sim (call m.src₁ expr₁ name paren c₁)
      (call m.src₂ expr₂ (name.shifted m.bytes) (paren.shifted m.bytes) c₂) := by
  have hparts := scopedArguments_sim hm h name ((m.src₁.options.signatures.get? name.text).any Signature.isAggregate)
    c₁ c₂ hc
  show m.Sim (callOf m.src₁ name paren _ (scopedArguments m.src₁ expr₁ name _ c₁))
    (callOf m.src₂ _ _ _ (scopedArguments m.src₂ expr₂ _ _ c₂))
  rw [hm.options, hc.scopes, Token.text_shifted]
  refine hparts.next (finishCall_onward ..) (finishCall_onward ..) ?_ ?_
  · intro s hs
    rw [symbols_flagged] at hs
    exact mem_walkAll_one (children_finishCall .. ▸ hs)
  · intro hmove htwin hcalm
    rw [symbols_flagged] at hcalm
    unfold callOf
    rw [hmove]
    exact finishCall_sim hm paren _ _ hname hcalm htwin

end Calculation.Seam
