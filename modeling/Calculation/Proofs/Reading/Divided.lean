import Calculation.Proofs.Reading.Exactness

namespace Calculation.Reading
open Calculation.Symbol

/-- Behind its name and its open parenthesis the lexemes of a call end with the closing one. There is no argument when
nothing stands between the two; otherwise there is one more than there are commas outside of all arguments. -/
def Counted (name paren : Lexeme) (rest : List Lexeme) (arguments : List Argument) : Prop :=
  ∃ between close, rest = between ++ [close] ∧ close.token.kind = .rightParen ∧ (arguments = [] ↔ between = []) ∧
    (arguments ≠ [] → arguments.length = separators arguments (name :: paren :: rest) + 1)

/-- The arguments of a call divide it. All stand behind the start of the call, each child but a comment is inside of
exactly one of them, an argument over anything is complete when no structural fault is inside of it, and a call with a
parenthesis that is not reported as open has as many arguments as its commas say. -/
structure Divided (text : List Lexeme) (fs : List Diagnostic) (s : Symbol) (arguments : List Argument) : Prop where
  within : ∀ a ∈ arguments, s.range.start < a.range.start ∧ a.range.stop ≤ s.range.stop
  once : ∀ c ∈ s.children, c.isComment = false → arguments.countP (·.range.contains c.range) = 1
  isComplete : ∀ a ∈ arguments, a.range.start < a.range.stop →
    (a.isComplete = true ↔ ∀ d ∈ fs, d.isStructural = true → a.range.contains d.range = false)
  lexemes : ∃ name paren rest, text.filter (s.range.contains ·.token.range) = name :: paren :: rest ∧
    paren.token.kind = .leftParen ∧
    ((∀ d ∈ fs, d.code = .openParenthesis → d.range ≠ paren.token.range) → Counted name paren rest arguments)

variable {behind : List Range} {l : Lexeme} {ls text taken pre post : List Lexeme} {ss : List Symbol} {s : Symbol}
  {fs gs : List Diagnostic} {arguments : List Argument}

/-- Of all lexemes, those inside the span of some in a row are these. -/
theorem Lined.filter_span (h : Lined (pre ++ (l :: ls) ++ post)) :
    (pre ++ (l :: ls) ++ post).filter ((l.span ls).contains ·.token.range) = l :: ls := by
  have hspan := span_sited h.left.right
  have hbefore : pre.filter ((l.span ls).contains ·.token.range) = [] := List.filter_eq_nil_iff.mpr fun x hx => by
    have hapart := h.left.between x hx l List.mem_cons_self
    have hproper := h.left.left.proper x hx
    exact Bool.eq_false_iff.mp (Range.not_contains hproper (.inl hapart))
  have hbehind : post.filter ((l.span ls).contains ·.token.range) = [] := List.filter_eq_nil_iff.mpr fun x hx => by
    obtain ⟨y, hy, hstop⟩ := hspan.stop
    have hapart := h.between y (List.mem_append_right _ hy) x hx
    have hproper := h.right.proper x hx
    exact Bool.eq_false_iff.mp (Range.not_contains hproper (.inr (hstop ▸ hapart)))
  have hinside : (l :: ls).filter ((l.span ls).contains ·.token.range) = l :: ls :=
    List.filter_eq_self.mpr fun x hx => span_contains h.left.right hx
  rw [List.filter_append, List.filter_append, hbefore, hbehind, hinside, List.nil_append, List.append_nil]

/-- Faults that do not reach behind the start of a call, and faults elsewhere, say nothing of its arguments. -/
theorem Divided.mono (h : Divided text fs s arguments) (hsub : fs ⊆ gs)
    (hnew : ∀ d ∈ gs, d ∉ fs → d.range.start ≤ s.range.start ∨ s.range.contains d.range = false) :
    Divided text gs s arguments := by
  refine ⟨h.within, h.once, fun a ha hlt => ?_, ?_⟩
  · rw [h.isComplete a ha hlt]
    refine ⟨fun hnone d hd hs => ?_, fun hnone d hd hs => hnone d (hsub hd) hs⟩
    by_cases hmem : d ∈ fs
    · exact hnone d hmem hs
    · have hwithin := h.within a ha
      have hout := hnew d hd hmem
      simp only [Range.contains, Bool.and_eq_false_iff, decide_eq_false_iff_not] at hout ⊢
      omega
  · obtain ⟨name, paren, rest, hinside, hk, hcounted⟩ := h.lexemes
    exact ⟨name, paren, rest, hinside, hk, fun hclosed => hcounted fun d hd => hclosed d (hsub hd)⟩

theorem Listed.divides {ps : List Statement.CallPart} {isClosed : Bool} (h : Listed ls ps isClosed fs)
    (hl : Lined ls) : Divides ls ps fs := by
  cases h with
  | empty => exact .token _
  | row _ h => exact .ofRow h hl

theorem Listed.counted {ps : List Statement.CallPart} {isClosed : Bool} {name paren : Lexeme}
    (h : Listed ls ps isClosed fs) (hl : Lined ls) (hclosed : isClosed = true) (hname : name.token.kind ≠ .comma)
    (hparen : paren.token.kind ≠ .comma) : Counted name paren ls (ps.map (·.argument)) := by
  cases h with
  | @empty l hk => exact ⟨[], l, rfl, hk, by simp, by simp⟩
  | row hfirst h =>
    obtain ⟨⟨between, close, rfl, hk⟩, hcount⟩ := h.count hl hclosed
    have hsome : ps ≠ [] := fun hnil => by simp [hnil] at hcount
    have hbetween : between ≠ [] := by
      rintro rfl
      exact hfirst close rfl hk
    refine ⟨between, close, rfl, hk, by simp [hsome, hbetween], fun _ => ?_⟩
    rw [List.length_map, separators_cons_of_ne _ hname, separators_cons_of_ne _ hparen, hcount]

/-- The arguments of a call divide it where it is derived. -/
theorem Called.divided (h : Called l.token.range ls s.children arguments fs)
    (hk : l.token.kind.startsConstruct = true) (hr : s.range = l.span ls)
    (htext : Lined (pre ++ (l :: ls) ++ post)) : Divided (pre ++ (l :: ls) ++ post) fs s arguments := by
  have hl : Lined (l :: ls) := htext.left.right
  have hinside := htext.filter_span
  rw [← hr] at hinside
  have hstart : s.range.start = l.token.range.start := by rw [hr, Lexeme.span]
  have hname := hl.proper l List.mem_cons_self
  generalize hchildren : s.children = children at h
  cases h with
  | @mk paren ls ps isClosed fs gs hparen hlisted hplace hopen =>
    have hdivides := hlisted.divides hl.tail.tail
    have hproper := hl.proper paren (by simp)
    -- All arguments start behind the parenthesis.
    have hbehind : ∀ p ∈ ps, paren.token.range.stop ≤ p.argument.range.start := fun p hp => by
      obtain ⟨x, hx, hxstart⟩ := hdivides.start p hp
      rw [hxstart]
      exact hl.tail.head_before x hx
    have hfront := hl.head_before paren List.mem_cons_self
    refine ⟨?_, ?_, ?_, ?_⟩
    · refine List.forall_mem_map.mpr fun p hp => ⟨?_, ?_⟩
      · have := hbehind p hp
        omega
      · obtain ⟨y, hy, hstop⟩ := hdivides.stop p hp
        have hspan := span_contains hl (List.mem_cons_of_mem l (List.mem_cons_of_mem paren hy))
        rw [← hr] at hspan
        simp only [Range.contains, Bool.and_eq_true, decide_eq_true_eq] at hspan
        omega
    · intro c hc _
      rw [List.countP_map]
      exact hdivides.once c (hchildren ▸ hc)
    · refine List.forall_mem_map.mpr fun p hp hlt => ?_
      rw [hdivides.isComplete p hp hlt, List.forall_mem_append]
      refine (and_iff_left fun d hd _ => ?_).symm
      have hpstart := hbehind p hp
      rcases hplace d hd with he | he <;> rw [he]
      · exact Range.not_contains hname (.inl (by omega))
      · exact Range.not_contains hproper (.inl hpstart)
    · refine ⟨l, paren, ls, hinside, hparen, fun hnone => ?_⟩
      have hcomma : l.token.kind ≠ .comma := fun hcomma => by simp [hcomma, Token.Kind.startsConstruct] at hk
      refine hlisted.counted hl.tail.tail ?_ hcomma (by simp [hparen])
      by_contra hfalse
      obtain ⟨d, hd, hcode, hrange⟩ := hopen (Bool.eq_false_iff.mpr hfalse)
      exact hnone d (List.mem_append_right fs hd) hcode hrange

/-- The arguments of every call of a derivation divide it. -/
theorem Derives.divided (h : Derives behind taken ss fs) (hl : Lined text) (hb : Ahead behind taken)
    (htext : ∃ pre post, text = pre ++ taken ++ post) : ∀ s ∈ walkAll ss, ∀ arguments isNested,
      s.kind = .call arguments isNested → Divided text fs s arguments := by
  have hlined : Lined taken := by
    obtain ⟨pre, post, rfl⟩ := htext
    exact hl.left.right
  have hbehind : ∀ {l : Lexeme} {ls : List Lexeme}, (∃ pre post, text = pre ++ (l :: ls) ++ post) →
      ∃ pre post, text = pre ++ ls ++ post := by
    rintro l ls ⟨pre, post, rfl⟩
    exact ⟨pre ++ [l], post, by simp⟩
  induction h with
  | nothing | report | stray => simp
  | @append _ as bs _ _ _ _ ha hb' iha ihb =>
    obtain ⟨pre, post, rfl⟩ := htext
    have hbefore := hlined.between
    have hba : Ahead _ as := hb.sublist (List.sublist_append_left _ _)
    have hbb : Ahead _ bs := hb.sublist (List.sublist_append_right _ _)
    intro s hs arguments isNested hk
    rw [walkAll_append] at hs
    rcases List.mem_append.mp hs with hs | hs
    · refine (iha hba ⟨pre, bs ++ post, by simp⟩ hlined.left s hs _ _ hk).mono (List.subset_append_left _ _)
        fun d hd hnot => .inr ?_
      exact hb'.not_inside hlined.right ((List.mem_append.mp hd).resolve_left hnot) hba
        (ha.symbols hlined.left s hs) (.inr hbefore)
    · refine (ihb hbb ⟨pre ++ as, post, by simp⟩ hlined.right s hs _ _ hk).mono (List.subset_append_right _ _)
        fun d hd hnot => .inr ?_
      exact ha.not_inside hlined.left ((List.mem_append.mp hd).resolve_right hnot) hbb
        (hb'.symbols hlined.right s hs) (.inl hbefore)
  | token _ _ ih => exact ih (hb.cons hlined) (hbehind htext) hlined.tail
  | operator _ hk hs _ _ ih =>
    rw [walkAll_cons, walk_eq, hs.children, walkAll_nil]
    exact List.forall_mem_cons.mpr ⟨by simp [hk], ih (hb.cons hlined) (hbehind htext) hlined.tail⟩
  | literal _ hk hs | field _ hk hs | qualifiedField _ _ _ hk hs =>
    exact forall_walk_singleton (by simp [hk]) (by simp [hs.children])
  | @construct _ l ls s fs hstart hr hs _ ih =>
    refine forall_walk_singleton (fun arguments isNested hk => ?_) (ih (.one hlined) (hbehind htext) hlined.tail)
    obtain ⟨pre, post, rfl⟩ := htext
    cases hs with
    | call hk' _ ha =>
      obtain ⟨rfl, -⟩ := Kind.call.inj (hk'.symm.trans hk)
      exact ha.divided hstart hr hl
    | block hk' =>
      rw [hk] at hk'
      cases hk'
  | tooDeep hs hc => exact forall_walk_singleton (by simp [hs.kind]) (by simp [hc])
  | @skipped _ l ls s d fs hs _ _ hr h ih =>
    refine forall_walk_singleton (by simp [hs.kind]) fun x hx arguments isNested hk => ?_
    refine (ih hb htext hlined x hx _ _ hk).mono (List.subset_cons_self _ _) fun e he hnot => .inl ?_
    -- The stretch is reported at its first lexeme, and nothing in it starts in front of this one.
    obtain rfl := (List.mem_cons.mp he).resolve_right hnot
    obtain ⟨⟨y, hy, hstart⟩, -, -⟩ := h.symbols hlined x hx
    rw [hr, hstart]
    rcases List.mem_cons.mp hy with rfl | hy
    · exact Nat.le_refl _
    · exact Nat.le_trans (Nat.le_of_lt (hlined.proper l List.mem_cons_self)) (hlined.head_before y hy)

end Calculation.Reading
