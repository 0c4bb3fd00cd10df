import Calculation.Proofs.Reading.Marks

/-!
When a symbol of a derivation is complete. A call, a field or a literal is complete when no structural fault lies
inside it, but for the report of a skipped stretch that starts with it; a block is complete when it has its parts.
What is incomplete has a fault inside.
-/
namespace Calculation

namespace Symbol

/-- Calls, fields and literals. -/
def isOperand (s : Symbol) : Bool :=
  match s.kind with
  | .call .. | .field _ | .literal _ => true
  | _ => false

end Symbol

namespace Reading
open Calculation.Symbol

variable {l : Lexeme} {ls as bs taken text : List Lexeme} {behind : List Range} {r : Range} {s : Symbol}
  {ss : List Symbol} {fs gs : List Diagnostic} {d : Diagnostic}

/-- The fault reports a stretch of a block that is skipped from the first lexeme of the symbol on. -/
def Leftover (text : List Lexeme) (s : Symbol) (d : Diagnostic) : Prop :=
  d.code = .unexpectedInBlock ∧ ∃ x ∈ text, d.range = x.token.range ∧ d.range.start = s.range.start

/-- What is known of the completeness of a symbol from the faults. -/
structure Flagged (text : List Lexeme) (fs : List Diagnostic) (s : Symbol) : Prop where
  explained : s.isComplete = false → ∃ d ∈ fs, s.range.contains d.range = true
  operand : s.isOperand = true → (s.isComplete = true ↔
    ∀ d ∈ fs, d.isStructural = true → s.range.contains d.range = true → Leftover text s d)
  block : ∀ {block branches terminator}, s.kind = .block block branches terminator →
    (s.isComplete = true ↔ terminator.isSome = true ∧ block.Filled branches)
  skipped : s.kind = .skipped → s.isComplete = false

/-- Further faults do not matter when each that lies inside is left over where the symbol starts. -/
theorem Flagged.mono (h : Flagged text fs s) (hsub : fs ⊆ gs)
    (hnew : ∀ d ∈ gs, d ∉ fs → s.range.contains d.range = true → s.isOperand = true → Leftover text s d) :
    Flagged text gs s := by
  refine ⟨fun hc => ?_, fun ho => (h.operand ho).trans ⟨fun hall d hd hs hin => ?_, fun hall d hd => hall d (hsub hd)⟩,
    h.block, h.skipped⟩
  · obtain ⟨d, hd, hin⟩ := h.explained hc
    exact ⟨d, hsub hd, hin⟩
  · by_cases hmem : d ∈ fs
    · exact hall d hmem hs hin
    · exact hnew d hd hmem hin ho

/-- Further faults do not matter when they lie elsewhere. -/
theorem Flagged.beside (h : Flagged text fs s) (hsub : fs ⊆ gs)
    (hout : ∀ d ∈ gs, d ∉ fs → s.range.contains d.range = false) : Flagged text gs s := by
  refine h.mono hsub fun d hd hnot hin _ => ?_
  rw [hout d hd hnot] at hin
  cases hin

theorem Flagged.of_operator (hk : s.kind = .operator) (hc : s.isComplete = true) : Flagged text fs s where
  explained := by simp [hc]
  operand := by simp [isOperand, hk]
  block := by simp [hk]
  skipped := by simp [hk]

theorem Skips.flagged (h : Skips l ls s) (hd : d ∈ fs) (hin : s.range.contains d.range = true) :
    Flagged text fs s where
  explained _ := ⟨d, hd, hin⟩
  operand := by simp [isOperand, h.kind]
  block := by simp [h.kind]
  skipped _ := h.isComplete

/-- A symbol without children that only its own fault makes incomplete. -/
theorem Told.flagged (h : Told r s.isComplete fs) (hr : s.range.contains r = true) (ho : s.isOperand = true) :
    Flagged text fs s := by
  have hblock : ∀ {block branches terminator}, s.kind ≠ .block block branches terminator := by
    intro block branches terminator hk
    simp [isOperand, hk] at ho
  have hskipped : s.kind ≠ .skipped := fun hk => by simp [isOperand, hk] at ho
  generalize hc : s.isComplete = isComplete at h
  cases h with
  | complete =>
    exact ⟨fun h => by simp [hc] at h, fun _ => by simp [hc], fun hk => absurd hk hblock,
      fun hk => absurd hk hskipped⟩
  | @incomplete d hd hs hn =>
    have hin : s.range.contains d.range = true := hd ▸ hr
    refine ⟨fun _ => ⟨d, List.mem_singleton_self d, hin⟩, fun _ => ?_, fun hk => absurd hk hblock,
      fun hk => absurd hk hskipped⟩
    rw [hc]
    refine ⟨nofun, fun hall => ?_⟩
    obtain ⟨hcode, -⟩ := hall d (List.mem_singleton_self d) hs hin
    rw [hcode] at hn
    cases hn

/-- Faults that a derivation cannot meet inside of what is sited elsewhere. -/
structure Ahead (behind : List Range) (taken : List Lexeme) : Prop where
  proper : ∀ r ∈ behind, r.start < r.stop
  before : ∀ r ∈ behind, ∀ x ∈ taken, r.stop ≤ x.token.range.start

theorem Ahead.sublist (h : Ahead behind bs) (hs : as.Sublist bs) : Ahead behind as :=
  ⟨h.proper, fun r hr x hx => h.before r hr x (hs.subset hx)⟩

theorem Ahead.cons (h : Ahead behind (l :: ls)) (hl : Lined (l :: ls)) : Ahead (l.token.range :: behind) ls :=
  ⟨List.forall_mem_cons.mpr ⟨hl.proper l List.mem_cons_self, h.proper⟩,
    List.forall_mem_cons.mpr ⟨hl.head_before, fun r hr x hx => h.before r hr x (List.mem_cons_of_mem l hx)⟩⟩

theorem Ahead.one (hl : Lined (l :: ls)) : Ahead [l.token.range] ls :=
  ⟨by simpa using hl.proper l List.mem_cons_self, by simpa using hl.head_before⟩

/-- Faults of what is derived on one side do not lie inside of what is sited on the other. -/
theorem Derives.not_inside (h : Derives behind as ss fs) (hl : Lined as) (hd : d ∈ fs) (hb : Ahead behind bs)
    (hs : Sited bs s.range)
    (hapart : (∀ a ∈ as, ∀ b ∈ bs, a.token.range.stop ≤ b.token.range.start) ∨
      ∀ b ∈ bs, ∀ a ∈ as, b.token.range.stop ≤ a.token.range.start) : s.range.contains d.range = false := by
  rcases h.faults hl d hd with ⟨hr, -⟩ | hsited
  · obtain ⟨x, hx, hstart⟩ := hs.start
    exact Range.not_contains (hb.proper _ hr) (.inl (hstart ▸ hb.before _ hr x hx))
  · exact Range.not_contains hsited.proper (hapart.imp (hsited.before hs) (hs.before hsited))

theorem Settled.flagged (hs : Settled l.token.range ls s fs) (hl : Lined (l :: ls)) (hr : s.range = l.span ls)
    (h : Derives [l.token.range] ls ss fs) : Flagged text fs s := by
  have hinside : ∀ d ∈ fs, s.range.contains d.range = true := by
    intro d hd
    rw [hr]
    rcases h.faults hl.tail d hd with ⟨hmem, -⟩ | hsited
    · rw [List.mem_singleton.mp hmem]
      exact span_contains hl List.mem_cons_self
    · exact (hsited.mono fun x hx => List.mem_cons_of_mem l hx).inside hl
  -- What is skipped inside is skipped behind the first lexeme.
  have hnever : ∀ d ∈ fs, ¬Leftover text s d := by
    rintro d hd ⟨hcode, -, -, -, hstart⟩
    obtain ⟨⟨x, hx, hxstart⟩, -, -⟩ := h.skip_sited hl.tail hd (by rw [hcode]; rfl)
    have h₁ := hl.head_before x hx
    have h₂ := hl.proper l List.mem_cons_self
    have h₃ : s.range.start = l.token.range.start := by rw [hr, Lexeme.span]
    omega
  cases hs with
  | @call arguments isNested hk hc _ =>
    refine ⟨fun hfalse => ?_, fun _ => ?_, by simp [hk], by simp [hk]⟩
    · rw [hc, Bool.not_eq_false'] at hfalse
      obtain ⟨d, hd, -⟩ := List.any_eq_true.mp hfalse
      exact ⟨d, hd, hinside d hd⟩
    · rw [hc, Bool.not_eq_true', List.any_eq_false]
      exact ⟨fun hnone d hd hstructural => absurd hstructural (hnone d hd),
        fun hall d hd hstructural => hnever d hd (hall d hd hstructural (hinside d hd))⟩
  | @block block branches terminator hk hc hf =>
    refine ⟨fun hfalse => ?_, by simp [isOperand, hk], fun hk' => ?_, by simp [hk]⟩
    · obtain ⟨d, hd⟩ := List.exists_mem_of_ne_nil fs (hf hfalse)
      exact ⟨d, hd, hinside d hd⟩
    · rw [hk] at hk'
      cases hk'
      exact hc

/-- An operand starts with a lexeme that a construct can start with. -/
theorem Derives.operand_start (h : Derives behind taken ss fs) (hl : Lined taken) (hs : s ∈ walkAll ss)
    (ho : s.isOperand = true) :
    ∃ x ∈ taken, x.token.kind.startsConstruct = true ∧ x.token.range.start = s.range.start := by
  obtain ⟨kept, hkept⟩ := h.keeps hl
  have hmark : Mark.first s.range.start ∈ marksAll ss := by
    refine List.mem_flatMap.mpr ⟨s, hs, ?_⟩
    unfold isOperand at ho
    unfold Symbol.marks
    cases hk : s.kind with
    | field qualifier => cases qualifier <;> simp
    | call | literal => simp
    | _ => simp [hk] at ho
  obtain ⟨x, hx, hstarts, hstart⟩ := exists_left hkept.marks hmark
  exact ⟨x, hkept.sublist.subset hx, hstarts, hstart⟩

/-- An operand that starts no later than the first lexeme starts with it. -/
theorem Derives.operand_head (h : Derives behind (l :: ls) ss fs) (hl : Lined (l :: ls)) (hs : s ∈ walkAll ss)
    (ho : s.isOperand = true) (hle : s.range.start ≤ l.token.range.start) :
    l.token.kind.startsConstruct = true ∧ l.token.range.start = s.range.start := by
  obtain ⟨x, hx, hstarts, hstart⟩ := h.operand_start hl hs ho
  rcases List.mem_cons.mp hx with rfl | hx
  · exact ⟨hstarts, hstart⟩
  · have h₁ := hl.head_before x hx
    have h₂ := hl.proper l List.mem_cons_self
    omega

/-- What is said of a symbol and of all that is below it is said of the trees. -/
theorem forall_walk_singleton {P : Symbol → Prop} (hs : P s) (hc : ∀ x ∈ walkAll s.children, P x) :
    ∀ x ∈ walkAll [s], P x := by
  rw [walkAll_singleton, walk_eq]
  exact List.forall_mem_cons.mpr ⟨hs, hc⟩

/-- Every symbol is complete exactly when it should be. -/
theorem Derives.flagged (h : Derives behind taken ss fs) (hl : Lined taken) (hb : Ahead behind taken)
    (htext : taken ⊆ text) : ∀ s ∈ walkAll ss, Flagged text fs s := by
  induction h with
  | nothing => simp
  | append ha hb' iha ihb =>
    have hbefore := hl.between
    intro s hs
    rw [walkAll_append] at hs
    have hba := hb.sublist (List.sublist_append_left _ _)
    have hbb := hb.sublist (List.sublist_append_right _ _)
    rcases List.mem_append.mp hs with hs | hs
    · refine (iha hl.left hba (fun x hx => htext (by simp [hx])) s hs).beside (List.subset_append_left _ _)
        fun d hd hnot => ?_
      have hd' := (List.mem_append.mp hd).resolve_left hnot
      exact hb'.not_inside hl.right hd' hba (ha.symbols hl.left s hs) (.inr hbefore)
    · refine (ihb hl.right hbb (fun x hx => htext (by simp [hx])) s hs).beside (List.subset_append_right _ _)
        fun d hd hnot => ?_
      have hd' := (List.mem_append.mp hd).resolve_right hnot
      exact ha.not_inside hl.left hd' hbb (hb'.symbols hl.right s hs) (.inl hbefore)
  | token _ _ ih => exact ih hl.tail (hb.cons hl) fun x hx => htext (List.mem_cons_of_mem _ hx)
  | @operator _ l ls o ss fs _ hk hs hc _ ih =>
    intro s hs'
    rw [walkAll_cons, walk_eq, hs.children, walkAll_nil] at hs'
    rcases List.mem_cons.mp hs' with rfl | hs'
    · exact .of_operator hk hc
    · exact ih hl.tail (hb.cons hl) (fun x hx => htext (List.mem_cons_of_mem _ hx)) s hs'
  | report => simp
  | stray => simp
  | literal _ hk hs hf =>
    refine forall_walk_singleton (hf.flagged ?_ ?_) (by simp [hs.children])
    · rw [hs.range]
      exact Range.contains_self _
    · rw [isOperand, hk]
  | field _ hk hs hf =>
    refine forall_walk_singleton (hf.flagged ?_ ?_) (by simp [hs.children])
    · rw [hs.range]
      exact Range.contains_self _
    · rw [isOperand, hk]
  | @qualifiedField _ l dot l' _ _ _ _ _ _ hk hs hf =>
    refine forall_walk_singleton (hf.flagged ?_ ?_) (by simp [hs.children])
    · rw [hs.range]
      exact Bool.and_eq_true_iff.mpr ⟨decide_eq_true (Nat.min_le_right _ _), decide_eq_true (Nat.le_max_right _ _)⟩
    · rw [isOperand, hk]
  | construct _ hr hs h ih =>
    refine forall_walk_singleton (hs.flagged hl hr h) ?_
    exact ih hl.tail (.one hl) fun x hx => htext (List.mem_cons_of_mem _ hx)
  | tooDeep hs hc _ hr =>
    refine forall_walk_singleton (hs.flagged (List.mem_singleton_self _) ?_) (by simp [hc])
    rw [hs.range, hr]
    exact Range.contains_self _
  | @skipped _ l ls s d fs hs _ hblock hr h ih =>
    refine forall_walk_singleton (hs.flagged List.mem_cons_self ?_) fun x hx => ?_
    · rw [hs.range, hr]
      exact span_contains hl List.mem_cons_self
    · -- The one new fault is at the first lexeme, so it is left over where an operand around it starts.
      refine (ih hl hb htext x hx).mono (List.subset_cons_self _ _) fun e he hnot hin ho => ?_
      obtain rfl := (List.mem_cons.mp he).resolve_right hnot
      have hle : x.range.start ≤ l.token.range.start := by
        rw [hr] at hin
        simp only [Range.contains, Bool.and_eq_true, decide_eq_true_eq] at hin
        exact hin.1
      obtain ⟨hstarts, hstart⟩ := h.operand_head hl hx ho hle
      exact ⟨hblock hstarts, l, htext List.mem_cons_self, hr, hr ▸ hstart⟩

end Reading

end Calculation
