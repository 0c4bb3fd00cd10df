import Calculation.Proofs.Seam.Items

namespace Calculation.Seam

open Statement

variable {m : Seam} {v : List Lexeme} {i : Item}

/-- Both readings see the same lexeme behind the seam. -/
def OneAhead (m : Seam) : Prop :=
  ∃ x ls₁ ls₂, m.rest₁ = x :: ls₁ ∧ m.rest₂ = x.shifted m.bytes :: ls₂

/-- A dot and a field stand behind the seam in the second reading, but not in the first one. -/
def QualifiesOnce (m : Seam) : Prop :=
  qualifies m.rest₁ = false ∧ qualifies m.rest₂ = true

/-- A complete reference without qualifier whose field is the last of the shared lexemes. -/
def FieldAtEnd (m : Seam) (s : Symbol) : Prop :=
  s.kind = .field none ∧ s.isComplete = true ∧ ∃ pre l, m.before = pre ++ [l] ∧ s.range = l.token.range

theorem OneAhead.joint (h : m.OneAhead) : m.Joint := by
  obtain ⟨x, ls₁, ls₂, h₁, h₂⟩ := h
  exact .ahead x ls₁ ls₂ h₁ h₂

theorem OneAhead.not_openCall (h : m.OneAhead) : ¬m.OpenCall := by
  obtain ⟨x, ls₁, ls₂, h₁, h₂⟩ := h
  rintro ⟨-, hclosed, hopen⟩
  rw [h₁] at hclosed
  rw [h₂] at hopen
  exact absurd hopen (Bool.eq_false_iff.mp hclosed)

/-- A run that ends in front of a lexeme ends there whatever comes behind it. -/
theorem runLength_ahead {balance n : Nat} {x : Lexeme} {ls₁ ls₂ : List Lexeme}
    (h : runLength balance (v ++ x :: ls₁) = v.length) :
    runLength balance (v.map (·.shifted n) ++ x.shifted n :: ls₂) = v.length := by
  induction v generalizing balance with
  | nil =>
    rw [List.nil_append, runLength] at h
    rw [List.map_nil, List.nil_append, runLength, kind_shifted, blank_shifted]
    cases hb : balanceBehind? balance x.token.kind with
    | none => rfl
    | some k =>
      rw [hb] at h
      dsimp only at h ⊢
      split at h
      · rename_i hend
        rw [if_pos hend]
        rfl
      · rw [List.length_nil] at h
        omega
  | cons l v ih =>
    rw [List.cons_append, runLength] at h
    rw [List.map_cons, List.cons_append, runLength, kind_shifted, blank_shifted]
    cases hb : balanceBehind? balance l.token.kind with
    | none =>
      rw [hb] at h
      cases h
    | some k =>
      rw [hb] at h
      dsimp only at h ⊢
      split at h
      · cases h
      · rename_i hend
        rw [List.length_cons] at h
        rw [if_neg hend, ih (by omega), List.length_cons, Nat.add_comm]

theorem OneAhead.not_openRun (h : m.OneAhead) (l : Lexeme) (v : List Lexeme) : ¬m.OpenRun l v := by
  obtain ⟨x, ls₁, ls₂, h₁, h₂⟩ := h
  rintro ⟨hone, hmore⟩
  rw [h₁] at hone
  have hsame : runLength ((balanceBehind? 0 l.token.kind).getD 0) (m.shifted v ++ m.rest₂) = v.length := by
    rw [h₂]
    exact runLength_ahead hone
  exact Nat.lt_irrefl _ (hsame ▸ hmore)

/-- A qualifier takes two lexemes; so only the one right in front of the seam looks at what differs. -/
theorem OneAhead.openReference_iff (h : m.OneAhead) : m.OpenReference v ↔ v = [] ∧ m.QualifiesOnce := by
  obtain ⟨x, ls₁, ls₂, h₁, h₂⟩ := h
  cases v with
  | nil => exact ⟨fun hopen => ⟨rfl, hopen⟩, And.right⟩
  | cons a v =>
    have hsame : qualifies (m.shifted (a :: v) ++ m.rest₂) = qualifies (a :: v ++ m.rest₁) := by
      rw [h₁, h₂]
      cases v <;> rfl
    refine iff_of_false ?_ fun hnil => List.cons_ne_nil a v hnil.1
    rintro ⟨hplain, hqualified⟩
    rw [hsame, hplain] at hqualified
    cases hqualified

theorem OneAhead.marksSymbol_iff (h : m.OneAhead) {s : Symbol} :
    m.MarksSymbol s ↔ m.FieldAtEnd s ∧ m.QualifiesOnce := by
  constructor
  · rintro ⟨hkind, hcomplete, pre, l, v, hbefore, hrange, hopen⟩
    obtain ⟨rfl, honce⟩ := h.openReference_iff.mp hopen
    exact ⟨⟨hkind, hcomplete, pre, l, hbefore, hrange⟩, honce⟩
  · rintro ⟨⟨hkind, hcomplete, pre, l, hbefore, hrange⟩, honce⟩
    exact ⟨hkind, hcomplete, pre, l, [], hbefore, hrange, h.openReference_iff.mpr ⟨rfl, honce⟩⟩

theorem OneAhead.marksItem_iff (h : m.OneAhead) :
    m.MarksItem i ↔ m.QualifiesOnce ∧ ∃ s ∈ Symbol.walkAll i.symbols, m.FieldAtEnd s := by
  constructor
  · rintro (⟨e, -, -, -, l, v, -, -, -, -, hrun⟩ | ⟨s, hs, hmark⟩)
    · exact absurd hrun (h.not_openRun l v)
    · obtain ⟨hfield, honce⟩ := h.marksSymbol_iff.mp hmark
      exact ⟨honce, s, hs, hfield⟩
  · rintro ⟨honce, s, hs, hfield⟩
    exact .inr ⟨s, hs, h.marksSymbol_iff.mpr ⟨hfield, honce⟩⟩

/-- What the two readings make of the shared lexemes: the same, or the second one goes over the seam at a field. -/
theorem OneAhead.parts (h : m.OneAhead) {is : List Item} (hparts : m.Parts v is) :
    (readAll m.src₂ (m.shifted v ++ m.rest₂) = Movable.move m.bytes m.lines is ++ readAll m.src₂ m.rest₂ ∧
        ∀ i ∈ is, ¬m.MarksItem i) ∨
      (Straddles m.src₂ (m.shifted v) m.rest₂ ∧ ∃ i ∈ is, m.MarksItem i) := by
  rcases hparts with ⟨hsame, hcalm, -⟩ | ⟨hover, hmark⟩
  · exact .inl ⟨hsame, hcalm⟩
  · exact .inr ⟨hover, hmark.resolve_left h.not_openCall⟩

/-- Both readings see the same two lexemes behind the seam. -/
def TwoAhead (m : Seam) : Prop :=
  ∃ x y ls₁ ls₂, m.rest₁ = x :: y :: ls₁ ∧ m.rest₂ = m.shifted [x, y] ++ ls₂

theorem TwoAhead.oneAhead (h : m.TwoAhead) : m.OneAhead := by
  obtain ⟨x, y, ls₁, ls₂, h₁, h₂⟩ := h
  exact ⟨x, _, _, h₁, h₂⟩

/-- With two lexemes in sight nothing leads only one of the readings over the seam. -/
theorem TwoAhead.unmarked (h : m.TwoAhead) (i : Item) : ¬m.MarksItem i := by
  intro hmark
  obtain ⟨⟨hplain, hqualified⟩, -⟩ := h.oneAhead.marksItem_iff.mp hmark
  obtain ⟨x, y, ls₁, ls₂, h₁, h₂⟩ := h
  rw [h₁] at hplain
  rw [h₂] at hqualified
  exact absurd hqualified (Bool.eq_false_iff.mp hplain)

end Calculation.Seam
