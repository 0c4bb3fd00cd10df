import Calculation.Proofs.Reading.Onward
import Calculation.Proofs.Tree.InLine

namespace Calculation

/-- From the start of a lexeme to the end of the last of those behind it. -/
def Lexeme.span (l : Lexeme) (ls : List Lexeme) : Range :=
  ⟨l.token.range.start, max (Cursor.endOf l.token.range.stop ls) l.token.range.start⟩

namespace Reading
open Cursor

/-- Lexemes one behind the other, none of them empty. -/
structure Lined (ls : List Lexeme) : Prop where
  apart : ls.Pairwise fun a b => a.token.range.stop ≤ b.token.range.start
  proper : ∀ l ∈ ls, l.token.range.start < l.token.range.stop

variable {l : Lexeme} {ls as bs : List Lexeme} {r q : Range}

theorem Lined.tail (h : Lined (l :: ls)) : Lined ls :=
  ⟨(List.pairwise_cons.mp h.apart).2, fun x hx => h.proper x (List.mem_cons_of_mem l hx)⟩

theorem Lined.sublist (h : Lined bs) (hs : as.Sublist bs) : Lined as :=
  ⟨h.apart.sublist hs, fun x hx => h.proper x (hs.subset hx)⟩

theorem Lined.left (h : Lined (as ++ bs)) : Lined as :=
  h.sublist (List.sublist_append_left as bs)

theorem Lined.right (h : Lined (as ++ bs)) : Lined bs :=
  h.sublist (List.sublist_append_right as bs)

theorem Lined.between (h : Lined (as ++ bs)) :
    ∀ a ∈ as, ∀ b ∈ bs, a.token.range.stop ≤ b.token.range.start :=
  (List.pairwise_append.mp h.apart).2.2

theorem Lined.head_before (h : Lined (l :: ls)) : ∀ x ∈ ls, l.token.range.stop ≤ x.token.range.start :=
  (List.pairwise_cons.mp h.apart).1

/-- No two lexemes start at one place. -/
theorem Lined.eq_of_start (h : Lined ls) {x y : Lexeme} (hx : x ∈ ls) (hy : y ∈ ls)
    (he : x.token.range.start = y.token.range.start) : x = y := by
  induction ls with
  | nil => cases hx
  | cons l ls ih =>
    have hl := h.proper l List.mem_cons_self
    rcases List.mem_cons.mp hx with rfl | hx' <;> rcases List.mem_cons.mp hy with rfl | hy'
    · rfl
    · have := h.head_before y hy'
      omega
    · have := h.head_before x hx'
      omega
    · exact ih h.tail hx' hy'

/-- The range starts with one of the lexemes and stops with one of them. -/
structure Sited (ls : List Lexeme) (r : Range) : Prop where
  start : ∃ x ∈ ls, r.start = x.token.range.start
  stop : ∃ y ∈ ls, r.stop = y.token.range.stop
  proper : r.start < r.stop

theorem Sited.mono (h : Sited as r) (hs : ∀ x ∈ as, x ∈ bs) : Sited bs r := by
  obtain ⟨⟨x, hx, hxr⟩, ⟨y, hy, hyr⟩, hp⟩ := h
  exact ⟨⟨x, hs x hx, hxr⟩, ⟨y, hs y hy, hyr⟩, hp⟩

theorem Sited.one (hp : l.token.range.start < l.token.range.stop) (hl : l ∈ ls) : Sited ls l.token.range :=
  ⟨⟨l, hl, rfl⟩, ⟨l, hl, rfl⟩, hp⟩

/-- What is sited in the first lexemes ends before what is sited in those behind them starts. -/
theorem Sited.before (hr : Sited as r) (hq : Sited bs q)
    (h : ∀ a ∈ as, ∀ b ∈ bs, a.token.range.stop ≤ b.token.range.start) : r.stop ≤ q.start := by
  obtain ⟨-, ⟨y, hy, hyr⟩, -⟩ := hr
  obtain ⟨⟨x, hx, hxq⟩, -, -⟩ := hq
  rw [hyr, hxq]
  exact h y hy x hx

theorem endOf_bounds (h : Lined (l :: ls)) : ∀ x ∈ l :: ls, x.token.range.stop ≤ endOf l.token.range.stop ls := by
  induction ls generalizing l with
  | nil =>
    intro x hx
    cases List.mem_singleton.mp hx
    exact Nat.le_refl _
  | cons y ls ih =>
    have hbound := ih h.tail
    intro x hx
    rw [endOf_cons]
    rcases List.mem_cons.mp hx with rfl | hx
    · have h₁ := h.head_before y List.mem_cons_self
      have h₂ := h.tail.proper y List.mem_cons_self
      have h₃ := hbound y List.mem_cons_self
      omega
    · exact hbound x hx

theorem span_eq (h : Lined (l :: ls)) : l.span ls = ⟨l.token.range.start, endOf l.token.range.stop ls⟩ := by
  have h₁ := endOf_bounds h l List.mem_cons_self
  have h₂ := h.proper l List.mem_cons_self
  rw [Lexeme.span, Nat.max_eq_left (by omega)]

theorem span_sited (h : Lined (l :: ls)) : Sited (l :: ls) (l.span ls) := by
  obtain ⟨y, hy, he⟩ := endOf_mem 0 l ls
  have h₁ := endOf_bounds h l List.mem_cons_self
  have h₂ := h.proper l List.mem_cons_self
  rw [span_eq h]
  exact ⟨⟨l, List.mem_cons_self, rfl⟩, ⟨y, hy, he⟩, Nat.lt_of_lt_of_le h₂ h₁⟩

theorem span_contains (h : Lined (l :: ls)) {x : Lexeme} (hx : x ∈ l :: ls) :
    (l.span ls).contains x.token.range = true := by
  have h₁ := endOf_bounds h x hx
  have h₂ : l.token.range.start ≤ x.token.range.start := by
    rcases List.mem_cons.mp hx with rfl | hx
    · exact Nat.le_refl _
    · exact Nat.le_trans (Nat.le_of_lt (h.proper l List.mem_cons_self)) (h.head_before x hx)
  rw [span_eq h]
  simp only [Range.contains, Bool.and_eq_true, decide_eq_true_eq]
  exact ⟨h₂, h₁⟩

theorem cover_eq {l₁ l₂ l₃ : Lexeme} (h : Lined [l₁, l₂, l₃]) :
    l₁.token.range.cover l₃.token.range = ⟨l₁.token.range.start, l₃.token.range.stop⟩ := by
  have h₁ := h.head_before l₃ (by simp)
  have h₂ := h.proper l₁ (by simp)
  have h₃ := h.proper l₃ (by simp)
  rw [Range.cover, Nat.min_eq_left (by omega), Nat.max_eq_right (by omega)]

/-- The span of lexemes is around all that is sited in them. -/
theorem Sited.inside (h : Sited (l :: ls) r) (hl : Lined (l :: ls)) : (l.span ls).contains r = true := by
  obtain ⟨⟨x, hx, hstart⟩, ⟨y, hy, hstop⟩, -⟩ := h
  have h₁ := span_contains hl hx
  have h₂ := span_contains hl hy
  simp only [Range.contains, Bool.and_eq_true, decide_eq_true_eq] at h₁ h₂ ⊢
  omega

end Reading

end Calculation
