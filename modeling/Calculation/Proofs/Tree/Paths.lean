import Mathlib.Order.Bounds.Basic
import Calculation.Proofs.Tree.Around
import Calculation.Validation

/-!
Paths from the roots of trees down to their leaves. Paths go around skipped stretches, so that a symbol with nothing
else below it is a leaf. The places of the trees that no skipped stretch is around are those that paths go through; and
what validation takes for the nesting of a symbol is the largest number of IF and CASE blocks on a path down from it.
-/
namespace Calculation.Symbol
open Validation

/-- An IF or CASE block. -/
def isConditional (s : Symbol) : Bool :=
  match s.kind with
  | .block b _ _ => b.isConditional
  | _ => false

/-- A path from one of the trees down to a leaf. What is skipped is left out of it, with all that it holds. -/
inductive Path : List Symbol → List Symbol → Prop
  | leaf {ss : List Symbol} {s : Symbol} (hs : s ∈ ss) (hk : s.isSkipped = false)
    (hc : ∀ x ∈ s.children, x.isSkipped = true) : Path ss [s]
  | down {ss path : List Symbol} {s : Symbol} (hs : s ∈ ss) (hk : s.isSkipped = false) (h : Path s.children path) :
    Path ss (s :: path)

variable {β : Type} {enter : Symbol → β → β} {around : β} {s x : Symbol} {ss tt path pre post below above : List Symbol}
  {p : List Symbol × Symbol} {q : β × Symbol}

namespace Path

theorem mono (h : Path ss path) (hsub : ss ⊆ tt) : Path tt path := by
  cases h with
  | leaf hs hk hc => exact .leaf (hsub hs) hk hc
  | down hs hk h => exact .down (hsub hs) hk h

/-- What goes on behind a symbol of a path is a path of its own. -/
theorem tail (h : Path ss (pre ++ s :: post)) : Path [s] (s :: post) := by
  induction pre generalizing ss with
  | nil =>
    cases h with
    | leaf hs hk hc => exact .leaf (List.mem_singleton_self s) hk hc
    | down hs hk h => exact .down (List.mem_singleton_self s) hk h
  | cons y ys ih =>
    rw [List.cons_append] at h
    cases hys : ys ++ s :: post with
    | nil => simp at hys
    | cons z zs =>
      rw [hys] at h
      cases h with
      | down _ _ h => exact ih (hys ▸ h)

end Path

theorem mem_placedAll_self (hs : s ∈ ss) : (around, s) ∈ placedAll enter around ss := by
  induction ss with
  | nil => cases hs
  | cons y ys ih =>
    rw [placedAll_cons, placed_eq]
    rcases List.mem_cons.mp hs with rfl | hs
    · exact List.mem_append_left _ List.mem_cons_self
    · exact List.mem_append_right _ (ih hs)

theorem mem_placedAll_below (hs : s ∈ ss) (hq : q ∈ placedAll enter (enter s around) s.children) :
    q ∈ placedAll enter around ss := by
  induction ss with
  | nil => cases hs
  | cons y ys ih =>
    rw [placedAll_cons, placed_eq]
    rcases List.mem_cons.mp hs with rfl | hs
    · exact List.mem_append_left _ (List.mem_cons_of_mem _ hq)
    · exact List.mem_append_right _ (ih hs)

/-- A symbol of a path stands in those in front of it, and in no skipped stretch. -/
theorem Path.place (h : Path ss (pre ++ s :: post)) (above : List Symbol) :
    (pre.reverse ++ above, s) ∈ placedAll List.cons above ss ∧ pre.any (·.isSkipped) = false ∧
      s.isSkipped = false := by
  induction pre generalizing ss above with
  | nil =>
    cases h with
    | leaf hs hk _ => exact ⟨mem_placedAll_self hs, rfl, hk⟩
    | down hs hk _ => exact ⟨mem_placedAll_self hs, rfl, hk⟩
  | cons y ys ih =>
    rw [List.cons_append] at h
    generalize htail : ys ++ s :: post = tail at h
    cases h with
    | leaf => simp at htail
    | down hs hk h =>
      obtain ⟨hplace, hys, hskipped⟩ := ih (htail ▸ h) (y :: above)
      refine ⟨mem_placedAll_below hs ?_, by rw [List.any_cons, hk, hys]; rfl, hskipped⟩
      rwa [List.reverse_cons, List.append_assoc]

/-- Paths lead to every place that no skipped stretch is around, and go on there. -/
theorem Path.extend : ∀ (ss above : List Symbol), p ∈ placedAll List.cons above ss → p.1.any (·.isSkipped) = false →
    Path [p.2] (p.2 :: below) → ∃ inner, p.1 = inner ++ above ∧ Path ss (inner.reverse ++ p.2 :: below)
  | [], above, hp, _, _ => by
    rw [placedAll_nil] at hp
    cases hp
  | ⟨n, k, r, cs, c, l⟩ :: ss, above, hp, hplain, hbelow => by
    rw [placedAll_cons, placed_eq, List.cons_append, List.mem_cons, List.mem_append] at hp
    rcases hp with rfl | hp | hp
    · exact ⟨[], rfl, hbelow.mono (List.cons_subset_cons _ (List.nil_subset ss))⟩
    · obtain ⟨inner, hinner, hpath⟩ := extend cs _ hp hplain hbelow
      refine ⟨inner ++ [⟨n, k, r, cs, c, l⟩], by rw [hinner, List.append_assoc]; rfl, ?_⟩
      rw [List.reverse_append]
      refine .down List.mem_cons_self ?_ hpath
      rw [hinner, List.any_append, List.any_cons, Bool.or_eq_false_iff, Bool.or_eq_false_iff] at hplain
      exact hplain.2.1
    · obtain ⟨inner, hinner, hpath⟩ := extend ss above hp hplain hbelow
      exact ⟨inner, hinner, hpath.mono (List.subset_cons_self _ _)⟩

theorem nesting_eq (s : Symbol) : nesting s = (if s.isConditional then 1 else 0) + nestingAll s.children := by
  obtain ⟨n, k, r, cs, c, l⟩ := s
  unfold nesting isConditional
  cases k <;> rfl

theorem nestingAll_skipped (h : ∀ x ∈ ss, x.isSkipped = true) : nestingAll ss = 0 := by
  induction ss with
  | nil => rw [nestingAll]
  | cons s ss ih =>
    obtain ⟨hs, hss⟩ := List.forall_mem_cons.mp h
    rw [nestingAll, hs, if_pos rfl, ih hss]

theorem nesting_le (hs : s ∈ ss) (hk : s.isSkipped = false) : nesting s ≤ nestingAll ss := by
  induction ss with
  | nil => cases hs
  | cons y ys ih =>
    rw [nestingAll]
    rcases List.mem_cons.mp hs with rfl | hs
    · rw [hk]
      exact Nat.le_max_left ..
    · have hle := ih hs
      split
      · exact hle
      · exact Nat.le_trans hle (Nat.le_max_right ..)

/-- No path goes through more IF and CASE blocks. -/
theorem Path.countP_le (h : Path ss path) : path.countP isConditional ≤ nestingAll ss := by
  induction h with
  | @leaf ss s hs hk hc =>
    have hle := nesting_le hs hk
    rw [nesting_eq] at hle
    rw [List.countP_singleton]
    omega
  | @down ss path s hs hk _ ih =>
    have hle := nesting_le hs hk
    rw [nesting_eq] at hle
    rw [List.countP_cons]
    omega

mutual

theorem nesting_attained : ∀ s : Symbol, s.isSkipped = false →
    ∃ below, Path [s] (s :: below) ∧ (s :: below).countP isConditional = nesting s
  | ⟨n, k, r, cs, c, l⟩, hk => by
    rw [nesting_eq]
    by_cases hcs : ∀ x ∈ cs, x.isSkipped = true
    · exact ⟨[], .leaf (List.mem_singleton_self _) hk hcs, by rw [nestingAll_skipped hcs, List.countP_singleton]; rfl⟩
    · obtain ⟨path, hpath, hcount⟩ := nestingAll_attained cs hcs
      refine ⟨path, .down (List.mem_singleton_self _) hk hpath, ?_⟩
      rw [List.countP_cons, hcount, Nat.add_comm]

/-- Some path goes through as many IF and CASE blocks as the trees are nested. -/
theorem nestingAll_attained : ∀ ss : List Symbol, (¬∀ x ∈ ss, x.isSkipped = true) →
    ∃ path, Path ss path ∧ path.countP isConditional = nestingAll ss
  | [], hne => absurd (by simp) hne
  | s :: ss, hne => by
    have hrest : (¬∀ x ∈ ss, x.isSkipped = true) →
        ∃ path, Path (s :: ss) path ∧ path.countP isConditional = nestingAll ss := fun hss => by
      obtain ⟨path, hpath, hcount⟩ := nestingAll_attained ss hss
      exact ⟨path, hpath.mono (List.subset_cons_self s ss), hcount⟩
    rw [nestingAll]
    cases hk : s.isSkipped with
    | true =>
      refine hrest fun hss => hne ?_
      exact List.forall_mem_cons.mpr ⟨hk, hss⟩
    | false =>
      by_cases hle : nestingAll ss ≤ nesting s
      · obtain ⟨below, hpath, hcount⟩ := nesting_attained s hk
        refine ⟨s :: below, hpath.mono (List.cons_subset_cons s (List.nil_subset ss)), ?_⟩
        rw [hcount]
        exact (Nat.max_eq_left hle).symm
      · have hmax : max (nesting s) (nestingAll ss) = nestingAll ss := Nat.max_eq_right (by omega)
        rw [if_neg Bool.false_ne_true, hmax]
        refine hrest fun hss => hle ?_
        rw [nestingAll_skipped hss]
        exact Nat.zero_le _

end

/-- How deep paths go that lead through a place. -/
def depthsThrough (ss : List Symbol) (p : List Symbol × Symbol) : Set Nat :=
  {n | ∃ below, Path ss (p.1.reverse ++ p.2 :: below) ∧ (p.1.reverse ++ p.2 :: below).countP isConditional = n}

/-- The IF and CASE blocks around a place and its nesting make up the largest depth of a path through it. -/
theorem isGreatest_depthsThrough (hp : p ∈ placedAll List.cons [] ss) (hplain : p.1.any (·.isSkipped) = false)
    (hk : p.2.isSkipped = false) :
    IsGreatest (depthsThrough ss p) (p.1.countP isConditional + nesting p.2) := by
  refine ⟨?_, ?_⟩
  · obtain ⟨below, hpath, hcount⟩ := nesting_attained p.2 hk
    obtain ⟨inner, hinner, hwhole⟩ := Path.extend ss [] hp hplain hpath
    obtain rfl : p.1 = inner := hinner.trans (List.append_nil inner)
    exact ⟨below, hwhole, by rw [List.countP_append, List.countP_reverse, hcount]⟩
  · rintro n ⟨below, hpath, rfl⟩
    have hle := hpath.tail.countP_le
    have hone : nestingAll [p.2] = nesting p.2 := by simp [nestingAll, hk]
    rw [hone] at hle
    rw [List.countP_append, List.countP_reverse]
    omega

end Calculation.Symbol
