import Calculation.Outline.Basic

/-!
Ranges one behind the other, and trees whose parts nest. What is asked of a tree is asked of each of its
symbols alone: the parts that its kind names and its children stand in line inside it. A tree of which this
holds has no disorder.
-/
namespace Calculation

namespace Range

/-- Ranges one behind the other between two offsets. -/
def InLine (lo hi : Nat) : List Range → Prop
  | [] => True
  | r :: rs => lo ≤ r.start ∧ r.start ≤ r.stop ∧ r.stop ≤ hi ∧ InLine r.stop hi rs

variable {lo hi lo' hi' m : Nat} {r : Range} {rs as bs : List Range}

@[simp] theorem inLine_nil : InLine lo hi [] := trivial

@[simp] theorem inLine_cons :
    InLine lo hi (r :: rs) ↔ lo ≤ r.start ∧ r.start ≤ r.stop ∧ r.stop ≤ hi ∧ InLine r.stop hi rs := Iff.rfl

theorem InLine.mono (h : InLine lo hi rs) (hl : lo' ≤ lo) (hh : hi ≤ hi') : InLine lo' hi' rs := by
  induction rs generalizing lo lo' with
  | nil => trivial
  | cons r rs ih =>
    obtain ⟨h₁, h₂, h₃, h₄⟩ := h
    exact ⟨by omega, h₂, by omega, ih h₄ (Nat.le_refl _)⟩

theorem InLine.append (ha : InLine lo m as) (hb : InLine m hi bs) (hl : lo ≤ m) (hm : m ≤ hi) :
    InLine lo hi (as ++ bs) := by
  induction as generalizing lo with
  | nil => exact hb.mono hl (Nat.le_refl _)
  | cons a as ih =>
    obtain ⟨h₁, h₂, h₃, h₄⟩ := ha
    exact ⟨h₁, h₂, by omega, ih h₄ h₃⟩

theorem InLine.bounds (h : InLine lo hi rs) : ∀ r ∈ rs, lo ≤ r.start ∧ r.start ≤ r.stop ∧ r.stop ≤ hi := by
  induction rs generalizing lo with
  | nil => simp
  | cons r rs ih =>
    obtain ⟨h₁, h₂, h₃, h₄⟩ := h
    intro x hx
    rcases List.mem_cons.mp hx with rfl | hx
    · exact ⟨h₁, h₂, h₃⟩
    · obtain ⟨hl, hp, hh⟩ := ih h₄ x hx
      exact ⟨by omega, hp, hh⟩

theorem contains_self (r : Range) : r.contains r = true := by
  simp [contains]

/-- What is not empty and stands in front of a range or behind it is not inside. -/
theorem not_contains {q : Range} (hr : r.start < r.stop) (h : r.stop ≤ q.start ∨ q.stop ≤ r.start) :
    q.contains r = false := by
  simp only [contains, Bool.and_eq_false_iff, decide_eq_false_iff_not]
  omega

end Range

/-- A branch starts with its keyword. -/
structure Branch.Proper (b : Branch) : Prop where
  start : b.keyword.start = b.range.start
  keyword : b.keyword.start ≤ b.keyword.stop
  stop : b.keyword.stop ≤ b.range.stop

/-- The end of a block's terminator is the end of the block, and no branch reaches into it. -/
structure Range.Terminates (t r : Range) (branches : List Branch) : Prop where
  proper : r.start ≤ t.start ∧ t.start ≤ t.stop
  stop : t.stop = r.stop
  behind : ∀ b ∈ branches, b.range.stop ≤ t.start

namespace Symbol

/-- The parts that a kind names stand in line inside the symbol's range. -/
def Kind.Fits (r : Range) : Kind → Prop
  | .block _ branches terminator =>
    Range.InLine r.start r.stop (branches.map (·.range)) ∧ (∀ b ∈ branches, b.Proper) ∧
      ∀ t ∈ terminator, t.Terminates r branches
  | .call arguments _ => Range.InLine r.start r.stop (arguments.map (·.range))
  | _ => True

/-- What a symbol names and what it holds stand in line inside it. -/
structure Orderly (edge : Nat → Prop) (s : Symbol) : Prop where
  kind : s.kind.Fits s.range
  children : Range.InLine s.range.start s.range.stop (s.children.map (·.range))
  edges : edge s.range.start ∧ edge s.range.stop

/-- Symbols one behind the other between two offsets, all of them and all below them orderly. -/
structure InLine (edge : Nat → Prop) (lo hi : Nat) (ss : List Symbol) : Prop where
  ranges : Range.InLine lo hi (ss.map (·.range))
  orderly : ∀ s ∈ walkAll ss, s.Orderly edge

theorem walk_eq (s : Symbol) : s.walk = s :: walkAll s.children := by
  cases s
  rw [walk]

@[simp] theorem walkAll_nil : walkAll [] = [] := by rw [walkAll]

theorem walkAll_cons (s : Symbol) (ss : List Symbol) : walkAll (s :: ss) = s.walk ++ walkAll ss := by
  rw [walkAll]

@[simp] theorem walkAll_append (a b : List Symbol) : walkAll (a ++ b) = walkAll a ++ walkAll b := by
  induction a with
  | nil => simp
  | cons s ss ih => rw [List.cons_append, walkAll_cons, walkAll_cons, ih, List.append_assoc]

theorem subset_walkAll (ss : List Symbol) : ss ⊆ walkAll ss := by
  induction ss with
  | nil => exact List.nil_subset _
  | cons s ss ih =>
    rw [walkAll_cons, walk_eq]
    exact List.cons_subset_cons s (List.subset_append_of_subset_right _ ih)

@[simp] theorem walkAll_singleton (s : Symbol) : walkAll [s] = s.walk := by
  rw [walkAll_cons, walkAll_nil, List.append_nil]

namespace InLine

variable {edge : Nat → Prop} {lo hi lo' hi' m : Nat} {s : Symbol} {as bs ss : List Symbol}

@[simp] theorem nil : InLine edge lo hi [] :=
  ⟨trivial, by simp⟩

theorem mono (h : InLine edge lo hi ss) (hl : lo' ≤ lo) (hh : hi ≤ hi') : InLine edge lo' hi' ss :=
  ⟨h.ranges.mono hl hh, h.orderly⟩

theorem weaken {edge' : Nat → Prop} (h : InLine edge lo hi ss) (he : ∀ n, edge n → edge' n) :
    InLine edge' lo hi ss :=
  ⟨h.ranges, fun s hs => ⟨(h.orderly s hs).kind, (h.orderly s hs).children,
    he _ (h.orderly s hs).edges.1, he _ (h.orderly s hs).edges.2⟩⟩

theorem append (ha : InLine edge lo m as) (hb : InLine edge m hi bs) (hl : lo ≤ m) (hm : m ≤ hi) :
    InLine edge lo hi (as ++ bs) := by
  refine ⟨?_, ?_⟩
  · rw [List.map_append]
    exact ha.ranges.append hb.ranges hl hm
  · intro s hs
    rw [walkAll_append] at hs
    rcases List.mem_append.mp hs with h | h
    · exact ha.orderly s h
    · exact hb.orderly s h

/-- Symbols that stand in line in each of several ranges in line are all in line. -/
theorem flatMap {α : Type} {range : α → Range} {symbols : α → List Symbol} {l : List α}
    (hr : Range.InLine lo hi (l.map range))
    (hs : ∀ a ∈ l, InLine edge (range a).start (range a).stop (symbols a)) : InLine edge lo hi (l.flatMap symbols) := by
  induction l generalizing lo with
  | nil => exact .nil
  | cons a l ih =>
    obtain ⟨h₁, h₂, h₃, h₄⟩ := hr
    obtain ⟨ha, hl⟩ := List.forall_mem_cons.mp hs
    rw [List.flatMap_cons]
    exact (ha.mono h₁ (Nat.le_refl _)).append (ih h₄ hl) (Nat.le_trans h₁ h₂) h₃

/-- A symbol in line is made of its kind's parts and of its children in line. -/
theorem one (hl : lo ≤ s.range.start) (hs : s.range.start ≤ s.range.stop) (hh : s.range.stop ≤ hi)
    (he : edge s.range.start ∧ edge s.range.stop) (hk : s.kind.Fits s.range)
    (hc : InLine edge s.range.start s.range.stop s.children) : InLine edge lo hi [s] := by
  refine ⟨⟨hl, hs, hh, trivial⟩, ?_⟩
  intro x hx
  rw [walkAll_singleton, walk_eq] at hx
  rcases List.mem_cons.mp hx with rfl | hx
  · exact ⟨hk, hc.ranges, he⟩
  · exact hc.orderly x hx

theorem uncons (h : InLine edge lo hi (s :: ss)) :
    lo ≤ s.range.start ∧ s.range.start ≤ s.range.stop ∧ s.range.stop ≤ hi ∧
      (edge s.range.start ∧ edge s.range.stop) ∧ s.kind.Fits s.range ∧
        InLine edge s.range.start s.range.stop s.children ∧ InLine edge s.range.stop hi ss := by
  obtain ⟨⟨h₁, h₂, h₃, h₄⟩, ho⟩ := h
  rw [walkAll_cons, walk_eq] at ho
  have hs := ho s (by simp)
  refine ⟨h₁, h₂, h₃, hs.edges, hs.kind, ⟨hs.children, fun x hx => ho x ?_⟩, h₄, fun x hx => ho x ?_⟩
  · exact List.mem_append_left _ (List.mem_cons_of_mem _ hx)
  · exact List.mem_append_right _ hx

theorem cons (hs : InLine edge lo hi [s]) (hss : InLine edge s.range.stop hi ss) : InLine edge lo hi (s :: ss) := by
  obtain ⟨h₁, h₂, h₃, -, -, -, -⟩ := hs.uncons
  have hs' : InLine edge lo s.range.stop [s] := ⟨⟨h₁, h₂, Nat.le_refl _, trivial⟩, hs.orderly⟩
  exact hs'.append hss (by omega) h₃

end InLine

mutual

theorem InLine.walk_bounds {edge : Nat → Prop} : ∀ (s : Symbol) {lo hi : Nat}, InLine edge lo hi [s] →
    ∀ x ∈ s.walk, lo ≤ x.range.start ∧ x.range.start ≤ x.range.stop ∧ x.range.stop ≤ hi
  | ⟨n, k, r, cs, c, l⟩, lo, hi, h, x, hx => by
    obtain ⟨h₁, h₂, h₃, -, -, hc, -⟩ := h.uncons
    rw [walk] at hx
    rcases List.mem_cons.mp hx with rfl | hx
    · exact ⟨h₁, h₂, h₃⟩
    · obtain ⟨x₁, x₂, x₃⟩ := InLine.walkAll_bounds cs hc x hx
      exact ⟨Nat.le_trans h₁ x₁, x₂, Nat.le_trans x₃ h₃⟩

/-- All symbols below symbols in line lie between the same offsets. -/
theorem InLine.walkAll_bounds {edge : Nat → Prop} : ∀ (ss : List Symbol) {lo hi : Nat}, InLine edge lo hi ss →
    ∀ x ∈ walkAll ss, lo ≤ x.range.start ∧ x.range.start ≤ x.range.stop ∧ x.range.stop ≤ hi
  | [], _, _, _, x, hx => by
    rw [walkAll] at hx
    cases hx
  | s :: ss, lo, hi, h, x, hx => by
    obtain ⟨h₁, h₂, h₃, he, hk, hc, hss⟩ := h.uncons
    rw [walkAll] at hx
    rcases List.mem_append.mp hx with hx | hx
    · exact InLine.walk_bounds s (.one h₁ h₂ h₃ he hk hc) x hx
    · obtain ⟨x₁, x₂, x₃⟩ := InLine.walkAll_bounds ss hss x hx
      exact ⟨Nat.le_trans h₁ (Nat.le_trans h₂ x₁), x₂, x₃⟩

end

mutual

theorem disorder?_eq_none : ∀ (s : Symbol), InLine edge s.range.start s.range.stop s.children → s.disorder? = none
  | ⟨n, k, r, cs, c, l⟩, h => by
    rw [disorder?]
    exact disorderAll?_eq_none n r cs h (Nat.le_refl _) (by simp)

theorem disorderAll?_eq_none (parent : String) (within : Range) : ∀ (ss : List Symbol) {lo : Nat}
    {previousStop : Option Nat}, InLine edge lo within.stop ss → within.start ≤ lo → (∀ p ∈ previousStop, p ≤ lo) →
    disorderAll? parent within previousStop ss = none
  | [], _, _, _, _, _ => by rw [disorderAll?]
  | s :: ss, lo, previousStop, h, hl, hp => by
    obtain ⟨h₁, h₂, h₃, -, -, hc, hss⟩ := h.uncons
    have hin : within.contains s.range = true := by
      simp only [Range.contains, Bool.and_eq_true, decide_eq_true_eq]
      omega
    have hbehind : previousStop.any (s.range.start < ·) = false := by
      cases previousStop with
      | none => rfl
      | some p =>
        have := hp p rfl
        simp only [Option.any_some, decide_eq_false_iff_not]
        omega
    rw [disorderAll?, hin, hbehind, disorder?_eq_none s hc]
    exact disorderAll?_eq_none parent within ss hss (by omega) (by simp)

end

end Symbol

namespace Outline

theorem rootDisorder?_eq_none {lo hi : Nat} {ss : List Symbol} {previousStop : Option Nat}
    (h : Symbol.InLine edge lo hi ss) (hp : ∀ p ∈ previousStop, p ≤ lo) : rootDisorder? previousStop ss = none := by
  induction ss generalizing lo previousStop with
  | nil => rw [rootDisorder?]
  | cons s ss ih =>
    obtain ⟨h₁, h₂, h₃, -, -, hc, hss⟩ := h.uncons
    have hbehind : previousStop.any (s.range.start < ·) = false := by
      cases previousStop with
      | none => rfl
      | some p =>
        have := hp p rfl
        simp only [Option.any_some, decide_eq_false_iff_not]
        omega
    rw [rootDisorder?, hbehind, s.disorder?_eq_none hc]
    exact ih hss (by simp)

end Outline

end Calculation
