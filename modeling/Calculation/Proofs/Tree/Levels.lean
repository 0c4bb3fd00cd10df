import Calculation.Proofs.Document.Arguments
import Calculation.Validation

/-!
How many symbols stand one in the other. Trees of so many levels have no longer chain of symbols from a root downwards,
and what is made of them bottom up is made with no more calls inside one another. Comments that hold nothing add one
level at most.
-/
namespace Calculation.Symbol
open Validation

/-- No more than so many symbols stand one in the other. -/
def Levels : Nat → List Symbol → Prop
  | 0, ss => ss = []
  | n + 1, ss => ∀ s ∈ ss, Levels n s.children

/-- Symbols from a root downwards, each a child of the one before. -/
inductive Chain : List Symbol → List Symbol → Prop
  | nil (ss : List Symbol) : Chain ss []
  | cons {ss below : List Symbol} {s : Symbol} (hs : s ∈ ss) (h : Chain s.children below) : Chain ss (s :: below)

/-- What `step` makes of symbols bottom up, with at most so many calls inside one another. -/
def foldWithin? {β : Type} (step : Symbol → List β → β) : Nat → List Symbol → Option (List β)
  | 0, ss => if ss.isEmpty then some [] else none
  | n + 1, ss => ss.mapM fun s => (foldWithin? step n s.children).map (step s)

/-- What `make` makes of a symbol is made by `step` of the symbol and of what it makes of the children. -/
def BottomUp {β : Type} (step : Symbol → List β → β) (make : Symbol → β) : Prop :=
  ∀ s, make s = step s (s.children.map make)

variable {n m : Nat} {s : Symbol} {ss tt path : List Symbol}

@[simp] theorem levels_nil (n : Nat) : Levels n [] := by
  cases n with
  | zero => rfl
  | succ n => exact List.forall_mem_nil _

theorem Levels.mono (h : Levels n ss) (hle : n ≤ m) : Levels m ss := by
  induction n generalizing m ss with
  | zero =>
    obtain rfl : ss = [] := h
    exact levels_nil m
  | succ n ih =>
    obtain ⟨m, rfl⟩ : ∃ k, m = k + 1 := ⟨m - 1, by omega⟩
    intro s hs
    exact ih (h s hs) (by omega)

@[simp] theorem levels_append : Levels n (ss ++ tt) ↔ Levels n ss ∧ Levels n tt := by
  cases n with
  | zero => exact List.append_eq_nil_iff
  | succ n => exact List.forall_mem_append

theorem levels_one : Levels (n + 1) [s] ↔ Levels n s.children :=
  List.forall_mem_singleton

theorem levels_flatten {sss : List (List Symbol)} : Levels n sss.flatten ↔ ∀ ss ∈ sss, Levels n ss := by
  induction sss with
  | nil => simp
  | cons ss sss ih => simp [ih]

theorem Levels.chain_length_le (h : Levels n ss) (hpath : Chain ss path) : path.length ≤ n := by
  induction hpath generalizing n with
  | nil => exact Nat.zero_le n
  | @cons ss below s hs _ ih =>
    cases n with
    | zero =>
      obtain rfl : ss = [] := h
      cases hs
    | succ n => exact Nat.succ_le_succ (ih (h s hs))

/-- Without comments there are no more levels; with comments that hold nothing, one more at most. -/
theorem Levels.of_withoutComments (h : Levels n (withoutCommentsAll ss))
    (hbare : ∀ s ∈ walkAll ss, s.isComment = true → s.children = []) : Levels (n + 1) ss := by
  induction n generalizing ss with
  | zero =>
    intro s hs
    cases hk : s.isComment with
    | true => exact hbare s (subset_walkAll ss hs) hk
    | false =>
      have hmem := mem_withoutCommentsAll hs hk
      rw [show withoutCommentsAll ss = [] from h] at hmem
      cases hmem
  | succ n ih =>
    intro s hs
    cases hk : s.isComment with
    | true =>
      rw [hbare s (subset_walkAll ss hs) hk]
      exact levels_nil _
    | false =>
      have hchildren : withoutCommentsAll s.children = s.withoutComments.children := by
        cases s
        rw [withoutComments]
      apply ih
      · rw [hchildren]
        exact h _ (mem_withoutCommentsAll hs hk)
      · intro x hx
        have hbelow : x ∈ s.walk := walk_eq s ▸ List.mem_cons_of_mem s hx
        exact hbare x (walkAll_trans ss (subset_walkAll ss hs) hbelow)

/-- What is made bottom up of trees takes no more calls inside one another than they have levels. -/
theorem BottomUp.within {β : Type} {step : Symbol → List β → β} {make : Symbol → β} (h : BottomUp step make)
    (hss : Levels n ss) : foldWithin? step n ss = some (ss.map make) := by
  induction n generalizing ss with
  | zero =>
    obtain rfl : ss = [] := hss
    rfl
  | succ n ih =>
    rw [foldWithin?]
    induction ss with
    | nil => rfl
    | cons s ss ihs =>
      obtain ⟨hs, hrest⟩ := List.forall_mem_cons.mp hss
      rw [List.mapM_cons, ih hs, ihs hrest, Option.map_some, ← h s]
      rfl

def walkStep (s : Symbol) (below : List (List Symbol)) : List Symbol :=
  s :: below.flatten

def countStep (_ : Symbol) (below : List Nat) : Nat :=
  1 + sumOf id below

def findAtStep (offset : Nat) (s : Symbol) (below : List (Option Symbol)) : Option Symbol :=
  if s.range.touches offset then (below.findSome? id).or (some s) else none

def shiftedStep (delta lines : Int) (s : Symbol) (below : List Symbol) : Symbol :=
  ⟨s.name, s.kind.shifted delta, s.range.shifted delta, below, s.isComplete, movedLines s.continuation lines⟩

def relocatedStep (delta lines : Int) (s : Symbol) (below : List Symbol) : Symbol :=
  ⟨s.name, s.kind.relocated delta, s.range.relocated delta, below, s.isComplete, relocatedLines s.continuation lines⟩

/-- Nothing that is skipped counts. -/
def nestingStep (s : Symbol) (below : List Nat) : Nat :=
  if s.isSkipped then 0 else (if s.isConditional then 1 else 0) + below.foldr max 0

/-- What is found below a symbol depends on what stands around, the symbol included. -/
def findingsStep (t : SignatureTable) (o : ValidationOptions) (s : Symbol)
    (below : List (Surroundings → List Diagnostic)) (around : Surroundings) : List Diagnostic :=
  if s.isSkipped then [] else (check t o around s).1 ++ below.flatMap (· (check t o around s).2)

theorem bottomUp_walk : BottomUp walkStep walk := by
  have hall : ∀ ss : List Symbol, walkAll ss = (ss.map walk).flatten := by
    intro ss
    induction ss with
    | nil => simp
    | cons s ss ih => simp [walkAll_cons, ih]
  intro s
  rw [walk_eq, hall, walkStep]

theorem bottomUp_count : BottomUp countStep count := by
  have hall : ∀ ss : List Symbol, countAll ss = sumOf id (ss.map count) := by
    intro ss
    induction ss with
    | nil => simp [countAll, sumOf]
    | cons s ss ih => simp [countAll, sumOf, ih]
  rintro ⟨n, k, r, cs, c, l⟩
  rw [count, hall, countStep]

theorem bottomUp_findAt? (offset : Nat) : BottomUp (findAtStep offset) (findAt? offset) := by
  have hall : ∀ ss : List Symbol, findAtAll? offset ss = (ss.map (findAt? offset)).findSome? id := by
    intro ss
    induction ss with
    | nil => simp [findAtAll?]
    | cons s ss ih =>
      rw [findAtAll?, ih, List.map_cons, List.findSome?_cons]
      cases findAt? offset s <;> rfl
  rintro ⟨n, k, r, cs, c, l⟩
  rw [findAt?, hall, findAtStep]

theorem bottomUp_shifted (delta lines : Int) : BottomUp (shiftedStep delta lines) (shifted delta lines) := by
  rintro ⟨n, k, r, cs, c, l⟩
  rw [shifted, shiftedAll_eq_map, shiftedStep]

theorem bottomUp_relocated (delta lines : Int) : BottomUp (relocatedStep delta lines) (relocated delta lines) := by
  rintro ⟨n, k, r, cs, c, l⟩
  rw [relocated, relocatedAll_eq_map, relocatedStep]

/-- The levels of blocks in a tree, unless the whole is skipped; `nestingAll` takes the most of these. -/
def shownNesting (s : Symbol) : Nat :=
  if s.isSkipped then 0 else nesting s

theorem bottomUp_nesting : BottomUp nestingStep shownNesting := by
  have hall : ∀ ss : List Symbol, nestingAll ss = (ss.map shownNesting).foldr max 0 := by
    intro ss
    induction ss with
    | nil => simp [nestingAll]
    | cons s ss ih =>
      rw [nestingAll, List.map_cons, List.foldr_cons, ← ih, shownNesting]
      split <;> simp
  intro s
  rw [shownNesting, nesting_eq, hall, nestingStep]

theorem bottomUp_findings (t : SignatureTable) (o : ValidationOptions) :
    BottomUp (findingsStep t o) (fun s around => findings t o around s) := by
  have hall : ∀ (ss : List Symbol) (around : Surroundings),
      findingsAll t o around ss = (ss.map fun s around => findings t o around s).flatMap (· around) := by
    intro ss around
    induction ss with
    | nil => simp [findingsAll]
    | cons s ss ih => simp [findingsAll, ih]
  rintro ⟨n, k, r, cs, c, l⟩
  funext around
  simp only [findings, hall, findingsStep]
  by_cases hk : k = .skipped <;> simp [isSkipped, hk]

end Calculation.Symbol
