import Calculation.Edit.Splice

namespace Calculation

/-- Halving keeps a place below `k`, or the place zero, and `k` within the interval that is left. -/
theorem halving_spec (k : Nat) {base size : Nat} (hlo : base = 0 ∨ base < k) (hhi : k ≤ base + size) :
    (halving (· < k) base size = 0 ∨ halving (· < k) base size < k) ∧ k ≤ halving (· < k) base size + 1 := by
  induction hn : size using Nat.strongRecOn generalizing base size with
  | _ n ih =>
    subst hn
    rw [halving]
    split
    · by_cases hmid : base + size / 2 < k
      · simp only [hmid, decide_true, if_true]
        exact ih (size - size / 2) (by omega) (.inr hmid) (by omega) rfl
      · simp only [hmid, decide_false, Bool.false_eq_true, if_false]
        exact ih (size - size / 2) (by omega) hlo (by omega) rfl
    · exact ⟨hlo, by omega⟩

/-- Those with the property come first. -/
def Leading {α : Type} (p : α → Bool) (xs : List α) : Prop :=
  xs.Pairwise fun a b => p b = true → p a = true

namespace Leading

variable {α : Type} {p : α → Bool} {xs : List α}

theorem any_getElem? (h : Leading p xs) (i : Nat) : xs[i]?.any p = decide (i < (xs.takeWhile p).length) := by
  induction xs generalizing i with
  | nil => simp
  | cons a as ih =>
    obtain ⟨hfirst, has⟩ := List.pairwise_cons.mp h
    rw [List.takeWhile_cons]
    by_cases ha : p a = true
    · rw [if_pos ha]
      cases i with
      | zero => simp [ha]
      | succ i => simp [ih has i]
    · rw [if_neg ha]
      cases i with
      | zero => simp [ha]
      | succ i =>
        simp only [List.getElem?_cons_succ, List.length_nil, Nat.not_lt_zero, decide_false]
        cases hi : as[i]? with
        | none => rfl
        | some b => exact Bool.eq_false_iff.mpr fun hb => ha (hfirst b (List.mem_of_getElem? hi) hb)

end Leading

theorem partitionPoint_eq {α : Type} {p : α → Bool} {xs : List α} (h : Leading p xs) :
    partitionPoint p xs = (xs.takeWhile p).length := by
  have hlen := (List.takeWhile_sublist (l := xs) p).length_le
  have hspec := halving_spec (xs.takeWhile p).length (.inl rfl) (Nat.le_trans hlen (Nat.le_of_eq (Nat.zero_add _).symm))
  obtain ⟨hlo, hhi⟩ := hspec
  have hfun : (fun i => xs[i]?.any p) = fun i => decide (i < (xs.takeWhile p).length) := funext h.any_getElem?
  simp only [partitionPoint, hfun]
  generalize halving (fun i => decide (i < (xs.takeWhile p).length)) 0 xs.length = m at hlo hhi ⊢
  rw [h.any_getElem? m]
  by_cases hm : m < (xs.takeWhile p).length
  · rw [if_pos (by simpa using hm)]
    omega
  · rw [if_neg (by simpa using hm)]
    omega

/-- Puts an element where those with the property `p` end, or into the one that stands there when that has room. -/
def settle {α : Type} (p hasRoom : α → Bool) (into : α → α) (x : α) (xs : List α) : List α :=
  let i := partitionPoint p xs
  match xs[i]? with
  | some a => if hasRoom a then xs.set i (into a) else xs.insertIdx i x
  | none => xs.insertIdx i x

/-- Going past those with the property one by one ends where halving does. -/
theorem scan_eq_settle {α : Type} {p hasRoom : α → Bool} {into : α → α} {x : α} {scan : List α → List α}
    (hnil : scan [] = [x])
    (hcons : ∀ a as, scan (a :: as) = if p a then a :: scan as else if hasRoom a then into a :: as else x :: a :: as)
    {xs : List α} (h : Leading p xs) : scan xs = settle p hasRoom into x xs := by
  simp only [settle, partitionPoint_eq h]
  clear h
  induction xs with
  | nil => exact hnil
  | cons a as ih =>
    rw [hcons, List.takeWhile_cons]
    by_cases ha : p a = true
    · rw [if_pos ha, if_pos ha, ih, List.length_cons, List.getElem?_cons_succ]
      cases as[(as.takeWhile p).length]? with
      | none => rfl
      | some b =>
        dsimp only
        split <;> rfl
    · rw [if_neg ha, if_neg ha]
      rfl

end Calculation
