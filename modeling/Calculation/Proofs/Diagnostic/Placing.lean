import Mathlib.Data.List.Sort
import Calculation.Diagnostic.Canonical

/-!
Faults in the order of their places. Sorting puts each fault in front of those behind it that do not come before it,
and so keeps equal ones as they came. Hence it may be done before or after faults of one sort are picked, and stretch by
stretch where the stretches follow one another.
-/
namespace Calculation.Diagnostic

variable {d : Diagnostic} {ds es : List Diagnostic}

/-- `b` does not have to stand before `a`. -/
def Precedes (a b : Diagnostic) : Prop :=
  keyLe a.placeKey b.placeKey = true

instance : DecidableRel Precedes := fun a b => inferInstanceAs (Decidable (keyLe a.placeKey b.placeKey = true))

theorem Precedes.trans {a b c : Diagnostic} (hab : Precedes a b) (hbc : Precedes b c) : Precedes a c :=
  keyLe_trans hab hbc

theorem precedes_of_lt {a b : Diagnostic} (h : a.range.start < b.range.start) : Precedes a b := by
  simp [Precedes, placeKey, keyLe, h]

theorem inPlaceOrder_nil : inPlaceOrder [] = [] :=
  List.mergeSort_nil

theorem inPlaceOrder_precedes (ds : List Diagnostic) : (inPlaceOrder ds).Pairwise Precedes := by
  apply List.pairwise_mergeSort
  · exact fun a b c => keyLe_trans
  · exact fun a b => keyLe_total a.placeKey b.placeKey

theorem orderedInsert_front (hes : ∀ b ∈ es, Precedes d b) : es.orderedInsert Precedes d = d :: es := by
  cases es with
  | nil => rfl
  | cons e es => exact List.orderedInsert_cons_of_le Precedes es (hes e List.mem_cons_self)

/-- In sorted faults those that stand before `d` come first, so `d` has its place behind them. -/
theorem orderedInsert_append (hds : ∀ b ∈ ds, ¬Precedes d b) (hes : ∀ b ∈ es, Precedes d b) :
    (ds ++ es).orderedInsert Precedes d = ds ++ d :: es := by
  induction ds with
  | nil => exact orderedInsert_front hes
  | cons b ds ih =>
    obtain ⟨hb, hds⟩ := List.forall_mem_cons.mp hds
    rw [List.cons_append, List.orderedInsert_of_not_le Precedes (ds ++ es) hb, ih hds]
    rfl

/-- Sorting by insertion. -/
theorem inPlaceOrder_cons (d : Diagnostic) (ds : List Diagnostic) :
    inPlaceOrder (d :: ds) = (inPlaceOrder ds).orderedInsert Precedes d := by
  have htrans : ∀ a b c : Diagnostic, keyLe a.placeKey b.placeKey = true → keyLe b.placeKey c.placeKey = true →
      keyLe a.placeKey c.placeKey = true := fun _ _ _ => keyLe_trans
  have htotal : ∀ a b : Diagnostic, (keyLe a.placeKey b.placeKey || keyLe b.placeKey a.placeKey) = true := fun a b =>
    keyLe_total a.placeKey b.placeKey
  obtain ⟨before, behind, hsorted, hrest, hbefore⟩ := List.mergeSort_cons htrans htotal d ds
  have hall := inPlaceOrder_precedes (d :: ds)
  rw [inPlaceOrder, hsorted] at hall
  have hbehind := (List.pairwise_cons.mp (List.pairwise_append.mp hall).2.1).1
  rw [inPlaceOrder, inPlaceOrder, hsorted, hrest]
  refine (orderedInsert_append (fun b hb => ?_) hbehind).symm
  simpa [Precedes] using hbefore b hb

/-- To put in a fault of the sort that is picked is to put it in among those picked. -/
theorem filter_orderedInsert (p : Diagnostic → Bool) (hds : ds.Pairwise Precedes) :
    (ds.orderedInsert Precedes d).filter p =
      if p d then (ds.filter p).orderedInsert Precedes d else ds.filter p := by
  induction ds with
  | nil => rw [List.orderedInsert_nil, List.filter_cons]; rfl
  | cons b ds ih =>
    obtain ⟨hb, hds⟩ := List.pairwise_cons.mp hds
    by_cases hle : Precedes d b
    · rw [List.orderedInsert_cons_of_le Precedes ds hle, List.filter_cons]
      split
      · have hahead : ∀ x ∈ (b :: ds).filter p, Precedes d x := fun x hx => by
          rcases List.mem_cons.mp (List.mem_filter.mp hx).1 with rfl | hx
          · exact hle
          · exact hle.trans (hb x hx)
        exact (orderedInsert_front hahead).symm
      · rfl
    · rw [List.orderedInsert_of_not_le Precedes ds hle, List.filter_cons, ih hds, List.filter_cons]
      cases hpb : p b with
      | false => rfl
      | true =>
        rw [if_pos rfl, if_pos rfl]
        split
        · rw [List.orderedInsert_of_not_le Precedes _ hle]
        · rfl

theorem inPlaceOrder_filter (p : Diagnostic → Bool) (ds : List Diagnostic) :
    (inPlaceOrder ds).filter p = inPlaceOrder (ds.filter p) := by
  induction ds with
  | nil => rw [inPlaceOrder_nil, List.filter_nil, inPlaceOrder_nil]
  | cons d ds ih =>
    rw [inPlaceOrder_cons, filter_orderedInsert p (inPlaceOrder_precedes ds), ih, List.filter_cons]
    split
    · rw [inPlaceOrder_cons]
    · rfl

theorem orderedInsert_left (h : ∀ b ∈ es, Precedes d b) :
    (ds ++ es).orderedInsert Precedes d = ds.orderedInsert Precedes d ++ es := by
  induction ds with
  | nil => exact orderedInsert_front h
  | cons b ds ih =>
    by_cases hle : Precedes d b
    · rw [List.cons_append, List.orderedInsert_cons_of_le Precedes _ hle, List.orderedInsert_cons_of_le Precedes _ hle]
      rfl
    · rw [List.cons_append, List.orderedInsert_of_not_le Precedes _ hle,
        List.orderedInsert_of_not_le Precedes _ hle, ih]
      rfl

theorem inPlaceOrder_append (h : ∀ a ∈ ds, ∀ b ∈ es, Precedes a b) :
    inPlaceOrder (ds ++ es) = inPlaceOrder ds ++ inPlaceOrder es := by
  induction ds with
  | nil => rw [inPlaceOrder_nil, List.nil_append, List.nil_append]
  | cons d ds ih =>
    obtain ⟨hd, hds⟩ := List.forall_mem_cons.mp h
    rw [List.cons_append, inPlaceOrder_cons, ih hds, inPlaceOrder_cons]
    exact orderedInsert_left fun b hb => hd b (List.mem_mergeSort.mp hb)

/-- Stretches whose faults follow one another are sorted one by one. -/
theorem inPlaceOrder_flatMap {α : Type} (f : α → List Diagnostic) {as : List α}
    (h : as.Pairwise fun x y => ∀ a ∈ f x, ∀ b ∈ f y, Precedes a b) :
    (as.flatMap fun x => inPlaceOrder (f x)) = inPlaceOrder (as.flatMap f) := by
  induction as with
  | nil => exact inPlaceOrder_nil.symm
  | cons x as ih =>
    obtain ⟨hx, has⟩ := List.pairwise_cons.mp h
    rw [List.flatMap_cons, List.flatMap_cons, ih has]
    refine (inPlaceOrder_append fun a ha b hb => ?_).symm
    obtain ⟨y, hy, hby⟩ := List.mem_flatMap.mp hb
    exact hx y hy a ha b hby

end Calculation.Diagnostic
