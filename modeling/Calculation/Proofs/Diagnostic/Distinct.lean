import Mathlib.Data.List.Perm.Basic
import Calculation.Diagnostic.Canonical

/-!
What is left when each fault is kept once. The first report of a fault stays and those that repeat it go; so reports
of the same faults in other words change nothing behind the first ones, and reports that are found twice alike are left
once, whichever copy stays.
-/
namespace Calculation.Diagnostic

variable {a b d : Diagnostic} {as bs ds es : List Diagnostic}

theorem sameFault_iff : a.sameFault b = true ↔ a.range = b.range ∧ a.code = b.code := by
  simp [sameFault]

theorem sameFault_self (d : Diagnostic) : d.sameFault d = true :=
  sameFault_iff.mpr ⟨rfl, rfl⟩

/-- No two of the diagnostics report the same fault. -/
def Distinct (ds : List Diagnostic) : Prop :=
  ds.Pairwise fun a b => a.sameFault b = false

theorem Distinct.nodup (h : Distinct ds) : ds.Nodup := by
  refine h.imp fun {a b} hab he => ?_
  rw [he, sameFault_self] at hab
  cases hab

theorem Distinct.eq_of_sameFault (h : Distinct ds) (ha : a ∈ ds) (hb : b ∈ ds) (hab : a.sameFault b = true) :
    a = b := by
  induction ds with
  | nil => cases ha
  | cons d ds ih =>
    obtain ⟨hd, hds⟩ := List.pairwise_cons.mp h
    rcases List.mem_cons.mp ha with rfl | ha' <;> rcases List.mem_cons.mp hb with rfl | hb'
    · rfl
    · rw [hd b hb'] at hab
      cases hab
    · have hba : b.sameFault a = true := sameFault_iff.mpr ((sameFault_iff.mp hab).imp Eq.symm Eq.symm)
      rw [hd a ha'] at hba
      cases hba
    · exact ih hds ha' hb'

theorem Distinct.perm (h : Distinct as) (hp : as.Perm bs) : Distinct bs := by
  refine (hp.pairwise_iff fun {a b} hab => ?_).mp h
  rwa [Bool.eq_false_iff, ne_eq, sameFault_iff, eq_comm, @eq_comm _ b.code, ← sameFault_iff, ← ne_eq,
    ← Bool.eq_false_iff]

/-- Each fault is reported once. -/
theorem Distinct.countP_sameFault (h : Distinct ds) (hd : d ∈ ds) : ds.countP (d.sameFault ·) = 1 := by
  have hcount : ds.countP (d.sameFault ·) = ds.count d := by
    refine List.countP_congr fun e he => ?_
    rw [beq_iff_eq]
    exact ⟨fun hde => (h.eq_of_sameFault hd he hde).symm, fun hed => hed ▸ sameFault_self d⟩
  rw [hcount, h.nodup.count, if_pos hd]

theorem mem_keepFirst (h : d ∈ keepFirst ds) : d ∈ ds := by
  induction ds with
  | nil => exact h
  | cons e ds ih =>
    rw [keepFirst] at h
    rcases List.mem_cons.mp h with rfl | h
    · exact List.mem_cons_self
    · exact List.mem_cons_of_mem _ (ih (List.mem_filter.mp h).1)

theorem keepFirst_distinct (ds : List Diagnostic) : Distinct (keepFirst ds) := by
  induction ds with
  | nil => exact .nil
  | cons d ds ih =>
    refine List.pairwise_cons.mpr ⟨fun e he => ?_, ih.filter _⟩
    simpa using (List.mem_filter.mp he).2

/-- Every fault stays reported. -/
theorem exists_keepFirst (h : d ∈ ds) : ∃ e ∈ keepFirst ds, e.sameFault d = true := by
  induction ds with
  | nil => cases h
  | cons a ds ih =>
    rcases List.mem_cons.mp h with rfl | h
    · exact ⟨d, List.mem_cons_self, sameFault_self d⟩
    · obtain ⟨e, he, hed⟩ := ih h
      cases hae : a.sameFault e with
      | true =>
        obtain ⟨hr, hc⟩ := sameFault_iff.mp hed
        obtain ⟨hr', hc'⟩ := sameFault_iff.mp hae
        exact ⟨a, List.mem_cons_self, sameFault_iff.mpr ⟨hr'.trans hr, hc'.trans hc⟩⟩
      | false => exact ⟨e, List.mem_cons_of_mem _ (List.mem_filter.mpr ⟨he, by simp [hae]⟩), hed⟩

theorem keepFirst_eq_self (h : Distinct ds) : keepFirst ds = ds := by
  induction ds with
  | nil => rfl
  | cons d ds ih =>
    obtain ⟨hd, hds⟩ := List.pairwise_cons.mp h
    rw [keepFirst, ih hds, List.filter_eq_self.mpr fun e he => by simp [hd e he]]

/-- Reports of one sort are kept apart from the others when reports of the same fault are of one sort. -/
theorem keepFirst_filter {p : Diagnostic → Bool} (hp : ∀ a b : Diagnostic, a.sameFault b = true → p a = p b)
    (ds : List Diagnostic) : (keepFirst ds).filter p = keepFirst (ds.filter p) := by
  induction ds with
  | nil => rfl
  | cons d ds ih =>
    rw [keepFirst, List.filter_cons, List.filter_cons]
    cases hd : p d with
    | true =>
      rw [if_pos rfl, if_pos rfl, keepFirst, ← ih, List.filter_filter, List.filter_filter]
      simp only [Bool.and_comm]
    | false =>
      rw [if_neg Bool.false_ne_true, if_neg Bool.false_ne_true, ← ih, List.filter_filter]
      refine List.filter_congr fun e _ => ?_
      cases hde : d.sameFault e with
      | true => rw [← hp d e hde, hd]; rfl
      | false => simp

/-- Reports that are found more than once, but alike, are left once. -/
theorem keepFirst_perm (hes : Distinct es) (h : ∀ d, d ∈ ds ↔ d ∈ es) : (keepFirst ds).Perm es := by
  refine (List.perm_ext_iff_of_nodup (keepFirst_distinct ds).nodup hes.nodup).mpr fun d => ?_
  refine ⟨fun hd => (h d).mp (mem_keepFirst hd), fun hd => ?_⟩
  obtain ⟨e, he, hed⟩ := exists_keepFirst ((h d).mpr hd)
  exact hes.eq_of_sameFault ((h e).mp (mem_keepFirst he)) hd hed ▸ he

theorem keepFirst_append (as bs : List Diagnostic) :
    keepFirst (as ++ bs) = keepFirst as ++ (keepFirst bs).filter fun b => !as.any (·.sameFault b) := by
  induction as with
  | nil => exact (List.filter_eq_self.mpr fun _ _ => rfl).symm
  | cons a as ih =>
    rw [List.cons_append, keepFirst, ih, List.filter_append, List.filter_filter, keepFirst, List.cons_append]
    simp only [List.any_cons, Bool.not_or]

/-- What repeats the faults in front of it is not kept. -/
theorem keepFirst_append_repeated (has : Distinct as) (hbs : ∀ b ∈ bs, ∃ a ∈ as, a.sameFault b = true) :
    keepFirst (as ++ bs) = as := by
  have hnone : ((keepFirst bs).filter fun b => !as.any (·.sameFault b)) = [] := by
    refine List.filter_eq_nil_iff.mpr fun b hb => ?_
    simpa using hbs b (mem_keepFirst hb)
  rw [keepFirst_append, keepFirst_eq_self has, hnone, List.append_nil]

/-- The canonical list has the reports of one sort that are kept. -/
theorem canonical_filter {p : Diagnostic → Bool} (hp : ∀ a b : Diagnostic, a.sameFault b = true → p a = p b)
    (ds : List Diagnostic) : ((canonical ds).filter p).Perm (keepFirst (ds.filter p)) := by
  rw [← keepFirst_filter hp]
  exact (List.mergeSort_perm _ _).filter p

end Calculation.Diagnostic
