import Mathlib.Data.List.Sort
import Calculation.Proofs.Document.Order
import Calculation.Validation

namespace Calculation

namespace Diagnostic

variable {a b d : Diagnostic} {as bs ds : List Diagnostic}

/-- By severity, then by start, end and code. -/
def Before (a b : Diagnostic) : Prop :=
  a.sortKey < b.sortKey

/-- The first of the diagnostics with its range and code. -/
def IsFirst (ds : List Diagnostic) (d : Diagnostic) : Prop :=
  ds.find? (d.sameFault ·) = some d

theorem lt_of_keyLe {as bs : List Nat} (h : keyLe as bs = true) (hne : as ≠ bs) : as < bs := by
  induction as generalizing bs with
  | nil =>
    obtain ⟨b, bs, rfl⟩ := List.exists_cons_of_ne_nil hne.symm
    exact List.nil_lt_cons b bs
  | cons a as ih =>
    cases bs with
    | nil => cases h
    | cons b bs =>
      simp only [keyLe, Bool.or_eq_true, Bool.and_eq_true, decide_eq_true_eq, beq_iff_eq] at h
      rw [List.cons_lt_cons_iff]
      rcases h with hlt | ⟨rfl, hle⟩
      · exact .inl hlt
      · exact .inr ⟨rfl, ih hle fun heq => hne (heq ▸ rfl)⟩

instance : Std.Antisymm Before :=
  ⟨fun _ _ hab hba => absurd (List.lt_trans hab hba) (List.lt_irrefl _)⟩

/-- Equal places in the order are those of the same fault. -/
theorem sameFault_of_sortKey (h : a.sortKey = b.sortKey) : a.sameFault b = true := by
  simp only [sortKey, List.cons.injEq, and_true] at h
  obtain ⟨-, hstart, hstop, hcode⟩ := h
  exact sameFault_iff.mpr ⟨congrArg₂ Range.mk hstart hstop, Code.number_injective hcode⟩

theorem canonical_perm (ds : List Diagnostic) : (canonical ds).Perm (keepFirst ds) :=
  List.mergeSort_perm _ _

theorem canonical_before (ds : List Diagnostic) : (canonical ds).Pairwise Before := by
  have hsorted : (canonical ds).Pairwise fun a b => keyLe a.sortKey b.sortKey = true := by
    apply List.pairwise_mergeSort
    · exact fun a b c => keyLe_trans
    · exact fun a b => keyLe_total a.sortKey b.sortKey
  have hdistinct : Distinct (canonical ds) := (keepFirst_distinct ds).perm (canonical_perm ds).symm
  refine (hsorted.and hdistinct).imp fun {a b} h => lt_of_keyLe h.1 fun heq => ?_
  rw [sameFault_of_sortKey heq] at h
  cases h.2

theorem mem_keepFirst_iff : d ∈ keepFirst ds ↔ IsFirst ds d := by
  unfold IsFirst
  induction ds with
  | nil => simp [keepFirst]
  | cons e ds ih =>
    rw [keepFirst, List.mem_cons, List.mem_filter, ih, List.find?_cons]
    cases hde : d.sameFault e with
    | true =>
      have hed : e.sameFault d = true := sameFault_iff.mpr ((sameFault_iff.mp hde).imp Eq.symm Eq.symm)
      simp [hed, eq_comm]
    | false =>
      have hne : d ≠ e := fun heq => by rw [heq, sameFault_self] at hde; cases hde
      have hed : e.sameFault d = false := Bool.eq_false_iff.mpr fun h =>
        Bool.eq_false_iff.mp hde (sameFault_iff.mpr ((sameFault_iff.mp h).imp Eq.symm Eq.symm))
      simp [hne, hed]

theorem keepFirst_sublist (as bs : List Diagnostic) : (keepFirst as).Sublist (keepFirst (as ++ bs)) := by
  rw [keepFirst_append]
  exact List.sublist_append_left _ _

/-- Further reports come in between those there are, or go. -/
theorem canonical_sublist (as bs : List Diagnostic) : (canonical as).Sublist (canonical (as ++ bs)) := by
  have hsubperm : (canonical as).Subperm (canonical (as ++ bs)) :=
    (canonical_perm as).subperm.trans ((keepFirst_sublist as bs).subperm.trans (canonical_perm (as ++ bs)).symm.subperm)
  exact List.sublist_of_subperm_of_pairwise hsubperm (canonical_before as) (canonical_before (as ++ bs))

end Diagnostic

namespace Outline
open Diagnostic

/-- The diagnostics of an outline are those of its faults, and no finding of validation takes one of them away. -/
theorem diagnostics_kept {text : String} {o : Outline} (h : Reachable text o) (t : SignatureTable)
    (options : ValidationOptions) : o.diagnostics.Sublist (validate o t options) := by
  obtain ⟨ps, hps⟩ := h.pieced
  rw [hps.diagnostics]
  exact canonical_sublist _ _

/-- The canonical list of diagnostics ascends strictly by severity, start, end and code, and holds the first report of
each fault and nothing else. So whatever validation finds in an outline, all that was told of it before is told
again, as it was and in the same order. -/
theorem diagnostics_canonical :
    (∀ ds : List Diagnostic, (canonical ds).Pairwise Before ∧ ∀ d, d ∈ canonical ds ↔ IsFirst ds d) ∧
      ∀ text o, Reachable text o → ∀ (t : SignatureTable) (options : ValidationOptions),
        o.diagnostics.Sublist (validate o t options) := by
  refine ⟨fun ds => ⟨canonical_before ds, fun d => ?_⟩, fun _ _ h t options => diagnostics_kept h t options⟩
  rw [(canonical_perm ds).mem_iff, mem_keepFirst_iff]

/-- For instance a block without its END, which reading and validation both find, before a hint that only validation
gives. -/
theorem diagnostics_canonical_open_block :
    Reachable "IF [A] THEN RUNNING_SUM([B])" (ofText .default "IF [A] THEN RUNNING_SUM([B])") ∧
      [(Cause.missingEnd .if_).spanning ⟨0, 2⟩].Sublist
        (validate (ofText .default "IF [A] THEN RUNNING_SUM([B])") .builtin .default) := by
  have hread : Reachable "IF [A] THEN RUNNING_SUM([B])" (ofText .default "IF [A] THEN RUNNING_SUM([B])") :=
    .read .default _
  have hdiagnostics : (ofText .default "IF [A] THEN RUNNING_SUM([B])").diagnostics =
      [(Cause.missingEnd .if_).spanning ⟨0, 2⟩] := by
    decide +kernel
  exact ⟨hread, hdiagnostics ▸ diagnostics_canonical.2 _ _ hread .builtin .default⟩

end Outline

end Calculation
