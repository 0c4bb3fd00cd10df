import Calculation.Diagnostic.Basic

/-!
The canonical list of diagnostics: of those with the same range and code only the first one, and all in the
order of severity, start, end and code. Keys are ordered linearly, so sorting by them has one result up to
equal keys.
-/
namespace Calculation.Diagnostic

def sameFault (a b : Diagnostic) : Bool :=
  a.range == b.range && a.code == b.code

/-- Each diagnostic that repeats the range and code of an earlier one is dropped. -/
def keepFirst : List Diagnostic → List Diagnostic
  | [] => []
  | d :: ds => d :: (keepFirst ds).filter fun e => !d.sameFault e

/-- What the canonical order compares, from the most to the least telling. -/
def sortKey (d : Diagnostic) : List Nat :=
  [d.severity.rank, d.range.start, d.range.stop, d.code.number]

/-- What the order of faults compares: where they stand, then their codes. -/
def placeKey (d : Diagnostic) : List Nat :=
  [d.range.start, d.range.stop, d.code.number]

/-- The order of keys: the first place where they differ decides. -/
def keyLe : List Nat → List Nat → Bool
  | [], _ => true
  | _ :: _, [] => false
  | a :: as, b :: bs => a < b || (a == b && keyLe as bs)

def canonical (ds : List Diagnostic) : List Diagnostic :=
  (keepFirst ds).mergeSort fun a b => keyLe a.sortKey b.sortKey

/-- In the order of their places; equal ones stay as they came. -/
def inPlaceOrder (ds : List Diagnostic) : List Diagnostic :=
  ds.mergeSort fun a b => keyLe a.placeKey b.placeKey

def countOf (s : Severity) (ds : List Diagnostic) : Nat :=
  ds.countP fun d => d.severity == s

theorem keyLe_total (as bs : List Nat) : (keyLe as bs || keyLe bs as) = true := by
  induction as generalizing bs with
  | nil => simp [keyLe]
  | cons a as ih =>
    cases bs with
    | nil => simp [keyLe]
    | cons b bs =>
      have h := ih bs
      simp only [keyLe, Bool.or_eq_true, Bool.and_eq_true, decide_eq_true_eq, beq_iff_eq] at h ⊢
      rcases Nat.lt_trichotomy a b with hl | he | hg
      · exact .inl (.inl hl)
      · exact h.imp (fun h => .inr ⟨he, h⟩) fun h => .inr ⟨he.symm, h⟩
      · exact .inr (.inl hg)

theorem keyLe_trans {as bs cs : List Nat} (hab : keyLe as bs = true) (hbc : keyLe bs cs = true) :
    keyLe as cs = true := by
  induction as generalizing bs cs with
  | nil => simp [keyLe]
  | cons a as ih =>
    cases bs with
    | nil => simp [keyLe] at hab
    | cons b bs =>
      cases cs with
      | nil => simp [keyLe] at hbc
      | cons c cs =>
        simp only [keyLe, Bool.or_eq_true, Bool.and_eq_true, decide_eq_true_eq, beq_iff_eq] at hab hbc ⊢
        rcases hab with hab | ⟨hab, ha⟩ <;> rcases hbc with hbc | ⟨hbc, hb⟩
        · exact .inl (by omega)
        · exact .inl (by omega)
        · exact .inl (by omega)
        · exact .inr ⟨by omega, ih ha hb⟩

end Calculation.Diagnostic
