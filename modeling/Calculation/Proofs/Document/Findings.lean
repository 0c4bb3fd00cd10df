import Calculation.Proofs.Diagnostic.Distinct
import Calculation.Proofs.Reading.Endings
import Calculation.Validation

/-!
What the validation of a tree finds, by symbol. Of the findings on calls, those about their signatures are what the
table of functions says is wrong with the calls that no skipped stretch hides; of those on blocks, the ones about a
missing end repeat the faults of open blocks.
-/
namespace Calculation

/-- A report of an unknown function or of a wrong number of arguments. -/
def Diagnostic.isSignature (d : Diagnostic) : Bool :=
  d.code == .wrongArity || d.code == .unknownFunction

namespace Validation
open Calculation.Symbol

variable {t : SignatureTable} {o : ValidationOptions} {around : Surroundings} {s : Symbol} {d : Diagnostic}
  {b : BlockKind} {branches : List Branch} {terminator : Option Range} {arguments : List Argument} {isNested : Bool}

/-- What is found on a block: that its end is missing, or how it stands in others. -/
theorem mem_check_block (hk : s.kind = .block b branches terminator) (hd : d ∈ (check t o around s).1) :
    (terminator = none ∧ d = (Cause.openBlock b.name b.closer).spanning (s.opener b)) ∨
      d.code = .deepNesting ∨ d.code = .nestedLod ∨ d.code = .fixedWithoutDimensions := by
  unfold check at hd
  rw [hk] at hd
  rcases List.mem_append.mp hd with hd | hd
  · unfold checkTerminator at hd
    split at hd
    · rename_i hnone
      exact .inl ⟨Option.isNone_iff_eq_none.mp hnone, List.mem_singleton.mp hd⟩
    · cases hd
  · refine .inr ?_
    split at hd
    · unfold checkLod at hd
      rcases List.mem_append.mp hd with hd | hd
      · obtain ⟨outer, -, rfl⟩ := List.mem_map.mp (Option.toList_map .. ▸ hd)
        exact .inr (.inl rfl)
      · split at hd
        · exact .inr (.inr (List.mem_singleton.mp hd ▸ rfl))
        · cases hd
    · unfold checkConditional at hd
      dsimp only at hd
      split at hd
      · exact .inl (List.mem_singleton.mp hd ▸ rfl)
      · cases hd

/-- Of what is found on a call of a known function, only the number of arguments is about its signature. -/
theorem checkKnown_signature (around : Surroundings) (s : Symbol) (count : Nat) (isNested : Bool) (f : Signature) :
    (checkKnown around s count isNested f).1.filter (·.isSignature) =
      if s.isComplete && !f.accepts count then [(Cause.wrongArity s.name f.expected count).spanning s.nameRange]
      else [] := by
  have htable : (if f.isTableCalculation then [(Cause.tableCalculation s.name).spanning s.nameRange] else []).filter
      (·.isSignature) = [] := by
    split <;> rfl
  have hnested : (if f.isAggregate && (isNested || around.aggregate.isSome) then
      [(Cause.nestedAggregate s.name around.aggregate).spanning s.nameRange] else []).filter (·.isSignature) = [] := by
    split <;> rfl
  unfold checkKnown
  dsimp only
  rw [List.filter_append, List.filter_append, htable, hnested, List.append_nil, List.append_nil]
  split <;> rfl

/-- What is found about the signature of a symbol is what is wrong with it as a call. -/
theorem check_signature (t : SignatureTable) (o : ValidationOptions) (around : Surroundings) (s : Symbol) :
    (check t o around s).1.filter (·.isSignature) = (s.signatureFault? t).toList := by
  cases hk : s.kind with
  | block b branches terminator =>
    have hnone : s.signatureFault? t = none := signatureFault?_of_not_call (by simp [isCall, hk])
    rw [hnone]
    refine List.filter_eq_nil_iff.mpr fun d hd => ?_
    rcases mem_check_block hk hd with ⟨-, rfl⟩ | hcode | hcode | hcode
    · cases b <;> simp [Diagnostic.isSignature, Cause.spanning, Cause.code, BlockKind.closer]
    all_goals simp [Diagnostic.isSignature, hcode]
  | call arguments isNested =>
    unfold check signatureFault?
    rw [hk]
    dsimp only
    cases t.get? s.name with
    | none => rfl
    | some f =>
      dsimp only
      rw [checkKnown_signature]
      split <;> rfl
  | _ => simp [check, signatureFault?, hk]

/-- What is found on a call is about the function that it calls. -/
theorem mem_check_call (hk : s.kind = .call arguments isNested) (hd : d ∈ (check t o around s).1) :
    d.code = .unknownFunction ∨ d.code = .wrongArity ∨ d.code = .tableCalculation ∨ d.code = .nestedAggregate := by
  unfold check at hd
  rw [hk] at hd
  dsimp only at hd
  split at hd
  · exact .inl (List.mem_singleton.mp hd ▸ rfl)
  · unfold checkKnown at hd
    dsimp only at hd
    rcases List.mem_append.mp hd with hd | hd
    · rcases List.mem_append.mp hd with hd | hd
      · split at hd
        · exact .inr (.inl (List.mem_singleton.mp hd ▸ rfl))
        · cases hd
      · split at hd
        · exact .inr (.inr (.inl (List.mem_singleton.mp hd ▸ rfl)))
        · cases hd
    · split at hd
      · exact .inr (.inr (.inr (List.mem_singleton.mp hd ▸ rfl)))
      · cases hd

/-- What is found about a missing end repeats the fault of an open block. -/
theorem check_opens (hd : d ∈ (check t o around s).1) (ho : d.code.opensBlock = true) :
    ∃ e, s.openFault? = some e ∧ e.sameFault d = true := by
  cases hk : s.kind with
  | block b branches terminator =>
    rcases mem_check_block hk hd with ⟨rfl, rfl⟩ | hcode | hcode | hcode
    · refine ⟨b.openCause.spanning (s.opener b), by simp [openFault?, hk], Diagnostic.sameFault_iff.mpr ⟨rfl, ?_⟩⟩
      cases b <;> rfl
    all_goals
      rw [hcode] at ho
      cases ho
  | call arguments isNested =>
    rcases mem_check_call hk hd with hcode | hcode | hcode | hcode
    all_goals
      rw [hcode] at ho
      cases ho
  | _ => simp [check, hk] at hd

mutual

theorem findings_signature (t : SignatureTable) (o : ValidationOptions) : ∀ (s : Symbol) (around : Surroundings),
    ((findings t o around s).filter (·.isSignature)).Perm (s.finished.filterMap (signatureFault? t))
  | ⟨n, k, r, cs, c, l⟩, around => by
    rw [findings, finished]
    split
    · exact .refl _
    · dsimp only
      rw [List.filter_append, check_signature, List.filterMap_append]
      refine ((findingsAll_signature t o cs _).append_left _).trans (List.perm_append_comm.trans (.of_eq ?_))
      rw [List.filterMap_cons, List.filterMap_nil]
      cases signatureFault? t ⟨n, k, r, cs, c, l⟩ <;> rfl

/-- What is found about signatures is what is wrong with the calls that are not hidden, whatever stands around. -/
theorem findingsAll_signature (t : SignatureTable) (o : ValidationOptions) :
    ∀ (ss : List Symbol) (around : Surroundings),
      ((findingsAll t o around ss).filter (·.isSignature)).Perm ((finishedAll ss).filterMap (signatureFault? t))
  | [], around => by
    rw [findingsAll, finishedAll]
    exact .refl _
  | s :: ss, around => by
    rw [findingsAll, finishedAll, List.filter_append, List.filterMap_append]
    exact (findings_signature t o s around).append (findingsAll_signature t o ss around)

end

mutual

theorem mem_findings : ∀ (s : Symbol) (around : Surroundings), d ∈ findings t o around s →
    ∃ x ∈ s.walk, ∃ around, d ∈ (check t o around x).1
  | ⟨n, k, r, cs, c, l⟩, around, hd => by
    rw [findings] at hd
    rw [walk]
    split at hd
    · cases hd
    · rcases List.mem_append.mp hd with hd | hd
      · exact ⟨_, List.mem_cons_self, around, hd⟩
      · obtain ⟨x, hx, hfound⟩ := mem_findingsAll cs _ hd
        exact ⟨x, List.mem_cons_of_mem _ hx, hfound⟩

/-- Whatever is found on trees is found on one of their symbols. -/
theorem mem_findingsAll : ∀ (ss : List Symbol) (around : Surroundings), d ∈ findingsAll t o around ss →
    ∃ x ∈ walkAll ss, ∃ around, d ∈ (check t o around x).1
  | [], around, hd => by
    rw [findingsAll] at hd
    cases hd
  | s :: ss, around, hd => by
    rw [findingsAll] at hd
    rw [walkAll]
    rcases List.mem_append.mp hd with hd | hd
    · obtain ⟨x, hx, hfound⟩ := mem_findings s around hd
      exact ⟨x, List.mem_append_left _ hx, hfound⟩
    · obtain ⟨x, hx, hfound⟩ := mem_findingsAll ss around hd
      exact ⟨x, List.mem_append_right _ hx, hfound⟩

end

end Validation

end Calculation
