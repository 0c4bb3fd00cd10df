import Calculation.Proofs.Diagnostic.Gist
import Calculation.Proofs.Rewording.Basic
import Calculation.Validation

/-!
What the validation of trees that are alike finds. Words are looked up in a table and their length tells where they
stand; when words with the same key are of the same length and the table does not tell them apart, the findings say the
same one by one.
-/
namespace Calculation.Rewording
open Validation

/-- What stands around is the same, the name of an aggregate aside. -/
structure Around (around around' : Surroundings) : Prop where
  blockDepth : around'.blockDepth = around.blockDepth
  lod : around'.lod = around.lod
  aggregate : around'.aggregate.isSome = around.aggregate.isSome
  isReported : around'.isReported = around.isReported

/-- The findings say the same, and so does what is handed on to the children. -/
structure Checks (x x' : List Diagnostic × Surroundings) : Prop where
  found : x'.1.map Diagnostic.gist = x.1.map Diagnostic.gist
  inner : Around x.2 x'.2

/-- Words with the same key are of the same length, and the table knows the same of them. -/
structure Interchangeable (key : String → String) (t : SignatureTable) : Prop where
  size : ∀ {a b : String}, key b = key a → b.utf8ByteSize = a.utf8ByteSize
  signature : ∀ {a b : String}, key b = key a → t.get? b = t.get? a

variable {src src' : Source} {m : Rewording src src'} {t : SignatureTable} {o : ValidationOptions}
  {around around' : Surroundings} {s s' : Symbol}

theorem Around.refl (around : Surroundings) : Around around around :=
  ⟨rfl, rfl, rfl, rfl⟩

theorem Checks.behind (found : List Diagnostic) {x x' : List Diagnostic × Surroundings} (h : Checks x x') :
    Checks (found ++ x.1, x.2) (found ++ x'.1, x'.2) :=
  ⟨by rw [List.map_append, List.map_append, h.found], h.inner⟩

theorem Symbols.nameRange (ht : Interchangeable m.key t) (hs : m.Symbols s s') : s'.nameRange = s.nameRange := by
  rw [Symbol.nameRange, Symbol.nameRange, hs.range, ht.size hs.name]

theorem checkConditional_alike (ha : Around around around') (hrange : s'.range = s.range) (b : BlockKind) :
    Checks (checkConditional o around s b) (checkConditional o around' s' b) := by
  have hopener : s'.opener b = s.opener b := congrArg (Range.opening · b.openerSize) hrange
  unfold checkConditional
  rw [ha.blockDepth, ha.isReported, hopener]
  dsimp only
  split
  · exact ⟨rfl, rfl, ha.lod, ha.aggregate, rfl⟩
  · exact ⟨rfl, rfl, ha.lod, ha.aggregate, rfl⟩

theorem checkLod_alike (ha : Around around around') (hrange : s'.range = s.range) (scope : LodScope)
    (branches : List Branch) : Checks (checkLod around s scope branches) (checkLod around' s' scope branches) := by
  have hopener : s'.opener (.lod scope) = s.opener (.lod scope) := congrArg (Range.opening · _) hrange
  unfold checkLod
  rw [ha.lod, hrange, hopener]
  exact ⟨rfl, ha.blockDepth, rfl, rfl, ha.isReported⟩

theorem checkKnown_alike (ha : Around around around') (hname : s'.nameRange = s.nameRange)
    (hcomplete : s'.isComplete = s.isComplete) (count : Nat) (isNested : Bool) (f : Signature) :
    Checks (checkKnown around s count isNested f) (checkKnown around' s' count isNested f) := by
  unfold checkKnown
  rw [ha.aggregate, hname, hcomplete]
  refine ⟨?_, ?_⟩
  · dsimp only
    rw [List.map_append, List.map_append, List.map_append, List.map_append]
    refine congrArg₂ _ (congrArg₂ _ ?_ ?_) ?_
    all_goals split <;> rfl
  · dsimp only
    split
    · exact ⟨ha.blockDepth, ha.lod, rfl, ha.isReported⟩
    · exact ha

theorem onCall_alike (ht : Interchangeable m.key t) (ha : Around around around') (hs : m.Symbols s s')
    {arguments arguments' : List Argument} {isNested : Bool} (hk : s.kind = .call arguments isNested)
    (hk' : s'.kind = .call arguments' isNested) (hcount : arguments'.length = arguments.length) :
    Checks (check t o around s) (check t o around' s') := by
  unfold check
  rw [hk, hk']
  dsimp only
  rw [hcount, ht.signature hs.name]
  cases t.get? s.name with
  | none => exact ⟨by rw [hs.nameRange ht]; rfl, ha⟩
  | some f => exact checkKnown_alike ha (hs.nameRange ht) hs.isComplete _ _ _

theorem onBlock_alike (ha : Around around around') (hrange : s'.range = s.range) {b : BlockKind}
    {branches : List Branch} {terminator : Option Range} (hk : s.kind = .block b branches terminator)
    (hk' : s'.kind = .block b branches terminator) : Checks (check t o around s) (check t o around' s') := by
  have hopener : s'.opener b = s.opener b := congrArg (Range.opening · _) hrange
  unfold check checkTerminator
  rw [hk, hk']
  dsimp only
  rw [hopener]
  refine Checks.behind _ ?_
  cases b with
  | lod scope => exact checkLod_alike ha hrange scope branches
  | if_ => exact checkConditional_alike ha hrange .if_
  | case_ => exact checkConditional_alike ha hrange .case_

theorem check_alike (ht : Interchangeable m.key t) (ha : Around around around') (hs : m.Symbols s s') :
    Checks (check t o around s) (check t o around' s') := by
  have hkind := hs.kind
  generalize hk : s.kind = k, hk' : s'.kind = k' at hkind
  cases hkind with
  | call h => exact onCall_alike ht ha hs hk hk' h.length_eq.symm
  | same =>
    cases k with
    | block b branches terminator => exact onBlock_alike ha hs.range hk hk'
    | call arguments isNested => exact onCall_alike ht ha hs hk hk' rfl
    | _ =>
      unfold check
      rw [hk, hk']
      exact ⟨rfl, ha⟩

mutual

theorem findings_alike (ht : Interchangeable m.key t) (o : ValidationOptions) {around around' : Surroundings}
    (ha : Around around around') : ∀ {s s' : Symbol}, m.Symbols s s' →
    (findings t o around' s').map Diagnostic.gist = (findings t o around s).map Diagnostic.gist
  | ⟨n, k, r, cs, c, l⟩, ⟨n', k', _, cs', _, _⟩, hs@(.mk _ hkind hchildren) => by
    have hskipped : k' = .skipped ↔ k = .skipped := by
      cases hkind <;> simp
    obtain ⟨hfound, hinner⟩ := check_alike (o := o) ht ha hs
    rw [findings, findings]
    dsimp only
    by_cases hk : k = .skipped
    · rw [if_pos hk, if_pos (hskipped.mpr hk)]
    · rw [if_neg hk, if_neg fun h => hk (hskipped.mp h), List.map_append, List.map_append, hfound,
        findingsAll_alike ht o hinner hchildren]

/-- Trees that are alike have findings that say the same. -/
theorem findingsAll_alike (ht : Interchangeable m.key t) (o : ValidationOptions) {around around' : Surroundings}
    (ha : Around around around') : ∀ {ss ss' : List Symbol}, m.Trees ss ss' →
    (findingsAll t o around' ss').map Diagnostic.gist = (findingsAll t o around ss).map Diagnostic.gist
  | [], _, .nil => by rw [findingsAll, findingsAll]
  | s :: ss, s' :: ss', .cons hs hss => by
    rw [findingsAll, findingsAll, List.map_append, List.map_append, findings_alike ht o ha hs,
      findingsAll_alike ht o ha hss]

end

end Calculation.Rewording
