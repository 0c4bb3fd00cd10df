import Calculation.Proofs.Document.Nested
import Calculation.Proofs.Tree.Paths

/-!
What validation carries down a tree to tell of blocks in blocks: how many IF and CASE blocks are around, whether one of
them has been reported, and the nearest LOD block. Each step keeps this in accord with the symbols around, and reports
what can be told from them: an IF or CASE block with just as many around as there may be, and an LOD block in another.
-/
namespace Calculation
open Calculation.Symbol

namespace Symbol

/-- The keyword or brace that opens a block. -/
def opening (s : Symbol) : Range :=
  match s.kind with
  | .block b _ _ => s.opener b
  | _ => s.range

theorem opening_block {s : Symbol} {b : BlockKind} {branches : List Branch} {terminator : Option Range}
    (hk : s.kind = .block b branches terminator) : s.opening = s.opener b := by
  simp [opening, hk]

end Symbol

namespace Validation

variable {t : SignatureTable} {o : ValidationOptions} {around : Surroundings} {s : Symbol} {above : List Symbol}
  {b : BlockKind} {branches : List Branch} {terminator : Option Range} {k : Code} {scope : LodScope}

/-- What is told of a place of IF and CASE blocks in each other: a block that is one more than may be. -/
def deepAt? (limit : Nat) (p : List Symbol × Symbol) : Option Diagnostic :=
  if p.2.isConditional && p.1.countP isConditional == limit then
    some ((Cause.deepNesting (p.1.countP isConditional + nesting p.2) limit).spanning p.2.opening)
  else none

/-- What is told of a place of LOD blocks in each other: the nearest one around. -/
def lodAt? (p : List Symbol × Symbol) : Option Diagnostic :=
  if p.2.isLod then (p.1.find? isLod).map fun outer => (Cause.nestedLod outer.opening).spanning p.2.opening else none

/-- The IF and CASE blocks around have been counted, and once there were more than may be, one has been reported. -/
def Surroundings.Counts (limit : Nat) (above : List Symbol) (around : Surroundings) : Prop :=
  around.blockDepth = above.countP isConditional ∧ around.isReported = decide (limit < above.countP isConditional)

/-- The nearest LOD block around is known by its brace. -/
def Surroundings.Knows (above : List Symbol) (around : Surroundings) : Prop :=
  around.lod = (above.find? isLod).map opening

/-- That a block is open is reported under a code of its own. -/
theorem checkTerminator_filter (hk : k.opensBlock = false) (s : Symbol) (b : BlockKind) (terminator : Option Range) :
    (checkTerminator s b terminator).filter (·.code == k) = [] := by
  unfold checkTerminator
  split
  · have hopen : (Cause.openBlock b.name b.closer).code.opensBlock = true := by cases b <;> rfl
    have hother : (Cause.openBlock b.name b.closer).code ≠ k := fun h => by simp [h, hk] at hopen
    simp [Cause.spanning, hother]
  · rfl

theorem check_conditional (hk : s.kind = .block b branches terminator) (hb : b.isConditional = true) :
    check t o around s =
      (checkTerminator s b terminator ++ (checkConditional o around s b).1, (checkConditional o around s b).2) := by
  unfold check
  rw [hk]
  cases b with
  | lod => cases hb
  | _ => rfl

theorem check_lod (hk : s.kind = .block (.lod scope) branches terminator) :
    check t o around s = (checkTerminator s (.lod scope) terminator ++ (checkLod around s scope branches).1,
      (checkLod around s scope branches).2) := by
  unfold check
  rw [hk]

/-- That a block lacks its dimensions is reported under another code than that it stands in another one. -/
theorem checkLod_filter (hk : (Code.fixedWithoutDimensions == k) = false) :
    (checkLod around s scope branches).1.filter (·.code == k) =
      (around.lod.map fun outer => (Cause.nestedLod outer).spanning (s.opener (.lod scope))).toList.filter (·.code == k)
    := by
  have hbare : (if scope = .fixed && !branches.any (·.kind == .dimensions) then
      [Cause.fixedWithoutDimensions.spanning s.range] else []).filter (·.code == k) = [] := by
    split
    · exact List.filter_cons_of_neg (hk ▸ Bool.false_ne_true)
    · rfl
  unfold checkLod
  dsimp only
  rw [List.filter_append, hbare, List.append_nil]

/-- What is no block is not reported for nesting, and its children have the same around as itself, the nearest aggregate
aside. -/
theorem check_plain (hs : ∀ b branches terminator, s.kind ≠ .block b branches terminator)
    (hk : k = .deepNesting ∨ k = .nestedLod) (around : Surroundings) :
    (check t o around s).1.filter (·.code == k) = [] ∧
      ∃ outer, (check t o around s).2 = { around with aggregate := outer } := by
  cases hkind : s.kind with
  | block b branches terminator => exact absurd hkind (hs b branches terminator)
  | call arguments isNested =>
    constructor
    · refine List.filter_eq_nil_iff.mpr fun d hd => ?_
      rcases mem_check_call hkind hd with hcode | hcode | hcode | hcode
      all_goals rcases hk with rfl | rfl <;> simp [hcode]
    · unfold check
      rw [hkind]
      dsimp only
      split
      · exact ⟨around.aggregate, rfl⟩
      · unfold checkKnown
        dsimp only
        split
        · exact ⟨_, rfl⟩
        · exact ⟨around.aggregate, rfl⟩
  | _ =>
    unfold check
    rw [hkind]
    exact ⟨rfl, around.aggregate, rfl⟩

/-- An IF or CASE block is reported when it is the first on the way down that is one too many. -/
theorem checkConditional_counts (hk : s.kind = .block b branches terminator) (hb : b.isConditional = true)
    (h : around.Counts o.maxNesting above) :
    (checkConditional o around s b).1 = (deepAt? o.maxNesting (above, s)).toList ∧
      (checkConditional o around s b).2.Counts o.maxNesting (s :: above) := by
  obtain ⟨hdepth, hreported⟩ := h
  have hs : s.isConditional = true := by simpa [isConditional, hk] using hb
  unfold checkConditional deepAt? Surroundings.Counts
  rw [hdepth, hreported, opening_block hk, List.countP_cons_of_pos hs, hs]
  -- one around has been reported, this is the first one too many, or it is none too many
  rcases Nat.lt_trichotomy o.maxNesting (above.countP isConditional) with hlt | heq | hgt
  · have hnext : o.maxNesting < above.countP isConditional + 1 := by omega
    simp [hlt, hnext, Nat.ne_of_gt hlt]
  · simp [heq]
  · have hnext : ¬o.maxNesting < above.countP isConditional + 1 := by omega
    have hhere : ¬o.maxNesting < above.countP isConditional := by omega
    simp [hhere, hnext, Nat.ne_of_lt hgt]

/-- What is no IF or CASE block is not counted and not reported for the count. -/
theorem check_uncounted (hs : s.isConditional = false) (around : Surroundings) :
    (check t o around s).1.filter (·.code == .deepNesting) = [] ∧
      (check t o around s).2.blockDepth = around.blockDepth ∧
      (check t o around s).2.isReported = around.isReported := by
  cases hk : s.kind with
  | block b branches terminator =>
    cases b with
    | lod scope =>
      rw [check_lod hk, List.filter_append, checkTerminator_filter rfl, checkLod_filter rfl]
      refine ⟨?_, rfl, rfl⟩
      cases around.lod <;> rfl
    | _ => simp [isConditional, hk, BlockKind.isConditional] at hs
  | _ =>
    obtain ⟨hfound, outer, hinner⟩ := check_plain (t := t) (o := o) (s := s) (by simp [hk]) (.inl rfl) around
    rw [hfound, hinner]
    exact ⟨rfl, rfl, rfl⟩

theorem check_deepAt? (t : SignatureTable) (s : Symbol) (h : around.Counts o.maxNesting above) :
    (check t o around s).1.filter (·.code == .deepNesting) = (deepAt? o.maxNesting (above, s)).toList ∧
      (check t o around s).2.Counts o.maxNesting (s :: above) := by
  cases hs : s.isConditional with
  | true =>
    cases hk : s.kind with
    | block b branches terminator =>
      have hb : b.isConditional = true := by simpa [isConditional, hk] using hs
      obtain ⟨hfound, hcounts⟩ := checkConditional_counts hk hb h
      rw [check_conditional hk hb, List.filter_append, checkTerminator_filter rfl, hfound]
      refine ⟨?_, hcounts⟩
      unfold deepAt?
      split <;> rfl
    | _ => simp [isConditional, hk] at hs
  | false =>
    obtain ⟨hfound, hdepth, hreported⟩ := check_uncounted (t := t) (o := o) hs around
    have hsame : (s :: above).countP isConditional = above.countP isConditional := by simp [hs]
    rw [hfound, Surroundings.Counts, hdepth, hreported, hsame]
    exact ⟨by simp [deepAt?, hs], h⟩

/-- What is no LOD block is not reported for one around, and its children have the same around. -/
theorem check_transparent (hs : s.isLod = false) (around : Surroundings) :
    (check t o around s).1.filter (·.code == .nestedLod) = [] ∧ (check t o around s).2.lod = around.lod := by
  cases hk : s.kind with
  | block b branches terminator =>
    have hb : b.isConditional = true := by
      cases b with
      | lod => simp [isLod, hk] at hs
      | _ => rfl
    rw [check_conditional hk hb, List.filter_append, checkTerminator_filter rfl, checkConditional]
    dsimp only
    split <;> exact ⟨rfl, rfl⟩
  | _ =>
    obtain ⟨hfound, outer, hinner⟩ := check_plain (t := t) (o := o) (s := s) (by simp [hk]) (.inr rfl) around
    rw [hfound, hinner]
    exact ⟨rfl, rfl⟩

theorem check_lodAt? (t : SignatureTable) (o : ValidationOptions) (s : Symbol) (h : around.Knows above) :
    (check t o around s).1.filter (·.code == .nestedLod) = (lodAt? (above, s)).toList ∧
      (check t o around s).2.Knows (s :: above) := by
  unfold Surroundings.Knows at h ⊢
  cases hs : s.isLod with
  | true =>
    cases hk : s.kind with
    | block b branches terminator =>
      cases b with
      | lod scope =>
        rw [check_lod hk, List.filter_append, checkTerminator_filter rfl, checkLod_filter rfl,
          List.find?_cons_of_pos hs, lodAt?, if_pos hs, h, opening_block hk]
        refine ⟨?_, congrArg some (opening_block hk).symm⟩
        cases above.find? isLod <;> rfl
      | _ => simp [isLod, hk] at hs
    | _ => simp [isLod, hk] at hs
  | false =>
    obtain ⟨hfound, hlod⟩ := check_transparent (t := t) (o := o) hs around
    rw [hfound, hlod, h, List.find?_cons_of_neg (by simp [hs])]
    exact ⟨by simp [lodAt?, hs], rfl⟩

end Validation

end Calculation
