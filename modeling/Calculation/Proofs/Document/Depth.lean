import Calculation.Proofs.Document.Carried
import Calculation.Proofs.Document.Defects

/-!
Warnings of nesting and the paths of the tree. Paths lead from the roots to the leaves, around skipped stretches. A path
that goes through more IF and CASE blocks than there may be meets one report, at the first block that is one too many;
the report gives the largest number of such blocks on a path through it. LOD blocks in LOD blocks are reported with the
brace of the nearest one around.
-/
namespace Calculation

section

variable {α : Type} {q : α → Bool} {n : Nat} {l pre pre' post post' : List α} {a b : α}

/-- When there are more than `n` of a sort, one of them has just `n` of them in front. -/
theorem exists_split (h : n < l.countP q) : ∃ pre a post, l = pre ++ a :: post ∧ pre.countP q = n ∧ q a = true := by
  induction l generalizing n with
  | nil => simp at h
  | cons x xs ih =>
    cases hx : q x with
    | false =>
      rw [List.countP_cons_of_neg (by simp [hx])] at h
      obtain ⟨pre, a, post, rfl, hcount, ha⟩ := ih h
      exact ⟨x :: pre, a, post, rfl, by rw [List.countP_cons_of_neg (by simp [hx]), hcount], ha⟩
    | true =>
      cases n with
      | zero => exact ⟨[], x, xs, rfl, rfl, hx⟩
      | succ n =>
        rw [List.countP_cons_of_pos hx] at h
        obtain ⟨pre, a, post, rfl, hcount, ha⟩ := ih (Nat.lt_of_succ_lt_succ h)
        exact ⟨x :: pre, a, post, rfl, by rw [List.countP_cons_of_pos hx, hcount], ha⟩

/-- No other one has as many of them in front. -/
theorem split_unique (h : pre ++ a :: post = pre' ++ b :: post') (hcount : pre.countP q = pre'.countP q)
    (ha : q a = true) (hb : q b = true) : pre = pre' ∧ a = b := by
  induction pre generalizing pre' with
  | nil =>
    cases pre' with
    | nil => exact ⟨rfl, (List.cons.inj h).1⟩
    | cons y ys =>
      obtain ⟨rfl, -⟩ := List.cons.inj h
      rw [List.countP_cons_of_pos ha] at hcount
      cases hcount
  | cons x xs ih =>
    cases pre' with
    | nil =>
      obtain ⟨rfl, -⟩ := List.cons.inj h
      rw [List.countP_cons_of_pos hb] at hcount
      cases hcount
    | cons y ys =>
      obtain ⟨rfl, htail⟩ := List.cons.inj h
      rw [List.countP_cons, List.countP_cons] at hcount
      obtain ⟨rfl, rfl⟩ := ih htail (Nat.add_right_cancel hcount)
      exact ⟨rfl, rfl⟩

end

namespace Symbol

variable {s : Symbol}

theorem opening_start (s : Symbol) : s.opening.start = s.range.start := by
  unfold opening
  split <;> rfl

theorem isConstruct_of_isConditional (h : s.isConditional = true) : s.isConstruct = true := by
  unfold isConditional at h
  split at h
  · rename_i hk
    exact Outline.isConstruct_of_block hk
  · cases h

theorem isConstruct_of_isLod (h : s.isLod = true) : s.isConstruct = true := by
  unfold isLod at h
  split at h
  · rename_i hk
    exact Outline.isConstruct_of_block hk
  · cases h

theorem isConstruct_plain (h : s.isConstruct = true) : s.isSkipped = false ∧ s.isComment = false := by
  simp only [isConstruct, Bool.and_eq_true, Bool.not_eq_true'] at h
  exact h.1

/-- A path meets a report at the opening of one of its IF and CASE blocks. -/
def meets (path : List Symbol) (r : Range) : Bool :=
  path.any fun s => s.isConditional && s.opening == r

end Symbol

namespace Outline
open Calculation.Symbol Diagnostic

variable {options : Options} {text : String} {limit : Nat} {p p' : List Symbol × Symbol} {d : Diagnostic} {s : Symbol}
  {path : List Symbol}

/-- The places of IF and CASE blocks that are one more than may be, those that skipped stretches hide aside. -/
def deepPlaces (limit : Nat) (o : Outline) : List (List Symbol × Symbol) :=
  o.places.filter fun p => p.2.isConditional && p.1.countP isConditional == limit && !p.1.any (·.isSkipped)

/-- The places of LOD blocks in LOD blocks, those that skipped stretches hide aside. -/
def lodPlaces (o : Outline) : List (List Symbol × Symbol) :=
  o.places.filter fun p => p.2.isLod && p.1.any isLod && !p.1.any (·.isSkipped)

theorem mem_deepPlaces {o : Outline} : p ∈ o.deepPlaces limit ↔ p ∈ o.places ∧ p.2.isConditional = true ∧
    p.1.countP isConditional = limit ∧ p.1.any (·.isSkipped) = false := by
  simp [deepPlaces, and_assoc]

/-- Constructs that start together stand at one place. -/
theorem place_unique (hp : p ∈ (ofText options text).places) (hp' : p' ∈ (ofText options text).places)
    (hconstruct : p.2.isConstruct = true) (hconstruct' : p'.2.isConstruct = true)
    (hstart : p.2.range.start = p'.2.range.start) : p = p' := by
  have hsymm : Std.Symm fun p q : List Symbol × Symbol => StartApart p.2 q.2 := ⟨fun _ _ => startApart_symm⟩
  by_contra hne
  exact (places_startApart options text).forall hp hp' hne hconstruct hconstruct' hstart

theorem deepPlaces_nodup (options : Options) (text : String) (limit : Nat) :
    ((ofText options text).deepPlaces limit).Nodup := by
  refine ((places_startApart options text).filter _).imp_of_mem fun {p q} hp _ h heq => ?_
  have hconstruct := isConstruct_of_isConditional (mem_deepPlaces.mp hp).2.1
  exact h hconstruct (heq ▸ hconstruct) (heq ▸ rfl)

/-- A path meets the report of a block when it leads through the place of the block. -/
theorem meets_iff (hpath : Path (ofText options text).symbols path)
    (hp : p ∈ (ofText options text).deepPlaces limit) :
    meets path p.2.opening = true ↔ ∃ post, path = p.1.reverse ++ p.2 :: post := by
  obtain ⟨hplace, hconditional, -⟩ := mem_deepPlaces.mp hp
  constructor
  · intro hmeets
    obtain ⟨s, hs, hopening⟩ := List.any_eq_true.mp hmeets
    obtain ⟨hcond, hopening⟩ := Bool.and_eq_true_iff.mp hopening
    obtain ⟨pre, post, rfl⟩ := List.append_of_mem hs
    obtain ⟨hthere, -⟩ := hpath.place []
    have hstart : s.range.start = p.2.range.start := by
      rw [← opening_start, ← opening_start, eq_of_beq hopening]
    have hsame := place_unique hthere hplace (isConstruct_of_isConditional hcond)
      (isConstruct_of_isConditional hconditional) hstart
    exact ⟨post, by rw [← hsame, List.append_nil, List.reverse_reverse]⟩
  · rintro ⟨post, rfl⟩
    exact List.any_eq_true.mpr ⟨p.2, by simp, by simp [hconditional]⟩

/-- Just the paths that are deeper than may be meet a report, and they meet one. -/
theorem deeper_iff (hpath : Path (ofText options text).symbols path) : limit < path.countP isConditional ↔
    ((ofText options text).deepPlaces limit).countP (fun p => meets path p.2.opening) = 1 := by
  constructor
  · intro hdeep
    obtain ⟨pre, a, post, rfl, hcount, ha⟩ := exists_split hdeep
    obtain ⟨hplace, hplain, -⟩ := hpath.place []
    rw [List.append_nil] at hplace
    have hmem : (pre.reverse, a) ∈ (ofText options text).deepPlaces limit :=
      mem_deepPlaces.mpr ⟨hplace, ha, by rw [List.countP_reverse, hcount], by rwa [List.any_reverse]⟩
    have hone : ∀ p ∈ (ofText options text).deepPlaces limit,
        (meets (pre ++ a :: post) p.2.opening = true ↔ (p == (pre.reverse, a)) = true) := by
      intro p hp
      obtain ⟨-, hconditional, hlimit, -⟩ := mem_deepPlaces.mp hp
      rw [meets_iff hpath hp, beq_iff_eq]
      constructor
      · rintro ⟨post', hsplit⟩
        have hsame : pre.countP isConditional = p.1.reverse.countP isConditional := by
          rw [hcount, List.countP_reverse, hlimit]
        obtain ⟨rfl, rfl⟩ := split_unique hsplit hsame ha hconditional
        rw [List.reverse_reverse]
      · rintro rfl
        exact ⟨post, by rw [List.reverse_reverse]⟩
    rw [List.countP_congr hone]
    exact List.count_eq_one_of_mem (deepPlaces_nodup options text limit) hmem
  · intro hone
    obtain ⟨p, hp, hmeets⟩ := List.countP_pos_iff.mp (hone ▸ Nat.one_pos)
    obtain ⟨-, hconditional, hlimit, -⟩ := mem_deepPlaces.mp hp
    obtain ⟨post, rfl⟩ := (meets_iff hpath hp).mp hmeets
    rw [List.countP_append, List.countP_reverse, hlimit, List.countP_cons_of_pos hconditional]
    omega

theorem deepAt?_start (limit : Nat) (p : List Symbol × Symbol) (d : Diagnostic)
    (h : Validation.deepAt? limit p = some d) : p.2.isConstruct = true ∧ d.range.start = p.2.range.start := by
  unfold Validation.deepAt? at h
  split at h
  · rename_i hdeep
    cases h
    exact ⟨isConstruct_of_isConditional (Bool.and_eq_true_iff.mp hdeep).1, opening_start p.2⟩
  · cases h

theorem lodAt?_start (p : List Symbol × Symbol) (d : Diagnostic) (h : Validation.lodAt? p = some d) :
    p.2.isConstruct = true ∧ d.range.start = p.2.range.start := by
  unfold Validation.lodAt? at h
  split at h
  · rename_i hlod
    obtain ⟨outer, -, rfl⟩ := Option.map_eq_some_iff.mp h
    exact ⟨isConstruct_of_isLod hlod, opening_start p.2⟩
  · cases h

/-- Blocks that are one more than may be are reported with the largest depth of a path through them. -/
theorem deep_oneToOne (options : Options) (text : String) (t : SignatureTable) (v : ValidationOptions) :
    OneToOne (fun p d => ∃ depth, IsGreatest (depthsThrough (ofText options text).symbols p) depth ∧
        d = (Cause.deepNesting depth v.maxNesting).spanning p.2.opening)
      ((ofText options text).deepPlaces v.maxNesting)
      ((validate (ofText options text) t v).filter (·.code == .deepNesting)) := by
  have hk : Code.deepNesting.isStructural = false ∧ Code.deepNesting ≠ .wrongArity ∧
    Code.deepNesting ≠ .unknownFunction := ⟨rfl, nofun, nofun⟩
  have houtside : Validation.Surroundings.Counts v.maxNesting [] .outside := ⟨rfl, rfl⟩
  have hperm := validate_perm_told hk houtside (fun _ _ s h => Validation.check_deepAt? t s h)
    (deepAt?_start v.maxNesting) options text
  rw [deepPlaces, ← List.filter_filter]
  refine .of_filterMap hperm fun p hp => ?_
  obtain ⟨hplace, hplain⟩ := List.mem_filter.mp hp
  unfold Validation.deepAt?
  split
  · rename_i hdeep
    obtain ⟨hconditional, -⟩ := Bool.and_eq_true_iff.mp hdeep
    have hskipped := (isConstruct_plain (isConstruct_of_isConditional hconditional)).1
    exact ⟨_, rfl, _, isGreatest_depthsThrough hplace (by simpa using hplain) hskipped, rfl⟩
  · rfl

/-- An LOD block opens with its brace. -/
theorem exists_brace (hs : s ∈ (ofText options text).walk) (hl : s.isLod = true) :
    ∃ x ∈ tokenize text, x.kind = .leftBrace ∧ x.range.start = s.range.start ∧ x.range = s.opening := by
  obtain ⟨own, howes⟩ := (faults_accounted options text).owed hs (isConstruct_plain (isConstruct_of_isLod hl)).2
  cases hk : s.kind with
  | block b branches terminator =>
    cases b with
    | lod scope =>
      rw [hk] at howes
      obtain ⟨x, hx, hopener, hstart, hstop, -⟩ := howes
      refine ⟨x, hx, hopener, hstart, ?_⟩
      have hsized : x.range.stop = x.range.start + 1 := Token.size_of_leftBrace hx hopener ▸ Token.lex_sized hx
      have hmin : min (x.range.start + 1) s.range.stop = x.range.stop := by omega
      rw [opening_block hk, opener, BlockKind.openerSize, Range.opening, ← hstart, hmin]
    | _ => simp [isLod, hk] at hl
  | _ => simp [isLod, hk] at hl

/-- LOD blocks in LOD blocks are reported with the brace of the innermost one around. -/
theorem lod_oneToOne (options : Options) (text : String) (t : SignatureTable) (v : ValidationOptions) :
    OneToOne (fun p d => ∃ outer, p.1.find? isLod = some outer ∧ ∃ x ∈ tokenize text, x.kind = .leftBrace ∧
        x.range.start = outer.range.start ∧ d = (Cause.nestedLod x.range).spanning p.2.opening)
      (ofText options text).lodPlaces ((validate (ofText options text) t v).filter (·.code == .nestedLod)) := by
  have hk : Code.nestedLod.isStructural = false ∧ Code.nestedLod ≠ .wrongArity ∧
    Code.nestedLod ≠ .unknownFunction := ⟨rfl, nofun, nofun⟩
  have houtside : Validation.Surroundings.Knows [] .outside := rfl
  have hperm := validate_perm_told hk houtside (fun _ _ s h => Validation.check_lodAt? t v s h) lodAt?_start options
    text
  rw [lodPlaces, ← List.filter_filter]
  refine .of_filterMap hperm fun p hp => ?_
  obtain ⟨hplace, -⟩ := List.mem_filter.mp hp
  unfold Validation.lodAt?
  cases hlod : p.2.isLod with
  | false => simp
  | true =>
    cases houter : p.1.find? isLod with
    | none =>
      have hnone : p.1.any isLod = false := by simpa using houter
      simp [hnone]
    | some outer =>
      have hmem := List.mem_of_find?_eq_some houter
      have hsome := List.find?_some houter
      have hany : p.1.any isLod = true := List.any_eq_true.mpr ⟨outer, hmem, hsome⟩
      obtain ⟨x, hx, hkind, hstart, hrange⟩ := exists_brace (mem_walk_around hplace hmem).1 hsome
      rw [hany, Bool.true_and, if_pos rfl, if_pos rfl]
      exact ⟨_, rfl, outer, rfl, x, hx, hkind, hstart, by rw [hrange]⟩

/-- Nesting is reported as the paths of the tree have it. There is one report at the opening of each IF or CASE block
that no skipped stretch is around and that stands in just as many such blocks as may be nested, and it gives the largest
number of them on a path through that block. So just the paths that are deeper than may be meet a report, and they meet
one. Each LOD block in another one that no skipped stretch is around is reported with the brace of the innermost one that
it stands in. There are no other reports under these codes. -/
theorem nesting_reported (options : Options) (text : String) (t : SignatureTable) (v : ValidationOptions) :
    OneToOne (fun p d => ∃ depth, IsGreatest (depthsThrough (ofText options text).symbols p) depth ∧
        d = (Cause.deepNesting depth v.maxNesting).spanning p.2.opening)
      ((ofText options text).places.filter fun p =>
        p.2.isConditional && p.1.countP isConditional == v.maxNesting && !p.1.any (·.isSkipped))
      ((validate (ofText options text) t v).filter (·.code == .deepNesting)) ∧
    (∀ path, Path (ofText options text).symbols path → (v.maxNesting < path.countP isConditional ↔
      ((validate (ofText options text) t v).filter (·.code == .deepNesting)).countP (meets path ·.range) = 1)) ∧
    OneToOne (fun p d => ∃ outer, p.1.find? isLod = some outer ∧ ∃ x ∈ tokenize text, x.kind = .leftBrace ∧
        x.range.start = outer.range.start ∧ d = (Cause.nestedLod x.range).spanning p.2.opening)
      ((ofText options text).places.filter fun p => p.2.isLod && p.1.any isLod && !p.1.any (·.isSkipped))
      ((validate (ofText options text) t v).filter (·.code == .nestedLod)) := by
  have hdeep := deep_oneToOne options text t v
  refine ⟨hdeep, fun path hpath => ?_, lod_oneToOne options text t v⟩
  rw [deeper_iff hpath]
  have hcount := hdeep.countP_eq (p := fun p => meets path p.2.opening) (q := (meets path ·.range)) fun p d hd => by
    obtain ⟨depth, -, rfl⟩ := hd
    exact Iff.rfl
  rw [hcount]

/-- The second IF is one too many; with the CASE in its LOD block there are three on one path. -/
example : ((ofText .default "IF [A] THEN IF [B] THEN \x7bCASE [C] WHEN 1 THEN 2 END\x7d END END").deepPlaces 1).map
    (fun p => (p.2.opening, p.1.countP isConditional + Validation.nesting p.2)) = [(⟨12, 14⟩, 3)] := by
  decide +kernel

end Outline

end Calculation
