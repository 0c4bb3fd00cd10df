import Calculation.Proofs.Document.Agreement
import Calculation.Proofs.Reading.Scopes

/-!
Aggregates in aggregates. Reading marks a call as nested by a stack of scopes, validation reports it by what it carries
down the finished tree. Both say the same of the symbols that the call stands in: the nearest of them that is an
aggregate call or an LOD block is an aggregate call. Comments are put into the tree later and change nothing of this.
-/
namespace Calculation

/-- A report of an aggregate in an aggregate. -/
def Diagnostic.isNested (d : Diagnostic) : Bool :=
  d.code == .nestedAggregate

namespace Symbol

variable {t : SignatureTable} {s outer : Symbol} {above : List Symbol}

def isAggregateCall (t : SignatureTable) (s : Symbol) : Bool :=
  s.isCall && t.isAggregate s.name

def isLod (s : Symbol) : Bool :=
  match s.kind with
  | .block (.lod _) _ _ => true
  | _ => false

/-- The nearest aggregate call or LOD block around, if it is an aggregate call. -/
def outerAggregate? (t : SignatureTable) (above : List Symbol) : Option Symbol :=
  (above.find? fun s => s.isAggregateCall t || s.isLod).filter (·.isAggregateCall t)

theorem outerAggregate?_cons (t : SignatureTable) (s : Symbol) (above : List Symbol) :
    outerAggregate? t (s :: above) =
      if s.isAggregateCall t then some s else if s.isLod then none else outerAggregate? t above := by
  unfold outerAggregate?
  cases ha : s.isAggregateCall t <;> cases hl : s.isLod <;> simp [ha, hl]

theorem outerAggregate?_eq_some (h : outerAggregate? t above = some outer) :
    outer ∈ above ∧ outer.isAggregateCall t = true := by
  obtain ⟨hfound, haggregate⟩ := Option.filter_eq_some_iff.mp h
  exact ⟨List.mem_of_find?_eq_some hfound, haggregate⟩

theorem scope?_eq (t : SignatureTable) (s : Symbol) :
    s.scope? t = if s.isAggregateCall t then some .aggregate else if s.isLod then some .lod else none := by
  unfold scope? isAggregateCall isCall isLod
  cases hk : s.kind with
  | block b => cases b <;> simp [BlockKind.scope?]
  | call => simp [SignatureTable.scope?]
  | _ => simp

/-- The scopes that symbols open, in the order of the symbols. -/
def scopesOf (t : SignatureTable) (above : List Symbol) : List Scope :=
  above.filterMap (scope? t)

theorem scopesOf_cons (t : SignatureTable) (s : Symbol) (above : List Symbol) :
    scopesOf t (s :: above) = enterScope t s (scopesOf t above) := by
  rw [scopesOf, enterScope, List.filterMap_cons]
  cases s.scope? t <;> rfl

/-- The innermost scope is that of an aggregate when the nearest symbol that opens one is an aggregate call. -/
theorem head?_scopesOf (t : SignatureTable) (above : List Symbol) :
    ((scopesOf t above).head? == some .aggregate) = (outerAggregate? t above).isSome := by
  induction above with
  | nil => rfl
  | cons s above ih =>
    rw [scopesOf_cons, enterScope, scope?_eq, outerAggregate?_cons]
    split
    · rfl
    · split
      · rfl
      · exact ih

namespace View

variable {α β : Type} {enter : Symbol → β → β} {f : β → Symbol → List α} {comment : Symbol}

/-- A comment among symbols is not seen with what is around the symbols. -/
theorem placed_insertComment (he : ∀ s children around, enter { s with children := children } around = enter s around)
    (hf : ∀ around, View (f around)) (hk : comment.kind = .comment) (hc : comment.children = []) :
    ∀ (ss : List Symbol) (around : β), (placedAll enter around (Symbol.insertComment comment ss)).flatMap
      (fun p => f p.1 p.2) = (placedAll enter around ss).flatMap fun p => f p.1 p.2
  | [], around => by
    simp [Symbol.insertComment, (hf around).comment comment hk, hc]
  | ⟨n, k, r, cs, c, l⟩ :: ss, around => by
    rw [Symbol.insertComment]
    split
    · simp only [placedAll_cons, List.flatMap_append, placed_insertComment he hf hk hc ss]
    · split
      · have hsame := (hf around).shallow ⟨n, k, r, cs, c, l⟩ (Symbol.insertComment comment cs)
        have henter := he ⟨n, k, r, cs, c, l⟩ (Symbol.insertComment comment cs) around
        simp only [Symbol.withComment, placedAll_cons, placed_eq, List.flatMap_append, List.flatMap_cons] at *
        rw [hsame, henter, placed_insertComment he hf hk hc cs]
      · simp [placedAll_cons enter around comment, placed_eq enter around comment,
          (hf around).comment comment hk, hc]

theorem blind_placed (enter : Symbol → β → β)
    (he : ∀ s children around, enter { s with children := children } around = enter s around)
    (hf : ∀ around, View (f around)) (around : β) :
    Blind fun ss => (placedAll enter around ss).flatMap fun p => f p.1 p.2 :=
  ⟨fun as bs => by rw [placedAll_append, List.flatMap_append],
    fun _ hk hc ss => placed_insertComment he hf hk hc ss around⟩

end View

/-- The name of a call that is not marked as the scopes say. -/
def wrongMark (t : SignatureTable) (scopes : List Scope) (s : Symbol) : List String :=
  if s.IsMarked t scopes then [] else [s.name]

theorem view_wrongMark (t : SignatureTable) (scopes : List Scope) : View (wrongMark t scopes) :=
  ⟨fun _ _ => rfl, fun s hs => if_pos (.of_not_call (by simp [isCall, hs]))⟩

end Symbol

namespace Outline
open Calculation.Symbol

variable {options : Options} {text : String} {p : List Symbol × Symbol} {d : Diagnostic}

/-- The symbols of an outline, each with the symbols it stands in, the innermost first. -/
def places (o : Outline) : List (List Symbol × Symbol) :=
  placedAll List.cons [] o.symbols

/-- Every call of the outline is marked by the scopes around it. -/
theorem placedAll_marked (options : Options) (text : String) :
    ∀ p ∈ placedAll (enterScope options.signatures) [] (ofText options text).symbols,
      p.2.IsMarked options.signatures p.1 := by
  have hblind := View.blind_placed (enterScope options.signatures) (fun _ _ _ => rfl)
    (view_wrongMark options.signatures) []
  have hnone := (blind_symbols hblind options text).trans (hblind.flatMap Item.symbols _)
  have hstatements : ((statements options text).flatMap fun i =>
      (placedAll (enterScope options.signatures) [] i.symbols).flatMap fun p =>
        wrongMark options.signatures p.1 p.2) = [] := by
    simp only [List.flatMap_eq_nil_iff]
    intro i hi p hp
    obtain ⟨rest, d, -, -, hleads, -⟩ := statements_readFrom options text i hi
    exact if_pos (hleads.marked p hp)
  intro p hp
  by_contra hmark
  have hwrong : p.2.name ∈ wrongMark options.signatures p.1 p.2 := by simp [wrongMark, hmark]
  have hmem : p.2.name ∈ (placedAll (enterScope options.signatures) [] (ofText options text).symbols).flatMap
      fun p => wrongMark options.signatures p.1 p.2 := List.mem_flatMap.mpr ⟨p, hp, hwrong⟩
  rw [hnone, hstatements] at hmem
  cases hmem

/-- A call is marked as nested when it calls an aggregate and stands in one. -/
theorem places_marked (hp : p ∈ (ofText options text).places) (hc : p.2.isCall = true) :
    p.2.isNested = (options.signatures.isAggregate p.2.name && (outerAggregate? options.signatures p.1).isSome) := by
  have hplaced := map_placedAll (f := scopesOf options.signatures) (scopesOf_cons options.signatures)
    (ofText options text).symbols []
  have hmem : (scopesOf options.signatures p.1, p.2) ∈
      placedAll (enterScope options.signatures) [] (ofText options text).symbols :=
    hplaced ▸ List.mem_map_of_mem (f := fun p : List Symbol × Symbol => (scopesOf options.signatures p.1, p.2)) hp
  exact head?_scopesOf options.signatures p.1 ▸ placedAll_marked options text _ hmem hc

end Outline

namespace Symbol

/-- What a report names of an aggregate call: its name and where that stands. -/
def label (s : Symbol) : String × Range :=
  (s.name, s.nameRange)

/-- The report of an aggregate call in symbols. -/
def nestedReport (t : SignatureTable) (above : List Symbol) (s : Symbol) : Diagnostic :=
  (Cause.nestedAggregate s.name ((outerAggregate? t above).map label)).spanning s.nameRange

end Symbol

namespace Validation
open Calculation.Symbol

variable {t : SignatureTable} {o : ValidationOptions} {around : Surroundings} {s : Symbol} {above : List Symbol}
  {arguments : List Argument} {isNested : Bool}

theorem checkKnown_nested (around : Surroundings) (s : Symbol) (count : Nat) (isNested : Bool) (f : Signature) :
    (checkKnown around s count isNested f).1.filter (·.isNested) =
      if f.isAggregate && (isNested || around.aggregate.isSome) then
        [(Cause.nestedAggregate s.name around.aggregate).spanning s.nameRange]
      else [] := by
  have harity : (if s.isComplete && !f.accepts count then
      [(Cause.wrongArity s.name f.expected count).spanning s.nameRange] else []).filter (·.isNested) = [] := by
    split <;> rfl
  have htable : (if f.isTableCalculation then [(Cause.tableCalculation s.name).spanning s.nameRange] else []).filter
      (·.isNested) = [] := by
    split <;> rfl
  unfold checkKnown
  dsimp only
  rw [List.filter_append, List.filter_append, harity, htable, List.nil_append, List.nil_append]
  split <;> rfl

/-- Aggregates are reported when they are marked as nested or stand in an aggregate. -/
theorem check_nested (t : SignatureTable) (o : ValidationOptions) (around : Surroundings) (s : Symbol) :
    (check t o around s).1.filter (·.isNested) =
      if s.isAggregateCall t && (s.isNested || around.aggregate.isSome) then
        [(Cause.nestedAggregate s.name around.aggregate).spanning s.nameRange]
      else [] := by
  cases hk : s.kind with
  | block b branches terminator =>
    rw [if_neg (by simp [isAggregateCall, isCall, hk])]
    refine List.filter_eq_nil_iff.mpr fun d hd => ?_
    rcases mem_check_block hk hd with ⟨-, rfl⟩ | hcode | hcode | hcode
    · cases b <;> simp [Diagnostic.isNested, Cause.spanning, Cause.code, BlockKind.closer]
    all_goals simp [Diagnostic.isNested, hcode]
  | call arguments isNested =>
    unfold check isAggregateCall isCall SignatureTable.isAggregate Symbol.isNested
    rw [hk]
    dsimp only
    cases t.get? s.name with
    | none => rfl
    | some f => exact checkKnown_nested around s arguments.length isNested f
  | _ => simp [check, isAggregateCall, isCall, hk]

/-- Inside a symbol the nearest aggregate is the symbol itself, or none if it is an LOD block, or the one around it. -/
theorem check_aggregate (t : SignatureTable) (o : ValidationOptions) (around : Surroundings) (s : Symbol) :
    (check t o around s).2.aggregate =
      if s.isAggregateCall t then some s.label else if s.isLod then none else around.aggregate := by
  cases hk : s.kind with
  | block b branches terminator =>
    unfold check isAggregateCall isCall isLod
    rw [hk]
    cases b with
    | lod => rfl
    | _ =>
      simp only [checkConditional]
      split <;> rfl
  | call arguments isNested =>
    unfold check isAggregateCall isCall isLod SignatureTable.isAggregate
    rw [hk]
    dsimp only
    cases t.get? s.name with
    | none => rfl
    | some f =>
      simp only [checkKnown, Option.any_some, Bool.true_and]
      split <;> rfl
  | _ => simp [check, isAggregateCall, isCall, isLod, hk]

/-- What is reported of a place: aggregates that are marked as nested or stand in an aggregate. -/
def nestedAt? (t : SignatureTable) (p : List Symbol × Symbol) : Option Diagnostic :=
  if p.2.isAggregateCall t && (p.2.isNested || (outerAggregate? t p.1).isSome) then some (nestedReport t p.1 p.2)
  else none

/-- Validation reports such a place, and carries down the nearest aggregate around. -/
theorem check_nestedAt? (h : around.aggregate = (outerAggregate? t above).map label) :
    (check t o around s).1.filter (·.isNested) = (nestedAt? t (above, s)).toList ∧
      (check t o around s).2.aggregate = (outerAggregate? t (s :: above)).map label := by
  constructor
  · rw [check_nested, h, Option.isSome_map, nestedAt?]
    split <;> rfl
  · rw [check_aggregate, outerAggregate?_cons, h]
    split
    · rfl
    · split <;> rfl

/-- Whatever stands below a skipped stretch has it around. -/
theorem filter_skipped (h : above.any (·.isSkipped) = true) (ss : List Symbol) :
    ((placedAll List.cons above ss).filter fun p => !p.1.any (·.isSkipped)) = [] := by
  obtain ⟨m, hm, hskipped⟩ := List.any_eq_true.mp h
  refine List.filter_eq_nil_iff.mpr fun p hp => ?_
  have hany : p.1.any (·.isSkipped) = true := List.any_eq_true.mpr ⟨m, subset_around ss above hp hm, hskipped⟩
  simp [hany]

/-- What validation finds of one sort, when it tells it of each symbol by those around it: `Carries` says what it
carries down to tell it. It is found at the places that no skipped stretch is around. -/
theorem findingsAll_filter {q : Diagnostic → Bool} {told? : List Symbol × Symbol → Option Diagnostic}
    {Carries : List Symbol → Surroundings → Prop}
    (hself : ∀ above around s, Carries above around →
      (check t o around s).1.filter q = (told? (above, s)).toList ∧ Carries (s :: above) (check t o around s).2)
    (hskipped : ∀ above s, s.isSkipped = true → told? (above, s) = none) :
    ∀ (ss above : List Symbol) (around : Surroundings), Carries above around → above.any (·.isSkipped) = false →
      (findingsAll t o around ss).filter q =
        ((placedAll List.cons above ss).filter fun p => !p.1.any (·.isSkipped)).filterMap told?
  | [], above, around, _, _ => by
    rw [findingsAll, placedAll_nil]
    rfl
  | ⟨n, k, r, cs, c, l⟩ :: ss, above, around, haround, hplain => by
    have hrest := findingsAll_filter hself hskipped ss above around haround hplain
    rw [findingsAll, findings, placedAll_cons, placed_eq, List.filter_append, List.filter_append,
      List.filterMap_append, hrest, List.filter_cons, hplain, Bool.not_false, if_pos rfl, List.filterMap_cons]
    congr 1
    split
    · rename_i hk
      have hs : isSkipped ⟨n, k, r, cs, c, l⟩ = true := by simp [isSkipped, hk]
      rw [filter_skipped (by rw [List.any_cons, hs]; rfl), hskipped above _ hs]
      rfl
    · rename_i hk
      have hs : isSkipped ⟨n, k, r, cs, c, l⟩ = false := beq_eq_false_iff_ne.mpr hk
      obtain ⟨hfound, hinner⟩ := hself above around ⟨n, k, r, cs, c, l⟩ haround
      have hchildren := findingsAll_filter hself hskipped cs (⟨n, k, r, cs, c, l⟩ :: above) _ hinner
        (by rw [List.any_cons, hs, hplain]; rfl)
      dsimp only
      rw [List.filter_append, hchildren, hfound]
      cases told? (above, ⟨n, k, r, cs, c, l⟩) <;> rfl

end Validation

namespace Outline
open Calculation.Symbol Diagnostic

variable {options : Options} {text : String} {p : List Symbol × Symbol} {d : Diagnostic} {s : Symbol}

theorem map_places (o : Outline) : o.places.map (·.2) = o.walk :=
  map_placedAll_symbol List.cons o.symbols []

/-- Reading reports what is structural, and at the end of a symbol what is about a signature. -/
theorem faults_free {q : Diagnostic → Bool} (hq : ∀ d, q d = true → d.isStructural = false ∧ d.isSignature = false)
    (options : Options) (text : String) : (ofText options text).faults.filter q = [] := by
  have hnone : ∀ s : Symbol, (Event.faults (s.ending options.signatures)).filter q = [] := by
    intro s
    cases hd : s.signatureFault? options.signatures with
    | none => simp [ending, hd, Event.faults, Event.fault?, apply_ite]
    | some d =>
      obtain ⟨-, -, hsignature⟩ := signatureFault?_eq_some hd
      have hother : q d = false := by
        refine Bool.eq_false_iff.mpr fun hqd => ?_
        rw [(hq d hqd).2] at hsignature
        cases hsignature
      simp [ending, hd, Event.faults, Event.fault?, hother, apply_ite]
  apply List.perm_nil.mp
  refine (faults_perm_told (fun d hd => (hq d hd).1) options text).trans (.of_eq ?_)
  simp [List.flatMap_eq_nil_iff, hnone]

/-- What validation alone reports under a code is in the diagnostics as it was found, when no two findings are of one
fault. -/
theorem validate_perm_found {k : Code} (hk : k.isStructural = false ∧ k ≠ .wrongArity ∧ k ≠ .unknownFunction)
    (options : Options) (text : String) (t : SignatureTable) (v : ValidationOptions) {found : List Diagnostic}
    (hfound : (Validation.findingsAll t v .outside (ofText options text).symbols).filter (·.code == k) = found)
    (hdistinct : Distinct found) : ((validate (ofText options text) t v).filter (·.code == k)).Perm found := by
  have hsame : ∀ a b : Diagnostic, a.sameFault b = true → (a.code == k) = (b.code == k) := fun a b hab => by
    rw [(sameFault_iff.mp hab).2]
  have hfree : (ofText options text).faults.filter (·.code == k) = [] := by
    refine faults_free (fun d hd => ?_) options text
    rw [isStructural, isSignature, beq_iff_eq.mp hd]
    simp [hk]
  refine (canonical_filter hsame _).trans (.of_eq ?_)
  rw [List.filter_append, hfree, hfound, List.nil_append]
  exact keepFirst_eq_self hdistinct

/-- No two places of constructs start together. -/
theorem places_startApart (options : Options) (text : String) :
    (ofText options text).places.Pairwise fun p q => StartApart p.2 q.2 :=
  List.pairwise_map.mp (map_places _ ▸ walk_startApart options text)

/-- What is told of places starts where their symbols start, so nothing is told twice. -/
theorem told_distinct {told? : List Symbol × Symbol → Option Diagnostic}
    (htold : ∀ p d, told? p = some d → p.2.isConstruct = true ∧ d.range.start = p.2.range.start) (options : Options)
    (text : String) (q : List Symbol × Symbol → Bool) :
    Distinct (((ofText options text).places.filter q).filterMap told?) := by
  refine List.pairwise_filterMap.mpr (((places_startApart options text).filter q).imp fun {p p'} h d hd d' hd' => ?_)
  obtain ⟨hp, hstart⟩ := htold p d hd
  obtain ⟨hp', hstart'⟩ := htold p' d' hd'
  refine Bool.eq_false_iff.mpr fun hsame => h hp hp' ?_
  rw [← hstart, ← hstart', (sameFault_iff.mp hsame).1]

/-- What validation alone reports under a code and tells of each symbol by those around it is in the diagnostics, once
for each place that no skipped stretch is around. -/
theorem validate_perm_told {k : Code} (hk : k.isStructural = false ∧ k ≠ .wrongArity ∧ k ≠ .unknownFunction)
    {t : SignatureTable} {v : ValidationOptions} {told? : List Symbol × Symbol → Option Diagnostic}
    {Carries : List Symbol → Validation.Surroundings → Prop} (houtside : Carries [] .outside)
    (hself : ∀ above around s, Carries above around →
      (Validation.check t v around s).1.filter (·.code == k) = (told? (above, s)).toList ∧
        Carries (s :: above) (Validation.check t v around s).2)
    (htold : ∀ p d, told? p = some d → p.2.isConstruct = true ∧ d.range.start = p.2.range.start) (options : Options)
    (text : String) : ((validate (ofText options text) t v).filter (·.code == k)).Perm
      (((ofText options text).places.filter fun p => !p.1.any (·.isSkipped)).filterMap told?) := by
  have hskipped : ∀ above s, s.isSkipped = true → told? (above, s) = none := fun above s hs =>
    Option.eq_none_iff_forall_ne_some.mpr fun d hd => by
      have hconstruct : s.isConstruct = true := (htold _ d hd).1
      simp [isConstruct, hs] at hconstruct
  exact validate_perm_found hk options text t v
    (Validation.findingsAll_filter hself hskipped (ofText options text).symbols [] .outside houtside rfl)
    (told_distinct htold options text _)

/-- The places of calls that are marked as nested, those that skipped stretches hide aside. -/
def nestedPlaces (o : Outline) : List (List Symbol × Symbol) :=
  o.places.filter fun p => p.2.isNested && !p.1.any (·.isSkipped)

theorem mem_nestedPlaces {o : Outline} : p ∈ o.nestedPlaces ↔
    p ∈ o.places ∧ p.2.isNested = true ∧ p.1.any (·.isSkipped) = false := by
  simp [nestedPlaces]

def nestedReports (t : SignatureTable) (o : Outline) : List Diagnostic :=
  o.nestedPlaces.map fun p => nestedReport t p.1 p.2

/-- A place is reported when the call there is marked as nested. -/
theorem nestedAt?_eq (hp : p ∈ (ofText options text).places) : Validation.nestedAt? options.signatures p =
    if p.2.isNested then some (nestedReport options.signatures p.1 p.2) else none := by
  unfold Validation.nestedAt? isAggregateCall
  cases hcall : p.2.isCall with
  | false =>
    have hplain : p.2.isNested = false := Bool.eq_false_iff.mpr fun h => by simp [isCall_of_isNested h] at hcall
    simp [hplain]
  | true =>
    rw [places_marked hp hcall]
    cases options.signatures.isAggregate p.2.name <;> simp

theorem nestedAt?_start (t : SignatureTable) (p : List Symbol × Symbol) (d : Diagnostic)
    (h : Validation.nestedAt? t p = some d) : p.2.isConstruct = true ∧ d.range.start = p.2.range.start := by
  unfold Validation.nestedAt? at h
  split at h
  · rename_i hreported
    obtain ⟨haggregate, -⟩ := Bool.and_eq_true_iff.mp hreported
    cases h
    exact ⟨isConstruct_of_isCall (Bool.and_eq_true_iff.mp haggregate).1, rfl⟩
  · cases h

/-- The diagnostics have the report of each of these places once. -/
theorem validate_perm_nested (options : Options) (text : String) (v : ValidationOptions) :
    ((validate (ofText options text) options.signatures v).filter (·.isNested)).Perm
      (nestedReports options.signatures (ofText options text)) := by
  have hk : Code.nestedAggregate.isStructural = false ∧ Code.nestedAggregate ≠ .wrongArity ∧
    Code.nestedAggregate ≠ .unknownFunction := ⟨rfl, nofun, nofun⟩
  refine (validate_perm_told hk rfl (fun _ _ _ h => Validation.check_nestedAt? h) (nestedAt?_start options.signatures)
    options text).trans (.of_eq ?_)
  rw [nestedReports, nestedPlaces, ← List.filterMap_eq_map, List.filterMap_filter, List.filterMap_filter]
  refine List.filterMap_congr fun p hp => ?_
  rw [nestedAt?_eq hp]
  cases p.2.isNested <;> simp

/-- What is around a place are symbols of the outline that the symbol there stands below. -/
theorem mem_walk_around {m : Symbol} (hp : p ∈ (ofText options text).places) (hm : m ∈ p.1) :
    m ∈ (ofText options text).walk ∧ p.2 ∈ walkAll m.children := by
  rcases mem_around _ _ hp hm with hnone | hbelow
  · cases hnone
  · exact hbelow

/-- A call that is marked as nested stands in the aggregate that its report names. -/
theorem exists_outer (hp : p ∈ (ofText options text).places) (hn : p.2.isNested = true) :
    ∃ outer ∈ (ofText options text).walk, outerAggregate? options.signatures p.1 = some outer ∧
      outer.isAggregateCall options.signatures = true ∧ p.2 ∈ walkAll outer.children := by
  have hmarked := places_marked hp (isCall_of_isNested hn)
  rw [hn] at hmarked
  obtain ⟨outer, houter⟩ := Option.isSome_iff_exists.mp (Bool.and_eq_true_iff.mp hmarked.symm).2
  obtain ⟨hmem, haggregate⟩ := outerAggregate?_eq_some houter
  obtain ⟨hwalk, hbelow⟩ := mem_walk_around hp hmem
  exact ⟨outer, hwalk, houter, haggregate, hbelow⟩

/-- Reading and validation agree on aggregates in aggregates. A call is marked as nested just when it calls an aggregate
and, of the aggregate calls and LOD blocks that it stands in, the nearest is an aggregate call. The calls so marked that
stand in no skipped stretch are reported, each once, at their names; every report names that nearest aggregate and where
its name stands in the text, so that none speaks of an aggregate that is not known. -/
theorem nested_aggregates_agree (options : Options) (v : ValidationOptions) (text : String) :
    (∀ p ∈ (analyze options v text).places, p.2.isCall = true → (p.2.isNested = true ↔
      options.signatures.isAggregate p.2.name = true ∧ (outerAggregate? options.signatures p.1).isSome = true)) ∧
    ((analyze options v text).diagnostics.filter (·.isNested)).Perm
      (((analyze options v text).places.filter fun p => p.2.isNested && !p.1.any (·.isSkipped)).map fun p =>
        nestedReport options.signatures p.1 p.2) ∧
    (∀ p ∈ (analyze options v text).places, p.2.isNested = true → ∃ outer,
      outerAggregate? options.signatures p.1 = some outer ∧ p.2 ∈ walkAll outer.children ∧
      nestedReport options.signatures p.1 p.2 =
        (Cause.nestedAggregate p.2.name (some (outer.name, outer.nameRange))).spanning p.2.nameRange ∧
      ∀ s ∈ [p.2, outer], ∃ x ∈ tokenize text, x.kind = .identifier ∧ x.text = s.name ∧ x.range = s.nameRange) ∧
    ∀ d ∈ (analyze options v text).diagnostics, ∀ name range,
      d ≠ (Cause.nestedAggregate name none).spanning range := by
  have hreports := validate_perm_nested options text v
  refine ⟨fun p hp hcall => ?_, hreports, fun p hp hn => ?_, fun d hd name range hdiff => ?_⟩
  · rw [places_marked hp hcall, Bool.and_eq_true]
  · obtain ⟨outer, hwalk, houter, haggregate, hbelow⟩ := exists_outer hp hn
    refine ⟨outer, houter, hbelow, by rw [nestedReport, houter]; rfl, ?_⟩
    have hsymbol : p.2 ∈ (ofText options text).walk := map_places _ ▸ List.mem_map_of_mem hp
    have houtercall : outer.isCall = true := (Bool.and_eq_true_iff.mp haggregate).1
    simp only [List.forall_mem_cons, List.not_mem_nil, false_implies, implies_true, and_true]
    exact ⟨exists_name hsymbol (isCall_of_isNested hn), exists_name hwalk houtercall⟩
  · have hnested : d ∈ nestedReports options.signatures (ofText options text) :=
      hreports.mem_iff.mp (List.mem_filter.mpr ⟨hd, hdiff ▸ rfl⟩)
    obtain ⟨p, hp, hpd⟩ := List.mem_map.mp hnested
    obtain ⟨hplace, hn, -⟩ := mem_nestedPlaces.mp hp
    obtain ⟨outer, -, houter, -⟩ := exists_outer hplace hn
    have hrelated := congrArg Diagnostic.related (hpd.trans hdiff)
    rw [nestedReport, houter] at hrelated
    cases hrelated

/-- MAX and MIN each stand in an aggregate; between SUM and AVG there is an LOD block. -/
example : ((ofText .default "SUM(\x7bAVG(MAX([A]))\x7d + MIN([A]))").walk.filter (·.isNested)).map (·.name) =
    ["MAX", "MIN"] := by
  decide +kernel

end Outline

end Calculation
