import Mathlib
import Calculation.Signature.Reader

/-!
Tables of signatures as maps. Whatever a table was made of, by inserting, by merging or by loading a list, it is told by
the signatures that went into it in the order in which they came: it finds the one that came last under a name in any
letter case, and lists the functions in the order in which their names came first.
-/
namespace Calculation

theorem Text.trim_eq_nil_iff {cs : List Char} : trim cs = [] ↔ ∀ c ∈ cs, isBlank c = true := by
  simp only [trim, trimEnd, trimStart, List.reverse_eq_nil_iff, List.dropWhile_eq_nil_iff, List.mem_reverse]
  constructor
  · intro h c hc
    rw [← List.takeWhile_append_dropWhile (p := isBlank) (l := cs)] at hc
    rcases List.mem_append.mp hc with hc | hc
    · exact List.mem_takeWhile_imp hc
    · exact h c hc
  · intro h c hc
    exact h c ((List.dropWhile_sublist _).mem hc)

namespace Signature

variable {s : Signature} {e : SignatureError}

/-- What is wrong with a signature. A name that is blank is told before an arity that leaves no room. -/
inductive Fault (s : Signature) : SignatureError → Prop
  | emptyName (blank : ∀ c ∈ s.name.toList, Text.isBlank c = true) : Fault s .emptyName
  | invalidArity {max : Nat} (named : ∃ c ∈ s.name.toList, Text.isBlank c = false) (most : s.maxArgs = some max)
    (less : max < s.minArgs) : Fault s (.invalidArity s.name s.minArgs max)

/-- Nothing is wrong with the signature. -/
def Sound (s : Signature) : Prop :=
  ∀ e, ¬s.Fault e

theorem Fault.unique {e' : SignatureError} (h : s.Fault e) (h' : s.Fault e') : e = e' := by
  have hapart : (∀ c ∈ s.name.toList, Text.isBlank c = true) → ¬∃ c ∈ s.name.toList, Text.isBlank c = false := by
    rintro hall ⟨c, hc, hblank⟩
    rw [hall c hc] at hblank
    cases hblank
  cases h with
  | emptyName hblank =>
    cases h' with
    | emptyName _ => rfl
    | invalidArity hnamed _ _ => exact absurd hnamed (hapart hblank)
  | invalidArity hnamed hmost _ =>
    cases h' with
    | emptyName hblank => exact absurd hnamed (hapart hblank)
    | invalidArity _ hmost' _ =>
      obtain rfl := Option.some.inj (hmost.symm.trans hmost')
      rfl

/-- A check finds what is wrong, or that nothing is. -/
theorem check_cases (s : Signature) : (∃ e, s.check = .error e ∧ s.Fault e) ∨ s.check = .ok () ∧ s.Sound := by
  unfold check
  by_cases hblank : ∀ c ∈ s.name.toList, Text.isBlank c = true
  · rw [if_pos (List.isEmpty_iff.mpr (Text.trim_eq_nil_iff.mpr hblank))]
    exact .inl ⟨_, rfl, .emptyName hblank⟩
  · rw [if_neg (mt (fun h => Text.trim_eq_nil_iff.mp (List.isEmpty_iff.mp h)) hblank)]
    have hnamed : ∃ c ∈ s.name.toList, Text.isBlank c = false := by simpa using hblank
    cases hmost : s.maxArgs with
    | none =>
      refine .inr ⟨rfl, fun e h => ?_⟩
      cases h with
      | emptyName h => exact hblank h
      | invalidArity _ h _ => cases hmost.symm.trans h
    | some max =>
      by_cases hless : max < s.minArgs
      · exact .inl ⟨_, if_pos hless, .invalidArity hnamed hmost hless⟩
      · refine .inr ⟨if_neg hless, fun e h => ?_⟩
        cases h with
        | emptyName h => exact hblank h
        | invalidArity _ h hlt =>
          obtain rfl := Option.some.inj (hmost.symm.trans h)
          exact hless hlt

end Signature

namespace SignatureTable

/-- The tables that can be made, each with the signatures that went into it, in the order in which they came. -/
inductive Built : List Signature → SignatureTable → Prop
  | empty : Built [] empty
  | insert {past : List Signature} {t : SignatureTable} (h : Built past t) (s : Signature) :
    Built (past ++ [s]) (t.insert s)
  | merged {past later : List Signature} {t other : SignatureTable} (h : Built past t) (ho : Built later other) :
    Built (past ++ later) (t.merged other)
  | loaded {ss : List Signature} {t : SignatureTable} (h : load ss = .ok t) : Built ss t

/-- The keys of signatures. -/
def keysOf (ss : List Signature) : List String :=
  ss.map fun s => keyOf s.name

/-- Of the signatures that came under a key, the last one. -/
def lastUnder? (past : List Signature) (key : String) : Option Signature :=
  past.reverse.find? fun s => keyOf s.name = key

/-- A table holds what is left of the signatures that went into it. -/
structure Holds (past : List Signature) (t : SignatureTable) : Prop where
  keyed : ∀ e ∈ t.entries, e.1 = keyOf e.2.name
  keys : t.entries.map Prod.fst = Keyed.distinct (keysOf past)
  found : ∀ key, Keyed.find? key t.entries = lastUnder? past key

variable {p q r past past' later ss : List Signature} {s : Signature} {a b c t t' other : SignatureTable}
  {e : SignatureError}

theorem lastUnder?_append (past later : List Signature) (key : String) :
    lastUnder? (past ++ later) key = (lastUnder? later key).or (lastUnder? past key) := by
  simp [lastUnder?]

theorem lastUnder?_singleton (s : Signature) (key : String) :
    lastUnder? [s] key = if keyOf s.name = key then some s else none := by
  by_cases h : keyOf s.name = key <;> simp [lastUnder?, h]

theorem keysOf_append (past later : List Signature) : keysOf (past ++ later) = keysOf past ++ keysOf later :=
  List.map_append

theorem Holds.empty : Holds [] empty :=
  ⟨nofun, rfl, fun _ => rfl⟩

theorem Holds.nodup (h : Holds past t) : (t.entries.map Prod.fst).Nodup :=
  h.keys ▸ Keyed.nodup_distinct _

/-- A table is told by what went into it. -/
theorem Holds.unique (h : Holds past t) (h' : Holds past t') : t = t' := by
  have hentries : t.entries = t'.entries :=
    Keyed.ext_find? (h.keys.trans h'.keys.symm) h.nodup fun key => (h.found key).trans (h'.found key).symm
  cases t
  cases t'
  exact congrArg _ hentries

/-- What went into a table matters only by the order of the keys and by what came last under each. -/
theorem Holds.congr (h : Holds past t) (hkeys : Keyed.distinct (keysOf past) = Keyed.distinct (keysOf past'))
    (hlast : ∀ key, lastUnder? past key = lastUnder? past' key) : Holds past' t :=
  ⟨h.keyed, h.keys.trans hkeys, fun key => (h.found key).trans (hlast key)⟩

theorem Holds.insert (h : Holds past t) (s : Signature) : Holds (past ++ [s]) (t.insert s) := by
  refine ⟨fun e he => ?_, ?_, fun key => ?_⟩
  · rcases Keyed.mem_put he with rfl | he
    · rfl
    · exact h.keyed e he
  · have hone : Keyed.distinct (keysOf [s]) = [keyOf s.name] := rfl
    rw [SignatureTable.insert, Keyed.keys_put, h.keys, keysOf_append, Keyed.distinct_append, hone]
    by_cases hmem : keyOf s.name ∈ keysOf past
    · simp [hmem]
    · simp [hmem]
  · rw [SignatureTable.insert, Keyed.find?_put, h.found, lastUnder?_append, lastUnder?_singleton]
    split <;> rfl

theorem Holds.insertAll (h : Holds past t) (ss : List Signature) : Holds (past ++ ss) (t.insertAll ss) := by
  induction ss generalizing past t with
  | nil => rwa [List.append_nil]
  | cons s ss ih =>
    have hrest := ih (h.insert s)
    rwa [List.append_assoc] at hrest

/-- The signatures that a table lists have its keys. -/
theorem Holds.keysOf_toList (h : Holds past t) : keysOf t.toList = t.entries.map Prod.fst := by
  rw [keysOf, toList, List.map_map]
  exact List.map_congr_left fun e he => (h.keyed e he).symm

/-- Of entries with different keys, the last one under a key is the only one. -/
theorem lastUnder?_entries {entries : List (String × Signature)} (hkeyed : ∀ e ∈ entries, e.1 = keyOf e.2.name)
    (hd : (entries.map Prod.fst).Nodup) (key : String) :
    lastUnder? (entries.map (·.2)) key = Keyed.find? key entries := by
  induction entries with
  | nil => rfl
  | cons e rest ih =>
    obtain ⟨k, s⟩ := e
    obtain ⟨hk, hrest⟩ := List.forall_mem_cons.mp hkeyed
    obtain ⟨hnew, hd⟩ := List.nodup_cons.mp hd
    have hsplit : ((k, s) :: rest).map (·.2) = [s] ++ rest.map (·.2) := rfl
    rw [hsplit, lastUnder?_append, lastUnder?_singleton, ih hrest hd, Keyed.find?, ← hk]
    by_cases hkey : k = key
    · subst hkey
      rw [Keyed.find?_eq_none hnew]
      rfl
    · simp [hkey]

/-- To insert what a table lists is to insert what went into it. -/
theorem Holds.merged (h : Holds past t) (ho : Holds later other) : Holds (past ++ later) (t.merged other) := by
  have hall := h.insertAll other.toList
  refine hall.congr ?_ fun key => ?_
  · rw [keysOf_append, keysOf_append, Keyed.distinct_append, Keyed.distinct_append, ho.keysOf_toList, ho.keys,
      Keyed.distinct_eq_self (Keyed.nodup_distinct _)]
  · rw [lastUnder?_append, lastUnder?_append, toList, lastUnder?_entries ho.keyed ho.nodup, ho.found]

/-- The functions are listed in the order in which their keys came first, each with what came last under it. -/
theorem Holds.toList_eq (h : Holds past t) :
    t.toList = (Keyed.distinct (keysOf past)).filterMap (lastUnder? past) := by
  have hfound : ∀ e ∈ t.entries, (lastUnder? past ∘ Prod.fst) e = some e.2 := fun e he =>
    (h.found e.1).symm.trans (Keyed.find?_of_mem h.nodup he)
  rw [← h.keys, List.filterMap_map, List.filterMap_congr (g := some ∘ Prod.snd) hfound, List.filterMap_eq_map, toList]

theorem forM_check_of_error (h : s.check = .error e) : (s :: ss).forM Signature.check = .error e := by
  rw [List.forM, h]
  rfl

theorem forM_check_of_ok (h : s.check = .ok ()) : (s :: ss).forM Signature.check = ss.forM Signature.check := by
  rw [List.forM, h]
  rfl

/-- The first signature that is wrong decides what is told of a list. -/
theorem forM_check_eq_error_iff : ss.forM Signature.check = .error e ↔
    ∃ before s behind, ss = before ++ s :: behind ∧ (∀ b ∈ before, b.Sound) ∧ s.Fault e := by
  induction ss with
  | nil =>
    refine ⟨nofun, ?_⟩
    rintro ⟨before, s, behind, hnil, -⟩
    simp at hnil
  | cons s ss ih =>
    rcases s.check_cases with ⟨e', hcheck, hfault⟩ | ⟨hcheck, hsound⟩
    · rw [forM_check_of_error hcheck]
      constructor
      · rintro ⟨⟩
        exact ⟨[], s, ss, rfl, nofun, hfault⟩
      · rintro ⟨before, x, behind, hss, hbefore, hx⟩
        cases before with
        | nil =>
          cases hss
          rw [hfault.unique hx]
        | cons b before =>
          cases hss
          exact absurd hfault (hbefore s List.mem_cons_self e')
    · rw [forM_check_of_ok hcheck, ih]
      constructor
      · rintro ⟨before, x, behind, rfl, hbefore, hx⟩
        exact ⟨s :: before, x, behind, rfl, List.forall_mem_cons.mpr ⟨hsound, hbefore⟩, hx⟩
      · rintro ⟨before, x, behind, hss, hbefore, hx⟩
        cases before with
        | nil =>
          cases hss
          exact absurd hx (hsound e)
        | cons b before =>
          cases hss
          exact ⟨before, x, behind, rfl, (List.forall_mem_cons.mp hbefore).2, hx⟩

theorem forM_check_eq_ok_iff : ss.forM Signature.check = .ok () ↔ ∀ s ∈ ss, s.Sound := by
  induction ss with
  | nil => exact ⟨fun _ => nofun, fun _ => rfl⟩
  | cons s ss ih =>
    rcases s.check_cases with ⟨e, hcheck, hfault⟩ | ⟨hcheck, hsound⟩
    · rw [forM_check_of_error hcheck]
      exact ⟨nofun, fun h => absurd hfault (h s List.mem_cons_self e)⟩
    · rw [forM_check_of_ok hcheck, ih, List.forall_mem_cons]
      exact (and_iff_right hsound).symm

theorem load_eq_error_iff : load ss = .error e ↔
    ∃ before s behind, ss = before ++ s :: behind ∧ (∀ b ∈ before, b.Sound) ∧ s.Fault e := by
  rw [← forM_check_eq_error_iff, load]
  cases ss.forM Signature.check with
  | error e' =>
    constructor
    · rintro ⟨⟩
      rfl
    · rintro ⟨⟩
      rfl
  | ok u => exact ⟨nofun, nofun⟩

theorem load_eq_ok_iff : load ss = .ok t ↔ (∀ s ∈ ss, s.Sound) ∧ t = ofList ss := by
  rw [← forM_check_eq_ok_iff, load]
  cases ss.forM Signature.check with
  | error e' => exact ⟨nofun, nofun⟩
  | ok u =>
    constructor
    · rintro ⟨⟩
      exact ⟨rfl, rfl⟩
    · rintro ⟨-, rfl⟩
      rfl

theorem Built.holds (h : Built past t) : Holds past t := by
  induction h with
  | empty => exact .empty
  | insert _ s ih => exact ih.insert s
  | merged _ _ ih iho => exact ih.merged iho
  | loaded h =>
    obtain ⟨-, rfl⟩ := load_eq_ok_iff.mp h
    exact Holds.empty.insertAll _

theorem Holds.get?_eq (h : Holds past t) (name : String) : t.get? name = lastUnder? past (keyOf name) :=
  (t.get?_eq name).trans (h.found _)

/-- Names that differ only in letter case have the same key. -/
theorem keyOf_congr {name spelled : String} (h : spelled.toList.map Char.toLower = name.toList.map Char.toLower) :
    keyOf spelled = keyOf name := by
  have hupper := congrArg (List.map Char.toUpper) h
  simp only [List.map_map, Function.comp_def, Char.toUpper_toLower_eq_toUpper] at hupper
  exact congrArg String.ofList hupper

/-- What has come already changes nothing when it comes again. -/
theorem Holds.merged_self (h : Holds past t) : t.merged t = t := by
  refine ((h.merged h).congr ?_ fun key => ?_).unique h
  · rw [keysOf_append, Keyed.distinct_append, List.filter_eq_nil_iff.mpr, List.append_nil]
    intro key hkey
    simpa using hkey
  · rw [lastUnder?_append, Option.or_self]

/-- Tables of signatures are maps in which what comes last counts, whatever they were made of. Every key is the name of
its signature in capital letters. In any letter case, a name finds the signature that came last under it, and the
signatures are listed in the order in which their keys came first. To merge a table with another finds what the other
finds, and else what it finds itself; so merging is associative and idempotent, and the empty table is its identity.
Loading a list fails on the first signature that is wrong, of which a blank name is told first, and otherwise inserts
the signatures in their order. -/
theorem tables_right_biased (ha : Built p a) (hb : Built q b) (hc : Built r c) (ss : List Signature) :
    (∀ key s, (key, s) ∈ a.entries → key = keyOf s.name) ∧
    (∀ name spelled : String, spelled.toList.map Char.toLower = name.toList.map Char.toLower →
      a.get? spelled = lastUnder? p (keyOf name)) ∧
    a.toList = (Keyed.distinct (keysOf p)).filterMap (lastUnder? p) ∧
    (∀ name, (a.merged b).get? name = (b.get? name).or (a.get? name)) ∧
    (a.merged b).merged c = a.merged (b.merged c) ∧ a.merged a = a ∧ empty.merged a = a ∧ a.merged empty = a ∧
    (∀ e, load ss = .error e ↔
      ∃ before s behind, ss = before ++ s :: behind ∧ (∀ b ∈ before, b.Sound) ∧ s.Fault e) ∧
    ∀ t, load ss = .ok t ↔ (∀ s ∈ ss, s.Sound) ∧ t = ss.foldl insert empty := by
  have hab := ha.holds.merged hb.holds
  refine ⟨fun key s h => ha.holds.keyed _ h, ?_, ha.holds.toList_eq, ?_, ?_, ha.holds.merged_self, ?_, rfl, ?_, ?_⟩
  · intro name spelled h
    rw [ha.holds.get?_eq, keyOf_congr h]
  · intro name
    rw [hab.get?_eq, ha.holds.get?_eq, hb.holds.get?_eq, lastUnder?_append]
  · have hassoc := hab.merged hc.holds
    rw [List.append_assoc] at hassoc
    exact hassoc.unique (ha.holds.merged (hb.holds.merged hc.holds))
  · exact (Holds.empty.merged ha.holds).unique ha.holds
  · exact fun e => load_eq_error_iff
  · exact fun t => load_eq_ok_iff

/-- For instance a function that comes again, spelled otherwise, in the table that is merged on top. -/
theorem tables_right_biased_respelled :
    let sum : Signature := ⟨"Sum", 1, some 1, [], "any", .aggregate⟩
    let mean : Signature := ⟨"mean", 1, none, [], "any", .aggregate⟩
    let wide : Signature := ⟨"sUM", 1, some 3, [], "any", .aggregate⟩
    let t := ((empty.insert sum).insert mean).merged (empty.insert wide)
    Built [sum, mean, wide] t ∧ t.get? "sum" = some wide ∧ t.toList = [wide, mean] := by
  intro sum mean wide t
  have hfirst : Built [sum, mean] ((empty.insert sum).insert mean) := (Built.empty.insert sum).insert mean
  have hlater : Built [wide] (empty.insert wide) := Built.empty.insert wide
  have ht : Built [sum, mean, wide] t := hfirst.merged hlater
  obtain ⟨-, hget, hlist, -⟩ := tables_right_biased ht hfirst hlater []
  refine ⟨ht, (hget "SUM" "sum" (by decide +kernel)).trans ?_, hlist.trans ?_⟩
  · decide +kernel
  · decide +kernel

end SignatureTable

end Calculation
