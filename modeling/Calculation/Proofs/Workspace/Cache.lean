import Calculation.Workspace.Cache

/-!
The cache over whole runs. Whatever is done to it, the memory it counts is that of its entries, each document has one
entry, the one that was stored last, and the pinned document is a cached one. It keeps its limits, unless it holds
nothing but the pinned document; eviction ends because each round drops an entry.
-/
namespace Calculation

theorem sumOf_perm {α : Type} (weight : α → Nat) {as bs : List α} (h : as.Perm bs) : sumOf weight as = sumOf weight bs := by
  induction h with
  | nil => rfl
  | cons a _ ih => simp [sumOf, ih]
  | swap a b as =>
    simp only [sumOf]
    omega
  | trans _ _ ihab ihbc => exact ihab.trans ihbc

namespace Cache

/-- What can be done to a cache. -/
inductive Action where
  | insert (uri : String) (e : CacheEntry)
  | get (uri : String)
  | getAt (uri : String) (version : Int)
  | peek (uri : String)
  | remove (uri : String)
  | clear
  | setLimits (maxEntries maxMemory : Nat)
deriving DecidableEq, Repr

def apply (c : Cache) : Action → Cache
  | .insert uri e => (c.insert uri e).2
  | .get uri => (c.get? uri).2
  | .getAt uri version => (c.getAt? uri version).2
  | .peek _ => c
  | .remove uri => (c.remove uri).2
  | .clear => c.clear
  | .setLimits maxEntries maxMemory => (c.setLimits maxEntries maxMemory).2

/-- A new cache after the actions of its past, of which the latest comes first. -/
def ran (maxEntries maxMemory : Nat) : List Action → Cache
  | [] => .new maxEntries maxMemory
  | a :: past => (ran maxEntries maxMemory past).apply a

namespace Action

/-- What an action stores. -/
def stored? : Action → Option (String × CacheEntry)
  | insert uri e => some (uri, e)
  | _ => none

/-- What has been stored, the latest first. -/
def stored (past : List Action) : List (String × CacheEntry) :=
  past.filterMap stored?

/-- The limits that were set last, those of the new cache if none were. -/
def limits (maxEntries maxMemory : Nat) : List Action → Nat × Nat
  | [] => (maxEntries, maxMemory)
  | setLimits maxEntries maxMemory :: _ => (maxEntries, maxMemory)
  | _ :: past => limits maxEntries maxMemory past

/-- An action that may take the pin from a document: it pins another one, or drops this one. -/
def unpins (uri : String) : Action → Bool
  | insert other _ => other != uri
  | remove other => other == uri
  | clear => true
  | _ => false

end Action

/-- The memory that entries take. -/
def weight (entries : List (String × CacheEntry)) : Nat :=
  sumOf (fun e => e.2.footprint) entries

/-- What holds of a cache at any time, within its limits or not. -/
structure Counted (c : Cache) : Prop where
  memory : c.memory = weight c.entries
  distinct : (c.entries.map Prod.fst).Nodup
  pinned : ∀ uri, c.pinned = some uri → ∃ e, c.peek? uri = some e

/-- The cache keeps its limits, or holds nothing but the pinned document. -/
def Within (c : Cache) : Prop :=
  c.entries.length ≤ c.maxEntries ∧ c.memory ≤ c.maxMemory ∨ ∃ uri e, c.pinned = some uri ∧ c.entries = [(uri, e)]

variable {c : Cache} {uri other : String} {e : CacheEntry}

theorem mem_of_peek? (h : c.peek? uri = some e) : (uri, e) ∈ c.entries :=
  Keyed.mem_of_find? h

/-- An entry and the others are all entries. -/
theorem Counted.perm (h : c.Counted) (he : c.peek? uri = some e) : c.entries.Perm ((uri, e) :: c.others uri) :=
  Keyed.perm_erase h.distinct he

theorem Counted.memory_eq (h : c.Counted) (he : c.peek? uri = some e) :
    c.memory = e.footprint + weight (c.others uri) :=
  h.memory.trans (sumOf_perm _ (h.perm he))

theorem Counted.length_eq (h : c.Counted) (he : c.peek? uri = some e) :
    c.entries.length = (c.others uri).length + 1 :=
  (h.perm he).length_eq

theorem distinct_others (h : (c.entries.map Prod.fst).Nodup) (uri : String) :
    ((c.others uri).map Prod.fst).Nodup :=
  h.sublist (List.filter_sublist.map _)

/-- Looking an entry up changes nothing but its place. -/
theorem get?_perm (h : c.Counted) (uri : String) : (c.get? uri).2.entries.Perm c.entries := by
  unfold get?
  split
  · rename_i e he
    exact (h.perm he).symm
  · exact .refl _

theorem peek?_get? (c : Cache) (uri other : String) : (c.get? uri).2.peek? other = c.peek? other := by
  unfold get?
  split
  · rename_i e he
    by_cases hk : uri = other
    · subst hk
      exact (if_pos rfl).trans he.symm
    · have hothers : Keyed.find? other (Keyed.erase uri c.entries) = c.peek? other := by simp [peek?, hk]
      exact (if_neg hk).trans hothers
  · rfl

@[simp] theorem get?_memory (c : Cache) (uri : String) : (c.get? uri).2.memory = c.memory := by
  unfold get?
  split <;> rfl

@[simp] theorem get?_pinned (c : Cache) (uri : String) : (c.get? uri).2.pinned = c.pinned := by
  unfold get?
  split <;> rfl

@[simp] theorem get?_maxEntries (c : Cache) (uri : String) : (c.get? uri).2.maxEntries = c.maxEntries := by
  unfold get?
  split <;> rfl

@[simp] theorem get?_maxMemory (c : Cache) (uri : String) : (c.get? uri).2.maxMemory = c.maxMemory := by
  unfold get?
  split <;> rfl

theorem Counted.get? (h : c.Counted) (uri : String) : (c.get? uri).2.Counted := by
  have hperm := get?_perm h uri
  refine ⟨?_, (hperm.map _).nodup_iff.mpr h.distinct, ?_⟩
  · simp only [get?_memory, h.memory]
    exact (sumOf_perm _ hperm).symm
  · intro pinned hp
    simp only [get?_pinned] at hp
    simp only [peek?_get?]
    exact h.pinned pinned hp

theorem Within.get? (h : c.Within) (hc : c.Counted) (uri : String) : (c.get? uri).2.Within := by
  have hperm := get?_perm hc uri
  rcases h with ⟨hentries, hmemory⟩ | ⟨pinned, e, hp, hone⟩
  · refine .inl ⟨?_, ?_⟩
    · simp [hperm.length_eq, hentries]
    · simp [hmemory]
  · refine .inr ⟨pinned, e, ?_, ?_⟩
    · simp [hp]
    · exact List.perm_singleton.mp (hone ▸ hperm)

@[simp] theorem drop_pinned (c : Cache) (uri : String) : (c.drop uri).pinned = c.pinned := by
  unfold drop
  split <;> rfl

@[simp] theorem drop_maxEntries (c : Cache) (uri : String) : (c.drop uri).maxEntries = c.maxEntries := by
  unfold drop
  split <;> rfl

@[simp] theorem drop_maxMemory (c : Cache) (uri : String) : (c.drop uri).maxMemory = c.maxMemory := by
  unfold drop
  split <;> rfl

@[simp] theorem drop_entries (c : Cache) (uri : String) : (c.drop uri).entries = c.others uri := by
  unfold drop
  split
  · rfl
  · rename_i hnone
    exact (Keyed.erase_of_find?_none hnone).symm

theorem Counted.drop_memory (h : c.Counted) (uri : String) : (c.drop uri).memory = weight (c.others uri) := by
  unfold drop
  split
  · rename_i e he
    have hsum := h.memory_eq he
    show c.memory - e.footprint = _
    omega
  · rename_i hnone
    have hothers : c.others uri = c.entries := Keyed.erase_of_find?_none hnone
    rw [h.memory, hothers]

theorem peek?_drop (hne : uri ≠ other) (c : Cache) : (c.drop uri).peek? other = c.peek? other := by
  simp [peek?, others, hne]

/-- Another document than the pinned one can be dropped. -/
theorem Counted.drop (h : c.Counted) (hp : c.pinned ≠ some uri) : (c.drop uri).Counted := by
  refine ⟨?_, ?_, ?_⟩
  · rw [h.drop_memory, drop_entries]
  · rw [drop_entries]
    exact distinct_others h.distinct uri
  · intro pinned hpinned
    rw [drop_pinned] at hpinned
    have hne : uri ≠ pinned := fun heq => hp (heq ▸ hpinned)
    rw [peek?_drop hne]
    exact h.pinned pinned hpinned

/-- The rounds of eviction: while the cache is over its limits the document that goes first is dropped, and the memory
that this gives back has been counted. It ends within the limits, or when nothing is left that may go. -/
inductive Evicts : Cache → List String → Cache → Prop
  | done {c : Cache} (ho : c.isOver = false) : Evicts c [] c
  | stuck {c : Cache} (ho : c.isOver = true) (hv : c.victim? = none) : Evicts c [] c
  | next {c d : Cache} {uri : String} {uris : List String} {e : CacheEntry} (ho : c.isOver = true)
    (hv : c.victim? = some uri) (he : c.peek? uri = some e) (hm : e.footprint ≤ c.memory)
    (hd : Evicts (c.drop uri) uris d) : Evicts c (uri :: uris) d

theorem victim?_eq_some (h : c.victim? = some uri) : c.pinned ≠ some uri ∧ ∃ e, c.peek? uri = some e := by
  obtain ⟨⟨name, e⟩, hfound, rfl⟩ := Option.map_eq_some_iff.mp h
  refine ⟨?_, ?_⟩
  · simpa using List.find?_some hfound
  · exact Keyed.exists_find? (List.mem_reverse.mp (List.mem_of_find?_eq_some hfound))

theorem victim?_eq_none (h : c.victim? = none) : ∀ x ∈ c.entries, c.pinned = some x.1 := by
  intro x hx
  have hnone := List.find?_eq_none.mp (Option.map_eq_none_iff.mp h) x (List.mem_reverse.mpr hx)
  simpa using hnone

theorem isOver_eq_false : c.isOver = false ↔ c.entries.length ≤ c.maxEntries ∧ c.memory ≤ c.maxMemory := by
  simp [isOver]

/-- An empty cache keeps all limits. -/
theorem Counted.not_over (h : c.Counted) (he : c.entries = []) : c.isOver = false := by
  refine isOver_eq_false.mpr ⟨?_, ?_⟩
  · simp [he]
  · simp [h.memory, he, weight, sumOf]

/-- Each round drops an entry, so that so many rounds as there are entries suffice. -/
theorem Counted.evictUpTo_evicts {budget : Nat} (h : c.Counted) (hb : c.entries.length ≤ budget) :
    Evicts c (evictUpTo budget c).1 (evictUpTo budget c).2 := by
  induction budget generalizing c with
  | zero => exact .done (h.not_over (List.eq_nil_of_length_eq_zero (Nat.le_zero.mp hb)))
  | succ budget ih =>
    rw [evictUpTo]
    split
    · rename_i ho
      split
      · rename_i hv
        exact .stuck ho hv
      · rename_i uri hv
        obtain ⟨hp, e, he⟩ := victim?_eq_some hv
        have hlength := h.length_eq he
        have hmemory := h.memory_eq he
        refine .next ho hv he (by omega) (ih (h.drop hp) ?_)
        rw [drop_entries]
        omega
    · rename_i ho
      exact .done (Bool.eq_false_iff.mpr ho)

theorem Counted.evicts (h : c.Counted) : Evicts c c.evict.1 c.evict.2 :=
  h.evictUpTo_evicts (Nat.le_refl _)

namespace Evicts

variable {d : Cache} {uris : List String}

theorem counted (h : Evicts c uris d) (hc : c.Counted) : d.Counted := by
  induction h with
  | done => exact hc
  | stuck => exact hc
  | next _ hv _ _ _ ih => exact ih (hc.drop (victim?_eq_some hv).1)

/-- Eviction leaves alone all but the entries and the count. -/
theorem same (h : Evicts c uris d) :
    d.pinned = c.pinned ∧ d.maxEntries = c.maxEntries ∧ d.maxMemory = c.maxMemory := by
  induction h with
  | done => exact ⟨rfl, rfl, rfl⟩
  | stuck => exact ⟨rfl, rfl, rfl⟩
  | next _ _ _ _ _ ih =>
    simp only [drop_pinned, drop_maxEntries, drop_maxMemory] at ih
    exact ih

theorem sublist (h : Evicts c uris d) : d.entries.Sublist c.entries := by
  induction h with
  | done => exact .refl _
  | stuck => exact .refl _
  | next _ _ _ _ _ ih =>
    rw [drop_entries] at ih
    exact ih.trans List.filter_sublist

/-- The pinned document stays as it is. -/
theorem peek?_pinned (h : Evicts c uris d) (hp : c.pinned = some uri) : d.peek? uri = c.peek? uri := by
  induction h with
  | done => rfl
  | stuck => rfl
  | next _ hv _ _ _ ih =>
    have hne := (victim?_eq_some hv).1
    rw [hp, ne_eq, Option.some.injEq] at hne
    rw [ih (by rw [drop_pinned, hp]), peek?_drop (Ne.symm hne)]

/-- When nothing is left that may go, nothing is left but the pinned document. -/
theorem within (h : Evicts c uris d) (hc : c.Counted) : d.Within := by
  induction h with
  | done ho => exact .inl (isOver_eq_false.mp ho)
  | next _ hv _ _ _ ih => exact ih (hc.drop (victim?_eq_some hv).1)
  | @stuck c ho hv =>
    have hall := victim?_eq_none hv
    cases hentries : c.entries with
    | nil =>
      rw [hc.not_over hentries] at ho
      cases ho
    | cons x rest =>
      rw [hentries] at hall
      refine .inr ⟨x.1, x.2, hall x List.mem_cons_self, ?_⟩
      cases rest with
      | nil => exact hentries
      | cons y rest =>
        have hsame : some x.1 = some y.1 :=
          (hall x List.mem_cons_self).symm.trans (hall y (List.mem_cons_of_mem _ List.mem_cons_self))
        have hdistinct := hc.distinct
        rw [hentries] at hdistinct
        have hne := (List.nodup_cons.mp hdistinct).1
        rw [Option.some.inj hsame] at hne
        exact absurd List.mem_cons_self hne

end Evicts

/-- The cache with an entry stored and pinned, before eviction. -/
def withEntry (c : Cache) (uri : String) (e : CacheEntry) : Cache :=
  { c.drop uri with
    entries := (uri, e) :: (c.drop uri).entries
    memory := (c.drop uri).memory + e.footprint
    pinned := some uri }

/-- The cache with other limits, before eviction. -/
def withLimits (c : Cache) (maxEntries maxMemory : Nat) : Cache :=
  { c with maxEntries := max maxEntries 1, maxMemory := maxMemory }

theorem withEntry_entries (c : Cache) (uri : String) (e : CacheEntry) :
    (c.withEntry uri e).entries = (uri, e) :: c.others uri := by
  simp [withEntry]

theorem Counted.withEntry (h : c.Counted) (uri : String) (e : CacheEntry) : (c.withEntry uri e).Counted := by
  refine ⟨?_, ?_, ?_⟩
  · have hmemory := h.drop_memory uri
    rw [withEntry_entries]
    simp only [Cache.withEntry, weight, sumOf] at hmemory ⊢
    omega
  · rw [withEntry_entries]
    refine List.nodup_cons.mpr ⟨?_, distinct_others h.distinct uri⟩
    intro hmem
    obtain ⟨x, hx, hkey⟩ := List.mem_map.mp hmem
    exact (Keyed.mem_erase.mp hx).2 hkey
  · intro pinned hp
    cases hp
    exact ⟨e, if_pos rfl⟩

theorem Counted.withLimits (h : c.Counted) (maxEntries maxMemory : Nat) : (c.withLimits maxEntries maxMemory).Counted :=
  ⟨h.memory, h.distinct, h.pinned⟩

theorem Counted.insert_evicts (h : c.Counted) (uri : String) (e : CacheEntry) :
    Evicts (c.withEntry uri e) (c.insert uri e).1 (c.insert uri e).2 :=
  (h.withEntry uri e).evicts

theorem Counted.setLimits_evicts (h : c.Counted) (maxEntries maxMemory : Nat) :
    Evicts (c.withLimits maxEntries maxMemory) (c.setLimits maxEntries maxMemory).1 (c.setLimits maxEntries maxMemory).2 :=
  (h.withLimits maxEntries maxMemory).evicts

/-- A removal takes the pin from the document. -/
theorem remove_eq (c : Cache) (uri : String) :
    (c.remove uri).2 =
      { c.drop uri with pinned := if c.contains uri && c.pinned == some uri then none else c.pinned } := by
  unfold remove contains
  cases he : c.peek? uri with
  | none => simp [drop, he]
  | some e => simp

theorem remove_entries (c : Cache) (uri : String) : (c.remove uri).2.entries = c.others uri := by
  rw [remove_eq, ← drop_entries]

theorem Counted.remove (h : c.Counted) (uri : String) : (c.remove uri).2.Counted := by
  refine ⟨?_, ?_, ?_⟩
  · have hmemory := h.drop_memory uri
    rw [remove_entries, remove_eq]
    exact hmemory
  · rw [remove_entries]
    exact distinct_others h.distinct uri
  · intro pinned hp
    rw [remove_eq] at hp ⊢
    dsimp only at hp
    split at hp
    · cases hp
    · rename_i hkept
      obtain ⟨e, he⟩ := h.pinned pinned hp
      have hne : uri ≠ pinned := by
        rintro rfl
        exact hkept (by simp [contains, he, hp])
      exact ⟨e, (peek?_drop hne c).trans he⟩

theorem Counted.weight_others_le (h : c.Counted) (uri : String) : weight (c.others uri) ≤ c.memory := by
  have hmemory := h.drop_memory uri
  rw [← hmemory]
  unfold Cache.drop
  split
  · exact Nat.sub_le ..
  · exact Nat.le_refl _

/-- Without a document the cache keeps its limits all the more; without the pinned one it may be empty. -/
theorem Within.remove (h : c.Within) (hc : c.Counted) (uri : String) : (c.remove uri).2.Within := by
  have hmemory := hc.drop_memory uri
  have hweight := hc.weight_others_le uri
  rcases h with ⟨hlength, hlimit⟩ | ⟨pinned, e, hp, hone⟩
  · refine .inl ⟨?_, ?_⟩
    · have hfewer := (List.filter_sublist (l := c.entries) (p := fun e => e.1 ≠ uri)).length_le
      rw [remove_entries, remove_eq]
      simp only [drop_maxEntries]
      exact Nat.le_trans hfewer hlength
    · rw [remove_eq]
      simp only [drop_maxMemory, hmemory]
      exact Nat.le_trans hweight hlimit
  · by_cases hk : pinned = uri
    · have hempty : c.others uri = [] := by simp [others, Keyed.erase, hone, hk]
      refine .inl (isOver_eq_false.mp ((hc.remove uri).not_over ?_))
      rw [remove_entries, hempty]
    · have hsame : c.others uri = [(pinned, e)] := by simp [others, Keyed.erase, hone, hk]
      refine .inr ⟨pinned, e, ?_, ?_⟩
      · rw [remove_eq]
        simp [hp, hk]
      · rw [remove_entries, hsame]

variable {maxEntries maxMemory : Nat} {past : List Action}

theorem Counted.apply (h : c.Counted) (a : Action) : (c.apply a).Counted := by
  cases a with
  | insert uri e => exact (h.insert_evicts uri e).counted (h.withEntry uri e)
  | get uri => exact h.get? uri
  | getAt uri version => exact h.get? uri
  | peek uri => exact h
  | remove uri => exact h.remove uri
  | clear => exact ⟨rfl, .nil, nofun⟩
  | setLimits maxEntries maxMemory =>
    exact (h.setLimits_evicts maxEntries maxMemory).counted (h.withLimits maxEntries maxMemory)

theorem Within.apply (h : c.Within) (hc : c.Counted) (a : Action) : (c.apply a).Within := by
  cases a with
  | insert uri e => exact (hc.insert_evicts uri e).within (hc.withEntry uri e)
  | get uri => exact h.get? hc uri
  | getAt uri version => exact h.get? hc uri
  | peek uri => exact h
  | remove uri => exact h.remove hc uri
  | clear => exact .inl ⟨Nat.zero_le _, Nat.zero_le _⟩
  | setLimits maxEntries maxMemory =>
    exact (hc.setLimits_evicts maxEntries maxMemory).within (hc.withLimits maxEntries maxMemory)

theorem ran_counted (maxEntries maxMemory : Nat) (past : List Action) : (ran maxEntries maxMemory past).Counted := by
  induction past with
  | nil => exact ⟨rfl, .nil, nofun⟩
  | cons a past ih => exact ih.apply a

theorem ran_within (maxEntries maxMemory : Nat) (past : List Action) : (ran maxEntries maxMemory past).Within := by
  induction past with
  | nil => exact .inl ⟨Nat.zero_le _, Nat.zero_le _⟩
  | cons a past ih => exact ih.apply (ran_counted maxEntries maxMemory past) a

/-- The limits of a cache are those set last; it has room for one document at least. -/
theorem ran_limits (maxEntries maxMemory : Nat) (past : List Action) :
    (ran maxEntries maxMemory past).maxEntries = max (Action.limits maxEntries maxMemory past).1 1 ∧
      (ran maxEntries maxMemory past).maxMemory = (Action.limits maxEntries maxMemory past).2 := by
  induction past with
  | nil => exact ⟨rfl, rfl⟩
  | cons a past ih =>
    have hcounted := ran_counted maxEntries maxMemory past
    cases a with
    | insert uri e =>
      have hsame := (hcounted.insert_evicts uri e).same
      simpa [ran, Cache.apply, Action.limits, Cache.withEntry, hsame.2.1, hsame.2.2] using ih
    | get uri => simpa [ran, Cache.apply, Action.limits] using ih
    | getAt uri version => simpa [ran, Cache.apply, Action.limits, getAt?] using ih
    | peek uri => exact ih
    | remove uri => simpa [ran, Cache.apply, Action.limits, remove_eq] using ih
    | clear => exact ih
    | setLimits n m =>
      have hsame := (hcounted.setLimits_evicts n m).same
      exact ⟨hsame.2.1, hsame.2.2⟩

/-- What an entry of the cache is after an action: the one that was just stored, or one from before. -/
theorem Counted.entries_apply (h : c.Counted) {a : Action} (hx : (uri, e) ∈ (c.apply a).entries) :
    a = .insert uri e ∨ (uri, e) ∈ c.entries ∧ ∀ x, a ≠ .insert uri x := by
  cases a with
  | insert other x =>
    have hstored := (h.insert_evicts other x).sublist.subset hx
    rw [withEntry_entries] at hstored
    rcases List.mem_cons.mp hstored with heq | hother
    · cases heq
      exact .inl rfl
    · obtain ⟨hmem, hne⟩ := Keyed.mem_erase.mp hother
      refine .inr ⟨hmem, ?_⟩
      rintro y heq
      cases heq
      exact hne rfl
  | get other => exact .inr ⟨(get?_perm h other).mem_iff.mp hx, nofun⟩
  | getAt other version => exact .inr ⟨(get?_perm h other).mem_iff.mp hx, nofun⟩
  | peek other => exact .inr ⟨hx, nofun⟩
  | remove other =>
    have hothers : (uri, e) ∈ c.others other := remove_entries c other ▸ hx
    exact .inr ⟨(Keyed.mem_erase.mp hothers).1, nofun⟩
  | clear => cases hx
  | setLimits n m => exact .inr ⟨(h.setLimits_evicts n m).sublist.subset hx, nofun⟩

/-- Each entry is the one that was stored last for its document. -/
theorem ran_latest (h : (uri, e) ∈ (ran maxEntries maxMemory past).entries) :
    Keyed.find? uri (Action.stored past) = some e := by
  induction past with
  | nil => cases h
  | cons a past ih =>
    rcases (ran_counted maxEntries maxMemory past).entries_apply h with rfl | ⟨hx, hne⟩
    · exact if_pos rfl
    · have hbefore := ih hx
      cases a with
      | insert other x =>
        have hother : other ≠ uri := fun heq => hne x (heq ▸ rfl)
        exact (if_neg hother).trans hbefore
      | _ => exact hbefore

/-- An action keeps the pin where it is, puts it on what it stores, or takes it off. -/
theorem Counted.pinned_apply (h : c.Counted) (a : Action) (hp : (c.apply a).pinned = some uri) :
    (∃ e, a = .insert uri e) ∨ c.pinned = some uri ∧ a.stored? = none := by
  cases a with
  | insert other e =>
    rw [Cache.apply, (h.insert_evicts other e).same.1] at hp
    cases hp
    exact .inl ⟨e, rfl⟩
  | get other => exact .inr ⟨get?_pinned c other ▸ hp, rfl⟩
  | getAt other version => exact .inr ⟨get?_pinned c other ▸ hp, rfl⟩
  | peek other => exact .inr ⟨hp, rfl⟩
  | remove other =>
    rw [Cache.apply, remove_eq] at hp
    dsimp only at hp
    split at hp
    · cases hp
    · exact .inr ⟨hp, rfl⟩
  | clear => cases hp
  | setLimits n m =>
    rw [Cache.apply, (h.setLimits_evicts n m).same.1] at hp
    exact .inr ⟨hp, rfl⟩

/-- The pinned document is the one that was stored last. -/
theorem ran_pinned (h : (ran maxEntries maxMemory past).pinned = some uri) :
    (Action.stored past).head?.map Prod.fst = some uri := by
  induction past with
  | nil => cases h
  | cons a past ih =>
    rcases (ran_counted maxEntries maxMemory past).pinned_apply a h with ⟨e, rfl⟩ | ⟨hp, hnone⟩
    · rfl
    · have hstored : Action.stored (a :: past) = Action.stored past := List.filterMap_cons_none hnone
      rw [hstored]
      exact ih hp

/-- A document stays pinned until another one is stored, or it is removed. -/
theorem Counted.pin_kept (h : c.Counted) (hp : c.pinned = some uri) {a : Action} (ha : a.unpins uri = false) :
    (c.apply a).pinned = some uri := by
  cases a with
  | insert other e =>
    have heq : other = uri := by simpa [Action.unpins] using ha
    rw [Cache.apply, (h.insert_evicts other e).same.1]
    exact congrArg some heq
  | get other => exact (get?_pinned c other).trans hp
  | getAt other version => exact (get?_pinned c other).trans hp
  | peek other => exact hp
  | remove other =>
    have hne : other ≠ uri := by simpa [Action.unpins] using ha
    rw [Cache.apply, remove_eq, hp]
    simp [Ne.symm hne]
  | clear => cases ha
  | setLimits n m => exact (h.setLimits_evicts n m).same.1.trans hp

/-- The entry of the pinned document stays as it is, unless another one is stored for it. -/
theorem Counted.entry_kept (h : c.Counted) (hp : c.pinned = some uri) {a : Action} (ha : a.unpins uri = false)
    (hs : a.stored? = none) : (c.apply a).peek? uri = c.peek? uri := by
  cases a with
  | insert other e => cases hs
  | get other => exact peek?_get? c other uri
  | getAt other version => exact peek?_get? c other uri
  | peek other => rfl
  | remove other =>
    have hne : other ≠ uri := by simpa [Action.unpins] using ha
    rw [Cache.apply, remove_eq]
    exact peek?_drop hne c
  | clear => cases ha
  | setLimits n m => exact (h.setLimits_evicts n m).peek?_pinned hp

/-- Whatever has been done to a cache: its count of memory is the sum over its entries, so that no entry takes more than
is counted; each document has one entry at most, the one that was stored last; the pinned document is cached, and the one
that was stored last of all. The cache keeps the limits that were set last, with room for one document at least, or holds
just the pinned document. A document stays pinned, and cached as it is, until another one is stored, it is removed, or
all is cleared; only what is stored for it takes the place of its entry. Eviction ends, whatever is stored and whichever
limits are set. -/
theorem ran_sound (maxEntries maxMemory : Nat) (past : List Action) :
    let c := ran maxEntries maxMemory past
    let limits := Action.limits maxEntries maxMemory past
    c.memory = sumOf (fun e => e.2.footprint) c.entries ∧
    (∀ uri e, (uri, e) ∈ c.entries → e.footprint ≤ c.memory) ∧
    (c.entries.map Prod.fst).Nodup ∧
    (∀ uri e, (uri, e) ∈ c.entries → Keyed.find? uri (Action.stored past) = some e) ∧
    (∀ uri, c.pinned = some uri → c.contains uri = true ∧ (Action.stored past).head?.map Prod.fst = some uri) ∧
    (c.entries.length ≤ max 1 limits.1 ∧ c.memory ≤ limits.2 ∨ ∃ uri e, c.pinned = some uri ∧ c.entries = [(uri, e)]) ∧
    (∀ uri a, c.pinned = some uri → a.unpins uri = false →
      (c.apply a).contains uri = true ∧ (c.apply a).pinned = some uri ∧
        (a.stored? = none → (c.apply a).peek? uri = c.peek? uri)) ∧
    (∀ uri e, Evicts (c.withEntry uri e) (c.insert uri e).1 (c.insert uri e).2) ∧
    ∀ n m, Evicts (c.withLimits n m) (c.setLimits n m).1 (c.setLimits n m).2 := by
  have hcounted := ran_counted maxEntries maxMemory past
  have hcached : ∀ c : Cache, c.Counted → ∀ uri, c.pinned = some uri → c.contains uri = true := by
    intro c hc uri hp
    obtain ⟨e, he⟩ := hc.pinned uri hp
    simp [contains, he]
  obtain ⟨hentries, hmemory⟩ := ran_limits maxEntries maxMemory past
  refine ⟨hcounted.memory, ?_, hcounted.distinct, ?_, ?_, ?_, ?_, hcounted.insert_evicts, hcounted.setLimits_evicts⟩
  · intro uri e hx
    obtain ⟨found, hfound⟩ := Keyed.exists_find? hx
    have hsame : found = e := Option.some.inj ((ran_latest (mem_of_peek? hfound)).symm.trans (ran_latest hx))
    have hsum := hcounted.memory_eq hfound
    rw [hsame] at hsum
    omega
  · intro uri e hx
    exact ran_latest hx
  · intro uri hp
    exact ⟨hcached _ hcounted uri hp, ran_pinned hp⟩
  · rw [Nat.max_comm, ← hentries, ← hmemory]
    exact ran_within maxEntries maxMemory past
  · intro uri a hp ha
    have hpin := hcounted.pin_kept hp ha
    exact ⟨hcached _ (hcounted.apply a) uri hpin, hpin, hcounted.entry_kept hp ha⟩

/-- For instance three documents where two have room: the one left alone longest has gone. -/
theorem ran_sound_evicting :
    let e : CacheEntry := ⟨1, "", default⟩
    let c := ran 2 1000 [.insert "c" e, .get "a", .insert "b" e, .insert "a" e]
    c.entries.map Prod.fst = ["c", "a"] ∧ c.memory = sumOf (fun e => e.2.footprint) c.entries := by
  refine ⟨by decide, ?_⟩
  exact (ran_sound 2 1000 _).1

end Cache

end Calculation
