import Calculation.Proofs.Workspace.Cache

/-!
Which documents go from the cache, and in which order. The order in which documents were used last is told by the past
alone; eviction takes those that were left alone longest, one after the other, around the pinned document, and no more of
them than it has to.
-/
namespace Calculation.Cache

/-- The document that an action uses. To look for a document that is not cached uses none. -/
def Action.used? (c : Cache) : Action → Option String
  | insert uri _ => some uri
  | get uri | getAt uri _ => if c.contains uri then some uri else none
  | _ => none

/-- The documents that were used in the past of a new cache, the latest use first. -/
def uses (maxEntries maxMemory : Nat) : List Action → List String
  | [] => []
  | a :: past => (a.used? (ran maxEntries maxMemory past)).toList ++ uses maxEntries maxMemory past

/-- The documents that an action drops to keep the limits, in the order in which it names them. -/
def Action.evicted (c : Cache) : Action → List String
  | insert uri e => (c.insert uri e).1
  | setLimits maxEntries maxMemory => (c.setLimits maxEntries maxMemory).1
  | _ => []

/-- Entries that keep the limits. -/
def Fits (maxEntries maxMemory : Nat) (entries : List (String × CacheEntry)) : Prop :=
  entries.length ≤ maxEntries ∧ weight entries ≤ maxMemory

def without (uris : List String) (entries : List (String × CacheEntry)) : List (String × CacheEntry) :=
  entries.filter fun e => !uris.contains e.1

/-- The entries that may go, by the names of their documents: all but the pinned one, the one that was used last comes
last. -/
def mayGo (uses : List String) (pinned : Option String) (entries : List (String × CacheEntry)) : List String :=
  ((Keyed.distinct uses).filter fun uri => pinned != some uri && (Keyed.find? uri entries).isSome).reverse

/-- The first of the entries that may go have gone and the others stay as they are; no fewer would do. When even without
all of them the limits are not kept, all have gone. -/
structure ShortestPrefix (uses : List String) (maxEntries maxMemory : Nat) (pinned : Option String)
    (entries : List (String × CacheEntry)) (uris : List String) (kept : List (String × CacheEntry)) : Prop where
  gone : uris <+: mayGo uses pinned entries
  rest : kept = without uris entries
  enough : Fits maxEntries maxMemory kept ∨ uris = mayGo uses pinned entries
  needed : ∀ fewer, fewer <+: mayGo uses pinned entries → fewer.length < uris.length →
    ¬Fits maxEntries maxMemory (without fewer entries)

variable {c d : Cache} {uri : String} {uris us : List String} {maxEntries maxMemory : Nat} {past : List Action}

/-- The documents of the cache stand in the order in which they were used. -/
def InUseOrder (us : List String) (c : Cache) : Prop :=
  c.entries.map Prod.fst = (Keyed.distinct us).filter c.contains

theorem contains_iff : c.contains uri = true ↔ uri ∈ c.entries.map Prod.fst := by
  constructor
  · intro h
    obtain ⟨e, he⟩ := Option.isSome_iff_exists.mp h
    exact List.mem_map.mpr ⟨_, mem_of_peek? he, rfl⟩
  · intro h
    obtain ⟨⟨name, e⟩, he, rfl⟩ := List.mem_map.mp h
    obtain ⟨found, hfound⟩ := Keyed.exists_find? he
    exact Option.isSome_iff_exists.mpr ⟨found, hfound⟩

theorem keys_erase (uri : String) (entries : List (String × CacheEntry)) :
    (Keyed.erase uri entries).map Prod.fst = (entries.map Prod.fst).filter (· ≠ uri) := by
  rw [Keyed.erase, List.filter_map]
  rfl

/-- Fewer documents stand in the same order. -/
theorem InUseOrder.fewer (h : InUseOrder us c) {p : String → Bool}
    (hd : d.entries.map Prod.fst = (c.entries.map Prod.fst).filter p) : InUseOrder us d := by
  have hcontains : ∀ x, d.contains x = (p x && c.contains x) := by
    intro x
    apply Bool.eq_iff_iff.mpr
    simp only [contains_iff, hd, List.mem_filter, Bool.and_eq_true, and_comm]
  rw [InUseOrder, hd, h, List.filter_filter]
  exact List.filter_congr fun x _ => (hcontains x).symm

/-- The document that is used comes to the front, be it cached before or not. -/
theorem InUseOrder.use (h : InUseOrder us c)
    (hd : d.entries.map Prod.fst = uri :: (c.entries.map Prod.fst).filter (· ≠ uri)) : InUseOrder (uri :: us) d := by
  have hcontains : ∀ x, d.contains x = (x == uri || c.contains x) := by
    intro x
    apply Bool.eq_iff_iff.mpr
    simp only [contains_iff, hd, List.mem_cons, List.mem_filter, Bool.or_eq_true, beq_iff_eq, ne_eq, decide_not,
      Bool.not_eq_true', decide_eq_false_iff_not]
    by_cases hx : x = uri <;> simp [hx]
  have hfirst : d.contains uri = true := by simp [hcontains]
  rw [InUseOrder, hd, h, Keyed.distinct, List.filter_cons, if_pos hfirst, List.filter_filter, List.filter_filter]
  refine congrArg _ (List.filter_congr fun x _ => ?_)
  by_cases hx : x = uri <;> simp [hcontains, hx]

theorem InUseOrder.get? (h : InUseOrder us c) (uri : String) :
    InUseOrder ((if c.contains uri then some uri else none).toList ++ us) (c.get? uri).2 := by
  cases he : c.peek? uri with
  | none =>
    have hmiss : c.contains uri = false := by simp [contains, he]
    simpa [hmiss, Cache.get?, he] using h
  | some e =>
    have hhit : c.contains uri = true := by simp [contains, he]
    rw [hhit]
    apply h.use
    simp [Cache.get?, he, others, keys_erase]

theorem InUseOrder.withEntry (h : InUseOrder us c) (uri : String) (e : CacheEntry) :
    InUseOrder (uri :: us) (c.withEntry uri e) := by
  apply h.use
  simp [withEntry_entries, others, keys_erase]

/-- In the order of use, what may go is all but the pinned document, from behind. -/
theorem InUseOrder.mayGo_eq (h : InUseOrder us c) (pinned : Option String) :
    mayGo us pinned c.entries = ((c.entries.map Prod.fst).filter fun uri => pinned != some uri).reverse := by
  rw [mayGo, h, List.filter_filter]
  rfl

theorem without_nil (entries : List (String × CacheEntry)) : without [] entries = entries := by
  simp [without]

theorem without_cons (uri : String) (uris : List String) (entries : List (String × CacheEntry)) :
    without (uri :: uris) entries = without uris (Keyed.erase uri entries) := by
  rw [without, without, Keyed.erase, List.filter_filter]
  refine List.filter_congr fun e _ => ?_
  by_cases he : e.1 = uri <;> simp [he]

theorem keys_without (uris : List String) (entries : List (String × CacheEntry)) :
    (without uris entries).map Prod.fst = (entries.map Prod.fst).filter fun uri => !uris.contains uri := by
  rw [without, List.filter_map]
  rfl

theorem Counted.fits_iff (h : c.Counted) : Fits c.maxEntries c.maxMemory c.entries ↔ c.isOver = false := by
  rw [isOver_eq_false, Fits, h.memory]

/-- The names of what may go, from behind. -/
theorem victim?_eq (c : Cache) :
    c.victim? = ((c.entries.map Prod.fst).filter fun uri => c.pinned != some uri).reverse.head? := by
  rw [victim?, ← List.filter_reverse, ← List.map_reverse, List.filter_map, List.head?_map, List.head?_filter]
  rfl

/-- The document that goes first is the first of those that may go, and behind it come the others. -/
theorem InUseOrder.mayGo_victim (h : InUseOrder us c) (hc : c.Counted) (hv : c.victim? = some uri) :
    mayGo us c.pinned c.entries = uri :: mayGo us (c.drop uri).pinned (c.drop uri).entries := by
  have hdrop : InUseOrder us (c.drop uri) := h.fewer (by rw [drop_entries, others, keys_erase])
  rw [victim?_eq] at hv
  obtain ⟨rest, hrest⟩ := List.head?_eq_some_iff.mp hv
  have hnodup : (uri :: rest).Nodup := hrest ▸ (List.reverse_perm _).nodup_iff.mpr (hc.distinct.filter _)
  have htail : rest = (uri :: rest).filter (· ≠ uri) := by
    rw [List.filter_cons, if_neg (by simp)]
    refine (List.filter_eq_self.mpr fun x hx => ?_).symm
    simp only [ne_eq, decide_not, Bool.not_eq_true', decide_eq_false_iff_not]
    rintro rfl
    exact (List.nodup_cons.mp hnodup).1 hx
  rw [h.mayGo_eq, hdrop.mayGo_eq, hrest, drop_pinned, drop_entries, others, keys_erase]
  refine congrArg _ ?_
  rw [htail, ← hrest, List.filter_reverse, List.filter_filter, List.filter_filter]
  simp only [Bool.and_comm]

/-- Nothing may go when no document is found that goes first. -/
theorem InUseOrder.mayGo_nil (h : InUseOrder us c) (hv : c.victim? = none) : mayGo us c.pinned c.entries = [] := by
  rw [h.mayGo_eq]
  rw [victim?_eq] at hv
  exact List.head?_eq_none_iff.mp hv

/-- Eviction takes the shortest prefix: each round takes the first of what may go, and the next round finds the rest. -/
theorem Evicts.shortestPrefix (h : Evicts c uris d) (hc : c.Counted) (ho : InUseOrder us c) :
    ShortestPrefix us c.maxEntries c.maxMemory c.pinned c.entries uris d.entries := by
  induction h with
  | done hfits =>
    refine ⟨List.nil_prefix, (without_nil _).symm, .inl (hc.fits_iff.mpr hfits), ?_⟩
    intro fewer _ hlt
    simp at hlt
  | stuck hover hv =>
    refine ⟨List.nil_prefix, (without_nil _).symm, .inr (ho.mayGo_nil hv).symm, ?_⟩
    intro fewer _ hlt
    simp at hlt
  | @next c d uri uris e hover hv he hm hd ih =>
    have hcons := ho.mayGo_victim hc hv
    have hrest := ih (hc.drop (victim?_eq_some hv).1) (ho.fewer (by rw [drop_entries, others, keys_erase]))
    rw [drop_maxEntries, drop_maxMemory] at hrest
    have hwithout : ∀ names, without (uri :: names) c.entries = without names (c.drop uri).entries := by
      intro names
      rw [without_cons, drop_entries, others]
    refine ⟨?_, ?_, ?_, ?_⟩
    · rw [hcons]
      exact List.prefix_cons_inj uri |>.mpr hrest.gone
    · rw [hwithout]
      exact hrest.rest
    · rw [hcons, List.cons.injEq]
      exact hrest.enough.imp id fun hall => ⟨rfl, hall⟩
    · intro fewer hfewer hlt
      rw [hcons] at hfewer
      cases fewer with
      | nil =>
        rw [without_nil, hc.fits_iff, hover]
        simp
      | cons x fewer =>
        obtain ⟨rfl, hprefix⟩ := List.cons_prefix_cons.mp hfewer
        rw [hwithout]
        exact hrest.needed fewer hprefix (Nat.lt_of_succ_lt_succ hlt)

/-- An action keeps the order of use. -/
theorem InUseOrder.apply (h : InUseOrder us c) (hc : c.Counted) (a : Action) :
    InUseOrder ((a.used? c).toList ++ us) (c.apply a) := by
  cases a with
  | insert uri e =>
    have horder := h.withEntry uri e
    have hkept := ((hc.insert_evicts uri e).shortestPrefix (hc.withEntry uri e) horder).rest
    apply horder.fewer
    rw [Cache.apply, hkept, keys_without]
  | get uri => exact h.get? uri
  | getAt uri version => exact h.get? uri
  | peek uri => exact h
  | remove uri =>
    apply h.fewer
    rw [Cache.apply, remove_entries, others, keys_erase]
  | clear =>
    apply h.fewer (p := fun _ => false)
    simp [Cache.apply, clear]
  | setLimits n m =>
    have hkept := ((hc.setLimits_evicts n m).shortestPrefix (hc.withLimits n m) h).rest
    apply h.fewer
    rw [Cache.apply, hkept, keys_without]
    rfl

theorem ran_inUseOrder (maxEntries maxMemory : Nat) (past : List Action) :
    InUseOrder (uses maxEntries maxMemory past) (ran maxEntries maxMemory past) := by
  induction past with
  | nil => rfl
  | cons a past ih => exact ih.apply (ran_counted maxEntries maxMemory past) a

theorem ran_peek (maxEntries maxMemory : Nat) (later past : List Action) (uri : String) :
    ran maxEntries maxMemory (later ++ .peek uri :: past) = ran maxEntries maxMemory (later ++ past) := by
  induction later with
  | nil => rfl
  | cons a later ih => rw [List.cons_append, ran, ih, List.cons_append, ran]

/-- Whatever has been done to a cache: its documents stand in the order in which they were used last, by a look-up that
found them or by being stored. What is stored is in use itself and pinned. To store a document, or to set other limits,
drops the shortest prefix of the documents that may go, from the one that was left alone longest, so that the limits are
kept, or all of them, and names them in this order; all else stays as it is, in the same order. To peek at a document
changes nothing of what is dropped later. -/
theorem evicts_shortest_prefix (maxEntries maxMemory : Nat) (past : List Action) :
    let c := ran maxEntries maxMemory past
    c.entries.map Prod.fst = (Keyed.distinct (uses maxEntries maxMemory past)).filter c.contains ∧
    (∀ uri e, ShortestPrefix (uses maxEntries maxMemory (.insert uri e :: past)) c.maxEntries c.maxMemory (some uri)
      ((uri, e) :: c.others uri) (c.insert uri e).1 (c.insert uri e).2.entries) ∧
    (∀ n m, ShortestPrefix (uses maxEntries maxMemory past) (max n 1) m c.pinned c.entries (c.setLimits n m).1
      (c.setLimits n m).2.entries) ∧
    ∀ uri later a, Action.evicted (ran maxEntries maxMemory (later ++ .peek uri :: past)) a =
      Action.evicted (ran maxEntries maxMemory (later ++ past)) a := by
  have hcounted := ran_counted maxEntries maxMemory past
  have horder := ran_inUseOrder maxEntries maxMemory past
  refine ⟨horder, ?_, ?_, ?_⟩
  · intro uri e
    have hprefix := (hcounted.insert_evicts uri e).shortestPrefix (hcounted.withEntry uri e) (horder.withEntry uri e)
    rw [withEntry_entries] at hprefix
    simpa [withEntry, uses, Action.used?] using hprefix
  · intro n m
    exact (hcounted.setLimits_evicts n m).shortestPrefix (hcounted.withLimits n m) horder
  · intro uri later a
    rw [ran_peek]

/-- The pinned document is stepped over; the one that was looked up at another version has been used nonetheless. -/
example :
    let e : CacheEntry := ⟨1, "", default⟩
    ((ran 3 1000 [.getAt "a" 7, .insert "c" e, .insert "b" e, .insert "a" e]).setLimits 1 1000).1 = ["b", "a"] := by
  decide

end Calculation.Cache
