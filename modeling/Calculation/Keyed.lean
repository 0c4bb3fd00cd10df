/-!
Values by name, as a list of pairs in the order in which the names first came in. The main statements say what
is found after a change.
-/
namespace Calculation.Keyed

variable {α : Type}

def find? (name : String) : List (String × α) → Option α
  | [] => none
  | (k, a) :: rest => if k = name then some a else find? name rest

/-- Gives the name a value, in its old place or in a new one at the end. -/
def put (name : String) (value : α) : List (String × α) → List (String × α)
  | [] => [(name, value)]
  | (k, a) :: rest => if k = name then (k, value) :: rest else (k, a) :: put name value rest

def erase (name : String) (entries : List (String × α)) : List (String × α) :=
  entries.filter fun e => e.1 ≠ name

@[simp] theorem find?_put (name other : String) (value : α) (entries : List (String × α)) :
    find? other (put name value entries) = if name = other then some value else find? other entries := by
  induction entries with
  | nil => simp [put, find?]
  | cons e rest ih =>
    obtain ⟨k, a⟩ := e
    by_cases hk : k = name
    · subst hk
      by_cases ho : k = other <;> simp [put, find?, ho]
    · by_cases ho : k = other
      · subst ho
        simp [put, find?, hk, Ne.symm hk]
      · simp [put, find?, hk, ho, ih]

@[simp] theorem find?_erase (name other : String) (entries : List (String × α)) :
    find? other (erase name entries) = if name = other then none else find? other entries := by
  induction entries with
  | nil => simp [erase, find?]
  | cons e rest ih =>
    obtain ⟨k, a⟩ := e
    simp only [erase, ne_eq, decide_not] at ih ⊢
    by_cases hk : k = name
    · subst hk
      by_cases ho : k = other
      · subst ho
        simpa using ih
      · simp [find?, ho, ih]
    · by_cases ho : k = other
      · subst ho
        simp [find?, hk, Ne.symm hk]
      · simp [find?, hk, ho, ih]

/-- A name keeps its place, or comes in at the end. -/
theorem keys_put (name : String) (value : α) (entries : List (String × α)) :
    (put name value entries).map Prod.fst =
      if name ∈ entries.map Prod.fst then entries.map Prod.fst else entries.map Prod.fst ++ [name] := by
  induction entries with
  | nil => rfl
  | cons e rest ih =>
    obtain ⟨k, a⟩ := e
    by_cases hk : k = name
    · simp [put, hk]
    · simp only [put, if_neg hk, List.map_cons, ih, List.mem_cons, Ne.symm hk, false_or]
      split <;> rfl

theorem mem_put {name : String} {value : α} {e : String × α} {entries : List (String × α)}
    (h : e ∈ put name value entries) : e = (name, value) ∨ e ∈ entries := by
  induction entries with
  | nil => exact .inl (List.mem_singleton.mp h)
  | cons x rest ih =>
    obtain ⟨k, a⟩ := x
    rw [put] at h
    split at h
    · rename_i hk
      rcases List.mem_cons.mp h with rfl | h
      · exact .inl (by rw [hk])
      · exact .inr (List.mem_cons_of_mem _ h)
    · rcases List.mem_cons.mp h with rfl | h
      · exact .inr List.mem_cons_self
      · exact (ih h).imp id (List.mem_cons_of_mem _)

theorem find?_eq_none {name : String} {entries : List (String × α)} (h : name ∉ entries.map Prod.fst) :
    find? name entries = none := by
  induction entries with
  | nil => rfl
  | cons e rest ih =>
    obtain ⟨hne, hrest⟩ := not_or.mp (mt List.mem_cons.mpr h)
    rw [find?, if_neg (Ne.symm hne), ih hrest]

/-- Entries of different names are told by the names in their order and by what is found under each. -/
theorem ext_find? {as bs : List (String × α)} (hnames : as.map Prod.fst = bs.map Prod.fst)
    (hd : (as.map Prod.fst).Nodup) (hf : ∀ name, find? name as = find? name bs) : as = bs := by
  induction as generalizing bs with
  | nil => exact (List.map_eq_nil_iff.mp hnames.symm).symm
  | cons a as ih =>
    cases bs with
    | nil => cases hnames
    | cons b bs =>
      obtain ⟨n, x⟩ := a
      obtain ⟨m, y⟩ := b
      obtain ⟨rfl, hrest⟩ := List.cons.inj hnames
      obtain ⟨hn, hd⟩ := List.nodup_cons.mp hd
      have hvalue := hf n
      rw [find?, if_pos rfl, find?, if_pos rfl] at hvalue
      cases hvalue
      refine congrArg _ (ih hrest hd fun name => ?_)
      by_cases hname : n = name
      · subst hname
        rw [find?_eq_none hn, find?_eq_none (hrest ▸ hn)]
      · have hother := hf name
        rwa [find?, if_neg hname, find?, if_neg hname] at hother

theorem mem_of_find? {name : String} {value : α} {entries : List (String × α)} (h : find? name entries = some value) :
    (name, value) ∈ entries := by
  induction entries with
  | nil => cases h
  | cons e rest ih =>
    obtain ⟨k, a⟩ := e
    rw [find?] at h
    split at h
    · rename_i hk
      cases h
      exact hk ▸ List.mem_cons_self
    · exact List.mem_cons_of_mem _ (ih h)

theorem exists_find? {name : String} {value : α} {entries : List (String × α)} (h : (name, value) ∈ entries) :
    ∃ found, find? name entries = some found := by
  induction entries with
  | nil => cases h
  | cons e rest ih =>
    obtain ⟨k, a⟩ := e
    by_cases hk : k = name
    · exact ⟨a, if_pos hk⟩
    · rcases List.mem_cons.mp h with heq | hrest
      · exact absurd (congrArg Prod.fst heq).symm hk
      · obtain ⟨found, hf⟩ := ih hrest
        exact ⟨found, (if_neg hk).trans hf⟩

/-- Of entries with different names, each is the one that is found. -/
theorem find?_of_mem {name : String} {value : α} {entries : List (String × α)} (hd : (entries.map Prod.fst).Nodup)
    (h : (name, value) ∈ entries) : find? name entries = some value := by
  induction entries with
  | nil => cases h
  | cons e rest ih =>
    obtain ⟨k, a⟩ := e
    obtain ⟨hk, hd⟩ := List.nodup_cons.mp hd
    rcases List.mem_cons.mp h with heq | h
    · cases heq
      exact if_pos rfl
    · have hne : k ≠ name := by
        rintro rfl
        exact hk (List.mem_map.mpr ⟨_, h, rfl⟩)
      rw [find?, if_neg hne, ih hd h]

@[simp] theorem mem_erase {name : String} {e : String × α} {entries : List (String × α)} :
    e ∈ erase name entries ↔ e ∈ entries ∧ e.1 ≠ name := by
  simp [erase]

/-- To erase a name that is not there changes nothing. -/
theorem erase_of_find?_none {name : String} {entries : List (String × α)} (h : find? name entries = none) :
    erase name entries = entries := by
  refine List.filter_eq_self.mpr fun e he => decide_eq_true ?_
  rintro rfl
  obtain ⟨found, hf⟩ := exists_find? he
  cases h.symm.trans hf

/-- The entries without one of their names, which is given back in front. -/
theorem perm_erase {name : String} {value : α} {entries : List (String × α)} (hd : (entries.map Prod.fst).Nodup)
    (hf : find? name entries = some value) : entries.Perm ((name, value) :: erase name entries) := by
  induction entries with
  | nil => cases hf
  | cons e rest ih =>
    obtain ⟨k, a⟩ := e
    obtain ⟨hk, hd⟩ := List.nodup_cons.mp hd
    rw [find?] at hf
    split at hf
    · rename_i hname
      cases hf
      subst hname
      have hrest : erase k ((k, value) :: rest) = rest := by
        simp only [erase, ne_eq, decide_not, List.filter_cons, decide_true, Bool.not_true, Bool.false_eq_true, if_false]
        refine List.filter_eq_self.mpr fun e he => ?_
        have hne : e.1 ≠ k := fun heq => hk (List.mem_map.mpr ⟨e, he, heq⟩)
        simpa using hne
      rw [hrest]
    · rename_i hname
      have hkeep : erase name ((k, a) :: rest) = (k, a) :: erase name rest := by simp [erase, hname]
      rw [hkeep]
      exact ((ih hd hf).cons _).trans (.swap ..)

/-- Each name once, where it first comes. -/
def distinct : List String → List String
  | [] => []
  | n :: ns => n :: (distinct ns).filter (· ≠ n)

@[simp] theorem mem_distinct {name : String} {names : List String} : name ∈ distinct names ↔ name ∈ names := by
  induction names with
  | nil => simp [distinct]
  | cons n ns ih =>
    by_cases hn : name = n
    · simp [distinct, hn]
    · simp [distinct, hn, ih]

theorem nodup_distinct (names : List String) : (distinct names).Nodup := by
  induction names with
  | nil => exact .nil
  | cons n ns ih => exact List.nodup_cons.mpr ⟨by simp, ih.filter _⟩

/-- Names that come later are new only when they have not come before. -/
theorem distinct_append (as bs : List String) :
    distinct (as ++ bs) = distinct as ++ (distinct bs).filter (· ∉ as) := by
  induction as with
  | nil => exact (List.filter_eq_self.mpr fun _ _ => decide_eq_true List.not_mem_nil).symm
  | cons a as ih =>
    simp only [List.cons_append, distinct, ih, List.filter_append, List.filter_filter, List.mem_cons, not_or,
      Bool.decide_and]

theorem distinct_eq_self {names : List String} (h : names.Nodup) : distinct names = names := by
  induction names with
  | nil => rfl
  | cons n ns ih =>
    obtain ⟨hn, hns⟩ := List.nodup_cons.mp h
    rw [distinct, ih hns]
    refine congrArg _ (List.filter_eq_self.mpr fun m hm => decide_eq_true ?_)
    rintro rfl
    exact hn hm

end Calculation.Keyed
