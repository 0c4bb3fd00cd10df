import Mathlib.Data.List.Sort
import Mathlib.Data.Prod.Lex
import Mathlib.Data.String.Basic
import Calculation.Workspace.RequestQueue

/-!
The queue of requests over whole runs. What waits is told by the calls that asked for it since it was last handed out
or dropped: the newest version, due as the last call for that version said. A poll hands out all that is due, in one
order, whatever order the requests are stored in.
-/
namespace Calculation

namespace WaitingRequest

/-- The document and the class that a request is for. -/
def key (w : WaitingRequest) : String × RequestClass :=
  (w.request.uri, w.request.class_)

/-- What the order of service compares, from the most to the least telling. -/
def place (w : WaitingRequest) : Nat ×ₗ (Nat ×ₗ String) :=
  toLex (w.request.class_.rank, toLex (w.due, w.request.uri))

variable {a b w : WaitingRequest} {uri : String} {class_ : RequestClass}

theorem isFor_iff : w.isFor uri class_ = true ↔ w.key = (uri, class_) := by
  simp [isFor, key]

theorem comesBefore_iff : a.comesBefore b = true ↔ a.place ≤ b.place := by
  simp [comesBefore, place, Prod.Lex.toLex_le_toLex]

end WaitingRequest

theorem RequestClass.rank_injective {a b : RequestClass} (h : a.rank = b.rank) : a = b := by
  cases a <;> cases b <;> simp_all [rank]

namespace RequestQueue

/-- What can be done to a queue. -/
inductive Action where
  | schedule (r : Request) (now : Nat)
  | cancel (uri : String) (class_ : RequestClass)
  | cancelDocument (uri : String)
  | setDelays (delays : Delays)
  | poll (now : Nat)
deriving DecidableEq, Repr

/-- What an action hands out, and the queue behind it. -/
def step (q : RequestQueue) : Action → List Request × RequestQueue
  | .schedule r now => ([], q.schedule r now)
  | .cancel uri class_ => ([], q.cancel uri class_)
  | .cancelDocument uri => ([], q.cancelDocument uri)
  | .setDelays delays => ([], q.setDelays delays)
  | .poll now => q.poll now

/-- The same queue, its requests stored in another order. -/
structure Reordered (q q' : RequestQueue) : Prop where
  delays : q'.delays = q.delays
  waiting : q'.waiting.Perm q.waiting

/-- Actions, each with what it handed out, of which the latest comes first. -/
abbrev Past :=
  List (Action × List Request)

/-- The queue may be in this state after such a past. Between two actions its requests may come into any order. -/
inductive Ran (delays : Delays) : Past → RequestQueue → Prop
  | new : Ran delays [] (.new delays)
  | reorder {past : Past} {q q' : RequestQueue} (h : Ran delays past q) (hq : q.Reordered q') : Ran delays past q'
  | act {past : Past} {q : RequestQueue} (h : Ran delays past q) (a : Action) :
    Ran delays ((a, (q.step a).1) :: past) (q.step a).2

namespace Past

/-- The delays in force. -/
def delays (first : Delays) : Past → Delays
  | [] => first
  | (.setDelays delays, _) :: _ => delays
  | _ :: past => delays first past

/-- A call for a request: the version it was for, and the time it was called at plus the delay then in force. -/
structure Call where
  version : Int
  due : Nat
deriving DecidableEq, Repr

/-- The calls for a request since it was last handed out or dropped, the latest first. -/
def calls (first : Delays) (uri : String) (class_ : RequestClass) : Past → List Call
  | [] => []
  | (.schedule r now, _) :: past =>
    if (r.uri, r.class_) = (uri, class_) then
      ⟨r.version, now + (delays first past).of class_⟩ :: calls first uri class_ past
    else calls first uri class_ past
  | (.cancel uri' class', _) :: past => if (uri', class') = (uri, class_) then [] else calls first uri class_ past
  | (.cancelDocument uri', _) :: past => if uri' = uri then [] else calls first uri class_ past
  | (.setDelays _, _) :: past => calls first uri class_ past
  | (.poll _, handedOut) :: past =>
    if ∃ r ∈ handedOut, (r.uri, r.class_) = (uri, class_) then [] else calls first uri class_ past

/-- The last of the calls for the newest version. -/
def Decides (c : Call) (calls : List Call) : Prop :=
  ∃ later earlier, calls = later ++ c :: earlier ∧ (∀ x ∈ later, x.version < c.version) ∧
    ∀ x ∈ earlier, x.version ≤ c.version

theorem decides_singleton (c : Call) : Decides c [c] :=
  ⟨[], [], rfl, by simp, by simp⟩

/-- A call for a version that is not older decides from now on. -/
theorem Decides.newer {c c' : Call} {calls : List Call} (h : Decides c calls) (hv : c.version ≤ c'.version) :
    Decides c' (c' :: calls) := by
  obtain ⟨later, earlier, rfl, hlater, hearlier⟩ := h
  refine ⟨[], _, rfl, by simp, fun x hx => ?_⟩
  rcases List.mem_append.mp hx with hx | hx
  · exact le_trans (le_of_lt (hlater x hx)) hv
  · rcases List.mem_cons.mp hx with rfl | hx
    · exact hv
    · exact le_trans (hearlier x hx) hv

/-- A call for an older version changes nothing. -/
theorem Decides.older {c c' : Call} {calls : List Call} (h : Decides c calls) (hv : c'.version < c.version) :
    Decides c (c' :: calls) := by
  obtain ⟨later, earlier, rfl, hlater, hearlier⟩ := h
  exact ⟨c' :: later, earlier, rfl, List.forall_mem_cons.mpr ⟨hv, hlater⟩, hearlier⟩

end Past

variable {q q' : RequestQueue} {w : WaitingRequest} {uri : String} {class_ : RequestClass}

/-- At most one request waits for each document and class. -/
def Distinct (q : RequestQueue) : Prop :=
  (q.waiting.map WaitingRequest.key).Nodup

theorem Distinct.eq (h : q.Distinct) {a b : WaitingRequest} (ha : a ∈ q.waiting) (hb : b ∈ q.waiting)
    (hk : a.key = b.key) : a = b :=
  List.inj_on_of_nodup_map h ha hb hk

theorem of_find? (h : q.find? uri class_ = some w) : w ∈ q.waiting ∧ w.key = (uri, class_) := by
  unfold find? at h
  have hfor := List.find?_some h
  exact ⟨List.mem_of_find?_eq_some h, WaitingRequest.isFor_iff.mp hfor⟩

theorem find?_eq_none : q.find? uri class_ = none ↔ ∀ w ∈ q.waiting, w.key ≠ (uri, class_) := by
  simp only [find?, List.find?_eq_none, WaitingRequest.isFor_iff, ne_eq]

theorem find?_eq_some (h : q.Distinct) : q.find? uri class_ = some w ↔ w ∈ q.waiting ∧ w.key = (uri, class_) := by
  refine ⟨of_find?, ?_⟩
  rintro ⟨hw, hk⟩
  cases hf : q.find? uri class_ with
  | none => exact absurd hk (find?_eq_none.mp hf w hw)
  | some x =>
    obtain ⟨hx, hkx⟩ := of_find? hf
    rw [h.eq hx hw (hkx.trans hk.symm)]

theorem Distinct.filter (h : q.Distinct) (p : WaitingRequest → Bool) (delays : Delays) :
    Distinct ⟨delays, q.waiting.filter p⟩ :=
  h.sublist (List.filter_sublist.map _)

/-- What waits is what the past asks for. -/
structure Tracks (first : Delays) (past : Past) (q : RequestQueue) : Prop where
  delays : q.delays = past.delays first
  distinct : q.Distinct
  decided : ∀ w ∈ q.waiting, Past.Decides ⟨w.request.version, w.due⟩ (past.calls first w.request.uri w.request.class_)
  waits : ∀ uri class_, past.calls first uri class_ ≠ [] → ∃ w ∈ q.waiting, w.key = (uri, class_)

variable {first : Delays} {past : Past}

theorem Tracks.new (first : Delays) : Tracks first [] (.new first) :=
  ⟨rfl, List.nodup_nil, nofun, fun _ _ h => absurd rfl h⟩

theorem Tracks.reorder (h : Tracks first past q) (hq : q.Reordered q') : Tracks first past q' := by
  refine ⟨hq.delays.trans h.delays, (hq.waiting.map _).nodup_iff.mpr h.distinct, fun w hw => ?_,
    fun uri class_ hc => ?_⟩
  · exact h.decided w (hq.waiting.mem_iff.mp hw)
  · obtain ⟨w, hw, hk⟩ := h.waits uri class_ hc
    exact ⟨w, hq.waiting.mem_iff.mpr hw, hk⟩

/-- An action that only takes requests out, those whose calls it forgets. -/
theorem Tracks.takeOut (h : Tracks first past q) {event : Action × List Request} {p : WaitingRequest → Bool}
    (hdelays : Past.delays first (event :: past) = past.delays first)
    (hkept : ∀ w ∈ q.waiting, p w = true →
      Past.calls first w.request.uri w.request.class_ (event :: past) =
        past.calls first w.request.uri w.request.class_)
    (hgone : ∀ uri class_, Past.calls first uri class_ (event :: past) ≠ [] →
      past.calls first uri class_ ≠ [] ∧ ∀ w ∈ q.waiting, w.key = (uri, class_) → p w = true) :
    Tracks first (event :: past) { q with waiting := q.waiting.filter p } := by
  refine ⟨h.delays.trans hdelays.symm, h.distinct.filter p q.delays, fun w hw => ?_, fun uri class_ hc => ?_⟩
  · obtain ⟨hw, hp⟩ := List.mem_filter.mp hw
    rw [hkept w hw hp]
    exact h.decided w hw
  · obtain ⟨hc, hp⟩ := hgone uri class_ hc
    obtain ⟨w, hw, hk⟩ := h.waits uri class_ hc
    exact ⟨w, List.mem_filter.mpr ⟨hw, hp w hw hk⟩, hk⟩

theorem Tracks.cancel (h : Tracks first past q) (uri : String) (class_ : RequestClass) :
    Tracks first ((.cancel uri class_, []) :: past) (q.cancel uri class_) := by
  refine h.takeOut rfl (fun w _ hp => ?_) fun uri' class' hc => ?_
  · have hne : (uri, class_) ≠ (w.request.uri, w.request.class_) := by
      intro heq
      simp [WaitingRequest.isFor_iff.mpr heq.symm] at hp
    exact if_neg hne
  · by_cases heq : (uri, class_) = (uri', class')
    · exact absurd (if_pos heq) hc
    · refine ⟨fun hnil => hc ((if_neg heq).trans hnil), fun w _ hk => ?_⟩
      have hne : ¬w.isFor uri class_ = true := fun hw => heq ((WaitingRequest.isFor_iff.mp hw).symm.trans hk)
      simp [hne]

theorem Tracks.cancelDocument (h : Tracks first past q) (uri : String) :
    Tracks first ((.cancelDocument uri, []) :: past) (q.cancelDocument uri) := by
  refine h.takeOut rfl (fun w _ hp => ?_) fun uri' class' hc => ?_
  · have hne : w.request.uri ≠ uri := of_decide_eq_true hp
    exact if_neg hne.symm
  · by_cases heq : uri = uri'
    · exact absurd (if_pos heq) hc
    · refine ⟨fun hnil => hc ((if_neg heq).trans hnil), fun w _ hk => ?_⟩
      have hw : w.request.uri = uri' := congrArg Prod.fst hk
      exact decide_eq_true (hw ▸ Ne.symm heq)

theorem Tracks.setDelays (h : Tracks first past q) (delays : Delays) :
    Tracks first ((.setDelays delays, []) :: past) (q.setDelays delays) :=
  ⟨rfl, h.distinct, h.decided, h.waits⟩

/-- The request that takes the place of those for its document and class. -/
theorem Tracks.schedule (h : Tracks first past q) (r : Request) (now : Nat) :
    Tracks first ((.schedule r now, []) :: past) (q.schedule r now) := by
  have hother : ∀ uri class_, (r.uri, r.class_) ≠ (uri, class_) →
      Past.calls first uri class_ ((.schedule r now, []) :: past) = past.calls first uri class_ :=
    fun uri class_ hne => if_neg hne
  have hsame : Past.calls first r.uri r.class_ ((.schedule r now, []) :: past) =
      ⟨r.version, now + q.delays.of r.class_⟩ :: past.calls first r.uri r.class_ := by
    rw [h.delays]
    exact if_pos rfl
  unfold RequestQueue.schedule
  split
  · -- A request for a newer version waits already, and goes on waiting.
    rename_i hnewer
    obtain ⟨x, hx, hlt⟩ := Option.any_eq_true _ _ |>.mp hnewer
    obtain ⟨hmem, hk⟩ := (find?_eq_some h.distinct).mp hx
    refine ⟨h.delays, h.distinct, fun w hw => ?_, fun uri class_ hc => ?_⟩
    · by_cases heq : (r.uri, r.class_) = (w.request.uri, w.request.class_)
      · obtain rfl : w = x := h.distinct.eq hw hmem (heq.symm.trans hk.symm)
        obtain ⟨hu, hcl⟩ := Prod.mk.inj heq
        have hd := h.decided w hw
        rw [← hu, ← hcl] at hd ⊢
        rw [hsame]
        exact hd.older (of_decide_eq_true hlt)
      · rw [hother _ _ heq]
        exact h.decided w hw
    · by_cases heq : (r.uri, r.class_) = (uri, class_)
      · exact ⟨x, hmem, hk.trans heq⟩
      · rw [hother _ _ heq] at hc
        exact h.waits uri class_ hc
  · rename_i holder
    have hfilter : ∀ w : WaitingRequest, w ∈ (q.waiting.filter fun w => !w.isFor r.uri r.class_) ↔
        w ∈ q.waiting ∧ w.key ≠ (r.uri, r.class_) := by
      intro w
      rw [List.mem_filter, ne_eq, ← WaitingRequest.isFor_iff]
      simp
    refine ⟨h.delays, ?_, List.forall_mem_cons.mpr ⟨?_, fun w hw => ?_⟩, fun uri class_ hc => ?_⟩
    · refine List.nodup_cons.mpr ⟨fun hmem => ?_, h.distinct.filter _ q.delays⟩
      obtain ⟨w, hw, hk⟩ := List.mem_map.mp hmem
      exact ((hfilter w).mp hw).2 hk
    · rw [hsame]
      cases hf : q.find? r.uri r.class_ with
      | none =>
        have hnil : past.calls first r.uri r.class_ = [] := by
          by_contra hc
          obtain ⟨w, hw, hk⟩ := h.waits r.uri r.class_ hc
          exact find?_eq_none.mp hf w hw hk
        rw [hnil]
        exact Past.decides_singleton _
      | some x =>
        obtain ⟨hmem, hk⟩ := (find?_eq_some h.distinct).mp hf
        obtain ⟨hu, hcl⟩ := Prod.mk.inj hk
        have hd := h.decided x hmem
        rw [hu, hcl] at hd
        refine hd.newer ?_
        rw [hf] at holder
        simpa using holder
    · obtain ⟨hw, hk⟩ := (hfilter w).mp hw
      rw [hother _ _ (Ne.symm hk)]
      exact h.decided w hw
    · by_cases heq : (r.uri, r.class_) = (uri, class_)
      · exact ⟨_, List.mem_cons_self, heq⟩
      · rw [hother _ _ heq] at hc
        obtain ⟨w, hw, hk⟩ := h.waits uri class_ hc
        exact ⟨w, List.mem_cons_of_mem _ ((hfilter w).mpr ⟨hw, hk ▸ Ne.symm heq⟩), hk⟩

/-- The requests that are due, in the order in which they are served. -/
def dueAt (q : RequestQueue) (now : Nat) : List WaitingRequest :=
  (q.waiting.filter fun w => w.due ≤ now).mergeSort WaitingRequest.comesBefore

theorem poll_fst (q : RequestQueue) (now : Nat) : (q.poll now).1 = (q.dueAt now).map (·.request) := rfl

theorem mem_dueAt {now : Nat} : w ∈ q.dueAt now ↔ w ∈ q.waiting ∧ w.due ≤ now := by
  rw [dueAt, List.mem_mergeSort, List.mem_filter, decide_eq_true_eq]

theorem dueAt_nodup (h : q.Distinct) (now : Nat) : ((q.dueAt now).map WaitingRequest.key).Nodup := by
  have hfilter : ((q.waiting.filter fun w => w.due ≤ now).map WaitingRequest.key).Nodup :=
    h.sublist (List.filter_sublist.map _)
  exact ((List.mergeSort_perm _ _).map _).nodup_iff.mpr hfilter

theorem dueAt_sorted (q : RequestQueue) (now : Nat) : (q.dueAt now).Pairwise fun a b => a.place ≤ b.place := by
  have hsorted : (q.dueAt now).Pairwise fun a b => a.comesBefore b = true := by
    refine List.pairwise_mergeSort (fun a b c => ?_) (fun a b => ?_) _
    · simpa only [WaitingRequest.comesBefore_iff] using le_trans
    · simpa only [Bool.or_eq_true, WaitingRequest.comesBefore_iff] using le_total _ _
  exact hsorted.imp WaitingRequest.comesBefore_iff.mp

/-- Requests of different documents or classes have different places in the order of service. -/
theorem eq_key_of_place {a b : WaitingRequest} (h : a.place = b.place) : a.key = b.key := by
  obtain ⟨hclass, hrest⟩ := Prod.mk.inj (toLex.injective h)
  obtain ⟨-, huri⟩ := Prod.mk.inj (toLex.injective hrest)
  exact Prod.ext huri (RequestClass.rank_injective hclass)

/-- However the requests are stored, they are served in the same order. -/
theorem dueAt_reordered (h : q.Distinct) (hq : q.Reordered q') (now : Nat) : q'.dueAt now = q.dueAt now := by
  have hperm : (q'.dueAt now).Perm (q.dueAt now) :=
    (List.mergeSort_perm _ _).trans ((hq.waiting.filter _).trans (List.mergeSort_perm _ _).symm)
  refine hperm.eq_of_pairwise (fun a b ha hb hab hba => ?_) (dueAt_sorted q' now) (dueAt_sorted q now)
  have hmem : a ∈ q.waiting := hq.waiting.mem_iff.mp (mem_dueAt.mp ha).1
  exact h.eq hmem (mem_dueAt.mp hb).1 (eq_key_of_place (le_antisymm hab hba))

theorem Tracks.poll (h : Tracks first past q) (now : Nat) :
    Tracks first ((.poll now, (q.poll now).1) :: past) (q.poll now).2 := by
  have hmem : ∀ uri class_, (∃ r ∈ (q.poll now).1, (r.uri, r.class_) = (uri, class_)) ↔
      ∃ w ∈ q.waiting, w.due ≤ now ∧ w.key = (uri, class_) := by
    intro uri class_
    rw [poll_fst]
    constructor
    · rintro ⟨r, hr, hk⟩
      obtain ⟨w, hw, rfl⟩ := List.mem_map.mp hr
      obtain ⟨hw, hdue⟩ := mem_dueAt.mp hw
      exact ⟨w, hw, hdue, hk⟩
    · rintro ⟨w, hw, hdue, hk⟩
      exact ⟨w.request, List.mem_map_of_mem (mem_dueAt.mpr ⟨hw, hdue⟩), hk⟩
  refine h.takeOut rfl (fun w hw hp => ?_) fun uri class_ hc => ?_
  · refine if_neg fun hout => ?_
    obtain ⟨x, hx, hdue, hk⟩ := (hmem _ _).mp hout
    rw [h.distinct.eq hx hw hk] at hdue
    exact absurd (of_decide_eq_true hp) (Nat.not_lt.mpr hdue)
  · by_cases hout : ∃ r ∈ (q.poll now).1, (r.uri, r.class_) = (uri, class_)
    · exact absurd (if_pos hout) hc
    · refine ⟨fun hnil => hc ((if_neg hout).trans hnil), fun w hw hk => decide_eq_true ?_⟩
      exact Nat.not_le.mp fun hdue => hout ((hmem _ _).mpr ⟨w, hw, hdue, hk⟩)

theorem Tracks.step (h : Tracks first past q) (a : Action) :
    Tracks first ((a, (q.step a).1) :: past) (q.step a).2 := by
  cases a with
  | schedule r now => exact h.schedule r now
  | cancel uri class_ => exact h.cancel uri class_
  | cancelDocument uri => exact h.cancelDocument uri
  | setDelays delays => exact h.setDelays delays
  | poll now => exact h.poll now

theorem Ran.tracks (h : Ran first past q) : Tracks first past q := by
  induction h with
  | new => exact .new first
  | reorder _ hq ih => exact ih.reorder hq
  | act _ a ih => exact ih.step a

/-- A request waits exactly if there were calls for it since it was last handed out or dropped. -/
theorem Tracks.isWaiting_iff (h : Tracks first past q) (uri : String) (class_ : RequestClass) :
    q.isWaiting uri class_ = true ↔ past.calls first uri class_ ≠ [] := by
  constructor
  · intro hwaits
    obtain ⟨w, hw⟩ := Option.isSome_iff_exists.mp hwaits
    obtain ⟨hmem, hk⟩ := (find?_eq_some h.distinct).mp hw
    obtain ⟨rfl, rfl⟩ := Prod.mk.inj hk
    obtain ⟨later, earlier, hcalls, -⟩ := h.decided w hmem
    simp [hcalls]
  · intro hc
    obtain ⟨w, hw, hk⟩ := h.waits uri class_ hc
    exact Option.isSome_iff_exists.mpr ⟨w, (find?_eq_some h.distinct).mpr ⟨hw, hk⟩⟩

/-- What waits, waits as the last call for the newest version said. -/
theorem Tracks.of_find? (h : Tracks first past q) (hw : q.find? uri class_ = some w) :
    w.key = (uri, class_) ∧ Past.Decides ⟨w.request.version, w.due⟩ (past.calls first uri class_) := by
  obtain ⟨hmem, hk⟩ := (find?_eq_some h.distinct).mp hw
  obtain ⟨rfl, rfl⟩ := Prod.mk.inj hk
  exact ⟨rfl, h.decided w hmem⟩

/-- What is not due goes on waiting. -/
theorem find?_poll (h : q.Distinct) (now : Nat) (uri : String) (class_ : RequestClass) :
    (q.poll now).2.find? uri class_ = (q.find? uri class_).filter (now < ·.due) := by
  have hrest : Distinct (q.poll now).2 := h.filter _ q.delays
  refine Option.ext fun w => ?_
  rw [find?_eq_some hrest, Option.filter_eq_some_iff, find?_eq_some h]
  simp only [poll, List.mem_filter]
  tauto

theorem nextDeadline?_le_iff (q : RequestQueue) (now : Nat) :
    (∃ deadline, q.nextDeadline? = some deadline ∧ deadline ≤ now) ↔ ∃ w ∈ q.waiting, w.due ≤ now := by
  rw [nextDeadline?]
  constructor
  · rintro ⟨deadline, hmin, hle⟩
    obtain ⟨w, hw, rfl⟩ := List.mem_map.mp (List.min?_eq_some_iff.mp hmin).1
    exact ⟨w, hw, hle⟩
  · rintro ⟨w, hw, hdue⟩
    have hmem : w.due ∈ q.waiting.map (·.due) := List.mem_map_of_mem hw
    cases hmin : (q.waiting.map (·.due)).min? with
    | none => simp [List.min?_eq_none_iff.mp hmin] at hmem
    | some deadline => exact ⟨deadline, rfl, le_trans ((List.min?_eq_some_iff.mp hmin).2 _ hmem) hdue⟩

theorem poll_ne_nil_iff (q : RequestQueue) (now : Nat) : (q.poll now).1 ≠ [] ↔ ∃ w ∈ q.waiting, w.due ≤ now := by
  rw [poll_fst, ne_eq, List.map_eq_nil_iff, List.eq_nil_iff_forall_not_mem, not_forall_not]
  exact exists_congr fun w => mem_dueAt

/-- The order of service: by class, then by the time they are due, then by document. -/
def Precedes (a b : WaitingRequest) : Prop :=
  a.request.class_.rank < b.request.class_.rank ∨ a.request.class_ = b.request.class_ ∧
    (a.due < b.due ∨ a.due = b.due ∧ a.request.uri < b.request.uri)

theorem precedes_of_place {a b : WaitingRequest} (h : a.place ≤ b.place) (hk : a.key ≠ b.key) : Precedes a b := by
  have hlt : a.place < b.place := lt_of_le_of_ne h fun heq => hk (eq_key_of_place heq)
  simp only [WaitingRequest.place, Prod.Lex.toLex_lt_toLex] at hlt
  exact hlt.imp id fun ⟨hrank, hrest⟩ => ⟨RequestClass.rank_injective hrank, hrest⟩

/-- Whatever has been done to a queue, and in whatever order its requests are stored: a request waits exactly if there
were calls for it since it was last handed out or dropped, and then for the newest version of these, until the time that
the last call for that version said. A poll hands out the requests that wait and are due, each once, by class, time and
document, and the order in which they are stored makes no difference; all others, and only they, go on waiting. It hands
out something exactly when the earliest time at which a request is due has come. -/
theorem Ran.delivers (h : Ran first past q) :
    (∀ uri class_, (q.isWaiting uri class_ = true ↔ past.calls first uri class_ ≠ []) ∧
      ∀ w, q.find? uri class_ = some w → w.key = (uri, class_) ∧
        Past.Decides ⟨w.request.version, w.due⟩ (past.calls first uri class_)) ∧
    ∀ now,
      (∃ served : List WaitingRequest, (q.poll now).1 = served.map (·.request) ∧ served.Pairwise Precedes ∧
        (served.map WaitingRequest.key).Nodup ∧
        ∀ w, w ∈ served ↔ q.find? w.request.uri w.request.class_ = some w ∧ w.due ≤ now) ∧
      (∀ uri class_, (q.poll now).2.find? uri class_ = (q.find? uri class_).filter (now < ·.due)) ∧
      (∀ q', q.Reordered q' → (q'.poll now).1 = (q.poll now).1 ∧ (q.poll now).2.Reordered (q'.poll now).2) ∧
      ((q.poll now).1 ≠ [] ↔ ∃ deadline, q.nextDeadline? = some deadline ∧ deadline ≤ now) := by
  have ht := h.tracks
  have hd := ht.distinct
  refine ⟨fun uri class_ => ⟨ht.isWaiting_iff uri class_, fun w hw => ht.of_find? hw⟩, fun now =>
    ⟨⟨q.dueAt now, rfl, ?_, dueAt_nodup hd now, fun w => ?_⟩, find?_poll hd now, fun q' hq => ⟨?_, ?_⟩, ?_⟩⟩
  · have hkeys : (q.dueAt now).Pairwise fun a b => a.key ≠ b.key :=
      List.pairwise_map.mp (dueAt_nodup hd now)
    exact (dueAt_sorted q now).imp₂ (fun _ _ => precedes_of_place) hkeys
  · rw [mem_dueAt, find?_eq_some hd]
    exact and_congr_left' (and_iff_left rfl).symm
  · rw [poll_fst, poll_fst, dueAt_reordered hd hq]
  · exact ⟨hq.delays, hq.waiting.filter _⟩
  · rw [poll_ne_nil_iff, nextDeadline?_le_iff]

/-- For instance an older version that is asked for later: it neither takes the place of the newer one nor puts it
off. -/
theorem delivers_newest :
    let newer : Request := ⟨"a", .hover, 2⟩
    let older : Request := ⟨"a", .hover, 1⟩
    let q := ((RequestQueue.new .default).schedule newer 0).schedule older 50
    let past : Past := [(.schedule older 50, []), (.schedule newer 0, [])]
    Ran .default past q ∧ past.calls .default "a" .hover = [⟨1, 150⟩, ⟨2, 100⟩] ∧
      q.isWaiting "a" .hover = true ∧ (q.poll 99).1 = [] ∧ (q.poll 100).1 ≠ [] := by
  intro newer older q past
  have h : Ran .default past q := .act (.act .new (.schedule newer 0)) (.schedule older 50)
  have hnext : q.nextDeadline? = some 100 := by decide
  refine ⟨h, by decide, (h.delivers.1 "a" .hover).1.mpr (by decide), ?_, ?_⟩
  · by_contra hout
    obtain ⟨deadline, hd, hle⟩ := ((h.delivers.2 99).2.2.2).mp hout
    cases hnext.symm.trans hd
    exact absurd hle (by decide)
  · exact ((h.delivers.2 100).2.2.2).mpr ⟨100, hnext, Nat.le_refl _⟩

end RequestQueue

end Calculation
