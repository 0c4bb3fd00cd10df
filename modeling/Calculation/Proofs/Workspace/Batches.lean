import Mathlib.Data.List.Basic
import Mathlib.Logic.Relation
import Calculation.Proofs.Workspace.Cache
import Calculation.Proofs.Workspace.Runs

/-!
Batches of updates, in which the documents are worked on side by side. The updates of one document come one after the
other: each claims its version, is read with what is cached then, and is committed; in between, other documents get on
as they like. What is decided of a document depends on no more than where it stands, which only its own updates change.
So it is the same in every schedule, and the same as when all updates are taken in one by one.
-/
namespace Calculation

/-- What is published of a document keeps the newest version. -/
theorem Published.version_publish (p : Published) (uri other : String) (new : Publication) :
    ((p.publish uri new).get? other).map (·.version) =
      if uri = other then some ((((p.get? other).map (·.version)).map (max · new.version)).getD new.version)
      else (p.get? other).map (·.version) := by
  unfold publish isStale
  by_cases huri : uri = other
  · subst huri
    cases hp : p.get? uri with
    | none => simp [get?]
    | some shown =>
      by_cases hstale : new.version < shown.version
      · simp [hstale, hp, Int.max_eq_left (Int.le_of_lt hstale)]
      · simp [hstale, get?, Int.max_eq_right (Int.not_lt.mp hstale)]
  · split <;> simp [huri, get?]

namespace Workspace

/-- What decides on the updates of a document, and what is known of them afterwards. -/
structure Standing where
  isShutDown : Bool
  /-- The newest version that was taken in. -/
  latest? : Option Int
  /-- The version whose diagnostics are published. -/
  shown? : Option Int

def standing (w : Workspace) (uri : String) : Standing :=
  ⟨w.isShutDown, w.latest? uri, (w.published.get? uri).map (·.version)⟩

/-- The version of an update is taken for its document. -/
def claimed (w : Workspace) (u : Update) : Workspace :=
  { w with versions := Keyed.put u.uri u.version w.versions }

/-- What was read of an update is cached and published. -/
def committed (w : Workspace) (u : Update) (o : Outline) : Workspace :=
  { w with
    cache := (w.cache.insert u.uri ⟨u.version, u.text, o⟩).2
    published := w.published.publish u.uri ⟨u.version, o.diagnostics⟩ }

/-- An update, and why it was refused if it was. -/
def verdict (outcome : Update × Except UpdateError Outline) : Update × Option Refusal :=
  (outcome.1, refusalOf .update outcome.2)

variable {w w' w₀ : Workspace} {u : Update} {us vs : List Update} {uri : String}

/-- An update that is taken in is claimed, read and committed. -/
theorem update_eq_committed (h : w.refusal? u.uri u.version = none) :
    w.update u = (.ok ((w.claimed u).outlineOf u.uri u.text),
      (w.claimed u).committed u ((w.claimed u).outlineOf u.uri u.text)) := by
  simp only [update, h]
  rfl

theorem refusal?_congr (h : w.standing uri = w'.standing uri) (version : Int) :
    w.refusal? uri version = w'.refusal? uri version := by
  obtain ⟨hshut, hlatest, -⟩ := Standing.mk.inj h
  rw [refusal?, refusal?, hshut, hlatest]

theorem standing_claimed (w : Workspace) (u : Update) (uri : String) : (w.claimed u).standing uri =
    if u.uri = uri then { w.standing uri with latest? := some u.version } else w.standing uri := by
  simp only [standing, claimed, latest?, Keyed.find?_put]
  split <;> rfl

theorem standing_committed (w : Workspace) (u : Update) (o : Outline) (uri : String) :
    (w.committed u o).standing uri =
      if u.uri = uri then
        { w.standing uri with shown? := some (((w.standing uri).shown?.map (max · u.version)).getD u.version) }
      else w.standing uri := by
  rw [standing, committed, Published.version_publish]
  split <;> rfl

theorem standing_claimed_congr (h : w.standing uri = w'.standing uri) (u : Update) :
    (w.claimed u).standing uri = (w'.claimed u).standing uri := by
  rw [standing_claimed, standing_claimed, h]

theorem standing_committed_congr (h : w.standing uri = w'.standing uri) (u : Update) (o o' : Outline) :
    (w.committed u o).standing uri = (w'.committed u o').standing uri := by
  rw [standing_committed, standing_committed, h]

/-- No update changes where another document stands. -/
theorem standing_update_other (w : Workspace) (h : u.uri ≠ uri) : (w.update u).2.standing uri = w.standing uri := by
  cases hr : w.refusal? u.uri u.version with
  | some e => rw [update_refused hr]
  | none => rw [update_eq_committed hr, standing_committed, if_neg h, standing_claimed, if_neg h]

/-- Where a document stands decides on its next update, and on where it stands after that. -/
theorem update_congr (h : w.standing u.uri = w'.standing u.uri) :
    refusalOf .update (w.update u).1 = refusalOf .update (w'.update u).1 ∧
      (w.update u).2.standing u.uri = (w'.update u).2.standing u.uri := by
  have hrefusal := refusal?_congr h u.version
  cases hr : w.refusal? u.uri u.version with
  | some e =>
    rw [update_refused hr, update_refused (hrefusal ▸ hr)]
    exact ⟨rfl, h⟩
  | none =>
    rw [update_eq_committed hr, update_eq_committed (hrefusal ▸ hr)]
    refine ⟨?_, standing_committed_congr (standing_claimed_congr h u) u _ _⟩
    simp only [refusalOf]

theorem updateEach_cons (w : Workspace) (u : Update) (us : List Update) : w.updateEach (u :: us) =
    ((u, (w.update u).1) :: ((w.update u).2.updateEach us).1, ((w.update u).2.updateEach us).2) := rfl

@[simp] theorem updateEach_updates (w : Workspace) (us : List Update) : (w.updateEach us).1.map (·.1) = us := by
  induction us generalizing w with
  | nil => rfl
  | cons u us ih => exact congrArg (u :: ·) (ih (w.update u).2)

theorem updateEach_append (w : Workspace) (us vs : List Update) : w.updateEach (us ++ vs) =
    ((w.updateEach us).1 ++ ((w.updateEach us).2.updateEach vs).1, ((w.updateEach us).2.updateEach vs).2) := by
  induction us generalizing w with
  | nil => rfl
  | cons u us ih => rw [List.cons_append, updateEach_cons, updateEach_cons, ih, List.cons_append]

/-- Of updates taken in one by one, what is decided of a document is decided as if there were only its own. -/
theorem updateEach_document (us : List Update) (h : w.standing uri = w'.standing uri) :
    ((w.updateEach us).1.filter (·.1.uri == uri)).map verdict =
        (w'.updateEach (us.filter (·.uri == uri))).1.map verdict ∧
      (w.updateEach us).2.standing uri = (w'.updateEach (us.filter (·.uri == uri))).2.standing uri := by
  induction us generalizing w w' with
  | nil => exact ⟨rfl, h⟩
  | cons u us ih =>
    by_cases huri : u.uri = uri
    · subst huri
      obtain ⟨hverdict, hstanding⟩ := update_congr h
      obtain ⟨hverdicts, hafter⟩ := ih hstanding
      have hhead : verdict (u, (w.update u).1) = verdict (u, (w'.update u).1) := by
        rw [verdict, verdict, hverdict]
      simp only [updateEach_cons, List.filter_cons, BEq.rfl, if_true, List.map_cons, hhead, hverdicts, hafter,
        and_self]
    · have hother : (u.uri == uri) = false := beq_false_of_ne huri
      simp only [updateEach_cons, List.filter_cons, hother, Bool.false_eq_true, if_false]
      exact ih ((standing_update_other w huri).trans h)

theorem filter_document_eq_nil (h : uri ∉ us.map (·.uri)) : us.filter (·.uri == uri) = [] :=
  List.filter_eq_nil_iff.mpr fun u hu heq => h (List.mem_map.mpr ⟨u, hu, eq_of_beq heq⟩)

/-- The updates of one document, when they are put in order document by document. -/
theorem filter_flatMap_documents (us : List Update) {uris : List String} (h : uris.Nodup) :
    (uris.flatMap fun name => us.filter (·.uri == name)).filter (·.uri == uri) =
      if uri ∈ uris then us.filter (·.uri == uri) else [] := by
  induction uris with
  | nil => rfl
  | cons name uris ih =>
    obtain ⟨hname, huris⟩ := List.nodup_cons.mp h
    rw [List.flatMap_cons, List.filter_append, List.filter_filter, ih huris]
    by_cases heq : uri = name
    · subst heq
      simp [hname]
    · have hnone : us.filter (fun u => u.uri == uri && u.uri == name) = [] := by
        refine List.filter_eq_nil_iff.mpr fun u _ hu => heq ?_
        obtain ⟨h₁, h₂⟩ := Bool.and_eq_true_iff.mp hu
        exact (eq_of_beq h₁).symm.trans (eq_of_beq h₂)
      simp [hnone, heq]

theorem filter_byDocument (us : List Update) (uri : String) :
    (byDocument us).filter (·.uri == uri) = us.filter (·.uri == uri) := by
  rw [byDocument, filter_flatMap_documents us (Keyed.nodup_distinct _)]
  split
  · rfl
  · rename_i hnot
    exact (filter_document_eq_nil (mt Keyed.mem_distinct.mpr hnot)).symm

theorem byDocument_perm (us : List Update) : (byDocument us).Perm us := by
  refine List.perm_iff_count.mpr fun u => ?_
  have hfilter : ∀ vs : List Update, (vs.filter (·.uri == u.uri)).count u = vs.count u := fun vs =>
    List.count_filter BEq.rfl
  rw [← hfilter, filter_byDocument, hfilter]

/-- How far a document is with the update that it is at. -/
inductive Stage where
  | idle
  | claimed (u : Update)
  | read (u : Update) (o : Outline)

namespace Stage

/-- The update that a document is at. -/
def update? : Stage → Option Update
  | idle => none
  | claimed u => some u
  | read u _ => some u

/-- What the update has changed so far. -/
def onto : Stage → Workspace → Workspace
  | idle, w => w
  | claimed u, w => w.claimed u
  | read u _, w => w.claimed u

/-- How many steps are left of the update. -/
def left : Stage → Nat
  | idle => 0
  | claimed _ => 2
  | read .. => 1

end Stage

/-- The updates of one document of a batch. -/
structure Task where
  uri : String
  /-- What was decided so far. -/
  outcomes : List (Update × Except UpdateError Outline)
  stage : Stage
  waiting : List Update

/-- What a document does next. It is read with what is in the workspace at that time. -/
inductive Task.Step : Workspace → Task → Workspace → Task → Prop
  | refuse {w uri outcomes u waiting e} (h : w.refusal? u.uri u.version = some e) :
    Step w ⟨uri, outcomes, .idle, u :: waiting⟩ w ⟨uri, outcomes ++ [(u, .error e)], .idle, waiting⟩
  | claim {w uri outcomes u waiting} (h : w.refusal? u.uri u.version = none) :
    Step w ⟨uri, outcomes, .idle, u :: waiting⟩ (w.claimed u) ⟨uri, outcomes, .claimed u, waiting⟩
  | read {w uri outcomes u waiting} :
    Step w ⟨uri, outcomes, .claimed u, waiting⟩ w ⟨uri, outcomes, .read u (w.outlineOf u.uri u.text), waiting⟩
  | commit {w uri outcomes u o waiting} :
    Step w ⟨uri, outcomes, .read u o, waiting⟩ (w.committed u o) ⟨uri, outcomes ++ [(u, .ok o)], .idle, waiting⟩

namespace Task

def IsDone (t : Task) : Prop :=
  t.stage = .idle ∧ t.waiting = []

/-- How many steps are left of the document, at most. -/
def left (t : Task) : Nat :=
  t.stage.left + 3 * t.waiting.length

/-- The workspace as if nothing but what was decided of this document had been taken in. -/
def alone (t : Task) (w₀ : Workspace) : Workspace :=
  (w₀.updateEach (t.outcomes.map (·.1))).2

/-- The document has got on with its updates in their order as if it were alone. -/
structure Tracks (w₀ : Workspace) (us : List Update) (w : Workspace) (t : Task) : Prop where
  order : t.outcomes.map (·.1) ++ (t.stage.update?.toList ++ t.waiting) = us.filter (·.uri == t.uri)
  verdicts : t.outcomes.map verdict = (w₀.updateEach (t.outcomes.map (·.1))).1.map verdict
  accepted : ∀ u ∈ t.stage.update?, (t.alone w₀).refusal? u.uri u.version = none
  standing : w.standing t.uri = (t.stage.onto (t.alone w₀)).standing t.uri

variable {t t' : Task}

theorem Tracks.uri_eq (h : t.Tracks w₀ us w) (hu : u ∈ t.stage.update?.toList ++ t.waiting) : u.uri = t.uri := by
  have hmem : u ∈ us.filter (·.uri == t.uri) := h.order ▸ List.mem_append_right _ hu
  exact eq_of_beq (List.mem_filter.mp hmem).2

/-- Of a document that gets on elsewhere only where it stands matters. -/
theorem Tracks.frame (h : t.Tracks w₀ us w) (hw : w'.standing t.uri = w.standing t.uri) : t.Tracks w₀ us w' :=
  ⟨h.order, h.verdicts, h.accepted, hw.trans h.standing⟩

/-- An update is decided as it would be alone. -/
theorem Tracks.decided {outcome : Except UpdateError Outline} {rest : List Update} (h : t.Tracks w₀ us w)
    (hnext : t.stage.update?.toList ++ t.waiting = u :: rest)
    (houtcome : refusalOf .update outcome = refusalOf .update ((t.alone w₀).update u).1)
    (hw : w'.standing t.uri = ((t.alone w₀).update u).2.standing t.uri) :
    Tracks w₀ us w' ⟨t.uri, t.outcomes ++ [(u, outcome)], .idle, rest⟩ := by
  have hall : (t.outcomes ++ [(u, outcome)]).map (·.1) = t.outcomes.map (·.1) ++ [u] := List.map_append
  refine ⟨?_, ?_, nofun, ?_⟩
  · rw [← h.order, hnext, hall, List.append_assoc]
    rfl
  · rw [hall, updateEach_append, List.map_append, List.map_append, ← h.verdicts]
    refine congrArg (List.append _ [·]) ?_
    rw [verdict, verdict, houtcome]
    rfl
  · rw [Stage.onto, alone, hall, updateEach_append]
    exact hw

/-- A step keeps a document on its track, and changes where no other document stands. -/
theorem Tracks.step (h : t.Tracks w₀ us w) (hstep : Step w t w' t') :
    t'.uri = t.uri ∧ t'.Tracks w₀ us w' ∧
      ∀ other, t.uri ≠ other → w'.standing other = w.standing other := by
  cases hstep with
  | @refuse uri outcomes u waiting e hr =>
    obtain rfl : u.uri = uri := h.uri_eq List.mem_cons_self
    have hrefused := update_refused ((refusal?_congr h.standing u.version).symm.trans hr)
    refine ⟨rfl, h.decided rfl (congrArg (refusalOf .update ·.1) hrefused).symm ?_, fun _ _ => rfl⟩
    exact h.standing.trans (congrArg (·.2.standing u.uri) hrefused).symm
  | @claim uri outcomes u waiting hr =>
    obtain rfl : u.uri = uri := h.uri_eq List.mem_cons_self
    refine ⟨rfl, ⟨h.order, h.verdicts, ?_, standing_claimed_congr h.standing u⟩, fun other hother => ?_⟩
    · rintro _ ⟨⟩
      exact (refusal?_congr h.standing u.version).symm.trans hr
    · rw [standing_claimed, if_neg hother]
  | @read uri outcomes u waiting => exact ⟨rfl, ⟨h.order, h.verdicts, h.accepted, h.standing⟩, fun _ _ => rfl⟩
  | @commit uri outcomes u o waiting =>
    obtain rfl : u.uri = uri := h.uri_eq List.mem_cons_self
    have haccepted := update_eq_committed (h.accepted u rfl)
    refine ⟨rfl, h.decided rfl (congrArg (refusalOf .update ·.1) haccepted).symm ?_, fun other hother => ?_⟩
    · exact (standing_committed_congr h.standing u o _).trans (congrArg (·.2.standing u.uri) haccepted).symm
    · rw [standing_committed, if_neg hother]

theorem Step.left_lt (h : Step w t w' t') : t'.left < t.left := by
  cases h <;> simp only [left, Stage.left, List.length_cons] <;> omega

theorem exists_step (w : Workspace) (t : Task) : t.IsDone ∨ ∃ w' t', Step w t w' t' := by
  obtain ⟨uri, outcomes, stage, waiting⟩ := t
  cases stage with
  | idle =>
    cases waiting with
    | nil => exact .inl ⟨rfl, rfl⟩
    | cons u waiting =>
      cases hr : w.refusal? u.uri u.version with
      | some e => exact .inr ⟨_, _, .refuse hr⟩
      | none => exact .inr ⟨_, _, .claim hr⟩
  | claimed u => exact .inr ⟨_, _, .read⟩
  | read u o => exact .inr ⟨_, _, .commit⟩

/-- The updates of a document before anything is decided. -/
def start (us : List Update) (uri : String) : Task :=
  ⟨uri, [], .idle, us.filter (·.uri == uri)⟩

end Task

/-- A batch that is worked on: the workspace and the documents of the batch, in the order in which they first come. -/
structure Batch where
  workspace : Workspace
  tasks : List Task

namespace Batch

/-- Any document may get on. -/
inductive Step : Batch → Batch → Prop
  | task {w w' before t t' behind} (h : Task.Step w t w' t') :
    Step ⟨w, before ++ t :: behind⟩ ⟨w', before ++ t' :: behind⟩

/-- What a batch may come to by steps of its documents in any order. -/
abbrev Run : Batch → Batch → Prop :=
  Relation.ReflTransGen Step

def start (w : Workspace) (us : List Update) : Batch :=
  ⟨w, (Keyed.distinct (us.map (·.uri))).map (Task.start us)⟩

def IsDone (b : Batch) : Prop :=
  ∀ t ∈ b.tasks, t.IsDone

/-- The outcomes of a batch, document by document. -/
def outcomes (b : Batch) : List (Update × Except UpdateError Outline) :=
  b.tasks.flatMap (·.outcomes)

/-- How many steps are left of a batch, at most. -/
def left (b : Batch) : Nat :=
  sumOf Task.left b.tasks

/-- Each document of a batch gets on as if it were alone, and nothing is changed of other documents. -/
structure Tracks (w₀ : Workspace) (us : List Update) (b : Batch) : Prop where
  documents : b.tasks.map (·.uri) = Keyed.distinct (us.map (·.uri))
  tasks : ∀ t ∈ b.tasks, t.Tracks w₀ us b.workspace
  others : ∀ uri ∉ us.map (·.uri), b.workspace.standing uri = w₀.standing uri

variable {b b' : Batch}

theorem Tracks.start (w : Workspace) (us : List Update) : (start w us).Tracks w us := by
  refine ⟨?_, fun t ht => ?_, fun _ _ => rfl⟩
  · simp [Batch.start, Task.start, Function.comp_def]
  · obtain ⟨uri, -, rfl⟩ := List.mem_map.mp ht
    exact ⟨rfl, rfl, nofun, rfl⟩

theorem Tracks.step (h : b.Tracks w₀ us) (hstep : b.Step b') : b'.Tracks w₀ us := by
  obtain @⟨w, w', before, t, t', behind, hstep⟩ := hstep
  obtain ⟨huri, ht', hframe⟩ := (h.tasks t (List.mem_append_right _ List.mem_cons_self)).step hstep
  have hdocuments := h.documents
  have hnodup : ((before ++ t :: behind).map (·.uri)).Nodup := hdocuments ▸ Keyed.nodup_distinct _
  have hother : ∀ x ∈ before ++ behind, t.uri ≠ x.uri := by
    have hperm : (before ++ t :: behind).Perm (t :: (before ++ behind)) := List.perm_middle
    obtain ⟨hnot, -⟩ := List.nodup_cons.mp ((hperm.map (·.uri)).nodup_iff.mp hnodup)
    exact fun x hx heq => hnot (List.mem_map.mpr ⟨x, hx, heq.symm⟩)
  refine ⟨?_, fun x hx => ?_, fun uri huri' => ?_⟩
  · simpa [huri] using hdocuments
  · rcases List.mem_cons.mp (List.perm_middle.mem_iff.mp hx) with rfl | hx
    · exact ht'
    · have hold : x ∈ before ++ t :: behind := List.perm_middle.mem_iff.mpr (List.mem_cons_of_mem t hx)
      exact (h.tasks x hold).frame (hframe x.uri (hother x hx))
  · refine (hframe uri ?_).trans (h.others uri huri')
    rintro rfl
    have hmem : t.uri ∈ (before ++ t :: behind).map (·.uri) :=
      List.mem_map.mpr ⟨t, List.mem_append_right _ List.mem_cons_self, rfl⟩
    rw [show (before ++ t :: behind).map (·.uri) = _ from hdocuments, Keyed.mem_distinct] at hmem
    exact huri' hmem

theorem Tracks.run (h : b.Tracks w₀ us) (hrun : b.Run b') : b'.Tracks w₀ us := by
  induction hrun with
  | refl => exact h
  | tail _ hstep ih => exact ih.step hstep

/-- All documents that are done stand where their updates one by one would have left them. -/
theorem Tracks.finished (h : b.Tracks w₀ us) (hdone : b.IsDone) :
    b.outcomes.map verdict = (Keyed.distinct (us.map (·.uri))).flatMap
        (fun uri => (w₀.updateEach (us.filter (·.uri == uri))).1.map verdict) ∧
      ∀ uri, b.workspace.standing uri = (w₀.updateEach us).2.standing uri := by
  have hown : ∀ t ∈ b.tasks, t.outcomes.map (·.1) = us.filter (·.uri == t.uri) := by
    intro t ht
    obtain ⟨hidle, hwaiting⟩ := hdone t ht
    have horder := (h.tasks t ht).order
    rwa [hidle, hwaiting, Stage.update?, Option.toList_none, List.append_nil, List.append_nil] at horder
  refine ⟨?_, fun uri => ?_⟩
  · have hverdicts : ∀ t ∈ b.tasks,
        t.outcomes.map verdict = (w₀.updateEach (us.filter (·.uri == t.uri))).1.map verdict :=
      fun t ht => hown t ht ▸ (h.tasks t ht).verdicts
    rw [← h.documents, outcomes, List.map_flatMap, List.flatMap_map]
    exact List.flatMap_congr hverdicts
  · rw [(updateEach_document us (rfl : w₀.standing uri = _)).2]
    by_cases huri : uri ∈ us.map (·.uri)
    · rw [← Keyed.mem_distinct, ← h.documents] at huri
      obtain ⟨t, ht, rfl⟩ := List.mem_map.mp huri
      have hstanding := (h.tasks t ht).standing
      rwa [(hdone t ht).1, Stage.onto, Task.alone, hown t ht] at hstanding
    · rw [filter_document_eq_nil huri]
      exact h.others uri huri

/-- A batch comes to its end: every step leaves less to be done. -/
theorem Step.left_lt (h : b.Step b') : b'.left < b.left := by
  obtain ⟨h⟩ := h
  rw [left, left, sumOf_perm _ List.perm_middle, sumOf_perm _ List.perm_middle]
  exact Nat.add_lt_add_right h.left_lt _

theorem wellFounded_step : WellFounded fun b' b : Batch => b.Step b' :=
  Subrelation.wf Step.left_lt (measure left).wf

/-- Before its end a batch never halts. -/
theorem isDone_or_step (b : Batch) : b.IsDone ∨ ∃ b', b.Step b' := by
  by_cases hdone : b.IsDone
  · exact .inl hdone
  · obtain ⟨w, tasks⟩ := b
    obtain ⟨t, ht, hnot⟩ : ∃ t ∈ tasks, ¬t.IsDone := by simpa [IsDone] using hdone
    obtain ⟨before, behind, rfl⟩ := List.append_of_mem ht
    obtain ⟨w', t', hstep⟩ := (t.exists_step w).resolve_left hnot
    exact .inr ⟨_, .task hstep⟩

/-- A document may be worked on to its end while the others wait. -/
theorem run_task (before behind : List Task) (uri : String) (waiting : List Update) (w : Workspace)
    (outcomes : List (Update × Except UpdateError Outline)) :
    Run ⟨w, before ++ ⟨uri, outcomes, .idle, waiting⟩ :: behind⟩
      ⟨(w.updateEach waiting).2,
        before ++ ⟨uri, outcomes ++ (w.updateEach waiting).1, .idle, []⟩ :: behind⟩ := by
  induction waiting generalizing w outcomes with
  | nil =>
    have hnone : outcomes ++ (w.updateEach []).1 = outcomes := List.append_nil outcomes
    rw [hnone]
    exact .refl
  | cons u waiting ih =>
    have hrest := ih (w.update u).2 (outcomes ++ [(u, (w.update u).1)])
    rw [List.append_assoc, List.singleton_append] at hrest
    rw [updateEach_cons]
    cases hr : w.refusal? u.uri u.version with
    | some e =>
      rw [update_refused hr] at hrest ⊢
      exact .head (.task (.refuse hr)) hrest
    | none =>
      rw [update_eq_committed hr] at hrest ⊢
      exact .head (.task (.claim hr)) (.head (.task .read) (.head (.task .commit) hrest))

/-- The documents may be worked on one after the other. -/
theorem run_tasks (us : List Update) (uris : List String) (before : List Task) (w : Workspace) :
    ∃ after : List Task, (∀ t ∈ after, t.IsDone) ∧
      Run ⟨w, before ++ uris.map (Task.start us)⟩
        ⟨(w.updateEach (uris.flatMap fun uri => us.filter (·.uri == uri))).2, before ++ after⟩ ∧
      after.flatMap (·.outcomes) = (w.updateEach (uris.flatMap fun uri => us.filter (·.uri == uri))).1 := by
  induction uris generalizing before w with
  | nil => exact ⟨[], List.forall_mem_nil _, .refl, rfl⟩
  | cons uri uris ih =>
    have hfirst := run_task before (uris.map (Task.start us)) uri (us.filter (·.uri == uri)) w []
    rw [List.nil_append] at hfirst
    let t : Task := ⟨uri, (w.updateEach (us.filter (·.uri == uri))).1, .idle, []⟩
    obtain ⟨after, hdone, hrun, houtcomes⟩ := ih (before ++ [t]) (w.updateEach (us.filter (·.uri == uri))).2
    rw [List.append_assoc, List.append_assoc, List.singleton_append, List.singleton_append] at hrun
    refine ⟨t :: after, List.forall_mem_cons.mpr ⟨⟨rfl, rfl⟩, hdone⟩, ?_, ?_⟩
    · rw [List.flatMap_cons, updateEach_append]
      exact hfirst.trans hrun
    · rw [List.flatMap_cons, List.flatMap_cons, updateEach_append, houtcomes]

/-- Taking in a batch document by document is one of its runs. -/
theorem exists_run (w : Workspace) (us : List Update) : ∃ b, (start w us).Run b ∧ b.IsDone ∧
    b.workspace = (w.updateMany us).2 ∧ b.outcomes = (w.updateMany us).1 := by
  obtain ⟨after, hdone, hrun, houtcomes⟩ := run_tasks us (Keyed.distinct (us.map (·.uri))) [] w
  exact ⟨_, hrun, hdone, rfl, houtcomes⟩

end Batch

/-- A batch decides like its updates one by one. It has one outcome for each update; those of one document come in the
order given, and are decided for the same reasons as if the whole list had been taken in one by one, and each document
is left at the same newest and the same published version. It does not matter how the documents are worked on: every run
of the batch comes to an end, never halts before, and has the same verdicts and leaves the same versions then. -/
theorem batch_decides_like_each (w : Workspace) (us : List Update) :
    let each := w.updateEach us
    let many := w.updateMany us
    many.1.map (·.1) = byDocument us ∧ (byDocument us).Perm us ∧
    (∀ uri, (many.1.filter (·.1.uri == uri)).map (·.1) = us.filter (·.uri == uri) ∧
      (many.1.filter (·.1.uri == uri)).map verdict = (each.1.filter (·.1.uri == uri)).map verdict ∧
      many.2.standing uri = each.2.standing uri) ∧
    (∃ b, (Batch.start w us).Run b ∧ b.IsDone ∧ b.workspace = many.2 ∧ b.outcomes = many.1) ∧
    (WellFounded fun b' b : Batch => b.Step b') ∧
    ∀ b, (Batch.start w us).Run b → (b.IsDone ∨ ∃ b', b.Step b') ∧
      (b.IsDone → b.outcomes.map verdict = many.1.map verdict ∧
        ∀ uri, b.workspace.standing uri = each.2.standing uri) := by
  intro each many
  have hfinished : ∀ {b : Batch}, (Batch.start w us).Run b → b.IsDone → _ := fun hrun hdone =>
    ((Batch.Tracks.start w us).run hrun).finished hdone
  have hupdates : many.1.map (·.1) = byDocument us := updateEach_updates w _
  obtain ⟨b₀, hrun₀, hdone₀, hworkspace, houtcomes⟩ := Batch.exists_run w us
  refine ⟨hupdates, byDocument_perm us, fun uri => ⟨?_, ?_, ?_⟩, ⟨b₀, hrun₀, hdone₀, hworkspace, houtcomes⟩,
    Batch.wellFounded_step, fun b hrun => ⟨b.isDone_or_step, fun hdone => ⟨?_, (hfinished hrun hdone).2⟩⟩⟩
  · rw [← filter_byDocument us uri, ← hupdates, List.filter_map]
    rfl
  · have hmany := (updateEach_document (byDocument us) (rfl : w.standing uri = _)).1
    rw [filter_byDocument] at hmany
    exact hmany.trans (updateEach_document us rfl).1.symm
  · exact hworkspace ▸ (hfinished hrun₀ hdone₀).2 uri
  · rw [(hfinished hrun hdone).1, ← (hfinished hrun₀ hdone₀).1, houtcomes]

/-- For instance one document with a version that comes twice. -/
theorem batch_decides_like_each_twice :
    let w := new .default .empty
    let us : List Update := [⟨"a", 1, "1"⟩, ⟨"b", 1, "2"⟩, ⟨"a", 1, "3"⟩, ⟨"a", 2, "4"⟩]
    (w.updateMany us).1.map verdict = [(⟨"a", 1, "1"⟩, none), (⟨"a", 1, "3"⟩, some (.update (.outOfOrder "a" 1 1))),
      (⟨"a", 2, "4"⟩, none), (⟨"b", 1, "2"⟩, none)] ∧
    (w.updateMany us).2.standing "a" = (w.updateEach us).2.standing "a" := by
  intro w us
  obtain ⟨-, -, heach, -⟩ := batch_decides_like_each w us
  exact ⟨by decide +kernel, (heach "a").2.2⟩

end Workspace

end Calculation
