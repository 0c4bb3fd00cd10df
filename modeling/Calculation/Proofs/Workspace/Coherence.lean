import Calculation.Proofs.Workspace.Cache
import Calculation.Proofs.Workspace.Runs

/-!
Versions, cached outlines and published diagnostics of a workspace go together in every run. What is published of a
document has the newest version that was taken in, and what is cached has that version and just those diagnostics; a
workspace that was shut down holds nothing of either any more.
-/
namespace Calculation.Workspace

/-- The stores of a workspace agree. -/
structure Coherent (w : Workspace) : Prop where
  counted : w.cache.Counted
  published : ∀ uri, (w.published.get? uri).map (·.version) = w.latest? uri
  cached : ∀ uri e, (uri, e) ∈ w.cache.entries → w.published.get? uri = some ⟨e.version, e.outline.diagnostics⟩
  shut : w.isShutDown = true → w.cache.entries = [] ∧ w.published.entries = [] ∧ w.versions = []

variable {w w' : Workspace} {u : Update} {a : Action} {past : List Action}

/-- Where only the cache has changed, and holds nothing new, the stores still agree. -/
theorem Coherent.of_fewer (h : w.Coherent) (hv : w'.versions = w.versions) (hp : w'.published = w.published)
    (hs : w'.isShutDown = w.isShutDown) (hc : w'.cache.Counted) (hsub : w'.cache.entries ⊆ w.cache.entries) :
    w'.Coherent := by
  refine ⟨hc, ?_, ?_, ?_⟩
  · intro uri
    rw [latest?, hp, hv]
    exact h.published uri
  · intro uri e he
    rw [hp]
    exact h.cached uri e (hsub he)
  · intro hshut
    obtain ⟨hentries, hpublished, hversions⟩ := h.shut (hs ▸ hshut)
    refine ⟨?_, hp ▸ hpublished, hv ▸ hversions⟩
    exact List.subset_nil.mp (hentries ▸ hsub)

theorem Coherent.new (settings : Settings) (signatures : SignatureTable) : (new settings signatures).Coherent :=
  ⟨⟨rfl, .nil, nofun⟩, fun _ => rfl, nofun, nofun⟩

/-- What is published is never newer than an update that is taken in. -/
theorem Coherent.not_stale (h : w.Coherent) (hr : w.refusal? u.uri u.version = none) :
    w.published.isStale u.uri u.version = false := by
  unfold Published.isStale
  cases hp : w.published.get? u.uri with
  | none => rfl
  | some p =>
    have hlatest := h.published u.uri
    rw [hp] at hlatest
    have hlt := (refusal?_eq_none.mp hr).2 p.version hlatest.symm
    simp only [Option.any_some, decide_eq_false_iff_not, Int.not_lt]
    exact Int.le_of_lt hlt

/-- An update that is taken in is published. -/
theorem Coherent.get?_publish (h : w.Coherent) (hr : w.refusal? u.uri u.version = none) (p : List Diagnostic)
    (uri : String) : (w.published.publish u.uri ⟨u.version, p⟩).get? uri =
      if u.uri = uri then some ⟨u.version, p⟩ else w.published.get? uri := by
  simp [Published.publish, h.not_stale hr, Published.get?]

theorem Coherent.update (h : w.Coherent) (u : Update) : (w.update u).2.Coherent := by
  cases hr : w.refusal? u.uri u.version with
  | some e => exact (congrArg Prod.snd (update_refused hr)).symm ▸ h
  | none =>
    have hget := h.get?_publish hr (w.outlineOf u.uri u.text).diagnostics
    simp only [Workspace.update, hr]
    refine ⟨h.counted.apply (.insert u.uri _), ?_, ?_, ?_⟩
    · intro uri
      simp only [latest?, Keyed.find?_put, hget]
      split
      · rfl
      · exact h.published uri
    · intro uri e he
      simp only [hget]
      rcases h.counted.entries_apply (a := .insert u.uri _) he with hsame | ⟨hbefore, hother⟩
      · cases hsame
        exact if_pos rfl
      · have hne : u.uri ≠ uri := by
          rintro rfl
          exact hother _ rfl
        rw [if_neg hne]
        exact h.cached uri e hbefore
    · intro hshut
      rw [(refusal?_eq_none.mp hr).1] at hshut
      cases hshut

theorem Coherent.close (h : w.Coherent) (uri : String) : (w.close uri).Coherent := by
  refine ⟨h.counted.remove uri, ?_, ?_, ?_⟩
  · intro other
    simp only [Workspace.close, Published.clear, Published.get?, latest?, Keyed.find?_erase]
    split
    · rfl
    · exact h.published other
  · intro other e he
    have hothers : (other, e) ∈ w.cache.others uri := Cache.remove_entries w.cache uri ▸ he
    obtain ⟨hbefore, hne⟩ := Keyed.mem_erase.mp hothers
    simp only [Workspace.close, Published.clear, Published.get?, Keyed.find?_erase, if_neg (Ne.symm hne)]
    exact h.cached other e hbefore
  · intro hshut
    obtain ⟨hentries, hpublished, hversions⟩ := h.shut hshut
    refine ⟨?_, ?_, ?_⟩
    · show (w.cache.remove uri).2.entries = []
      rw [Cache.remove_entries, Cache.others, hentries]
      rfl
    · simp [Workspace.close, Published.clear, hpublished, Keyed.erase]
    · simp [Workspace.close, hversions, Keyed.erase]

theorem Coherent.shutDown (w : Workspace) : w.shutDown.Coherent :=
  ⟨⟨rfl, .nil, nofun⟩, fun _ => rfl, nofun, fun _ => ⟨rfl, rfl, rfl⟩⟩

/-- What the cache may hold after it has been looked into, or its limits have been changed. -/
theorem Coherent.entries_subset (h : w.Coherent) {a : Cache.Action} (ha : a.stored? = none) :
    (w.cache.apply a).entries ⊆ w.cache.entries := by
  rintro ⟨uri, e⟩ he
  rcases h.counted.entries_apply he with rfl | ⟨hbefore, -⟩
  · cases ha
  · exact hbefore

/-- Settings are refused, or hold at once. -/
theorem step_setSettings (w : Workspace) (s : Settings) :
    (w.step (.setSettings s)).2 = w ∨
      (w.step (.setSettings s)).2 =
        { w with
          settings := s
          cache := w.cache.apply (.setLimits s.maxEntries s.memoryBytes)
          requests := w.requests.setDelays s.delays } := by
  simp only [Workspace.step, setSettings]
  split
  · exact .inl rfl
  · rename_i s' hs
    cases Settings.eq_of_check hs
    exact .inr rfl

/-- Functions are refused, or known at once. -/
theorem step_loadSignatures (w : Workspace) (text : String) :
    (w.step (.loadSignatures text)).2 = w ∨ ∃ t, (w.step (.loadSignatures text)).2 = w.setSignatures t := by
  simp only [Workspace.step, loadSignatures]
  cases SignatureTable.read text with
  | error e => exact .inl rfl
  | ok t => exact .inr ⟨_, rfl⟩

theorem Coherent.setSignatures (h : w.Coherent) (t : SignatureTable) : (w.setSignatures t).Coherent :=
  h.of_fewer rfl rfl rfl (h.counted.apply .clear) (h.entries_subset (a := .clear) rfl)

theorem Coherent.step (h : w.Coherent) (ha : ∀ us, a ≠ .updateMany us) : (w.step a).2.Coherent := by
  cases a with
  | update u => exact h.update u
  | updateMany us => exact absurd rfl (ha us)
  | close uri => exact h.close uri
  | setSettings s =>
    rcases step_setSettings w s with hs | hs
    · exact hs.symm ▸ h
    · have hcache := h.counted.apply (.setLimits s.maxEntries s.memoryBytes)
      rw [hs]
      exact h.of_fewer rfl rfl rfl hcache (h.entries_subset (a := .setLimits ..) rfl)
  | setSignatures t => exact h.setSignatures t
  | loadSignatures text =>
    rcases step_loadSignatures w text with ht | ⟨t, ht⟩
    · exact ht.symm ▸ h
    · exact ht.symm ▸ h.setSignatures t
  | schedule r now => exact h.of_fewer rfl rfl rfl h.counted (List.Subset.refl _)
  | ready now => exact h.of_fewer rfl rfl rfl h.counted (List.Subset.refl _)
  | outline uri => exact h.of_fewer rfl rfl rfl (h.counted.apply (.get uri)) (h.entries_subset (a := .get uri) rfl)
  | outlineAt uri version =>
    exact h.of_fewer rfl rfl rfl (h.counted.apply (.get uri)) (h.entries_subset (a := .get uri) rfl)
  | look => exact h
  | shutDown => exact .shutDown w

theorem ran_coherent (settings : Settings) (signatures : SignatureTable) (past : List Action) :
    (ran settings signatures past).Coherent :=
  after_induction (fun _ _ h ha => h.step ha) (.new settings signatures) past

theorem update_isShutDown (w : Workspace) (u : Update) : (w.update u).2.isShutDown = w.isShutDown := by
  unfold Workspace.update
  split <;> rfl

theorem updateEach_isShutDown (w : Workspace) (us : List Update) : (w.updateEach us).2.isShutDown = w.isShutDown := by
  induction us generalizing w with
  | nil => rfl
  | cons u us ih => exact (ih (w.update u).2).trans (update_isShutDown w u)

theorem step_isShutDown (w : Workspace) (a : Action) :
    (w.step a).2.isShutDown = true ↔ w.isShutDown = true ∨ a = .shutDown := by
  cases a with
  | update u => simp [Workspace.step, update_isShutDown]
  | updateMany us => simp [Workspace.step, updateMany, updateEach_isShutDown]
  | setSettings s =>
    rcases step_setSettings w s with hs | hs
    · simp [hs]
    · simp [hs]
  | loadSignatures text =>
    rcases step_loadSignatures w text with ht | ⟨t, ht⟩
    · simp [ht]
    · simp [ht, Workspace.setSignatures]
  | shutDown => simp [Workspace.step, Workspace.shutDown]
  | _ => simp [Workspace.step, Workspace.close, Workspace.setSignatures, schedule, Workspace.ready, outline?, outlineAt?]

/-- A workspace is shut down from the first time on that it was asked to be. -/
theorem ran_isShutDown (settings : Settings) (signatures : SignatureTable) (past : List Action) :
    (ran settings signatures past).isShutDown = true ↔ .shutDown ∈ past := by
  induction past with
  | nil => simp [ran, after, Workspace.new]
  | cons a past ih =>
    refine (step_isShutDown _ a).trans ?_
    rw [List.mem_cons, eq_comm (a := a)]
    exact (or_congr_left ih).trans or_comm

/-- In every run of a workspace: what is published of a document has the newest version taken in of it, and nothing is
published of other documents; a cached outline has that version, and its diagnostics are the published ones. An update is
taken in just when the workspace has not been shut down and the update is newer than all before it, and this goes for
each update of a batch in its turn. An action that is refused changes nothing at all. From a shut-down on, nothing is
cached or published and no version is known. -/
theorem stores_coherent (settings : Settings) (signatures : SignatureTable) (past : List Action) :
    let w := ran settings signatures past
    (∀ uri, (w.published.get? uri).map (·.version) = w.latest? uri) ∧
    (∀ uri e, w.cache.peek? uri = some e →
      w.latest? uri = some e.version ∧ w.published.get? uri = some ⟨e.version, e.outline.diagnostics⟩) ∧
    (∀ u, (∃ o, (w.update u).1 = .ok o) ↔
      .shutDown ∉ past ∧ ∀ latest, w.latest? u.uri = some latest → latest < u.version) ∧
    (∀ us before u rest, byDocument us = before ++ u :: rest →
      (w.updateMany us).1[before.length]? = some (u, ((w.after (before.map .update).reverse).update u).1)) ∧
    (∀ a e, (w.step a).1 = some e → (w.step a).2 = w) ∧
    (.shutDown ∈ past → w.isShutDown = true ∧ w.cache.entries = [] ∧ w.published.entries = [] ∧ w.versions = []) := by
  intro w
  have hcoherent : w.Coherent := ran_coherent settings signatures past
  have hshut : w.isShutDown = true ↔ .shutDown ∈ past := ran_isShutDown settings signatures past
  refine ⟨hcoherent.published, ?_, ?_, ?_, ?_, ?_⟩
  · intro uri e he
    have hp := hcoherent.cached uri e (Cache.mem_of_peek? he)
    have hlatest := hcoherent.published uri
    rw [hp] at hlatest
    exact ⟨hlatest.symm, hp⟩
  · intro u
    rw [← hshut, Bool.not_eq_true, ← refusal?_eq_none]
    cases hr : w.refusal? u.uri u.version with
    | none => simp [update_accepted hr]
    | some e => simp [update_refused hr]
  · intro us before u rest hus
    have houtcome := updateEach_outcome w before u rest
    rwa [← hus] at houtcome
  · intro a e ha
    exact step_refused ha
  · intro hpast
    exact ⟨hshut.mpr hpast, hcoherent.shut (hshut.mpr hpast)⟩

/-- For instance a version that came too late. -/
theorem stores_coherent_too_late :
    let w := ran .default .empty [.update ⟨"a", 1, "2"⟩, .update ⟨"a", 2, "1"⟩]
    w.latest? "a" = some 2 ∧ (w.published.get? "a").map (·.version) = some 2 ∧
      ∃ o, (w.update ⟨"a", 3, "3"⟩).1 = .ok o := by
  intro w
  have hlatest : w.latest? "a" = some 2 := by decide +kernel
  obtain ⟨hpublished, -, haccepted, -⟩ := stores_coherent .default .empty _
  refine ⟨hlatest, (hpublished "a").trans hlatest, (haccepted ⟨"a", 3, "3"⟩).mpr ⟨by decide, ?_⟩⟩
  intro latest h
  obtain rfl : (2 : Int) = latest := Option.some.inj (hlatest.symm.trans h)
  decide

end Calculation.Workspace
