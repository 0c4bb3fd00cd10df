import Calculation.Proofs.Workspace.Coherence

/-!
Where cached outlines come from. In every run the outline that is cached of a document goes back, edit by edit, to an
outline that was read as a whole, and all of them were made with the functions that the workspace knows now; its
diagnostics are those of the update that it came with.
-/
namespace Calculation

namespace Outline

/-- The outlines of a document that is read with the same options and edited from time to time. -/
inductive Lineage (options : Options) : String → Outline → Prop
  | read (text : String) : Lineage options text (ofText options text)
  | again (threshold : Nat) {old : String} {previous : Outline} (h : Lineage options old previous) (new : String) :
    Lineage options new (reparse options threshold old previous new)

/-- A text is read again as if there had been other diagnostics before, but for those that stay. -/
theorem reparse_diagnostics (options : Options) (threshold : Nat) (old : String) (previous : Outline)
    (before : List Diagnostic) (new : String) (diagnostics : List Diagnostic) :
    { reparse options threshold old { previous with diagnostics := before } new with diagnostics := diagnostics } =
      { reparse options threshold old previous new with diagnostics := diagnostics } := by
  unfold reparse reparse?
  cases LineChange.between? old.toList new.toList with
  | none => rfl
  | some change =>
    have hsame : Splice.attempt options false old.toList { previous with diagnostics := before } new.toList
        (.ofText new.toList) change = Splice.attempt options false old.toList previous new.toList
        (.ofText new.toList) change := Splice.attempt_congr options false _ _ _ _ rfl rfl
    dsimp only
    rw [hsame]

end Outline

namespace Workspace

variable {w : Workspace} {a : Action} {uri : String} {e : CacheEntry}

/-- What an entry of the cache is after an action: it was made by an update that was taken in, or it was there before
and the functions are the same. -/
theorem Coherent.entries_step (h : w.Coherent) (ha : ∀ us, a ≠ .updateMany us)
    (he : (uri, e) ∈ (w.step a).2.cache.entries) :
    (w.step a).2.signatures = w.signatures ∧
      ((uri, e) ∈ w.cache.entries ∨ ∃ u, a = .update u ∧ u.uri = uri ∧ w.refusal? uri u.version = none ∧
        e = ⟨u.version, u.text, w.outlineOf uri u.text⟩) := by
  cases a with
  | update u =>
    cases hr : w.refusal? u.uri u.version with
    | some e' =>
      have hsame : (w.step (.update u)).2 = w := congrArg Prod.snd (update_refused hr)
      rw [hsame] at he ⊢
      exact ⟨rfl, .inl he⟩
    | none =>
      simp only [Workspace.step, Workspace.update, hr] at he
      refine ⟨by simp [Workspace.step, Workspace.update, hr], ?_⟩
      rcases h.counted.entries_apply (a := .insert u.uri _) he with hsame | ⟨hbefore, -⟩
      · cases hsame
        exact .inr ⟨u, rfl, rfl, hr, rfl⟩
      · exact .inl hbefore
  | updateMany us => exact absurd rfl (ha us)
  | close other =>
    have hothers : (uri, e) ∈ w.cache.others other := Cache.remove_entries w.cache other ▸ he
    exact ⟨rfl, .inl (Keyed.mem_erase.mp hothers).1⟩
  | setSettings s =>
    rcases step_setSettings w s with hs | hs
    · rw [hs] at he ⊢
      exact ⟨rfl, .inl he⟩
    · rw [hs] at he ⊢
      exact ⟨rfl, .inl (h.entries_subset (a := .setLimits ..) rfl he)⟩
  | setSignatures t => cases he
  | loadSignatures text =>
    rcases step_loadSignatures w text with ht | ⟨t, ht⟩
    · rw [ht] at he ⊢
      exact ⟨rfl, .inl he⟩
    · rw [ht] at he
      cases he
  | schedule r now => exact ⟨rfl, .inl he⟩
  | ready now => exact ⟨rfl, .inl he⟩
  | outline other => exact ⟨rfl, .inl (h.entries_subset (a := .get other) rfl he)⟩
  | outlineAt other version => exact ⟨rfl, .inl (h.entries_subset (a := .get other) rfl he)⟩
  | look => exact ⟨rfl, .inl he⟩
  | shutDown => cases he

/-- How a workspace reads: with the functions that it knows. -/
def options (w : Workspace) : Options :=
  { Options.default with signatures := w.signatures }

/-- An entry goes back to a text read as a whole; only the diagnostics are its own. -/
def Descends (w : Workspace) (e : CacheEntry) : Prop :=
  ∃ o, Outline.Lineage w.options e.text o ∧ e.outline = { o with diagnostics := e.outline.diagnostics }

/-- An outline that is made from a cached one goes back where that does. -/
theorem descends_outlineOf (uri : String) (h : ∀ e, (uri, e) ∈ w.cache.entries → w.Descends e) (version : Int)
    (text : String) : w.Descends ⟨version, text, w.outlineOf uri text⟩ := by
  unfold outlineOf
  cases hp : w.cache.peek? uri with
  | none => exact ⟨_, .read text, rfl⟩
  | some e =>
    obtain ⟨o, ho, he⟩ := h e (Cache.mem_of_peek? hp)
    refine ⟨_, .again w.settings.spliceThreshold ho text, ?_⟩
    dsimp only
    rw [he]
    exact Outline.reparse_diagnostics w.options _ e.text o _ text _

theorem Descends.of_signatures {w' : Workspace} (h : w.Descends e) (hs : w'.signatures = w.signatures) :
    w'.Descends e := by
  unfold Descends options
  rw [hs]
  exact h

variable {settings : Settings} {signatures : SignatureTable} {past : List Action}

/-- Each entry was made by an update of the run, and nothing since has taken the functions away that it was made with. -/
theorem ran_entry (hsingle : ∀ a ∈ past, ∀ us, a ≠ .updateMany us)
    (he : (uri, e) ∈ (ran settings signatures past).cache.entries) :
    (ran settings signatures past).Descends e ∧
      ∃ later earlier, past = later ++ .update ⟨uri, e.version, e.text⟩ :: earlier ∧
        ((ran settings signatures earlier).update ⟨uri, e.version, e.text⟩).1 = .ok e.outline ∧
        e.outline.diagnostics =
          validate e.outline (ran settings signatures past).signatures
            (ran settings signatures earlier).settings.validation := by
  induction past generalizing uri e with
  | nil => cases he
  | cons a past ih =>
    obtain ⟨ha, hpast⟩ := List.forall_mem_cons.mp hsingle
    have hcoherent := ran_coherent settings signatures past
    obtain ⟨hsame, hbefore | ⟨u, rfl, rfl, hr, rfl⟩⟩ := hcoherent.entries_step ha he
    · obtain ⟨hdescends, later, earlier, hsplit, hupdate, hdiagnostics⟩ := ih hpast hbefore
      refine ⟨hdescends.of_signatures hsame, a :: later, earlier, ?_, hupdate, ?_⟩
      · rw [hsplit, List.cons_append]
      · rw [hdiagnostics]
        exact congrArg (validate e.outline · _) hsame.symm
    · have hdescends := descends_outlineOf u.uri (fun e he => (ih hpast he).1) u.version u.text
      refine ⟨hdescends.of_signatures hsame, [], past, rfl, update_accepted hr, ?_⟩
      exact congrArg (validate _ · _) hsame.symm

/-- In every run, whatever is cached of a document goes back to a text that was read as a whole, by readings of the
edited text that each start from the text and outline before it; all of them used the functions that the workspace knows
now, and the last text is the one of the entry. The entry came with an update that was taken in, of that version and
text, and its diagnostics are what validation finds with these functions and with the settings of that time. -/
theorem cached_descends (h : (ran settings signatures past).cache.peek? uri = some e) :
    let w := ran settings signatures past
    (∃ o, Outline.Lineage { Options.default with signatures := w.signatures } e.text o ∧
      e.outline = { o with diagnostics := e.outline.diagnostics }) ∧
    ∃ later earlier, past.flatMap Action.parts = later ++ .update ⟨uri, e.version, e.text⟩ :: earlier ∧
      ((ran settings signatures earlier).update ⟨uri, e.version, e.text⟩).1 = .ok e.outline ∧
      e.outline.diagnostics =
        validate e.outline w.signatures (ran settings signatures earlier).settings.validation := by
  have hsingle : ∀ b ∈ past.flatMap Action.parts, ∀ us, b ≠ .updateMany us := by
    intro b hb
    obtain ⟨a, -, hab⟩ := List.mem_flatMap.mp hb
    exact Action.parts_single hab
  have hran : ran settings signatures (past.flatMap Action.parts) = ran settings signatures past :=
    after_flatMap_parts (new settings signatures) past
  have hentry := Cache.mem_of_peek? h
  rw [← hran] at hentry ⊢
  exact ran_entry hsingle hentry

/-- For instance an edit after the functions have been replaced. -/
theorem cached_descends_after_swap :
    let past : List Action := [.updateMany [⟨"a", 3, "F(2)"⟩, ⟨"a", 4, "F(3)"⟩], .setSignatures .empty, .update ⟨"a", 1, "F(1)"⟩]
    ∃ e, (ran .default .builtin past).cache.peek? "a" = some e ∧ e.version = 4 ∧
      ∃ o, Outline.Lineage { Options.default with signatures := .empty } e.text o ∧
        e.outline = { o with diagnostics := e.outline.diagnostics } := by
  intro past
  have hversion : ((ran .default .builtin past).cache.peek? "a").map (·.version) = some 4 := by decide +kernel
  obtain ⟨e, he, hv⟩ := Option.map_eq_some_iff.mp hversion
  exact ⟨e, he, hv, (cached_descends he).1⟩

end Workspace

end Calculation
