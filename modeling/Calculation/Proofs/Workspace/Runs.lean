import Calculation.Workspace.Basic

namespace Calculation.Workspace

/-- What can be asked of a workspace. -/
inductive Action where
  | update (u : Update)
  | updateMany (us : List Update)
  | close (uri : String)
  | setSettings (s : Settings)
  | setSignatures (t : SignatureTable)
  | loadSignatures (text : String)
  | schedule (r : Request) (now : Nat)
  | ready (now : Nat)
  | outline (uri : String)
  | outlineAt (uri : String) (version : Int)
  /-- To ask for what is published, for versions, settings, functions or deadlines. -/
  | look
  | shutDown
deriving DecidableEq, Repr

/-- Why an action was refused. -/
inductive Refusal where
  | update (e : UpdateError)
  | settings (e : SettingsError)
  | signatures (e : SignatureError)
deriving DecidableEq, Repr

/-- Why a change was refused, if it was. -/
def refusalOf {ε α : Type} (refusal : ε → Refusal) : Except ε α → Option Refusal
  | .error e => some (refusal e)
  | .ok _ => none

/-- The workspace after an action, and why the action was refused, if it was. A batch is not refused as a whole. -/
def step (w : Workspace) : Action → Option Refusal × Workspace
  | .update u => (refusalOf .update (w.update u).1, (w.update u).2)
  | .updateMany us => (none, (w.updateMany us).2)
  | .close uri => (none, w.close uri)
  | .setSettings s => (refusalOf .settings (w.setSettings s).1, (w.setSettings s).2)
  | .setSignatures t => (none, w.setSignatures t)
  | .loadSignatures text => (refusalOf .signatures (w.loadSignatures text).1, (w.loadSignatures text).2)
  | .schedule r now => (none, w.schedule r now)
  | .ready now => (none, (w.ready now).2)
  | .outline uri => (none, (w.outline? uri).2)
  | .outlineAt uri version => (none, (w.outlineAt? uri version).2)
  | .look => (none, w)
  | .shutDown => (none, w.shutDown)

/-- The workspace after actions, of which the latest comes first. -/
def after (w : Workspace) : List Action → Workspace
  | [] => w
  | a :: past => ((w.after past).step a).2

/-- A new workspace after the actions of its past, of which the latest comes first. -/
def ran (settings : Settings) (signatures : SignatureTable) (past : List Action) : Workspace :=
  (new settings signatures).after past

/-- The actions that one action stands for: a batch for its updates, document by document, the latest first. -/
def Action.parts : Action → List Action
  | updateMany us => ((byDocument us).map .update).reverse
  | a => [a]

variable {w : Workspace} {u : Update} {a : Action} {past : List Action}

theorem after_append (w : Workspace) (later past : List Action) :
    w.after (later ++ past) = (w.after past).after later := by
  induction later with
  | nil => rfl
  | cons a later ih => simp [after, ih]

theorem update_refused {e : UpdateError} (h : w.refusal? u.uri u.version = some e) : w.update u = (.error e, w) := by
  simp [update, h]

theorem update_accepted (h : w.refusal? u.uri u.version = none) :
    (w.update u).1 = .ok (w.outlineOf u.uri u.text) := by
  simp [update, h]

theorem refusal?_eq_none {uri : String} {version : Int} :
    w.refusal? uri version = none ↔
      w.isShutDown = false ∧ ∀ latest, w.latest? uri = some latest → latest < version := by
  unfold refusal?
  cases w.isShutDown with
  | true => simp
  | false =>
    cases w.latest? uri with
    | none => simp
    | some latest => simp

theorem refusalOf_eq_some {ε α : Type} {refusal : ε → Refusal} {r : Except ε α} {e : Refusal}
    (h : refusalOf refusal r = some e) : ∃ e', r = .error e' := by
  cases r with
  | error e' => exact ⟨e', rfl⟩
  | ok a => cases h

/-- A refused update leaves the workspace as it was. -/
theorem update_of_error {e : UpdateError} (h : (w.update u).1 = .error e) : (w.update u).2 = w := by
  unfold update at h ⊢
  split at h
  · rfl
  · cases h

/-- Refused settings leave the workspace as it was. -/
theorem setSettings_of_error {s : Settings} {e : SettingsError} (h : (w.setSettings s).1 = .error e) :
    (w.setSettings s).2 = w := by
  unfold setSettings at h ⊢
  split at h
  · rfl
  · cases h

/-- Refused functions leave the workspace as it was. -/
theorem loadSignatures_of_error {text : String} {e : SignatureError} (h : (w.loadSignatures text).1 = .error e) :
    (w.loadSignatures text).2 = w := by
  unfold loadSignatures at h ⊢
  split at h
  · rfl
  · cases h

/-- Only an action that is not refused changes anything. -/
theorem step_refused {e : Refusal} (h : (w.step a).1 = some e) : (w.step a).2 = w := by
  cases a with
  | update u =>
    obtain ⟨e', he⟩ := refusalOf_eq_some h
    exact update_of_error he
  | setSettings s =>
    obtain ⟨e', he⟩ := refusalOf_eq_some h
    exact setSettings_of_error he
  | loadSignatures text =>
    obtain ⟨e', he⟩ := refusalOf_eq_some h
    exact loadSignatures_of_error he
  | _ => cases h

theorem updateEach_state (w : Workspace) (us : List Update) :
    (w.updateEach us).2 = w.after (us.map .update).reverse := by
  induction us generalizing w with
  | nil => rfl
  | cons u us ih =>
    rw [List.map_cons, List.reverse_cons, after_append]
    simp only [updateEach, after, step]
    exact ih (w.update u).2

theorem updateEach_outcome (w : Workspace) (before : List Update) (u : Update) (rest : List Update) :
    (w.updateEach (before ++ u :: rest)).1[before.length]? =
      some (u, ((w.after (before.map .update).reverse).update u).1) := by
  induction before generalizing w with
  | nil => rfl
  | cons b before ih =>
    rw [List.map_cons, List.reverse_cons, after_append]
    simp only [updateEach, after, step, List.cons_append, List.length_cons, List.getElem?_cons_succ]
    exact ih (w.update b).2

theorem Action.parts_single {b : Action} (h : b ∈ a.parts) : ∀ us, b ≠ .updateMany us := by
  cases a with
  | updateMany us =>
    obtain ⟨u, -, rfl⟩ := List.mem_map.mp (List.mem_reverse.mp h)
    exact nofun
  | _ =>
    cases List.mem_singleton.mp h
    exact nofun

/-- An action does what its parts do one by one. -/
theorem after_parts (w : Workspace) (a : Action) : w.after a.parts = (w.step a).2 := by
  cases a with
  | updateMany us => exact (updateEach_state w (byDocument us)).symm
  | _ => rfl

theorem after_flatMap_parts (w : Workspace) (past : List Action) : w.after (past.flatMap Action.parts) = w.after past := by
  induction past with
  | nil => rfl
  | cons a past ih =>
    rw [List.flatMap_cons, after_append, ih, after_parts]
    rfl

/-- A property of a new workspace that every action but a batch keeps holds after every run. -/
theorem after_induction {P : Workspace → Prop} (hstep : ∀ w a, P w → (∀ us, a ≠ .updateMany us) → P (w.step a).2)
    (hw : P w) (past : List Action) : P (w.after past) := by
  have hsingle : ∀ past : List Action, (∀ a ∈ past, ∀ us, a ≠ .updateMany us) → P (w.after past) := by
    intro past
    induction past with
    | nil => exact fun _ => hw
    | cons a past ih =>
      intro h
      obtain ⟨ha, hpast⟩ := List.forall_mem_cons.mp h
      exact hstep _ a (ih hpast) ha
  rw [← after_flatMap_parts]
  apply hsingle
  intro b hb
  obtain ⟨a, -, hab⟩ := List.mem_flatMap.mp hb
  exact Action.parts_single hab

end Calculation.Workspace
