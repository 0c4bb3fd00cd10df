import Calculation.Edit.Splice
import Calculation.Signature.Reader
import Calculation.Workspace.Cache
import Calculation.Workspace.Published
import Calculation.Workspace.RequestQueue

/-!
The workspace: the open documents, each with the newest version that was taken in, its cached outline and its
published diagnostics, and the requests that wait.
-/
namespace Calculation

structure Workspace where
  settings : Settings
  signatures : SignatureTable
  cache : Cache
  /-- The newest version taken in of each open document. -/
  versions : List (String × Int)
  published : Published
  requests : RequestQueue
  isShutDown : Bool
deriving DecidableEq, Repr, Inhabited

inductive UpdateError where
  | outOfOrder (uri : String) (latest incoming : Int)
  | shutDown
deriving DecidableEq, Repr, Inhabited

namespace UpdateError

def message : UpdateError → String
  | outOfOrder uri latest incoming =>
    "update for " ++ uri ++ " at version " ++ toString incoming ++ " is not newer than version " ++ toString latest
  | shutDown => "analysis host has been shut down"

/-- The update lost against a newer one and may be ignored. -/
def isStale : UpdateError → Bool
  | outOfOrder .. => true
  | shutDown => false

end UpdateError

/-- A new version of a document's text. -/
structure Update where
  uri : String
  version : Int
  text : String
deriving DecidableEq, Repr, Inhabited

namespace Workspace

def new (settings : Settings) (signatures : SignatureTable) : Workspace :=
  { settings := settings
    signatures := signatures
    cache := .new settings.maxEntries settings.memoryBytes
    versions := []
    published := .empty
    requests := .new settings.delays
    isShutDown := false }

def latest? (w : Workspace) (uri : String) : Option Int :=
  Keyed.find? uri w.versions

/-- Why an update is refused, if it is: only what is newer than all before is taken in. -/
def refusal? (w : Workspace) (uri : String) (version : Int) : Option UpdateError :=
  if w.isShutDown then some .shutDown
  else match w.latest? uri with
    | some latest => if version ≤ latest then some (.outOfOrder uri latest version) else none
    | none => none

/-- The outline of a new text of a document, made from the cached one if there is any, and validated. -/
def outlineOf (w : Workspace) (uri text : String) : Outline :=
  let options : Options := { Options.default with signatures := w.signatures }
  let o := match w.cache.peek? uri with
    | some e => Outline.reparse options w.settings.spliceThreshold e.text e.outline text
    | none => Outline.ofText options text
  { o with diagnostics := validate o w.signatures w.settings.validation }

/-- Takes in a new version of a document: caches its outline and publishes its diagnostics. -/
def update (w : Workspace) (u : Update) : Except UpdateError Outline × Workspace :=
  match w.refusal? u.uri u.version with
  | some e => (.error e, w)
  | none =>
    let o := w.outlineOf u.uri u.text
    (.ok o, { w with
      versions := Keyed.put u.uri u.version w.versions
      cache := (w.cache.insert u.uri ⟨u.version, u.text, o⟩).2
      published := w.published.publish u.uri ⟨u.version, o.diagnostics⟩ })

/-- Takes in updates in the order given, with the outcome of each. -/
def updateEach (w : Workspace) : List Update → List (Update × Except UpdateError Outline) × Workspace
  | [] => ([], w)
  | u :: us =>
    let (outcome, w) := w.update u
    let (outcomes, w) := updateEach w us
    ((u, outcome) :: outcomes, w)

/-- The updates document by document, in the order in which the documents first come. -/
def byDocument (us : List Update) : List Update :=
  (Keyed.distinct (us.map (·.uri))).flatMap fun uri => us.filter (·.uri == uri)

/-- Takes in a batch of updates, document by document. -/
def updateMany (w : Workspace) (us : List Update) : List (Update × Except UpdateError Outline) × Workspace :=
  w.updateEach (byDocument us)

/-- Forgets a document and its requests. -/
def close (w : Workspace) (uri : String) : Workspace :=
  { w with
    versions := Keyed.erase uri w.versions
    cache := (w.cache.remove uri).2
    published := w.published.clear uri
    requests := w.requests.cancelDocument uri }

/-- The cached outline of a document. -/
def outline? (w : Workspace) (uri : String) : Option Outline × Workspace :=
  let (e, cache) := w.cache.get? uri
  (e.map (·.outline), { w with cache := cache })

/-- The cached outline of a document at this version. -/
def outlineAt? (w : Workspace) (uri : String) (version : Int) : Option Outline × Workspace :=
  let (e, cache) := w.cache.getAt? uri version
  (e.map (·.outline), { w with cache := cache })

def schedule (w : Workspace) (r : Request) (now : Nat) : Workspace :=
  { w with requests := w.requests.schedule r now }

/-- A newer version of the document has been taken in since the request. -/
def isOvertaken (w : Workspace) (r : Request) : Bool :=
  (w.latest? r.uri).any (r.version < ·)

/-- Takes out the requests that are due; those overtaken are dropped. -/
def ready (w : Workspace) (now : Nat) : List Request × Workspace :=
  let (due, requests) := w.requests.poll now
  (due.filter (!w.isOvertaken ·), { w with requests := requests })

/-- Changes the settings, if they pass their check. Limits and delays hold at once. -/
def setSettings (w : Workspace) (s : Settings) : Except SettingsError Unit × Workspace :=
  match s.check with
  | .error e => (.error e, w)
  | .ok s => (.ok (), { w with
      settings := s
      cache := (w.cache.setLimits s.maxEntries s.memoryBytes).2
      requests := w.requests.setDelays s.delays })

/-- Changes the known functions. What is cached was read with the old ones, so the cache is cleared. -/
def setSignatures (w : Workspace) (t : SignatureTable) : Workspace :=
  { w with signatures := t, cache := w.cache.clear }

/-- Adds the functions of a JSON text to the built-in ones. -/
def loadSignatures (w : Workspace) (text : String) : Except SignatureError Unit × Workspace :=
  match SignatureTable.read text with
  | .error e => (.error e, w)
  | .ok t => (.ok (), w.setSignatures (SignatureTable.builtin.merged t))

/-- Forgets everything; no update is taken in any more. -/
def shutDown (w : Workspace) : Workspace :=
  { w with
    isShutDown := true
    versions := []
    cache := w.cache.clear
    published := .empty
    requests := .new w.settings.delays }

end Workspace

end Calculation
