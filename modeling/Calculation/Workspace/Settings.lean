import Calculation.Json.Reader
import Calculation.Validation

/-!
Settings of a workspace, and reading them from JSON. Every setting has a default, so that a text may name only
some of them.
-/
namespace Calculation

/-- What an editor asks for. -/
inductive RequestClass where
  | completion | hover | diagnostics
deriving DecidableEq, Repr, Inhabited

namespace RequestClass

/-- Completion is served before hover, hover before diagnostics. -/
def rank : RequestClass → Nat
  | completion => 0
  | hover => 1
  | diagnostics => 2

def name : RequestClass → String
  | completion => "completion"
  | hover => "hover"
  | diagnostics => "diagnostics"

def all : List RequestClass :=
  [completion, hover, diagnostics]

def ofName? (text : String) : Option RequestClass :=
  all.find? fun c => c.name == text

end RequestClass

/-- How many milliseconds a request waits for a newer one. -/
structure Delays where
  diagnostics : Nat
  hover : Nat
  completion : Nat
deriving DecidableEq, Repr, Inhabited

namespace Delays

def default : Delays :=
  ⟨300, 100, 50⟩

def of (d : Delays) : RequestClass → Nat
  | .completion => d.completion
  | .hover => d.hover
  | .diagnostics => d.diagnostics

def fieldNames : List String :=
  ["diagnostics", "hover", "completion"]

end Delays

structure Settings where
  maxNesting : Nat
  /-- Texts of fewer lines are always read as a whole. -/
  spliceThreshold : Nat
  maxEntries : Nat
  /-- In units of 2 ^ 20 bytes. -/
  maxMemory : Nat
  delays : Delays
deriving DecidableEq, Repr, Inhabited

inductive SettingsError where
  | unreadable
  | noNesting
  | noEntries
deriving DecidableEq, Repr, Inhabited

namespace SettingsError

def message : SettingsError → String
  | unreadable => "the text holds no settings"
  | noNesting => "invalid configuration: maxNestingDepth must be at least 1"
  | noEntries => "invalid configuration: maxCacheEntries must be at least 1"

end SettingsError

/-- A 64-bit natural number, or the default where there is none. -/
def numberOr (fallback : Nat) : Option Json → Option Nat
  | none => some fallback
  | some value => value.unsigned? 64

namespace Delays

def ofJson? (value : Json) : Option Delays := do
  match ← value.record? fieldNames with
  | [diagnostics, hover, completion] =>
    return {
      diagnostics := ← numberOr default.diagnostics diagnostics
      hover := ← numberOr default.hover hover
      completion := ← numberOr default.completion completion }
  | _ => none

end Delays

namespace Settings

def default : Settings :=
  ⟨3, 200, 50, 64, .default⟩

def fieldNames : List String :=
  ["maxNestingDepth", "incrementalParsingLineThreshold", "maxCacheEntries", "maxCacheMemoryMB", "debounceDelayMs"]

def ofJson? (value : Json) : Option Settings := do
  match ← value.record? fieldNames with
  | [maxNesting, spliceThreshold, maxEntries, maxMemory, delays] =>
    return {
      maxNesting := ← numberOr default.maxNesting maxNesting
      spliceThreshold := ← numberOr default.spliceThreshold spliceThreshold
      maxEntries := ← numberOr default.maxEntries maxEntries
      maxMemory := ← numberOr default.maxMemory maxMemory
      delays := ← delays.elim (some default.delays) Delays.ofJson? }
  | _ => none

/-- Some nesting and some cache entry must be allowed. -/
def check (s : Settings) : Except SettingsError Settings :=
  if s.maxNesting = 0 then .error .noNesting
  else if s.maxEntries = 0 then .error .noEntries
  else .ok s

/-- Settings that pass the check are taken as they are. -/
theorem eq_of_check {s s' : Settings} (h : s.check = .ok s') : s' = s := by
  unfold check at h
  split at h
  · cases h
  · split at h
    · cases h
    · exact (Except.ok.inj h).symm

def ofJson (value : Json) : Except SettingsError Settings :=
  match ofJson? value with
  | some s => s.check
  | none => .error .unreadable

/-- Settings that have been read, but not checked. -/
def parse? (text : String) : Option Settings :=
  (Json.parse? text).bind ofJson?

def read (text : String) : Except SettingsError Settings :=
  match parse? text with
  | some s => s.check
  | none => .error .unreadable

/-- The limit for the memory of the cache, which 64 bits have to hold. -/
def memoryBytes (s : Settings) : Nat :=
  min (s.maxMemory * Nat.pow 2 20) (Nat.pow 2 64 - 1)

def validation (s : Settings) : ValidationOptions :=
  ⟨s.maxNesting⟩

end Settings

end Calculation
