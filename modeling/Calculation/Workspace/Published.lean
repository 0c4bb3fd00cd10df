import Calculation.Diagnostic.Basic
import Calculation.Keyed

namespace Calculation

structure Publication where
  version : Int
  diagnostics : List Diagnostic
deriving DecidableEq, Repr, Inhabited

structure Published where
  entries : List (String × Publication)
deriving DecidableEq, Repr, Inhabited

namespace Published

def empty : Published :=
  ⟨[]⟩

def get? (p : Published) (uri : String) : Option Publication :=
  Keyed.find? uri p.entries

/-- Something newer is shown for the document. -/
def isStale (p : Published) (uri : String) (version : Int) : Bool :=
  (p.get? uri).any (version < ·.version)

/-- Publishes, unless that would be stale. -/
def publish (p : Published) (uri : String) (new : Publication) : Published :=
  if p.isStale uri new.version then p else ⟨Keyed.put uri new p.entries⟩

def clear (p : Published) (uri : String) : Published :=
  ⟨Keyed.erase uri p.entries⟩

def size (p : Published) : Nat :=
  p.entries.length

end Published

end Calculation
