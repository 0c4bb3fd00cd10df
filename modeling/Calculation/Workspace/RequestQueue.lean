import Calculation.Workspace.Settings

/-!
The queue of requests that wait for the typing to stop. There is at most one request per document and class;
a newer one takes the place of an older one and waits anew. Times are milliseconds.
-/
namespace Calculation

structure Request where
  uri : String
  class_ : RequestClass
  version : Int
deriving DecidableEq, Repr, Inhabited

structure WaitingRequest where
  request : Request
  due : Nat
deriving DecidableEq, Repr, Inhabited

namespace WaitingRequest

def isFor (w : WaitingRequest) (uri : String) (class_ : RequestClass) : Bool :=
  w.request.uri == uri && w.request.class_ == class_

/-- Requests are served by class, then by the time they are due, then by document. -/
def comesBefore (a b : WaitingRequest) : Bool :=
  let ra := a.request.class_.rank
  let rb := b.request.class_.rank
  ra < rb || (ra == rb && (a.due < b.due || (a.due == b.due && a.request.uri ≤ b.request.uri)))

end WaitingRequest

structure RequestQueue where
  delays : Delays
  waiting : List WaitingRequest
deriving DecidableEq, Repr, Inhabited

namespace RequestQueue

def new (delays : Delays) : RequestQueue :=
  ⟨delays, []⟩

/-- New delays hold for requests that come later. -/
def setDelays (q : RequestQueue) (delays : Delays) : RequestQueue :=
  { q with delays := delays }

def find? (q : RequestQueue) (uri : String) (class_ : RequestClass) : Option WaitingRequest :=
  q.waiting.find? (·.isFor uri class_)

def isWaiting (q : RequestQueue) (uri : String) (class_ : RequestClass) : Bool :=
  (q.find? uri class_).isSome

/-- Adds a request, unless one for a newer version waits already. -/
def schedule (q : RequestQueue) (r : Request) (now : Nat) : RequestQueue :=
  if (q.find? r.uri r.class_).any (r.version < ·.request.version) then q
  else { q with
    waiting := ⟨r, now + q.delays.of r.class_⟩ :: q.waiting.filter fun w => !w.isFor r.uri r.class_ }

def cancel (q : RequestQueue) (uri : String) (class_ : RequestClass) : RequestQueue :=
  { q with waiting := q.waiting.filter fun w => !w.isFor uri class_ }

/-- Drops all requests for a document. -/
def cancelDocument (q : RequestQueue) (uri : String) : RequestQueue :=
  { q with waiting := q.waiting.filter fun w => w.request.uri ≠ uri }

/-- Takes out the requests that are due. -/
def poll (q : RequestQueue) (now : Nat) : List Request × RequestQueue :=
  (((q.waiting.filter fun w => w.due ≤ now).mergeSort WaitingRequest.comesBefore).map (·.request),
    { q with waiting := q.waiting.filter fun w => now < w.due })

/-- The earliest time at which a request is due. -/
def nextDeadline? (q : RequestQueue) : Option Nat :=
  (q.waiting.map (·.due)).min?

def size (q : RequestQueue) : Nat :=
  q.waiting.length

end RequestQueue

end Calculation
