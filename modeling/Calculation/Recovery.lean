import Calculation.Diagnostic.Basic

/-!
Recovery: what reading meets on its way, and how much of it was recovered from. A structural fault counts as
recovered once a complete symbol ends behind it. Tallies are kept for stretches of a document and joined in its
order, so that a stretch can be replaced by another; the main statement is that the tally of events in a row is
the tally of their first part followed by that of the rest.
-/
namespace Calculation

/-- What reading meets: a fault, or the end of a complete symbol. -/
inductive Event where
  | fault (d : Diagnostic)
  | valid
deriving DecidableEq, Repr, Inhabited

namespace Event

def fault? : Event → Option Diagnostic
  | fault d => some d
  | valid => none

/-- A fault that leaves the tree incomplete. -/
def isStructural : Event → Bool
  | fault d => d.isStructural
  | valid => false

/-- The faults among events, in their order. -/
def faults (events : List Event) : List Diagnostic :=
  events.filterMap fault?

end Event

/-- What happened in a stretch of a document. `pending` faults wait for a complete symbol of a later stretch. -/
structure Tally where
  total : Nat
  recovered : Nat
  pending : Nat
  /-- Some complete symbol ended in the stretch. -/
  hasValid : Bool
deriving DecidableEq, Repr, Inhabited

namespace Tally

def zero : Tally :=
  ⟨0, 0, 0, false⟩

/-- One fault that nothing follows. -/
def oneFault : Tally :=
  ⟨1, 0, 1, false⟩

/-- The end of one complete symbol. -/
def oneValid : Tally :=
  ⟨0, 0, 0, true⟩

/-- The tally of one stretch followed by another. -/
def followedBy (a b : Tally) : Tally :=
  { total := a.total + b.total
    recovered := a.recovered + b.recovered + if b.hasValid then a.pending else 0
    pending := if b.hasValid then b.pending else a.pending + b.pending
    hasValid := a.hasValid || b.hasValid }

theorem zero_followedBy (a : Tally) : zero.followedBy a = a := by
  simp [zero, followedBy]

theorem followedBy_zero (a : Tally) : a.followedBy zero = a := by
  simp [zero, followedBy]

theorem followedBy_assoc (a b c : Tally) :
    (a.followedBy b).followedBy c = a.followedBy (b.followedBy c) := by
  cases hb : b.hasValid <;> cases hc : c.hasValid <;> simp [followedBy, hb, hc] <;> omega

/-- The tally of one event. -/
def ofEvent : Event → Tally
  | .fault d => if d.isStructural then oneFault else zero
  | .valid => oneValid

/-- The tally of events in the order in which they happened. -/
def ofEvents (events : List Event) : Tally :=
  events.foldl (fun t e => t.followedBy (ofEvent e)) zero

theorem foldl_followedBy (a : Tally) (events : List Event) :
    events.foldl (fun t e => t.followedBy (ofEvent e)) a = a.followedBy (ofEvents events) := by
  induction events generalizing a with
  | nil => exact (followedBy_zero a).symm
  | cons e es ih =>
    have he : ofEvents (e :: es) = (ofEvent e).followedBy (ofEvents es) := by
      rw [ofEvents, List.foldl_cons, zero_followedBy, ih]
    rw [List.foldl_cons, ih, he, followedBy_assoc]

theorem ofEvents_append (a b : List Event) :
    ofEvents (a ++ b) = (ofEvents a).followedBy (ofEvents b) := by
  rw [ofEvents, List.foldl_append, foldl_followedBy]
  rfl

end Tally

/-- The faults of a whole document, and how many of them were recovered from. -/
structure Recovery where
  total : Nat
  recovered : Nat
deriving DecidableEq, Repr, Inhabited

namespace Recovery

def zero : Recovery :=
  ⟨0, 0⟩

def ofTallies (ts : List Tally) : Recovery :=
  let all := ts.foldl Tally.followedBy .zero
  ⟨all.total, all.recovered⟩

def unrecovered (r : Recovery) : Nat :=
  r.total - r.recovered

end Recovery

end Calculation
