import Calculation.Keyed
import Calculation.Signature.Basic

/-!
Tables of signatures. A table finds a function by its name up to ASCII case and lists its functions in the
order in which their names first came in.
-/
namespace Calculation

structure SignatureTable where
  entries : List (String × Signature)
deriving DecidableEq, Repr, Inhabited

namespace SignatureTable

def empty : SignatureTable :=
  ⟨[]⟩

/-- The name by which a table knows a function: its ASCII letters are capital. -/
def keyOf (name : String) : String :=
  .ofList (name.toList.map Char.toUpper)

def insert (t : SignatureTable) (s : Signature) : SignatureTable :=
  ⟨Keyed.put (keyOf s.name) s t.entries⟩

def insertAll (t : SignatureTable) (ss : List Signature) : SignatureTable :=
  ss.foldl insert t

def toList (t : SignatureTable) : List Signature :=
  t.entries.map (·.2)

def ofList (ss : List Signature) : SignatureTable :=
  empty.insertAll ss

/-- Every signature of `other` on top of those of `t`. -/
def merged (t other : SignatureTable) : SignatureTable :=
  t.insertAll other.toList

/-- The function of this name in any letter case. A name without small letters is looked up as it stands. -/
def get? (t : SignatureTable) (name : String) : Option Signature :=
  if name.toList.any Char.isLower then Keyed.find? (keyOf name) t.entries else Keyed.find? name t.entries

def contains (t : SignatureTable) (name : String) : Bool :=
  (t.get? name).isSome

def isAggregate (t : SignatureTable) (name : String) : Bool :=
  (t.get? name).any Signature.isAggregate

def isTableCalculation (t : SignatureTable) (name : String) : Bool :=
  (t.get? name).any Signature.isTableCalculation

def size (t : SignatureTable) : Nat :=
  t.entries.length

/-- A name without small letters is its own key. -/
theorem keyOf_eq_self {name : String} (h : name.toList.any Char.isLower = false) : keyOf name = name := by
  have hmap : name.toList.map Char.toUpper = name.toList := by
    refine (List.map_congr_left fun c hc => ?_).trans (List.map_id _)
    have hlower : ¬(decide (c.val ≥ 'a'.val) && decide (c.val ≤ 'z'.val)) = true := List.any_eq_false.mp h c hc
    rw [Bool.and_eq_true, decide_eq_true_eq, decide_eq_true_eq] at hlower
    exact dif_neg hlower
  rw [keyOf, hmap, String.ofList_toList]

/-- Either way the function is found by its key. -/
theorem get?_eq (t : SignatureTable) (name : String) : t.get? name = Keyed.find? (keyOf name) t.entries := by
  unfold get?
  split
  · rfl
  · rename_i h
    rw [keyOf_eq_self (eq_false_of_ne_true h)]

end SignatureTable

end Calculation
