import Calculation.Proofs.Reading.Endings
import Calculation.Proofs.Tree.Around

namespace Calculation

namespace Symbol

/-- The scopes around the children of a symbol. -/
def enterScope (t : SignatureTable) (s : Symbol) (scopes : List Scope) : List Scope :=
  (s.scope? t).toList ++ scopes

def isNested (s : Symbol) : Bool :=
  match s.kind with
  | .call _ isNested => isNested
  | _ => false

/-- A call is marked as nested just when it calls an aggregate and the innermost scope is that of an aggregate. -/
def IsMarked (t : SignatureTable) (scopes : List Scope) (s : Symbol) : Prop :=
  s.isCall = true → s.isNested = (t.isAggregate s.name && scopes.head? == some .aggregate)

instance (t : SignatureTable) (scopes : List Scope) (s : Symbol) : Decidable (s.IsMarked t scopes) :=
  inferInstanceAs (Decidable (_ → _))

variable {t : SignatureTable} {scopes : List Scope} {s : Symbol}

theorem isCall_of_isNested (h : s.isNested = true) : s.isCall = true := by
  unfold isNested at h
  split at h
  · rename_i hk
    simp [isCall, hk]
  · cases h

theorem IsMarked.of_not_call (h : s.isCall = false) : s.IsMarked t scopes :=
  fun hc => absurd hc (h ▸ Bool.false_ne_true)

end Symbol

namespace Cursor.Leads
open Calculation.Symbol

variable {src : Source} {c d : Cursor} {ss : List Symbol}

/-- Every call that is read is marked by the scopes around it. -/
theorem marked (h : Leads src c ss d) :
    ∀ p ∈ placedAll (enterScope src.options.signatures) c.scopes ss, p.2.IsMarked src.options.signatures p.1 := by
  induction h with
  | stay => simp
  | take => simp
  | next hcd _ ihcd ihde =>
    rw [placedAll_append, List.forall_mem_append]
    exact ⟨ihcd, hcd.onward.scopes ▸ ihde⟩
  | fault => simp
  | inside _ ih => exact ih
  | recording _ ih => exact ih
  | finish hk _ ih =>
    rw [placedAll_one]
    exact List.forall_mem_cons.mpr ⟨.of_not_call (isCall_of_isClosed hk), ih⟩
  | @call c _ _ _ _ _ _ _ _ _ hn _ ih =>
    rw [placedAll_one]
    exact List.forall_mem_cons.mpr ⟨fun _ => hn, advance_scopes c ▸ ih⟩
  | @openBlock c _ _ _ _ _ _ _ _ ih =>
    rw [placedAll_one]
    exact List.forall_mem_cons.mpr ⟨.of_not_call rfl, advance_scopes c ▸ ih⟩
  | @skipped c d s hk _ _ ih =>
    have hscopes : enterScope src.options.signatures s c.scopes = c.scopes := by simp [enterScope, scope?, hk]
    rw [placedAll_one]
    exact List.forall_mem_cons.mpr ⟨.of_not_call (by simp [isCall, hk, Cursor.finish]), hscopes.symm ▸ ih⟩

end Cursor.Leads

end Calculation
