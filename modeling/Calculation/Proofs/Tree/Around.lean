import Calculation.Proofs.Tree.InLine

namespace Calculation.Symbol

variable {β γ : Type}

mutual

/-- The symbols of a tree in reading order, each with what is around it. What `enter` makes of a symbol and of what is
around it is around the children. -/
def placed (enter : Symbol → β → β) (around : β) : Symbol → List (β × Symbol)
  | ⟨n, k, r, cs, c, l⟩ =>
    (around, ⟨n, k, r, cs, c, l⟩) :: placedAll enter (enter ⟨n, k, r, cs, c, l⟩ around) cs

def placedAll (enter : Symbol → β → β) (around : β) : List Symbol → List (β × Symbol)
  | [] => []
  | s :: ss => placed enter around s ++ placedAll enter around ss

end

variable {enter : Symbol → β → β} {around : β} {s x : Symbol} {ss above : List Symbol}
  {p : List Symbol × Symbol}

theorem placed_eq (enter : Symbol → β → β) (around : β) (s : Symbol) :
    placed enter around s = (around, s) :: placedAll enter (enter s around) s.children := by
  cases s
  rw [placed]

@[simp] theorem placedAll_nil : placedAll enter around [] = [] := by rw [placedAll]

theorem placedAll_cons (enter : Symbol → β → β) (around : β) (s : Symbol) (ss : List Symbol) :
    placedAll enter around (s :: ss) = placed enter around s ++ placedAll enter around ss := by
  rw [placedAll]

@[simp] theorem placedAll_append (as bs : List Symbol) :
    placedAll enter around (as ++ bs) = placedAll enter around as ++ placedAll enter around bs := by
  induction as with
  | nil => simp
  | cons s ss ih => simp [placedAll_cons, ih]

@[simp] theorem placedAll_one :
    placedAll enter around [s] = (around, s) :: placedAll enter (enter s around) s.children := by
  simp [placedAll_cons, placed_eq]

/-- What is put around symbols changes neither which they are nor their order. -/
theorem map_placedAll_symbol (enter : Symbol → β → β) :
    ∀ (ss : List Symbol) (around : β), (placedAll enter around ss).map (·.2) = walkAll ss
  | [], around => by simp
  | ⟨n, k, r, cs, c, l⟩ :: ss, around => by
    rw [placedAll_cons, placed_eq, walkAll_cons, walk_eq, List.map_append, List.map_cons,
      map_placedAll_symbol enter cs, map_placedAll_symbol enter ss]

/-- What is told of what is around a symbol may be told on the way in, when `f` tells it step by step. -/
theorem map_placedAll {enter' : Symbol → γ → γ} {f : β → γ} (hf : ∀ s around, f (enter s around) = enter' s (f around)) :
    ∀ (ss : List Symbol) (around : β),
      (placedAll enter around ss).map (fun p => (f p.1, p.2)) = placedAll enter' (f around) ss
  | [], around => by simp
  | ⟨n, k, r, cs, c, l⟩ :: ss, around => by
    rw [placedAll_cons, placed_eq, placedAll_cons, placed_eq, List.map_append, List.map_cons, map_placedAll hf cs,
      map_placedAll hf ss, hf]

/-- Around a symbol are those that were around the whole, and symbols that it stands in. -/
theorem mem_around : ∀ (ss above : List Symbol), p ∈ placedAll List.cons above ss → x ∈ p.1 →
    x ∈ above ∨ x ∈ walkAll ss ∧ p.2 ∈ walkAll x.children
  | [], above, hp, _ => by
    rw [placedAll_nil] at hp
    cases hp
  | ⟨n, k, r, cs, c, l⟩ :: ss, above, hp, hx => by
    rw [placedAll_cons, placed_eq, List.cons_append, List.mem_cons, List.mem_append] at hp
    rw [walkAll_cons, walk_eq]
    rcases hp with rfl | hp | hp
    · exact .inl hx
    · have hbelow : p.2 ∈ walkAll cs := map_placedAll_symbol List.cons cs _ ▸ List.mem_map_of_mem hp
      rcases mem_around cs _ hp hx with hx | ⟨hx, hp⟩
      · rcases List.mem_cons.mp hx with rfl | hx
        · exact .inr ⟨List.mem_append_left _ List.mem_cons_self, hbelow⟩
        · exact .inl hx
      · exact .inr ⟨List.mem_append_left _ (List.mem_cons_of_mem _ hx), hp⟩
    · rcases mem_around ss above hp hx with hx | ⟨hx, hp⟩
      · exact .inl hx
      · exact .inr ⟨List.mem_append_right _ hx, hp⟩

/-- What was around the whole is around every symbol of it. -/
theorem subset_around : ∀ (ss above : List Symbol), p ∈ placedAll List.cons above ss → above ⊆ p.1
  | [], above, hp => by
    rw [placedAll_nil] at hp
    cases hp
  | ⟨n, k, r, cs, c, l⟩ :: ss, above, hp => by
    rw [placedAll_cons, placed_eq, List.cons_append, List.mem_cons, List.mem_append] at hp
    rcases hp with rfl | hp | hp
    · exact List.Subset.refl _
    · exact List.subset_of_cons_subset (subset_around cs _ hp)
    · exact subset_around ss above hp

end Calculation.Symbol
