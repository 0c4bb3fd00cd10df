import Mathlib.Data.List.Forall2
import Calculation.Proofs.Document.Statements

namespace Calculation

/-- The item reaches from the first through the last of the lexemes, of which there is one at least. -/
structure Item.Spans (i : Item) (taken : List Lexeme) : Prop where
  start : ∃ l, taken.head? = some l ∧ i.range.start = l.token.range.start
  stop : ∃ l, taken.getLast? = some l ∧ i.range.stop = l.token.range.stop

namespace Statement
open Cursor

variable {src : Source} {lo hi : Nat} {l : Lexeme} {ls : List Lexeme}

/-- The lexemes of a text fall apart into those of its statements, in order and with none left. -/
theorem readAll_tiles (src : Source) (hin : Range.InLine lo hi (ls.map (·.token.range))) :
    ∃ parts : List (List Lexeme), parts.flatten = ls ∧ List.Forall₂ Item.Spans (readAll src ls) parts := by
  revert hin
  refine readAll_rule (P := fun ls is => Range.InLine lo hi (ls.map (·.token.range)) →
    ∃ parts : List (List Lexeme), parts.flatten = ls ∧ List.Forall₂ Item.Spans is parts)
    (fun _ => ⟨[], rfl, .nil⟩) (fun l ls is ih hin => ?_) ls
  obtain ⟨taken, htaken, hrange⟩ := nextItem_taken src hin
  obtain ⟨parts, hparts, hspans⟩ := ih (hin.sublist ((nextItem_sublist src l ls).map _))
  obtain ⟨x, hlast, hstop⟩ := endOf_eq_getLast 0 l taken
  refine ⟨(l :: taken) :: parts, ?_, ?_⟩
  · rw [List.flatten_cons, hparts, List.cons_append, ← htaken]
  · exact .cons ⟨⟨l, rfl, by rw [hrange]⟩, ⟨x, hlast, by rw [hrange, hstop]⟩⟩ hspans

theorem exists_of_mem_flatten {parts : List (List Lexeme)} {is : List Item} (h : List.Forall₂ Item.Spans is parts)
    (hl : l ∈ parts.flatten) : ∃ i ∈ is, ∃ taken ∈ parts, i.Spans taken ∧ l ∈ taken := by
  induction h with
  | nil => cases hl
  | cons hspans _ ih =>
    rw [List.flatten_cons] at hl
    rcases List.mem_append.mp hl with hl | hl
    · exact ⟨_, List.mem_cons_self, _, List.mem_cons_self, hspans, hl⟩
    · obtain ⟨i, hi, taken, htaken, h⟩ := ih hl
      exact ⟨i, List.mem_cons_of_mem _ hi, taken, List.mem_cons_of_mem _ htaken, h⟩

/-- Between its first and its last lexeme an item covers all that it takes. -/
theorem covers_of_spans {i : Item} {taken : List Lexeme} (h : i.Spans taken)
    (hin : Range.InLine lo hi (taken.map (·.token.range))) (hl : l ∈ taken) :
    i.range.start ≤ l.token.range.start ∧ l.token.range.stop ≤ i.range.stop := by
  obtain ⟨first, hfirst, hstart⟩ := h.start
  obtain ⟨last, hlast, hstop⟩ := h.stop
  have hproper : ∀ x ∈ taken, x.token.range.start ≤ x.token.range.stop :=
    fun x hx => (hin.bounds _ (List.mem_map_of_mem hx)).2.1
  have hapart := List.pairwise_map.mp hin.pairwise
  rw [hstart, hstop]
  constructor
  · obtain ⟨more, rfl⟩ := List.head?_eq_some_iff.mp hfirst
    rcases List.mem_cons.mp hl with rfl | hl
    · exact Nat.le_refl _
    · have h₁ := (List.pairwise_cons.mp hapart).1 l hl
      have h₂ := hproper first List.mem_cons_self
      omega
  · obtain ⟨more, rfl⟩ := List.getLast?_eq_some_iff.mp hlast
    rcases List.mem_append.mp hl with hl' | hl'
    · have h₁ := (List.pairwise_append.mp hapart).2.2 l hl' last (List.mem_singleton_self _)
      have h₂ := hproper last (List.mem_append_right _ (List.mem_singleton_self _))
      omega
    · exact Nat.le_of_eq (congrArg (·.token.range.stop) (List.mem_singleton.mp hl'))

/-- Every lexeme lies in a statement. -/
theorem readAll_covers (src : Source) (hin : Range.InLine lo hi (ls.map (·.token.range))) (hl : l ∈ ls) :
    ∃ i ∈ readAll src ls, i.range.start ≤ l.token.range.start ∧ l.token.range.stop ≤ i.range.stop := by
  obtain ⟨parts, hparts, hspans⟩ := readAll_tiles src hin
  obtain ⟨i, hi, taken, htaken, hone, hmem⟩ := exists_of_mem_flatten hspans (hparts ▸ hl)
  refine ⟨i, hi, covers_of_spans hone (hin.sublist (List.Sublist.map _ ?_)) hmem⟩
  rw [← hparts]
  exact List.sublist_flatten_of_mem htaken

end Statement

end Calculation
