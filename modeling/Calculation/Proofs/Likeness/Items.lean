import Calculation.Proofs.Document.Statements
import Calculation.Proofs.Likeness.Blocks

namespace Calculation.Likeness
open Statement

variable {src src' : Source} {m : Likeness src src'} {ls ls' : List Lexeme}

structure Items (m : Likeness src src') (i i' : Item) : Prop where
  range : m.Ranges i.range i'.range
  isStatement : i'.isStatement = i.isStatement
  symbols : m.Trees i.symbols i'.symbols
  events : List.Forall₂ m.Events i.events i'.events

/-- Statements are alike if their lexemes are, unless something in them was too deep. -/
theorem readAll_alike (h : List.Forall₂ m.Lexemes ls ls')
    (hline : ls.Pairwise fun a b => a.token.range.stop ≤ b.token.range.start)
    (hshallow : src'.options.levels = src.options.levels ∨
      ∀ i ∈ readAll src ls, ∀ d ∈ Event.faults i.events, d.code ≠ .tooDeep) :
    List.Forall₂ m.Items (readAll src ls) (readAll src' ls') := by
  induction hn : ls.length using Nat.strongRecOn generalizing ls ls' with
  | _ n ih =>
    cases h with
    | nil => exact .nil
    | @cons l l' ls ls' hl hls =>
      have hlen : (nextItem src l ls).2.rest.length < n := by
        rw [← hn, List.length_cons]
        exact Nat.lt_succ_of_le (nextItem_takes src l ls)
      rw [readAll_cons] at hshallow
      have hfirst : Shallow src src' (statement src (.start (l :: ls))).2 := by
        refine hshallow.imp_right fun hall d hd => hall _ List.mem_cons_self d ?_
        rw [nextItem, Event.faults, List.filterMap_reverse]
        exact List.mem_reverse.mpr hd
      obtain ⟨hsymbols, hd⟩ := statement_alike _ _ (Cursors.start (.cons hl hls) hline) hfirst
      rw [readAll_cons, readAll_cons]
      refine .cons ⟨hd.since hl.token, rfl, hsymbols, List.rel_reverse hd.trail⟩ (ih _ hlen hd.rest hd.inLine ?_ rfl)
      exact hshallow.imp_right fun hall i hi => hall i (List.mem_cons_of_mem _ hi)

end Calculation.Likeness
