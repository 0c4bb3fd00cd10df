import Calculation.Proofs.Document.Statements
import Calculation.Proofs.Reading.DerivedBlock

namespace Calculation.Statement
open Cursor Reading

variable {behind : List Range}

theorem statement_yields (src : Source) : Yielding behind (statement src) := by
  intro c
  unfold statement
  split
  · exact (expression_derived src src.options.levels).yields behind .topLevel c
  · rename_i hk
    cases hls : c.rest with
    | nil =>
      unfold strayTokens
      rw [hls]
      exact ⟨[], .refl behind c⟩
    | cons l ls => exact strayTokens_yields hls (by simpa [kind?, hls] using hk)

/-- What the first statement takes, and its derivation. -/
theorem nextItem_derives (src : Source) (l : Lexeme) (ls : List Lexeme) :
    ∃ taken, l :: ls = taken ++ (nextItem src l ls).2.rest ∧
      Derives [] taken (nextItem src l ls).1.symbols (Event.faults (nextItem src l ls).1.events) := by
  have hall : Yielding [] (statement src) := statement_yields src
  obtain ⟨fs, ⟨taken, hr, -, hder⟩, met, hm, hf⟩ := hall (.start (l :: ls))
  have htrail : (statement src (.start (l :: ls))).2.trail = met := hm.trans (List.append_nil met)
  refine ⟨taken, hr, ?_⟩
  unfold nextItem
  dsimp only
  rw [htrail, hf]
  exact hder

/-- All statements together are one derivation of the lexemes. -/
theorem readAll_derives (src : Source) (ls : List Lexeme) :
    Derives [] ls ((readAll src ls).flatMap (·.symbols))
      ((readAll src ls).flatMap fun i => Event.faults i.events) := by
  refine readAll_rule (P := fun ls is => Derives [] ls (is.flatMap (·.symbols)) (is.flatMap fun i => Event.faults i.events))
    (.nothing []) (fun l ls is ih => ?_) ls
  obtain ⟨taken, htaken, hder⟩ := nextItem_derives src l ls
  rw [List.flatMap_cons, List.flatMap_cons]
  conv => enter [2]; rw [htaken]
  exact hder.append ih

end Calculation.Statement
