import Calculation.Proofs.Document.Comments
import Calculation.Proofs.Reading.Levels
import Calculation.Proofs.Rewording.Basic

namespace Calculation

namespace Statement
open Calculation.Symbol

theorem statement_levels (src : Source) (c : Cursor) : Levels (2 * src.options.levels + 1) (statement src c).1 := by
  unfold statement
  split
  · exact expression_levels src src.options.levels .topLevel c
  · exact levels_nil _

theorem readAll_levels (src : Source) (ls : List Lexeme) :
    Levels (2 * src.options.levels + 1) ((readAll src ls).flatMap (·.symbols)) := by
  refine readAll_rule (P := fun _ is => Levels (2 * src.options.levels + 1) (is.flatMap (·.symbols))) ?_ ?_ ls
  · exact levels_nil _
  · intro l ls is ih
    exact levels_append.mpr ⟨statement_levels src _, ih⟩

end Statement

namespace Outline
open Calculation.Symbol Validation

theorem symbols_levels (options : Options) (text : String) :
    Levels (2 * options.levels + 2) (ofText options text).symbols := by
  have hstatements : Levels (2 * options.levels + 1) ((statements options text).flatMap (·.symbols)) :=
    Statement.readAll_levels _ _
  refine Levels.of_withoutComments ?_ (comment_bare options text)
  rwa [symbols_withoutComments options text]

/-- However a text is made, no chain of symbols from a root downwards is longer than twice the levels that expressions
may have and two more. So all that goes down the trees of a text (going over the symbols, counting them, finding the
deepest one at an offset, moving them, exactly or with offsets of 32 bits, measuring how deep blocks nest, checking) makes no more calls inside one
another. -/
theorem levels_bounded (options : Options) (text : String) :
    (∀ path, Chain (ofText options text).symbols path → path.length ≤ 2 * options.levels + 2) ∧
    foldWithin? walkStep (2 * options.levels + 2) (ofText options text).symbols =
      some ((ofText options text).symbols.map Symbol.walk) ∧
    foldWithin? countStep (2 * options.levels + 2) (ofText options text).symbols =
      some ((ofText options text).symbols.map count) ∧
    (∀ offset, foldWithin? (findAtStep offset) (2 * options.levels + 2) (ofText options text).symbols =
      some ((ofText options text).symbols.map (findAt? offset))) ∧
    (∀ delta lines, foldWithin? (shiftedStep delta lines) (2 * options.levels + 2) (ofText options text).symbols =
      some ((ofText options text).symbols.map (shifted delta lines))) ∧
    (∀ delta lines, foldWithin? (relocatedStep delta lines) (2 * options.levels + 2) (ofText options text).symbols =
      some ((ofText options text).symbols.map (relocated delta lines))) ∧
    foldWithin? nestingStep (2 * options.levels + 2) (ofText options text).symbols =
      some ((ofText options text).symbols.map shownNesting) ∧
    ∀ t o, foldWithin? (findingsStep t o) (2 * options.levels + 2) (ofText options text).symbols =
      some ((ofText options text).symbols.map fun s around => findings t o around s) := by
  have hlevels := symbols_levels options text
  refine ⟨fun path hpath => hlevels.chain_length_le hpath, bottomUp_walk.within hlevels, bottomUp_count.within hlevels,
    fun offset => (bottomUp_findAt? offset).within hlevels,
    fun delta lines => (bottomUp_shifted delta lines).within hlevels,
    fun delta lines => (bottomUp_relocated delta lines).within hlevels, bottomUp_nesting.within hlevels,
    fun t o => (bottomUp_findings t o).within hlevels⟩

/-- For instance, the bound is reached when expressions may have one level: behind what is unexpected in a block, what is
too deep is skipped once more, and may hold a comment. -/
theorem levels_reached : ∃ path, Chain (ofText ⟨.builtin, 1⟩ "CASE 1 ) 2 /* c */ + 3 END").symbols path ∧
    path.length = 4 ∧ path.length ≤ 2 * 1 + 2 := by
  have hmem : ∃ block ∈ (ofText ⟨.builtin, 1⟩ "CASE 1 ) 2 /* c */ + 3 END").symbols, ∃ stretch ∈ block.children,
      ∃ run ∈ stretch.children, ∃ comment ∈ run.children, comment.isComment = true := by
    decide +kernel
  obtain ⟨block, hblock, stretch, hstretch, run, hrun, comment, hcomment, -⟩ := hmem
  have hchain := Chain.cons hblock (.cons hstretch (.cons hrun (.cons hcomment (.nil comment.children))))
  exact ⟨_, hchain, rfl, (levels_bounded ⟨.builtin, 1⟩ "CASE 1 ) 2 /* c */ + 3 END").1 _ hchain⟩

/-- The same text, where expressions may have more levels. Words are the same only when they are equal. -/
def moreLevels (signatures : SignatureTable) {levels levels' : Nat} (hle : levels ≤ levels') (text : List Char) :
    Rewording (.ofText ⟨signatures, levels⟩ text) (.ofText ⟨signatures, levels'⟩ text) where
  key := id
  signature h := congrArg _ h
  trimmed _ := rfl
  lines := rfl
  levels := hle

theorem statements_more_levels (signatures : SignatureTable) {levels levels' : Nat} (hle : levels ≤ levels')
    (text : String) (hshallow : ∀ d ∈ (ofText ⟨signatures, levels⟩ text).faults, d.code ≠ .tooDeep) :
    statements ⟨signatures, levels'⟩ text = statements ⟨signatures, levels⟩ text := by
  have hlined := lexemes_lined text
  have hlexemes : List.Forall₂ (moreLevels signatures hle text.toList).likeness.Lexemes (lexemes text) (lexemes text) :=
    List.forall₂_same.mpr fun l hl => ⟨⟨rfl, rfl, rfl, rfl, fun _ => rfl, hlined.proper l hl⟩, rfl⟩
  refine Rewording.Items.same rfl (Likeness.readAll_alike hlexemes hlined.apart (.inr fun i hi d hd => hshallow d ?_))
  exact mem_faults.mpr (.inr (List.mem_flatMap.mpr ⟨i, hi, hd⟩))

/-- How many levels expressions may have matters only when these are used up: a text in which nothing is reported as
too deep is read in the very same way with more of them. -/
theorem more_levels_agree (signatures : SignatureTable) {levels levels' : Nat} (hle : levels ≤ levels') (text : String)
    (hshallow : ∀ d ∈ (ofText ⟨signatures, levels⟩ text).faults, d.code ≠ .tooDeep) :
    ofText ⟨signatures, levels'⟩ text = ofText ⟨signatures, levels⟩ text := by
  rw [ofText_eq_ofParts, ofText_eq_ofParts, statements_more_levels signatures hle text hshallow]

/-- For instance three levels are enough for parentheses in a call, though the call is not closed, and more change
nothing. -/
theorem more_levels_agree_call :
    (∀ d ∈ (ofText ⟨.builtin, 3⟩ "SUM([A] + (1)").faults, d.code ≠ .tooDeep) ∧
      ofText ⟨.builtin, 128⟩ "SUM([A] + (1)" = ofText ⟨.builtin, 3⟩ "SUM([A] + (1)" := by
  have hshallow : ∀ d ∈ (ofText ⟨.builtin, 3⟩ "SUM([A] + (1)").faults, d.code ≠ .tooDeep := by decide +kernel
  exact ⟨hshallow, more_levels_agree .builtin (by decide) _ hshallow⟩

end Outline

end Calculation
