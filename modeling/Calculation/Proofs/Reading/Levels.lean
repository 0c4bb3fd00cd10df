import Calculation.Proofs.Reading.DerivedBlock
import Calculation.Proofs.Reading.Leads
import Calculation.Proofs.Tree.Levels

/-!
How deep the symbols of an expression go. A construct puts the symbols of its parts below a symbol of its own or leaves
them as they are: a call adds one level to what its arguments have, a block two, as what it skips has an error marker
around it, and parentheses add none. So with each level of expressions there are two more levels of symbols.
-/
namespace Calculation.Statement
open Cursor Calculation.Symbol

/-- What is read at any place from any cursor has no more levels. -/
def LevelledExpression (n : Nat) (expr : ReadExpression) : Prop :=
  ∀ place c, Levels n (expr place c).1

variable {n : Nat} {src : Source} {expr : ReadExpression} {place : Place}

theorem levels_many {read? : Cursor → Option (List Symbol × Cursor)}
    (h : ∀ c ss d, read? c = some (ss, d) → Levels n ss) (c : Cursor) : Levels n (c.many read?).1.flatten :=
  levels_flatten.mpr (forall_mem_many h c)

theorem operatorSymbol_levels (src : Source) (op : Token) (c : Cursor) :
    Levels (n + 1) (operatorSymbol src op c).1 := by
  unfold operatorSymbol
  split
  · exact levels_one.mpr (levels_nil n)
  · exact levels_nil _

theorem literal_children (src : Source) (t : Token) (c : Cursor) : (literal src t c).1.children = [] := rfl

theorem fieldReference_children (src : Source) (t : Token) (c : Cursor) :
    (fieldReference src t c).1.children = [] := by
  unfold fieldReference
  dsimp only
  split <;> rfl

theorem signs_levels (src : Source) (c : Cursor) : Levels (n + 1) ((signs src c).1.flatMap (·.2)) := by
  have hsign : ∀ (c : Cursor) p d, sign? src c = some (p, d) → Levels (n + 1) p.2 := by
    intro c p d h
    unfold sign? at h
    split at h
    · obtain ⟨⟨t, e⟩, -, he⟩ := Option.map_eq_some_iff.mp h
      obtain ⟨rfl, -⟩ := Prod.mk.inj he
      exact operatorSymbol_levels src t e
    · cases h
  have hnext : ∀ (c : Cursor) p d, nextSign? src c = some (p, d) → Levels (n + 1) p.2 := by
    intro c p d h
    unfold nextSign? at h
    split at h
    · cases h
    · exact hsign c p d h
  unfold signs
  split
  · exact levels_nil _
  · rename_i first c hfirst
    refine levels_flatten.mpr (List.forall_mem_map.mpr ?_)
    exact List.forall_mem_cons.mpr ⟨hsign _ first c hfirst, forall_mem_many hnext c⟩

theorem commaList_levels (h : LevelledExpression n expr) (place : Place) (c : Cursor) :
    Levels n (commaList expr place c).1 := by
  unfold commaList
  split
  · refine levels_append.mpr ⟨h place c, levels_many ?_ _⟩
    intro c ss d hd
    unfold nextInList? at hd
    split at hd
    · split at hd
      · rename_i e _ _
        have he := h place e
        rw [Option.some.inj hd] at he
        exact he
      · cases hd
    · cases hd
  · exact levels_nil n

theorem grouping_levels (h : LevelledExpression n expr) (isList : Bool) (paren : Token) (c : Cursor) :
    Levels n (grouping expr isList paren c).1 := by
  have hbody : ∀ c, Levels n (groupingBody expr isList paren c).1 := by
    intro c
    unfold groupingBody
    split
    · split
      · exact commaList_levels h .grouping c
      · exact h .grouping c
    · split <;> exact levels_nil n
  exact hbody _

theorem argumentRound_levels (src : Source) (h : LevelledExpression n expr) (function : String) (c : Cursor) :
    Levels n ((roundParts (argumentRound src expr function c)).flatMap (·.symbols)) := by
  have hargument : ∀ p d, argument? src expr function c = some (p, d) → Levels n p.symbols := by
    intro p d hp
    unfold argument? at hp
    split at hp
    · cases hp
    · dsimp only at hp
      split at hp
      · cases hp
        exact levels_nil n
      · split at hp
        · cases hp
          exact h .arguments _
        · cases hp
  unfold argumentRound
  split
  · exact levels_nil n
  · rename_i p d hp
    rw [(behindArgument_leads src p d).1, List.flatMap_singleton]
    exact hargument p d hp

theorem argumentList_levels (h : LevelledExpression n expr) (function : String) (c : Cursor) :
    Levels n ((argumentList src expr function c).1.1.flatMap (·.symbols)) := by
  unfold argumentList Cursor.loop
  refine rounds_rule ?_ ?_ ?_ (c.rest.length + 1) c
    (P := fun _ (r : List CallPart × List CallPart × Bool) _ => Levels n ((r.1 ++ r.2.1).flatMap (·.symbols)))
  · intro c
    exact levels_nil n
  · intro c r d hs
    have hr := argumentRound_levels src h function c
    rw [hs] at hr
    exact hr
  · intro c p d r e hs ih
    have hr := argumentRound_levels src h function c
    rw [hs, roundParts, List.flatMap_singleton] at hr
    exact levels_append.mpr ⟨hr, ih⟩

theorem arguments_levels (h : LevelledExpression n expr) (function : String) (c : Cursor) :
    Levels n ((arguments src expr function c).1.1.flatMap (·.symbols)) := by
  unfold arguments
  split
  · exact levels_nil n
  · exact argumentList_levels h function _

theorem call_levels (h : LevelledExpression n expr) (name paren : Token) (c : Cursor) :
    Levels n (call src expr name paren c).1.children := by
  have hscoped : ∀ isAggregate,
      Levels n ((scopedArguments src expr name isAggregate c).1.1.flatMap (·.symbols)) := by
    intro isAggregate
    unfold scopedArguments
    split <;> exact arguments_levels h name.text _
  exact hscoped _

theorem required_levels (h : LevelledExpression n expr) (place : Place) (keyword : Token) (c : Cursor) :
    Levels n (required expr place keyword c).1 := by
  unfold required
  split
  · exact h place c
  · exact levels_nil n

theorem branch_levels (h : LevelledExpression n expr) (place : Place) (kind : BranchKind) (keyword : Token)
    (c : Cursor) : Levels n (branch expr place kind keyword c).1.symbols :=
  required_levels h place keyword c

theorem condition_levels (h : LevelledExpression n expr) (place : Place) (kind : BranchKind) (keyword : Token)
    (c : Cursor) : Levels n (condition expr place kind keyword c).1.symbols := by
  have hthen : ∀ c, Levels n (thenClause expr place keyword c).1.symbols := by
    intro c
    unfold thenClause
    split
    · exact branch_levels h place .then_ _ _
    · dsimp only
      split
      · exact h place _
      · exact levels_nil n
  exact levels_append.mpr ⟨branch_levels h place kind keyword c, hthen _⟩

/-- The error marker around a skipped stretch is a level of its own. -/
theorem skippedClause_levels (src : Source) (h : LevelledExpression n expr) (place : Place) (t : Token)
    (c : Cursor) : Levels (n + 1) (skippedClause src expr place t c).1.symbols := by
  have hfirst : ∀ c, Levels n (skipFirst expr place t c).1 := by
    intro c
    unfold skipFirst
    split
    · exact h place c
    · exact levels_nil n
  have hnext : ∀ c ss d, skipNext? expr place c = some (ss, d) → Levels n ss := by
    intro c ss d hd
    unfold skipNext? at hd
    split at hd
    · cases hd
    · split at hd
      · cases hd
      · split at hd
        · have he := h place c
          rw [Option.some.inj hd] at he
          exact he
        · cases hd
          exact levels_nil n
  exact levels_one.mpr (levels_append.mpr ⟨hfirst _, levels_many hnext _⟩)

theorem join_levels {read? : Cursor → Option (Clause × Cursor)}
    (h : ∀ c a d, read? c = some (a, d) → Levels n a.symbols) (c : Cursor) :
    Levels n (Clause.join (c.many read?).1).symbols :=
  levels_flatten.mpr (List.forall_mem_map.mpr (forall_mem_many h c))

theorem nextClause?_levels (h : LevelledExpression n expr) (place : Place) (keyword : Token.Kind) (kind : BranchKind)
    (c : Cursor) (a : Clause) (d : Cursor) (hd : nextClause? src expr place keyword kind c = some (a, d)) :
    Levels (n + 1) a.symbols := by
  unfold nextClause? at hd
  split at hd
  · cases hd
  · split at hd
    · cases hd
    · rename_i l _ _
      dsimp only at hd
      split at hd
      · cases hd
      · split at hd
        · have hc := condition_levels h place kind l.token c.advance
          rw [Option.some.inj hd] at hc
          exact hc.mono (Nat.le_succ n)
        · split at hd
          · have hb := branch_levels h place .else_ l.token c.advance
            rw [Option.some.inj hd] at hb
            exact hb.mono (Nat.le_succ n)
          · have hs := skippedClause_levels src h place l.token c
            rw [Option.some.inj hd] at hs
            exact hs

theorem ifBlock_levels (h : LevelledExpression n expr) (opener : Token) (c : Cursor) :
    Levels (n + 1) (ifBlock src expr opener c).1.children :=
  levels_append.mpr ⟨(condition_levels h .ifBlock .if_ opener c).mono (Nat.le_succ n),
    join_levels (nextClause?_levels h .ifBlock .elseIf .elseIf) _⟩

theorem caseBlock_levels (h : LevelledExpression n expr) (opener : Token) (c : Cursor) :
    Levels (n + 1) (caseBlock src expr opener c).1.children :=
  levels_append.mpr ⟨(branch_levels h .caseBlock .case_ opener c).mono (Nat.le_succ n),
    join_levels (nextClause?_levels h .caseBlock .when_ .when_) _⟩

theorem lodHead_levels (h : LevelledExpression n expr) (brace : Token) (c : Cursor) :
    Levels n (lodHead expr brace c).1.2.symbols := by
  have hdimensions : ∀ keyword c, Levels n (dimensions expr keyword c).1.symbols := by
    intro keyword c
    unfold dimensions
    split
    · exact commaList_levels h .lodDimensions c
    · exact levels_nil n
  have haggregate : ∀ keyword c, Levels n (aggregate expr keyword c).1.symbols := by
    intro keyword c
    unfold aggregate
    split
    · exact branch_levels h .lodBody .aggregate _ _
    · exact levels_nil n
  unfold lodHead
  split
  · exact levels_append.mpr ⟨hdimensions _ _, haggregate _ _⟩
  · exact branch_levels h .lodBody .aggregate brace c

theorem lodBlock_levels (h : LevelledExpression n expr) (brace : Token) (c : Cursor) :
    Levels (n + 1) (lodBlock src expr brace c).1.children := by
  have hnext : ∀ c a d, nextSkipped? src expr c = some (a, d) → Levels (n + 1) a.symbols := by
    intro c a d hd
    unfold nextSkipped? at hd
    split at hd
    · cases hd
    · split at hd
      · cases hd
      · split at hd
        · cases hd
        · have hs := skippedClause_levels src h .lodBody (‹Lexeme›).token c
          rw [Option.some.inj hd] at hs
          exact hs
  have hbody : ∀ c, Levels (n + 1) (lodBody src expr brace c).1.2.1.symbols := by
    intro c
    rw [lodBody_eq]
    unfold closeBrace
    split <;> exact levels_append.mpr ⟨(lodHead_levels h brace c).mono (Nat.le_succ n), join_levels hnext _⟩
  exact hbody _

theorem primary_levels (h : LevelledExpression n expr) (t : Token) (c : Cursor) :
    Levels (n + 2) (primary src expr t c).1 := by
  have hword : Levels n (word src expr t c).1.children := by
    unfold word
    split
    · exact call_levels h t _ _
    · exact levels_nil n
  unfold primary
  dsimp only
  split
  · exact levels_one.mpr (fieldReference_children src t c ▸ levels_nil _)
  · exact levels_one.mpr (hword.mono (Nat.le_succ n))
  · exact (grouping_levels h false t c).mono (by omega)
  · exact levels_one.mpr (lodBlock_levels h t c)
  · exact levels_one.mpr (ifBlock_levels h t c)
  · exact levels_one.mpr (caseBlock_levels h t c)
  · exact levels_one.mpr (literal_children src t c ▸ levels_nil _)

theorem operand_levels (h : LevelledExpression n expr) (c : Cursor) : Levels (n + 2) (operand src expr c).1 := by
  have hsigns := signs_levels (n := n + 1) src c
  unfold operand signed
  dsimp only
  split
  · exact levels_append.mpr ⟨hsigns, primary_levels h _ _⟩
  · split <;> exact hsigns

theorem rightSide_levels (h : LevelledExpression n expr) (place : Place) (op : Token) (c : Cursor) :
    Levels (n + 2) (rightSide src expr place op c).1 := by
  unfold rightSide
  split
  · exact (grouping_levels h true _ _).mono (by omega)
  · split
    · exact operand_levels h c
    · exact levels_nil _

theorem chain_levels (h : LevelledExpression n expr) : LevelledExpression (n + 2) (chain src expr) := by
  intro place c
  refine levels_append.mpr ⟨operand_levels h c, levels_many ?_ _⟩
  intro c ss d hd
  obtain ⟨⟨op, e⟩, -, he⟩ := Option.map_eq_some_iff.mp hd
  obtain ⟨rfl, -⟩ := Prod.mk.inj he
  exact levels_append.mpr ⟨operatorSymbol_levels src op e, rightSide_levels h place op _⟩

theorem tooDeep_levels (src : Source) : LevelledExpression 1 (tooDeep src) := by
  intro place c
  unfold tooDeep
  split
  · exact levels_nil 1
  · exact levels_one.mpr (levels_nil 0)

/-- An expression gives two levels of symbols for each level it may go down, and an error marker below the last. -/
theorem expression_levels (src : Source) (n : Nat) : LevelledExpression (2 * n + 1) (expression src n) := by
  induction n with
  | zero => exact tooDeep_levels src
  | succ n ih => exact chain_levels ih

end Calculation.Statement
