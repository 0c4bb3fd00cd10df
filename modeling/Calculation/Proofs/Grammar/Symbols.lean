import Calculation.Proofs.Grammar.Rules
import Calculation.Proofs.Tree.InLine

namespace Calculation.Grammar
open Statement Calculation.Symbol

variable {src : Source} {E : Expressions} {F : Phrase} {around : Option Scope} {ls as bs : List Lexeme}
  {ss tt : List Symbol} {us : List Branch} {parts : List CallPart}

/-- All symbols of the trees are complete, and none is a comment. -/
def Whole (ss : List Symbol) : Prop :=
  ∀ s ∈ walkAll ss, s.isComplete = true ∧ s.isComment = false

@[simp] theorem whole_nil : Whole [] := by
  simp [Whole]

@[simp] theorem whole_append : Whole (ss ++ tt) ↔ Whole ss ∧ Whole tt := by
  simp only [Whole, walkAll_append, List.forall_mem_append]

theorem whole_node {name : String} {kind : Symbol.Kind} {range : Range} (hk : (kind == .comment) = false)
    (h : Whole ss) : Whole [node src name kind range ss] := by
  rw [Whole, walkAll_singleton, walk_eq]
  exact List.forall_mem_cons.mpr ⟨⟨rfl, hk⟩, h⟩

theorem whole_operator (src : Source) (op : Token) : Whole (operator src op) := by
  unfold operator
  split
  · exact whole_node rfl whole_nil
  · exact whole_nil

/-- A phrase whose symbols are whole. -/
def WholePhrase (F : Phrase) : Prop :=
  ∀ ls ss, F ls ss → Whole ss

theorem More.whole (hF : WholePhrase F) (h : More F ls ss) : Whole ss := by
  induction h with
  | nil => exact whole_nil
  | cons _ ha _ ih => exact whole_append.mpr ⟨hF _ _ ha, ih⟩

theorem CommaList.whole (hF : WholePhrase F) (h : CommaList F ls ss) : Whole ss := by
  cases h with
  | plain ha hb => exact whole_append.mpr ⟨hF _ _ ha, hb.whole hF⟩
  | trailing ha hb _ => exact whole_append.mpr ⟨hF _ _ ha, hb.whole hF⟩

theorem Arguments.whole (hF : WholePhrase F) (h : Arguments src F ls parts) : Whole (parts.flatMap (·.symbols)) := by
  induction h with
  | one ha =>
    rw [List.flatMap_singleton]
    exact hF _ _ ha
  | cons ha _ _ ih =>
    rw [List.flatMap_cons]
    exact whole_append.mpr ⟨hF _ _ ha, ih⟩

theorem Closed.whole (hF : WholePhrase F) (h : Closed src F ls parts) : Whole (parts.flatMap (·.symbols)) := by
  cases h with
  | empty => exact whole_nil
  | arguments h => exact h.whole hF

theorem Condition.whole {kind : BranchKind} {keyword : Lexeme} (hF : WholePhrase F)
    (h : Condition F kind keyword ls ss us) : Whole ss := by
  cases h with
  | mk ha _ hb => exact whole_append.mpr ⟨hF _ _ ha, hF _ _ hb⟩

theorem ClauseRow.whole {k : Token.Kind} {kind : BranchKind} (hF : WholePhrase F)
    (h : ClauseRow F k kind ls ss us) : Whole ss := by
  induction h with
  | nil => exact whole_nil
  | condition _ ha _ ih => exact whole_append.mpr ⟨ha.whole hF, ih⟩
  | else_ _ ha _ ih => exact whole_append.mpr ⟨hF _ _ ha, ih⟩

theorem Dimensions.whole {keyword : Lexeme} (hF : WholePhrase F) (h : Dimensions F keyword ls ss us) : Whole ss := by
  cases h with
  | none => exact whole_nil
  | list h => exact h.whole hF

theorem Detail.whole {brace : Lexeme} {scope : LodScope} (hF : WholePhrase F) (h : Detail F brace scope ls ss us) :
    Whole ss := by
  cases h with
  | table ha => exact hF _ _ ha
  | level _ hd _ ha => exact whole_append.mpr ⟨hd.whole hF, hF _ _ ha⟩

theorem Primary.whole (hE : ∀ around, WholePhrase (E around)) (h : Primary src E around ls ss) : Whole ss := by
  cases h with
  | literal => exact whole_node rfl whole_nil
  | field => exact whole_node rfl whole_nil
  | qualified => exact whole_node rfl whole_nil
  | call _ _ h => exact whole_node rfl (h.whole (hE _))
  | group _ h _ => exact hE _ _ _ h
  | ifBlock _ h hrow _ => exact whole_node rfl (whole_append.mpr ⟨h.whole (hE _), hrow.whole (hE _)⟩)
  | caseBlock _ h hrow _ _ => exact whole_node rfl (whole_append.mpr ⟨hE _ _ _ h, hrow.whole (hE _)⟩)
  | lodBlock _ h _ => exact whole_node rfl (h.whole (hE _))

theorem Operand.whole (hE : ∀ around, WholePhrase (E around)) (h : Operand src E around ls ss) : Whole ss := by
  induction h with
  | signed _ _ ih => exact whole_append.mpr ⟨whole_operator src _, ih⟩
  | primary h => exact h.whole hE

theorem Links.whole (hE : ∀ around, WholePhrase (E around)) (h : Links src E around ls ss) : Whole ss := by
  induction h with
  | nil => exact whole_nil
  | operand _ h _ ih => exact whole_append.mpr ⟨whole_append.mpr ⟨whole_operator src _, h.whole hE⟩, ih⟩
  | list _ _ h _ _ ih => exact whole_append.mpr ⟨whole_append.mpr ⟨whole_operator src _, h.whole (hE _)⟩, ih⟩

theorem expression_whole (src : Source) (levels : Nat) (around : Option Scope) :
    WholePhrase (Expression src levels around) := by
  induction levels generalizing around with
  | zero => exact nofun
  | succ levels ih =>
    rintro ls ss ⟨ha, hb⟩
    exact whole_append.mpr ⟨ha.whole ih, hb.whole ih⟩

theorem Statements.whole (hF : WholePhrase F) (h : Statements F ls ss) : Whole ss := by
  induction h with
  | nil => exact whole_nil
  | cons ha _ ih => exact whole_append.mpr ⟨hF _ _ ha, ih⟩

/-- The symbols of statements are complete, and none is a comment. -/
theorem Program.whole (h : Program src ls ss) : Whole ss :=
  Statements.whole (expression_whole src _ none) h

end Calculation.Grammar
