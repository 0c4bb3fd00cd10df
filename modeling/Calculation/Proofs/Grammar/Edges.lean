import Calculation.Proofs.Grammar.Rules

namespace Calculation.Grammar
open Statement

variable {src : Source} {E : Expressions} {F : Phrase} {around : Option Scope} {l : Lexeme} {k : Token.Kind}
  {ls as bs rest : List Lexeme} {ss tt : List Symbol} {us : List Branch}

/-- The lexemes do not go on with the expression before them. -/
def Stops (ls : List Lexeme) : Prop :=
  ∀ l ∈ ls.head?, l.token.kind.isBinaryOperator = false ∧ l.token.kind ≠ .dot

/-- No dot stands in front, which would qualify a field before it. -/
def Undotted (ls : List Lexeme) : Prop :=
  ∀ l ∈ ls.head?, l.token.kind ≠ .dot

theorem Stops.undotted (h : Stops ls) : Undotted ls :=
  fun l hl => (h l hl).2

theorem Stops.of_kind (hl : l.token.kind = k) (h : k.isBinaryOperator = false ∧ k ≠ .dot) (ls : List Lexeme) :
    Stops (l :: ls) := by
  simpa [Stops, hl] using h

theorem Undotted.of_operator (h : l.token.kind.isBinaryOperator = true) (ls : List Lexeme) : Undotted (l :: ls) := by
  intro x hx hdot
  obtain rfl := Option.some.inj hx
  rw [hdot] at h
  cases h

theorem More.stops (h : More F bs tt) (hstop : Stops rest) : Stops (bs ++ rest) := by
  cases h with
  | nil => exact hstop
  | cons hk _ _ => exact .of_kind hk ⟨rfl, nofun⟩ _

/-- A keyword that starts the conditions of a block. -/
def StartsCondition (k : Token.Kind) : Prop :=
  k = .elseIf ∨ k = .when_

theorem StartsCondition.spec (h : StartsCondition k) : k.isBlockContinuation = true ∧ k ≠ .end_ ∧ k ≠ .else_ ∧
    k.isBinaryOperator = false ∧ k ≠ .dot := by
  rcases h with rfl | rfl <;> simp [Token.Kind.isBlockContinuation, Token.Kind.isBinaryOperator]

theorem ClauseRow.stops {kind : BranchKind} (h : ClauseRow F k kind ls ss us) (hs : StartsCondition k)
    (hstop : Stops rest) : Stops (ls ++ rest) := by
  cases h with
  | nil => exact hstop
  | condition hl _ _ => exact .of_kind hl hs.spec.2.2.2 _
  | else_ hl _ _ => exact .of_kind hl ⟨rfl, nofun⟩ _

theorem Links.undotted (h : Links src E around bs tt) (hstop : Stops rest) : Undotted (bs ++ rest) := by
  cases h with
  | nil => exact hstop.undotted
  | operand hl _ _ => exact .of_operator hl _
  | list hl _ _ _ _ => exact .of_operator (by rw [hl]; rfl) _

/-- The lexemes begin with one that starts an expression. -/
def Starts (ls : List Lexeme) : Prop :=
  ∃ l as, ls = l :: as ∧ l.token.kind.startsExpression = true

theorem Starts.append (h : Starts as) (bs : List Lexeme) : Starts (as ++ bs) := by
  obtain ⟨l, as, rfl, hl⟩ := h
  exact ⟨l, as ++ bs, rfl, hl⟩

theorem CommaList.starts (h : CommaList F ls ss) (hF : ∀ ls ss, F ls ss → Starts ls) : Starts ls := by
  cases h with
  | plain ha _ => exact (hF _ _ ha).append _
  | trailing ha _ _ => exact ((hF _ _ ha).append _).append _

theorem Arguments.starts {parts : List CallPart} (h : Arguments src F ls parts) (hF : ∀ ls ss, F ls ss → Starts ls) :
    Starts ls := by
  cases h with
  | one ha => exact hF _ _ ha
  | cons ha _ _ => exact (hF _ _ ha).append _

theorem startsExpression_of_sign (h : isSign k = true) : k.startsExpression = true := by
  revert h
  cases k <;> simp [isSign, Token.Kind.startsExpression]

/-- A construct can start here, or a parenthesis: what stands behind the signs of an operand. -/
def startsPrimary (k : Token.Kind) : Bool :=
  k.startsExpression && !isSign k

theorem startsPrimary_of_literal (h : isLiteral k = true) : startsPrimary k = true := by
  revert h
  cases k <;> simp [isLiteral, startsPrimary, Token.Kind.startsExpression, isSign]

theorem not_operator_of_startsPrimary (h : startsPrimary k = true) : k.isBinaryOperator = false := by
  revert h
  cases k <;> simp [startsPrimary, Token.Kind.startsExpression, isSign, Token.Kind.isBinaryOperator]

theorem Primary.starts (h : Primary src E around ls ss) :
    ∃ l as, ls = l :: as ∧ startsPrimary l.token.kind = true := by
  cases h with
  | literal hl _ => exact ⟨_, _, rfl, startsPrimary_of_literal hl⟩
  | field hl _ => exact ⟨_, _, rfl, hl ▸ rfl⟩
  | qualified hl _ _ _ _ => exact ⟨_, _, rfl, hl ▸ rfl⟩
  | call hname _ _ => exact ⟨_, _, rfl, hname ▸ rfl⟩
  | group hparen _ _ => exact ⟨_, _, rfl, hparen ▸ rfl⟩
  | ifBlock hl _ _ _ => exact ⟨_, _, rfl, hl ▸ rfl⟩
  | caseBlock hl _ _ _ _ => exact ⟨_, _, rfl, hl ▸ rfl⟩
  | lodBlock hbrace _ _ => exact ⟨_, _, rfl, hbrace ▸ rfl⟩

theorem Operand.starts (h : Operand src E around ls ss) : Starts ls := by
  cases h with
  | signed hl _ => exact ⟨_, _, rfl, startsExpression_of_sign hl⟩
  | primary h =>
    obtain ⟨l, as, rfl, hk⟩ := h.starts
    exact ⟨l, as, rfl, (Bool.and_eq_true_iff.mp hk).1⟩

theorem Chain.starts (h : Chain src E around ls ss) : Starts ls := by
  cases h with
  | mk ha _ => exact ha.starts.append _

/-- The signs in front of an operand, each with its symbols. -/
def signsOf (src : Source) (ws : List Lexeme) : List (Token × List Symbol) :=
  ws.map fun l => (l.token, operator src l.token)

/-- An operand is some signs and what they stand before. -/
theorem Operand.split (h : Operand src E around ls ss) : ∃ ws as tt, ls = ws ++ as ∧
    (∀ l ∈ ws, isSign l.token.kind = true) ∧ Primary src E around as tt ∧
      ss = (signsOf src ws).flatMap (·.2) ++ tt := by
  induction h with
  | @signed l as ss hl _ ih =>
    obtain ⟨ws, as, tt, rfl, hws, hprimary, rfl⟩ := ih
    refine ⟨l :: ws, as, tt, rfl, List.forall_mem_cons.mpr ⟨hl, hws⟩, hprimary, ?_⟩
    exact (List.append_assoc _ _ _).symm
  | primary h => exact ⟨[], _, _, rfl, by simp, h, rfl⟩

/-- An operand that starts with a parenthesis is a list of one. -/
theorem Operand.group (h : Operand src E around (l :: ls) ss) (hk : l.token.kind = .leftParen) :
    ∃ as close, ls = as ++ [close] ∧ close.token.kind = .rightParen ∧ CommaList (E around) as ss := by
  cases h with
  | signed hl _ =>
    rw [hk] at hl
    cases hl
  | primary h =>
    cases h with
    | group _ ha hclose => exact ⟨_, _, rfl, hclose, by simpa using CommaList.plain ha .nil⟩
    | literal hl _ =>
      rw [hk] at hl
      cases hl
    | _ => simp_all

end Calculation.Grammar
