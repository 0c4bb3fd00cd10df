import Calculation.Proofs.Reading.Onward

/-!
Every construct leads onward, and an expression takes at least the lexeme that it starts with. The constructs
get the way to read an expression from outside, so what they do is stated for any that is steady; the levels
of nesting are tied together at the end.
-/
namespace Calculation.Statement
open Cursor

/-- An expression can be read from here: the lexeme in front starts one. -/
def AtStart (c : Cursor) : Prop :=
  c.kind?.any Token.Kind.startsExpression = true

/-- What the constructs rely on in the way to read an expression. -/
structure SteadyExpression (expr : ReadExpression) : Prop where
  onward : ∀ place, Steady (expr place)
  takes : ∀ place c, AtStart c → (expr place c).2.rest.length < c.rest.length

variable {expr : ReadExpression}

theorem atStart_of_atOperand {c : Cursor} (h : c.atOperand = true) : AtStart c := by
  unfold Cursor.atOperand at h
  exact (Bool.and_eq_true_iff.mp h).1

theorem atStart_cons {c : Cursor} {l : Lexeme} {ls : List Lexeme} (hc : c.rest = l :: ls)
    (hl : l.token.kind.startsExpression = true) : AtStart c := by
  simp [AtStart, Cursor.kind?, hc, hl]

theorem operatorSymbol_onward (src : Source) (op : Token) : Steady (operatorSymbol src op) := by
  intro c
  unfold operatorSymbol
  split
  · dsimp only
    exact .leaf src _ _ _ _ c
  · exact .refl c

theorem literal_onward (src : Source) (t : Token) : Steady (literal src t) := by
  intro c
  unfold literal
  cases openLiteral? t with
  | none => exact .leaf src _ _ _ _ c
  | some cause => exact (Onward.fault c cause t.range).trans (.leaf src _ _ _ _ _)

theorem checkField_onward (t : Token) (c : Cursor) : Onward c (checkField t c) := by
  unfold checkField
  split
  · exact .fault c _ _
  · exact .refl c

theorem qualified?_onward : Steady? qualified? := by
  intro c t d h
  unfold qualified? at h
  obtain ⟨⟨dot, e⟩, he, hd⟩ := Option.bind_eq_some_iff.mp h
  exact (Onward.of_eat he).trans (.of_eat hd)

theorem fieldReference_onward (src : Source) (t : Token) : Steady (fieldReference src t) := by
  intro c
  have hc := checkField_onward t c
  unfold fieldReference
  dsimp only
  split
  · rename_i t' d hq
    split at hq
    · cases hq
    · have hd := qualified?_onward _ _ _ hq
      exact hc.trans (hd.trans ((checkField_onward t' d).trans (.leaf src _ _ _ _ _)))
  · exact hc.trans (.leaf src _ _ _ _ _)

theorem bareIdentifier_onward (src : Source) (t : Token) : Steady (bareIdentifier src t) :=
  fun c => (Onward.fault c _ _).trans (.leaf src _ _ _ _ _)

theorem nextInList?_onward (h : SteadyExpression expr) (place : Place) : Steady? (nextInList? expr place) := by
  intro c a d hd
  unfold nextInList? at hd
  split at hd
  · rename_i e he
    split at hd
    · simp only [Option.some.injEq] at hd
      have hx := h.onward place e
      rw [hd] at hx
      exact (Onward.of_eat he).trans hx
    · cases hd
  · cases hd

theorem skipComma_onward (c : Cursor) : Onward c (skipComma c) := by
  unfold skipComma
  cases h : c.eat? .comma with
  | none => exact .refl c
  | some p => exact .of_eat h

theorem commaList_onward (h : SteadyExpression expr) (place : Place) : Steady (commaList expr place) := by
  intro c
  unfold commaList
  split
  · exact (h.onward place c).trans (((nextInList?_onward h place).many _).trans (skipComma_onward _))
  · exact .refl c

theorem groupingBody_onward (h : SteadyExpression expr) (isList : Bool) (paren : Token) :
    Steady (groupingBody expr isList paren) := by
  intro c
  unfold groupingBody
  split
  · split
    · exact commaList_onward h _ c
    · exact h.onward _ c
  · split
    · exact .fault c _ _
    · exact .refl c

theorem closeGrouping_onward (paren : Token) (c : Cursor) : Onward c (closeGrouping paren c) := by
  unfold closeGrouping
  split
  · rename_i he
    exact .of_eat he
  · exact .fault c _ _

theorem grouping_onward (h : SteadyExpression expr) (isList : Bool) (paren : Token) :
    Steady (grouping expr isList paren) :=
  fun c => ((groupingBody_onward h isList paren).inside .rightParen c).trans (closeGrouping_onward paren _)

theorem argument?_onward (src : Source) (h : SteadyExpression expr) (function : String) :
    Steady? (argument? src expr function) := by
  intro c a d hd
  unfold argument? at hd
  split at hd
  · cases hd
  · dsimp only at hd
    split at hd
    · cases hd
      exact .fault c _ _
    · split at hd
      · cases hd
        exact (h.onward .arguments).recording c
      · cases hd

theorem behindArgument_onward (part : CallPart) (c : Cursor) : Onward c (behindArgument part c).cursor := by
  unfold behindArgument
  split
  · dsimp only
    split
    · exact .advance c
    · exact .advance c
  · split
    · exact .advance c
    · exact .refl c

theorem argumentRound_onward (src : Source) (h : SteadyExpression expr) (function : String) (c : Cursor) :
    Onward c (argumentRound src expr function c).cursor := by
  unfold argumentRound
  cases ha : argument? src expr function c with
  | none => exact .refl c
  | some p => exact (argument?_onward src h function _ _ _ ha).trans (behindArgument_onward p.1 p.2)

theorem argumentList_onward (src : Source) (h : SteadyExpression expr) (function : String) :
    Steady (argumentList src expr function) := by
  intro c
  unfold argumentList Cursor.loop
  exact onward_rounds (argumentRound_onward src h function) (c.rest.length + 1) c

theorem arguments_onward (src : Source) (h : SteadyExpression expr) (function : String) :
    Steady (arguments src expr function) := by
  intro c
  unfold arguments
  split
  · rename_i he
    exact .of_eat he
  · exact (argumentList_onward src h function).inside .rightParen c

theorem scopedArguments_onward (src : Source) (h : SteadyExpression expr) (name : Token) (isAggregate : Bool) :
    Steady (scopedArguments src expr name isAggregate) := by
  intro c
  unfold scopedArguments
  split
  · exact (arguments_onward src h name.text).inScope .aggregate c
  · exact arguments_onward src h name.text c

theorem checkSignature_onward (name : Token) (signature? : Option Signature) (count : Nat) (c : Cursor) :
    Onward c (checkSignature name signature? count c) := by
  unfold checkSignature
  split
  · exact .fault c _ _
  · split
    · exact .refl c
    · exact .fault c _ _

theorem checkCall_onward (name paren : Token) (signature? : Option Signature) (isClosed isComplete : Bool)
    (count : Nat) (c : Cursor) : Onward c (checkCall name paren signature? isClosed isComplete count c) := by
  unfold checkCall
  split
  · exact .fault c _ _
  · split
    · exact checkSignature_onward name signature? count c
    · exact .refl c

theorem finishCall_onward (src : Source) (name paren : Token) (isNested : Bool) (parts : List CallPart)
    (isClosed : Bool) : Steady (finishCall src name paren isNested parts isClosed) :=
  fun c => (checkCall_onward name paren _ isClosed _ _ c).trans (.finish src _ _)

theorem call_onward (src : Source) (h : SteadyExpression expr) (name paren : Token) :
    Steady (call src expr name paren) := by
  intro c
  exact (scopedArguments_onward src h name _ c).trans (finishCall_onward src name paren _ _ _ _)

theorem skipNext?_onward (h : SteadyExpression expr) (place : Place) : Steady? (skipNext? expr place) := by
  intro c a d hd
  unfold skipNext? at hd
  split at hd
  · cases hd
  · split at hd
    · cases hd
    · split at hd
      · simp only [Option.some.injEq] at hd
        have hx := h.onward place c
        rw [hd] at hx
        exact hx
      · cases hd
        exact .advance c

theorem skipFirst_onward (h : SteadyExpression expr) (place : Place) (t : Token) :
    Steady (skipFirst expr place t) := by
  intro c
  unfold skipFirst
  split
  · exact h.onward place c
  · exact .advance c

theorem skipStretch_onward (h : SteadyExpression expr) (place : Place) (t : Token) :
    Steady (skipStretch expr place t) :=
  fun c => (skipFirst_onward h place t c).trans ((skipNext?_onward h place).many _)

theorem resync_onward (src : Source) (h : SteadyExpression expr) (place : Place) (t : Token) :
    Steady (resync src expr place t) := by
  intro c
  have hs := (skipStretch_onward h place t).scanning (c.fault (.unexpected t.kind t.text false place) t.range)
  exact (Onward.fault c _ _).trans (hs.trans (.finish src _ _))

theorem tooDeep_onward (src : Source) (place : Place) : Steady (tooDeep src place) := by
  intro c
  unfold tooDeep
  split
  · exact .refl c
  · dsimp only
    exact (Onward.skip _ c).trans ((Onward.fault _ _ _).trans (.leaf src _ _ _ _ _))

theorem strayTokens_onward (c : Cursor) : Onward c (strayTokens c) := by
  unfold strayTokens
  split
  · exact .refl c
  · exact (Onward.skip _ c).trans (.fault _ _ _)

theorem required_onward (h : SteadyExpression expr) (place : Place) (keyword : Token) :
    Steady (required expr place keyword) := by
  intro c
  unfold required
  split
  · exact h.onward place c
  · exact .fault c _ _

theorem branch_onward (h : SteadyExpression expr) (place : Place) (kind : BranchKind) (keyword : Token) :
    Steady (branch expr place kind keyword) :=
  fun c => required_onward h place keyword c

theorem thenClause_onward (h : SteadyExpression expr) (place : Place) (opener : Token) :
    Steady (thenClause expr place opener) := by
  intro c
  unfold thenClause
  split
  · rename_i he
    exact (Onward.of_eat he).trans (branch_onward h place _ _ _)
  · dsimp only
    split
    · exact (Onward.fault c _ _).trans (h.onward place _)
    · exact .fault c _ _

theorem condition_onward (h : SteadyExpression expr) (place : Place) (kind : BranchKind) (keyword : Token) :
    Steady (condition expr place kind keyword) :=
  fun c => (branch_onward h place kind keyword c).trans (thenClause_onward h place keyword _)

theorem skippedClause_onward (src : Source) (h : SteadyExpression expr) (place : Place) (t : Token) :
    Steady (skippedClause src expr place t) :=
  fun c => resync_onward src h place t c

theorem nextClause?_onward (src : Source) (h : SteadyExpression expr) (place : Place) (keyword : Token.Kind)
    (kind : BranchKind) : Steady? (nextClause? src expr place keyword kind) := by
  intro c a d hd
  unfold nextClause? at hd
  split at hd
  · cases hd
  · split at hd
    · cases hd
    · rename_i l ls hl
      dsimp only at hd
      split at hd
      · cases hd
      · split at hd
        · simp only [Option.some.injEq] at hd
          have hx := condition_onward h place kind l.token c.advance
          rw [hd] at hx
          exact (Onward.advance c).trans hx
        · split at hd
          · simp only [Option.some.injEq] at hd
            have hx := branch_onward h place .else_ l.token c.advance
            rw [hd] at hx
            exact (Onward.advance c).trans hx
          · simp only [Option.some.injEq] at hd
            have hx := skippedClause_onward src h place l.token c
            rw [hd] at hx
            exact hx

theorem terminator_onward (opener : Token) : Steady (terminator opener) := by
  intro c
  unfold terminator
  split
  · rename_i he
    exact .of_eat he
  · exact .fault c _ _

theorem ifBody_onward (src : Source) (h : SteadyExpression expr) (opener : Token) :
    Steady (ifBody src expr opener) :=
  fun c => (condition_onward h .ifBlock .if_ opener c).trans ((nextClause?_onward src h _ _ _).many _)

theorem ifBlock_onward (src : Source) (h : SteadyExpression expr) (opener : Token) :
    Steady (ifBlock src expr opener) :=
  fun c => (ifBody_onward src h opener c).trans ((terminator_onward opener _).trans (.finish src _ _))

theorem caseBody_onward (src : Source) (h : SteadyExpression expr) (opener : Token) :
    Steady (caseBody src expr opener) :=
  fun c => (branch_onward h .caseBlock .case_ opener c).trans ((nextClause?_onward src h _ _ _).many _)

theorem checkWhen_onward (opener : Token) (hasWhen : Bool) (c : Cursor) :
    Onward c (checkWhen opener hasWhen c) := by
  unfold checkWhen
  split
  · exact .refl c
  · exact .fault c _ _

theorem caseBlock_onward (src : Source) (h : SteadyExpression expr) (opener : Token) :
    Steady (caseBlock src expr opener) := by
  intro c
  refine (caseBody_onward src h opener c).trans ?_
  exact (checkWhen_onward opener _ _).trans ((terminator_onward opener _).trans (.finish src _ _))

theorem dimensions_onward (h : SteadyExpression expr) (keyword : Token) : Steady (dimensions expr keyword) := by
  intro c
  unfold dimensions
  split
  · exact commaList_onward h .lodDimensions c
  · exact .refl c

theorem aggregate_onward (h : SteadyExpression expr) (keyword : Token) : Steady (aggregate expr keyword) := by
  intro c
  unfold aggregate
  split
  · rename_i he
    exact (Onward.of_eat he).trans (branch_onward h _ _ _ _)
  · exact .fault c _ _

theorem lodHead_onward (h : SteadyExpression expr) (brace : Token) : Steady (lodHead expr brace) := by
  intro c
  unfold lodHead
  split
  · rename_i ht
    dsimp only
    exact (Onward.of_take ht).trans ((dimensions_onward h _ _).trans (aggregate_onward h _ _))
  · exact branch_onward h .lodBody .aggregate brace c

theorem nextSkipped?_onward (src : Source) (h : SteadyExpression expr) : Steady? (nextSkipped? src expr) := by
  intro c a d hd
  unfold nextSkipped? at hd
  split at hd
  · cases hd
  · split at hd
    · cases hd
    · rename_i l ls hl
      split at hd
      · cases hd
      · simp only [Option.some.injEq] at hd
        have hx := skippedClause_onward src h .lodBody l.token c
        rw [hd] at hx
        exact hx

/-- The closing brace of an LOD block, if it stands here. -/
def closeBrace (x : (LodScope × Clause) × Cursor) : (LodScope × Clause × Option Range) × Cursor :=
  match x.2.eat? .rightBrace with
  | some (t, c) => ((x.1.1, x.1.2, some t.range), c)
  | none => ((x.1.1, x.1.2, none), x.2)

theorem closeBrace_onward (x : (LodScope × Clause) × Cursor) : Onward x.2 (closeBrace x).2 := by
  unfold closeBrace
  split
  · rename_i he
    exact .of_eat he
  · exact .refl _

/-- The head of an LOD block and the skipped clauses behind it. -/
theorem lodBody_eq (src : Source) (expr : ReadExpression) (brace : Token) (c : Cursor) :
    lodBody src expr brace c = closeBrace
      (((lodHead expr brace c).1.1, (lodHead expr brace c).1.2.append
        (.join ((lodHead expr brace c).2.many (nextSkipped? src expr)).1)),
        ((lodHead expr brace c).2.many (nextSkipped? src expr)).2) := rfl

theorem lodBody_onward (src : Source) (h : SteadyExpression expr) (brace : Token) :
    Steady (lodBody src expr brace) := by
  intro c
  rw [lodBody_eq]
  refine Onward.trans ?_ (closeBrace_onward _)
  exact (lodHead_onward h brace c).trans ((nextSkipped?_onward src h).many _)

theorem checkBrace_onward (brace : Token) (stop : Option Range) (c : Cursor) :
    Onward c (checkBrace brace stop c) := by
  unfold checkBrace
  split
  · exact .refl c
  · exact .fault c _ _

theorem lodBlock_onward (src : Source) (h : SteadyExpression expr) (brace : Token) :
    Steady (lodBlock src expr brace) := by
  intro c
  have hb := ((lodBody_onward src h brace).inside .rightBrace).inScope .lod c
  exact hb.trans ((checkBrace_onward brace _ _).trans (.finish src _ _))

theorem sign?_onward (src : Source) : Steady? (sign? src) := by
  intro c a d hd
  unfold sign? at hd
  split at hd
  · obtain ⟨⟨t, e⟩, ht, he⟩ := Option.map_eq_some_iff.mp hd
    have ho := operatorSymbol_onward src t e
    cases he
    exact (Onward.of_take ht).trans ho
  · cases hd

theorem nextSign?_onward (src : Source) : Steady? (nextSign? src) := by
  intro c a d hd
  unfold nextSign? at hd
  split at hd
  · cases hd
  · exact sign?_onward src c a d hd

theorem signs_onward (src : Source) : Steady (signs src) := by
  intro c
  unfold signs
  split
  · exact .refl c
  · rename_i hs
    exact (sign?_onward src _ _ _ hs).trans ((nextSign?_onward src).many _)

theorem word_onward (src : Source) (h : SteadyExpression expr) (t : Token) : Steady (word src expr t) := by
  intro c
  unfold word
  split
  · rename_i he
    exact (Onward.of_eat he).trans (call_onward src h t _ _)
  · exact bareIdentifier_onward src t c

theorem primary_onward (src : Source) (h : SteadyExpression expr) (t : Token) : Steady (primary src expr t) := by
  intro c
  unfold primary
  dsimp only
  split
  · exact fieldReference_onward src t c
  · exact word_onward src h t c
  · exact grouping_onward h false t c
  · exact lodBlock_onward src h t c
  · exact ifBlock_onward src h t c
  · exact caseBlock_onward src h t c
  · exact literal_onward src t c

theorem signed_onward (src : Source) (h : SteadyExpression expr) (signs : List (Token × List Symbol)) :
    Steady (signed src expr signs) := by
  intro c
  unfold signed
  dsimp only
  split
  · rename_i ht
    split at ht
    · exact (Onward.of_take ht).trans (primary_onward src h _ _)
    · cases ht
  · split
    · exact .fault c _ _
    · exact .refl c

theorem operand_onward (src : Source) (h : SteadyExpression expr) : Steady (operand src expr) :=
  fun c => (signs_onward src c).trans (signed_onward src h _ _)

theorem rightSide_onward (src : Source) (h : SteadyExpression expr) (place : Place) (op : Token) :
    Steady (rightSide src expr place op) := by
  intro c
  unfold rightSide
  split
  · rename_i hp
    split at hp
    · exact (Onward.of_eat hp).trans (grouping_onward h true _ _)
    · cases hp
  · split
    · exact operand_onward src h c
    · exact .fault c _ _

theorem link?_onward (src : Source) (h : SteadyExpression expr) (place : Place) :
    Steady? (link? src expr place) := by
  intro c a d hd
  unfold link? at hd
  obtain ⟨⟨op, e⟩, ho, he⟩ := Option.map_eq_some_iff.mp hd
  have hop := (Onward.of_operator ho).trans (operatorSymbol_onward src op e)
  cases he
  exact hop.trans (rightSide_onward src h place op _)

theorem chain_onward (src : Source) (h : SteadyExpression expr) (place : Place) :
    Steady (chain src expr place) :=
  fun c => (operand_onward src h c).trans ((link?_onward src h place).many _)

theorem atStart_iff {c : Cursor} :
    AtStart c ↔ ∃ l ls, c.rest = l :: ls ∧ l.token.kind.startsExpression = true := by
  unfold AtStart Cursor.kind?
  cases c.rest with
  | nil => simp
  | cons l ls => simp

theorem tooDeep_takes (src : Source) (place : Place) {c : Cursor} (hc : AtStart c) :
    (tooDeep src place c).2.rest.length < c.rest.length := by
  obtain ⟨l, ls, hl, -⟩ := atStart_iff.mp hc
  unfold tooDeep
  rw [hl]
  dsimp only
  have hs := (Onward.skip (runLength ((balanceBehind? 0 l.token.kind).getD 0) ls) c.advance).length_le
  have ha := length_advance hl
  rw [Nat.add_comm]
  exact Nat.lt_of_le_of_lt hs (hl ▸ ha)

theorem sign?_takes (src : Source) : Takes (sign? src) := by
  intro c a d hd
  unfold sign? at hd
  split at hd
  · obtain ⟨⟨t, e⟩, ht, he⟩ := Option.map_eq_some_iff.mp hd
    have ho := (operatorSymbol_onward src t e).length_le
    cases he
    exact Nat.lt_of_le_of_lt ho (length_of_take ht)
  · cases hd

/-- Either a sign is taken, or the first lexeme of what it could stand before. -/
theorem operand_takes (src : Source) (h : SteadyExpression expr) {c : Cursor} (hc : AtStart c) :
    (operand src expr c).2.rest.length < c.rest.length := by
  cases hs : sign? src c with
  | some p =>
    have ht := sign?_takes src c p.1 p.2 hs
    have hm := ((nextSign?_onward src).many p.2).length_le
    have ho := (signed_onward src h (signs src c).1 (signs src c).2).length_le
    have he : (signs src c).2 = (p.2.many (nextSign? src)).2 := by simp only [signs, hs]
    have hr : operand src expr c = signed src expr (signs src c).1 (signs src c).2 := rfl
    rw [hr]
    rw [he] at ho ⊢
    omega
  | none =>
    obtain ⟨l, ls, hl, -⟩ := atStart_iff.mp hc
    have ht : c.take? = some (l.token, c.advance) := by simp [Cursor.take?, hl]
    have he : operand src expr c = primary src expr l.token c.advance := by
      have hk : c.kind?.any Token.Kind.startsExpression = true := hc
      simp [operand, signs, hs, signed, hk, ht]
    have hp := (primary_onward src h l.token c.advance).length_le
    have ha := length_advance hl
    rw [he]
    omega

theorem expression_steady (src : Source) (levels : Nat) : SteadyExpression (expression src levels) := by
  induction levels with
  | zero => exact ⟨tooDeep_onward src, fun place c => tooDeep_takes src place⟩
  | succ levels ih =>
    refine ⟨chain_onward src ih, fun place c hc => ?_⟩
    have hm := ((link?_onward src ih place).many (operand src (expression src levels) c).2).length_le
    exact Nat.lt_of_le_of_lt hm (operand_takes src ih hc)

theorem nextSign?_takes (src : Source) : Takes (nextSign? src) := by
  intro c a d hd
  unfold nextSign? at hd
  split at hd
  · cases hd
  · exact sign?_takes src c a d hd

theorem nextInList?_takes (h : SteadyExpression expr) (place : Place) : Takes (nextInList? expr place) := by
  intro c a d hd
  unfold nextInList? at hd
  split at hd
  · rename_i e he
    split at hd
    · have hx := (h.onward place e).length_le
      rw [Option.some.inj hd] at hx
      exact Nat.lt_of_le_of_lt hx (length_of_eat he)
    · cases hd
  · cases hd

theorem skipNext?_takes (h : SteadyExpression expr) (place : Place) : Takes (skipNext? expr place) := by
  intro c a d hd
  unfold skipNext? at hd
  split at hd
  · cases hd
  · rename_i l ls hl
    split at hd
    · cases hd
    · split at hd
      · rename_i hs
        have hx := h.takes place c (atStart_cons hl hs)
        rw [Option.some.inj hd] at hx
        exact hx
      · cases hd
        exact length_advance hl

theorem skipStretch_takes (h : SteadyExpression expr) (place : Place) {c : Cursor} {l : Lexeme}
    {ls : List Lexeme} (hl : c.rest = l :: ls) :
    (skipStretch expr place l.token c).2.rest.length < c.rest.length := by
  have hm := ((skipNext?_onward h place).many (skipFirst expr place l.token c).2).length_le
  refine Nat.lt_of_le_of_lt hm ?_
  unfold skipFirst
  split
  · rename_i hs
    exact h.takes place c (atStart_cons hl hs)
  · exact length_advance hl

theorem resync_takes (src : Source) (h : SteadyExpression expr) (place : Place) {c : Cursor} {l : Lexeme}
    {ls : List Lexeme} (hl : c.rest = l :: ls) :
    (resync src expr place l.token c).2.rest.length < c.rest.length := by
  have hl' : ({ c.fault (.unexpected l.token.kind l.token.text false place) l.token.range with
      scans := c.scans + 1 } : Cursor).rest = l :: ls := hl
  have hs := skipStretch_takes h place hl'
  exact Nat.lt_of_le_of_lt (Onward.finish src _ _).length_le hs

theorem nextClause?_takes (src : Source) (h : SteadyExpression expr) (place : Place) (keyword : Token.Kind)
    (kind : BranchKind) : Takes (nextClause? src expr place keyword kind) := by
  intro c a d hd
  unfold nextClause? at hd
  split at hd
  · cases hd
  · split at hd
    · cases hd
    · rename_i l ls hl
      have ha := length_advance hl
      dsimp only at hd
      split at hd
      · cases hd
      · split at hd
        · have hx := (condition_onward h place kind l.token c.advance).length_le
          rw [Option.some.inj hd] at hx
          exact Nat.lt_of_le_of_lt hx ha
        · split at hd
          · have hx := (branch_onward h place .else_ l.token c.advance).length_le
            rw [Option.some.inj hd] at hx
            exact Nat.lt_of_le_of_lt hx ha
          · have hx := resync_takes src h place hl
            cases hd
            exact hx

theorem nextSkipped?_takes (src : Source) (h : SteadyExpression expr) : Takes (nextSkipped? src expr) := by
  intro c a d hd
  unfold nextSkipped? at hd
  split at hd
  · cases hd
  · split at hd
    · cases hd
    · rename_i l ls hl
      split at hd
      · cases hd
      · have hx := resync_takes src h .lodBody hl
        cases hd
        exact hx

theorem link?_takes (src : Source) (h : SteadyExpression expr) (place : Place) : Takes (link? src expr place) := by
  intro c a d hd
  unfold link? at hd
  obtain ⟨⟨op, e⟩, ho, he⟩ := Option.map_eq_some_iff.mp hd
  have hon := (operatorSymbol_onward src op e).trans (rightSide_onward src h place op _)
  cases he
  exact Nat.lt_of_le_of_lt hon.length_le (length_of_operator ho)

theorem argumentRound_advances (src : Source) (h : SteadyExpression expr) (function : String) :
    Advances (argumentRound src expr function) := by
  intro c a d hd
  unfold argumentRound at hd
  split at hd
  · cases hd
  · rename_i part e ha
    have ho := (argument?_onward src h function _ _ _ ha).length_le
    unfold behindArgument at hd
    split at hd
    · rename_i hcomma
      dsimp only at hd
      split at hd
      · cases hd
      · cases hd
        cases hr : e.rest with
        | nil => simp [Cursor.isAt, Cursor.kind?, hr] at hcomma
        | cons l ls => exact Nat.lt_of_lt_of_le (length_advance hr) ho
    · split at hd <;> cases hd

end Calculation.Statement
