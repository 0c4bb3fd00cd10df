import Calculation.Proofs.Reading.Charges

/-!
What the faults of blocks and expressions are charged to. The conditions of a block that no THEN follows are charged to
their keywords, also where they stand in a row of clauses; what else the block lacks is charged to what opens it, but
for the colon of an LOD block, which is charged to its keyword. A sign or operator is charged for the operand that it
lacks, also when others stand before it. So it is for every expression, at every level of nesting, and every statement.
-/
namespace Calculation.Statement
open Cursor Branch

variable {src : Source} {expr : ReadExpression} {c d e : Cursor} {t opener brace : Token} {l : Lexeme}
  {ls : List Lexeme} {ss : List Symbol} {a b : Clause}

theorem required_charges (h : ChargedExpression src expr) (place : Place) (keyword : Token) (c : Cursor) :
    Charges src keyword [.missingExpression] c (required expr place keyword c).1 []
      (required expr place keyword c).2 := by
  unfold required
  split
  · rename_i hat
    exact .permit (List.nil_sublist _) (h.clear place (atStart_of_atOperand hat) keyword)
  · exact .plain c (.missingExpression keyword.kind) rfl rfl

theorem branch_charges (h : ChargedExpression src expr) (place : Place) (kind : BranchKind) (keyword : Token)
    (c : Cursor) :
    Charges src keyword [.missingExpression] c (branch expr place kind keyword c).1.symbols []
      (branch expr place kind keyword c).2 :=
  required_charges h place keyword c

/-- A branch behind its keyword reports nothing before it. -/
theorem branch_clear (h : ChargedExpression src expr) (place : Place) (kind : BranchKind)
    (ht : c.take? = some (t, d)) :
    Clear src c (branch expr place kind t d).1.symbols (branch expr place kind t d).2 :=
  fun _ => .taking ht (by simp) (branch_charges h place kind t d)

/-- THEN is due to the condition before it. -/
theorem thenClause_charges (h : ChargedExpression src expr) (place : Place) (keyword : Token) {x : Branch}
    (hx : x.kind.isCondition = true) (hk : x.keyword = keyword.range) (c : Cursor) :
    Charges src keyword [.missingThen] c (thenClause expr place keyword c).1.symbols
      (thenCharges (x :: (thenClause expr place keyword c).1.branches)) (thenClause expr place keyword c).2 := by
  unfold thenClause
  split
  · rename_i t d he
    have hfollowed (r : Range) : thenCharges [x, ⟨.then_, t.range, r⟩] = [] := by
      simp [thenCharges, unfollowed, BranchKind.isCondition]
    rw [show (branch expr place .then_ t d).1.branches = [⟨.then_, t.range, _⟩] from rfl, hfollowed]
    exact .permit (List.nil_sublist _) (branch_clear h place .then_ (eat?_eq_some he).1 keyword)
  · have hdue : thenCharges [x] = [(.missingThen, keyword.range)] := by
      simp [thenCharges, unfollowed, hx, hk]
    have hmet : Charges src keyword [.missingThen] c [] [(.missingThen, keyword.range)]
        (c.fault (.missingThen keyword.kind) keyword.range) := .owing c (.missingThen keyword.kind) rfl rfl
    dsimp only
    rw [hdue]
    split
    · rename_i hat
      exact hmet.before (h.clear place (atStart_of_atOperand hat))
    · exact hmet

theorem condition_charges (h : ChargedExpression src expr) (place : Place) {kind : BranchKind}
    (hk : kind.isCondition = true) (keyword : Token) (c : Cursor) :
    Charges src keyword [.missingExpression, .missingThen] c (condition expr place kind keyword c).1.symbols
      (thenCharges (condition expr place kind keyword c).1.branches) (condition expr place kind keyword c).2 :=
  .next (branch_charges h place kind keyword c)
    (thenClause_charges h place keyword (x := ⟨kind, keyword.range, _⟩) hk rfl _)

/-- A clause that follows no condition, and whose own conditions lack THEN just when that is due. -/
structure ClearClause (src : Source) (c : Cursor) (a : Clause) (d : Cursor) : Prop where
  front : a.branches.head?.all (·.kind != .then_) = true
  charges : ∀ t, Charges src t [] c a.symbols (thenCharges a.branches) d

theorem ClearClause.append (ha : ClearClause src c a d) (hb : ClearClause src d b e) :
    ClearClause src c (a.append b) e := by
  refine ⟨?_, fun t => ?_⟩
  · have hfront := ha.front
    unfold Clause.append
    cases hbranches : a.branches with
    | nil => exact hb.front
    | cons => rwa [hbranches] at hfront
  · have happend : thenCharges (a.append b).branches = thenCharges a.branches ++ thenCharges b.branches :=
      thenCharges_append hb.front
    exact happend ▸ (ha.charges t).next (hb.charges t)

theorem skippedClause_clear (h : ChargedExpression src expr) (place : Place) (hl : c.rest = l :: ls) :
    ClearClause src c (skippedClause src expr place l.token c).1 (skippedClause src expr place l.token c).2 :=
  ⟨rfl, resync_clear h place hl⟩

theorem nextClause?_clear (h : ChargedExpression src expr) (place : Place) (k : Token.Kind) (kind : BranchKind)
    (hk : kind.isCondition = true) (hd : nextClause? src expr place k kind c = some (a, d)) :
    ClearClause src c a d := by
  unfold nextClause? at hd
  split at hd
  · cases hd
  · split at hd
    · cases hd
    · rename_i l ls hl
      dsimp only at hd
      split at hd
      · cases hd
      · split at hd
        · have hx := condition_charges h place hk l.token c.advance
          have hfront :
              (condition expr place kind l.token c.advance).1.branches.head?.all (·.kind != .then_) = true := by
            cases kind <;> first | rfl | cases hk
          rw [Option.some.inj hd] at hx hfront
          exact ⟨hfront, fun _ => .take hl (by simp) hx⟩
        · split at hd
          · have hx := branch_clear h place .else_ (take?_of_rest hl)
            cases hd
            exact ⟨rfl, hx⟩
          · cases hd
            exact skippedClause_clear h place hl

/-- Clauses one after the other. -/
theorem clauses_clear {read? : Cursor → Option (Clause × Cursor)}
    (h : ∀ c a d, read? c = some (a, d) → ClearClause src c a d) (c : Cursor) :
    ClearClause src c (Clause.join (c.many read?).1) (c.many read?).2 :=
  many_rule (P := fun c as e => ClearClause src c (Clause.join as) e) (fun c => ⟨rfl, fun t => .stay t c⟩)
    (fun c a d as _ hr ih => Clause.join_cons a as ▸ (h c a d hr).append ih) c

/-- A block from what was read of it, once the faults for what it lacks have been reported. -/
theorem finishBlock_charges {kind : BlockKind} {stop : Option Range} {ks : List Code} {scope : Range}
    (hk : opener.kind = kind.openerKind)
    (h : Charges src opener ks c a.symbols (kind.lacks opener.range scope a.branches stop) d)
    (hscope : kind.lacksColon a.branches = true →
      ∃ l ls, c.rest = l :: ls ∧ scope = l.token.range ∧ d.rest.length < c.rest.length) :
    Charges src opener ks c [(finishBlock src kind opener a stop d).1] [] (finishBlock src kind opener a stop d).2 :=
  .finish (s := ⟨_, .block kind a.branches stop, _, a.symbols, _, []⟩) ⟨hk, rfl, scope, rfl, hscope⟩ h

theorem lacks_if (opener scope : Range) (branches : List Branch) (stop : Option Range) :
    BlockKind.if_.lacks opener scope branches stop =
      thenCharges branches ++ if stop.isNone then [(.missingEnd, opener)] else [] := by
  simp [BlockKind.lacks, BlockKind.lacksWhen, BlockKind.lacksColon, BlockKind.openCause, Cause.code]

theorem lacks_case (opener scope : Range) (branches : List Branch) (stop : Option Range) :
    BlockKind.case_.lacks opener scope branches stop =
      thenCharges branches ++ (if !branches.any (·.kind == .when_) then [(.missingWhen, opener)] else []) ++
        if stop.isNone then [(.missingEnd, opener)] else [] := by
  simp [BlockKind.lacks, BlockKind.lacksWhen, BlockKind.lacksColon, BlockKind.openCause, Cause.code]

theorem terminator_charges (src : Source) (opener : Token) (c : Cursor) :
    Charges src opener [.missingEnd] c []
      (if (terminator opener c).1.isNone then [(.missingEnd, opener.range)] else []) (terminator opener c).2 := by
  unfold terminator
  split
  · rename_i he
    exact .permit (List.nil_sublist _) (Clear.eating he opener)
  · exact .owing c (.missingEnd opener.kind) rfl rfl

theorem ifBody_charges (h : ChargedExpression src expr) (opener : Token) (c : Cursor) :
    Charges src opener [.missingExpression, .missingThen] c (ifBody src expr opener c).1.symbols
      (thenCharges (ifBody src expr opener c).1.branches) (ifBody src expr opener c).2 := by
  have hclauses := clauses_clear (fun _ _ _ => nextClause?_clear h .ifBlock .elseIf .elseIf rfl)
    (condition expr .ifBlock .if_ opener c).2
  have happend : thenCharges (ifBody src expr opener c).1.branches = _ := thenCharges_append hclauses.front
  exact happend ▸ .next (condition_charges h .ifBlock rfl opener c) (hclauses.charges opener)

theorem ifBlock_owned (h : ChargedExpression src expr) (hk : opener.kind = .if_) (c : Cursor) :
    Owned src opener c [(ifBlock src expr opener c).1] (ifBlock src expr opener c).2 := by
  refine ⟨[.missingExpression, .missingThen, .missingEnd], by simp, by simp [Code.isUnexpected], ?_⟩
  have hall := (ifBody_charges h opener c).onto (terminator_charges src opener _)
  rw [← lacks_if opener.range default] at hall
  exact finishBlock_charges hk hall fun hlacks => absurd hlacks Bool.false_ne_true

theorem caseBody_charges (h : ChargedExpression src expr) (opener : Token) (c : Cursor) :
    Charges src opener [.missingExpression] c (caseBody src expr opener c).1.symbols
      (thenCharges (caseBody src expr opener c).1.branches) (caseBody src expr opener c).2 := by
  have hclauses := clauses_clear (fun _ _ _ => nextClause?_clear h .caseBlock .when_ .when_ rfl)
    (branch expr .caseBlock .case_ opener c).2
  have happend : thenCharges (caseBody src expr opener c).1.branches = _ := thenCharges_append hclauses.front
  exact happend ▸ .next (branch_charges h .caseBlock .case_ opener c) (hclauses.charges opener)

theorem checkWhen_charges (src : Source) (opener : Token) (hasWhen : Bool) (c : Cursor) :
    Charges src opener [.missingWhen] c [] (if !hasWhen then [(.missingWhen, opener.range)] else [])
      (checkWhen opener hasWhen c) := by
  cases hasWhen with
  | true => exact .permit (List.nil_sublist _) (.stay opener c)
  | false => exact .owing c .missingWhen rfl rfl

theorem caseBlock_owned (h : ChargedExpression src expr) (hk : opener.kind = .case_) (c : Cursor) :
    Owned src opener c [(caseBlock src expr opener c).1] (caseBlock src expr opener c).2 := by
  refine ⟨[.missingExpression, .missingWhen, .missingEnd], by simp, by simp [Code.isUnexpected], ?_⟩
  have hwhen := checkWhen_charges src opener (caseBody src expr opener c).1.hasWhen (caseBody src expr opener c).2
  have hall := ((caseBody_charges h opener c).onto hwhen).onto (terminator_charges src opener _)
  rw [Clause.hasWhen, ← lacks_case opener.range default] at hall
  exact finishBlock_charges (a := ⟨_, _, _⟩) hk hall fun hlacks => absurd hlacks Bool.false_ne_true

/-- What a reading leaves due when an LOD block behind its brace has no colon: the fault of its keyword. -/
structure LodCharges (src : Source) (brace : Token) (c : Cursor) (scope : LodScope) (a : Clause) (d : Cursor) :
    Prop where
  plain : ∀ b ∈ a.branches, b.kind.isCondition = false
  charges : ∃ keyword : Range,
    Charges src brace [.missingExpression] c a.symbols
      (if (BlockKind.lod scope).lacksColon a.branches then [(.missingColon, keyword)] else []) d ∧
    ((BlockKind.lod scope).lacksColon a.branches = true →
      ∃ l ls, c.rest = l :: ls ∧ keyword = l.token.range ∧ d.rest.length < c.rest.length)

theorem dimensions_clear (h : ChargedExpression src expr) (keyword : Token) (c : Cursor) :
    Clear src c (dimensions expr keyword c).1.symbols (dimensions expr keyword c).2 := by
  unfold dimensions
  split
  · exact commaList_clear h .lodDimensions c
  · exact .stay c

theorem dimensions_kind (expr : ReadExpression) (keyword : Token) (c : Cursor) :
    ∀ b ∈ (dimensions expr keyword c).1.branches, b.kind = .dimensions := by
  unfold dimensions
  split
  · simp
  · simp [Clause.empty]

/-- An LOD block whose keyword has no colon behind it has no aggregate. -/
theorem aggregate_charges (h : ChargedExpression src expr) (keyword : Token) (c : Cursor) :
    Charges src keyword [.missingColon] c (aggregate expr keyword c).1.symbols
      (if !(aggregate expr keyword c).1.branches.any (·.kind == .aggregate) then [(.missingColon, keyword.range)]
        else []) (aggregate expr keyword c).2 := by
  unfold aggregate
  split
  · rename_i colon d he
    exact .permit (List.nil_sublist _) (branch_clear h .lodBody .aggregate (eat?_eq_some he).1 keyword)
  · exact .owing c (.missingColon keyword.kind) rfl rfl

theorem aggregate_kind (expr : ReadExpression) (keyword : Token) (c : Cursor) :
    ∀ b ∈ (aggregate expr keyword c).1.branches, b.kind = .aggregate := by
  unfold aggregate
  split
  · simp [branch]
  · simp

theorem lacksColon_of_scopeOf? {k : Token.Kind} {scope : LodScope} (h : scopeOf? k = some scope)
    (branches : List Branch) :
    (BlockKind.lod scope).lacksColon branches = !branches.any (·.kind == .aggregate) := by
  cases k <;> first | (cases h; rfl) | cases h

theorem lodHead_charges (h : ChargedExpression src expr) (brace : Token) (c : Cursor) :
    LodCharges src brace c (lodHead expr brace c).1.1 (lodHead expr brace c).1.2 (lodHead expr brace c).2 := by
  unfold lodHead
  split
  · rename_i scope keyword d hscope ht
    obtain ⟨k, -, hk⟩ := Option.bind_eq_some_iff.mp hscope
    have hdims := dimensions_kind expr keyword d
    have hbody := aggregate_kind expr keyword (dimensions expr keyword d).2
    have hall := (dimensions_clear h keyword d keyword).next (aggregate_charges h keyword _)
    have hlacks : (BlockKind.lod scope).lacksColon ((dimensions expr keyword d).1.append
        (aggregate expr keyword (dimensions expr keyword d).2).1).branches =
        !(aggregate expr keyword (dimensions expr keyword d).2).1.branches.any (·.kind == .aggregate) := by
      have hnone : (dimensions expr keyword d).1.branches.any (·.kind == .aggregate) = false :=
        List.any_eq_false.mpr fun b hb => by simp [hdims b hb]
      rw [lacksColon_of_scopeOf? hk, Clause.append, List.any_append, hnone, Bool.false_or]
    refine ⟨fun b hb => ?_, keyword.range, ?_, fun _ => ?_⟩
    · rcases List.mem_append.mp hb with hb | hb
      · rw [hdims b hb]; rfl
      · rw [hbody b hb]; rfl
    · dsimp only
      rw [hlacks]
      exact .permit (List.nil_sublist _) (.taking ht (by simp) hall)
    · obtain ⟨l, ls, hl, rfl, rfl⟩ := take?_eq_some ht
      exact ⟨l, ls, hl, rfl, Nat.lt_of_le_of_lt hall.onward.length_le (length_advance hl)⟩
  · exact ⟨by simp [branch, BranchKind.isCondition], default, branch_charges h .lodBody .aggregate brace c,
      fun hlacks => absurd hlacks Bool.false_ne_true⟩

theorem nextSkipped?_clear (h : ChargedExpression src expr) (hd : nextSkipped? src expr c = some (a, d)) :
    a.branches = [] ∧ Clear src c a.symbols d := by
  unfold nextSkipped? at hd
  split at hd
  · cases hd
  · split at hd
    · cases hd
    · rename_i l ls hl
      split at hd
      · cases hd
      · cases hd
        exact ⟨rfl, resync_clear h .lodBody hl⟩

/-- Skipped stretches in a row have no branches. -/
theorem skipped_clear (h : ChargedExpression src expr) (c : Cursor) :
    (Clause.join (c.many (nextSkipped? src expr)).1).branches = [] ∧
      Clear src c (Clause.join (c.many (nextSkipped? src expr)).1).symbols (c.many (nextSkipped? src expr)).2 := by
  refine many_rule (P := fun c as e => (Clause.join as).branches = [] ∧ Clear src c (Clause.join as).symbols e)
    (fun c => ⟨rfl, .stay c⟩) ?_ c
  intro c a d as e hr ih
  obtain ⟨hbranches, hclear⟩ := nextSkipped?_clear h hr
  rw [Clause.join_cons, Clause.append, hbranches]
  exact ⟨ih.1, hclear.next ih.2⟩

/-- What follows the head of an LOD block without branches of its own. -/
theorem LodCharges.before {scope : LodScope} (h : LodCharges src brace c scope a d) (hb : b.branches = [])
    (hclear : Clear src d b.symbols e) : LodCharges src brace c scope (a.append b) e := by
  obtain ⟨keyword, hcharges, hscope⟩ := h.charges
  rw [Clause.append, hb, List.append_nil]
  refine ⟨h.plain, keyword, hcharges.before hclear, fun hlacks => ?_⟩
  obtain ⟨l, ls, hl, hkeyword, hlen⟩ := hscope hlacks
  exact ⟨l, ls, hl, hkeyword, Nat.lt_of_le_of_lt (hclear brace).onward.length_le hlen⟩

theorem lodBody_charges (h : ChargedExpression src expr) (brace : Token) (c : Cursor) :
    LodCharges src brace c (lodBody src expr brace c).1.1 (lodBody src expr brace c).1.2.1
      (lodBody src expr brace c).2 := by
  obtain ⟨hbranches, hskipped⟩ := skipped_clear h (lodHead expr brace c).2
  have hhead := lodHead_charges h brace c
  rw [lodBody_eq, closeBrace]
  dsimp only
  split
  · rename_i he
    exact hhead.before hbranches (hskipped.onto (.eating he))
  · exact hhead.before hbranches hskipped

theorem checkBrace_charges (src : Source) (brace : Token) (stop : Option Range) (c : Cursor) :
    Charges src brace [.openBrace] c [] (if stop.isNone then [(.openBrace, brace.range)] else [])
      (checkBrace brace stop c) := by
  cases stop with
  | some r => exact .permit (List.nil_sublist _) (.stay brace c)
  | none => exact .owing c .openBrace rfl rfl

theorem lacks_lod {opener scope : Range} {kind : LodScope} {branches : List Branch} {stop : Option Range}
    (h : ∀ b ∈ branches, b.kind.isCondition = false) :
    (BlockKind.lod kind).lacks opener scope branches stop =
      (if (BlockKind.lod kind).lacksColon branches then [(.missingColon, scope)] else []) ++
        if stop.isNone then [(.openBrace, opener)] else [] := by
  simp [BlockKind.lacks, BlockKind.lacksWhen, BlockKind.openCause, Cause.code, thenCharges_of_plain h]

theorem lodBlock_owned (h : ChargedExpression src expr) (hk : brace.kind = .leftBrace) (c : Cursor) :
    Owned src brace c [(lodBlock src expr brace c).1] (lodBlock src expr brace c).2 := by
  refine ⟨[.missingExpression, .openBrace], by simp, by simp [Code.isUnexpected], ?_⟩
  let b := { c with scopes := .lod :: c.scopes, closers := .rightBrace :: c.closers }
  have hbody := lodBody_charges h brace b
  obtain ⟨keyword, hcharges, hscope⟩ := hbody.charges
  have hinside := Charges.inScope (c := c) (.inside (c := { c with scopes := .lod :: c.scopes }) hcharges)
  have hall := hinside.onto (checkBrace_charges src brace (lodBody src expr brace b).1.2.2 _)
  rw [← lacks_lod hbody.plain] at hall
  refine finishBlock_charges hk hall fun hlacks => ?_
  obtain ⟨l, ls, hl, hkeyword, hlen⟩ := hscope hlacks
  exact ⟨l, ls, hl, hkeyword, Nat.lt_of_le_of_lt (checkBrace_onward brace _ _).length_le hlen⟩

theorem word_owned (h : ChargedExpression src expr) (hk : t.kind = .identifier) (c : Cursor) :
    Owned src t c [(word src expr t c).1] (word src expr t c).2 := by
  unfold word
  split
  · rename_i paren d he
    exact call_owned h (eat?_eq_some he).1
  · exact bareIdentifier_owned src hk c

/-- Every construct is charged to the lexeme that it starts with, and to those behind it. -/
theorem primary_owned (h : ChargedExpression src expr) (t : Token) (c : Cursor) :
    Owned src t c (primary src expr t c).1 (primary src expr t c).2 := by
  unfold primary
  dsimp only
  split
  · rename_i hk
    exact fieldReference_owned src hk c
  · rename_i hk
    exact word_owned h hk c
  · exact grouping_owned h false t c
  · rename_i hk
    exact lodBlock_owned h hk c
  · rename_i hk
    exact ifBlock_owned h hk c
  · rename_i hk
    exact caseBlock_owned h hk c
  · exact literal_owned src t c

theorem sign?_eq_some {s : Token × List Symbol} (hs : sign? src c = some (s, d)) :
    c.take? = some (s.1, c.advance) ∧ Clear src c.advance s.2 d := by
  unfold sign? at hs
  split at hs
  · obtain ⟨⟨t, e⟩, ht, he⟩ := Option.map_eq_some_iff.mp hs
    obtain ⟨l, ls, hl, rfl, rfl⟩ := take?_eq_some ht
    cases he
    exact ⟨ht, operatorSymbol_clear src l.token c.advance⟩
  · cases hs

/-- The last of some signs, or the token before them. -/
def lastSign (before : Token) (signs : List (Token × List Symbol)) : Token :=
  (signs.getLast?.map (·.1)).getD before

theorem lastSign_cons (before : Token) (s : Token × List Symbol) (signs : List (Token × List Symbol)) :
    lastSign before (s :: signs) = lastSign s.1 signs := by
  rw [lastSign, lastSign, List.getLast?_cons]
  cases signs.getLast? <;> rfl

/-- What the last of some signs owns, read behind them all. -/
theorem manySigns_owned (c : Cursor) : ∀ (t : Token) (ss : List Symbol) (e : Cursor),
    Owned src (lastSign t (c.many (nextSign? src)).1) (c.many (nextSign? src)).2 ss e →
      Owned src t c ((c.many (nextSign? src)).1.flatMap (·.2) ++ ss) e := by
  refine many_rule (P := fun c (signs : List (Token × List Symbol)) d => ∀ (t : Token) (ss : List Symbol) (e : Cursor),
    Owned src (lastSign t signs) d ss e → Owned src t c (signs.flatMap (·.2) ++ ss) e) (fun c t ss e h => h) ?_ c
  intro c s d signs f hs ih t ss e h
  unfold nextSign? at hs
  split at hs
  · cases hs
  · obtain ⟨ht, hword⟩ := sign?_eq_some hs
    rw [lastSign_cons] at h
    rw [List.flatMap_cons, List.append_assoc]
    have hrest : Owned src s.1 d _ e := ih s.1 ss e h
    exact .of_clear ((Owned.behind (hword s.1) hrest).clear ht) t

/-- What stands behind signs is owned by the last of them, which is reported when that is nothing. -/
theorem signed_owned (h : ChargedExpression src expr) {signs : List (Token × List Symbol)} {op : Token}
    (hop : signs.getLast?.map (·.1) = some op) (c : Cursor) :
    ∃ ss, (signed src expr signs c).1 = signs.flatMap (·.2) ++ ss ∧ Owned src op c ss (signed src expr signs c).2 := by
  unfold signed
  rw [hop]
  dsimp only
  split
  · rename_i t d ht
    split at ht
    · exact ⟨_, rfl, .of_clear ((primary_owned h t d).clear ht) op⟩
    · cases ht
  · exact ⟨[], (List.append_nil _).symm, [.missingExpression], by simp, by simp [Code.isUnexpected],
      .plain c (.missingExpression op.kind) rfl rfl⟩

theorem operand_opens (h : ChargedExpression src expr) (hc : AtStart c) :
    Opens src c (operand src expr c).1 (operand src expr c).2 := by
  cases hs : sign? src c with
  | none =>
    obtain ⟨l, ls, hl, -⟩ := atStart_iff.mp hc
    have ht := take?_of_rest hl
    have hread : operand src expr c = primary src expr l.token c.advance := by
      have hk : c.kind?.any Token.Kind.startsExpression = true := hc
      simp [operand, signs, hs, signed, hk, ht]
    exact hread ▸ (primary_owned h l.token c.advance).opens ht
  | some p =>
    obtain ⟨s, d⟩ := p
    obtain ⟨ht, hword⟩ := sign?_eq_some hs
    have hop : (s :: (d.many (nextSign? src)).1).getLast?.map (·.1) =
        some (lastSign s.1 (d.many (nextSign? src)).1) := by
      rw [lastSign, List.getLast?_cons]
      cases (d.many (nextSign? src)).1.getLast? <;> rfl
    obtain ⟨ss, hsymbols, howned⟩ := signed_owned h hop (d.many (nextSign? src)).2
    have hread : operand src expr c =
        signed src expr (s :: (d.many (nextSign? src)).1) (d.many (nextSign? src)).2 := by
      rw [operand, signs, hs]
    rw [hread, hsymbols, List.flatMap_cons, List.append_assoc]
    exact (Owned.behind (hword s.1) (manySigns_owned d s.1 ss _ howned)).opens ht

/-- An operator lacks its right side, or owns what stands there. -/
theorem rightSide_owned (h : ChargedExpression src expr) (place : Place) (op : Token) (c : Cursor) :
    Owned src op c (rightSide src expr place op c).1 (rightSide src expr place op c).2 := by
  unfold rightSide
  split
  · rename_i paren d hparen
    split at hparen
    · exact .of_clear ((grouping_owned h true paren d).clear (eat?_eq_some hparen).1) op
    · cases hparen
  · split
    · rename_i hat
      exact .of_clear (operand_opens h (atStart_of_atOperand hat)).clear op
    · exact ⟨[.missingExpression], by simp, by simp [Code.isUnexpected],
        .plain c (.missingOperand op.kind place) rfl rfl⟩

theorem link?_clear (h : ChargedExpression src expr) (place : Place) (hd : link? src expr place c = some (ss, d)) :
    Clear src c ss d := by
  unfold link? at hd
  obtain ⟨⟨op, e⟩, ho, he⟩ := Option.map_eq_some_iff.mp hd
  cases he
  have hword := operatorSymbol_clear src op e op
  exact (Owned.behind hword (rightSide_owned h place op _)).clear (operator?_eq_some ho).1

theorem expression_charged (src : Source) (levels : Nat) : ChargedExpression src (expression src levels) := by
  induction levels with
  | zero =>
    intro place c hc
    obtain ⟨l, ls, hl, -⟩ := atStart_iff.mp hc
    exact tooDeep_opens src place hl
  | succ levels ih =>
    exact fun place c hc => (operand_opens ih hc).before (Clear.many (fun _ _ _ => link?_clear ih place) _)

/-- A statement charges the lexeme it starts with, and those behind it, with each code at most once. -/
theorem statement_charges (src : Source) (hl : c.rest = l :: ls) :
    ∃ ks : List Code, ks.Nodup ∧ Charges src l.token ks c.advance (statement src c).1 [] (statement src c).2 := by
  unfold statement
  split
  · rename_i hstart
    obtain ⟨l', ls', hl', ks, hn, -, h⟩ := expression_charged src src.options.levels .topLevel c hstart
    cases hl.symm.trans hl'
    exact ⟨ks, hn, h⟩
  · obtain ⟨k, h⟩ := strayTokens_charges src hl
    exact ⟨[k], by simp, h⟩

end Calculation.Statement
