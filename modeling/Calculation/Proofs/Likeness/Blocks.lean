import Calculation.Proofs.Likeness.Reading
import Calculation.Statement.Item

namespace Calculation.Likeness
open Statement Cursor

variable {src src' : Source} {m : Likeness src src'} {c c' : Cursor} {t u : Token} {expr expr' : ReadExpression}

structure Clauses (m : Likeness src src') (a a' : Clause) : Prop where
  symbols : m.Trees a.symbols a'.symbols
  branches : List.Forall₂ (Branches m.Ranges) a.branches a'.branches
  isComplete : a'.isComplete = a.isComplete

theorem Clauses.append {a a' b b' : Clause} (ha : m.Clauses a a') (hb : m.Clauses b b') :
    m.Clauses (a.append b) (a'.append b') := by
  refine ⟨List.rel_append ha.symbols hb.symbols, List.rel_append ha.branches hb.branches, ?_⟩
  rw [Clause.append, Clause.append, ha.isComplete, hb.isComplete]

theorem Clauses.join {as as' : List Clause} (h : List.Forall₂ m.Clauses as as') :
    m.Clauses (.join as) (.join as') := by
  induction h with
  | nil => exact ⟨.nil, .nil, rfl⟩
  | cons ha _ ih =>
    rw [Clause.join_cons, Clause.join_cons]
    exact ha.append ih

theorem Clauses.hasWhen {a a' : Clause} (h : m.Clauses a a') : a'.hasWhen = a.hasWhen := by
  have hbranches := h.branches
  unfold Clause.hasWhen
  generalize a.branches = bs, a'.branches = bs' at hbranches
  induction hbranches with
  | nil => rfl
  | cons hb _ ih => rw [List.any_cons, List.any_cons, hb.kind, ih]

/-- A clause of a keyword and what stands behind it. -/
theorem Clauses.one (hc : m.Cursors c c') (ht : m.Tokens t u) (kind : BranchKind) {ss ss' : List Symbol}
    (hsymbols : m.Trees ss ss') :
    m.Clauses ⟨ss, [⟨kind, t.range, c.since t.range.start⟩], true⟩
      ⟨ss', [⟨kind, u.range, c'.since u.range.start⟩], true⟩ :=
  ⟨hsymbols, .cons ⟨rfl, m.range ht, hc.since ht⟩ .nil, rfl⟩

theorem required_alike (he : m.Expressions expr expr') (place : Place) (ht : m.Tokens t u) :
    m.Readers m.Trees (required expr place t) (required expr' place u) := by
  intro c c' hc
  unfold required
  rw [hc.atOperand, m.kind ht]
  split
  · exact he.alike place c c' hc
  · exact Both.read ⟨.nil, hc.plainAt (.missingExpression t.kind) ht rfl⟩

theorem branch_alike (he : m.Expressions expr expr') (place : Place) (kind : BranchKind) (ht : m.Tokens t u) :
    m.Readers m.Clauses (branch expr place kind t) (branch expr' place kind u) := by
  intro c c' hc hshallow
  obtain ⟨hsymbols, hd⟩ := required_alike he place ht c c' hc hshallow
  exact ⟨.one hd ht kind hsymbols, hd⟩

theorem thenClause_alike (he : m.Expressions expr expr') (place : Place) (ht : m.Tokens t u) :
    m.Readers m.Clauses (thenClause expr place t) (thenClause expr' place u) := by
  intro c c' hc
  unfold thenClause
  have hthen := hc.eat? .then_
  generalize c.eat? .then_ = x, c'.eat? .then_ = x' at hthen
  cases hthen with
  | some hx => exact branch_alike he place .then_ hx.value _ _ hx.cursor
  | none =>
    have hd := hc.plainAt (.missingThen t.kind) ht rfl
    dsimp only
    rw [m.kind ht, hd.atOperand]
    split
    · intro hshallow
      obtain ⟨hsymbols, hd'⟩ := he.alike place _ _ hd hshallow
      exact ⟨⟨hsymbols, .nil, rfl⟩, hd'⟩
    · exact Both.read ⟨⟨.nil, .nil, rfl⟩, hd⟩

theorem condition_alike (he : m.Expressions expr expr') (place : Place) (kind : BranchKind) (ht : m.Tokens t u) :
    m.Readers m.Clauses (condition expr place kind t) (condition expr' place kind u) := by
  intro c c' hc hshallow
  obtain ⟨hhead, hd⟩ := branch_alike he place kind ht c c' hc
    (hshallow.back (thenClause_onward he.steady place t _))
  obtain ⟨htail, hd'⟩ := thenClause_alike he place ht _ _ hd hshallow
  exact ⟨hhead.append htail, hd'⟩

theorem isInterrupted_eq (hc : m.Cursors c c') : isInterrupted c' = isInterrupted c := by
  rw [isInterrupted, isInterrupted, hc.kind?, hc.afterBlank, hc.atCloser]

theorem skippedClause_alike (he : m.Expressions expr expr') (place : Place) (ht : m.Tokens t u)
    (hc : m.Cursors c c') :
    m.Read m.Clauses (skippedClause src expr place t c) (skippedClause src' expr' place u c') := by
  intro hshallow
  obtain ⟨hs, hd⟩ := resync_alike he place ht hc hshallow
  exact ⟨⟨.cons hs .nil, .nil, rfl⟩, hd⟩

theorem nextClause?_alike (he : m.Expressions expr expr') (place : Place) (keyword : Token.Kind)
    (kind : BranchKind) :
    m.Readers? m.Clauses (nextClause? src expr place keyword kind) (nextClause? src' expr' place keyword kind) := by
  intro c c' hc
  unfold nextClause?
  rw [isInterrupted_eq hc]
  split
  · exact .none
  · rcases hc.rest_cases with ⟨h, h'⟩ | ⟨l, ls, l', ls', h, h', hl, -⟩
    · rw [h, h']
      exact .none
    · rw [h, h']
      dsimp only
      rw [m.kind hl.token]
      split
      · exact .none
      · split
        · exact .some (condition_alike he place kind hl.token _ _ hc.advance)
        · split
          · exact .some (branch_alike he place .else_ hl.token _ _ hc.advance)
          · exact .some (skippedClause_alike he place hl.token hc)

theorem terminator_alike (ht : m.Tokens t u) (hc : m.Cursors c c') :
    m.Both (Option.Rel m.Ranges) (terminator t c) (terminator u c') := by
  unfold terminator
  have hend := hc.eat? .end_
  generalize c.eat? .end_ = x, c'.eat? .end_ = x' at hend
  cases hend with
  | some hx => exact ⟨.some (m.range hx.value), hx.cursor⟩
  | none =>
    dsimp only
    rw [m.kind ht]
    exact ⟨.none, hc.plainAt (.missingEnd t.kind) ht rfl⟩

theorem isSome_eq {stop stop' : Option Range} (h : Option.Rel m.Ranges stop stop') : stop'.isSome = stop.isSome := by
  cases h <;> rfl

theorem finishBlock_alike (hc : m.Cursors c c') (kind : BlockKind) (ht : m.Tokens t u) {body body' : Clause}
    (hbody : m.Clauses body body') {stop stop' : Option Range} (hstop : Option.Rel m.Ranges stop stop') :
    m.Both m.Symbols (finishBlock src kind t body stop c) (finishBlock src' kind u body' stop' c') := by
  unfold finishBlock
  rw [hbody.isComplete, isSome_eq hstop]
  exact hc.finish _ (m.same kind.name) (.block hbody.branches hstop) (hc.since ht) hbody.symbols

theorem ifBody_alike (he : m.Expressions expr expr') (ht : m.Tokens t u) :
    m.Readers m.Clauses (ifBody src expr t) (ifBody src' expr' u) := by
  intro c c' hc hshallow
  have hon := nextClause?_onward src he.steady .ifBlock .elseIf .elseIf
  obtain ⟨hhead, hd⟩ := condition_alike he .ifBlock .if_ ht c c' hc (hshallow.back (hon.many _))
  obtain ⟨hclauses, hd'⟩ := (nextClause?_alike he .ifBlock .elseIf .elseIf).many hon _ _ hd hshallow
  exact ⟨hhead.append (.join hclauses), hd'⟩

theorem ifBlock_alike (he : m.Expressions expr expr') (ht : m.Tokens t u) (hc : m.Cursors c c') :
    m.Read m.Symbols (ifBlock src expr t c) (ifBlock src' expr' u c') := by
  intro hshallow
  obtain ⟨hbody, hd⟩ := ifBody_alike he ht c c' hc
    (hshallow.back ((terminator_onward t _).trans (.finish src _ _)))
  obtain ⟨hstop, hd'⟩ := terminator_alike ht hd
  exact finishBlock_alike hd' .if_ ht hbody hstop

theorem caseBody_alike (he : m.Expressions expr expr') (ht : m.Tokens t u) :
    m.Readers m.Clauses (caseBody src expr t) (caseBody src' expr' u) := by
  intro c c' hc hshallow
  have hon := nextClause?_onward src he.steady .caseBlock .when_ .when_
  obtain ⟨hhead, hd⟩ := branch_alike he .caseBlock .case_ ht c c' hc (hshallow.back (hon.many _))
  obtain ⟨hclauses, hd'⟩ := (nextClause?_alike he .caseBlock .when_ .when_).many hon _ _ hd hshallow
  exact ⟨hhead.append (.join hclauses), hd'⟩

theorem checkWhen_alike (hc : m.Cursors c c') (ht : m.Tokens t u) (hasWhen : Bool) :
    m.Cursors (checkWhen t hasWhen c) (checkWhen u hasWhen c') := by
  unfold checkWhen
  split
  · exact hc
  · exact hc.plainAt .missingWhen ht rfl

theorem caseBlock_alike (he : m.Expressions expr expr') (ht : m.Tokens t u) (hc : m.Cursors c c') :
    m.Read m.Symbols (caseBlock src expr t c) (caseBlock src' expr' u c') := by
  have hbody := caseBody_alike he ht c c' hc
  unfold caseBlock
  generalize caseBody src expr t c = x, caseBody src' expr' u c' = x' at hbody
  intro hshallow
  obtain ⟨hclause, hd⟩ := hbody
    (hshallow.back ((checkWhen_onward t _ _).trans ((terminator_onward t _).trans (.finish src _ _))))
  have hwhole : m.Clauses { x.1 with isComplete := x.1.isComplete && x.1.hasWhen }
      { x'.1 with isComplete := x'.1.isComplete && x.1.hasWhen } :=
    ⟨hclause.symbols, hclause.branches, congrArg (· && x.1.hasWhen) hclause.isComplete⟩
  obtain ⟨hstop, hd'⟩ := terminator_alike ht (checkWhen_alike hd ht x.1.hasWhen)
  dsimp only
  rw [hclause.hasWhen]
  exact finishBlock_alike hd' .case_ ht hwhole hstop

theorem dimensions_alike (he : m.Expressions expr expr') (ht : m.Tokens t u) :
    m.Readers m.Clauses (dimensions expr t) (dimensions expr' u) := by
  intro c c' hc
  unfold dimensions
  rw [hc.atOperand]
  split
  · intro hshallow
    obtain ⟨hsymbols, hd⟩ := commaList_alike he .lodDimensions c c' hc hshallow
    exact ⟨.one hd ht .dimensions hsymbols, hd⟩
  · exact Both.read ⟨⟨.nil, .nil, rfl⟩, hc⟩

theorem aggregate_alike (he : m.Expressions expr expr') (ht : m.Tokens t u) :
    m.Readers m.Clauses (aggregate expr t) (aggregate expr' u) := by
  intro c c' hc
  unfold aggregate
  have hcolon := hc.eat? .colon
  generalize c.eat? .colon = x, c'.eat? .colon = x' at hcolon
  cases hcolon with
  | some hx => exact branch_alike he .lodBody .aggregate hx.value _ _ hx.cursor
  | none =>
    dsimp only
    rw [m.kind ht]
    exact Both.read ⟨⟨.nil, .nil, rfl⟩, hc.plainAt (.missingColon t.kind) ht rfl⟩

/-- The head of an LOD block: the same scope, and clauses that are alike. -/
def LodHeads (m : Likeness src src') (x x' : LodScope × Clause) : Prop :=
  x'.1 = x.1 ∧ m.Clauses x.2 x'.2

theorem lodHead_alike (he : m.Expressions expr expr') (ht : m.Tokens t u) :
    m.Readers m.LodHeads (lodHead expr t) (lodHead expr' u) := by
  intro c c' hc
  have hbody : m.Read m.LodHeads
      ((.table, (branch expr .lodBody .aggregate t c).1), (branch expr .lodBody .aggregate t c).2)
      ((.table, (branch expr' .lodBody .aggregate u c').1), (branch expr' .lodBody .aggregate u c').2) := by
    intro hshallow
    obtain ⟨hbody, hd⟩ := branch_alike he .lodBody .aggregate ht c c' hc hshallow
    exact ⟨⟨rfl, hbody⟩, hd⟩
  unfold lodHead
  rw [hc.kind?]
  have htake := hc.take?
  generalize c.take? = x, c'.take? = x' at htake
  cases c.kind?.bind scopeOf? with
  | none => exact hbody
  | some scope =>
    cases htake with
    | none => exact hbody
    | some hx =>
      intro hshallow
      obtain ⟨hhead, hy⟩ := dimensions_alike he hx.value _ _ hx.cursor
        (hshallow.back (aggregate_onward he.steady _ _))
      obtain ⟨hrest, hz⟩ := aggregate_alike he hx.value _ _ hy hshallow
      exact ⟨⟨rfl, hhead.append hrest⟩, hz⟩

theorem nextSkipped?_alike (he : m.Expressions expr expr') :
    m.Readers? m.Clauses (nextSkipped? src expr) (nextSkipped? src' expr') := by
  intro c c' hc
  unfold nextSkipped?
  rw [isInterrupted_eq hc]
  split
  · exact .none
  · rcases hc.rest_cases with ⟨h, h'⟩ | ⟨l, ls, l', ls', h, h', hl, -⟩
    · rw [h, h']
      exact .none
    · rw [h, h']
      dsimp only
      rw [m.kind hl.token]
      split
      · exact .none
      · exact .some (skippedClause_alike he .lodBody hl.token hc)

/-- The inside of an LOD block: its head, all that was read of it, and the closing brace. -/
def LodBodies (m : Likeness src src') (x x' : LodScope × Clause × Option Range) : Prop :=
  x'.1 = x.1 ∧ m.Clauses x.2.1 x'.2.1 ∧ Option.Rel m.Ranges x.2.2 x'.2.2

theorem closeBrace_alike {x x' : (LodScope × Clause) × Cursor} (h : m.Both m.LodHeads x x') :
    m.Both m.LodBodies (closeBrace x) (closeBrace x') := by
  obtain ⟨⟨hscope, hbody⟩, hd⟩ := h
  have hbrace := hd.eat? .rightBrace
  unfold closeBrace
  generalize x.2.eat? .rightBrace = z, x'.2.eat? .rightBrace = z' at hbrace
  cases hbrace with
  | none => exact ⟨⟨hscope, hbody, .none⟩, hd⟩
  | some hz => exact ⟨⟨hscope, hbody, .some (m.range hz.value)⟩, hz.cursor⟩

theorem lodBody_alike (he : m.Expressions expr expr') (ht : m.Tokens t u) :
    m.Readers m.LodBodies (lodBody src expr t) (lodBody src' expr' u) := by
  intro c c' hc hshallow
  have hon := nextSkipped?_onward src he.steady
  rw [lodBody_eq] at hshallow ⊢
  have hbehind := hshallow.back (closeBrace_onward _)
  obtain ⟨⟨hscope, hhead⟩, hd⟩ := lodHead_alike he ht c c' hc (hbehind.back (hon.many _))
  obtain ⟨hskipped, hd'⟩ := (nextSkipped?_alike he).many hon _ _ hd hbehind
  rw [lodBody_eq]
  exact closeBrace_alike ⟨⟨hscope, hhead.append (.join hskipped)⟩, hd'⟩

theorem checkBrace_alike (hc : m.Cursors c c') (ht : m.Tokens t u) {stop stop' : Option Range}
    (hstop : Option.Rel m.Ranges stop stop') : m.Cursors (checkBrace t stop c) (checkBrace u stop' c') := by
  unfold checkBrace
  rw [isSome_eq hstop]
  split
  · exact hc
  · exact hc.plainAt .openBrace ht rfl

theorem lodBlock_alike (he : m.Expressions expr expr') (ht : m.Tokens t u) (hc : m.Cursors c c') :
    m.Read m.Symbols (lodBlock src expr t c) (lodBlock src' expr' u c') := by
  intro hshallow
  obtain ⟨⟨hscope, hbody, hstop⟩, hd⟩ :=
    Readers.inScope (Readers.inside (lodBody_alike he ht) .rightBrace) .lod c c' hc
      (hshallow.back ((checkBrace_onward t _ _).trans (.finish src _ _)))
  unfold lodBlock
  dsimp only
  rw [hscope]
  exact finishBlock_alike (checkBrace_alike hd ht hstop) (.lod _) ht hbody hstop

/-- Signs, each with the symbols that it leaves. -/
def Signs (m : Likeness src src') (x x' : Token × List Symbol) : Prop :=
  m.Tokens x.1 x'.1 ∧ m.Trees x.2 x'.2

theorem sign?_alike (hc : m.Cursors c c') : Option.Rel (m.Both m.Signs) (sign? src c) (sign? src' c') := by
  unfold sign?
  rw [hc.kind?]
  split
  · have htake := hc.take?
    generalize c.take? = x, c'.take? = x' at htake
    cases htake with
    | none => exact .none
    | some hx =>
      obtain ⟨hsymbols, hd⟩ := operatorSymbol_alike hx.cursor hx.value
      exact .some ⟨⟨hx.value, hsymbols⟩, hd⟩
  · exact .none

theorem nextSign?_alike : m.Readers? m.Signs (nextSign? src) (nextSign? src') := by
  intro c c' hc
  have hsign := sign?_alike (m := m) hc
  unfold nextSign?
  rw [hc.afterBlank]
  split
  · exact .none
  · generalize sign? src c = x, sign? src' c' = x' at hsign
    cases hsign with
    | none => exact .none
    | some hx => exact .some hx.read

theorem signs_alike : m.Readers (List.Forall₂ m.Signs) (signs src) (signs src') := by
  intro c c' hc
  have hsign := sign?_alike (m := m) hc
  unfold signs
  generalize sign? src c = x, sign? src' c' = x' at hsign
  cases hsign with
  | none => exact Both.read ⟨.nil, hc⟩
  | some hx =>
    intro hshallow
    obtain ⟨hmore, hd⟩ := nextSign?_alike.many (nextSign?_onward src) _ _ hx.cursor hshallow
    exact ⟨.cons hx.value hmore, hd⟩

theorem word_alike (he : m.Expressions expr expr') (ht : m.Tokens t u) (hc : m.Cursors c c') :
    m.Read m.Symbols (word src expr t c) (word src' expr' u c') := by
  unfold word
  have hparen := hc.eat? .leftParen
  generalize c.eat? .leftParen = x, c'.eat? .leftParen = x' at hparen
  cases hparen with
  | none => exact (bareIdentifier_alike hc ht).read
  | some hx => exact call_alike he ht hx.value hx.cursor

theorem Read.one {x x' : Symbol × Cursor} (h : m.Read m.Symbols x x') :
    m.Read m.Trees ([x.1], x.2) ([x'.1], x'.2) := by
  intro hshallow
  obtain ⟨hs, hd⟩ := h hshallow
  exact ⟨.cons hs .nil, hd⟩

theorem primary_alike (he : m.Expressions expr expr') (ht : m.Tokens t u) (hc : m.Cursors c c') :
    m.Read m.Trees (primary src expr t c) (primary src' expr' u c') := by
  unfold primary
  dsimp only
  rw [m.kind ht]
  split
  · rename_i hk
    exact (fieldReference_alike hc ht hk).read.one
  · exact (word_alike he ht hc).one
  · exact grouping_alike he false ht c c' hc
  · exact (lodBlock_alike he ht hc).one
  · exact (ifBlock_alike he ht hc).one
  · exact (caseBlock_alike he ht hc).one
  · exact (literal_alike hc ht).read.one

theorem getLast?_alike {ss ss' : List (Token × List Symbol)} (h : List.Forall₂ m.Signs ss ss') :
    Option.Rel m.Tokens (ss.getLast?.map (·.1)) (ss'.getLast?.map (·.1)) := by
  induction h with
  | nil => exact .none
  | @cons s s' ss ss' hs htail ih =>
    cases htail with
    | nil => exact .some hs.1
    | cons _ _ =>
      rw [List.getLast?_cons_cons, List.getLast?_cons_cons]
      exact ih

theorem signed_alike (he : m.Expressions expr expr') {ss ss' : List (Token × List Symbol)}
    (hsigns : List.Forall₂ m.Signs ss ss') :
    m.Readers m.Trees (signed src expr ss) (signed src' expr' ss') := by
  intro c c' hc
  have hwords : m.Trees (ss.flatMap (·.2)) (ss'.flatMap (·.2)) :=
    List.rel_flatMap hsigns fun _ _ hs => hs.2
  have hlast := getLast?_alike hsigns
  unfold signed
  dsimp only
  generalize ss.getLast?.map (·.1) = last?, ss'.getLast?.map (·.1) = last?' at hlast
  have hsome : last?'.isSome = last?.isSome := by cases hlast <;> rfl
  rw [hsome, hc.kind?, hc.afterBlank]
  generalize (c.kind?.any Token.Kind.startsExpression && !(last?.isSome && c.afterBlank)) = isReadable
  have htake : Option.Rel (m.Both m.Tokens) (if isReadable then c.take? else none)
      (if isReadable then c'.take? else none) := by
    split
    · exact hc.take?
    · exact .none
  generalize (if isReadable then c.take? else none) = x, (if isReadable then c'.take? else none) = x' at htake
  cases htake with
  | some hx =>
    intro hshallow
    obtain ⟨hsymbols, hd⟩ := primary_alike he hx.value hx.cursor hshallow
    exact ⟨List.rel_append hwords hsymbols, hd⟩
  | none =>
    cases hlast with
    | none => exact Both.read ⟨hwords, hc⟩
    | @some t u ht =>
      dsimp only
      rw [m.kind ht]
      exact Both.read ⟨hwords, hc.plainAt (.missingExpression t.kind) ht rfl⟩

theorem operand_alike (he : m.Expressions expr expr') :
    m.Readers m.Trees (operand src expr) (operand src' expr') := by
  intro c c' hc hshallow
  obtain ⟨hsigns, hd⟩ := signs_alike c c' hc (hshallow.back (signed_onward src he.steady _ _))
  exact signed_alike he hsigns _ _ hd hshallow

theorem rightSide_alike (he : m.Expressions expr expr') (place : Place) (ht : m.Tokens t u) :
    m.Readers m.Trees (rightSide src expr place t) (rightSide src' expr' place u) := by
  intro c c' hc
  have hlist : Option.Rel (m.Both m.Tokens) (if t.kind = .in_ ∧ !c.afterBlank then c.eat? .leftParen else none)
      (if t.kind = .in_ ∧ !c.afterBlank then c'.eat? .leftParen else none) := by
    split
    · exact hc.eat? .leftParen
    · exact .none
  unfold rightSide
  rw [m.kind ht, hc.afterBlank, hc.atOperand]
  generalize (if t.kind = .in_ ∧ !c.afterBlank then c.eat? .leftParen else none) = x,
    (if t.kind = .in_ ∧ !c.afterBlank then c'.eat? .leftParen else none) = x' at hlist
  cases hlist with
  | some hx => exact grouping_alike he true hx.value _ _ hx.cursor
  | none =>
    dsimp only
    split
    · exact operand_alike he c c' hc
    · exact Both.read ⟨.nil, hc.plainAt (.missingOperand t.kind place) ht rfl⟩

theorem link?_alike (he : m.Expressions expr expr') (place : Place) :
    m.Readers? m.Trees (link? src expr place) (link? src' expr' place) := by
  intro c c' hc
  unfold link?
  have hop := hc.operator?
  generalize c.operator? = x, c'.operator? = x' at hop
  cases hop with
  | none => exact .none
  | some hx =>
    refine .some fun hshallow => ?_
    obtain ⟨hword, hd⟩ := operatorSymbol_alike hx.cursor hx.value
    obtain ⟨hsymbols, hd'⟩ := rightSide_alike he place hx.value _ _ hd hshallow
    exact ⟨List.rel_append hword hsymbols, hd'⟩

theorem chain_alike (he : m.Expressions expr expr') (place : Place) :
    m.Readers m.Trees (chain src expr place) (chain src' expr' place) := by
  intro c c' hc hshallow
  have hon := link?_onward src he.steady place
  obtain ⟨hfirst, hd⟩ := operand_alike he c c' hc (hshallow.back (hon.many _))
  obtain ⟨hmore, hd'⟩ := (link?_alike he place).many hon _ _ hd hshallow
  exact ⟨List.rel_append hfirst (List.rel_flatten hmore), hd'⟩

/-- Where nothing stands any more nothing is read. -/
theorem expression_nil (src : Source) (levels : Nat) (place : Place) {c : Cursor} (h : c.rest = []) :
    expression src levels place c = ([], c) := by
  have hkind : c.kind? = none := by rw [Cursor.kind?, h, List.head?_nil, Option.map_none]
  cases levels with
  | zero => simp [expression, tooDeep, h]
  | succ levels =>
    simp [expression, chain, operand, signs, sign?, signed, link?, Cursor.operator?, Cursor.many, Cursor.loop,
      Cursor.rounds, hkind]

/-- With more levels in the one reading, the other has something too deep unless nothing stands there. -/
theorem rest_of_tooDeep (hlevels : src'.options.levels ≠ src.options.levels) {place : Place}
    (h : Shallow src src' (tooDeep src place c).2) : c.rest = [] := by
  unfold tooDeep at h
  cases hrest : c.rest with
  | nil => rfl
  | cons l ls =>
    rw [hrest] at h
    obtain hsame | hnone := h
    · exact absurd hsame hlevels
    · exact absurd rfl (hnone _ List.mem_cons_self)

/-- Expressions are read alike at every level, with the same levels left or more. -/
theorem expression_alike (levels levels' : Nat) (hle : levels ≤ levels')
    (hsame : src'.options.levels = src.options.levels → levels' = levels) :
    m.Expressions (expression src levels) (expression src' levels') := by
  refine ⟨expression_steady src levels, fun place => ?_⟩
  induction levels generalizing levels' place with
  | zero =>
    by_cases hlevels : src'.options.levels = src.options.levels
    · rw [hsame hlevels]
      exact (tooDeep_alike hlevels).alike place
    · intro c c' hc hshallow
      have hrest := rest_of_tooDeep hlevels hshallow
      have hrest' : c'.rest = [] := List.forall₂_nil_left_iff.mp (hrest ▸ hc.rest)
      rw [expression_nil src 0 place hrest, expression_nil src' levels' place hrest']
      exact ⟨.nil, hc⟩
  | succ levels ih =>
    obtain ⟨levels', rfl⟩ : ∃ k, levels' = k + 1 := ⟨levels' - 1, by omega⟩
    have hbelow : src'.options.levels = src.options.levels → levels' = levels := fun h => Nat.succ.inj (hsame h)
    exact chain_alike ⟨expression_steady src levels, ih levels' (Nat.le_of_succ_le_succ hle) hbelow⟩ place

theorem statement_alike : m.Readers m.Trees (statement src) (statement src') := by
  intro c c' hc
  unfold statement
  rw [hc.kind?]
  split
  · exact (expression_alike _ _ m.levels id).alike .topLevel c c' hc
  · exact Both.read ⟨.nil, strayTokens_alike hc⟩

end Calculation.Likeness
