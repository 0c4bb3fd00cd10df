import Calculation.Proofs.Grammar.Acceptance

namespace Calculation.Statement
open Cursor Grammar

variable {src : Source} {E : Expressions} {expr : ReadExpression} {around : Option Scope} {b c d e : Cursor}
  {place : Place} {kind : BranchKind} {l keyword stop : Lexeme} {ls as bs cs xs rest : List Lexeme}
  {ss tt : List Symbol} {us ds : List Branch}

theorem branch_gives (h : CompleteExpression E expr) (place : Place) (kind : BranchKind)
    (hl : c.lastEnd = keyword.token.range.stop) (hc : Calm c) (hr : c.rest = as ++ rest) (hstop : Stops rest)
    (hphrase : E c.scopes.head? as ss) :
    Gives c as ⟨ss, [clause kind keyword as], true⟩ (branch expr place kind keyword.token c) := by
  obtain ⟨hvalue, hreads⟩ := h.gives place c as rest ss hc hr hstop hphrase
  unfold branch required
  rw [if_pos (h.atOperand hc hr hphrase)]
  refine ⟨?_, hreads⟩
  rw [clause, ← hreads.since_of_lastEnd hl, ← hvalue]

theorem thenClause_gives (h : CompleteExpression E expr) (place : Place) (opener : Token) {then_ : Lexeme}
    (hk : then_.token.kind = .then_) (hc : Calm c) (hr : c.rest = then_ :: as ++ rest) (hstop : Stops rest)
    (hphrase : E c.scopes.head? as ss) :
    Gives c (then_ :: as) ⟨ss, [clause .then_ then_ as], true⟩ (thenClause expr place opener c) := by
  have hthen := Reads.advance hr
  obtain ⟨hvalue, hreads⟩ := branch_gives h place .then_ hthen.lastEnd (hc.onward hthen.onward) (hthen.rest_eq hr) hstop
    (hthen.scopes ▸ hphrase)
  unfold thenClause
  rw [eat?_of_rest hr hk]
  exact ⟨hvalue, hthen.trans hreads⟩

theorem condition_gives (h : CompleteExpression E expr) (place : Place)
    (hl : c.lastEnd = keyword.token.range.stop) (hc : Calm c) (hr : c.rest = as ++ rest) (hstop : Stops rest)
    (hphrase : Condition (E c.scopes.head?) kind keyword as ss us) :
    Gives c as ⟨ss, us, true⟩ (condition expr place kind keyword.token c) := by
  cases hphrase with
  | mk ha hk hb =>
    rw [List.append_assoc] at hr
    obtain ⟨hvalue, hreads⟩ := branch_gives h place kind hl hc hr (.of_kind hk ⟨rfl, nofun⟩ _) ha
    obtain ⟨hthen, hmore⟩ := thenClause_gives h place keyword.token hk (hc.onward hreads.onward) (hreads.rest_eq hr)
      hstop (hreads.scopes ▸ hb)
    unfold condition
    dsimp only
    rw [hvalue, hthen]
    exact ⟨rfl, hreads.trans hmore⟩

/-- A keyword of a block does not interrupt it. -/
theorem not_interrupted (hc : Calm c) (hr : c.rest = l :: xs) (hk : l.token.kind.isBlockContinuation = true) :
    isInterrupted c = false := by
  have hcloser : c.atCloser = false := by
    rw [atCloser, kind?_of_rest hr, Option.any_some]
    refine Bool.eq_false_iff.mpr fun hmem => ?_
    rcases hc.closers _ (List.contains_iff_mem.mp hmem) with hk' | hk' <;> rw [hk'] at hk <;> cases hk
  unfold isInterrupted
  rw [kind?_of_rest hr]
  dsimp only
  rw [hk, hcloser]
  simp

theorem nextClause?_condition (src : Source) (h : CompleteExpression E expr) (place : Place)
    (hk : StartsCondition l.token.kind) (hc : Calm c) (hr : c.rest = l :: as ++ rest) (hstop : Stops rest)
    (hphrase : Condition (E c.scopes.head?) kind l as ss us) :
    ∃ d, nextClause? src expr place l.token.kind kind c = some (⟨ss, us, true⟩, d) ∧ Reads c (l :: as) d := by
  have hl := Reads.advance hr
  obtain ⟨hvalue, hreads⟩ := condition_gives h place hl.lastEnd (hc.onward hl.onward) (hl.rest_eq hr) hstop
    (hl.scopes ▸ hphrase)
  refine ⟨(condition expr place kind l.token c.advance).2, ?_, hl.trans hreads⟩
  unfold nextClause?
  rw [not_interrupted hc hr hk.spec.1, hr]
  dsimp only [List.cons_append]
  rw [if_neg Bool.false_ne_true, if_neg hk.spec.2.1, if_pos rfl, ← hvalue]

theorem nextClause?_else (src : Source) (h : CompleteExpression E expr) (place : Place) (kind : BranchKind)
    {k : Token.Kind} (hs : StartsCondition k) (hk : l.token.kind = .else_) (hc : Calm c) (hr : c.rest = l :: as ++ rest)
    (hstop : Stops rest) (hphrase : E c.scopes.head? as ss) :
    ∃ d, nextClause? src expr place k kind c = some (⟨ss, [clause .else_ l as], true⟩, d) ∧ Reads c (l :: as) d := by
  have hl := Reads.advance hr
  obtain ⟨hvalue, hreads⟩ := branch_gives h place .else_ hl.lastEnd (hc.onward hl.onward) (hl.rest_eq hr) hstop
    (hl.scopes ▸ hphrase)
  refine ⟨(branch expr place .else_ l.token c.advance).2, ?_, hl.trans hreads⟩
  unfold nextClause?
  rw [not_interrupted hc hr (hk ▸ rfl), hr]
  dsimp only [List.cons_append]
  rw [if_neg Bool.false_ne_true, hk, if_neg nofun, if_neg hs.spec.2.2.1.symm, if_pos rfl, ← hvalue]

theorem nextClause?_end (src : Source) (expr : ReadExpression) (place : Place) (k : Token.Kind) (kind : BranchKind)
    (hk : stop.token.kind = .end_) (hr : c.rest = stop :: xs) : nextClause? src expr place k kind c = none := by
  unfold nextClause?
  split
  · rfl
  · rw [hr]
    exact if_pos hk

theorem clauses_gives (src : Source) (h : CompleteExpression E expr) (place : Place) {k : Token.Kind}
    (hs : StartsCondition k) (hrow : ClauseRow (E around) k kind ls ss us) (hk : stop.token.kind = .end_) (hc : Calm c)
    (hscopes : c.scopes.head? = around) (hr : c.rest = ls ++ stop :: xs) :
    Clause.join (c.many (nextClause? src expr place k kind)).1 = ⟨ss, us, true⟩ ∧
      Reads c ls (c.many (nextClause? src expr place k kind)).2 := by
  have htakes := nextClause?_takes src h.steady place k kind
  have hend : Stops (stop :: xs) := .of_kind hk ⟨rfl, nofun⟩ _
  induction hrow generalizing c with
  | nil =>
    rw [many_none htakes (nextClause?_end src expr place k kind hk hr)]
    exact ⟨rfl, .refl c⟩
  | condition hl ha hm ih =>
    rw [List.append_assoc] at hr
    obtain ⟨d, hd, hreads⟩ := nextClause?_condition src h place (hl ▸ hs) hc hr (hm.stops hs hend) (hscopes ▸ ha)
    obtain ⟨hvalue, hmore⟩ := ih (hc.onward hreads.onward) (hreads.scopes.trans hscopes) (hreads.rest_eq hr)
    rw [many_some htakes (hl ▸ hd)]
    refine ⟨?_, hreads.trans hmore⟩
    rw [Clause.join_cons, hvalue]
    rfl
  | else_ hl ha hm ih =>
    rw [List.append_assoc] at hr
    obtain ⟨d, hd, hreads⟩ := nextClause?_else src h place kind hs hl hc hr (hm.stops hs hend) (hscopes ▸ ha)
    obtain ⟨hvalue, hmore⟩ := ih (hc.onward hreads.onward) (hreads.scopes.trans hscopes) (hreads.rest_eq hr)
    rw [many_some htakes hd]
    refine ⟨?_, hreads.trans hmore⟩
    rw [Clause.join_cons, hvalue]
    rfl

theorem terminator_gives (opener : Token) (hk : stop.token.kind = .end_) (hr : c.rest = stop :: xs) :
    Gives c [stop] (some stop.token.range) (terminator opener c) := by
  unfold terminator
  rw [eat?_of_rest hr hk]
  exact ⟨rfl, .advance hr⟩

theorem ifBlock_gives (src : Source) (h : CompleteExpression E expr) (hl : Reads b [l] c) (hc : Calm c)
    (hphrase : Condition (E b.scopes.head?) .if_ l as ss us)
    (hrow : ClauseRow (E b.scopes.head?) .elseIf .elseIf cs tt ds) (hstop : stop.token.kind = .end_)
    (hr : c.rest = as ++ cs ++ stop :: xs) :
    Gives b (l :: (as ++ cs) ++ [stop]) (block src .if_ l (as ++ cs) (us ++ ds) stop (ss ++ tt))
      (ifBlock src expr l.token c) := by
  have hs : StartsCondition .elseIf := .inl rfl
  rw [List.append_assoc] at hr
  rw [← hl.scopes] at hphrase hrow
  obtain ⟨hcond, hreads⟩ := condition_gives h .ifBlock hl.lastEnd hc hr
    (hrow.stops hs (.of_kind hstop ⟨rfl, nofun⟩ _)) hphrase
  obtain ⟨hjoin, hmore⟩ := clauses_gives src h .ifBlock hs hrow hstop (hc.onward hreads.onward) hreads.scopes
    (hreads.rest_eq hr)
  have hbody := hreads.trans hmore
  obtain ⟨hterm, hend⟩ := terminator_gives l.token hstop (hmore.rest_eq (hreads.rest_eq hr))
  obtain ⟨hblock, hf⟩ := finishBlock_reads src .if_ (ss ++ tt) (us ++ ds)
    (hl.trans (hbody.trans hend) : Reads b (l :: (as ++ cs ++ [stop])) _)
  unfold ifBlock ifBody
  dsimp only
  rw [hcond, hjoin, hterm]
  exact ⟨hblock, hf⟩

theorem caseBlock_gives (src : Source) (h : CompleteExpression E expr) (hl : Reads b [l] c) (hc : Calm c)
    (hphrase : E b.scopes.head? as ss) (hrow : ClauseRow (E b.scopes.head?) .when_ .when_ cs tt ds)
    (hwhen : ∃ x ∈ ds, x.kind = .when_) (hstop : stop.token.kind = .end_) (hr : c.rest = as ++ cs ++ stop :: xs) :
    Gives b (l :: (as ++ cs) ++ [stop]) (block src .case_ l (as ++ cs) (clause .case_ l as :: ds) stop (ss ++ tt))
      (caseBlock src expr l.token c) := by
  have hs : StartsCondition .when_ := .inr rfl
  rw [List.append_assoc] at hr
  rw [← hl.scopes] at hphrase hrow
  obtain ⟨hbranch, hreads⟩ := branch_gives h .caseBlock .case_ hl.lastEnd hc hr
    (hrow.stops hs (.of_kind hstop ⟨rfl, nofun⟩ _)) hphrase
  obtain ⟨hjoin, hmore⟩ := clauses_gives src h .caseBlock hs hrow hstop (hc.onward hreads.onward) hreads.scopes
    (hreads.rest_eq hr)
  have hbody := hreads.trans hmore
  have hhas : Clause.hasWhen ⟨ss ++ tt, clause .case_ l as :: ds, true⟩ = true := by
    obtain ⟨x, hx, hk⟩ := hwhen
    exact List.any_eq_true.mpr ⟨x, List.mem_cons_of_mem _ hx, beq_iff_eq.mpr hk⟩
  obtain ⟨hterm, hend⟩ := terminator_gives l.token hstop (hmore.rest_eq (hreads.rest_eq hr))
  obtain ⟨hblock, hf⟩ := finishBlock_reads src .case_ (ss ++ tt) (clause .case_ l as :: ds)
    (hl.trans (hbody.trans hend) : Reads b (l :: (as ++ cs ++ [stop])) _)
  have hcase : (caseBody src expr l.token c).1 = ⟨ss ++ tt, clause .case_ l as :: ds, true⟩ := by
    unfold caseBody
    dsimp only
    rw [hbranch, hjoin]
    rfl
  unfold caseBlock
  dsimp only
  rw [hcase, hhas]
  unfold checkWhen caseBody
  dsimp only
  rw [if_pos rfl, hterm]
  exact ⟨hblock, hf⟩

theorem dimensions_gives (h : CompleteExpression E expr) (hl : c.lastEnd = keyword.token.range.stop) (hc : Calm c)
    {colon : Lexeme} (hk : colon.token.kind = .colon) (hr : c.rest = as ++ colon :: xs)
    (hphrase : Dimensions (E c.scopes.head?) keyword as ss us) :
    Gives c as ⟨ss, us, true⟩ (dimensions expr keyword.token c) := by
  unfold dimensions
  cases hphrase with
  | none =>
    have hno : c.atOperand = false := by
      rw [hc.atOperand hr, hk]
      rfl
    rw [hno]
    exact ⟨rfl, .refl c⟩
  | list hlist =>
    obtain ⟨hvalue, hreads⟩ := commaList_gives h .lodDimensions hc (.inr hk) hr hlist
    rw [if_pos (atOperand_of_starts hc hr (hlist.starts (h.starts _)))]
    refine ⟨?_, hreads⟩
    rw [clause, ← hreads.since_of_lastEnd hl, ← hvalue]

theorem aggregate_gives (h : CompleteExpression E expr) (keyword : Token) {colon : Lexeme}
    (hk : colon.token.kind = .colon) (hc : Calm c) (hr : c.rest = colon :: as ++ rest) (hstop : Stops rest)
    (hphrase : E c.scopes.head? as ss) :
    Gives c (colon :: as) ⟨ss, [clause .aggregate colon as], true⟩ (aggregate expr keyword c) := by
  have hcolon := Reads.advance hr
  obtain ⟨hvalue, hreads⟩ := branch_gives h .lodBody .aggregate hcolon.lastEnd (hc.onward hcolon.onward)
    (hcolon.rest_eq hr) hstop (hcolon.scopes ▸ hphrase)
  unfold aggregate
  rw [eat?_of_rest hr hk]
  exact ⟨hvalue, hcolon.trans hreads⟩

theorem lodHead_gives (h : CompleteExpression E expr) {brace : Lexeme} {scope : LodScope}
    (hl : c.lastEnd = brace.token.range.stop) (hc : Calm c) (hr : c.rest = as ++ rest) (hstop : Stops rest)
    (hphrase : Detail (E c.scopes.head?) brace scope as ss us) :
    Gives c as (scope, ⟨ss, us, true⟩) (lodHead expr brace.token c) := by
  unfold lodHead
  cases hphrase with
  | table ha =>
    obtain ⟨l, as', rfl, hk⟩ := h.starts _ _ _ ha
    obtain ⟨hvalue, hreads⟩ := branch_gives h .lodBody .aggregate hl hc hr hstop ha
    rw [kind?_of_rest hr, Option.bind_some, scopeOf?_of_starts hk]
    exact ⟨by dsimp only; rw [hvalue], hreads⟩
  | @level keyword colon as cs ss tt us scope hscope hd hcolon ha =>
    replace hr : c.rest = keyword :: (as ++ (colon :: cs ++ rest)) := by simpa using hr
    have hkey := Reads.advance hr
    have hrest := hkey.rest_eq hr
    have hcalm := hc.onward hkey.onward
    obtain ⟨hdim, hreads⟩ := dimensions_gives h hkey.lastEnd hcalm hcolon hrest (hkey.scopes ▸ hd)
    obtain ⟨hagg, hmore⟩ := aggregate_gives h keyword.token hcolon (hcalm.onward hreads.onward) (hreads.rest_eq hrest)
      hstop ((hreads.scopes.trans hkey.scopes) ▸ ha)
    rw [kind?_of_rest hr, Option.bind_some, hscope, take?_of_rest hr]
    dsimp only
    rw [hdim, hagg]
    exact ⟨rfl, hkey.trans (hreads.trans hmore)⟩

theorem lodBody_gives (src : Source) (h : CompleteExpression E expr) {brace : Lexeme} {scope : LodScope}
    (hl : c.lastEnd = brace.token.range.stop) (hc : Calm c) (hcloser : .rightBrace ∈ c.closers)
    (hk : stop.token.kind = .rightBrace) (hr : c.rest = as ++ stop :: xs)
    (hphrase : Detail (E c.scopes.head?) brace scope as ss us) :
    Gives c (as ++ [stop]) (scope, ⟨ss, us, true⟩, some stop.token.range) (lodBody src expr brace.token c) := by
  obtain ⟨hvalue, hreads⟩ := lodHead_gives h hl hc hr (.of_kind hk ⟨rfl, nofun⟩ _) hphrase
  have hrest := hreads.rest_eq hr
  have hnone : nextSkipped? src expr (lodHead expr brace.token c).2 = none := by
    have hclosed : isInterrupted (lodHead expr brace.token c).2 = true := by
      rw [← hk, ← hreads.onward.closers] at hcloser
      unfold isInterrupted atCloser
      rw [kind?_of_rest hrest]
      simp [hcloser]
    exact if_pos hclosed
  rw [lodBody_eq, many_none (nextSkipped?_takes src h.steady) hnone, closeBrace]
  dsimp only
  rw [eat?_of_rest hrest hk, hvalue]
  refine ⟨?_, hreads.trans (.advance hrest)⟩
  simp [Clause.append, Clause.join]

theorem lodBlock_gives (src : Source) (h : CompleteExpression E expr) {scope : LodScope} (hl : Reads b [l] c)
    (hc : Calm c) (hk : stop.token.kind = .rightBrace) (hr : c.rest = as ++ stop :: xs)
    (hphrase : Detail (E (some .lod)) l scope as ss us) :
    Gives b (l :: as ++ [stop]) (block src (.lod scope) l as us stop ss) (lodBlock src expr l.token c) := by
  have hbody := lodBody_gives (c := { c with scopes := .lod :: c.scopes, closers := .rightBrace :: c.closers }) src h
    hl.lastEnd ⟨hc.rest, List.forall_mem_cons.mpr ⟨.inr rfl, hc.closers⟩⟩ List.mem_cons_self hk hr hphrase
  have hvalue : (lodInside src expr l.token c).1 = _ := hbody.value
  have hreads : Reads c (as ++ [stop]) (lodInside src expr l.token c).2 :=
    (hbody.reads.inside (c := { c with scopes := .lod :: c.scopes })).inScope
  obtain ⟨hblock, hf⟩ := finishBlock_reads src (.lod scope) ss us (hl.trans hreads : Reads b (l :: (as ++ [stop])) _)
  rw [lodBlock_eq, hvalue]
  exact ⟨hblock, hf⟩

theorem sign?_gives (src : Source) (hk : isSign l.token.kind = true) (hr : c.rest = l :: xs) :
    ∃ d, sign? src c = some ((l.token, operator src l.token), d) ∧ Reads c [l] d := by
  obtain ⟨hword, hs⟩ := operatorSymbol_reads src l.token c.advance
  refine ⟨(operatorSymbol src l.token c.advance).2, ?_, (Reads.advance hr).trans hs⟩
  unfold sign?
  rw [kind?_of_rest hr, Option.any_some, if_pos hk, take?_of_rest hr, ← hword]
  rfl

theorem sign?_ends (src : Source) (h : ∀ l ∈ c.rest.head?, isSign l.token.kind = false) : sign? src c = none := by
  unfold sign?
  refine if_neg ?_
  cases hls : c.rest with
  | nil => simp [kind?, hls]
  | cons l ls => simpa [kind?, hls] using h

theorem nextSign?_calm (src : Source) (hc : Calm c) : nextSign? src c = sign? src c := by
  rw [nextSign?, hc.afterBlank, if_neg Bool.false_ne_true]

theorem nextSigns_gives (src : Source) {ws : List Lexeme} (hws : ∀ l ∈ ws, isSign l.token.kind = true)
    (hend : ∀ l ∈ rest.head?, isSign l.token.kind = false) (hc : Calm c) (hr : c.rest = ws ++ rest) :
    Gives c ws (signsOf src ws) (c.many (nextSign? src)) := by
  induction ws generalizing c with
  | nil =>
    rw [many_none (nextSign?_takes src)]
    · exact ⟨rfl, .refl c⟩
    · rw [nextSign?_calm src hc]
      refine sign?_ends src ?_
      rw [hr]
      exact hend
  | cons l ws ih =>
    obtain ⟨hl, hws⟩ := List.forall_mem_cons.mp hws
    obtain ⟨d, hd, hreads⟩ := sign?_gives src hl hr
    obtain ⟨hvalue, hmore⟩ := ih hws (hc.onward hreads.onward) (hreads.rest_eq hr)
    rw [many_some (nextSign?_takes src) ((nextSign?_calm src hc).trans hd), hvalue]
    exact ⟨rfl, hreads.trans hmore⟩

theorem signs_gives (src : Source) {ws : List Lexeme} (hws : ∀ l ∈ ws, isSign l.token.kind = true)
    (hend : ∀ l ∈ rest.head?, isSign l.token.kind = false) (hc : Calm c) (hr : c.rest = ws ++ rest) :
    Gives c ws (signsOf src ws) (signs src c) := by
  unfold signs
  cases ws with
  | nil =>
    rw [sign?_ends src (hr ▸ hend)]
    exact ⟨rfl, .refl c⟩
  | cons l ws =>
    obtain ⟨hl, hws⟩ := List.forall_mem_cons.mp hws
    obtain ⟨d, hd, hreads⟩ := sign?_gives src hl hr
    obtain ⟨hvalue, hmore⟩ := nextSigns_gives src hws hend (hc.onward hreads.onward) (hreads.rest_eq hr)
    rw [hd]
    dsimp only
    rw [hvalue]
    exact ⟨rfl, hreads.trans hmore⟩

theorem primary_literal {t : Token} (h : isLiteral t.kind = true) (c : Cursor) :
    primary src expr t c = ([(literal src t c).1], (literal src t c).2) := by
  unfold primary
  revert h
  cases t.kind <;> simp [isLiteral]

/-- A construct, once its first lexeme has been taken. -/
theorem primary_gives (h : CompleteExpression E expr) (hphrase : Primary src E b.scopes.head? (l :: as) ss)
    (hb : Calm b) (hr : b.rest = l :: as ++ rest) (hdot : Undotted rest) :
    Gives b (l :: as) ss (primary src expr l.token b.advance) := by
  have hl := Reads.advance hr
  have hc := hb.onward hl.onward
  have hrest : b.advance.rest = as ++ rest := hl.rest_eq hr
  have hone : ∀ {ls : List Lexeme} {s : Symbol} {r : Symbol × Cursor}, Gives b ls s r → Gives b ls [s] ([r.1], r.2) :=
    fun hg => ⟨by rw [hg.value], hg.reads⟩
  cases hphrase with
  | literal hk hclosed =>
    rw [primary_literal hk]
    exact hone (literal_gives src hl hclosed)
  | field hk hclosed =>
    unfold primary
    rw [hk]
    exact hone (field_gives src hl hclosed (hrest ▸ hdot))
  | qualified hk hclosed hdot hk' hclosed' =>
    unfold primary
    rw [hk]
    exact hone (qualified_gives src hl hclosed hdot hk' hclosed' hrest)
  | call hk hparen hargs =>
    have hp := Reads.advance hrest
    unfold primary word
    rw [hk]
    dsimp only
    rw [eat?_of_rest hrest hparen]
    exact hone (call_gives src h (hl.trans hp) hargs (hc.onward hp.onward) (hp.rest_eq hrest))
  | group hk ha hclose =>
    rw [List.append_eq, List.append_assoc] at hrest
    obtain ⟨hvalue, hreads⟩ := grouping_gives h false l.token hc hclose hrest (hl.scopes ▸ ha)
    unfold primary
    rw [hk]
    exact ⟨hvalue, hl.trans hreads⟩
  | ifBlock hk ha hrow hend =>
    rw [List.append_eq, List.append_assoc] at hrest
    unfold primary
    rw [hk]
    exact hone (ifBlock_gives src h hl hc ha hrow hend hrest)
  | caseBlock hk ha hrow hwhen hend =>
    rw [List.append_eq, List.append_assoc] at hrest
    unfold primary
    rw [hk]
    exact hone (caseBlock_gives src h hl hc ha hrow hwhen hend hrest)
  | lodBlock hk ha hend =>
    rw [List.append_eq, List.append_assoc] at hrest
    unfold primary
    rw [hk]
    exact hone (lodBlock_gives src h hl hc hend hrest ha)

theorem operand_gives (h : CompleteExpression E expr) (hphrase : Operand src E c.scopes.head? ls ss) (hc : Calm c)
    (hr : c.rest = ls ++ rest) (hdot : Undotted rest) : Gives c ls ss (operand src expr c) := by
  obtain ⟨ws, as, tt, rfl, hws, hprimary, rfl⟩ := hphrase.split
  obtain ⟨l, as, rfl, hk⟩ := hprimary.starts
  obtain ⟨hstart, hsign⟩ := Bool.and_eq_true_iff.mp hk
  rw [List.append_assoc] at hr
  obtain ⟨hvalue, hreads⟩ := signs_gives src hws (by simpa using hsign) hc hr
  have hcalm := hc.onward hreads.onward
  have hrest := hreads.rest_eq hr
  obtain ⟨hsymbols, hmore⟩ := primary_gives h (hreads.scopes.symm ▸ hprimary) hcalm hrest hdot
  unfold operand signed
  dsimp only
  rw [kind?_of_rest hrest, Option.any_some, hstart, hcalm.afterBlank, take?_of_rest hrest]
  simp only [Bool.and_false, Bool.not_false, Bool.and_self, if_true]
  rw [hvalue, hsymbols]
  exact ⟨rfl, hreads.trans hmore⟩

theorem rightSide_list (h : CompleteExpression E expr) (place : Place) {op : Token} {paren close : Lexeme}
    (hop : op.kind = .in_) (hparen : paren.token.kind = .leftParen) (hclose : close.token.kind = .rightParen)
    (hphrase : CommaList (E c.scopes.head?) as ss) (hc : Calm c) (hr : c.rest = paren :: as ++ close :: xs) :
    Gives c (paren :: as ++ [close]) ss (rightSide src expr place op c) := by
  have hp := Reads.advance hr
  obtain ⟨hvalue, hreads⟩ := grouping_gives h true paren.token (hc.onward hp.onward) hclose (hp.rest_eq hr)
    (hp.scopes ▸ hphrase)
  unfold rightSide
  rw [if_pos ⟨hop, by rw [hc.afterBlank]; rfl⟩, eat?_of_rest hr hparen]
  exact ⟨hvalue, hp.trans hreads⟩

theorem rightSide_operand (h : CompleteExpression E expr) (place : Place) (op : Token)
    (hphrase : Operand src E c.scopes.head? ls ss) (hc : Calm c) (hr : c.rest = ls ++ rest) (hdot : Undotted rest) :
    Gives c ls ss (rightSide src expr place op c) := by
  obtain ⟨l, as, rfl, hk⟩ := hphrase.starts
  by_cases hlist : op.kind = .in_ ∧ l.token.kind = .leftParen
  · obtain ⟨as, close, rfl, hclose, hcomma⟩ := hphrase.group hlist.2
    exact rightSide_list h place hlist.1 hlist.2 hclose hcomma hc (by simpa using hr)
  · have hnone : (if op.kind = .in_ ∧ !c.afterBlank then c.eat? .leftParen else none) = none := by
      split
      · rename_i hin
        refine eat?_eq_none fun x hx hparen => hlist ⟨hin.1, ?_⟩
        rw [hr] at hx
        obtain rfl := Option.some.inj hx
        exact hparen
      · rfl
    unfold rightSide
    rw [hnone]
    dsimp only
    rw [if_pos (atOperand_of_starts hc hr hphrase.starts)]
    exact operand_gives h hphrase hc hr hdot

theorem link?_gives (src : Source) (expr : ReadExpression) (place : Place)
    (hk : l.token.kind.isBinaryOperator = true) (hc : Calm c) (hr : c.rest = l :: xs) :
    ∃ d, Reads c [l] d ∧ link? src expr place c =
      some (operator src l.token ++ (rightSide src expr place l.token d).1,
        (rightSide src expr place l.token d).2) := by
  obtain ⟨hword, hs⟩ := operatorSymbol_reads src l.token c.advance
  refine ⟨(operatorSymbol src l.token c.advance).2, (Reads.advance hr).trans hs, ?_⟩
  unfold link? operator?
  rw [kind?_of_rest hr, Option.any_some, hk, hc.afterBlank, take?_of_rest hr, ← hword]
  rfl

theorem link?_ends (src : Source) (expr : ReadExpression) (place : Place) (hstop : Stops c.rest) :
    link? src expr place c = none := by
  have hnone : c.operator? = none := by
    refine if_neg fun hop => ?_
    cases hls : c.rest with
    | nil => simp [kind?, hls] at hop
    | cons l ls =>
      have hk := (hstop l (by simp [hls])).1
      simp [kind?, hls, hk] at hop
  rw [link?, hnone]
  rfl

theorem links_give (h : CompleteExpression E expr) (place : Place) (hlinks : Links src E around bs tt)
    (hstop : Stops rest) (hc : Calm c) (hscopes : c.scopes.head? = around) (hr : c.rest = bs ++ rest) :
    (c.many (link? src expr place)).1.flatten = tt ∧ Reads c bs (c.many (link? src expr place)).2 := by
  have htakes := link?_takes src h.steady place
  induction hlinks generalizing c with
  | nil =>
    rw [many_none htakes (link?_ends src expr place (hr ▸ hstop))]
    exact ⟨rfl, .refl c⟩
  | operand hk ha hm ih =>
    rw [List.append_assoc] at hr
    obtain ⟨d, hd, hlink⟩ := link?_gives src expr place hk hc hr
    have hrest := hd.rest_eq hr
    obtain ⟨hvalue, hreads⟩ := rightSide_operand h place _ ((hd.scopes.trans hscopes).symm ▸ ha)
      (hc.onward hd.onward) hrest (hm.undotted hstop)
    have hboth := hd.trans hreads
    obtain ⟨hmore, hend⟩ := ih (hc.onward hboth.onward) (hboth.scopes.trans hscopes) (hboth.rest_eq hr)
    rw [many_some htakes hlink, List.flatten_cons, hmore, hvalue]
    exact ⟨rfl, hboth.trans hend⟩
  | @list l paren close as bs ss tt hk hparen ha hclose hm ih =>
    replace hr : c.rest = l :: (paren :: as ++ close :: (bs ++ rest)) := by simpa using hr
    obtain ⟨d, hd, hlink⟩ := link?_gives src expr place (by rw [hk]; rfl) hc hr
    have hrest := hd.rest_eq hr
    obtain ⟨hvalue, hreads⟩ := rightSide_list h place hk hparen hclose ((hd.scopes.trans hscopes).symm ▸ ha)
      (hc.onward hd.onward) hrest
    have hboth := hd.trans hreads
    obtain ⟨hmore, hend⟩ := ih (hc.onward hboth.onward) (hboth.scopes.trans hscopes)
      (hboth.rest_eq (by simpa using hr))
    rw [many_some htakes hlink, List.flatten_cons, hmore, hvalue]
    exact ⟨rfl, hboth.trans hend⟩

theorem chain_gives (h : CompleteExpression E expr) (place : Place) (hphrase : Chain src E c.scopes.head? ls ss)
    (hc : Calm c) (hr : c.rest = ls ++ rest) (hstop : Stops rest) : Gives c ls ss (chain src expr place c) := by
  cases hphrase with
  | mk ha hb =>
    rw [List.append_assoc] at hr
    obtain ⟨hvalue, hreads⟩ := operand_gives h ha hc hr (hb.undotted hstop)
    obtain ⟨hmore, hend⟩ := links_give h place hb hstop (hc.onward hreads.onward) hreads.scopes (hreads.rest_eq hr)
    unfold chain
    dsimp only
    rw [hvalue, hmore]
    exact ⟨rfl, hreads.trans hend⟩

/-- Every expression that nests no deeper than there are levels is read as what it is. -/
theorem expression_complete (src : Source) (levels : Nat) :
    CompleteExpression (Expression src levels) (expression src levels) := by
  induction levels with
  | zero => exact ⟨expression_steady src 0, nofun, nofun⟩
  | succ levels ih =>
    exact ⟨expression_steady src (levels + 1), fun _ _ _ h => h.starts,
      fun place c ls rest ss hc hr hstop hphrase => chain_gives ih place hphrase hc hr hstop⟩

end Calculation.Statement
