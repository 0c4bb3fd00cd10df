import Calculation.Proofs.Grammar.Soundness

namespace Calculation.Statement
open Cursor Grammar

variable {src : Source} {E : Expressions} {expr : ReadExpression} {around : Option Scope} {b c d e : Cursor}
  {place : Place} {kind : BranchKind} {a : Clause} {l keyword : Lexeme} {ls : List Lexeme}

theorem branch_phrase (h : SoundExpression E expr) (hl : c.lastEnd = keyword.token.range.stop)
    (hq : Quiet c (branch expr place kind keyword.token c).2) :
    ∃ as ss, Reads c as (branch expr place kind keyword.token c).2 ∧ E c.scopes.head? as ss ∧
      (branch expr place kind keyword.token c).1 = ⟨ss, [clause kind keyword as], true⟩ := by
  unfold branch required at hq ⊢
  by_cases hat : c.atOperand = true
  · rw [if_pos hat] at hq ⊢
    obtain ⟨as, has, hphrase⟩ := h.phrase place c (atStart_of_atOperand hat) hq
    refine ⟨as, _, has, hphrase, ?_⟩
    rw [clause, ← has.since_of_lastEnd hl]
  · rw [if_neg hat] at hq
    exact absurd hq (not_quiet_fault rfl)

theorem thenClause_phrase (h : SoundExpression E expr) {opener : Token}
    (hq : Quiet c (thenClause expr place opener c).2) :
    ∃ then_ as ss, then_.token.kind = .then_ ∧ Reads c (then_ :: as) (thenClause expr place opener c).2 ∧
      E c.scopes.head? as ss ∧ (thenClause expr place opener c).1 = ⟨ss, [clause .then_ then_ as], true⟩ := by
  unfold thenClause at hq ⊢
  cases he : c.eat? .then_ with
  | some p =>
    obtain ⟨t, d⟩ := p
    obtain ⟨then_, rfl, hk, hthen⟩ := Reads.of_eat he
    rw [he] at hq
    obtain ⟨-, hqb⟩ := hq.split hthen.onward (branch_onward h.steady place .then_ then_.token d)
    obtain ⟨as, ss, has, hphrase, hbranch⟩ := branch_phrase h hthen.lastEnd hqb
    exact ⟨then_, as, ss, hk, hthen.trans has, hthen.scopes ▸ hphrase, hbranch⟩
  | none =>
    rw [he] at hq
    have hfault : ∀ d, Onward (c.fault (.missingThen opener.kind) opener.range) d → ¬Quiet c d :=
      fun d => not_quiet_of_fault rfl
    refine absurd hq (hfault _ ?_)
    dsimp only
    split
    · exact h.steady.onward place _
    · exact .refl _

theorem condition_phrase (h : SoundExpression E expr) (hl : c.lastEnd = keyword.token.range.stop)
    (hq : Quiet c (condition expr place kind keyword.token c).2) :
    ∃ as ss bs, Reads c as (condition expr place kind keyword.token c).2 ∧
      Condition (E c.scopes.head?) kind keyword as ss bs ∧
      (condition expr place kind keyword.token c).1 = ⟨ss, bs, true⟩ := by
  obtain ⟨hqb, hqt⟩ := hq.split (branch_onward h.steady place kind keyword.token c)
    (thenClause_onward h.steady place keyword.token _)
  obtain ⟨as, ss, has, hphrase, hbranch⟩ := branch_phrase h hl hqb
  obtain ⟨then_, bs, tt, hk, hbs, hphrase', hthen⟩ := thenClause_phrase h hqt
  refine ⟨_, _, _, has.trans hbs, .mk hphrase hk (has.scopes ▸ hphrase'), ?_⟩
  unfold condition
  dsimp only
  rw [hbranch, hthen]
  rfl

theorem unexpected_structural {k : Token.Kind} {text : String} {isRun : Bool} {r : Range} :
    ((Cause.unexpected k text isRun place).spanning r).isStructural = true := by
  unfold Diagnostic.isStructural Cause.spanning Cause.code
  dsimp only
  split
  · rfl
  · split
    · rfl
    · split <;> rfl

/-- A stretch is never skipped without a structural fault. -/
theorem not_quiet_skipped (src : Source) (h : SteadyExpression expr) (t : Token) :
    ¬Quiet c (skippedClause src expr place t c).2 :=
  not_quiet_of_fault unexpected_structural
    (((skipStretch_onward h place t).scanning (c.fault _ t.range)).trans (.finish src _ _))

/-- The next clause: a condition with its value, or a value behind ELSE. -/
theorem nextClause?_phrase (h : SoundExpression E expr) {k : Token.Kind} (hc : c.scopes.head? = around)
    (hr : nextClause? src expr place k kind c = some (a, d)) (hq : Quiet c d) :
    (∃ l as ss bs, l.token.kind = k ∧ Condition (E around) kind l as ss bs ∧ Reads c (l :: as) d ∧
      a = ⟨ss, bs, true⟩) ∨
    ∃ l as ss, l.token.kind = .else_ ∧ E around as ss ∧ Reads c (l :: as) d ∧
      a = ⟨ss, [clause .else_ l as], true⟩ := by
  unfold nextClause? at hr
  split at hr
  · cases hr
  · split at hr
    · cases hr
    · rename_i l ls hls
      have hl := Reads.advance hls
      dsimp only at hr
      split at hr
      · cases hr
      · split at hr
        · rename_i hk
          cases hr
          obtain ⟨-, hqc⟩ := hq.split hl.onward (condition_onward h.steady place kind l.token _)
          obtain ⟨as, ss, bs, has, hphrase, ha⟩ := condition_phrase h hl.lastEnd hqc
          rw [hl.scopes, hc] at hphrase
          exact .inl ⟨l, as, ss, bs, hk, hphrase, hl.trans has, ha⟩
        · split at hr
          · rename_i hk
            cases hr
            obtain ⟨-, hqb⟩ := hq.split hl.onward (branch_onward h.steady place .else_ l.token _)
            obtain ⟨as, ss, has, hphrase, ha⟩ := branch_phrase h hl.lastEnd hqb
            rw [hl.scopes, hc] at hphrase
            exact .inr ⟨l, as, ss, hk, hphrase, hl.trans has, ha⟩
          · cases hr
            exact absurd hq (not_quiet_skipped src h.steady l.token)

theorem clauses_phrase (h : SoundExpression E expr) {k : Token.Kind} (hc : c.scopes.head? = around)
    (hq : Quiet c (c.many (nextClause? src expr place k kind)).2) :
    ∃ ls, Reads c ls (c.many (nextClause? src expr place k kind)).2 ∧ ∃ ss bs,
      ClauseRow (E around) k kind ls ss bs ∧
      Clause.join (c.many (nextClause? src expr place k kind)).1 = ⟨ss, bs, true⟩ := by
  refine (nextClause?_onward src h.steady place k kind).many_reads
    (P := fun ls as => ∃ ss bs, ClauseRow (E around) k kind ls ss bs ∧ Clause.join as = ⟨ss, bs, true⟩)
    ⟨[], [], .nil, rfl⟩ (fun c a d hc hr hq => ?_) hc hq
  rcases nextClause?_phrase h hc hr hq with ⟨l, as, ss, bs, hk, hphrase, has, rfl⟩ | ⟨l, as, ss, hk, hphrase, has, rfl⟩
  · refine ⟨_, has, ?_⟩
    rintro ls rest ⟨tt, ds, hm, hjoin⟩
    exact ⟨_, _, .condition hk hphrase hm, by rw [Clause.join_cons, hjoin]; rfl⟩
  · refine ⟨_, has, ?_⟩
    rintro ls rest ⟨tt, ds, hm, hjoin⟩
    exact ⟨_, _, .else_ hk hphrase hm, by rw [Clause.join_cons, hjoin]; rfl⟩

theorem terminator_reads {opener : Token} (hq : Quiet c (terminator opener c).2) :
    ∃ stop, stop.token.kind = .end_ ∧ Reads c [stop] (terminator opener c).2 ∧
      (terminator opener c).1 = some stop.token.range := by
  unfold terminator at hq ⊢
  cases he : c.eat? .end_ with
  | some p =>
    obtain ⟨t, d⟩ := p
    obtain ⟨stop, rfl, hk, hr⟩ := Reads.of_eat he
    exact ⟨stop, hk, hr, rfl⟩
  | none =>
    rw [he] at hq
    exact absurd hq (not_quiet_fault rfl)

/-- A block that has all its clauses and its end. -/
theorem finishBlock_reads (src : Source) (kind : BlockKind) (ss : List Symbol) (bs : List Branch)
    {opener stop : Lexeme} {as : List Lexeme} (h : Reads b (opener :: (as ++ [stop])) c) :
    (finishBlock src kind opener.token ⟨ss, bs, true⟩ (some stop.token.range) c).1 =
        block src kind opener as bs stop ss ∧
      Reads b (opener :: as ++ [stop])
        (finishBlock src kind opener.token ⟨ss, bs, true⟩ (some stop.token.range) c).2 := by
  have hf := h.trans (.finish src ⟨kind.name, .block kind bs (some stop.token.range),
    c.since opener.token.range.start, ss, true, []⟩ c)
  rw [List.append_nil] at hf
  refine ⟨?_, hf⟩
  rw [block, ← h.since]
  rfl

theorem finishBlock_onward (src : Source) (kind : BlockKind) (opener : Token) (body : Clause) (stop : Option Range)
    (c : Cursor) : Onward c (finishBlock src kind opener body stop c).2 :=
  .finish src _ c

theorem ifBody_phrase (h : SoundExpression E expr) (hl : c.lastEnd = l.token.range.stop)
    (hq : Quiet c (ifBody src expr l.token c).2) :
    ∃ as cs ss tt bs ds, Reads c (as ++ cs) (ifBody src expr l.token c).2 ∧
      Condition (E c.scopes.head?) .if_ l as ss bs ∧ ClauseRow (E c.scopes.head?) .elseIf .elseIf cs tt ds ∧
      (ifBody src expr l.token c).1 = ⟨ss ++ tt, bs ++ ds, true⟩ := by
  obtain ⟨hqc, hqm⟩ := hq.split (condition_onward h.steady .ifBlock .if_ l.token c)
    ((nextClause?_onward src h.steady .ifBlock .elseIf .elseIf).many _)
  obtain ⟨as, ss, bs, has, hphrase, hcond⟩ := condition_phrase h hl hqc
  obtain ⟨cs, hcs, tt, ds, hrow, hjoin⟩ := clauses_phrase h has.scopes hqm
  refine ⟨as, cs, ss, tt, bs, ds, has.trans hcs, hphrase, hrow, ?_⟩
  unfold ifBody
  dsimp only
  rw [hcond, hjoin]
  rfl

theorem ifBlock_phrase (h : SoundExpression E expr) (hk : l.token.kind = .if_) (hl : Reads b [l] c)
    (hq : Quiet c (ifBlock src expr l.token c).2) : ∃ ls, Reads b ls (ifBlock src expr l.token c).2 ∧
      Primary src E b.scopes.head? ls [(ifBlock src expr l.token c).1] := by
  have hblock : ifBlock src expr l.token c = finishBlock src .if_ l.token (ifBody src expr l.token c).1
      (terminator l.token (ifBody src expr l.token c).2).1 (terminator l.token (ifBody src expr l.token c).2).2 := rfl
  rw [hblock] at hq ⊢
  obtain ⟨hqb, hq⟩ := hq.split (ifBody_onward src h.steady l.token c)
    ((terminator_onward l.token _).trans (finishBlock_onward src _ _ _ _ _))
  obtain ⟨hqt, -⟩ := hq.split (terminator_onward l.token _) (finishBlock_onward src _ _ _ _ _)
  obtain ⟨as, cs, ss, tt, bs, ds, hbody, hphrase, hrow, hclause⟩ := ifBody_phrase h hl.lastEnd hqb
  obtain ⟨stop, hstop, hs, hterm⟩ := terminator_reads hqt
  rw [hclause, hterm]
  obtain ⟨hblock, hr⟩ := finishBlock_reads src .if_ (ss ++ tt) (bs ++ ds)
    (hl.trans (hbody.trans hs) : Reads b (l :: (as ++ cs ++ [stop])) _)
  rw [hl.scopes] at hphrase hrow
  exact ⟨_, hr, hblock ▸ .ifBlock hk hphrase hrow hstop⟩

theorem checkWhen_reads {opener : Token} {hasWhen : Bool} (hq : Quiet c (checkWhen opener hasWhen c)) :
    hasWhen = true ∧ checkWhen opener hasWhen c = c := by
  cases hasWhen with
  | true => exact ⟨rfl, rfl⟩
  | false => exact absurd hq (not_quiet_fault rfl)

theorem caseBody_phrase (h : SoundExpression E expr) (hl : c.lastEnd = l.token.range.stop)
    (hq : Quiet c (caseBody src expr l.token c).2) :
    ∃ as cs ss tt ds, Reads c (as ++ cs) (caseBody src expr l.token c).2 ∧ E c.scopes.head? as ss ∧
      ClauseRow (E c.scopes.head?) .when_ .when_ cs tt ds ∧
      (caseBody src expr l.token c).1 = ⟨ss ++ tt, clause .case_ l as :: ds, true⟩ := by
  obtain ⟨hqb, hqm⟩ := hq.split (branch_onward h.steady .caseBlock .case_ l.token c)
    ((nextClause?_onward src h.steady .caseBlock .when_ .when_).many _)
  obtain ⟨as, ss, has, hphrase, hbranch⟩ := branch_phrase h hl hqb
  obtain ⟨cs, hcs, tt, ds, hrow, hjoin⟩ := clauses_phrase h has.scopes hqm
  refine ⟨as, cs, ss, tt, ds, has.trans hcs, hphrase, hrow, ?_⟩
  unfold caseBody
  dsimp only
  rw [hbranch, hjoin]
  rfl

theorem caseBlock_phrase (h : SoundExpression E expr) (hk : l.token.kind = .case_) (hl : Reads b [l] c)
    (hq : Quiet c (caseBlock src expr l.token c).2) : ∃ ls, Reads b ls (caseBlock src expr l.token c).2 ∧
      Primary src E b.scopes.head? ls [(caseBlock src expr l.token c).1] := by
  unfold caseBlock at hq ⊢
  dsimp only at hq ⊢
  obtain ⟨hqb, hq⟩ := hq.split (caseBody_onward src h.steady l.token c) ((checkWhen_onward l.token _ _).trans
    ((terminator_onward l.token _).trans (finishBlock_onward src _ _ _ _ _)))
  obtain ⟨hqw, hq⟩ := hq.split (checkWhen_onward l.token _ _)
    ((terminator_onward l.token _).trans (finishBlock_onward src _ _ _ _ _))
  obtain ⟨hwhen, hcheck⟩ := checkWhen_reads hqw
  rw [hcheck] at hq ⊢
  obtain ⟨hqt, -⟩ := hq.split (terminator_onward l.token _) (finishBlock_onward src _ _ _ _ _)
  obtain ⟨as, cs, ss, tt, ds, hbody, hphrase, hrow, hclause⟩ := caseBody_phrase h hl.lastEnd hqb
  obtain ⟨stop, hstop, hs, hterm⟩ := terminator_reads hqt
  rw [hwhen, hclause, hterm]
  obtain ⟨hblock, hr⟩ := finishBlock_reads src .case_ (ss ++ tt) (clause .case_ l as :: ds)
    (hl.trans (hbody.trans hs) : Reads b (l :: (as ++ cs ++ [stop])) _)
  have hwhen' : ∃ x ∈ ds, x.kind = .when_ := by
    rw [hclause] at hwhen
    simpa [Clause.hasWhen, clause] using hwhen
  rw [hl.scopes] at hphrase hrow
  exact ⟨_, hr, hblock ▸ .caseBlock hk hphrase hrow hwhen' hstop⟩

theorem dimensions_phrase (h : SoundExpression E expr) (hl : c.lastEnd = keyword.token.range.stop)
    (hq : Quiet c (dimensions expr keyword.token c).2) :
    ∃ as ss bs, Reads c as (dimensions expr keyword.token c).2 ∧ Dimensions (E c.scopes.head?) keyword as ss bs ∧
      (dimensions expr keyword.token c).1 = ⟨ss, bs, true⟩ := by
  unfold dimensions at hq ⊢
  by_cases hat : c.atOperand = true
  · rw [if_pos hat] at hq ⊢
    obtain ⟨as, has, hphrase⟩ := commaList_phrase h .lodDimensions hat hq
    refine ⟨as, _, _, has, .list hphrase, ?_⟩
    rw [clause, ← has.since_of_lastEnd hl]
  · rw [if_neg hat] at hq ⊢
    exact ⟨[], [], [], .refl c, .none, rfl⟩

theorem aggregate_phrase (h : SoundExpression E expr) {keyword : Token} (hq : Quiet c (aggregate expr keyword c).2) :
    ∃ colon as ss, colon.token.kind = .colon ∧ Reads c (colon :: as) (aggregate expr keyword c).2 ∧
      E c.scopes.head? as ss ∧ (aggregate expr keyword c).1 = ⟨ss, [clause .aggregate colon as], true⟩ := by
  unfold aggregate at hq ⊢
  cases he : c.eat? .colon with
  | some p =>
    obtain ⟨t, d⟩ := p
    obtain ⟨colon, rfl, hk, hcolon⟩ := Reads.of_eat he
    rw [he] at hq
    obtain ⟨-, hqb⟩ := hq.split hcolon.onward (branch_onward h.steady .lodBody .aggregate colon.token d)
    obtain ⟨as, ss, has, hphrase, hbranch⟩ := branch_phrase h hcolon.lastEnd hqb
    exact ⟨colon, as, ss, hk, hcolon.trans has, hcolon.scopes ▸ hphrase, hbranch⟩
  | none =>
    rw [he] at hq
    exact absurd hq (not_quiet_fault rfl)

theorem lodHead_phrase (h : SoundExpression E expr) {brace : Lexeme} (hl : c.lastEnd = brace.token.range.stop)
    (hq : Quiet c (lodHead expr brace.token c).2) :
    ∃ as ss bs scope, Reads c as (lodHead expr brace.token c).2 ∧ Detail (E c.scopes.head?) brace scope as ss bs ∧
      (lodHead expr brace.token c).1 = (scope, ⟨ss, bs, true⟩) := by
  unfold lodHead at hq ⊢
  split
  · rename_i scope t d hscope htake
    rw [hscope, htake] at hq
    dsimp only at hq ⊢
    obtain ⟨keyword, rfl, hkey⟩ := Reads.of_take htake
    obtain ⟨-, hq⟩ := hq.split hkey.onward ((dimensions_onward h.steady keyword.token d).trans
      (aggregate_onward h.steady keyword.token _))
    obtain ⟨hqd, hqa⟩ := hq.split (dimensions_onward h.steady keyword.token d)
      (aggregate_onward h.steady keyword.token _)
    obtain ⟨as, ss, bs, has, hdim, hd⟩ := dimensions_phrase h hkey.lastEnd hqd
    obtain ⟨colon, cs, tt, hcolon, hcs, hphrase, ha⟩ := aggregate_phrase h hqa
    have hkind : scopeOf? keyword.token.kind = some scope := by
      simpa [kind?, hkey.rest] using hscope
    rw [has.scopes, hkey.scopes] at hphrase
    refine ⟨_, _, _, scope, hkey.trans (has.trans hcs), .level hkind (hkey.scopes ▸ hdim) hcolon hphrase, ?_⟩
    rw [hd, ha]
    rfl
  · rename_i hno
    split at hq
    · exact absurd ‹_› (hno _ _ _ ‹_›)
    · obtain ⟨as, ss, has, hphrase, hbranch⟩ := branch_phrase h hl hq
      refine ⟨as, ss, _, .table, has, .table hphrase, ?_⟩
      dsimp only
      rw [hbranch]

theorem nextSkipped?_quiet (h : SteadyExpression expr) (hr : nextSkipped? src expr c = some (a, d)) : ¬Quiet c d := by
  unfold nextSkipped? at hr
  split at hr
  · cases hr
  · split at hr
    · cases hr
    · split at hr
      · cases hr
      · cases hr
        exact not_quiet_skipped src h _

theorem skipped_nil (h : SteadyExpression expr) (hq : Quiet c (c.many (nextSkipped? src expr)).2) :
    c.many (nextSkipped? src expr) = ([], c) := by
  refine many_none (nextSkipped?_takes src h) ?_
  cases hr : nextSkipped? src expr c with
  | none => rfl
  | some p =>
    rw [many_some (nextSkipped?_takes src h) hr] at hq
    have hd := nextSkipped?_onward src h c p.1 p.2 hr
    exact absurd (hq.split hd ((nextSkipped?_onward src h).many p.2)).1 (nextSkipped?_quiet h hr)

theorem lodBody_phrase (h : SoundExpression E expr) {brace : Lexeme} (hl : c.lastEnd = brace.token.range.stop)
    (hq : Quiet c (lodBody src expr brace.token c).2) (hstop : (lodBody src expr brace.token c).1.2.2.isSome = true) :
    ∃ as ss bs scope stop, Reads c (as ++ [stop]) (lodBody src expr brace.token c).2 ∧
      Detail (E c.scopes.head?) brace scope as ss bs ∧ stop.token.kind = .rightBrace ∧
      (lodBody src expr brace.token c).1 = (scope, ⟨ss, bs, true⟩, some stop.token.range) := by
  have hhead := lodHead_onward h.steady brace.token c
  have hmany := (nextSkipped?_onward src h.steady).many (lodHead expr brace.token c).2
  simp only [lodBody_eq, closeBrace] at hq hstop ⊢
  cases he : ((lodHead expr brace.token c).2.many (nextSkipped? src expr)).2.eat? .rightBrace with
  | none =>
    rw [he] at hstop
    cases hstop
  | some p =>
    obtain ⟨t, d⟩ := p
    rw [he] at hq
    obtain ⟨stop, rfl, hk, hr⟩ := Reads.of_eat he
    obtain ⟨hqh, hq⟩ := hq.split hhead (hmany.trans hr.onward)
    obtain ⟨hqm, -⟩ := hq.split hmany hr.onward
    obtain ⟨as, ss, bs, scope, has, hphrase, hclause⟩ := lodHead_phrase h hl hqh
    have hnil := skipped_nil h.steady hqm
    rw [hnil] at hr ⊢
    refine ⟨as, ss, bs, scope, stop, has.trans hr, hphrase, hk, ?_⟩
    rw [hclause]
    simp [Clause.append, Clause.join]

theorem checkBrace_reads {brace : Token} {stop : Option Range} (hq : Quiet c (checkBrace brace stop c)) :
    stop.isSome = true ∧ checkBrace brace stop c = c := by
  cases stop with
  | some r => exact ⟨rfl, rfl⟩
  | none => exact absurd hq (not_quiet_fault rfl)

/-- The inside of an LOD block, read in its scope and with its closing brace. -/
def lodInside (src : Source) (expr : ReadExpression) (brace : Token) :
    Cursor → (LodScope × Clause × Option Range) × Cursor :=
  Cursor.inScope .lod (Cursor.inside .rightBrace (lodBody src expr brace))

theorem lodBlock_eq (src : Source) (expr : ReadExpression) (brace : Token) (c : Cursor) :
    lodBlock src expr brace c = finishBlock src (.lod (lodInside src expr brace c).1.1) brace
      (lodInside src expr brace c).1.2.1 (lodInside src expr brace c).1.2.2
      (checkBrace brace (lodInside src expr brace c).1.2.2 (lodInside src expr brace c).2) := by
  unfold lodBlock lodInside
  rfl

theorem lodInside_phrase (h : SoundExpression E expr) {brace : Lexeme} (hl : c.lastEnd = brace.token.range.stop)
    (hq : Quiet c (lodInside src expr brace.token c).2)
    (hstop : (lodInside src expr brace.token c).1.2.2.isSome = true) :
    ∃ as ss bs scope stop, Reads c (as ++ [stop]) (lodInside src expr brace.token c).2 ∧
      Detail (E (some .lod)) brace scope as ss bs ∧ stop.token.kind = .rightBrace ∧
      (lodInside src expr brace.token c).1 = (scope, ⟨ss, bs, true⟩, some stop.token.range) := by
  obtain ⟨as, ss, bs, scope, stop, has, hphrase, hs, hclause⟩ := lodBody_phrase
    (c := { c with scopes := .lod :: c.scopes, closers := .rightBrace :: c.closers }) h hl hq hstop
  have hinside := has.inside (c := { c with scopes := .lod :: c.scopes })
  exact ⟨as, ss, bs, scope, stop, hinside.inScope, hphrase, hs, hclause⟩

theorem lodBlock_phrase (h : SoundExpression E expr) (hk : l.token.kind = .leftBrace) (hl : Reads b [l] c)
    (hq : Quiet c (lodBlock src expr l.token c).2) : ∃ ls, Reads b ls (lodBlock src expr l.token c).2 ∧
      Primary src E b.scopes.head? ls [(lodBlock src expr l.token c).1] := by
  have hinside : Onward c (lodInside src expr l.token c).2 :=
    ((lodBody_onward src h.steady l.token).inside .rightBrace).inScope .lod c
  rw [lodBlock_eq] at hq ⊢
  obtain ⟨hqb, hq⟩ := hq.split hinside ((checkBrace_onward l.token _ _).trans (finishBlock_onward src _ _ _ _ _))
  obtain ⟨hqs, -⟩ := hq.split (checkBrace_onward l.token _ _) (finishBlock_onward src _ _ _ _ _)
  obtain ⟨hstop, hcheck⟩ := checkBrace_reads hqs
  obtain ⟨as, ss, bs, scope, stop, has, hphrase, hs, hclause⟩ := lodInside_phrase h hl.lastEnd hqb hstop
  rw [hcheck, hclause]
  obtain ⟨hblock, hr⟩ := finishBlock_reads src (.lod scope) ss bs (hl.trans has : Reads b (l :: (as ++ [stop])) _)
  exact ⟨_, hr, hblock ▸ .lodBlock hk hphrase hs⟩

theorem sign?_reads {sign : Token × List Symbol} (h : sign? src c = some (sign, d)) :
    ∃ l, isSign l.token.kind = true ∧ sign = (l.token, operator src l.token) ∧ Reads c [l] d := by
  unfold sign? at h
  split at h
  · rename_i hk
    obtain ⟨⟨t, e⟩, ht, he⟩ := Option.map_eq_some_iff.mp h
    obtain ⟨l, rfl, hl⟩ := Reads.of_take ht
    obtain ⟨hword, hr⟩ := operatorSymbol_reads src l.token e
    cases he
    exact ⟨l, by simpa [kind?, hl.rest] using hk, Prod.ext rfl hword, hl.trans hr⟩
  · cases h

/-- The signs are read, and whatever operand stands behind them is one with them. -/
def SignPhrase (src : Source) (E : Expressions) (around : Option Scope) (c : Cursor)
    (signs : List (Token × List Symbol)) (d : Cursor) : Prop :=
  ∃ ls, Reads c ls d ∧ ∀ as ss, Operand src E around as ss →
    Operand src E around (ls ++ as) (signs.flatMap (·.2) ++ ss)

theorem SignPhrase.nil (c : Cursor) : SignPhrase src E around c [] c :=
  ⟨[], .refl c, fun _ _ h => h⟩

theorem SignPhrase.cons {sign : Token × List Symbol} {signs : List (Token × List Symbol)}
    (hs : sign? src c = some (sign, d)) (h : SignPhrase src E around d signs e) :
    SignPhrase src E around c (sign :: signs) e := by
  obtain ⟨l, hk, rfl, hl⟩ := sign?_reads hs
  obtain ⟨ls, hls, hoperand⟩ := h
  refine ⟨l :: ls, hl.trans hls, fun as ss ha => ?_⟩
  rw [List.flatMap_cons, List.append_assoc]
  exact .signed hk (hoperand as ss ha)

theorem signs_phrase (src : Source) (E : Expressions) (around : Option Scope) (c : Cursor) :
    SignPhrase src E around c (signs src c).1 (signs src c).2 := by
  have hmany : ∀ c : Cursor, SignPhrase src E around c (c.many (nextSign? src)).1 (c.many (nextSign? src)).2 := by
    refine many_rule (P := SignPhrase src E around) .nil ?_
    intro c s d signs e hs ih
    unfold nextSign? at hs
    split at hs
    · cases hs
    · exact .cons hs ih
  unfold signs
  split
  · exact .nil c
  · exact .cons ‹_› (hmany _)

theorem word_phrase (h : SoundExpression E expr) (hk : l.token.kind = .identifier) (hl : Reads b [l] c)
    (hq : Quiet c (word src expr l.token c).2) : ∃ ls, Reads b ls (word src expr l.token c).2 ∧
      Primary src E b.scopes.head? ls [(word src expr l.token c).1] := by
  unfold word at hq ⊢
  cases he : c.eat? .leftParen with
  | some p =>
    obtain ⟨t, d⟩ := p
    obtain ⟨paren, rfl, hparen, hr⟩ := Reads.of_eat he
    rw [he] at hq
    exact call_phrase h hk hparen (hl.trans hr) (hq.split hr.onward (call_onward src h.steady _ _ d)).2
  | none =>
    rw [he] at hq
    exact absurd hq (not_quiet_of_fault rfl (.leaf src _ _ _ _ _))

/-- The construct that starts with a lexeme which is no sign. -/
theorem primary_phrase (h : SoundExpression E expr) (hs : l.token.kind.startsExpression = true)
    (hn : isSign l.token.kind = false) (hl : Reads b [l] c) (hq : Quiet c (primary src expr l.token c).2) :
    ∃ ls, Reads b ls (primary src expr l.token c).2 ∧
      Primary src E b.scopes.head? ls (primary src expr l.token c).1 := by
  unfold primary at hq ⊢
  dsimp only at hq ⊢
  revert hq
  split
  · rename_i hk
    exact fieldReference_phrase hl hk
  · rename_i hk
    exact word_phrase h hk hl
  · rename_i hk
    intro hq
    obtain ⟨as, close, hclose, hr, hphrase⟩ := grouping_phrase h hq
    rw [hl.scopes] at hphrase
    exact ⟨_, hl.trans hr, .group hk hphrase hclose⟩
  · rename_i hk
    exact lodBlock_phrase h hk hl
  · rename_i hk
    exact ifBlock_phrase h hk hl
  · rename_i hk
    exact caseBlock_phrase h hk hl
  · rename_i h₁ h₂ h₃ h₄ h₅ h₆
    intro hq
    have hliteral : isLiteral l.token.kind = true := by
      revert hs hn h₁ h₂ h₃ h₄ h₅ h₆
      cases l.token.kind <;> simp [Token.Kind.startsExpression, isSign, isLiteral]
    have hclosed := openLiteral?_of_quiet src hq
    obtain ⟨hnode, hr⟩ := literal_reads src hclosed c
    exact ⟨[l], hl.trans hr, hnode ▸ .literal hliteral hclosed⟩

theorem signed_phrase (h : SoundExpression E expr) {signs : List (Token × List Symbol)} (hpast : PastSigns signs c)
    (hc : signs = [] → AtStart c) (hq : Quiet c (signed src expr signs c).2) :
    ∃ as ss, Reads c as (signed src expr signs c).2 ∧ Primary src E c.scopes.head? as ss ∧
      (signed src expr signs c).1 = signs.flatMap (·.2) ++ ss := by
  unfold signed at hq ⊢
  dsimp only at hq ⊢
  revert hq
  split
  · rename_i t d ht
    intro hq
    split at ht
    · rename_i hread
      obtain ⟨hstart, hblank⟩ := Bool.and_eq_true_iff.mp hread
      obtain ⟨l, rfl, hl⟩ := Reads.of_take ht
      simp only [kind?, hl.rest, List.cons_append, List.head?_cons, Option.map_some, Option.any_some] at hstart
      have hsign : isSign l.token.kind = false := by
        rcases hpast with hk | ⟨hne, hb⟩
        · simpa [kind?, hl.rest] using hk
        · simp [hb, hne] at hblank
      have hqp := (hq.split hl.onward (primary_onward src h.steady l.token d)).2
      obtain ⟨as, hr, hphrase⟩ := primary_phrase h hstart hsign hl hqp
      exact ⟨as, _, hr, hphrase, rfl⟩
    · cases ht
  · rename_i hnone
    split
    · exact fun hq => absurd hq (not_quiet_fault rfl)
    · rename_i hlast
      have hnil : signs = [] := by simpa using hlast
      obtain ⟨l, ls, hls, hk⟩ := atStart_iff.mp (hc hnil)
      simp [hnil, kind?, take?, hls, hk] at hnone

theorem operand_phrase (h : SoundExpression E expr) (hc : AtStart c) (hq : Quiet c (operand src expr c).2) :
    ∃ ls, Reads c ls (operand src expr c).2 ∧ Operand src E c.scopes.head? ls (operand src expr c).1 := by
  obtain ⟨ls, hls, hoperand⟩ := signs_phrase src E c.scopes.head? c
  obtain ⟨-, hq⟩ := hq.split (signs_onward src c) (signed_onward src h.steady (signs src c).1 (signs src c).2)
  obtain ⟨as, ss, has, hphrase, hsymbols⟩ := signed_phrase h (signs_ahead src c).2
    (fun hnil => (signs_nil hnil).symm ▸ hc) hq
  have hoperand' := hoperand as ss (.primary (hls.scopes ▸ hphrase))
  rw [← hsymbols] at hoperand'
  exact ⟨_, hls.trans has, hoperand'⟩

/-- What stands behind a binary operator is an operand, or behind IN a list. -/
theorem rightSide_phrase (h : SoundExpression E expr) {op : Token} (hq : Quiet c (rightSide src expr place op c).2) :
    (∃ as, Reads c as (rightSide src expr place op c).2 ∧
      Operand src E c.scopes.head? as (rightSide src expr place op c).1) ∨
    op.kind = .in_ ∧ ∃ paren as close, paren.token.kind = .leftParen ∧ close.token.kind = .rightParen ∧
      Reads c (paren :: as ++ [close]) (rightSide src expr place op c).2 ∧
      CommaList (E c.scopes.head?) as (rightSide src expr place op c).1 := by
  unfold rightSide at hq ⊢
  split
  · rename_i t d ht
    rw [ht] at hq
    split at ht
    · rename_i hin
      obtain ⟨paren, rfl, hk, hparen⟩ := Reads.of_eat ht
      obtain ⟨-, hqg⟩ := hq.split hparen.onward (grouping_onward h.steady true paren.token d)
      obtain ⟨as, close, hclose, hr, hphrase⟩ := grouping_phrase h hqg
      rw [hparen.scopes] at hphrase
      exact .inr ⟨hin.1, paren, as, close, hk, hclose, hparen.trans hr, hphrase⟩
    · cases ht
  · rename_i hnone
    rw [hnone] at hq
    split
    · rename_i hat
      rw [if_pos hat] at hq
      exact .inl (operand_phrase h (atStart_of_atOperand hat) hq)
    · rename_i hat
      rw [if_neg hat] at hq
      exact absurd hq (not_quiet_fault rfl)

theorem link?_eq_some {ss : List Symbol} (h : link? src expr place c = some (ss, d)) :
    ∃ op e, c.operator? = some (op, e) ∧
      ss = (operatorSymbol src op e).1 ++ (rightSide src expr place op (operatorSymbol src op e).2).1 ∧
      d = (rightSide src expr place op (operatorSymbol src op e).2).2 := by
  unfold link? at h
  obtain ⟨⟨op, e⟩, ho, he⟩ := Option.map_eq_some_iff.mp h
  obtain ⟨hss, hd⟩ := Prod.mk.inj he
  exact ⟨op, e, ho, hss.symm, hd.symm⟩

theorem link?_phrase (h : SoundExpression E expr) {ss : List Symbol} (hc : c.scopes.head? = around)
    (hr : link? src expr place c = some (ss, d)) (hq : Quiet c d) : ∃ as, Reads c as d ∧
      ∀ bs tt, Links src E around bs tt → Links src E around (as ++ bs) (ss ++ tt) := by
  obtain ⟨op, e, ho, rfl, rfl⟩ := link?_eq_some hr
  obtain ⟨ht, hk⟩ := operator?_eq_some ho
  obtain ⟨l, rfl, hl⟩ := Reads.of_take ht
  obtain ⟨hword, hs⟩ := operatorSymbol_reads src l.token e
  have hop := hl.trans hs
  have hscopes := hop.scopes.trans hc
  obtain ⟨-, hqr⟩ := hq.split hop.onward (rightSide_onward src h.steady place l.token _)
  rw [hword]
  rcases rightSide_phrase h hqr with ⟨as, has, hphrase⟩ | ⟨hin, paren, as, close, hparen, hclose, has, hphrase⟩
  · rw [hscopes] at hphrase
    exact ⟨_, hop.trans has, fun bs tt hm => .operand hk hphrase hm⟩
  · rw [hscopes] at hphrase
    exact ⟨_, hop.trans has, fun bs tt hm => .list hin hparen hphrase hclose hm⟩

theorem chain_phrase (h : SoundExpression E expr) (hc : AtStart c) (hq : Quiet c (chain src expr place c).2) :
    ∃ ls, Reads c ls (chain src expr place c).2 ∧ Chain src E c.scopes.head? ls (chain src expr place c).1 := by
  obtain ⟨hqo, hqm⟩ := hq.split (operand_onward src h.steady c) ((link?_onward src h.steady place).many _)
  obtain ⟨as, has, hoperand⟩ := operand_phrase h hc hqo
  obtain ⟨bs, hbs, hlinks⟩ := (link?_onward src h.steady place).many_reads
    (P := fun ls sss => Links src E c.scopes.head? ls sss.flatten) .nil
    (fun c' ss d hc' hr hq => by
      obtain ⟨as, has, hlink⟩ := link?_phrase h hc' hr hq
      exact ⟨as, has, fun bs rest hm => hlink bs rest.flatten hm⟩) has.scopes hqm
  exact ⟨_, has.trans hbs, .mk hoperand hlinks⟩

/-- Whatever is read as an expression without a structural fault is one, and nests no deeper than there are levels. -/
theorem expression_sound (src : Source) (levels : Nat) :
    SoundExpression (Expression src levels) (expression src levels) := by
  induction levels with
  | zero =>
    refine ⟨expression_steady src 0, fun place c hc hq => ?_⟩
    obtain ⟨l, ls, hls, -⟩ := atStart_iff.mp hc
    have hdeep : expression src 0 place c = tooDeep src place c := rfl
    rw [hdeep, tooDeep, hls] at hq
    exact absurd (hq.split (.skip _ c) ((Onward.fault _ _ _).trans (.leaf src _ _ _ _ _))).2
      (not_quiet_of_fault rfl (.leaf src _ _ _ _ _))
  | succ levels ih => exact ⟨expression_steady src (levels + 1), fun place c hc hq => chain_phrase ih hc hq⟩

end Calculation.Statement
