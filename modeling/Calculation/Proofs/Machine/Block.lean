import Calculation.Proofs.Machine.Construct

namespace Calculation.Parse
open Cursor Statement

variable {f : Frame} {src : Source} {expr : ReadExpression} {c d : Cursor} {l : Lexeme} {ls : List Lexeme}

theorem stops_of_starts {place : Place} {k : Token.Kind} (h : k.startsExpression = true) :
    place.stops.contains k = false := by
  cases place <;> cases k <;> first | rfl | cases h

theorem closing_of_starts (hc : c.Closing) (hl : c.rest = l :: ls) (h : l.token.kind.startsExpression = true) :
    c.atCloser = false := by
  rw [Cursor.atCloser, Cursor.kind?, hl]
  show c.closers.contains l.token.kind = false
  rw [← Bool.not_eq_true, List.contains_iff_mem]
  intro hmem
  rcases hc _ hmem with hk | hk <;> rw [hk] at h <;> cases h

/-- A round of a scan that does not stop here, and those behind it. -/
theorem scanRound_runs (h : Knows src f.depth expr) (place : Place) (start : Nat) (hl : c.rest = l :: ls)
    (hc : f.Holds c) (hrest : ∀ d, f.Holds d → d.rest.length < c.rest.length → Runs f 0 (src.scan place start) d
      ((d.many (skipNext? expr place)).1.flatten, (d.many (skipNext? expr place)).2)) :
    Runs f 0 (do
      let symbols ← (if (f.parser c).kind?.any Token.Kind.startsExpression then src.expression place else return [])
      let q ← get
      doWhen (q.pos == (f.parser c).pos) skip
      let more ← src.scan place start
      return symbols ++ more) c (Statement.skipStretch expr place l.token c) := by
  have hmore (symbols : List Symbol) (d : Cursor) (hd : f.Holds d) (hlt : d.rest.length < c.rest.length) :
      Runs f 0 (do let more ← src.scan place start; return symbols ++ more) d
        (symbols ++ (d.many (skipNext? expr place)).1.flatten, (d.many (skipNext? expr place)).2) :=
    .bind (fun more e => (symbols ++ more, e)) (hrest d hd hlt) fun _ _ _ => .pure _
  have hkind : c.kind?.any Token.Kind.startsExpression = l.token.kind.startsExpression := by
    simp [Cursor.kind?, hl]
  rw [hc.kind?, hkind, Statement.skipStretch, skipFirst]
  by_cases hx : l.token.kind.startsExpression = true
  · rw [if_pos hx, if_pos hx]
    refine Runs.forget (.bindPast (fun symbols d => (symbols ++ (d.many (skipNext? expr place)).1.flatten,
      (d.many (skipNext? expr place)).2)) (h.runs place rfl (atStart_cons hl hx)) fun symbols d _ hlt =>
        .get fun hd => .doWhen (fun hsame => ?_) fun _ => hmore symbols d hd (by omega))
    -- The expression has taken a lexeme.
    have hp := hc.pos_add
    have hq := hd.pos_add
    have hsame := beq_iff_eq.mp hsame
    omega
  · rw [if_neg hx, if_neg hx]
    refine .step (fun _ => rfl) (.refl c) (.get fun _ => .doWhen (fun _ => ?_) fun hsame => ?_)
    · exact (Runs.skip hl (hmore [] c.advance (hc.onward (.advance c)) (length_advance hl))).forget
    · exact absurd hsame (by simp)

/-- What is found in a skipped stretch behind its first lexeme. -/
theorem scan_runs (h : Knows src f.depth expr) (place : Place) (start : Nat) (c : Cursor)
    (hstart : f.Holds c → start < (f.parser c).pos) : Runs f 0 (src.scan place start) c
      ((c.many (skipNext? expr place)).1.flatten, (c.many (skipNext? expr place)).2) := by
  induction hn : c.rest.length using Nat.strongRecOn generalizing c with
  | _ n ih =>
    rw [Source.scan, many_eq_of_advances (skipNext?_takes h.steady place), skipNext?]
    refine .get fun hc => ?_
    have hpos := hstart hc
    rw [hc.atEnd, hc.kind?, hc.atCloser, hc.afterBlank, decide_eq_true hpos, Bool.true_and]
    cases hl : c.rest with
    | nil =>
      rw [if_pos (by simp [Cursor.atEnd, hl])]
      exact .pure _
    | cons l ls =>
      have hstop : (c.atEnd || c.kind?.any (place.stops.contains ·) || c.atCloser || c.afterBlank) =
          (place.stops.contains l.token.kind || c.atCloser || l.afterBlank) := by
        simp [Cursor.atEnd, Cursor.kind?, Cursor.afterBlank, hl]
      rw [hstop]
      dsimp only
      by_cases hs : (place.stops.contains l.token.kind || c.atCloser || l.afterBlank) = true
      · rw [if_pos hs, if_pos hs]
        exact .pure _
      · rw [if_neg hs, if_neg hs]
        have hround := scanRound_runs h place start hl hc fun d hd hlt => ih _ (hn ▸ hlt) d (fun _ => by
          have hp := hc.pos_add
          have hq := hd.pos_add
          omega) rfl
        rw [hc.kind?, Statement.skipStretch, skipFirst] at hround
        by_cases hx : l.token.kind.startsExpression = true
        · rw [if_pos hx] at hround ⊢
          exact hround
        · rw [if_neg hx] at hround ⊢
          exact hround

/-- What a scan finds that starts here, where a blank line does not stop it. -/
def scanned (expr : ReadExpression) (place : Place) (c : Cursor) : List Symbol × Cursor :=
  match c.rest with
  | [] => ([], c)
  | l :: _ =>
    if place.stops.contains l.token.kind || c.atCloser then ([], c)
    else Statement.skipStretch expr place l.token c

theorem scanHere_runs (h : Knows src f.depth expr) (place : Place) (c : Cursor) :
    Runs f 0 (src.scan place (f.parser c).pos) c (scanned expr place c) := by
  rw [Source.scan, scanned]
  refine .get fun hc => ?_
  rw [hc.atEnd, hc.kind?, hc.atCloser, hc.afterBlank, decide_eq_false (Nat.lt_irrefl _), Bool.false_and, Bool.or_false]
  cases hl : c.rest with
  | nil =>
    rw [if_pos (by simp [Cursor.atEnd, hl])]
    exact .pure _
  | cons l ls =>
    have hstop : (c.atEnd || c.kind?.any (place.stops.contains ·) || c.atCloser) =
        (place.stops.contains l.token.kind || c.atCloser) := by
      simp [Cursor.atEnd, Cursor.kind?, hl]
    rw [hstop]
    dsimp only
    by_cases hs : (place.stops.contains l.token.kind || c.atCloser) = true
    · rw [if_pos hs, if_pos hs]
      exact .pure _
    · rw [if_neg hs, if_neg hs, ← hc.kind?]
      refine scanRound_runs h place _ hl hc fun d hd hlt => scan_runs h place _ d fun _ => ?_
      have hp := hc.pos_add
      have hq := hd.pos_add
      omega

/-- Where only closing delimiters are awaited, an expression that starts here is part of the stretch. -/
theorem scanned_of_starts (place : Place) (hc : c.Closing) (hl : c.rest = l :: ls)
    (hx : l.token.kind.startsExpression = true) :
    scanned expr place c = Statement.skipStretch expr place l.token c := by
  rw [scanned, hl]
  dsimp only
  rw [closing_of_starts hc hl hx, stops_of_starts hx, Bool.or_self, if_neg Bool.false_ne_true]

theorem bumpUnexpected_runs {α : Type} {k : Token → Parse α} {r : α × Cursor} (place : Place) (hl : c.rest = l :: ls)
    (hkeeps : l.token.kind.startsExpression = true →
      Runs f 0 (k l.token) (c.fault (.unexpected l.token.kind l.token.text false place) l.token.range) r)
    (htakes : l.token.kind.startsExpression = false →
      Runs f 0 (k l.token) (c.fault (.unexpected l.token.kind l.token.text false place) l.token.range).advance r) :
    Runs f 0 (bumpUnexpected place >>= k) c r := by
  rw [bumpUnexpected]
  simp only [bind_assoc, pure_bind]
  have hl' : (c.fault (.unexpected l.token.kind l.token.text false place) l.token.range).rest = l :: ls := hl
  refine .here hl (.fault (.doWhen (fun hx => ?_) fun hx => ?_))
  · exact (Runs.skip hl' (htakes (by simpa using hx))).forget
  · exact hkeeps (by simpa using hx)

theorem skipStretch_runs (h : Knows src f.depth expr) (place : Place) (hl : c.rest = l :: ls) :
    Runs f 0 (src.skipStretch place) c ((l.token, ((c.fault (.unexpected l.token.kind l.token.text false place)
      l.token.range).scanning (Statement.skipStretch expr place l.token)).1), ((c.fault
        (.unexpected l.token.kind l.token.text false place) l.token.range).scanning
          (Statement.skipStretch expr place l.token)).2) := by
  rw [Source.skipStretch]
  refine .get fun hc => bumpUnexpected_runs place hl (fun hx => ?_) fun hx => ?_
  · refine Runs.cast (.scanning (i := 0) (scanned expr place) (fun symbols d => ((l.token, symbols), d))
      (scanHere_runs h place _) fun _ _ _ _ => .pure _) fun hclosing => ?_
    have hstretch : scanned expr place _ = Statement.skipStretch expr place l.token _ := scanned_of_starts place
      (c := { c.fault (.unexpected l.token.kind l.token.text false place) l.token.range with scans := c.scans + 1 })
      hclosing hl hx
    exact congrArg (fun x => ((l.token, x.1), { x.2 with scans := c.scans })) hstretch.symm
  · refine Runs.cast (.scanning (i := 0) (fun d => ((d.many (skipNext? expr place)).1.flatten,
      (d.many (skipNext? expr place)).2)) (fun symbols d => ((l.token, symbols), d))
      (scan_runs h place _ _ ?_) fun _ _ _ _ => .pure _) fun _ => ?_
    · intro hd
      have hp := hc.pos_add
      have hq := hd.pos_add
      have hlt : (c.fault (.unexpected l.token.kind l.token.text false place) l.token.range).advance.rest.length <
          c.rest.length := length_advance (c := c.fault _ _) hl
      dsimp only at hq
      omega
    · simp only [Cursor.scanning, Statement.skipStretch, skipFirst, hx, Cursor.advance, Cursor.fault, hl]
      rfl

theorem resync_runs (h : Knows src f.depth expr) (place : Place) (hl : c.rest = l :: ls) :
    Runs f 1 (src.resync place) c (Statement.resync src expr place l.token c) := by
  rw [Source.resync]
  refine .get fun _ => .orSkip (fun x d => d.finish src ⟨"error", .skipped, d.since x.1.range.start, x.2, false, []⟩)
    (by simp [hl]) (skipStretch_runs h place hl) ?_ fun x d _ => .get fun hd => ?_
  · exact skipStretch_takes h.steady place (c := { c.fault _ _ with scans := c.scans + 1 }) hl
  · rw [hd.since]
    exact .finish src _

theorem required_runs (h : Knows src f.depth expr) (place : Place) (keyword : Token) (c : Cursor) :
    Runs f 0 (src.required place keyword) c (Statement.required expr place keyword c) := by
  rw [Source.required, Statement.required]
  refine .get fun hc => ?_
  rw [hc.atOperand]
  split
  · rename_i hop
    exact (h.runs place rfl (atStart_of_atOperand hop)).forget
  · exact .fault (.pure _)

theorem branch_runs (h : Knows src f.depth expr) (place : Place) (kind : BranchKind) (keyword : Token) (c : Cursor) :
    Runs f 0 (src.branch place kind keyword) c (Statement.branch expr place kind keyword c) := by
  rw [Source.branch]
  refine .bind (fun symbols d => ((⟨symbols, [⟨kind, keyword.range, d.since keyword.range.start⟩], true⟩ : Clause), d))
    (required_runs h place keyword c) fun symbols d _ => .get fun hd => ?_
  rw [hd.since]
  exact .pure _

theorem thenClause_runs (h : Knows src f.depth expr) (place : Place) (opener : Token) (c : Cursor) :
    Runs f 0 (src.thenClause place opener) c (Statement.thenClause expr place opener c) := by
  rw [Source.thenClause, Statement.thenClause]
  refine .eat (fun t d heat => ?_) fun heat => ?_
  · rw [heat]
    exact branch_runs h place .then_ t d
  · rw [heat]
    refine .fault (.get fun hc => ?_)
    rw [hc.atOperand]
    dsimp only
    split
    · rename_i hop
      exact .bind (fun symbols d => ((⟨symbols, [], false⟩ : Clause), d))
        (h.runs place rfl (atStart_of_atOperand hop)).forget fun _ _ _ => .pure _
    · exact .bind (fun symbols d => ((⟨symbols, [], false⟩ : Clause), d)) (.pure _) fun _ _ _ => .pure _

theorem condition_runs (h : Knows src f.depth expr) (place : Place) (kind : BranchKind) (keyword : Token)
    (c : Cursor) : Runs f 0 (src.condition place kind keyword) c (Statement.condition expr place kind keyword c) := by
  rw [Source.condition]
  exact .bind (fun head d => (head.append (Statement.thenClause expr place keyword d).1,
      (Statement.thenClause expr place keyword d).2)) (branch_runs h place kind keyword c)
    fun head d _ => .bind (fun tail e => (head.append tail, e)) (thenClause_runs h place keyword d) fun _ _ _ => .pure _

/-- What was read of a block, and the terminator that stands behind it. -/
def closeAt (kind : Token.Kind) (body : Clause) (c : Cursor) : (Clause × Option Range) × Cursor :=
  match c.eat? kind with
  | some (t, d) => ((body, some t.range), d)
  | none => ((body, none), c)

theorem closeAt_body (kind : Token.Kind) (body : Clause) (c : Cursor) : (closeAt kind body c).1.1 = body := by
  unfold closeAt
  split <;> rfl

theorem closeAt_append (kind : Token.Kind) (a b : Clause) (c : Cursor) : closeAt kind (a.append b) c =
    ((a.append (closeAt kind b c).1.1, (closeAt kind b c).1.2), (closeAt kind b c).2) := by
  unfold closeAt
  split <;> rfl

/-- Clauses one behind the other, and the terminator behind them. -/
def clausesUpTo (read? : Cursor → Option (Clause × Cursor)) (kind : Token.Kind) (c : Cursor) :
    (Clause × Option Range) × Cursor :=
  closeAt kind (.join (c.many read?).1) (c.many read?).2

/-- A clause and those behind it. -/
def clausesFrom (read? : Cursor → Option (Clause × Cursor)) (kind : Token.Kind) (clause : Clause) (c : Cursor) :
    (Clause × Option Range) × Cursor :=
  ((clause.append (clausesUpTo read? kind c).1.1, (clausesUpTo read? kind c).1.2), (clausesUpTo read? kind c).2)

theorem clausesUpTo_eq {read? : Cursor → Option (Clause × Cursor)} (h : Takes read?) (kind : Token.Kind) (c : Cursor) :
    clausesUpTo read? kind c = match read? c with
      | some (clause, d) => clausesFrom read? kind clause d
      | none => closeAt kind .empty c := by
  rw [clausesUpTo, many_eq_of_advances h]
  cases read? c with
  | none => rfl
  | some x =>
    dsimp only
    rw [Clause.join_cons, closeAt_append]
    rfl

theorem clausesFrom_runs {m : Parse (Clause × Option Range)} {read? : Cursor → Option (Clause × Cursor)}
    {kind : Token.Kind} (clause : Clause) (h : Runs f 0 m c (clausesUpTo read? kind c)) :
    Runs f 0 (do let x ← m; return (clause.append x.1, x.2)) c (clausesFrom read? kind clause c) :=
  .bind (fun x d => ((clause.append x.1, x.2), d)) h fun _ _ _ => .pure _

/-- Where only closing delimiters are awaited, no block is interrupted at its END. -/
theorem not_isAt_end (hc : c.Closing) (hstop : isInterrupted c = true) : c.isAt .end_ = false := by
  rw [← Bool.not_eq_true]
  intro hat
  have hk : c.kind? = some .end_ := beq_iff_eq.mp hat
  rw [isInterrupted, hk, Cursor.atCloser, hk] at hstop
  simp only [Token.Kind.isBlockContinuation, Bool.not_true, Bool.and_false, Bool.false_or, Option.any_some,
    List.contains_iff_mem] at hstop
  rcases hc _ hstop with hk | hk <;> cases hk

theorem clauses_runs (h : Knows src f.depth expr) (place : Place) (keyword : Token.Kind) (kind : BranchKind)
    (hkeyword : keyword ≠ .end_) (c : Cursor) :
    Runs f 0 (src.clauses place keyword kind) c (clausesUpTo (nextClause? src expr place keyword kind) .end_ c) := by
  refine .byLength (clausesUpTo (nextClause? src expr place keyword kind) .end_) (fun c ih => ?_) c
  have hmore (clause : Clause) (d : Cursor) (hd : d.rest.length < c.rest.length) :=
    clausesFrom_runs clause (ih d hd)
  rw [Source.clauses, clausesUpTo_eq (nextClause?_takes src h.steady place keyword kind), nextClause?]
  refine .get fun hc => ?_
  rw [hc.isInterrupted, hc.isAt, hc.isAt, hc.isAt]
  by_cases hstop : isInterrupted c = true
  · rw [if_pos hstop, if_pos hstop]
    refine Runs.cast (.pure _) fun hclosing => ?_
    have hend : c.eat? .end_ = none := by
      rw [Cursor.eat?, not_isAt_end hclosing hstop]
      rfl
    rw [closeAt, hend]
  · rw [if_neg hstop, if_neg hstop]
    cases hl : c.rest with
    | nil => exact absurd (by simp [isInterrupted, Cursor.kind?, hl]) hstop
    | cons l ls =>
      have hat (k : Token.Kind) : c.isAt k = true ↔ l.token.kind = k := by simp [Cursor.isAt, Cursor.kind?, hl]
      have hlt := length_advance hl
      dsimp only
      by_cases hk : l.token.kind = keyword
      · rw [if_pos ((hat _).mpr hk), if_neg (hk ▸ hkeyword), if_pos hk]
        exact (Runs.bump hl (.bind (clausesFrom (nextClause? src expr place keyword kind) .end_)
          (condition_runs h place kind l.token c.advance) fun clause d hd =>
            hmore clause d (Nat.lt_of_le_of_lt hd.length_le hlt))).forget
      · rw [if_neg (mt (hat _).mp hk), if_neg hk]
        by_cases helse : l.token.kind = .else_
        · rw [if_pos ((hat _).mpr helse), if_neg (by rw [helse]; decide), if_pos helse]
          exact (Runs.bump hl (.bind (clausesFrom (nextClause? src expr place keyword kind) .end_)
            (branch_runs h place .else_ l.token c.advance) fun clause d hd =>
              hmore clause d (Nat.lt_of_le_of_lt hd.length_le hlt))).forget
        · rw [if_neg (mt (hat _).mp helse), if_neg helse]
          by_cases hend : l.token.kind = .end_
          · rw [if_pos ((hat _).mpr hend), if_pos hend, closeAt, ← hend, eat_cons hl]
            refine (Runs.bump hl ?_).forget
            exact .pure _
          · rw [if_neg (mt (hat _).mp hend), if_neg hend]
            exact (Runs.bindPast (fun s d => clausesFrom (nextClause? src expr place keyword kind) .end_ ⟨[s], [], true⟩ d)
              (resync_runs h place hl) fun s d _ hd => hmore _ d (by omega)).forget

/-- A missing END is reported where none was found. -/
def reportEnd (opener : Token) (stop : Option Range) (c : Cursor) : Cursor :=
  if stop.isNone then c.fault (.missingEnd opener.kind) opener.range else c

theorem terminator_eq (opener : Token) (body : Clause) (c : Cursor) : terminator opener c =
    ((closeAt .end_ body c).1.2, reportEnd opener (closeAt .end_ body c).1.2 (closeAt .end_ body c).2) := by
  unfold terminator closeAt
  cases c.eat? .end_ <;> rfl

theorem ifBlock_runs (h : Knows src f.depth expr) (hl : c.rest = l :: ls) :
    Runs f 1 src.ifBlock c (Statement.ifBlock src expr l.token c.advance) := by
  rw [Source.ifBlock]
  have hblock (head : Clause) (d : Cursor) :
      Runs f 0 (do
        let x ← src.clauses .ifBlock .elseIf .elseIf
        doWhen x.2.isNone (fault (.missingEnd l.token.kind) l.token.range)
        src.finishBlock .if_ l.token (head.append x.1) x.2) d
      (let x := clausesUpTo (nextClause? src expr .ifBlock .elseIf .elseIf) .end_ d
       Statement.finishBlock src .if_ l.token (head.append x.1.1) x.1.2 (reportEnd l.token x.1.2 x.2)) :=
    .bind (fun x e => Statement.finishBlock src .if_ l.token (head.append x.1) x.2 (reportEnd l.token x.2 e))
      (clauses_runs h .ifBlock .elseIf .elseIf (by decide) d) fun x e _ => .reporting (finishBlock_runs _ _ _ _)
  refine .bump hl (Runs.cast (.bind _ (condition_runs h .ifBlock .if_ l.token c.advance) fun head d _ =>
    hblock head d) fun _ => ?_)
  obtain ⟨d, hd⟩ : ∃ d, d = (Statement.condition expr .ifBlock .if_ l.token c.advance).2 := ⟨_, rfl⟩
  rw [Statement.ifBlock, ifBody]
  dsimp only
  rw [← hd, terminator_eq l.token (.join (d.many (nextClause? src expr .ifBlock .elseIf .elseIf)).1), clausesUpTo,
    closeAt_body]

theorem checkWhen_eq (opener : Token) (hasWhen : Bool) (c : Cursor) :
    checkWhen opener hasWhen c = if !hasWhen then c.fault .missingWhen opener.range else c := by
  cases hasWhen <;> rfl

/-- Whether a WHEN is missing may be told before END is taken or after. -/
theorem closeAt_checkWhen (opener : Token) (hasWhen : Bool) (body : Clause) (c : Cursor) :
    closeAt .end_ body (checkWhen opener hasWhen c) =
      ((closeAt .end_ body c).1, checkWhen opener hasWhen (closeAt .end_ body c).2) := by
  have heat : (c.fault .missingWhen opener.range).eat? .end_ =
      (c.eat? .end_).map fun x => (x.1, x.2.fault .missingWhen opener.range) := by
    cases hl : c.rest with
    | nil => simp [Cursor.eat?, Cursor.isAt, Cursor.kind?, Cursor.fault, hl]
    | cons l ls =>
      simp only [Cursor.eat?, Cursor.isAt, Cursor.kind?, Cursor.take?, Cursor.advance, Cursor.fault, hl]
      split <;> rfl
  cases hasWhen with
  | true => rfl
  | false =>
    show closeAt .end_ body (c.fault .missingWhen opener.range) =
      ((closeAt .end_ body c).1, (closeAt .end_ body c).2.fault .missingWhen opener.range)
    unfold closeAt
    rw [heat]
    cases c.eat? .end_ <;> rfl

theorem caseBlock_runs (h : Knows src f.depth expr) (hl : c.rest = l :: ls) :
    Runs f 1 src.caseBlock c (Statement.caseBlock src expr l.token c.advance) := by
  rw [Source.caseBlock]
  have hblock (head : Clause) (d : Cursor) :
      Runs f 0 (do
        let x ← src.clauses .caseBlock .when_ .when_
        let body := head.append x.1
        doWhen (!body.hasWhen) (fault .missingWhen l.token.range)
        doWhen x.2.isNone (fault (.missingEnd l.token.kind) l.token.range)
        src.finishBlock .case_ l.token { body with isComplete := body.isComplete && body.hasWhen } x.2) d
      (let x := clausesUpTo (nextClause? src expr .caseBlock .when_ .when_) .end_ d
       let body := head.append x.1.1
       Statement.finishBlock src .case_ l.token { body with isComplete := body.isComplete && body.hasWhen } x.1.2
        (reportEnd l.token x.1.2 (checkWhen l.token body.hasWhen x.2))) := by
    refine .bind (fun x e => Statement.finishBlock src .case_ l.token
      { head.append x.1 with isComplete := (head.append x.1).isComplete && (head.append x.1).hasWhen } x.2
        (reportEnd l.token x.2 (checkWhen l.token (head.append x.1).hasWhen e)))
      (clauses_runs h .caseBlock .when_ .when_ (by decide) d) fun x e _ => ?_
    rw [checkWhen_eq]
    exact .reporting (.reporting (finishBlock_runs _ _ _ _))
  refine .bump hl (Runs.cast (.bind _ (branch_runs h .caseBlock .case_ l.token c.advance) fun head d _ =>
    hblock head d) fun _ => ?_)
  obtain ⟨d, hd⟩ : ∃ d, d = (Statement.branch expr .caseBlock .case_ l.token c.advance).2 := ⟨_, rfl⟩
  rw [Statement.caseBlock, caseBody]
  dsimp only
  rw [← hd, terminator_eq l.token (.join (d.many (nextClause? src expr .caseBlock .when_ .when_)).1), clausesUpTo,
    closeAt_body, closeAt_checkWhen]

/-- Without an expression there are no dimensions, and the parser stays where it is. -/
theorem dimensionItems_none (hc : c.atOperand = false) (hf : f.Holds c) :
    src.dimensionItems (f.parser c) = some ([], f.parser c) := by
  rw [Source.dimensionItems]
  show (if (f.parser c).atOperand = true then _ else _ : Parse (List Symbol)) (f.parser c) = _
  rw [hf.atOperand, hc]
  rfl

theorem dimensions_runs (h : Knows src f.depth expr) (keyword : Token) (c : Cursor) :
    Runs f 0 (src.dimensions keyword) c (Statement.dimensions expr keyword c) := by
  rw [Source.dimensions, Statement.dimensions]
  refine .get fun hc => ?_
  cases hop : c.atOperand with
  | true =>
    have hitems := dimensionItems_runs h c
    rw [hop, if_pos rfl] at hitems
    refine Runs.forget (.bindPast (fun symbols d => ((⟨symbols, [⟨.dimensions, keyword.range,
      d.since keyword.range.start⟩], true⟩ : Clause), d)) hitems fun symbols d _ hlt => .get fun hd => ?_)
    have hp := hc.pos_add
    have hq := hd.pos_add
    rw [if_pos (by omega), hd.since]
    exact .pure _
  | false =>
    refine .step (dimensionItems_none hop) (.refl c) (.get fun _ => ?_)
    rw [if_neg (Nat.lt_irrefl _)]
    exact .pure _

theorem aggregate_runs (h : Knows src f.depth expr) (keyword : Token) (c : Cursor) :
    Runs f 0 (src.aggregate keyword) c (Statement.aggregate expr keyword c) := by
  rw [Source.aggregate, Statement.aggregate]
  refine .eat (fun colon d heat => ?_) fun heat => ?_
  · rw [heat]
    exact branch_runs h .lodBody .aggregate colon d
  · rw [heat]
    exact .fault (.pure _)

theorem lodHead_runs (h : Knows src f.depth expr) (brace : Token) (c : Cursor) :
    Runs f 0 (src.lodHead brace) c (Statement.lodHead expr brace c) := by
  rw [Source.lodHead, Statement.lodHead]
  refine .get fun hc => ?_
  rw [hc.kind?]
  have htable : Runs f 0 (do let body ← src.branch .lodBody .aggregate brace; return (LodScope.table, body)) c
      ((LodScope.table, (Statement.branch expr .lodBody .aggregate brace c).1),
        (Statement.branch expr .lodBody .aggregate brace c).2) :=
    .bind (fun body d => ((LodScope.table, body), d)) (branch_runs h .lodBody .aggregate brace c) fun _ _ _ => .pure _
  cases hl : c.rest with
  | nil =>
    rw [Cursor.kind?, hl]
    exact htable
  | cons l ls =>
    rw [Cursor.kind?, Cursor.take?, hl]
    dsimp only [List.head?_cons, Option.map_some, Option.bind_some]
    cases scopeOf? l.token.kind with
    | none => exact htable
    | some scope =>
      exact (Runs.bump hl (.bind (fun head d => ((scope, head.append (Statement.aggregate expr l.token d).1),
          (Statement.aggregate expr l.token d).2)) (dimensions_runs h l.token c.advance) fun head d _ =>
        .bind (fun body e => ((scope, head.append body), e)) (aggregate_runs h l.token d) fun _ _ _ => .pure _)).forget

/-- The next skipped stretch in front of the closing brace. -/
def nextBeforeBrace? (src : Source) (expr : ReadExpression) (c : Cursor) : Option (Clause × Cursor) :=
  if c.isAt .rightBrace then none else nextSkipped? src expr c

theorem nextBeforeBrace?_takes (h : SteadyExpression expr) : Takes (nextBeforeBrace? src expr) := by
  intro c a d hd
  unfold nextBeforeBrace? at hd
  split at hd
  · cases hd
  · exact nextSkipped?_takes src h c a d hd

/-- Where the brace is awaited it need not be looked for. -/
theorem many_nextBeforeBrace? (h : SteadyExpression expr) (hbrace : .rightBrace ∈ c.closers) :
    c.many (nextBeforeBrace? src expr) = c.many (nextSkipped? src expr) := by
  induction hn : c.rest.length using Nat.strongRecOn generalizing c with
  | _ n ih =>
    have hnext : nextBeforeBrace? src expr c = nextSkipped? src expr c := by
      unfold nextBeforeBrace?
      split
      · rename_i hat
        have hcloser : c.atCloser = true := by
          rw [Cursor.atCloser, beq_iff_eq.mp hat]
          exact List.contains_iff_mem.mpr hbrace
        simp [nextSkipped?, isInterrupted, beq_iff_eq.mp hat, hcloser]
      · rfl
    rw [many_eq_of_advances (nextBeforeBrace?_takes h), many_eq_of_advances (nextSkipped?_takes src h), hnext]
    cases hs : nextSkipped? src expr c with
    | none => rfl
    | some x =>
      dsimp only
      have hlt := nextSkipped?_takes src h c x.1 x.2 hs
      have hclosers := (nextSkipped?_onward src h c x.1 x.2 hs).closers
      rw [ih _ (hn ▸ hlt) (hclosers ▸ hbrace) rfl]

theorem lodTail_runs (h : Knows src f.depth expr) (c : Cursor) :
    Runs f 0 src.lodTail c (clausesUpTo (nextBeforeBrace? src expr) .rightBrace c) := by
  refine .byLength (clausesUpTo (nextBeforeBrace? src expr) .rightBrace) (fun c ih => ?_) c
  rw [Source.lodTail, clausesUpTo_eq (nextBeforeBrace?_takes h.steady), nextBeforeBrace?]
  refine .get fun hc => ?_
  rw [hc.isAt, hc.isInterrupted, hc.kind?]
  by_cases hbrace : c.isAt .rightBrace = true
  · obtain ⟨l, ls, hl, hk⟩ := exists_of_isAt hbrace
    rw [if_pos hbrace, if_pos hbrace, closeAt, ← hk, eat_cons hl]
    refine (Runs.bump hl ?_).forget
    exact .pure _
  · have heat : c.eat? .rightBrace = none := by rw [Cursor.eat?, if_neg hbrace]
    rw [if_neg hbrace, if_neg hbrace, nextSkipped?]
    by_cases hstop : isInterrupted c = true
    · rw [if_pos hstop, hstop, Bool.true_or, if_pos rfl, closeAt, heat]
      exact .pure _
    · rw [if_neg hstop]
      cases hl : c.rest with
      | nil => exact absurd (by simp [isInterrupted, Cursor.kind?, hl]) hstop
      | cons l ls =>
        have hkind : c.kind?.any (fun k => k.isBlockContinuation && k != .then_) =
            (l.token.kind.isBlockContinuation && l.token.kind != .then_) := by simp [Cursor.kind?, hl]
        rw [hkind]
        dsimp only
        by_cases hends : (l.token.kind.isBlockContinuation && l.token.kind != .then_) = true
        · rw [if_pos hends, hends, Bool.or_true, if_pos rfl, closeAt, heat]
          exact .pure _
        · rw [if_neg (by simp [hends, hstop]), if_neg hends]
          exact (Runs.bindPast (fun s d => clausesFrom (nextBeforeBrace? src expr) .rightBrace ⟨[s], [], true⟩ d)
            (resync_runs h .lodBody hl) fun s d _ hd => clausesFrom_runs _ (ih d (by omega))).forget

theorem lodBody_runs (h : Knows src f.depth expr) (brace : Token) (hbrace : .rightBrace ∈ c.closers) :
    Runs f 0 (src.lodBody brace) c (Statement.lodBody src expr brace c) := by
  rw [Source.lodBody]
  refine Runs.cast (.bind (fun x d => ((x.1, (clausesFrom (nextBeforeBrace? src expr) .rightBrace x.2 d).1),
      (clausesFrom (nextBeforeBrace? src expr) .rightBrace x.2 d).2)) (lodHead_runs h brace c) fun x d _ =>
    .bind (fun y e => ((x.1, x.2.append y.1, y.2), e)) (lodTail_runs h d) fun _ _ _ => .pure _) fun _ => ?_
  have hclosers := (lodHead_onward h.steady brace c).closers
  rw [lodBody_eq, clausesFrom, clausesUpTo, many_nextBeforeBrace? h.steady (hclosers ▸ hbrace)]
  unfold closeBrace closeAt
  cases ((Statement.lodHead expr brace c).2.many (nextSkipped? src expr)).2.eat? .rightBrace <;> rfl

theorem lodBlock_runs (h : Knows src f.depth expr) (hl : c.rest = l :: ls) :
    Runs f 1 src.lodBlock c (Statement.lodBlock src expr l.token c.advance) := by
  rw [Source.lodBlock]
  refine .bump hl (.inBlock (fun x d => Statement.finishBlock src (.lod x.1) l.token x.2.1 x.2.2
    (checkBrace l.token x.2.2 d)) (.inr rfl) (lodBody_runs h l.token List.mem_cons_self) fun x d _ => ?_)
  have hcheck : checkBrace l.token x.2.2 d = if x.2.2.isNone then d.fault .openBrace l.token.range else d := by
    cases x.2.2 <;> rfl
  rw [hcheck]
  exact .reporting (finishBlock_runs _ _ _ _)

end Calculation.Parse
