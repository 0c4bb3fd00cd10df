import Calculation.Proofs.Reading.Construct

namespace Calculation

/-- What a clause gives stands in line between two offsets. -/
structure Statement.Clause.InLine (edge : Nat → Prop) (lo hi : Nat) (a : Statement.Clause) : Prop where
  symbols : Symbol.InLine edge lo hi a.symbols
  branches : Range.InLine lo hi (a.branches.map (·.range))
  proper : ∀ b ∈ a.branches, b.Proper

namespace Statement
open Cursor

variable {src : Source} {expr : ReadExpression} {edge : Nat → Prop} {lo hi : Nat} {c d : Cursor} {t : Token}

namespace Clause.InLine

variable {lo' hi' m : Nat} {a b : Clause}

theorem empty : Clause.empty.InLine edge lo hi :=
  ⟨.nil, trivial, by simp [Clause.empty]⟩

theorem mono (h : a.InLine edge lo hi) (hl : lo' ≤ lo) (hh : hi ≤ hi') : a.InLine edge lo' hi' :=
  ⟨h.symbols.mono hl hh, h.branches.mono hl hh, h.proper⟩

theorem append (ha : a.InLine edge lo m) (hb : b.InLine edge m hi) (hl : lo ≤ m) (hm : m ≤ hi) :
    (a.append b).InLine edge lo hi := by
  refine ⟨ha.symbols.append hb.symbols hl hm, ?_, ?_⟩
  · simp only [Clause.append, List.map_append]
    exact ha.branches.append hb.branches hl hm
  · intro x hx
    rcases List.mem_append.mp hx with hx | hx
    · exact ha.proper x hx
    · exact hb.proper x hx

end Clause.InLine

/-- A reading whose clause stands in line from the keyword that introduces it, which has been taken. -/
def BuildsClause (edge : Nat → Prop) (lo hi : Nat) (t : Token) (read : Cursor → Clause × Cursor) : Prop :=
  ∀ c, c.Placed edge lo hi → Behind edge lo t c →
    Extends lo c (read c).2 ∧ (read c).1.InLine edge t.range.start ((read c).2.pos lo)

/-- A reading whose clause stands in line behind the cursor's place, and that may report at the token `t`. -/
def LaysClause (edge : Nat → Prop) (lo hi : Nat) (t : Token) (read : Cursor → Clause × Cursor) : Prop :=
  ∀ c, c.Placed edge lo hi → Behind edge lo t c →
    Extends lo c (read c).2 ∧ (read c).1.InLine edge (c.pos lo) ((read c).2.pos lo)

/-- The same of a reading that may find nothing to read. -/
def LaysClause? (edge : Nat → Prop) (lo hi : Nat) (read? : Cursor → Option (Clause × Cursor)) : Prop :=
  ∀ c a d, read? c = some (a, d) → c.Placed edge lo hi → Extends lo c d ∧ a.InLine edge (c.pos lo) (d.pos lo)

theorem LaysClause?.many {read? : Cursor → Option (Clause × Cursor)} (h : LaysClause? edge lo hi read?)
    (hc : c.Placed edge lo hi) :
    Extends lo c (c.many read?).2 ∧
      (Clause.join (c.many read?).1).InLine edge (c.pos lo) ((c.many read?).2.pos lo) := by
  refine many_rule ?_ ?_ c hc
    (P := fun c as e => c.Placed edge lo hi → Extends lo c e ∧ (Clause.join as).InLine edge (c.pos lo) (e.pos lo))
  · intro c _
    exact ⟨.refl c, .empty⟩
  · intro c a d as e hr ih hc
    obtain ⟨hcd, ha⟩ := h c a d hr hc
    have hd := hcd.placed hc
    obtain ⟨hde, has⟩ := ih hd
    rw [Clause.join_cons]
    exact ⟨hcd.trans hc hde, ha.append has (hcd.pos_le hc) (hde.pos_le hd)⟩

theorem required_lays (h : LayingExpression edge hi expr) (place : Place) (keyword : Token) :
    LaysBehind edge lo hi keyword (required expr place keyword) := by
  intro c hc ht
  unfold required
  split
  · exact h.lays lo place c hc
  · exact ⟨.faultAt ht rfl, .nil⟩

/-- A branch from its keyword up to the cursor. -/
theorem branch_inLine (ht : Behind edge lo t c) (kind : BranchKind) {ss : List Symbol} (isComplete : Bool)
    (hs : Symbol.InLine edge t.range.start (c.pos lo) ss) :
    Clause.InLine edge t.range.start (c.pos lo) ⟨ss, [⟨kind, t.range, c.since t.range.start⟩], isComplete⟩ := by
  have hp := start_le_pos ht
  refine ⟨hs, ?_, ?_⟩
  · rw [ht.since_eq]
    exact ⟨Nat.le_refl _, hp, Nat.le_refl _, trivial⟩
  · intro b hb
    cases List.mem_singleton.mp hb
    rw [ht.since_eq]
    exact ⟨rfl, ht.proper, ht.pos_eq ▸ ht.stop⟩

theorem branch_builds (h : LayingExpression edge hi expr) (place : Place) (kind : BranchKind) (keyword : Token) :
    BuildsClause edge lo hi keyword (branch expr place kind keyword) := by
  intro c hc ht
  obtain ⟨he, hs⟩ := required_lays h place keyword c hc ht
  exact ⟨he, branch_inLine (he.behind hc ht) kind true (hs.mono (start_le_pos ht) (Nat.le_refl _))⟩

theorem thenClause_lays (h : LayingExpression edge hi expr) (place : Place) (opener : Token) :
    LaysClause edge lo hi opener (thenClause expr place opener) := by
  intro c hc ht
  unfold thenClause
  split
  · rename_i t d he
    have hcd : Extends lo c d := .of_eat he
    obtain ⟨htd, hp⟩ := hc.of_eat he
    obtain ⟨hb, hcl⟩ := branch_builds h place .then_ t d (hcd.placed hc) htd
    exact ⟨hcd.trans hc hb, hcl.mono hp (Nat.le_refl _)⟩
  · have hf : Extends lo c (c.fault (.missingThen opener.kind) opener.range) := .faultAt ht rfl
    dsimp only
    split
    · obtain ⟨he, hs⟩ := h.lays lo place _ (hf.placed hc)
      exact ⟨hf.trans hc he, hs, trivial, by simp⟩
    · exact ⟨hf, .nil, trivial, by simp⟩

theorem condition_builds (h : LayingExpression edge hi expr) (place : Place) (kind : BranchKind) (keyword : Token) :
    BuildsClause edge lo hi keyword (condition expr place kind keyword) := by
  intro c hc ht
  obtain ⟨hb, hhead⟩ := branch_builds h place kind keyword c hc ht
  obtain ⟨he, htail⟩ := thenClause_lays h place keyword _ (hb.placed hc) (hb.behind hc ht)
  exact ⟨hb.trans hc he, hhead.append htail (start_le_pos (hb.behind hc ht)) (he.pos_le (hb.placed hc))⟩

theorem skippedClause_lays (src : Source) (h : LayingExpression edge hi expr) (place : Place) {l : Lexeme}
    {ls : List Lexeme} (hc : c.Placed edge lo hi) (hl : c.rest = l :: ls) :
    Extends lo c (skippedClause src expr place l.token c).2 ∧
      (skippedClause src expr place l.token c).1.InLine edge (c.pos lo)
        ((skippedClause src expr place l.token c).2.pos lo) := by
  obtain ⟨he, hs⟩ := resync_lays src h place hc hl
  exact ⟨he, hs, trivial, by simp [skippedClause]⟩

/-- A clause whose keyword is the lexeme in front. -/
theorem BuildsClause.ahead {l : Lexeme} {ls : List Lexeme} {read : Cursor → Clause × Cursor}
    (h : BuildsClause edge lo hi l.token read) (hc : c.Placed edge lo hi) (hl : c.rest = l :: ls) :
    Extends lo c (read c.advance).2 ∧ (read c.advance).1.InLine edge (c.pos lo) ((read c.advance).2.pos lo) := by
  have ha : Extends lo c c.advance := .advance c
  obtain ⟨ht, hp⟩ := hc.behind_head ha.onward hl (length_advance hl)
  obtain ⟨he, hcl⟩ := h c.advance (ha.placed hc) ht
  exact ⟨ha.trans hc he, hcl.mono hp (Nat.le_refl _)⟩

theorem nextClause?_lays (src : Source) (h : LayingExpression edge hi expr) (place : Place) (keyword : Token.Kind)
    (kind : BranchKind) : LaysClause? edge lo hi (nextClause? src expr place keyword kind) := by
  intro c a d hd hc
  unfold nextClause? at hd
  split at hd
  · cases hd
  · split at hd
    · cases hd
    · rename_i l ls hl
      dsimp only at hd
      split at hd
      · cases hd
      · split at hd
        · have hx := (condition_builds h place kind l.token).ahead hc hl
          rw [Option.some.inj hd] at hx
          exact hx
        · split at hd
          · have hx := (branch_builds h place .else_ l.token).ahead hc hl
            rw [Option.some.inj hd] at hx
            exact hx
          · have hx := skippedClause_lays src h place hc hl
            rw [Option.some.inj hd] at hx
            exact hx

/-- What a block ends with stands behind its body, and ends where the cursor stands. -/
def Closes (m stop : Nat) (terminator : Option Range) : Prop :=
  ∀ t ∈ terminator, m ≤ t.start ∧ t.start ≤ t.stop ∧ t.stop = stop

theorem closes_of_eat {k : Token.Kind} (hc : c.Placed edge lo hi) (h : c.eat? k = some (t, d)) :
    Closes (c.pos lo) (d.pos lo) (some t.range) := by
  obtain ⟨ht, hp⟩ := hc.of_eat h
  unfold eat? at h
  split at h
  · unfold take? at h
    obtain ⟨l, hl, he⟩ := Option.map_eq_some_iff.mp h
    obtain ⟨ls, hls⟩ := List.head?_eq_some_iff.mp hl
    cases he
    intro r hr
    cases hr
    refine ⟨hp, ht.proper, ?_⟩
    rw [ht.pos_eq]
    simp [advance, hls]
  · cases h

theorem terminator_closes {opener : Token} (hc : c.Placed edge lo hi) (ht : Behind edge lo opener c) :
    Extends lo c (terminator opener c).2 ∧
      Closes (c.pos lo) ((terminator opener c).2.pos lo) (terminator opener c).1 := by
  unfold terminator
  split
  · rename_i he
    exact ⟨.of_eat he, closes_of_eat hc he⟩
  · exact ⟨.faultAt ht rfl, by simp [Closes]⟩

theorem finishBlock_builds (src : Source) (kind : BlockKind) {opener : Token} {body : Clause}
    {stop : Option Range} {m : Nat} (hc : c.Placed edge lo hi) (ht : Behind edge lo opener c)
    (hm : opener.range.start ≤ m)
    (hmc : m ≤ c.pos lo) (hb : body.InLine edge opener.range.start m) (hstop : Closes m (c.pos lo) stop) :
    Extends lo c (finishBlock src kind opener body stop c).2 ∧
      Symbol.InLine edge opener.range.start ((finishBlock src kind opener body stop c).2.pos lo)
        [(finishBlock src kind opener body stop c).1] := by
  have hbody := hb.mono (Nat.le_refl _) hmc
  refine since_inLine src hc ht rfl ⟨hbody.branches, hb.proper, ?_⟩ hbody.symbols
  intro t hts
  obtain ⟨h₁, h₂, h₃⟩ := hstop t hts
  refine ⟨⟨Nat.le_trans hm h₁, h₂⟩, h₃, fun b hbm => Nat.le_trans ?_ h₁⟩
  exact (hb.branches.bounds b.range (List.mem_map_of_mem hbm)).2.2

theorem ifBody_builds (src : Source) (h : LayingExpression edge hi expr) (opener : Token) :
    BuildsClause edge lo hi opener (ifBody src expr opener) := by
  intro c hc ht
  obtain ⟨he, hhead⟩ := condition_builds h .ifBlock .if_ opener c hc ht
  obtain ⟨hm, hjoin⟩ := (nextClause?_lays src h .ifBlock .elseIf .elseIf).many (he.placed hc)
  exact ⟨he.trans hc hm, hhead.append hjoin (start_le_pos (he.behind hc ht)) (hm.pos_le (he.placed hc))⟩

theorem caseBody_builds (src : Source) (h : LayingExpression edge hi expr) (opener : Token) :
    BuildsClause edge lo hi opener (caseBody src expr opener) := by
  intro c hc ht
  obtain ⟨he, hhead⟩ := branch_builds h .caseBlock .case_ opener c hc ht
  obtain ⟨hm, hjoin⟩ := (nextClause?_lays src h .caseBlock .when_ .when_).many (he.placed hc)
  exact ⟨he.trans hc hm, hhead.append hjoin (start_le_pos (he.behind hc ht)) (hm.pos_le (he.placed hc))⟩

theorem ifBlock_builds (src : Source) (h : LayingExpression edge hi expr) (opener : Token) :
    Builds edge lo hi opener (ifBlock src expr opener) := by
  intro c hc ht
  obtain ⟨he, hbody⟩ := ifBody_builds src h opener c hc ht
  have hte := he.behind hc ht
  obtain ⟨hs, hstop⟩ := terminator_closes (he.placed hc) hte
  obtain ⟨hf, hsym⟩ := finishBlock_builds src .if_ ((he.trans hc hs).placed hc) (hs.behind (he.placed hc) hte)
    (start_le_pos hte)
    (hs.pos_le (he.placed hc)) hbody hstop
  exact ⟨(he.trans hc hs).trans hc hf, hsym⟩

theorem checkWhen_extends {opener : Token} (ht : Behind edge lo opener c) (hasWhen : Bool) :
    Extends lo c (checkWhen opener hasWhen c) ∧ (checkWhen opener hasWhen c).pos lo = c.pos lo := by
  unfold checkWhen
  split
  · exact ⟨.refl c, rfl⟩
  · exact ⟨.faultAt ht rfl, rfl⟩

theorem caseBlock_builds (src : Source) (h : LayingExpression edge hi expr) (opener : Token) :
    Builds edge lo hi opener (caseBlock src expr opener) := by
  intro c hc ht
  obtain ⟨he, hbody⟩ := caseBody_builds src h opener c hc ht
  have hte := he.behind hc ht
  obtain ⟨hw, hwp⟩ := checkWhen_extends hte (caseBody src expr opener c).1.hasWhen
  have hcw := he.trans hc hw
  obtain ⟨hs, hstop⟩ := terminator_closes (hcw.placed hc) (hcw.behind hc ht)
  have hcs := hcw.trans hc hs
  have hbody' : Clause.InLine edge opener.range.start _
      { (caseBody src expr opener c).1 with
        isComplete := (caseBody src expr opener c).1.isComplete && (caseBody src expr opener c).1.hasWhen } :=
    ⟨hbody.symbols, hbody.branches, hbody.proper⟩
  obtain ⟨hf, hsym⟩ := finishBlock_builds src .case_ (hcs.placed hc) (hcs.behind hc ht) (start_le_pos hte)
    (hwp ▸ hs.pos_le (hcw.placed hc)) hbody' (hwp ▸ hstop)
  exact ⟨hcs.trans hc hf, hsym⟩

theorem dimensions_builds (h : LayingExpression edge hi expr) (keyword : Token) :
    BuildsClause edge lo hi keyword (dimensions expr keyword) := by
  intro c hc ht
  unfold dimensions
  split
  · obtain ⟨he, hs⟩ := commaList_lays h .lodDimensions c hc
    exact ⟨he, branch_inLine (he.behind hc ht) .dimensions true (hs.mono (start_le_pos ht) (Nat.le_refl _))⟩
  · exact ⟨.refl c, .empty⟩

theorem aggregate_lays (h : LayingExpression edge hi expr) (keyword : Token) :
    LaysClause edge lo hi keyword (aggregate expr keyword) := by
  intro c hc ht
  unfold aggregate
  split
  · rename_i t d he
    have hcd : Extends lo c d := .of_eat he
    obtain ⟨htd, hp⟩ := hc.of_eat he
    obtain ⟨hb, hcl⟩ := branch_builds h .lodBody .aggregate t d (hcd.placed hc) htd
    exact ⟨hcd.trans hc hb, hcl.mono hp (Nat.le_refl _)⟩
  · exact ⟨.faultAt ht rfl, .nil, trivial, by simp⟩

theorem lodHead_builds (h : LayingExpression edge hi expr) (brace : Token) (hc : c.Placed edge lo hi)
    (ht : Behind edge lo brace c) :
    Extends lo c (lodHead expr brace c).2 ∧
      (lodHead expr brace c).1.2.InLine edge brace.range.start ((lodHead expr brace c).2.pos lo) := by
  unfold lodHead
  split
  · rename_i keyword d _ htake
    have hcd : Extends lo c d := .of_take htake
    obtain ⟨hk, hp⟩ := hc.of_take htake
    obtain ⟨he, hdims⟩ := dimensions_builds h keyword d (hcd.placed hc) hk
    have hke := he.behind (hcd.placed hc) hk
    have hde := hcd.trans hc he
    obtain ⟨ha, hagg⟩ := aggregate_lays h keyword _ (hde.placed hc) hke
    have hbody := hdims.append hagg (start_le_pos hke) (ha.pos_le (hde.placed hc))
    exact ⟨hde.trans hc ha, hbody.mono (Nat.le_trans (start_le_pos ht) hp) (Nat.le_refl _)⟩
  · exact branch_builds h .lodBody .aggregate brace c hc ht

theorem nextSkipped?_lays (src : Source) (h : LayingExpression edge hi expr) :
    LaysClause? edge lo hi (nextSkipped? src expr) := by
  intro c a d hd hc
  unfold nextSkipped? at hd
  split at hd
  · cases hd
  · split at hd
    · cases hd
    · rename_i l ls hl
      split at hd
      · cases hd
      · have hx := skippedClause_lays src h .lodBody hc hl
        rw [Option.some.inj hd] at hx
        exact hx

/-- What was read of an LOD block stands in line up to its closing brace, if there is one. -/
theorem lodBody_builds (src : Source) (h : LayingExpression edge hi expr) (brace : Token) (hc : c.Placed edge lo hi)
    (ht : Behind edge lo brace c) :
    Extends lo c (lodBody src expr brace c).2 ∧ ∃ m, brace.range.start ≤ m ∧
      m ≤ (lodBody src expr brace c).2.pos lo ∧
      (lodBody src expr brace c).1.2.1.InLine edge brace.range.start m ∧
      Closes m ((lodBody src expr brace c).2.pos lo) (lodBody src expr brace c).1.2.2 := by
  obtain ⟨hh, hhead⟩ := lodHead_builds h brace hc ht
  obtain ⟨hm, hjoin⟩ := (nextSkipped?_lays src h).many (hh.placed hc)
  have hbody := hhead.append hjoin (start_le_pos (hh.behind hc ht)) (hm.pos_le (hh.placed hc))
  have hcm := hh.trans hc hm
  have hstart := start_le_pos (hcm.behind hc ht)
  unfold lodBody
  dsimp only
  split
  · rename_i t d he
    have hd : Extends lo _ d := .of_eat he
    exact ⟨hcm.trans hc hd, _, hstart, hd.pos_le (hcm.placed hc), hbody, closes_of_eat (hcm.placed hc) he⟩
  · exact ⟨hcm, _, hstart, Nat.le_refl _, hbody, by simp [Closes]⟩

theorem checkBrace_extends {brace : Token} (ht : Behind edge lo brace c) (stop : Option Range) :
    Extends lo c (checkBrace brace stop c) ∧ (checkBrace brace stop c).pos lo = c.pos lo := by
  unfold checkBrace
  split
  · exact ⟨.refl c, rfl⟩
  · exact ⟨.faultAt ht rfl, rfl⟩

theorem lodBlock_builds (src : Source) (h : LayingExpression edge hi expr) (brace : Token) :
    Builds edge lo hi brace (lodBlock src expr brace) := by
  intro c hc ht
  obtain ⟨hb, m, hstart, hstop, hbody, hcloses⟩ := lodBody_builds src h brace
    (c := { c with scopes := .lod :: c.scopes, closers := .rightBrace :: c.closers })
    (hc.of_same rfl rfl) (ht.of_same rfl)
  have he : Extends lo c (c.inScope .lod fun c => c.inside .rightBrace (lodBody src expr brace)).2 :=
    Extends.inScope hb.inside
  obtain ⟨hw, hwp⟩ := checkBrace_extends (he.behind hc ht)
    (c.inScope .lod fun c => c.inside .rightBrace (lodBody src expr brace)).1.2.2
  have hcw := he.trans hc hw
  obtain ⟨hf, hsym⟩ := finishBlock_builds src
    (.lod (c.inScope .lod fun c => c.inside .rightBrace (lodBody src expr brace)).1.1)
    (hcw.placed hc) (hcw.behind hc ht) hstart (hwp.symm ▸ hstop) hbody (hwp.symm ▸ hcloses)
  exact ⟨hcw.trans hc hf, hsym⟩

theorem sign?_lays (src : Source) {signs : Token × List Symbol} (h : sign? src c = some (signs, d))
    (hc : c.Placed edge lo hi) :
    Extends lo c d ∧ Behind edge lo signs.1 d ∧ Symbol.InLine edge (c.pos lo) (d.pos lo) signs.2 := by
  unfold sign? at h
  split at h
  · obtain ⟨⟨t, e⟩, ht, he⟩ := Option.map_eq_some_iff.mp h
    have hce : Extends lo c e := .of_take ht
    obtain ⟨hb, hp⟩ := hc.of_take ht
    obtain ⟨hx, hs⟩ := operatorSymbol_lays src hb
    cases he
    exact ⟨hce.trans hc hx, hx.behind (hce.placed hc) hb, hs.mono hp (Nat.le_refl _)⟩
  · cases h

/-- Signs with the cursor behind them: their words stand in line, and each sign has been taken. -/
structure SignsLaid (edge : Nat → Prop) (lo : Nat) (c : Cursor) (signs : List (Token × List Symbol))
    (d : Cursor) : Prop where
  leads : Extends lo c d
  words : Symbol.InLine edge (c.pos lo) (d.pos lo) (signs.flatMap (·.2))
  behind : ∀ s ∈ signs, Behind edge lo s.1 d

theorem SignsLaid.cons {s : Token × List Symbol} {signs : List (Token × List Symbol)} {e : Cursor}
    (hc : c.Placed edge lo hi)
    (hs : Extends lo c d ∧ Behind edge lo s.1 d ∧ Symbol.InLine edge (c.pos lo) (d.pos lo) s.2)
    (h : SignsLaid edge lo d signs e) : SignsLaid edge lo c (s :: signs) e := by
  obtain ⟨hcd, hb, hw⟩ := hs
  have hd := hcd.placed hc
  refine ⟨hcd.trans hc h.leads, ?_, ?_⟩
  · rw [List.flatMap_cons]
    exact hw.append h.words (hcd.pos_le hc) (h.leads.pos_le hd)
  · intro x hx
    rcases List.mem_cons.mp hx with rfl | hx
    · exact h.leads.behind hd hb
    · exact h.behind x hx

theorem signs_laid (src : Source) (hc : c.Placed edge lo hi) : SignsLaid edge lo c (signs src c).1 (signs src c).2 := by
  have hmany : ∀ c : Cursor, c.Placed edge lo hi →
      SignsLaid edge lo c (c.many (nextSign? src)).1 (c.many (nextSign? src)).2 := by
    refine many_rule (P := fun c signs e => c.Placed edge lo hi → SignsLaid edge lo c signs e) ?_ ?_
    · intro c _
      exact ⟨.refl c, .nil, by simp⟩
    · intro c s d signs e hs ih hc
      unfold nextSign? at hs
      split at hs
      · cases hs
      · have hsign := sign?_lays src hs hc
        exact .cons hc hsign (ih (hsign.1.placed hc))
  unfold signs
  split
  · exact ⟨.refl c, .nil, by simp⟩
  · rename_i first d hs
    have hsign := sign?_lays src hs hc
    exact .cons hc hsign (hmany d (hsign.1.placed hc))

theorem word_builds (src : Source) (h : LayingExpression edge hi expr) (t : Token) (hc : c.Placed edge lo hi)
    (ht : Behind edge lo t c) :
    Extends lo c (word src expr t c).2 ∧
      Symbol.InLine edge t.range.start ((word src expr t c).2.pos lo) [(word src expr t c).1] := by
  unfold word
  split
  · rename_i paren d he
    have hcd : Extends lo c d := .of_eat he
    obtain ⟨hp, -⟩ := hc.of_eat he
    obtain ⟨hx, hs⟩ := call_builds src h (hcd.placed hc) (hcd.behind hc ht) hp
    exact ⟨hcd.trans hc hx, hs⟩
  · exact bareIdentifier_builds src t c hc ht

theorem primary_lays (src : Source) (h : LayingExpression edge hi expr) (t : Token) (hc : c.Placed edge lo hi)
    (ht : Behind edge lo t c) :
    Extends lo c (primary src expr t c).2 ∧
      Symbol.InLine edge t.range.start ((primary src expr t c).2.pos lo) (primary src expr t c).1 := by
  unfold primary
  dsimp only
  split
  · exact fieldReference_builds src t c hc ht
  · exact word_builds src h t hc ht
  · obtain ⟨he, hs⟩ := grouping_lays h false t c hc ht
    exact ⟨he, hs.mono (start_le_pos ht) (Nat.le_refl _)⟩
  · exact lodBlock_builds src h t c hc ht
  · exact ifBlock_builds src h t c hc ht
  · exact caseBlock_builds src h t c hc ht
  · exact literal_builds src t c hc ht

theorem signed_lays (src : Source) (h : LayingExpression edge hi expr) {b : Cursor}
    {signs : List (Token × List Symbol)} (hb : b.Placed edge lo hi) (hs : SignsLaid edge lo b signs c) :
    Extends lo b (signed src expr signs c).2 ∧
      Symbol.InLine edge (b.pos lo) ((signed src expr signs c).2.pos lo) (signed src expr signs c).1 := by
  have hc := hs.leads.placed hb
  unfold signed
  dsimp only
  split
  · rename_i t d ht
    split at ht
    · have hcd : Extends lo c d := .of_take ht
      obtain ⟨htd, hp⟩ := hc.of_take ht
      obtain ⟨hx, hss⟩ := primary_lays src h t (hcd.placed hc) htd
      have hcx := hcd.trans hc hx
      exact ⟨hs.leads.trans hb hcx,
        hs.words.append (hss.mono hp (Nat.le_refl _)) (hs.leads.pos_le hb) (hcx.pos_le hc)⟩
    · cases ht
  · split
    · rename_i op hlast
      obtain ⟨s, hmem, rfl⟩ := Option.map_eq_some_iff.mp hlast
      have hop := hs.behind s (List.mem_of_getLast? hmem)
      exact ⟨hs.leads.trans hb (.faultAt hop rfl), hs.words⟩
    · exact ⟨hs.leads, hs.words⟩

theorem operand_lays (src : Source) (h : LayingExpression edge hi expr) : Lays edge lo hi (operand src expr) :=
  fun _ hc => signed_lays src h hc (signs_laid src hc)

theorem rightSide_lays (src : Source) (h : LayingExpression edge hi expr) (place : Place) (op : Token) :
    LaysBehind edge lo hi op (rightSide src expr place op) := by
  intro c hc hop
  unfold rightSide
  split
  · rename_i paren d hparen
    split at hparen
    · have hd : Extends lo c d := .of_eat hparen
      obtain ⟨hp, -⟩ := hc.of_eat hparen
      obtain ⟨hg, hss⟩ := grouping_lays h true paren d (hd.placed hc) hp
      exact ⟨hd.trans hc hg, hss.mono (hd.pos_le hc) (Nat.le_refl _)⟩
    · cases hparen
  · split
    · exact operand_lays src h c hc
    · exact ⟨.faultAt hop rfl, .nil⟩

theorem link?_lays (src : Source) (h : LayingExpression edge hi expr) (place : Place) :
    Lays? edge lo hi (link? src expr place) := by
  intro c ss d hd hc
  unfold link? at hd
  obtain ⟨⟨op, e⟩, ho, he⟩ := Option.map_eq_some_iff.mp hd
  have hce : Extends lo c e := .of_operator ho
  obtain ⟨hop, hp⟩ := hc.of_operator ho
  obtain ⟨hw, hword⟩ := operatorSymbol_lays src hop
  have hcw := hce.trans hc hw
  obtain ⟨hr, hss⟩ := rightSide_lays src h place op _ (hcw.placed hc) (hw.behind (hce.placed hc) hop)
  cases he
  exact ⟨hcw.trans hc hr, (hword.mono hp (Nat.le_refl _)).append hss (hcw.pos_le hc) (hr.pos_le (hcw.placed hc))⟩

theorem chain_lays (src : Source) (h : LayingExpression edge hi expr) (place : Place) :
    Lays edge lo hi (chain src expr place) := by
  intro c hc
  obtain ⟨ho, hs⟩ := operand_lays src h c hc
  obtain ⟨hm, hms⟩ := (link?_lays src h place).many _ (ho.placed hc)
  exact ⟨ho.trans hc hm, hs.append hms (ho.pos_le hc) (hm.pos_le (ho.placed hc))⟩

theorem expression_laying (src : Source) (edge : Nat → Prop) (levels hi : Nat) :
    LayingExpression edge hi (expression src levels) := by
  induction levels with
  | zero => exact ⟨expression_steady src 0, fun lo place => tooDeep_lays src place⟩
  | succ levels ih => exact ⟨expression_steady src (levels + 1), fun lo place => chain_lays src ih place⟩

theorem statement_lays (src : Source) : Lays edge lo hi (statement src) := by
  intro c hc
  unfold statement
  split
  · exact (expression_laying src edge src.options.levels hi).lays lo .topLevel c hc
  · exact ⟨strayTokens_extends hc, .nil⟩

end Statement

end Calculation
