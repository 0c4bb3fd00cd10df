import Calculation.Proofs.Reading.Progress
import Calculation.Proofs.Reading.Rows

namespace Calculation

/-- Kinds of token that a construct starts with. -/
def Token.Kind.startsConstruct : Token.Kind → Bool
  | identifier | number | string | date | field | true_ | false_ | null | if_ | case_ | leftBrace => true
  | _ => false

/-- Codes of faults that come with a skipped stretch. -/
def Code.isSkip : Code → Bool
  | unexpectedInBlock | tooDeep => true
  | _ => false

/-- A THEN follows each branch of these kinds at once. -/
def Branch.Followed (kinds : List BranchKind) (branches : List Branch) : Prop :=
  ∀ i b, branches[i]? = some b → b.kind ∈ kinds → ∃ t, branches[i + 1]? = some t ∧ t.kind = .then_

/-- The branches that a block needs are there. -/
def BlockKind.Filled (branches : List Branch) : BlockKind → Prop
  | if_ => Branch.Followed [.if_, .elseIf] branches
  | case_ => (∃ b ∈ branches, b.kind = .when_) ∧ Branch.Followed [.when_] branches
  | lod _ => ∃ b ∈ branches, b.kind = .aggregate

namespace Reading

/-- The one fault at `r` that a symbol without children is incomplete for. -/
inductive Told (r : Range) : Bool → List Diagnostic → Prop
  | complete : Told r true []
  | incomplete {d : Diagnostic} (hr : d.range = r) (hs : d.isStructural = true) (hd : d.code.isSkip = false) :
    Told r false [d]

/-- What makes a call or a block complete, seen from the faults inside it, and how the arguments of a call stand in the
lexemes behind its name, which is at `name`. -/
inductive Settled (name : Range) (ls : List Lexeme) (s : Symbol) (fs : List Diagnostic) : Prop
  | call {arguments : List Argument} {isNested : Bool} (hk : s.kind = .call arguments isNested)
    (hc : s.isComplete = !fs.any Diagnostic.isStructural) (ha : Called name ls s.children arguments fs)
  | block {block : BlockKind} {branches : List Branch} {terminator : Option Range}
    (hk : s.kind = .block block branches terminator)
    (hc : s.isComplete = true ↔ terminator.isSome = true ∧ block.Filled branches)
    (hf : s.isComplete = false → fs ≠ [])

/-- A symbol without children over a range. -/
structure Plain (r : Range) (s : Symbol) : Prop where
  range : s.range = r
  children : s.children = []

/-- A stretch that was skipped, from a lexeme on. -/
structure Skips (l : Lexeme) (ls : List Lexeme) (s : Symbol) : Prop where
  kind : s.kind = .skipped
  range : s.range = l.span ls
  isComplete : s.isComplete = false

/-- The lexemes are read as the symbols, with the faults in the order in which they are met. Faults may also point
at one of the ranges `behind`, where lexemes stand that were taken before. -/
inductive Derives : List Range → List Lexeme → List Symbol → List Diagnostic → Prop
  | nothing (behind : List Range) : Derives behind [] [] []
  | append {behind : List Range} {as bs : List Lexeme} {ss tt : List Symbol} {fs gs : List Diagnostic}
    (ha : Derives behind as ss fs) (hb : Derives behind bs tt gs) :
    Derives behind (as ++ bs) (ss ++ tt) (fs ++ gs)
  /-- A lexeme that leaves no symbol. What follows may report at it. -/
  | token {behind : List Range} {l : Lexeme} {ls : List Lexeme} {ss : List Symbol} {fs : List Diagnostic}
    (hl : l.token.kind.startsConstruct = false) (h : Derives (l.token.range :: behind) ls ss fs) :
    Derives behind (l :: ls) ss fs
  /-- An operator that is a symbol. -/
  | operator {behind : List Range} {l : Lexeme} {ls : List Lexeme} {s : Symbol} {ss : List Symbol}
    {fs : List Diagnostic} (hl : l.token.kind.isLogicalOperator = true) (hk : s.kind = .operator)
    (hs : Plain l.token.range s) (hc : s.isComplete = true) (h : Derives (l.token.range :: behind) ls ss fs) :
    Derives behind (l :: ls) (s :: ss) fs
  | report {behind : List Range} {d : Diagnostic} (hr : d.range ∈ behind) (hd : d.code.isSkip = false) :
    Derives behind [] [] [d]
  /-- Lexemes that start no statement. -/
  | stray {behind : List Range} {l : Lexeme} {ls : List Lexeme} {d : Diagnostic}
    (hl : ∀ x ∈ l :: ls, x.token.kind.startsConstruct = false) (hr : d.range = l.span ls)
    (hd : d.code.isSkip = false) : Derives behind (l :: ls) [] [d]
  | literal {behind : List Range} {l : Lexeme} {s : Symbol} {literal : LiteralKind} {fs : List Diagnostic}
    (hl : l.token.kind.startsConstruct = true) (hk : s.kind = .literal literal) (hs : Plain l.token.range s)
    (hf : Told l.token.range s.isComplete fs) : Derives behind [l] [s] fs
  | field {behind : List Range} {l : Lexeme} {s : Symbol} {fs : List Diagnostic}
    (hl : l.token.kind.startsConstruct = true) (hk : s.kind = .field none) (hs : Plain l.token.range s)
    (hf : Told l.token.range s.isComplete fs) : Derives behind [l] [s] fs
  | qualifiedField {behind : List Range} {l dot l' : Lexeme} {s : Symbol} {qualifier : String}
    {fs : List Diagnostic} (hl : l.token.kind = .field) (hdot : dot.token.kind = .dot)
    (hl' : l'.token.kind = .field) (hk : s.kind = .field (some qualifier))
    (hs : Plain (l.token.range.cover l'.token.range) s) (hf : Told l'.token.range s.isComplete fs) :
    Derives behind [l, dot, l'] [s] fs
  /-- A call or a block. Only what is inside decides about it. -/
  | construct {behind : List Range} {l : Lexeme} {ls : List Lexeme} {s : Symbol} {fs : List Diagnostic}
    (hl : l.token.kind.startsConstruct = true) (hr : s.range = l.span ls) (hs : Settled l.token.range ls s fs)
    (h : Derives [l.token.range] ls s.children fs) : Derives behind (l :: ls) [s] fs
  /-- A run below the last level of nesting. -/
  | tooDeep {behind : List Range} {l : Lexeme} {ls : List Lexeme} {s : Symbol} {d : Diagnostic}
    (hs : Skips l ls s) (hc : s.children = []) (hd : d.code = .tooDeep) (hr : d.range = l.span ls) :
    Derives behind (l :: ls) [s] [d]
  /-- A stretch inside a block, reported at its first lexeme. -/
  | skipped {behind : List Range} {l : Lexeme} {ls : List Lexeme} {s : Symbol} {d : Diagnostic}
    {fs : List Diagnostic} (hs : Skips l ls s) (hd : d.code ≠ .tooDeep)
    (hb : l.token.kind.startsConstruct = true → d.code = .unexpectedInBlock) (hr : d.range = l.token.range)
    (h : Derives behind (l :: ls) s.children fs) : Derives behind (l :: ls) [s] (d :: fs)

/-- Nothing has to be reported at a range because it is behind. -/
theorem Derives.mono {behind behind' : List Range} {ls : List Lexeme} {ss : List Symbol} {fs : List Diagnostic}
    (h : Derives behind ls ss fs) (hsub : behind ⊆ behind') : Derives behind' ls ss fs := by
  induction h generalizing behind' with
  | nothing => exact .nothing _
  | append _ _ iha ihb => exact .append (iha hsub) (ihb hsub)
  | token hl _ ih => exact .token hl (ih (List.cons_subset_cons _ hsub))
  | operator hl hk hs hc _ ih => exact .operator hl hk hs hc (ih (List.cons_subset_cons _ hsub))
  | report hr hd => exact .report (hsub hr) hd
  | stray hl hr hd => exact .stray hl hr hd
  | literal hl hk hs hf => exact .literal hl hk hs hf
  | field hl hk hs hf => exact .field hl hk hs hf
  | qualifiedField hl hdot hl' hk hs hf => exact .qualifiedField hl hdot hl' hk hs hf
  | construct hl hr hs h => exact .construct hl hr hs h
  | tooDeep hs hc hd hr => exact .tooDeep hs hc hd hr
  | skipped hs hd hb hr _ ih => exact .skipped hs hd hb hr (ih hsub)

end Reading

namespace Cursor
open Reading

/-- `d` is where `c` is, and the faults have been reported in between. -/
structure Reports (c : Cursor) (fs : List Diagnostic) (d : Cursor) : Prop where
  rest : d.rest = c.rest
  lastEnd : d.lastEnd = c.lastEnd
  met : ∃ met, d.trail = met ++ c.trail ∧ Event.faults met.reverse = fs

/-- From `c` the symbols are read with the faults, and the reading leads to `d`. -/
structure Yields (behind : List Range) (c : Cursor) (ss : List Symbol) (fs : List Diagnostic) (d : Cursor) : Prop where
  taken : ∃ taken, c.rest = taken ++ d.rest ∧ d.lastEnd = endOf c.lastEnd taken ∧ Derives behind taken ss fs
  met : ∃ met, d.trail = met ++ c.trail ∧ Event.faults met.reverse = fs

variable {behind : List Range} {b c d e : Cursor} {t : Token} {l : Lexeme} {ls : List Lexeme} {s : Symbol}
  {ss tt : List Symbol} {fs gs : List Diagnostic} {cause : Cause} {r : Range}

theorem faults_append (as bs : List Event) : Event.faults (as ++ bs) = Event.faults as ++ Event.faults bs :=
  List.filterMap_append

namespace Reports

theorem refl (c : Cursor) : Reports c [] c :=
  ⟨rfl, rfl, [], rfl, rfl⟩

theorem trans (hcd : Reports c fs d) (hde : Reports d gs e) : Reports c (fs ++ gs) e := by
  obtain ⟨m, hm, hmf⟩ := hcd.met
  obtain ⟨n, hn, hnf⟩ := hde.met
  refine ⟨hde.rest.trans hcd.rest, hde.lastEnd.trans hcd.lastEnd, n ++ m, ?_, ?_⟩
  · rw [hn, hm, List.append_assoc]
  · rw [List.reverse_append, faults_append, hmf, hnf]

theorem fault (c : Cursor) (cause : Cause) (r : Range) : Reports c [cause.spanning r] (c.fault cause r) :=
  ⟨rfl, rfl, [.fault (cause.spanning r)], rfl, rfl⟩

/-- Finishing a symbol reports nothing. -/
theorem finish (src : Source) (s : Symbol) (c : Cursor) : Reports c [] (c.finish src s).2 := by
  unfold Cursor.finish noteValid
  dsimp only
  split
  · split
    · exact ⟨rfl, rfl, [.valid], rfl, rfl⟩
    · exact refl c
  · exact refl c

theorem leaf (src : Source) (name : String) (kind : Symbol.Kind) (r : Range) (isComplete : Bool) (c : Cursor) :
    Reports c [] (c.leaf src name kind r isComplete).2 :=
  finish src _ c

end Reports

namespace Yields

theorem refl (behind : List Range) (c : Cursor) : Yields behind c [] [] c :=
  ⟨⟨[], rfl, rfl, .nothing behind⟩, [], rfl, rfl⟩

theorem trans (hcd : Yields behind c ss fs d) (hde : Yields behind d tt gs e) :
    Yields behind c (ss ++ tt) (fs ++ gs) e := by
  obtain ⟨as, har, hae, ha⟩ := hcd.taken
  obtain ⟨bs, hbr, hbe, hb⟩ := hde.taken
  obtain ⟨m, hm, hmf⟩ := hcd.met
  obtain ⟨n, hn, hnf⟩ := hde.met
  refine ⟨⟨as ++ bs, ?_, ?_, ha.append hb⟩, n ++ m, ?_, ?_⟩
  · rw [har, hbr, List.append_assoc]
  · rw [hbe, hae, endOf_append]
  · rw [hn, hm, List.append_assoc]
  · rw [List.reverse_append, faults_append, hmf, hnf]

/-- What surrounds a reading has no part in it. -/
theorem of_same (h : Yields behind c ss fs d) (hr : b.rest = c.rest) (hl : b.lastEnd = c.lastEnd)
    (ht : b.trail = c.trail) (her : e.rest = d.rest) (hel : e.lastEnd = d.lastEnd) (het : e.trail = d.trail) :
    Yields behind b ss fs e := by
  obtain ⟨h₁, h₂⟩ := h
  rw [← hr, ← hl, ← her, ← hel] at h₁
  rw [← ht, ← het] at h₂
  exact ⟨h₁, h₂⟩

theorem inside {closer : Token.Kind} {α : Type} {read : Cursor → α × Cursor}
    (h : Yields behind { c with closers := closer :: c.closers } ss fs
      (read { c with closers := closer :: c.closers }).2) :
    Yields behind c ss fs (c.inside closer read).2 :=
  h.of_same rfl rfl rfl rfl rfl rfl

theorem inScope {scope : Scope} {α : Type} {read : Cursor → α × Cursor}
    (h : Yields behind { c with scopes := scope :: c.scopes } ss fs (read { c with scopes := scope :: c.scopes }).2) :
    Yields behind c ss fs (c.inScope scope read).2 :=
  h.of_same rfl rfl rfl rfl rfl rfl

theorem scanning {α : Type} {read : Cursor → α × Cursor}
    (h : Yields behind { c with scans := c.scans + 1 } ss fs (read { c with scans := c.scans + 1 }).2) :
    Yields behind c ss fs (c.scanning read).2 :=
  h.of_same rfl rfl rfl rfl rfl rfl

/-- What is recorded of a reading tells whether it met a structural fault. -/
theorem recording {α : Type} {read : Cursor → α × Cursor}
    (h : Yields behind { c with trail := [] } ss fs (read { c with trail := [] }).2) :
    Yields behind c ss fs (c.recording read).2 ∧
      (c.recording read).1.2.any Event.isStructural = fs.any Diagnostic.isStructural := by
  obtain ⟨⟨taken, hr, hl, ht⟩, met, hm, hf⟩ := h
  rw [List.append_nil] at hm
  have htrail : (c.recording read).1.2 = met := hm
  refine ⟨⟨⟨taken, hr, hl, ht⟩, met, ?_, hf⟩, ?_⟩
  · rw [← htrail]
    rfl
  · rw [htrail, ← hf, ← List.any_reverse]
    induction met.reverse with
    | nil => rfl
    | cons e es ih => cases e <;> simp [Event.faults, Event.fault?, Event.isStructural, ih]

theorem report (hr : r ∈ behind) (hd : cause.code.isSkip = false) :
    Yields behind c [] [cause.spanning r] (c.fault cause r) :=
  ⟨⟨[], rfl, rfl, .report hr hd⟩, (Reports.fault c cause r).met⟩

/-- What reports nothing changes nothing in a reading, be it behind it or in front. -/
theorem unreported (h : Yields behind c ss fs d) (hde : Reports d [] e) : Yields behind c ss fs e := by
  have hone : Yields behind d [] [] e := ⟨⟨[], hde.rest.symm, hde.lastEnd, .nothing behind⟩, hde.met⟩
  have hboth := h.trans hone
  rwa [List.append_nil, List.append_nil] at hboth

theorem unreportedAhead (hbc : Reports b [] c) (h : Yields behind c ss fs d) : Yields behind b ss fs d :=
  ((refl behind b).unreported hbc).trans h

theorem finish (h : Yields behind c ss fs d) (src : Source) (s : Symbol) :
    Yields behind c ss fs (d.finish src s).2 :=
  h.unreported (.finish src s d)

end Yields

theorem take?_eq_some (h : c.take? = some (t, d)) : ∃ l ls, c.rest = l :: ls ∧ l.token = t ∧ d = c.advance := by
  unfold take? at h
  obtain ⟨l, hl, he⟩ := Option.map_eq_some_iff.mp h
  obtain ⟨ls, hls⟩ := List.head?_eq_some_iff.mp hl
  cases he
  exact ⟨l, ls, hls, rfl, rfl⟩

theorem eat?_eq_some {kind : Token.Kind} (h : c.eat? kind = some (t, d)) :
    c.take? = some (t, d) ∧ t.kind = kind := by
  unfold eat? at h
  split at h
  · rename_i hk
    refine ⟨h, ?_⟩
    obtain ⟨l, ls, hls, rfl, -⟩ := take?_eq_some h
    simpa [isAt, kind?, hls] using hk
  · cases h

theorem operator?_eq_some (h : c.operator? = some (t, d)) : c.take? = some (t, d) ∧ t.kind.isBinaryOperator = true := by
  unfold operator? at h
  split at h
  · rename_i hk
    refine ⟨h, ?_⟩
    obtain ⟨l, ls, hls, rfl, -⟩ := take?_eq_some h
    simpa [kind?, hls] using (Bool.and_eq_true_iff.mp hk).1
  · cases h

theorem take?_of_rest (h : c.rest = l :: ls) : c.take? = some (l.token, c.advance) := by
  simp [take?, h]

namespace Yields

/-- What is read behind a lexeme extends to a derivation that starts with it. -/
theorem taking {inner : List Range} (ht : c.take? = some (t, d)) (h : Yields inner d ss fs e)
    (hd : ∀ l ls, l.token = t → d.rest = ls ++ e.rest → e.since t.range.start = l.span ls → Derives inner ls ss fs →
      Derives behind (l :: ls) tt fs) : Yields behind c tt fs e := by
  obtain ⟨l, ls, hls, rfl, rfl⟩ := take?_eq_some ht
  obtain ⟨⟨taken, hr, hend, hder⟩, met, hm, hf⟩ := h
  have hrest : c.advance.rest = ls := by simp [advance, hls]
  have hlast : c.advance.lastEnd = l.token.range.stop := by simp [advance, hls]
  have htrail : c.advance.trail = c.trail := by simp [advance, hls]
  have hspan : e.since l.token.range.start = l.span taken := by
    rw [since, hend, hlast]
    rfl
  refine ⟨⟨l :: taken, ?_, ?_, hd l taken rfl hr hspan hder⟩, met, htrail ▸ hm, hf⟩
  · rw [hls, ← hrest, hr, List.cons_append]
  · rw [hend, hlast, endOf_cons]

/-- A lexeme alone, and what is reported about it. -/
theorem alone (ht : c.take? = some (t, d)) (h : Reports d fs e)
    (hd : ∀ l, l.token = t → Derives behind [l] ss fs) : Yields behind c ss fs e := by
  obtain ⟨l, ls, hls, rfl, rfl⟩ := take?_eq_some ht
  obtain ⟨hr, hend, met, hm, hf⟩ := h
  refine ⟨⟨[l], ?_, ?_, hd l rfl⟩, met, ?_, hf⟩
  · rw [hr, hls]
    simp [advance, hls]
  · rw [hend]
    simp [advance, hls]
  · rw [hm]
    simp [advance, hls]

/-- A lexeme that leaves no symbol, and what is read behind it. -/
theorem token (ht : c.take? = some (t, d)) (hk : t.kind.startsConstruct = false)
    (h : Yields (t.range :: behind) d ss fs e) : Yields behind c ss fs e :=
  h.taking ht fun _ _ hl _ _ hder => .token (hl ▸ hk) (hl ▸ hder)

/-- A call or a block that starts with a lexeme, once it is finished. -/
theorem construct (src : Source) (ht : c.take? = some (t, d)) (hk : t.kind.startsConstruct = true)
    (h : Yields [t.range] d s.children fs e) (hr : s.range = e.since t.range.start)
    (hs : ∀ ls, d.rest = ls ++ e.rest → Settled t.range ls s fs) :
    Yields behind c [(e.finish src s).1] fs (e.finish src s).2 := by
  have hs' : ∀ ls, d.rest = ls ++ e.rest → Settled t.range ls (e.finish src s).1 fs := by
    intro ls hls
    cases hs ls hls with
    | call hk hc ha => exact .call hk hc ha
    | block hk hc hf => exact .block hk hc hf
  refine Yields.finish ?_ src s
  exact h.taking ht fun _ _ hl hrest hspan hder =>
    .construct (hl ▸ hk) (hr.trans hspan) (hl ▸ hs' _ hrest) (hl ▸ hder)

/-- A skipped stretch, once its first lexeme has been reported. -/
theorem skipped (src : Source) {cause : Cause} (hl : c.rest = l :: ls) (hd : cause.code ≠ .tooDeep)
    (hb : l.token.kind.startsConstruct = true → cause.code = .unexpectedInBlock)
    (h : Yields behind (c.fault cause l.token.range) s.children fs e) (hlt : e.rest.length < c.rest.length)
    (hk : s.kind = .skipped) (hr : s.range = e.since l.token.range.start) (hc : s.isComplete = false) :
    Yields behind c [(e.finish src s).1] (cause.spanning l.token.range :: fs) (e.finish src s).2 := by
  refine Yields.finish ?_ src s
  obtain ⟨⟨taken, htaken, hend, hder⟩, met, hm, hf⟩ := h
  have hrest : c.rest = taken ++ e.rest := htaken
  have hlast : e.lastEnd = endOf c.lastEnd taken := hend
  cases taken with
  | nil =>
    rw [hrest] at hlt
    exact absurd hlt (Nat.lt_irrefl _)
  | cons x taken =>
    obtain ⟨rfl, -⟩ : l = x ∧ _ := List.cons.inj (hl.symm.trans hrest)
    have hspan : e.since l.token.range.start = l.span taken := by
      rw [since, hlast]
      rfl
    refine ⟨⟨_, hrest, hlast, .skipped ⟨hk, hr.trans hspan, hc⟩ hd hb rfl hder⟩,
      met ++ [.fault (cause.spanning l.token.range)], ?_, ?_⟩
    · rw [hm, List.append_assoc]
      rfl
    · rw [List.reverse_append, faults_append, hf]
      rfl

/-- A run of lexemes that is skipped with one fault over all of it. -/
theorem run {n : Nat} (hl : c.rest = l :: ls)
    (h : (c.skip (1 + n)).since l.token.range.start = l.span (ls.take n) →
      Derives behind (l :: ls.take n) ss [cause.spanning ((c.skip (1 + n)).since l.token.range.start)]) :
    Yields behind c ss [cause.spanning ((c.skip (1 + n)).since l.token.range.start)]
      ((c.skip (1 + n)).fault cause ((c.skip (1 + n)).since l.token.range.start)) := by
  have hskip : c.skip (1 + n) =
      { c with rest := ls.drop n, lastEnd := endOf c.lastEnd (l :: ls.take n) } := by
    rw [skip_eq, hl, Nat.add_comm, List.drop_succ_cons, List.take_succ_cons]
  refine ⟨⟨l :: ls.take n, ?_, ?_, h ?_⟩, [.fault _], ?_, rfl⟩
  · rw [hl, hskip, List.cons_append]
    exact congrArg _ (List.take_append_drop n ls).symm
  · rw [hskip]
    rfl
  · rw [hskip]
    rfl
  · rw [hskip]
    rfl

end Yields

/-- A reading that can be derived from everywhere. -/
def Yielding (behind : List Range) (read : Cursor → List Symbol × Cursor) : Prop :=
  ∀ c, ∃ fs, Yields behind c (read c).1 fs (read c).2

/-- The same of a reading that may find nothing to read. -/
def Yielding? (behind : List Range) (read? : Cursor → Option (List Symbol × Cursor)) : Prop :=
  ∀ c ss d, read? c = some (ss, d) → ∃ fs, Yields behind c ss fs d

theorem Yielding?.many {read? : Cursor → Option (List Symbol × Cursor)} (h : Yielding? behind read?) :
    Yielding behind fun c => ((c.many read?).1.flatten, (c.many read?).2) := by
  refine many_rule (P := fun c sss e => ∃ fs, Yields behind c sss.flatten fs e) ?_ ?_
  · intro c
    exact ⟨[], .refl behind c⟩
  · intro c ss d sss e hr ih
    obtain ⟨fs, hcd⟩ := h c ss d hr
    obtain ⟨gs, hde⟩ := ih
    exact ⟨_, hcd.trans hde⟩

end Cursor

end Calculation
