import Calculation.Proofs.Reading.Progress
import Calculation.Proofs.Tree.InLine

namespace Calculation

/-- All that a diagnostic points at lies between two offsets. -/
structure Diagnostic.Within (lo hi : Nat) (d : Diagnostic) : Prop where
  range : lo ≤ d.range.start ∧ d.range.start ≤ d.range.stop ∧ d.range.stop ≤ hi
  related : ∀ r ∈ d.related, lo ≤ r.range.start ∧ r.range.start ≤ r.range.stop ∧ r.range.stop ≤ hi

def Event.Within (lo hi : Nat) : Event → Prop
  | .fault d => d.Within lo hi
  | .valid => True

theorem Event.Within.widen {lo hi lo' hi' : Nat} {e : Event} (h : e.Within lo hi) (hl : lo' ≤ lo)
    (hh : hi ≤ hi') : e.Within lo' hi' := by
  cases e with
  | valid => trivial
  | fault d =>
    obtain ⟨h₁, h₂, h₃⟩ := h.range
    refine ⟨⟨Nat.le_trans hl h₁, h₂, Nat.le_trans h₃ hh⟩, fun r hr => ?_⟩
    obtain ⟨h₁, h₂, h₃⟩ := h.related r hr
    exact ⟨Nat.le_trans hl h₁, h₂, Nat.le_trans h₃ hh⟩

namespace Cursor

/-- Where the cursor stands in a statement that starts at `lo`. -/
def pos (lo : Nat) (c : Cursor) : Nat :=
  max lo c.lastEnd

/-- The lexemes to come stand in line between the cursor and the end of the text; where they start and stop, and
where the cursor stands, are edges. -/
structure Placed (edge : Nat → Prop) (lo hi : Nat) (c : Cursor) : Prop where
  rest : Range.InLine (c.pos lo) hi (c.rest.map (·.token.range))
  pos_le : c.pos lo ≤ hi
  edges : ∀ l ∈ c.rest, edge l.token.range.start ∧ edge l.token.range.stop
  pos_edge : edge (c.pos lo)

/-- A token of the statement that the cursor has left behind. -/
structure Behind (edge : Nat → Prop) (lo : Nat) (t : Token) (c : Cursor) : Prop where
  start : lo ≤ t.range.start
  proper : t.range.start ≤ t.range.stop
  stop : t.range.stop ≤ c.lastEnd
  edges : edge t.range.start ∧ edge t.range.stop

/-- `d` is reached from `c`, and all that was reported on the way points between `lo` and the cursor. -/
structure Extends (lo : Nat) (c d : Cursor) : Prop where
  onward : Onward c d
  met : ∃ met, d.trail = met ++ c.trail ∧ ∀ e ∈ met, e.Within lo (d.pos lo)

variable {edge : Nat → Prop} {lo hi : Nat} {c d e : Cursor} {t : Token} {cause : Cause} {r : Range}

theorem Placed.of_same (hc : c.Placed edge lo hi) (hr : d.rest = c.rest) (he : d.lastEnd = c.lastEnd) :
    d.Placed edge lo hi := by
  have hp : d.pos lo = c.pos lo := by rw [pos, pos, he]
  exact ⟨hp ▸ hr ▸ hc.rest, hp ▸ hc.pos_le, hr ▸ hc.edges, hp ▸ hc.pos_edge⟩

theorem Behind.of_same (ht : Behind edge lo t c) (he : d.lastEnd = c.lastEnd) : Behind edge lo t d :=
  ⟨ht.start, ht.proper, he ▸ ht.stop, ht.edges⟩

theorem placed_endOf {taken : List Lexeme} (hc : c.Placed edge lo hi) (hr : c.rest = taken ++ d.rest)
    (he : d.lastEnd = endOf c.lastEnd taken) : d.Placed edge lo hi ∧ c.lastEnd ≤ d.lastEnd := by
  induction taken generalizing c with
  | nil => exact ⟨hc.of_same hr.symm he, Nat.le_of_eq he.symm⟩
  | cons l ls ih =>
    have hin := hc.rest
    have hedges := hc.edges l (by simp [hr])
    rw [hr, List.cons_append, List.map_cons, Range.inLine_cons] at hin
    obtain ⟨h₁, h₂, h₃, h₄⟩ := hin
    have hlo : lo ≤ c.pos lo := Nat.le_max_left ..
    have hle : c.lastEnd ≤ c.pos lo := Nat.le_max_right ..
    obtain ⟨e, hrest, hend⟩ : ∃ e : Cursor, e.rest = ls ++ d.rest ∧ e.lastEnd = l.token.range.stop :=
      ⟨{ c with rest := ls ++ d.rest, lastEnd := l.token.range.stop }, rfl, rfl⟩
    have hpos : e.pos lo = l.token.range.stop := by
      rw [pos, hend]
      exact Nat.max_eq_right (by omega)
    have hplaced : e.Placed edge lo hi := by
      refine ⟨?_, by omega, fun x hx => hc.edges x ?_, hpos ▸ hedges.2⟩
      · rw [hpos, hrest]
        exact h₄
      · rw [hr, List.cons_append, ← hrest]
        exact List.mem_cons_of_mem _ hx
    obtain ⟨i₁, i₂⟩ := ih hplaced hrest (by rw [he, hend, endOf_cons])
    exact ⟨i₁, by omega⟩

theorem Placed.onward (hc : c.Placed edge lo hi) (h : Onward c d) : d.Placed edge lo hi := by
  obtain ⟨taken, hr, he⟩ := h.rest
  exact (placed_endOf hc hr he).1

theorem Placed.lastEnd_le (hc : c.Placed edge lo hi) (h : Onward c d) : c.lastEnd ≤ d.lastEnd := by
  obtain ⟨taken, hr, he⟩ := h.rest
  exact (placed_endOf hc hr he).2

theorem Placed.pos_mono (hc : c.Placed edge lo hi) (h : Onward c d) : c.pos lo ≤ d.pos lo := by
  have := hc.lastEnd_le h
  unfold pos
  omega

theorem Behind.pos_eq (ht : Behind edge lo t c) : c.pos lo = c.lastEnd := by
  have := ht.start
  have := ht.proper
  have := ht.stop
  unfold pos
  omega

theorem start_le_pos (ht : Behind edge lo t c) : t.range.start ≤ c.pos lo :=
  Nat.le_trans ht.proper (ht.pos_eq ▸ ht.stop)

theorem Behind.pos_from (ht : Behind edge lo t c) : c.pos t.range.start = c.pos lo := by
  have := ht.proper
  have := ht.stop
  rw [ht.pos_eq]
  exact Nat.max_eq_right (by omega)

theorem Behind.onward (ht : Behind edge lo t c) (hc : c.Placed edge lo hi) (h : Onward c d) : Behind edge lo t d :=
  ⟨ht.start, ht.proper, Nat.le_trans ht.stop (hc.lastEnd_le h), ht.edges⟩

theorem Behind.since_eq (ht : Behind edge lo t c) : c.since t.range.start = ⟨t.range.start, c.pos lo⟩ := by
  have := ht.proper
  have := ht.stop
  rw [ht.pos_eq, Cursor.since, Nat.max_eq_left (by omega)]

/-- Whatever takes a lexeme leaves the one in front behind. -/
theorem Placed.behind_head {l : Lexeme} {ls : List Lexeme} (hc : c.Placed edge lo hi) (h : Onward c d)
    (hl : c.rest = l :: ls) (hd : d.rest.length < c.rest.length) :
    Behind edge lo l.token d ∧ c.pos lo ≤ l.token.range.start := by
  have hin := hc.rest
  rw [hl, List.map_cons, Range.inLine_cons] at hin
  obtain ⟨h₁, h₂, -, -⟩ := hin
  have hlo : lo ≤ c.pos lo := Nat.le_max_left ..
  have ha : c.advance.rest = ls ∧ c.advance.lastEnd = l.token.range.stop := by simp [Cursor.advance, hl]
  obtain ⟨taken, hr, he⟩ := h.rest
  cases taken with
  | nil =>
    rw [hr] at hd
    exact absurd hd (Nat.lt_irrefl _)
  | cons x xs =>
    obtain ⟨rfl, hls⟩ : l = x ∧ ls = xs ++ d.rest := List.cons.inj (hl.symm.trans hr)
    have hle := (placed_endOf (hc.onward (.advance c)) (ha.1.trans hls) (d := d)
      (by rw [he, ha.2, endOf_cons])).2
    exact ⟨⟨by omega, h₂, ha.2 ▸ hle, hc.edges l (by simp [hl])⟩, h₁⟩

theorem Placed.of_take (hc : c.Placed edge lo hi) (h : c.take? = some (t, d)) :
    Behind edge lo t d ∧ c.pos lo ≤ t.range.start := by
  have ho := Onward.of_take h
  have hd := length_of_take h
  unfold take? at h
  obtain ⟨l, hl, he⟩ := Option.map_eq_some_iff.mp h
  obtain ⟨ls, hls⟩ := List.head?_eq_some_iff.mp hl
  cases he
  exact hc.behind_head ho hls hd

theorem Placed.of_eat {k : Token.Kind} (hc : c.Placed edge lo hi) (h : c.eat? k = some (t, d)) :
    Behind edge lo t d ∧ c.pos lo ≤ t.range.start := by
  unfold eat? at h
  split at h
  · exact hc.of_take h
  · cases h

theorem Placed.of_operator (hc : c.Placed edge lo hi) (h : c.operator? = some (t, d)) :
    Behind edge lo t d ∧ c.pos lo ≤ t.range.start := by
  unfold operator? at h
  split at h
  · exact hc.of_take h
  · cases h

/-- What is read from here on can also be placed from the lexeme in front. -/
theorem Placed.from_head {l : Lexeme} {ls : List Lexeme} (hc : c.Placed edge lo hi) (hl : c.rest = l :: ls) :
    c.Placed edge l.token.range.start hi ∧ c.pos l.token.range.start = l.token.range.start := by
  have hin := hc.rest
  rw [hl, List.map_cons, Range.inLine_cons] at hin
  obtain ⟨h₁, h₂, h₃, h₄⟩ := hin
  have hp : c.pos l.token.range.start = l.token.range.start :=
    Nat.max_eq_left (Nat.le_trans (Nat.le_max_right ..) h₁)
  refine ⟨⟨?_, by omega, hc.edges, ?_⟩, hp⟩
  · rw [hp, hl]
    exact ⟨Nat.le_refl _, h₂, h₃, h₄⟩
  · rw [hp]
    exact (hc.edges l (by simp [hl])).1

namespace Extends

theorem refl (c : Cursor) : Extends lo c c :=
  ⟨.refl c, [], rfl, by simp⟩

theorem trans (hc : c.Placed edge lo hi) (hcd : Extends lo c d) (hde : Extends lo d e) : Extends lo c e := by
  obtain ⟨m, hm, hmw⟩ := hcd.met
  obtain ⟨n, hn, hnw⟩ := hde.met
  refine ⟨hcd.onward.trans hde.onward, n ++ m, by rw [hn, hm, List.append_assoc], ?_⟩
  intro x hx
  rcases List.mem_append.mp hx with hx | hx
  · exact hnw x hx
  · exact (hmw x hx).widen (Nat.le_refl _) ((hc.onward hcd.onward).pos_mono hde.onward)

theorem placed (h : Extends lo c d) (hc : c.Placed edge lo hi) : d.Placed edge lo hi :=
  hc.onward h.onward

theorem behind (h : Extends lo c d) (hc : c.Placed edge lo hi) (ht : Behind edge lo t c) : Behind edge lo t d :=
  ht.onward hc h.onward

theorem pos_le (h : Extends lo c d) (hc : c.Placed edge lo hi) : c.pos lo ≤ d.pos lo :=
  hc.pos_mono h.onward

/-- What reports nothing only has to lead onward. -/
theorem of_trail (h : Onward c d) (ht : d.trail = c.trail) : Extends lo c d :=
  ⟨h, [], ht, by simp⟩

theorem advance (c : Cursor) : Extends lo c c.advance := by
  refine of_trail (.advance c) ?_
  unfold Cursor.advance
  split <;> rfl

theorem of_take (h : c.take? = some (t, d)) : Extends lo c d := by
  unfold take? at h
  obtain ⟨l, -, he⟩ := Option.map_eq_some_iff.mp h
  cases he
  exact advance c

theorem of_eat {k : Token.Kind} (h : c.eat? k = some (t, d)) : Extends lo c d := by
  unfold eat? at h
  split at h
  · exact of_take h
  · cases h

theorem of_operator (h : c.operator? = some (t, d)) : Extends lo c d := by
  unfold operator? at h
  split at h
  · exact of_take h
  · cases h

theorem skip (n : Nat) (c : Cursor) : Extends lo c (c.skip n) := by
  refine of_trail (.skip n c) ?_
  rw [skip_eq]

theorem fault (hr : lo ≤ r.start ∧ r.start ≤ r.stop ∧ r.stop ≤ c.pos lo)
    (hrel : ∀ x ∈ cause.related, lo ≤ x.range.start ∧ x.range.start ≤ x.range.stop ∧ x.range.stop ≤ c.pos lo) :
    Extends lo c (c.fault cause r) := by
  refine ⟨.fault c cause r, [.fault (cause.spanning r)], rfl, ?_⟩
  intro e he
  cases List.mem_singleton.mp he
  exact ⟨hr, hrel⟩

/-- A fault at a token that the cursor has left behind. -/
theorem faultAt (ht : Behind edge lo t c) (hrel : cause.related = []) : Extends lo c (c.fault cause t.range) := by
  refine fault ⟨ht.start, ht.proper, ?_⟩ (by simp [hrel])
  rw [ht.pos_eq]
  exact ht.stop

/-- A fault at the lexeme in front, which is taken afterwards. -/
theorem faultAhead {l : Lexeme} {ls : List Lexeme} (hc : c.Placed edge lo hi) (hl : c.rest = l :: ls)
    (hrel : cause.related = []) (h : Extends lo (c.fault cause l.token.range) d)
    (hd : d.rest.length < c.rest.length) : Extends lo c d := by
  obtain ⟨met, hm, hw⟩ := h.met
  have ho := (Onward.fault c cause l.token.range).trans h.onward
  obtain ⟨ht, -⟩ := hc.behind_head ho hl hd
  refine ⟨ho, met ++ [.fault (cause.spanning l.token.range)], ?_, ?_⟩
  · rw [hm, List.append_assoc]
    rfl
  · intro e he
    rcases List.mem_append.mp he with he | he
    · exact hw e he
    · cases List.mem_singleton.mp he
      refine ⟨⟨ht.start, ht.proper, ?_⟩, ?_⟩
      · rw [ht.pos_eq]
        exact ht.stop
      · intro r hr
        simp [Cause.spanning, hrel] at hr

theorem finish (src : Source) (s : Symbol) (c : Cursor) : Extends lo c (c.finish src s).2 := by
  refine ⟨.finish src s c, ?_⟩
  unfold Cursor.finish noteValid
  dsimp only
  split
  · split
    · exact ⟨[.valid], rfl, by simp [Event.Within]⟩
    · exact ⟨[], rfl, by simp⟩
  · exact ⟨[], rfl, by simp⟩

theorem inside {α : Type} {closer : Token.Kind} {read : Cursor → α × Cursor}
    (h : Extends lo { c with closers := closer :: c.closers } (read { c with closers := closer :: c.closers }).2) :
    Extends lo c (c.inside closer read).2 :=
  ⟨⟨h.onward.rest, h.onward.trail, rfl, h.onward.scopes, h.onward.scans⟩, h.met⟩

theorem inScope {α : Type} {scope : Scope} {read : Cursor → α × Cursor}
    (h : Extends lo { c with scopes := scope :: c.scopes } (read { c with scopes := scope :: c.scopes }).2) :
    Extends lo c (c.inScope scope read).2 :=
  ⟨⟨h.onward.rest, h.onward.trail, h.onward.closers, rfl, h.onward.scans⟩, h.met⟩

theorem scanning {α : Type} {read : Cursor → α × Cursor}
    (h : Extends lo { c with scans := c.scans + 1 } (read { c with scans := c.scans + 1 }).2) :
    Extends lo c (c.scanning read).2 :=
  ⟨⟨h.onward.rest, h.onward.trail, h.onward.closers, h.onward.scopes, rfl⟩, h.met⟩

theorem recording {α : Type} {read : Cursor → α × Cursor}
    (h : Extends lo { c with trail := [] } (read { c with trail := [] }).2) :
    Extends lo c (c.recording read).2 := by
  obtain ⟨met, hm, hw⟩ := h.met
  refine ⟨⟨h.onward.rest, ⟨_, rfl⟩, h.onward.closers, h.onward.scopes, h.onward.scans⟩, met, ?_, hw⟩
  rw [List.append_nil] at hm
  rw [← hm]
  rfl

end Extends

/-- A reading whose symbols stand in line between where it starts and where it ends. -/
def Lays (edge : Nat → Prop) (lo hi : Nat) (read : Cursor → List Symbol × Cursor) : Prop :=
  ∀ c, c.Placed edge lo hi →
    Extends lo c (read c).2 ∧ Symbol.InLine edge (c.pos lo) ((read c).2.pos lo) (read c).1

/-- The same of a reading that may find nothing to read. -/
def Lays? (edge : Nat → Prop) (lo hi : Nat) (read? : Cursor → Option (List Symbol × Cursor)) : Prop :=
  ∀ c ss d, read? c = some (ss, d) → c.Placed edge lo hi →
    Extends lo c d ∧ Symbol.InLine edge (c.pos lo) (d.pos lo) ss

theorem Lays?.many {read? : Cursor → Option (List Symbol × Cursor)} (h : Lays? edge lo hi read?) :
    Lays edge lo hi fun c => ((c.many read?).1.flatten, (c.many read?).2) := by
  refine many_rule ?_ ?_
    (P := fun c sss e => c.Placed edge lo hi → Extends lo c e ∧ Symbol.InLine edge (c.pos lo) (e.pos lo) sss.flatten)
  · intro c _
    exact ⟨.refl c, .nil⟩
  · intro c ss d sss e hr ih hc
    obtain ⟨hcd, hss⟩ := h c ss d hr hc
    have hd := hc.onward hcd.onward
    obtain ⟨hde, hsss⟩ := ih hd
    exact ⟨hcd.trans hc hde, hss.append hsss (hc.pos_mono hcd.onward) (hd.pos_mono hde.onward)⟩

/-- The same of a reading that may report at the token `t`, which has been taken. -/
def LaysBehind (edge : Nat → Prop) (lo hi : Nat) (t : Token) (read : Cursor → List Symbol × Cursor) : Prop :=
  ∀ c, c.Placed edge lo hi → Behind edge lo t c →
    Extends lo c (read c).2 ∧ Symbol.InLine edge (c.pos lo) ((read c).2.pos lo) (read c).1

theorem LaysBehind.inside {read : Cursor → List Symbol × Cursor} (h : LaysBehind edge lo hi t read)
    (closer : Token.Kind) : LaysBehind edge lo hi t (Cursor.inside closer read) := by
  intro c hc ht
  have hr := h { c with closers := closer :: c.closers } (hc.of_same rfl rfl) (ht.of_same rfl)
  exact ⟨hr.1.inside, hr.2⟩

@[simp] theorem pos_fault (lo : Nat) (c : Cursor) (cause : Cause) (r : Range) :
    (c.fault cause r).pos lo = c.pos lo := rfl

@[simp] theorem pos_finish (lo : Nat) (src : Source) (s : Symbol) (c : Cursor) :
    (c.finish src s).2.pos lo = c.pos lo := by
  unfold Cursor.finish noteValid
  dsimp only
  split
  · split <;> rfl
  · rfl

/-- A symbol in line is still in line when it is finished. -/
theorem finish_inLine (src : Source) {s : Symbol} {a : Nat} (h : Symbol.InLine edge a (c.pos lo) [s]) :
    Extends lo c (c.finish src s).2 ∧
      Symbol.InLine edge a ((c.finish src s).2.pos lo) [(c.finish src s).1] := by
  obtain ⟨h₁, h₂, h₃, he, hk, hc, -⟩ := h.uncons
  refine ⟨.finish src s c, ?_⟩
  rw [pos_finish]
  exact .one h₁ h₂ h₃ he hk hc

/-- A symbol without children from a token up to an edge that the cursor has reached. -/
theorem leaf_inLine (src : Source) (ht : Behind edge lo t c) (name : String) (kind : Symbol.Kind) {stop : Nat}
    (isComplete : Bool) (hs : t.range.start ≤ stop ∧ stop ≤ c.lastEnd) (he : edge stop)
    (hk : kind.Fits ⟨t.range.start, stop⟩) :
    Extends lo c (c.leaf src name kind ⟨t.range.start, stop⟩ isComplete).2 ∧
      Symbol.InLine edge t.range.start ((c.leaf src name kind ⟨t.range.start, stop⟩ isComplete).2.pos lo)
        [(c.leaf src name kind ⟨t.range.start, stop⟩ isComplete).1] := by
  refine finish_inLine src (.one (Nat.le_refl _) hs.1 ?_ ⟨ht.edges.1, he⟩ hk .nil)
  rw [ht.pos_eq]
  exact hs.2

/-- A symbol from a token up to the cursor. -/
theorem since_inLine (src : Source) (hc : c.Placed edge lo hi) (ht : Behind edge lo t c) {s : Symbol}
    (hr : s.range = c.since t.range.start) (hk : s.kind.Fits ⟨t.range.start, c.pos lo⟩)
    (hs : Symbol.InLine edge t.range.start (c.pos lo) s.children) :
    Extends lo c (c.finish src s).2 ∧
      Symbol.InLine edge t.range.start ((c.finish src s).2.pos lo) [(c.finish src s).1] := by
  rw [ht.since_eq] at hr
  have hp := start_le_pos ht
  refine finish_inLine src (.one ?_ ?_ ?_ ?_ ?_ ?_)
  · exact Nat.le_of_eq (congrArg Range.start hr).symm
  · rw [hr]
    exact hp
  · exact Nat.le_of_eq (congrArg Range.stop hr)
  · rw [hr]
    exact ⟨ht.edges.1, hc.pos_edge⟩
  · rw [hr]
    exact hk
  · rw [hr]
    exact hs

/-- A reading whose one symbol starts with a token that has been taken. -/
def Builds (edge : Nat → Prop) (lo hi : Nat) (t : Token) (read : Cursor → Symbol × Cursor) : Prop :=
  ∀ c, c.Placed edge lo hi → Behind edge lo t c →
    Extends lo c (read c).2 ∧ Symbol.InLine edge t.range.start ((read c).2.pos lo) [(read c).1]

end Cursor

end Calculation
