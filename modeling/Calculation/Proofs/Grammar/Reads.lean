import Calculation.Proofs.Grammar.Rules

namespace Calculation.Cursor

variable {c d e : Cursor} {as bs ls : List Lexeme} {l : Lexeme} {t : Token} {cause : Cause} {r : Range}

/-- Nothing structural is met on the way from `c` to `d`. -/
def Quiet (c d : Cursor) : Prop :=
  ∃ met, d.trail = met ++ c.trail ∧ met.any Event.isStructural = false

theorem Quiet.refl (c : Cursor) : Quiet c c :=
  ⟨[], rfl, rfl⟩

theorem Quiet.trans (hcd : Quiet c d) (hde : Quiet d e) : Quiet c e := by
  obtain ⟨m, hm, hms⟩ := hcd
  obtain ⟨n, hn, hns⟩ := hde
  refine ⟨n ++ m, ?_, ?_⟩
  · rw [hn, hm, List.append_assoc]
  · rw [List.any_append, hns, hms, Bool.or_false]

/-- What is quiet as a whole is quiet in its parts. -/
theorem Quiet.split (hcd : Onward c d) (hde : Onward d e) (h : Quiet c e) : Quiet c d ∧ Quiet d e := by
  obtain ⟨m, hm⟩ := hcd.trail
  obtain ⟨n, hn⟩ := hde.trail
  obtain ⟨met, hmet, hs⟩ := h
  have hboth : n ++ m = met := by
    rw [hn, hm, ← List.append_assoc] at hmet
    exact List.append_cancel_right hmet
  rw [← hboth, List.any_append, Bool.or_eq_false_iff] at hs
  exact ⟨⟨m, hm, hs.2⟩, n, hn, hs.1⟩

theorem not_quiet_fault (h : (cause.spanning r).isStructural = true) : ¬Quiet c (c.fault cause r) := by
  rintro ⟨met, hmet, hs⟩
  have hone : [Event.fault (cause.spanning r)] = met := List.append_cancel_right hmet
  rw [← hone] at hs
  simp [Event.isStructural, h] at hs

/-- A reading that starts with a structural fault is not quiet. -/
theorem not_quiet_of_fault (h : (cause.spanning r).isStructural = true) (hd : Onward (c.fault cause r) d) :
    ¬Quiet c d :=
  fun hq => not_quiet_fault h (hq.split (.fault c cause r) hd).1

/-- Exactly these lexemes are taken on the way from `c` to `d`, and nothing structural is met. -/
structure Reads (c : Cursor) (ls : List Lexeme) (d : Cursor) : Prop where
  onward : Onward c d
  rest : c.rest = ls ++ d.rest
  quiet : Quiet c d

namespace Reads

theorem refl (c : Cursor) : Reads c [] c :=
  ⟨.refl c, rfl, .refl c⟩

theorem trans (hcd : Reads c as d) (hde : Reads d bs e) : Reads c (as ++ bs) e := by
  refine ⟨hcd.onward.trans hde.onward, ?_, hcd.quiet.trans hde.quiet⟩
  rw [hcd.rest, hde.rest, List.append_assoc]

theorem lastEnd (h : Reads c ls d) : d.lastEnd = endOf c.lastEnd ls := by
  obtain ⟨taken, hr, he⟩ := h.onward.rest
  obtain rfl : ls = taken := List.append_cancel_right (h.rest.symm.trans hr)
  exact he

/-- The range from the first lexeme taken. -/
theorem since (h : Reads c (l :: ls) d) : d.since l.token.range.start = l.span ls := by
  rw [Cursor.since, h.lastEnd]
  rfl

/-- The range from the lexeme in front of the cursor. -/
theorem since_of_lastEnd (h : Reads c ls d) (hl : c.lastEnd = l.token.range.stop) :
    d.since l.token.range.start = l.span ls := by
  rw [Cursor.since, h.lastEnd, hl]
  rfl

theorem scopes (h : Reads c ls d) : d.scopes.head? = c.scopes.head? :=
  congrArg List.head? h.onward.scopes

theorem advance (h : c.rest = l :: ls) : Reads c [l] c.advance := by
  refine ⟨.advance c, ?_, ?_⟩
  · simp [Cursor.advance, h]
  · exact ⟨[], by simp [Cursor.advance, h], rfl⟩

theorem of_take (h : c.take? = some (t, d)) : ∃ l, l.token = t ∧ Reads c [l] d := by
  obtain ⟨l, ls, hls, rfl, rfl⟩ := take?_eq_some h
  exact ⟨l, rfl, advance hls⟩

theorem of_eat {kind : Token.Kind} (h : c.eat? kind = some (t, d)) :
    ∃ l, l.token = t ∧ l.token.kind = kind ∧ Reads c [l] d := by
  obtain ⟨ht, hk⟩ := eat?_eq_some h
  obtain ⟨l, rfl, hl⟩ := of_take ht
  exact ⟨l, rfl, hk, hl⟩

theorem of_isAt {kind : Token.Kind} (h : c.isAt kind = true) :
    ∃ l, l.token.kind = kind ∧ Reads c [l] c.advance := by
  cases hls : c.rest with
  | nil => simp [isAt, kind?, hls] at h
  | cons l ls => exact ⟨l, by simpa [isAt, kind?, hls] using h, advance hls⟩

theorem fault (h : (cause.spanning r).isStructural = false) : Reads c [] (c.fault cause r) :=
  ⟨.fault c cause r, rfl, [.fault (cause.spanning r)], rfl, by simp [Event.isStructural, h]⟩

theorem finish (src : Source) (s : Symbol) (c : Cursor) : Reads c [] (c.finish src s).2 := by
  obtain ⟨hr, -, -⟩ := Reports.finish src s c
  refine ⟨.finish src s c, hr.symm, ?_⟩
  unfold Cursor.finish noteValid
  dsimp only
  split
  · split
    · exact ⟨[.valid], rfl, rfl⟩
    · exact .refl c
  · exact .refl c

theorem inside {closer : Token.Kind} {α : Type} {read : Cursor → α × Cursor}
    (h : Reads { c with closers := closer :: c.closers } ls (read { c with closers := closer :: c.closers }).2) :
    Reads c ls (c.inside closer read).2 :=
  ⟨⟨h.onward.rest, h.onward.trail, rfl, h.onward.scopes, h.onward.scans⟩, h.rest, h.quiet⟩

theorem inScope {scope : Scope} {α : Type} {read : Cursor → α × Cursor}
    (h : Reads { c with scopes := scope :: c.scopes } ls (read { c with scopes := scope :: c.scopes }).2) :
    Reads c ls (c.inScope scope read).2 :=
  ⟨⟨h.onward.rest, h.onward.trail, h.onward.closers, rfl, h.onward.scans⟩, h.rest, h.quiet⟩

/-- What is recorded of a reading that meets nothing structural. -/
theorem recording {α : Type} {read : Cursor → α × Cursor}
    (h : Reads { c with trail := [] } ls (read { c with trail := [] }).2) :
    Reads c ls (c.recording read).2 ∧ (c.recording read).1.2.any Event.isStructural = false := by
  obtain ⟨ho, hr, met, hm, hs⟩ := h
  have hmet : (c.recording read).1.2.any Event.isStructural = false :=
    (congrArg (List.any · Event.isStructural) (hm.trans (List.append_nil met))).trans hs
  exact ⟨⟨⟨ho.rest, ⟨_, rfl⟩, ho.closers, ho.scopes, ho.scans⟩, hr, _, rfl, hmet⟩, hmet⟩

end Reads

/-- A recorded reading is quiet when the reading is. -/
theorem quiet_recording {α : Type} {read : Cursor → α × Cursor} (h : Quiet c (c.recording read).2) :
    Quiet { c with trail := [] } (read { c with trail := [] }).2 := by
  obtain ⟨met, hm, hs⟩ := h
  have hmet : (read { c with trail := [] }).2.trail = met := List.append_cancel_right hm
  exact ⟨met, hmet.trans (List.append_nil met).symm, hs⟩

/-- In a quiet loop every round is quiet. -/
theorem Steady?.many_reads {α : Type} {read? : Cursor → Option (α × Cursor)} {P : List Lexeme → List α → Prop}
    {around : Option Scope} (h : Steady? read?) (hnil : P [] [])
    (hcons : ∀ c a d, c.scopes.head? = around → read? c = some (a, d) → Quiet c d →
      ∃ as, Reads c as d ∧ ∀ bs rest, P bs rest → P (as ++ bs) (a :: rest))
    (hc : c.scopes.head? = around) (hq : Quiet c (c.many read?).2) :
    ∃ ls, Reads c ls (c.many read?).2 ∧ P ls (c.many read?).1 := by
  have hall : Onward c (c.many read?).2 ∧ (c.scopes.head? = around → Quiet c (c.many read?).2 →
      ∃ ls, Reads c ls (c.many read?).2 ∧ P ls (c.many read?).1) := by
    refine many_rule (P := fun c as e => Onward c e ∧ (c.scopes.head? = around → Quiet c e →
      ∃ ls, Reads c ls e ∧ P ls as)) (fun c => ⟨.refl c, fun _ _ => ⟨[], .refl c, hnil⟩⟩) ?_ c
    rintro c a d as e hr ⟨hde, ih⟩
    have hcd := h c a d hr
    refine ⟨hcd.trans hde, fun hc hq => ?_⟩
    obtain ⟨hqc, hqd⟩ := hq.split hcd hde
    obtain ⟨ls, hls, hp⟩ := hcons c a d hc hr hqc
    obtain ⟨ms, hms, hrest⟩ := ih (hls.scopes.trans hc) hqd
    exact ⟨_, hls.trans hms, hp _ _ hrest⟩
  exact hall.2 hc hq

theorem many_none {α : Type} {read? : Cursor → Option (α × Cursor)} (h : Takes read?) (hc : read? c = none) :
    c.many read? = ([], c) := by
  rw [many_eq_of_advances h, hc]

theorem many_some {α : Type} {read? : Cursor → Option (α × Cursor)} {a : α} (h : Takes read?)
    (hc : read? c = some (a, d)) : c.many read? = (a :: (d.many read?).1, (d.many read?).2) := by
  rw [many_eq_of_advances h, hc]

end Calculation.Cursor
