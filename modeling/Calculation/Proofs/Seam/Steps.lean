import Calculation.Proofs.Seam.Twin

namespace Calculation

@[simp] theorem Token.kind_shifted (t : Token) (n : Nat) : (t.shifted n).kind = t.kind := rfl

@[simp] theorem Token.text_shifted (t : Token) (n : Nat) : (t.shifted n).text = t.text := rfl

@[simp] theorem Token.isOpen_shifted (t : Token) (n : Nat) : (t.shifted n).isOpen = t.isOpen := rfl

@[simp] theorem Token.range_shifted (t : Token) (n : Nat) : (t.shifted n).range = t.range.shifted n := rfl

/-- What a round gives, and where it leads. -/
def Cursor.Round.result {α β : Type} : Cursor.Round α β → (α ⊕ β) × Cursor
  | .next a c => (.inl a, c)
  | .done b c => (.inr b, c)

namespace Seam

open Movable

variable {m : Seam} {v : List Lexeme} {c₁ c₂ d₁ d₂ : Cursor} {α β : Type} [Movable α] [Movable β]

theorem unmarked_of_code {d : Diagnostic} (h : d.code ≠ .tooDeep) : ¬m.MarksEvent (.fault d) := by
  rintro ⟨d', -, -, -, he, hcode, -⟩
  cases he
  exact h hcode

theorem unmarked_valid : ¬m.MarksEvent .valid := by
  rintro ⟨d, -, -, -, he, -⟩
  cases he

/-- Twins that meet the same event. -/
theorem TwinAt.meet (hc : m.TwinAt v c₁ c₂) {e : Event} (he : ¬m.MarksEvent e) :
    m.TwinAt v { c₁ with trail := e :: c₁.trail } { c₂ with trail := e.shifted m.bytes :: c₂.trail } := by
  refine ⟨⟨hc.rest₁, hc.rest₂, hc.left, hc.lastEnd_le, hc.lastEnd, ?_, ?_, hc.closers, hc.scopes, hc.scans⟩, hc.call⟩
  · simp only [hc.trail, List.map_cons]
  · intro x hx
    rcases List.mem_cons.mp hx with rfl | hx
    · exact he
    · exact hc.calm x hx

theorem TwinAt.report (hc : m.TwinAt v c₁ c₂) {cause₁ cause₂ : Cause} {r₁ r₂ : Range}
    (he : cause₂.spanning r₂ = (cause₁.spanning r₁).shifted m.bytes)
    (hmark : ¬m.MarksEvent (.fault (cause₁.spanning r₁))) :
    m.TwinAt v (c₁.fault cause₁ r₁) (c₂.fault cause₂ r₂) := by
  have h := hc.meet hmark
  unfold Cursor.fault
  rw [he]
  exact h

theorem Twin.fault (hc : m.Twin c₁ c₂) (cause : Cause) (r : Range) (hrelated : cause.related = [])
    (hcode : cause.code ≠ .tooDeep) :
    m.Twin (c₁.fault cause r) (c₂.fault cause (r.shifted m.bytes)) := by
  obtain ⟨v, hv⟩ := hc
  exact ⟨v, hv.report (cause.spanning_shifted r m.bytes hrelated) (unmarked_of_code hcode)⟩

theorem Raw.since (hc : m.Raw v c₁ c₂) (r : Range) :
    c₂.since (r.shifted m.bytes).start = (c₁.since r.start).shifted m.bytes := by
  simp only [Cursor.since, Range.shifted_nat, hc.lastEnd]

theorem Raw.since_past (hc : m.Raw v c₁ c₂) {r : Range} (hr : m.Past r) : m.Past (c₁.since r.start) := by
  have := hr.proper
  have := hr.stop
  have := hc.lastEnd_le
  refine ⟨Nat.le_max_right .., ?_⟩
  exact Nat.max_le.mpr ⟨hc.lastEnd_le, by omega⟩

theorem Twin.since (hc : m.Twin c₁ c₂) (r : Range) :
    c₂.since (r.shifted m.bytes).start = (c₁.since r.start).shifted m.bytes := by
  obtain ⟨v, hv⟩ := hc
  exact hv.toRaw.since r

theorem Twin.since_past (hc : m.Twin c₁ c₂) {r : Range} (hr : m.Past r) : m.Past (c₁.since r.start) := by
  obtain ⟨v, hv⟩ := hc
  exact hv.toRaw.since_past hr

theorem Past.cover {a b : Range} (ha : m.Past a) (hb : m.Past b) : m.Past (a.cover b) := by
  have := ha.proper
  have := ha.stop
  have := hb.proper
  have := hb.stop
  refine ⟨?_, ?_⟩ <;> simp only [Range.cover] <;> omega

theorem TwinAt.noteValid (hc : m.TwinAt v c₁ c₂) : m.TwinAt v c₁.noteValid c₂.noteValid := by
  unfold Cursor.noteValid
  by_cases h : c₁.scans = 0
  · rw [if_pos h, if_pos (hc.scans.trans h)]
    exact hc.meet unmarked_valid
  · rw [if_neg h, if_neg (hc.scans ▸ h)]
    exact hc

/-- Both finish the same symbol, and it shows nothing. -/
theorem TwinAt.finish (hm : m.Sound) (hc : m.TwinAt v c₁ c₂) {s₁ s₂ : Symbol}
    (hs : s₂ = s₁.shifted m.bytes m.lines) (hr : m.Past s₁.range) (hmark : ¬m.MarksSymbol s₁)
    (hcalm : m.Calm s₁.children) : m.Sim (c₁.finish m.src₁ s₁) (c₂.finish m.src₂ s₂) := by
  obtain ⟨n, k, r, cs, c, l⟩ := s₁
  subst hs
  have hlines := hm.continuation r hr.proper hr.stop
  refine .same ?_ ?_ (calm_one hmark hcalm)
  · show (⟨n, _, _, _, c, m.src₂.lines.continuation (r.shifted m.bytes)⟩ : Symbol) = _
    rw [hlines]
    rfl
  · show m.Twin (if c then _ else _) (if c then _ else _)
    cases c with
    | true => exact ⟨v, hc.noteValid⟩
    | false => exact ⟨v, hc⟩

theorem Twin.finish (hm : m.Sound) (hc : m.Twin c₁ c₂) {s₁ s₂ : Symbol}
    (hs : s₂ = s₁.shifted m.bytes m.lines) (hr : m.Past s₁.range) (hmark : ¬m.MarksSymbol s₁)
    (hcalm : m.Calm s₁.children) : m.Sim (c₁.finish m.src₁ s₁) (c₂.finish m.src₂ s₂) := by
  obtain ⟨v, hv⟩ := hc
  exact hv.finish hm hs hr hmark hcalm

theorem Twin.leaf (hm : m.Sound) (hc : m.Twin c₁ c₂) (name : String) {kind : Symbol.Kind} {r : Range}
    (isComplete : Bool) (hk : kind.shifted m.bytes = kind) (hr : m.Past r)
    (hmark : ¬m.MarksSymbol ⟨name, kind, r, [], isComplete, []⟩) :
    m.Sim (c₁.leaf m.src₁ name kind r isComplete) (c₂.leaf m.src₂ name kind (r.shifted m.bytes) isComplete) := by
  refine hc.finish hm ?_ hr hmark calm_nil
  simp [Symbol.shifted, Symbol.shiftedAll, hk, movedLines]

/-- Twins stay twins in other surroundings, if these are the same for both. -/
theorem Twin.within (hc : m.Twin c₁ c₂) {closers₁ closers₂ : List Token.Kind} {scopes₁ scopes₂ : List Scope}
    {scans₁ scans₂ : Nat} (hclosers : closers₂ = closers₁) (hscopes : scopes₂ = scopes₁) (hscans : scans₂ = scans₁) :
    m.Twin { c₁ with closers := closers₁, scopes := scopes₁, scans := scans₁ }
      { c₂ with closers := closers₂, scopes := scopes₂, scans := scans₂ } := by
  obtain ⟨v, hv⟩ := hc
  exact ⟨v, ⟨hv.rest₁, hv.rest₂, hv.left, hv.lastEnd_le, hv.lastEnd, hv.trail, hv.calm, hclosers, hscopes, hscans⟩,
    hv.call⟩

/-- Two readings that end alike wherever they start as twins. -/
def Sims (m : Seam) (read₁ read₂ : Cursor → α × Cursor) : Prop :=
  ∀ c₁ c₂, m.Twin c₁ c₂ → m.Sim (read₁ c₁) (read₂ c₂)

variable {read₁ read₂ : Cursor → α × Cursor}

theorem Sims.inside (h : m.Sims read₁ read₂) (closer : Token.Kind) :
    m.Sims (Cursor.inside closer read₁) (Cursor.inside closer read₂) := by
  intro c₁ c₂ hc
  have hclosers : closer :: c₂.closers = closer :: c₁.closers := by rw [hc.closers]
  have hin := h { c₁ with closers := closer :: c₁.closers } { c₂ with closers := closer :: c₂.closers }
    (hc.within hclosers hc.scopes hc.scans)
  rcases hin with hlost | ⟨hmove, htwin, hcalm⟩ | ⟨hlost, hmark⟩
  · exact .inl hlost
  · exact .same hmove (htwin.within hc.closers htwin.scopes htwin.scans) hcalm
  · exact .inr (.inr ⟨hlost, hmark⟩)

theorem Sims.inScope (h : m.Sims read₁ read₂) (scope : Scope) :
    m.Sims (Cursor.inScope scope read₁) (Cursor.inScope scope read₂) := by
  intro c₁ c₂ hc
  have hscopes : scope :: c₂.scopes = scope :: c₁.scopes := by rw [hc.scopes]
  have hin := h { c₁ with scopes := scope :: c₁.scopes } { c₂ with scopes := scope :: c₂.scopes }
    (hc.within hc.closers hscopes hc.scans)
  rcases hin with hlost | ⟨hmove, htwin, hcalm⟩ | ⟨hlost, hmark⟩
  · exact .inl hlost
  · exact .same hmove (htwin.within htwin.closers hc.scopes htwin.scans) hcalm
  · exact .inr (.inr ⟨hlost, hmark⟩)

/-- A skipped stretch, which may only be looked through from some places. -/
theorem Sim.scanning (hc : m.Twin c₁ c₂)
    (h : ∀ d₁ d₂, d₁.rest = c₁.rest → m.Twin d₁ d₂ → m.Sim (read₁ d₁) (read₂ d₂)) :
    m.Sim (c₁.scanning read₁) (c₂.scanning read₂) := by
  have hscans : c₂.scans + 1 = c₁.scans + 1 := by rw [hc.scans]
  have hin := h { c₁ with scans := c₁.scans + 1 } { c₂ with scans := c₂.scans + 1 } rfl
    (hc.within hc.closers hc.scopes hscans)
  rcases hin with hlost | ⟨hmove, htwin, hcalm⟩ | ⟨hlost, hmark⟩
  · exact .inl hlost
  · exact .same hmove (htwin.within htwin.closers htwin.scopes hc.scans) hcalm
  · exact .inr (.inr ⟨hlost, hmark⟩)

/-- Twins that have met other events, the same ones for both, that show nothing. -/
theorem TwinAt.meeting (hc : m.TwinAt v c₁ c₂) {es : List Event} (hes : ∀ e ∈ es, ¬m.MarksEvent e) :
    m.TwinAt v { c₁ with trail := es } { c₂ with trail := es.map (·.shifted m.bytes) } :=
  ⟨⟨hc.rest₁, hc.rest₂, hc.left, hc.lastEnd_le, hc.lastEnd, rfl, hes, hc.closers, hc.scopes, hc.scans⟩, hc.call⟩

theorem Sim.recording (hc : m.Twin c₁ c₂)
    (h : ∀ d₁ d₂, d₁.rest = c₁.rest → m.Twin d₁ d₂ → m.Sim (read₁ d₁) (read₂ d₂)) :
    m.Sim (c₁.recording read₁) (c₂.recording read₂) := by
  obtain ⟨v, hv⟩ := hc
  have hin := h { c₁ with trail := [] } { c₂ with trail := [] } rfl ⟨v, hv.meeting nofun⟩
  rcases hin with hlost | ⟨hmove, ⟨u, hu⟩, hcalm⟩ | ⟨hlost, hmark⟩
  · exact .inl hlost
  · have hevents : ∀ e ∈ (read₁ { c₁ with trail := [] }).2.trail ++ c₁.trail, ¬m.MarksEvent e := by
      intro e he
      rcases List.mem_append.mp he with he | he
      · exact hu.calm e he
      · exact hv.calm e he
    have htrail := hu.meeting hevents
    refine .same ?_ ⟨u, ?_⟩ ?_
    · rw [hmove, hu.trail]
      rfl
    · rw [List.map_append, ← hu.trail, ← hv.trail] at htrail
      exact htrail
    · simpa using hcalm
  · refine .inr (.inr ⟨hlost, ?_⟩)
    rcases hmark with ⟨e, he, hm⟩ | hcall | hs
    · exact .inl ⟨e, List.mem_append_left _ he, hm⟩
    · exact .inr (.inl hcall)
    · refine .inr (.inr ?_)
      rw [Cursor.recording, symbols_pair, symbols_events, List.append_nil]
      exact hs

/-- Both found nothing, or both gave something and ended alike. -/
def Sim? (m : Seam) (x₁ x₂ : Option (α × Cursor)) : Prop :=
  (x₁ = none ∧ x₂ = none) ∨ ∃ y₁ y₂, x₁ = some y₁ ∧ x₂ = some y₂ ∧ m.Sim y₁ y₂

def Sims? (m : Seam) (read₁ read₂ : Cursor → Option (α × Cursor)) : Prop :=
  ∀ c₁ c₂, m.Twin c₁ c₂ → m.Sim? (read₁ c₁) (read₂ c₂)

variable {next₁ next₂ : Cursor → Option (α × Cursor)}

/-- A loop over readings that end alike, except where the first one stops at the seam and `p` holds. -/
theorem many_until {p : Cursor → Prop} (h : ∀ c₁ c₂, m.Twin c₁ c₂ → m.Sim? (next₁ c₁) (next₂ c₂) ∨ p c₁)
    (hp : ∀ c, p c → c.rest = m.rest₁) (ht₁ : Cursor.Takes next₁) (ht₂ : Cursor.Takes next₂)
    (ho₁ : Cursor.Steady? next₁) (ho₂ : Cursor.Steady? next₂) (hc : m.Twin c₁ c₂) :
    m.Sim (c₁.many next₁) (c₂.many next₂) ∨ p (c₁.many next₁).2 := by
  induction hn : c₁.rest.length using Nat.strongRecOn generalizing c₁ c₂ with
  | _ n ih =>
    rcases h c₁ c₂ hc with (⟨h₁, h₂⟩ | ⟨y₁, y₂, h₁, h₂, hsim⟩) | hstop
    · rw [Cursor.many_eq_of_advances ht₁, Cursor.many_eq_of_advances ht₂, h₁, h₂]
      exact .inl (.same rfl hc calm_nil)
    · have hlt := ht₁ c₁ y₁.1 y₁.2 h₁
      rw [Cursor.many_eq_of_advances ht₁ c₁, Cursor.many_eq_of_advances ht₂ c₂, h₁, h₂]
      by_cases hend : p (y₁.2.many next₁).2
      · exact .inr hend
      · refine .inl (Sim.both (fun a as => a :: as) (fun a as => a :: as) symbols_cons (fun a as => rfl) hsim
          (ho₁.many _) (ho₂.many _) fun htwin => ?_)
        exact (ih _ (hn ▸ hlt) htwin rfl).resolve_right hend
    · cases h₁ : next₁ c₁ with
      | none =>
        rw [Cursor.many_eq_of_advances ht₁ c₁, h₁]
        exact .inr hstop
      | some y =>
        have hlost : m.Lost₁ y.2 := lost_of_takes (hp c₁ hstop) (ht₁ c₁ y.1 y.2 h₁)
        rw [Cursor.many_eq_of_advances ht₁ c₁, h₁]
        exact .inl (.lost hlost (ho₁.many _))

theorem Sims?.many (h : m.Sims? next₁ next₂) (ht₁ : Cursor.Takes next₁) (ht₂ : Cursor.Takes next₂)
    (ho₁ : Cursor.Steady? next₁) (ho₂ : Cursor.Steady? next₂) :
    m.Sims (Cursor.many next₁) (Cursor.many next₂) := by
  intro c₁ c₂ hc
  have hmany := many_until (p := fun _ => False) (fun c₁ c₂ hc => .inl (h c₁ c₂ hc)) (fun _ h => h.elim) ht₁ ht₂
    ho₁ ho₂ hc
  exact hmany.resolve_right id

/-- A loop whose rounds end alike. -/
theorem loop_sim {step₁ step₂ : Cursor → Cursor.Round α β} {spent : β}
    (h : ∀ c₁ c₂, m.Twin c₁ c₂ → m.Sim (step₁ c₁).result (step₂ c₂).result)
    (ha₁ : Cursor.Advances step₁) (ha₂ : Cursor.Advances step₂)
    (ho₁ : ∀ c, Cursor.Onward c (step₁ c).cursor) (ho₂ : ∀ c, Cursor.Onward c (step₂ c).cursor)
    (hc : m.Twin c₁ c₂) : m.Sim (c₁.loop step₁ spent) (c₂.loop step₂ spent) := by
  have hloop₁ (c : Cursor) : Cursor.Onward c (c.loop step₁ spent).2 := Cursor.onward_rounds ho₁ _ c
  have hloop₂ (c : Cursor) : Cursor.Onward c (c.loop step₂ spent).2 := Cursor.onward_rounds ho₂ _ c
  induction hn : c₁.rest.length using Nat.strongRecOn generalizing c₁ c₂ with
  | _ n ih =>
    have hsim := h c₁ c₂ hc
    have hlt := ha₁ c₁
    rw [Cursor.loop_eq_of_advances ha₁, Cursor.loop_eq_of_advances ha₂]
    cases h₁ : step₁ c₁ with
    | done b₁ d₁ =>
      rw [h₁] at hsim
      refine hsim.next (.refl _) ?_ (fun s hs => ?_) fun hmove htwin hcalm => ?_
      · cases h₂ : step₂ c₂ with
        | done b₂ d₂ => exact .refl _
        | next a₂ d₂ => exact hloop₂ d₂
      · exact hs
      · cases h₂ : step₂ c₂ with
        | done b₂ d₂ =>
          rw [h₂] at hmove htwin
          exact .same (congrArg _ (Sum.inr.inj hmove)) htwin hcalm
        | next a₂ d₂ =>
          rw [h₂] at hmove
          cases hmove
    | next a₁ d₁ =>
      rw [h₁] at hsim
      refine hsim.next (hloop₁ d₁) ?_ (fun s hs => ?_) fun hmove htwin hcalm => ?_
      · cases h₂ : step₂ c₂ with
        | done b₂ d₂ => exact .refl _
        | next a₂ d₂ => exact hloop₂ d₂
      · show s ∈ Symbol.walkAll (symbols (a₁ :: _) ++ symbols _)
        rw [symbols_cons, List.append_assoc, Symbol.walkAll_append]
        exact List.mem_append_left _ hs
      · cases h₂ : step₂ c₂ with
        | done b₂ d₂ =>
          rw [h₂] at hmove
          cases hmove
        | next a₂ d₂ =>
          rw [h₂] at hmove htwin
          have ha := Sum.inl.inj hmove
          have hrest : m.Sim (d₁.loop step₁ spent) (d₂.loop step₂ spent) :=
            ih d₁.rest.length (hn ▸ hlt a₁ d₁ h₁) htwin rfl
          refine hrest.next (.refl _) (.refl _) (fun s hs => ?_) fun hmove' htwin' hcalm' => ?_
          · show s ∈ Symbol.walkAll (symbols (a₁ :: _) ++ symbols _)
            rw [symbols_cons, List.append_assoc, Symbol.walkAll_append]
            exact List.mem_append_right _ hs
          · refine .same ?_ htwin' ?_
            · show (_ :: (d₂.loop step₂ spent).1.1, (d₂.loop step₂ spent).1.2) = _
              rw [hmove', ha]
              rfl
            · show m.Calm (symbols (a₁ :: _) ++ symbols _)
              rw [symbols_cons, List.append_assoc, calm_append]
              exact ⟨hcalm, hcalm'⟩

end Seam

end Calculation
