import Calculation.Statement.Expression

namespace Calculation.Cursor

/-- The end of the last of some lexemes; `before` when there are none. -/
def endOf (before : Nat) (ls : List Lexeme) : Nat :=
  ls.foldl (fun _ l => l.token.range.stop) before

@[simp] theorem endOf_nil (before : Nat) : endOf before [] = before := rfl

@[simp] theorem endOf_cons (before : Nat) (l : Lexeme) (ls : List Lexeme) :
    endOf before (l :: ls) = endOf l.token.range.stop ls := rfl

theorem endOf_append (before : Nat) (a b : List Lexeme) :
    endOf before (a ++ b) = endOf (endOf before a) b :=
  List.foldl_append

theorem endOf_eq_getLast (n : Nat) (l : Lexeme) (ls : List Lexeme) :
    ∃ x, (l :: ls).getLast? = some x ∧ endOf n (l :: ls) = x.token.range.stop := by
  induction ls generalizing n l with
  | nil => exact ⟨l, rfl, rfl⟩
  | cons l' ls ih =>
    obtain ⟨x, hx, he⟩ := ih l.token.range.stop l'
    exact ⟨x, by rw [List.getLast?_cons_cons, hx], he⟩

theorem endOf_mem (n : Nat) (l : Lexeme) (ls : List Lexeme) :
    ∃ x ∈ l :: ls, endOf n (l :: ls) = x.token.range.stop := by
  obtain ⟨x, hx, he⟩ := endOf_eq_getLast n l ls
  exact ⟨x, List.mem_of_getLast? hx, he⟩

/-- `d` is reached from `c` by taking lexemes and meeting events, all that was opened on the way being closed. -/
structure Onward (c d : Cursor) : Prop where
  rest : ∃ taken, c.rest = taken ++ d.rest ∧ d.lastEnd = endOf c.lastEnd taken
  trail : ∃ met, d.trail = met ++ c.trail
  closers : d.closers = c.closers
  scopes : d.scopes = c.scopes
  scans : d.scans = c.scans

namespace Onward

variable {c d e : Cursor}

theorem refl (c : Cursor) : Onward c c :=
  ⟨⟨[], rfl, rfl⟩, ⟨[], rfl⟩, rfl, rfl, rfl⟩

theorem trans (hcd : Onward c d) (hde : Onward d e) : Onward c e := by
  obtain ⟨a, har, hae⟩ := hcd.rest
  obtain ⟨b, hbr, hbe⟩ := hde.rest
  obtain ⟨m, hm⟩ := hcd.trail
  obtain ⟨n, hn⟩ := hde.trail
  refine ⟨⟨a ++ b, ?_, ?_⟩, ⟨n ++ m, ?_⟩, ?_, ?_, ?_⟩
  · rw [har, hbr, List.append_assoc]
  · rw [hbe, hae, endOf_append]
  · rw [hn, hm, List.append_assoc]
  · rw [hde.closers, hcd.closers]
  · rw [hde.scopes, hcd.scopes]
  · rw [hde.scans, hcd.scans]

theorem length_le (h : Onward c d) : d.rest.length ≤ c.rest.length := by
  obtain ⟨taken, hr, -⟩ := h.rest
  rw [hr, List.length_append]
  omega

theorem advance (c : Cursor) : Onward c c.advance := by
  unfold Cursor.advance
  split
  · exact refl c
  · rename_i l ls hl
    exact ⟨⟨[l], hl, rfl⟩, ⟨[], rfl⟩, rfl, rfl, rfl⟩

theorem skip (n : Nat) (c : Cursor) : Onward c (c.skip n) := by
  induction n generalizing c with
  | zero => exact refl c
  | succ n ih => exact (advance c).trans (ih c.advance)

theorem fault (c : Cursor) (cause : Cause) (r : Range) : Onward c (c.fault cause r) :=
  ⟨⟨[], rfl, rfl⟩, ⟨[_], rfl⟩, rfl, rfl, rfl⟩

theorem noteValid (c : Cursor) : Onward c c.noteValid := by
  unfold Cursor.noteValid
  split
  · exact ⟨⟨[], rfl, rfl⟩, ⟨[_], rfl⟩, rfl, rfl, rfl⟩
  · exact refl c

theorem finish (src : Source) (s : Symbol) (c : Cursor) : Onward c (c.finish src s).2 := by
  unfold Cursor.finish
  split
  · exact noteValid c
  · exact refl c

theorem leaf (src : Source) (name : String) (kind : Symbol.Kind) (r : Range) (isComplete : Bool) (c : Cursor) :
    Onward c (c.leaf src name kind r isComplete).2 :=
  finish src _ c

theorem of_take {t : Token} (h : c.take? = some (t, d)) : Onward c d := by
  unfold Cursor.take? at h
  obtain ⟨l, -, hl⟩ := Option.map_eq_some_iff.mp h
  cases hl
  exact advance c

theorem of_eat {k : Token.Kind} {t : Token} (h : c.eat? k = some (t, d)) : Onward c d := by
  unfold Cursor.eat? at h
  split at h
  · exact of_take h
  · cases h

theorem of_operator {t : Token} (h : c.operator? = some (t, d)) : Onward c d := by
  unfold Cursor.operator? at h
  split at h
  · exact of_take h
  · cases h

end Onward

theorem skip_eq (n : Nat) (c : Cursor) :
    c.skip n = { c with rest := c.rest.drop n, lastEnd := endOf c.lastEnd (c.rest.take n) } := by
  induction n generalizing c with
  | zero => rfl
  | succ n ih =>
    rw [Cursor.skip, ih]
    cases hl : c.rest with
    | nil => simp [Cursor.advance, hl]
    | cons l ls => simp [Cursor.advance, hl]

/-- A reading that leads onward from everywhere. -/
def Steady {α : Type} (read : Cursor → α × Cursor) : Prop :=
  ∀ c, Onward c (read c).2

/-- The same of a reading that may find nothing to read. -/
def Steady? {α : Type} (read? : Cursor → Option (α × Cursor)) : Prop :=
  ∀ c a d, read? c = some (a, d) → Onward c d

theorem Steady.inside {α : Type} {read : Cursor → α × Cursor} (h : Steady read) (closer : Token.Kind) :
    Steady (Cursor.inside closer read) := by
  intro c
  have hr := h { c with closers := closer :: c.closers }
  exact ⟨hr.rest, hr.trail, rfl, hr.scopes, hr.scans⟩

theorem Steady.inScope {α : Type} {read : Cursor → α × Cursor} (h : Steady read) (scope : Scope) :
    Steady (Cursor.inScope scope read) := by
  intro c
  have hr := h { c with scopes := scope :: c.scopes }
  exact ⟨hr.rest, hr.trail, hr.closers, rfl, hr.scans⟩

theorem Steady.scanning {α : Type} {read : Cursor → α × Cursor} (h : Steady read) :
    Steady (Cursor.scanning read) := by
  intro c
  have hr := h { c with scans := c.scans + 1 }
  exact ⟨hr.rest, hr.trail, hr.closers, hr.scopes, rfl⟩

theorem Steady.recording {α : Type} {read : Cursor → α × Cursor} (h : Steady read) :
    Steady (Cursor.recording read) := by
  intro c
  have hr := h { c with trail := [] }
  exact ⟨hr.rest, ⟨_, rfl⟩, hr.closers, hr.scopes, hr.scans⟩

/-- Where a round leads, whether it is the last or not. -/
def Round.cursor {α β : Type} : Round α β → Cursor
  | .next _ c => c
  | .done _ c => c

/-- What holds of a loop that ends at once, and of one more round before it, holds of every loop. -/
theorem rounds_rule {α β : Type} {step : Cursor → Round α β} {spent : β}
    {P : Cursor → List α × β → Cursor → Prop} (hspent : ∀ c, P c ([], spent) c)
    (hdone : ∀ c b d, step c = .done b d → P c ([], b) d)
    (hnext : ∀ c a d r e, step c = .next a d → P d r e → P c (a :: r.1, r.2) e) (n : Nat) (c : Cursor) :
    P c (rounds step spent n c).1 (rounds step spent n c).2 := by
  induction n generalizing c with
  | zero => exact hspent c
  | succ n ih =>
    unfold rounds
    cases hs : step c with
    | done b d => exact hdone c b d hs
    | next a d => exact hnext c a d _ _ hs (ih d)

theorem many_rule {α : Type} {read? : Cursor → Option (α × Cursor)} {P : Cursor → List α → Cursor → Prop}
    (hnil : ∀ c, P c [] c) (hcons : ∀ c a d as e, read? c = some (a, d) → P d as e → P c (a :: as) e)
    (c : Cursor) : P c (c.many read?).1 (c.many read?).2 := by
  unfold Cursor.many loop
  refine rounds_rule (fun c => hnil c) ?_ ?_ (c.rest.length + 1) c (P := fun c r e => P c r.1 e)
  · intro c b d hs
    cases hr : read? c with
    | none =>
      simp only [hr, Round.done.injEq] at hs
      exact hs.2 ▸ hnil c
    | some p => simp [hr] at hs
  · intro c a d r e hs hp
    cases hr : read? c with
    | none => simp [hr] at hs
    | some p =>
      simp only [hr, Round.next.injEq] at hs
      exact hcons c a d r.1 e (by rw [hr, ← hs.1, ← hs.2]) hp

theorem onward_rounds {α β : Type} {step : Cursor → Round α β} {spent : β}
    (h : ∀ c, Onward c (step c).cursor) (n : Nat) (c : Cursor) : Onward c (rounds step spent n c).2 := by
  refine rounds_rule (fun c => .refl c) ?_ ?_ n c (P := fun c _ e => Onward c e)
  · intro c b d hs
    have hc := h c
    rw [hs] at hc
    exact hc
  · intro c a d r e hs he
    have hc := h c
    rw [hs] at hc
    exact hc.trans he

theorem Steady?.many {α : Type} {read? : Cursor → Option (α × Cursor)} (h : Steady? read?) :
    Steady (Cursor.many read?) :=
  many_rule (fun c => .refl c) (fun c a d _ _ hr he => (h c a d hr).trans he) (P := fun c _ e => Onward c e)

/-- A reading that takes a lexeme whenever it succeeds; loops over it end by themselves. -/
def Takes {α : Type} (read? : Cursor → Option (α × Cursor)) : Prop :=
  ∀ c a d, read? c = some (a, d) → d.rest.length < c.rest.length

theorem many_induction {α : Type} {read? : Cursor → Option (α × Cursor)} {P : Cursor → List α → Cursor → Prop}
    (htakes : Takes read?) (hnone : ∀ c, read? c = none → P c [] c)
    (hsome : ∀ c a d as e, read? c = some (a, d) → P d as e → P c (a :: as) e) (c : Cursor) :
    P c (c.many read?).1 (c.many read?).2 := by
  induction hn : c.rest.length using Nat.strongRecOn generalizing c with
  | _ n ih =>
    rw [many_eq_of_advances htakes]
    cases hr : read? c with
    | none => exact hnone c hr
    | some p =>
      obtain ⟨a, d⟩ := p
      have hlt := htakes c a d hr
      exact hsome c a d _ _ hr (ih _ (hn ▸ hlt) d rfl)

theorem length_advance {c : Cursor} {l : Lexeme} {ls : List Lexeme} (h : c.rest = l :: ls) :
    c.advance.rest.length < c.rest.length := by
  simp [Cursor.advance, h]

theorem length_of_take {c d : Cursor} {t : Token} (h : c.take? = some (t, d)) :
    d.rest.length < c.rest.length := by
  unfold Cursor.take? at h
  obtain ⟨l, hl, he⟩ := Option.map_eq_some_iff.mp h
  cases he
  obtain ⟨ls, hls⟩ := List.head?_eq_some_iff.mp hl
  exact length_advance hls

theorem length_of_eat {c d : Cursor} {k : Token.Kind} {t : Token} (h : c.eat? k = some (t, d)) :
    d.rest.length < c.rest.length := by
  unfold Cursor.eat? at h
  split at h
  · exact length_of_take h
  · cases h

theorem length_of_operator {c d : Cursor} {t : Token} (h : c.operator? = some (t, d)) :
    d.rest.length < c.rest.length := by
  unfold Cursor.operator? at h
  split at h
  · exact length_of_take h
  · cases h

end Calculation.Cursor
