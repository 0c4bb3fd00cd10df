import Calculation.Proofs.Reading.Progress
import Calculation.Proofs.Seam.Moves

/-!
Two readings of the same lexemes with different things behind them. They go side by side up to the seam, where the
lexemes end that they share. Behind it both see the same lexeme, or the first one sees nothing and the second one
what starts an expression behind a blank line. What the readings have in common is stated once; the few places
where the second one can be led over the seam leave a mark in what the first one gives.
-/
namespace Calculation

open Movable

/-- The lexemes that two readings share, moved for the second one, and what stands behind them for each. -/
structure Seam where
  src₁ : Source
  src₂ : Source
  bytes : Nat
  lines : Nat
  before : List Lexeme
  rest₁ : List Lexeme
  rest₂ : List Lexeme
  /-- No shared lexeme ends behind this offset of the first text. -/
  size : Nat

namespace Seam

/-- The lexemes start with a dot and a field. -/
def qualifies : List Lexeme → Bool
  | dot :: field :: _ => dot.token.kind == .dot && field.token.kind == .field
  | _ => false

def startsWith (kind : Token.Kind) (ls : List Lexeme) : Bool :=
  ls.head?.map (·.token.kind) == some kind

/-- What stands behind the seam: nothing, the same lexeme, or for the second reading alone an expression behind a
blank line. -/
inductive Joint (m : Seam) : Prop
  | ends (h₁ : m.rest₁ = []) (h₂ : m.rest₂ = [])
  | ahead (l : Lexeme) (ls₁ ls₂ : List Lexeme) (h₁ : m.rest₁ = l :: ls₁)
    (h₂ : m.rest₂ = l.shifted m.bytes :: ls₂)
  | blank (l : Lexeme) (ls : List Lexeme) (h₁ : m.rest₁ = []) (h₂ : m.rest₂ = l :: ls)
    (hblank : l.afterBlank = true) (hstarts : l.token.kind.startsExpression = true)

structure Sound (m : Seam) : Prop where
  options : m.src₂.options = m.src₁.options
  ranges : Range.InLine 0 m.size (m.before.map (·.token.range))
  proper : ∀ l ∈ m.before, l.token.range.start < l.token.range.stop
  continuation : ∀ r : Range, r.start ≤ r.stop → r.stop ≤ m.size →
    m.src₂.lines.continuation (r.shifted m.bytes) = movedLines (m.src₁.lines.continuation r) m.lines
  trimmed : ∀ r : Range, r.start ≤ r.stop → r.stop ≤ m.size →
    m.src₂.trimmed (r.shifted m.bytes) = m.src₁.trimmed r
  joint : m.Joint

def shifted (m : Seam) (v : List Lexeme) : List Lexeme :=
  v.map (·.shifted m.bytes)

/-- The shared lexemes end with a word that is a call only for the second reading. -/
def OpenCall (m : Seam) : Prop :=
  (∃ pre l, m.before = pre ++ [l] ∧ l.token.kind = .identifier) ∧ startsWith .leftParen m.rest₁ = false ∧
    startsWith .leftParen m.rest₂ = true

/-- A field with the shared lexemes `v` behind it is qualified only for the second reading. -/
def OpenReference (m : Seam) (v : List Lexeme) : Prop :=
  qualifies (v ++ m.rest₁) = false ∧ qualifies (m.shifted v ++ m.rest₂) = true

/-- A run that starts with `l` and is skipped takes the shared lexemes `v` behind it, and more only for the second
reading. -/
def OpenRun (m : Seam) (l : Lexeme) (v : List Lexeme) : Prop :=
  Statement.runLength ((Statement.balanceBehind? 0 l.token.kind).getD 0) (v ++ m.rest₁) = v.length ∧
    v.length < Statement.runLength ((Statement.balanceBehind? 0 l.token.kind).getD 0) (m.shifted v ++ m.rest₂)

/-- A complete reference without qualifier that the second reading would have qualified. -/
def MarksSymbol (m : Seam) (s : Symbol) : Prop :=
  s.kind = .field none ∧ s.isComplete = true ∧
    ∃ pre l v, m.before = pre ++ l :: v ∧ s.range = l.token.range ∧ m.OpenReference v

/-- A report of too deep nesting where the second reading would have skipped more. -/
def MarksEvent (m : Seam) (e : Event) : Prop :=
  ∃ d pre l v, e = .fault d ∧ d.code = .tooDeep ∧ m.before = pre ++ l :: v ∧
    d.range.start = l.token.range.start ∧ m.OpenRun l v

def Calm (m : Seam) (ss : List Symbol) : Prop :=
  ∀ s ∈ Symbol.walkAll ss, ¬m.MarksSymbol s

/-- What the first reading met or gave shows that the second one went over the seam. -/
def Marked (m : Seam) (c : Cursor) (ss : List Symbol) : Prop :=
  (∃ e ∈ c.trail, m.MarksEvent e) ∨ m.OpenCall ∨ ∃ s ∈ Symbol.walkAll ss, m.MarksSymbol s

/-- Two cursors at the same place: the shared lexemes `v` are still to come. -/
structure Raw (m : Seam) (v : List Lexeme) (c₁ c₂ : Cursor) : Prop where
  rest₁ : c₁.rest = v ++ m.rest₁
  rest₂ : c₂.rest = m.shifted v ++ m.rest₂
  left : ∃ pre, m.before = pre ++ v
  lastEnd_le : c₁.lastEnd ≤ m.size
  lastEnd : ∀ n, max c₂.lastEnd (n + m.bytes) = max c₁.lastEnd n + m.bytes
  trail : c₂.trail = c₁.trail.map (·.shifted m.bytes)
  calm : ∀ e ∈ c₁.trail, ¬m.MarksEvent e
  closers : c₂.closers = c₁.closers
  scopes : c₂.scopes = c₁.scopes
  scans : c₂.scans = c₁.scans

/-- The same, and if the seam has been reached no call was left open there. -/
structure TwinAt (m : Seam) (v : List Lexeme) (c₁ c₂ : Cursor) : Prop extends Raw m v c₁ c₂ where
  call : v = [] → ¬m.OpenCall

def Twin (m : Seam) (c₁ c₂ : Cursor) : Prop :=
  ∃ v, m.TwinAt v c₁ c₂

/-- The first reading has gone over the seam. -/
def Lost₁ (m : Seam) (c : Cursor) : Prop :=
  c.rest.length < m.rest₁.length

def Lost₂ (m : Seam) (c : Cursor) : Prop :=
  c.rest.length < m.rest₂.length

/-- How two readings end: the first one has gone over the seam, or both gave the same, moved, and are at the same
place, or only the second one went over the seam and the first one shows it. -/
def Sim (m : Seam) {α : Type} [Movable α] (x₁ x₂ : α × Cursor) : Prop :=
  m.Lost₁ x₁.2 ∨ (x₂.1 = move m.bytes m.lines x₁.1 ∧ m.Twin x₁.2 x₂.2 ∧ m.Calm (symbols x₁.1)) ∨
    (m.Lost₂ x₂.2 ∧ m.Marked x₁.2 (symbols x₁.1))

/-- A range among the shared lexemes. -/
structure Past (m : Seam) (r : Range) : Prop where
  proper : r.start ≤ r.stop
  stop : r.stop ≤ m.size

variable {m : Seam} {v : List Lexeme} {c₁ c₂ d₁ d₂ : Cursor} {α β γ : Type} [Movable α] [Movable β] [Movable γ]

theorem Lost₁.onward (h : m.Lost₁ c₁) (ho : Cursor.Onward c₁ d₁) : m.Lost₁ d₁ :=
  Nat.lt_of_le_of_lt ho.length_le h

theorem Lost₂.onward (h : m.Lost₂ c₂) (ho : Cursor.Onward c₂ d₂) : m.Lost₂ d₂ :=
  Nat.lt_of_le_of_lt ho.length_le h

theorem Marked.onward {ss ss' : List Symbol} (h : m.Marked c₁ ss) (ho : Cursor.Onward c₁ d₁)
    (hs : ∀ s ∈ Symbol.walkAll ss, s ∈ Symbol.walkAll ss') : m.Marked d₁ ss' := by
  rcases h with ⟨e, he, hm⟩ | h | ⟨s, hmem, hm⟩
  · obtain ⟨met, hmet⟩ := ho.trail
    exact .inl ⟨e, hmet ▸ List.mem_append_right met he, hm⟩
  · exact .inr (.inl h)
  · exact .inr (.inr ⟨s, hs s hmem, hm⟩)

@[simp] theorem calm_nil : m.Calm [] := by
  simp [Calm, Symbol.walkAll]

@[simp] theorem calm_append {as bs : List Symbol} : m.Calm (as ++ bs) ↔ m.Calm as ∧ m.Calm bs := by
  simp only [Calm, Symbol.walkAll_append, List.mem_append]
  constructor
  · intro h
    exact ⟨fun s hs => h s (.inl hs), fun s hs => h s (.inr hs)⟩
  · intro h s hs
    exact hs.elim (h.1 s) (h.2 s)

/-- Only a complete reference without qualifier leaves a mark of its own. -/
theorem calm_one {s : Symbol} (hs : ¬m.MarksSymbol s) (hc : m.Calm s.children) : m.Calm [s] := by
  intro x hx
  rw [Symbol.walkAll_singleton, Symbol.walk_eq] at hx
  rcases List.mem_cons.mp hx with rfl | hx
  · exact hs
  · exact hc x hx

theorem mem_walkAll_one {x s : Symbol} (h : s ∈ Symbol.walkAll x.children) : s ∈ Symbol.walkAll [x] := by
  rw [Symbol.walkAll_singleton, Symbol.walk_eq]
  exact List.mem_cons_of_mem _ h

theorem unmarked_of_kind {s : Symbol} (h : s.kind ≠ .field none) : ¬m.MarksSymbol s :=
  fun hm => h hm.1

/-- The first reading has gone over the seam already. -/
theorem Sim.lost {x₁ x₂ : α × Cursor} (h : m.Lost₁ c₁) (ho : Cursor.Onward c₁ x₁.2) : m.Sim x₁ x₂ :=
  .inl (h.onward ho)

/-- Two readings in a row: it is enough to go on where the first two end as twins. -/
theorem Sim.next {x₁ x₂ : α × Cursor} {y₁ y₂ : β × Cursor} (h : m.Sim x₁ x₂)
    (ho₁ : Cursor.Onward x₁.2 y₁.2) (ho₂ : Cursor.Onward x₂.2 y₂.2)
    (hs : ∀ s ∈ Symbol.walkAll (symbols x₁.1), s ∈ Symbol.walkAll (symbols y₁.1))
    (hnext : x₂.1 = move m.bytes m.lines x₁.1 → m.Twin x₁.2 x₂.2 → m.Calm (symbols x₁.1) → m.Sim y₁ y₂) :
    m.Sim y₁ y₂ := by
  rcases h with hlost | ⟨hmove, htwin, hcalm⟩ | ⟨hlost, hmark⟩
  · exact .inl (hlost.onward ho₁)
  · exact hnext hmove htwin hcalm
  · exact .inr (.inr ⟨hlost.onward ho₂, hmark.onward ho₁ hs⟩)

/-- Both went the same way and are twins. -/
theorem Sim.same {a₁ a₂ : α} (hmove : a₂ = move m.bytes m.lines a₁) (htwin : m.Twin c₁ c₂)
    (hcalm : m.Calm (symbols a₁)) : m.Sim (a₁, c₁) (a₂, c₂) :=
  .inr (.inl ⟨hmove, htwin, hcalm⟩)

/-- What is read in a row and put together, where all the symbols are kept. -/
theorem Sim.both {x₁ x₂ : α × Cursor} {y₁ y₂ : β × Cursor} (f g : α → β → γ)
    (hsymbols : ∀ a b, symbols (f a b) = symbols a ++ symbols b)
    (hmove : ∀ a b, g (move m.bytes m.lines a) (move m.bytes m.lines b) = move m.bytes m.lines (f a b))
    (h : m.Sim x₁ x₂) (ho₁ : Cursor.Onward x₁.2 y₁.2) (ho₂ : Cursor.Onward x₂.2 y₂.2)
    (hnext : m.Twin x₁.2 x₂.2 → m.Sim y₁ y₂) : m.Sim (f x₁.1 y₁.1, y₁.2) (g x₂.1 y₂.1, y₂.2) := by
  refine h.next ho₁ ho₂ ?_ fun hx htwin hcalm => ?_
  · intro s hs
    simp only [hsymbols, Symbol.walkAll_append, List.mem_append]
    exact .inl hs
  · refine (hnext htwin).next (.refl _) (.refl _) ?_ fun hy htwin' hcalm' => ?_
    · intro s hs
      simp only [hsymbols, Symbol.walkAll_append, List.mem_append]
      exact .inr hs
    · refine .same ?_ htwin' ?_
      · rw [hx, hy, hmove]
      · rw [hsymbols, calm_append]
        exact ⟨hcalm, hcalm'⟩

/-- What is read and then put into another form with the same symbols. -/
theorem Sim.map {x₁ x₂ : α × Cursor} (f g : α → β) (hsymbols : ∀ a, symbols (f a) = symbols a)
    (hmove : ∀ a, g (move m.bytes m.lines a) = move m.bytes m.lines (f a)) (h : m.Sim x₁ x₂) :
    m.Sim (f x₁.1, x₁.2) (g x₂.1, x₂.2) := by
  refine h.next (.refl _) (.refl _) ?_ fun hx htwin hcalm => ?_
  · intro s hs
    rw [hsymbols]
    exact hs
  · refine .same ?_ htwin ?_
    · rw [hx, hmove]
    · rw [hsymbols]
      exact hcalm

/-- What is read, and then the cursor goes on. -/
theorem Sim.goOn {x₁ x₂ : α × Cursor} {f g : Cursor → Cursor} (h : m.Sim x₁ x₂)
    (ho₁ : Cursor.Onward x₁.2 (f x₁.2)) (ho₂ : Cursor.Onward x₂.2 (g x₂.2))
    (hstep : m.Twin x₁.2 x₂.2 → m.Lost₁ (f x₁.2) ∨ m.Twin (f x₁.2) (g x₂.2)) :
    m.Sim (x₁.1, f x₁.2) (x₂.1, g x₂.2) := by
  refine h.next ho₁ ho₂ (fun s hs => hs) fun hmove htwin hcalm => ?_
  rcases hstep htwin with hlost | htwin'
  · exact .inl hlost
  · exact .same hmove htwin' hcalm

theorem shifted_cons (m : Seam) (l : Lexeme) (v : List Lexeme) :
    m.shifted (l :: v) = l.shifted m.bytes :: m.shifted v := rfl

@[simp] theorem shifted_nil (m : Seam) : m.shifted [] = [] := rfl

@[simp] theorem length_shifted (m : Seam) (v : List Lexeme) : (m.shifted v).length = v.length :=
  List.length_map _

@[simp] theorem kind_shifted (l : Lexeme) (n : Nat) : (l.shifted n).token.kind = l.token.kind := rfl

@[simp] theorem blank_shifted (l : Lexeme) (n : Nat) : (l.shifted n).afterBlank = l.afterBlank := rfl

/-- Twins both see nothing, or the first one nothing and the second one an expression behind a blank line, or both
see the same lexeme, which is a shared one or stands behind the seam. -/
inductive Heads (m : Seam) (c₁ c₂ : Cursor) : Prop
  | none (h₁ : c₁.rest = []) (h₂ : c₂.rest = [])
  | blank (l : Lexeme) (ls : List Lexeme) (h₁ : c₁.rest = []) (h₂ : c₂.rest = l :: ls)
    (hblank : l.afterBlank = true) (hstarts : l.token.kind.startsExpression = true)
  | same (l : Lexeme) (ls₁ ls₂ : List Lexeme) (h₁ : c₁.rest = l :: ls₁)
    (h₂ : c₂.rest = l.shifted m.bytes :: ls₂) (hl : m.Past l.token.range ∨ c₁.rest = m.rest₁)

theorem Raw.past {l : Lexeme} (hm : m.Sound) (hc : m.Raw (l :: v) c₁ c₂) : m.Past l.token.range := by
  obtain ⟨pre, hpre⟩ := hc.left
  have hmem : l ∈ m.before := hpre ▸ List.mem_append_right pre List.mem_cons_self
  exact ⟨Nat.le_of_lt (hm.proper l hmem), (hm.ranges.bounds l.token.range (List.mem_map_of_mem hmem)).2.2⟩

theorem Raw.heads (hm : m.Sound) (hc : m.Raw v c₁ c₂) : m.Heads c₁ c₂ := by
  have h₁ := hc.rest₁
  have h₂ := hc.rest₂
  cases v with
  | nil =>
    rw [List.nil_append] at h₁
    rw [shifted_nil, List.nil_append] at h₂
    cases hm.joint with
    | ends e₁ e₂ => exact .none (h₁.trans e₁) (h₂.trans e₂)
    | ahead l ls₁ ls₂ e₁ e₂ => exact .same l ls₁ ls₂ (h₁.trans e₁) (h₂.trans e₂) (.inr h₁)
    | blank l ls e₁ e₂ hb hs => exact .blank l ls (h₁.trans e₁) (h₂.trans e₂) hb hs
  | cons l v => exact .same l _ _ h₁ h₂ (.inl (hc.past hm))

theorem Twin.heads (hm : m.Sound) (hc : m.Twin c₁ c₂) : m.Heads c₁ c₂ := by
  obtain ⟨v, hv⟩ := hc
  exact hv.toRaw.heads hm

/-- What takes a lexeme at the seam goes over it. -/
theorem lost_of_takes (h : c₁.rest = m.rest₁) (hd : d₁.rest.length < c₁.rest.length) : m.Lost₁ d₁ := by
  rw [h] at hd
  exact hd

theorem Raw.advance {l : Lexeme} (hm : m.Sound) (hc : m.Raw (l :: v) c₁ c₂) :
    m.Raw v c₁.advance c₂.advance := by
  have h₁ := hc.rest₁
  have h₂ := hc.rest₂
  rw [List.cons_append] at h₁
  rw [shifted_cons, List.cons_append] at h₂
  have hpast := hc.past hm
  obtain ⟨pre, hpre⟩ := hc.left
  have hleft : m.before = (pre ++ [l]) ++ v := by
    rw [hpre, List.append_assoc]
    rfl
  have e₁ : c₁.advance = { c₁ with rest := v ++ m.rest₁, lastEnd := l.token.range.stop } := by
    simp only [Cursor.advance, h₁]
  have e₂ : c₂.advance =
      { c₂ with rest := m.shifted v ++ m.rest₂, lastEnd := l.token.range.stop + m.bytes } := by
    simp only [Cursor.advance, h₂, Lexeme.shifted, Token.shifted, Range.shifted_nat]
  rw [e₁, e₂]
  exact ⟨rfl, rfl, ⟨pre ++ [l], hleft⟩, hpast.stop, fun n => Nat.add_max_add_right .., hc.trail, hc.calm,
    hc.closers, hc.scopes, hc.scans⟩

/-- No call is left open where the last lexeme taken is no word. -/
theorem Raw.twinAt {pre : List Lexeme} {l : Lexeme} (hc : m.Raw v c₁ c₂) (hl : m.before = pre ++ l :: v)
    (hk : l.token.kind ≠ .identifier) : m.TwinAt v c₁ c₂ := by
  refine ⟨hc, ?_⟩
  rintro rfl ⟨⟨pre', l', hl', hk'⟩, -⟩
  apply hk
  have hlast : l = l' := by simpa using congrArg List.getLast? (hl.symm.trans hl')
  rw [hlast, hk']

theorem TwinAt.advance {l : Lexeme} (hm : m.Sound) (hc : m.TwinAt (l :: v) c₁ c₂)
    (hk : l.token.kind ≠ .identifier) : m.Twin c₁.advance c₂.advance := by
  obtain ⟨pre, hpre⟩ := hc.left
  exact ⟨v, (hc.toRaw.advance hm).twinAt hpre hk⟩

/-- Twins that take a lexeme other than a word stay twins, or the first one goes over the seam. -/
theorem Twin.advance {l : Lexeme} {ls : List Lexeme} (hm : m.Sound) (hc : m.Twin c₁ c₂) (hl : c₁.rest = l :: ls)
    (hk : l.token.kind ≠ .identifier) :
    m.Lost₁ c₁.advance ∨ m.Twin c₁.advance c₂.advance ∧ m.Past l.token.range := by
  obtain ⟨v, hv⟩ := hc
  cases v with
  | nil => exact .inl (lost_of_takes hv.rest₁ (Cursor.length_advance hl))
  | cons x v =>
    obtain ⟨rfl, -⟩ : x = l ∧ v ++ m.rest₁ = ls := List.cons.inj (hv.rest₁.symm.trans hl)
    exact .inr ⟨hv.advance hm hk, hv.past hm⟩

/-- Both found nothing to take, or both took the same token. -/
def Met (m : Seam) (x₁ x₂ : Option (Token × Cursor)) : Prop :=
  (x₁ = none ∧ x₂ = none) ∨ ∃ t d₁ d₂, x₁ = some (t, d₁) ∧ x₂ = some (t.shifted m.bytes, d₂) ∧
    (m.Lost₁ d₁ ∨ m.Twin d₁ d₂ ∧ m.Past t.range)

/-- Whether an operand stands here is seen alike, for a blank line hides it. -/
theorem Twin.atOperand (hm : m.Sound) (hc : m.Twin c₁ c₂) : c₂.atOperand = c₁.atOperand := by
  cases hc.heads hm with
  | none h₁ h₂ => simp [Cursor.atOperand, Cursor.kind?, h₁, h₂]
  | blank l ls h₁ h₂ hb hs => simp [Cursor.atOperand, Cursor.kind?, Cursor.afterBlank, h₁, h₂, hb]
  | same l ls₁ ls₂ h₁ h₂ hl => simp [Cursor.atOperand, Cursor.kind?, Cursor.afterBlank, h₁, h₂]

/-- What starts no expression is seen alike. -/
theorem Twin.any_kind (hm : m.Sound) (hc : m.Twin c₁ c₂) {p : Token.Kind → Bool}
    (hp : ∀ k, k.startsExpression = true → p k = false) : c₂.kind?.any p = c₁.kind?.any p := by
  cases hc.heads hm with
  | none h₁ h₂ => simp [Cursor.kind?, h₁, h₂]
  | blank l ls h₁ h₂ hb hs => simp [Cursor.kind?, h₁, h₂, hp _ hs]
  | same l ls₁ ls₂ h₁ h₂ hl => simp [Cursor.kind?, h₁, h₂]

theorem isAt_eq_any (c : Cursor) (k : Token.Kind) : c.isAt k = c.kind?.any (· == k) := by
  unfold Cursor.isAt
  cases c.kind? with
  | none => rfl
  | some x => rfl

theorem Twin.isAt (hm : m.Sound) (hc : m.Twin c₁ c₂) {k : Token.Kind} (hk : k.startsExpression = false) :
    c₂.isAt k = c₁.isAt k := by
  rw [isAt_eq_any, isAt_eq_any]
  apply hc.any_kind hm
  intro x hx
  apply beq_eq_false_iff_ne.mpr
  rintro rfl
  rw [hk] at hx
  cases hx

/-- The end of the text looks like a blank line. -/
theorem Twin.atBreak (hm : m.Sound) (hc : m.Twin c₁ c₂) :
    (c₂.atEnd || c₂.afterBlank) = (c₁.atEnd || c₁.afterBlank) := by
  cases hc.heads hm with
  | none h₁ h₂ => simp [Cursor.atEnd, h₁, h₂]
  | blank l ls h₁ h₂ hb hs => simp [Cursor.atEnd, Cursor.afterBlank, h₁, h₂, hb]
  | same l ls₁ ls₂ h₁ h₂ hl => simp [Cursor.atEnd, Cursor.afterBlank, h₁, h₂]

theorem Twin.advance_at (hm : m.Sound) (hc : m.Twin c₁ c₂) {k : Token.Kind} (h : c₁.isAt k = true)
    (hk : k ≠ .identifier) : m.Lost₁ c₁.advance ∨ m.Twin c₁.advance c₂.advance := by
  cases hl : c₁.rest with
  | nil => simp [Cursor.isAt, Cursor.kind?, hl] at h
  | cons l ls =>
    have hlk : l.token.kind = k := by simpa [Cursor.isAt, Cursor.kind?, hl] using h
    exact (hc.advance hm hl (hlk ▸ hk)).imp id And.left

theorem Twin.closers (hc : m.Twin c₁ c₂) : c₂.closers = c₁.closers := by
  obtain ⟨v, hv⟩ := hc
  exact hv.closers

theorem Twin.scopes (hc : m.Twin c₁ c₂) : c₂.scopes = c₁.scopes := by
  obtain ⟨v, hv⟩ := hc
  exact hv.scopes

theorem Twin.scans (hc : m.Twin c₁ c₂) : c₂.scans = c₁.scans := by
  obtain ⟨v, hv⟩ := hc
  exact hv.scans

/-- A block is interrupted for both or for none. -/
theorem Twin.isInterrupted (hm : m.Sound) (hc : m.Twin c₁ c₂) :
    Statement.isInterrupted c₂ = Statement.isInterrupted c₁ := by
  unfold Statement.isInterrupted
  cases hc.heads hm with
  | none h₁ h₂ => simp [Cursor.kind?, h₁, h₂]
  | blank l ls h₁ h₂ hb hs =>
    have hk : l.token.kind.isBlockContinuation = false := by
      cases h : l.token.kind <;> simp_all [Token.Kind.startsExpression, Token.Kind.isBlockContinuation]
    simp [Cursor.kind?, Cursor.afterBlank, h₁, h₂, hb, hk]
  | same l ls₁ ls₂ h₁ h₂ hl =>
    simp [Cursor.kind?, Cursor.afterBlank, Cursor.atCloser, h₁, h₂, hc.closers]

/-- Both take the lexeme in front, or neither does because the first one sees nothing. -/
theorem Twin.take_of (hm : m.Sound) (hc : m.Twin c₁ c₂) {p : Cursor → Bool} (hp : p c₂ = p c₁)
    (hk : p c₁ = true → ∃ k, c₁.kind? = some k ∧ k ≠ .identifier) :
    m.Met (if p c₁ then c₁.take? else none) (if p c₂ then c₂.take? else none) := by
  rw [hp]
  by_cases h : p c₁ = true
  · rw [if_pos h, if_pos h]
    obtain ⟨k, hkind, hne⟩ := hk h
    cases hc.heads hm with
    | none h₁ h₂ => simp [Cursor.kind?, h₁] at hkind
    | blank l ls h₁ h₂ hb hs => simp [Cursor.kind?, h₁] at hkind
    | same l ls₁ ls₂ h₁ h₂ hl =>
      have hl : l.token.kind = k := by simpa [Cursor.kind?, h₁] using hkind
      refine .inr ⟨l.token, c₁.advance, c₂.advance, ?_, ?_, hc.advance hm h₁ (hl ▸ hne)⟩
      · simp [Cursor.take?, h₁]
      · simp [Cursor.take?, h₂, Lexeme.shifted]
  · rw [if_neg h, if_neg h]
    exact .inl ⟨rfl, rfl⟩

theorem Twin.eat (hm : m.Sound) (hc : m.Twin c₁ c₂) {k : Token.Kind} (hk : k.startsExpression = false) :
    m.Met (c₁.eat? k) (c₂.eat? k) := by
  refine hc.take_of hm (p := fun c => c.isAt k) (hc.isAt hm hk) fun h => ⟨k, ?_, ?_⟩
  · exact beq_iff_eq.mp h
  · rintro rfl
    cases hk

theorem Twin.operator (hm : m.Sound) (hc : m.Twin c₁ c₂) : m.Met c₁.operator? c₂.operator? := by
  refine hc.take_of hm (p := fun c => c.kind?.any Token.Kind.isBinaryOperator && !c.afterBlank) ?_ ?_
  · cases hc.heads hm with
    | none h₁ h₂ => simp [Cursor.kind?, h₁, h₂]
    | blank l ls h₁ h₂ hb hs => simp [Cursor.kind?, Cursor.afterBlank, h₁, h₂, hb]
    | same l ls₁ ls₂ h₁ h₂ hl => simp [Cursor.kind?, Cursor.afterBlank, h₁, h₂]
  · intro h
    cases hk : c₁.kind? with
    | none => simp [hk] at h
    | some k =>
      refine ⟨k, rfl, ?_⟩
      rintro rfl
      simp [hk, Token.Kind.isBinaryOperator] at h

end Seam

end Calculation
