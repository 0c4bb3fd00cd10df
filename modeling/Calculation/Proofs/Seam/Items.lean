import Calculation.Proofs.Document.Statements
import Calculation.Proofs.Seam.Nesting

namespace Calculation

open Movable Statement

namespace Seam

variable {m : Seam} {v : List Lexeme} {lo₁ hi₁ lo₂ hi₂ : Nat}

/-- The item holds the mark of a place where only the second reading goes over the seam. -/
def MarksItem (m : Seam) (i : Item) : Prop :=
  (∃ e ∈ i.events, m.MarksEvent e) ∨ ∃ s ∈ Symbol.walkAll i.symbols, m.MarksSymbol s

theorem twin_start (hv : ∃ pre, m.before = pre ++ v) (hne : v ≠ []) :
    m.Twin (.start (v ++ m.rest₁)) (.start (m.shifted v ++ m.rest₂)) := by
  refine ⟨v, ⟨rfl, rfl, hv, Nat.zero_le _, fun n => ?_, rfl, ?_, rfl, rfl, rfl⟩, fun h => absurd h hne⟩
  · simp [Cursor.start]
  · simp [Cursor.start]

/-- How the two readings go on from a statement that the seam is behind. -/
theorem nextItem_sim (hm : m.Sound) {l : Lexeme} {ls : List Lexeme} (hv : ∃ pre, m.before = pre ++ l :: ls) :
    let x₁ := nextItem m.src₁ l (ls ++ m.rest₁)
    let x₂ := nextItem m.src₂ (l.shifted m.bytes) (m.shifted ls ++ m.rest₂)
    x₁.2.rest.length < m.rest₁.length ∨
      (x₂.1 = move m.bytes m.lines x₁.1 ∧ ¬m.MarksItem x₁.1 ∧ m.Twin x₁.2 x₂.2) ∨
      (x₂.2.rest.length < m.rest₂.length ∧ (m.OpenCall ∨ m.MarksItem x₁.1)) := by
  dsimp only [nextItem]
  rcases statement_sim hm (twin_start hv (by simp)) rfl rfl with hlost | ⟨hmove, htwin, hcalm⟩ | ⟨hlost, hmark⟩
  · exact .inl hlost
  · refine .inr (.inl ⟨?_, ?_, htwin⟩)
    · obtain ⟨w, hw⟩ := htwin
      have htrail := hw.trail
      have hsince := hw.lastEnd l.token.range.start
      simp only [move, Item.shifted, Item.mk.injEq, true_and]
      refine ⟨?_, hmove, ?_⟩
      · simp only [Cursor.since, Lexeme.shifted, Token.shifted, Range.shifted_nat, Range.mk.injEq, true_and]
        exact hsince
      · rw [List.map_reverse]
        exact congrArg List.reverse htrail
    · obtain ⟨w, hw⟩ := htwin
      rintro (⟨e, he, hmark⟩ | ⟨s, hs, hmark⟩)
      · exact hw.calm e (List.mem_reverse.mp he) hmark
      · exact hcalm s (by simpa [symbols_list] using hs) hmark
  · refine .inr (.inr ⟨hlost, ?_⟩)
    rcases hmark with ⟨e, he, hmark⟩ | hopen | ⟨s, hs, hmark⟩
    · exact .inr (.inl ⟨e, List.mem_reverse.mpr he, hmark⟩)
    · exact .inl hopen
    · exact .inr (.inr ⟨s, by simpa [symbols_list] using hs, hmark⟩)

/-- What the two readings make of the lexemes in front of the seam, when no statement of the first one goes over
it: the second one gives the same, moved, or goes over it where the first one has a mark. -/
def Parts (m : Seam) (v : List Lexeme) (is : List Item) : Prop :=
  (readAll m.src₂ (m.shifted v ++ m.rest₂) = move m.bytes m.lines is ++ readAll m.src₂ m.rest₂ ∧
      (∀ i ∈ is, ¬m.MarksItem i) ∧ (v ≠ [] → ¬m.OpenCall)) ∨
    (Straddles m.src₂ (m.shifted v) m.rest₂ ∧ (m.OpenCall ∨ ∃ i ∈ is, m.MarksItem i))

theorem readAll_sim (hm : m.Sound) (hv : ∃ pre, m.before = pre ++ v)
    (h₁ : Range.InLine lo₁ hi₁ ((v ++ m.rest₁).map (·.token.range)))
    (h₂ : Range.InLine lo₂ hi₂ ((m.shifted v ++ m.rest₂).map (·.token.range))) :
    Straddles m.src₁ v m.rest₁ ∨ ∃ is, readAll m.src₁ (v ++ m.rest₁) = is ++ readAll m.src₁ m.rest₁ ∧
      (∀ i ∈ is, ∃ x ∈ v, i.range.stop = x.token.range.stop) ∧ m.Parts v is := by
  induction hn : v.length using Nat.strongRecOn generalizing v lo₁ lo₂ with
  | _ n ih =>
    cases v with
    | nil => exact .inr ⟨[], rfl, by simp, .inl ⟨rfl, by simp, fun h => absurd rfl h⟩⟩
    | cons l ls =>
      rcases nextItem_cut m.src₁ h₁ (rfl : l :: (ls ++ m.rest₁) = l :: ls ++ m.rest₁) (by simp) with
        hover | ⟨taken, v', hv', hrest, hx⟩
      · exact .inl hover
      -- The statement ends in front of the seam in the first reading; the others are those of `v'`.
      have hlen : v'.length < n := by
        rw [← hn, hv', List.length_append, List.length_cons]
        omega
      have hpre : ∃ pre, m.before = pre ++ v' := by
        obtain ⟨pre, hpre⟩ := hv
        exact ⟨pre ++ (l :: taken), by rw [hpre, hv', List.append_assoc]⟩
      have hin₁ : Range.InLine lo₁ hi₁ ((v' ++ m.rest₁).map (·.token.range)) := by
        rw [hv', List.append_assoc] at h₁
        exact h₁.sublist ((List.sublist_append_right _ _).map _)
      have hsh : m.shifted (l :: ls) = m.shifted (l :: taken) ++ m.shifted v' := by
        rw [hv']
        exact List.map_append
      have hin₂ : Range.InLine lo₂ hi₂ ((m.shifted v' ++ m.rest₂).map (·.token.range)) := by
        rw [hsh, List.append_assoc] at h₂
        exact h₂.sublist ((List.sublist_append_right _ _).map _)
      have hcons : ∀ is, readAll m.src₁ (v' ++ m.rest₁) = is ++ readAll m.src₁ m.rest₁ →
          readAll m.src₁ (l :: ls ++ m.rest₁) =
            ((nextItem m.src₁ l (ls ++ m.rest₁)).1 :: is) ++ readAll m.src₁ m.rest₁ := by
        intro is his
        rw [List.cons_append, readAll_cons, hrest, his, List.cons_append]
      have hstops : ∀ {is : List Item}, (∀ i ∈ is, ∃ x ∈ v', i.range.stop = x.token.range.stop) →
          ∀ i ∈ (nextItem m.src₁ l (ls ++ m.rest₁)).1 :: is, ∃ x ∈ l :: ls, i.range.stop = x.token.range.stop := by
        intro is his
        refine List.forall_mem_cons.mpr ⟨hx, fun i hi => ?_⟩
        obtain ⟨x, hx, he⟩ := his i hi
        exact ⟨x, hv' ▸ List.mem_append_right _ hx, he⟩
      rcases nextItem_sim hm hv with hlost | ⟨hmove, hcalm, htwin⟩ | ⟨hlost, hmark⟩
      · rw [hrest, List.length_append] at hlost
        omega
      · obtain ⟨w, hw⟩ := htwin
        obtain rfl : v' = w := List.append_cancel_right (hrest.symm.trans hw.rest₁)
        rcases ih v'.length hlen hpre hin₁ hin₂ rfl with hover | ⟨is, his, hall, hparts⟩
        · exact .inl (hover.cons ⟨_, hv'⟩ hrest rfl)
        · refine .inr ⟨_, hcons is his, hstops hall, ?_⟩
          rcases hparts with ⟨hsame, hcalms, hopen⟩ | ⟨hover, hmark⟩
          · refine .inl ⟨?_, List.forall_mem_cons.mpr ⟨hcalm, hcalms⟩, fun _ => ?_⟩
            · rw [shifted_cons, List.cons_append, readAll_cons, hmove, hw.rest₂, hsame, move_cons]
              rfl
            · by_cases hempty : v' = []
              · exact hw.call hempty
              · exact hopen hempty
          · refine .inr ⟨hover.cons ⟨_, hsh⟩ hw.rest₂ rfl, hmark.imp id ?_⟩
            rintro ⟨i, hi, hmi⟩
            exact ⟨i, List.mem_cons_of_mem _ hi, hmi⟩
      · -- Only the second reading goes over the seam: what is left of the first one is cut on its own.
        rcases readAll_cut m.src₁ hin₁ with hover | ⟨is, his, hall⟩
        · exact .inl (hover.cons ⟨_, hv'⟩ hrest rfl)
        · refine .inr ⟨_, hcons is his, hstops hall, .inr ⟨?_, hmark.imp id fun hmi => ⟨_, List.mem_cons_self, hmi⟩⟩⟩
          have hls : l.shifted m.bytes :: (m.shifted ls ++ m.rest₂) = _ := rfl
          rcases nextItem_cut m.src₂ h₂ hls (by simp [shifted_cons]) with
            hover | ⟨taken₂, v₂, -, hrest₂, -⟩
          · exact hover
          · rw [hrest₂, List.length_append] at hlost
            omega

end Seam

end Calculation
