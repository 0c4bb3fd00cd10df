import Calculation.Proofs.Document.Restart
import Calculation.Proofs.Seam.Ahead

namespace Calculation.Reading

open Movable Statement

variable {src₁ src₂ : Source} {offset : Nat} {u y y₁ y₂ : List Char} {is : List Item} {rest rest₁ rest₂ : List Lexeme}

/-- The seam where two texts with the front `u` go on with lexemes of their own. -/
def frontSeam (src₁ src₂ : Source) (offset : Nat) (u : List Char) (rest₁ rest₂ : List Lexeme) : Seam :=
  ⟨src₁, src₂, 0, 0, Lexeme.significant false (Token.lex offset u), rest₁, rest₂, offset + Text.bytes u⟩

theorem oneAhead_frontSeam (src₁ src₂ : Source) (offset : Nat) (u : List Char) (x : Lexeme) (ls₁ ls₂ : List Lexeme) :
    (frontSeam src₁ src₂ offset u (x :: ls₁) (x :: ls₂)).OneAhead :=
  ⟨x, ls₁, ls₂, rfl, congrArg (· ++ ls₂) (Lexeme.map_shifted_zero [x]).symm⟩

theorem twoAhead_frontSeam (src₁ src₂ : Source) (offset : Nat) (u : List Char) (x y : Lexeme) (ls₁ ls₂ : List Lexeme) :
    (frontSeam src₁ src₂ offset u (x :: y :: ls₁) (x :: y :: ls₂)).TwoAhead :=
  ⟨x, y, ls₁, ls₂, rfl, congrArg (· ++ ls₂) (Lexeme.map_shifted_zero [x, y]).symm⟩

/-- The lexemes behind a cut are those of what stands there, but for a blank line in front. -/
theorem exists_blank_of_cut (hcut : Token.Cut offset u y)
    (h : Lexeme.significant false (Token.lex offset (u ++ y)) = Lexeme.significant false (Token.lex offset u) ++ rest) :
    ∃ b, rest = Lexeme.significant b (Token.lex (offset + Text.bytes u) y) := by
  obtain ⟨b, hb⟩ := hcut.lexemes false
  exact ⟨b, List.append_cancel_left (h.symm.trans hb)⟩

/-- A front reads the same before another rest that starts with the same lexeme, or a field at its end leads a
statement over it. -/
theorem Halves.exchange (hmoves : Source.Moves src₁ src₂ 0 0 (offset + Text.bytes u)) (h : Halves src₁ offset u y₁ is)
    (havoids : ∀ p ∈ Reading.pieces src₁ (Token.lex offset (u ++ y₁)), p.range.Avoids (offset + Text.bytes u))
    (hcut : Token.Cut offset u y₂)
    (h₁ : Lexeme.significant false (Token.lex offset (u ++ y₁)) =
      Lexeme.significant false (Token.lex offset u) ++ rest₁)
    (h₂ : Lexeme.significant false (Token.lex offset (u ++ y₂)) =
      Lexeme.significant false (Token.lex offset u) ++ rest₂)
    (hahead : (frontSeam src₁ src₂ offset u rest₁ rest₂).OneAhead) :
    (Halves src₂ offset u y₂ is ∧ ∀ i ∈ is, ¬(frontSeam src₁ src₂ offset u rest₁ rest₂).MarksItem i) ∨
      ((∃ p ∈ Reading.pieces src₂ (Token.lex offset (u ++ y₂)), ¬p.range.Avoids (offset + Text.bytes u)) ∧
        ∃ i ∈ is, (frontSeam src₁ src₂ offset u rest₁ rest₂).MarksItem i) := by
  obtain ⟨b₁, hrest₁⟩ := exists_blank_of_cut h.cut h₁
  obtain ⟨b₂, hrest₂⟩ := exists_blank_of_cut hcut h₂
  obtain ⟨m, hm⟩ : ∃ m, m = frontSeam src₁ src₂ offset u rest₁ rest₂ := ⟨_, rfl⟩
  have hself : m.shifted (Lexeme.significant false (Token.lex offset u)) =
      Lexeme.significant false (Token.lex offset u) := by
    rw [hm]
    exact Lexeme.map_shifted_zero _
  have hstay : move m.bytes m.lines is = is := by
    rw [hm]
    exact Item.map_shifted_zero is
  have hin := (Item.TokensInLine.lex offset u).lexemes false
  have hsound : m.Sound := by
    rw [hm]
    exact Seam.sound_of_moves hmoves ⟨hin.ranges.mono (Nat.zero_le _) (Nat.le_refl _), hin.proper, hin.edges⟩
      hahead.joint
  have hin₁ := lexemes_inLine false offset (u ++ y₁)
  have hin₂ := lexemes_inLine false offset (u ++ y₂)
  rw [h₁] at hin₁
  rw [h₂, ← hself] at hin₂
  rw [← hm] at hahead ⊢
  obtain rfl : m.rest₁ = rest₁ := congrArg Seam.rest₁ hm
  obtain rfl : m.rest₂ = rest₂ := congrArg Seam.rest₂ hm
  obtain rfl : m.src₁ = src₁ := congrArg Seam.src₁ hm
  obtain rfl : m.src₂ = src₂ := congrArg Seam.src₂ hm
  have hbefore : ∃ pre, m.before = pre ++ Lexeme.significant false (Token.lex offset u) :=
    ⟨[], congrArg Seam.before hm⟩
  rcases Seam.readAll_sim hsound hbefore hin₁ hin₂ with hover | ⟨is', his, hstops, hparts⟩
  · rw [hrest₁] at h₁ hover
    obtain ⟨p, hp, hover'⟩ := exists_over_of_straddles h₁ hover
    exact absurd (havoids p hp) hover'
  · obtain rfl : is' = is := by
      have hitems := h.items
      rw [h₁, his, hrest₁, readAll_significant] at hitems
      exact List.append_cancel_right hitems
    rcases hahead.parts hparts with ⟨hsame, hcalm⟩ | ⟨hover, hmark⟩
    · rw [hself, hstay, ← h₂, hrest₂] at hsame
      exact .inl ⟨.of_stops hcut hsame hstops, hcalm⟩
    · rw [hself, hrest₂] at hover
      rw [hrest₂] at h₂
      exact .inr ⟨exists_over_of_straddles h₂ hover, hmark⟩

/-- The pieces of a front do not ask what is behind it. -/
theorem firstHalf_exchange (hmoves : Source.Moves src₁ src₂ 0 0 (offset + Text.bytes u))
    (hi : ∀ i ∈ is, i.range.Between offset (offset + Text.bytes u)) :
    firstHalf src₂ offset u is = firstHalf src₁ offset u is := by
  have h := Piece.ofParts_shifted hmoves.lines hi (comments_between offset u)
  rw [Token.map_shifted_zero, Item.map_shifted_zero] at h
  exact h.trans (Piece.map_shifted_zero _)

end Calculation.Reading
