import Calculation.Proofs.Seam.Marks

namespace Calculation

open Movable Statement

theorem Token.lex_shifted (offset n : Nat) (cs : List Char) :
    lex (offset + n) cs = (lex offset cs).map (·.shifted n) := by
  induction hn : cs.length using Nat.strongRecOn generalizing offset cs with
  | _ k ih =>
    cases cs with
    | nil => rw [lex_nil, lex_nil]; rfl
    | cons c cs =>
      have hlen : (cs.drop ((first (c :: cs)).2.size - 1)).length < k := by
        rw [← hn, List.length_drop, List.length_cons]
        omega
      have hoffset : ∀ m, offset + n + m = offset + m + n := fun m => by omega
      rw [lex_taking, lex_taking, List.map_cons, ← ih _ hlen _ _ rfl, hoffset]
      simp only [taking, Token.shifted, Range.shifted_nat, hoffset]

theorem Lexeme.significant_shifted (blank : Bool) (n : Nat) (ts : List Token) :
    significant blank (ts.map (·.shifted n)) = (significant blank ts).map (·.shifted n) := by
  induction ts generalizing blank with
  | nil => rfl
  | cons t ts ih =>
    have hblank : isBlankLine (t.shifted n) = isBlankLine t := rfl
    have hkind : (t.shifted n).kind = t.kind := rfl
    rw [List.map_cons, significant, significant, hkind, hblank]
    split
    · exact ih _
    · split
      · exact ih _
      · rw [ih]
        rfl

theorem Token.comments_shifted (n : Nat) (ts : List Token) :
    (ts.map (·.shifted n)).filter (·.kind.isComment) = (ts.filter (·.kind.isComment)).map (·.shifted n) :=
  List.filter_map ..

/-- The statements of lexemes of a moved text are those of the text, moved. -/
theorem Statement.readAll_shifted {src₁ src₂ : Source} {bytes lines size : Nat} {edge : Nat → Prop} {ls : List Lexeme}
    (h : Source.Moves src₁ src₂ bytes lines size) (hin : LexemesInLine edge 0 size ls) :
    readAll src₂ (ls.map (·.shifted bytes)) = (readAll src₁ ls).map (Item.shifted bytes lines) := by
  let m : Seam := ⟨src₁, src₂, bytes, lines, ls, [], [], size⟩
  have hm : m.Sound := Seam.sound_of_moves h hin (.ends rfl rfl)
  have hin₁ : Range.InLine 0 size ((ls ++ m.rest₁).map (·.token.range)) := by
    rw [List.append_nil]
    exact hin.ranges
  have hin₂ : Range.InLine (moved 0 bytes) (moved size bytes) ((m.shifted ls ++ m.rest₂).map (·.token.range)) := by
    have hs := hin.ranges.shifted bytes
    rw [List.map_map] at hs
    rw [List.append_nil, Seam.shifted, List.map_map]
    exact hs
  rcases Seam.readAll_sim hm ⟨[], rfl⟩ hin₁ hin₂ with ⟨-, -, -, x, hx, -⟩ | ⟨is, his, -, hsame | hover⟩
  · cases hx
  · have his' : readAll src₁ ls = is := by
      rw [List.append_nil, readAll_nil, List.append_nil] at his
      exact his
    have hmove := hsame.1
    rw [List.append_nil, readAll_nil, List.append_nil] at hmove
    rw [his']
    exact hmove
  · obtain ⟨⟨-, -, -, x, hx, -⟩, -⟩ := hover
    cases hx

/-- The pieces of a text that starts at an offset of another one are its pieces, moved. -/
theorem Reading.pieces_shifted {src₁ src₂ : Source} {bytes lines : Nat} {cs : List Char}
    (h : Source.Moves src₁ src₂ bytes lines (Text.bytes cs)) :
    pieces src₂ (Token.lex bytes cs) = (pieces src₁ (Token.lex 0 cs)).map (.shifted bytes lines) := by
  have hlex := Token.lex_shifted 0 bytes cs
  have hin := (Item.TokensInLine.lex 0 cs).lexemes false
  rw [Nat.zero_add] at hlex hin
  have hitems := items_between src₁ 0 cs
  have hcomments := comments_between 0 cs
  rw [Nat.zero_add] at hitems hcomments
  rw [Piece.pieces_eq_ofParts, Piece.pieces_eq_ofParts, hlex, Lexeme.significant_shifted, readAll_shifted h hin,
    Token.comments_shifted]
  exact Piece.ofParts_shifted h.lines hitems hcomments

end Calculation
