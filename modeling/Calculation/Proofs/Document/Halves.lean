import Calculation.Proofs.Document.Weaving
import Calculation.Proofs.Token.Cutting

namespace Calculation

open Statement

namespace Run

theorem join_between {lo hi : Nat} {a b : Run} (ha : a.item.range.Between lo hi) (hb : b.item.range.Between lo hi) :
    (a.join b).item.range.Between lo hi := by
  obtain ⟨h₁, h₂, h₃⟩ := ha
  obtain ⟨h₄, h₅, h₆⟩ := hb
  refine ⟨?_, ?_, ?_⟩
  · exact Nat.le_min.mpr ⟨h₁, h₄⟩
  · simp only [join, Range.cover]
    omega
  · exact Nat.max_le.mpr ⟨h₃, h₆⟩

end Run

namespace Piece

variable {lines : LineTable} {lo hi : Nat} {is : List Item} {cs : List Token}

theorem ofParts_between (hi₁ : ∀ i ∈ is, i.range.Between lo hi) (hc : ∀ t ∈ cs, t.range.Between lo hi) :
    ∀ p ∈ ofParts lines cs is, p.range.Between lo hi := by
  intro p hp
  obtain ⟨r, hr, rfl⟩ := List.mem_map.mp hp
  exact Run.ofItems_rule (P := fun r => r.item.range.Between lo hi) (fun _ _ => Run.join_between)
    (Item.weave_between hi₁ hc) r hr

end Piece

namespace Reading

variable {src : Source} {offset : Nat} {x y : List Char} {is : List Item}

theorem lex_between (offset : Nat) (cs : List Char) :
    ∀ t ∈ Token.lex offset cs, t.range.Between offset (offset + Text.bytes cs) := by
  obtain ⟨hin, hproper⟩ := Token.lex_inLine offset cs
  intro t ht
  obtain ⟨h₁, -, h₃⟩ := hin.bounds t.range (List.mem_map_of_mem ht)
  exact ⟨h₁, hproper t ht, h₃⟩

theorem comments_between (offset : Nat) (cs : List Char) :
    ∀ t ∈ (Token.lex offset cs).filter (·.kind.isComment), t.range.Between offset (offset + Text.bytes cs) :=
  fun t ht => lex_between offset cs t (List.mem_filter.mp ht).1

theorem mem_lexemes {blank : Bool} {ts : List Token} {l : Lexeme} (h : l ∈ Lexeme.significant blank ts) :
    l.token ∈ ts := by
  have hmem : l.token ∈ (Lexeme.significant blank ts).map (·.token) := List.mem_map_of_mem h
  rw [Lexeme.significant_tokens] at hmem
  exact (List.mem_filter.mp hmem).1

theorem lexemes_between {blank : Bool} {l : Lexeme}
    (h : l ∈ Lexeme.significant blank (Token.lex offset x)) :
    l.token.range.Between offset (offset + Text.bytes x) :=
  lex_between offset x _ (mem_lexemes h)

theorem items_between (src : Source) (offset : Nat) (cs : List Char) :
    ∀ i ∈ readAll src (Lexeme.significant false (Token.lex offset cs)),
      i.range.Between offset (offset + Text.bytes cs) := by
  have hin := statements_inLine src (Lexeme.significant false (Token.lex offset cs)).length
    ((Item.TokensInLine.lex offset cs).lexemes false)
  intro i hi
  obtain ⟨h₁, -, h₃⟩ := hin.ranges.bounds i.range (List.mem_map_of_mem hi)
  exact ⟨h₁, (hin.sound i hi).proper, h₃⟩

/-- A text whose items fall apart into those of `x`, which are `is`, and those of `y` alone. -/
structure Halves (src : Source) (offset : Nat) (x y : List Char) (is : List Item) : Prop where
  cut : Token.Cut offset x y
  items : readAll src (Lexeme.significant false (Token.lex offset (x ++ y))) =
    is ++ readAll src (Lexeme.significant false (Token.lex (offset + Text.bytes x) y))
  between : ∀ i ∈ is, i.range.Between offset (offset + Text.bytes x)

/-- The pieces of the first half. -/
def firstHalf (src : Source) (offset : Nat) (x : List Char) (is : List Item) : List Piece :=
  Piece.ofParts src.lines ((Token.lex offset x).filter (·.kind.isComment)) is

theorem Halves.pieces (h : Halves src offset x y is) (hw : src.lines.StartsLine (offset + Text.bytes x)) :
    pieces src (Token.lex offset (x ++ y)) =
      firstHalf src offset x is ++ pieces src (Token.lex (offset + Text.bytes x) y) := by
  rw [Piece.pieces_eq_ofParts, h.items, h.cut.comments]
  exact Piece.ofParts_append hw h.between (items_between src _ y) (comments_between offset x)
    (comments_between _ y)

theorem firstHalf_between (src : Source) (hi : ∀ i ∈ is, i.range.Between offset (offset + Text.bytes x)) :
    ∀ p ∈ firstHalf src offset x is, p.range.Between offset (offset + Text.bytes x) :=
  Piece.ofParts_between hi (comments_between offset x)

theorem pieces_between (src : Source) (offset : Nat) (cs : List Char) :
    ∀ p ∈ pieces src (Token.lex offset cs), p.range.Between offset (offset + Text.bytes cs) :=
  Piece.ofParts_between (items_between src offset cs) (comments_between offset cs)

/-- A statement or a comment that goes over a place lies in a piece that does. -/
theorem exists_over {w : Nat} {r : Range} (hr : r.start < w ∧ w < r.stop)
    (h : (∃ i ∈ readAll src (Lexeme.significant false (Token.lex offset x)), i.range = r) ∨
      ∃ t ∈ Token.lex offset x, t.kind.isComment = true ∧ t.range = r) :
    ∃ p ∈ pieces src (Token.lex offset x), ¬p.range.Avoids w := by
  have hparts : (∃ i ∈ readAll src (Lexeme.significant false (Token.lex offset x)), i.range = r) ∨
      ∃ t ∈ (Token.lex offset x).filter (·.kind.isComment), t.range = r :=
    h.imp id fun ⟨t, ht, hk, he⟩ => ⟨t, List.mem_filter.mpr ⟨ht, hk⟩, he⟩
  obtain ⟨p, hp, h₁, h₂⟩ : ∃ p ∈ pieces src (Token.lex offset x), p.range.start ≤ r.start ∧ r.stop ≤ p.range.stop :=
    Piece.ofParts_covers hparts
  refine ⟨p, hp, fun hav => ?_⟩
  unfold Range.Avoids at hav
  omega

/-- Where a statement goes over the cut, a piece does. -/
theorem exists_over_of_straddles {b : Bool}
    (hlexemes : Lexeme.significant false (Token.lex offset (x ++ y)) =
      Lexeme.significant false (Token.lex offset x) ++ Lexeme.significant b (Token.lex (offset + Text.bytes x) y))
    (h : Straddles src (Lexeme.significant false (Token.lex offset x))
      (Lexeme.significant b (Token.lex (offset + Text.bytes x) y))) :
    ∃ p ∈ pieces src (Token.lex offset (x ++ y)), ¬p.range.Avoids (offset + Text.bytes x) := by
  obtain ⟨i, hi, ⟨l, hl, hstart⟩, z, hz, hstop⟩ := h
  obtain ⟨-, h₂, h₃⟩ := lexemes_between hl
  obtain ⟨h₄, h₅, -⟩ := lexemes_between hz
  exact exists_over (r := i.range) ⟨by omega, by omega⟩ (.inl ⟨i, hlexemes ▸ hi, rfl⟩)

theorem lexemes_inLine (b : Bool) (offset : Nat) (cs : List Char) :
    Range.InLine offset (offset + Text.bytes cs)
      ((Lexeme.significant b (Token.lex offset cs)).map (·.token.range)) :=
  ((Item.TokensInLine.lex offset cs).lexemes b).ranges

theorem cut_nil (offset : Nat) (x : List Char) : Token.Cut offset x [] := by
  refine ⟨fun b => ⟨b, ?_⟩, ?_, fun e he _ t ht => .inr ?_⟩
  · rw [List.append_nil, Token.lex_nil]
    exact (List.append_nil _).symm
  · rw [List.append_nil, Token.lex_nil]
    exact (List.append_nil _).symm
  · rw [List.append_nil] at ht
    exact Nat.le_of_lt (Nat.lt_of_le_of_lt (lex_between offset x t ht).stop he)

/-- Where no piece goes over the cut no comment is open there. -/
theorem not_openComment (hx : Token.AtLineFeed x y) (hy : y ≠ [])
    (h : ∀ p ∈ pieces src (Token.lex offset (x ++ y)), p.range.Avoids (offset + Text.bytes x)) :
    ¬Token.OpenComment (Token.lex offset x) := by
  intro hopen
  obtain ⟨t, ht, hk, hover⟩ := hx.straddles offset hopen hy
  obtain ⟨p, hp, hover'⟩ : ∃ p ∈ pieces src (Token.lex offset (x ++ y)), ¬p.range.Avoids (offset + Text.bytes x) :=
    exists_over hover (.inr ⟨t, ht, hk, rfl⟩)
  exact hover' (h p hp)

/-- Items that end with lexemes of the first half are its items. -/
theorem Halves.of_stops {b : Bool} (hcut : Token.Cut offset x y)
    (his : readAll src (Lexeme.significant false (Token.lex offset (x ++ y))) =
      is ++ readAll src (Lexeme.significant b (Token.lex (offset + Text.bytes x) y)))
    (hstops : ∀ i ∈ is, ∃ l ∈ Lexeme.significant false (Token.lex offset x), i.range.stop = l.token.range.stop) :
    Halves src offset x y is := by
  refine ⟨hcut, his.trans (congrArg _ (readAll_significant _ _ _)), fun i hi => ?_⟩
  obtain ⟨h₁, h₂, -⟩ := items_between src offset (x ++ y) i (his ▸ List.mem_append_left _ hi)
  obtain ⟨l, hl, hstop⟩ := hstops i hi
  exact ⟨h₁, h₂, hstop ▸ (lexemes_between hl).stop⟩

/-- Where no piece goes over the cut the text falls apart. -/
theorem exists_halves (hx : Token.AtLineFeed x y)
    (h : ∀ p ∈ pieces src (Token.lex offset (x ++ y)), p.range.Avoids (offset + Text.bytes x)) :
    ∃ is, Halves src offset x y is := by
  have hcut : Token.Cut offset x y := by
    by_cases hy : y = []
    · exact hy ▸ cut_nil offset x
    · exact hx.cut offset (not_openComment hx hy h)
  obtain ⟨b, hlexemes⟩ := hcut.lexemes false
  have hin := lexemes_inLine false offset (x ++ y)
  rw [hlexemes] at hin
  rcases readAll_cut src hin with hover | ⟨is, his, hstops⟩
  · obtain ⟨p, hp, hover'⟩ := exists_over_of_straddles hlexemes hover
    exact absurd (h p hp) hover'
  · exact ⟨is, .of_stops hcut (hlexemes ▸ his) hstops⟩

end Reading

end Calculation
