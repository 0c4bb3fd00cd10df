import Calculation.Proofs.Document.Halves

namespace Calculation

open Statement

namespace Run

variable {lines : LineTable} {is : List Item}

/-- A run that ends where an item does, and holds a statement among the items if it counts one. -/
structure MadeOf (is : List Item) (r : Run) : Prop where
  stop : ∃ i ∈ is, i.range.stop = r.item.range.stop
  statement : r.statements ≠ 0 → ∃ i ∈ is, i.isStatement = true ∧ r.item.range.start ≤ i.range.start ∧
    i.range.stop ≤ r.item.range.stop

theorem MadeOf.join {a b : Run} (ha : a.MadeOf is) (hb : b.MadeOf is) : (a.join b).MadeOf is := by
  refine ⟨?_, fun hcount => ?_⟩
  · rcases Nat.le_total a.item.range.stop b.item.range.stop with hle | hle
    · obtain ⟨i, hi, hstop⟩ := hb.stop
      exact ⟨i, hi, hstop.trans (Nat.max_eq_right hle).symm⟩
    · obtain ⟨i, hi, hstop⟩ := ha.stop
      exact ⟨i, hi, hstop.trans (Nat.max_eq_left hle).symm⟩
  · have hone : a.statements ≠ 0 ∨ b.statements ≠ 0 := by
      unfold Run.join at hcount
      dsimp only at hcount
      omega
    rcases hone with hone | hone
    · obtain ⟨i, hi, hkind, hstart, hstop⟩ := ha.statement hone
      exact ⟨i, hi, hkind, Nat.le_trans (Nat.min_le_left _ _) hstart, Nat.le_trans hstop (Nat.le_max_left _ _)⟩
    · obtain ⟨i, hi, hkind, hstart, hstop⟩ := hb.statement hone
      exact ⟨i, hi, hkind, Nat.le_trans (Nat.min_le_right _ _) hstart, Nat.le_trans hstop (Nat.le_max_right _ _)⟩

theorem ofItems_madeOf (lines : LineTable) (is : List Item) : ∀ r ∈ ofItems lines is, r.MadeOf is := by
  refine ofItems_rule (fun _ _ => MadeOf.join) fun i hi => ⟨⟨i, hi, rfl⟩, fun hcount => ?_⟩
  refine ⟨i, hi, ?_, Nat.le_refl _, Nat.le_refl _⟩
  cases hkind : i.isStatement with
  | true => rfl
  | false => exact absurd (by simp [ofItem, hkind]) hcount

end Run

namespace Statement

variable {src : Source} {lo hi : Nat} {ls : List Lexeme}

/-- Each statement ends where a lexeme does. -/
theorem readAll_stops (src : Source) (hin : Range.InLine lo hi (ls.map (·.token.range))) :
    ∀ i ∈ readAll src ls, ∃ l ∈ ls, i.range.stop = l.token.range.stop := by
  rw [← List.append_nil ls] at hin
  rcases readAll_cut src hin with ⟨-, -, -, x, hx, -⟩ | ⟨is, his, hstops⟩
  · cases hx
  · rw [List.append_nil, readAll_nil, List.append_nil] at his
    exact his ▸ hstops

end Statement

namespace Reading

variable {src : Source} {offset : Nat} {cs : List Char} {p : Piece}

theorem exists_token_stop (hp : p ∈ pieces src (Token.lex offset cs)) :
    ∃ t ∈ Token.lex offset cs, t.range.stop = p.range.stop := by
  obtain ⟨r, hr, rfl⟩ := List.mem_map.mp hp
  obtain ⟨i, hi, hstop⟩ := (Run.ofItems_madeOf _ _ r hr).stop
  rcases Item.mem_weave hi with ⟨t, ht, hrange, -⟩ | ⟨j, hj, hrange, -⟩
  · exact ⟨t, (List.mem_filter.mp ht).1, hrange ▸ hstop⟩
  · obtain ⟨l, hl, hlast⟩ := readAll_stops src (lexemes_inLine false offset cs) j hj
    exact ⟨l.token, mem_lexemes hl, by rw [← hlast, ← hrange, hstop]; rfl⟩

theorem exists_lexeme_of_statements (hp : p ∈ pieces src (Token.lex offset cs)) (hcount : p.statements ≠ 0) :
    ∃ l ∈ Lexeme.significant false (Token.lex offset cs), p.range.start < l.token.range.stop ∧
      l.token.range.stop ≤ p.range.stop := by
  obtain ⟨r, hr, rfl⟩ := List.mem_map.mp hp
  obtain ⟨i, hi, hkind, hstart, hstop⟩ := (Run.ofItems_madeOf _ _ r hr).statement hcount
  rcases Item.mem_weave hi with ⟨-, -, -, hno⟩ | ⟨j, hj, hrange, -⟩
  · rw [hno] at hkind
    cases hkind
  · obtain ⟨l, hl, hlast⟩ := readAll_stops src (lexemes_inLine false offset cs) j hj
    have hproper := (items_between src offset cs j hj).proper
    rw [hrange] at hstart hstop
    exact ⟨l, hl, by rw [← hlast]; exact Nat.lt_of_le_of_lt hstart hproper, by rw [← hlast]; exact hstop⟩

end Reading

end Calculation
