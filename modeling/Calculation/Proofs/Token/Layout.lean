import Calculation.Proofs.Tree.InLine

namespace Calculation

namespace Range

variable {lo hi : Nat} {r : Range} {rs as bs : List Range}

theorem InLine.sublist (h : InLine lo hi bs) (hs : as.Sublist bs) : InLine lo hi as := by
  induction hs generalizing lo with
  | slnil => trivial
  | cons b hs ih =>
    obtain ⟨h₁, h₂, h₃, h₄⟩ := h
    exact (ih h₄).mono (by omega) (Nat.le_refl _)
  | cons_cons b hs ih =>
    obtain ⟨h₁, h₂, h₃, h₄⟩ := h
    exact ⟨h₁, h₂, h₃, ih h₄⟩

theorem InLine.pairwise (h : InLine lo hi rs) : rs.Pairwise fun a b => a.stop ≤ b.start := by
  induction rs generalizing lo with
  | nil => exact List.Pairwise.nil
  | cons r rs ih =>
    obtain ⟨h₁, h₂, h₃, h₄⟩ := h
    exact List.pairwise_cons.mpr ⟨fun x hx => (h₄.bounds x hx).1, ih h₄⟩

/-- An offset outside the inside of a range. -/
def Avoids (r : Range) (n : Nat) : Prop :=
  n ≤ r.start ∨ r.stop ≤ n

/-- Of ranges in line, each starts and stops outside the others, and at its own ends. -/
theorem InLine.avoids (h : InLine lo hi rs) {a b : Range} (ha : a ∈ rs) (hb : b ∈ rs) :
    a.Avoids b.start ∧ a.Avoids b.stop := by
  have hpa := (h.bounds a ha).2.1
  have hpb := (h.bounds b hb).2.1
  unfold Avoids
  induction rs generalizing lo with
  | nil => cases ha
  | cons r rs ih =>
    have hfirst := (List.pairwise_cons.mp h.pairwise).1
    rcases List.mem_cons.mp ha with rfl | ha'
    · rcases List.mem_cons.mp hb with rfl | hb'
      · omega
      · have := hfirst b hb'
        omega
    · rcases List.mem_cons.mp hb with rfl | hb'
      · have := hfirst a ha'
        omega
      · exact ih h.2.2.2 ha' hb'

end Range

namespace Token

theorem lex_nil (offset : Nat) : lex offset [] = [] := by
  rw [lex]

/-- The characters of the first token of a text and those behind it. -/
theorem lex_cons (offset : Nat) (c : Char) (cs : List Char) : ∃ text rest, text ≠ [] ∧ text ++ rest = c :: cs ∧
    lex offset (c :: cs) =
      ⟨(first (c :: cs)).1, .ofList text, ⟨offset, offset + Text.bytes text⟩, (first (c :: cs)).2.isOpen⟩ ::
        lex (offset + Text.bytes text) rest := by
  refine ⟨c :: cs.take ((first (c :: cs)).2.size - 1), cs.drop ((first (c :: cs)).2.size - 1), by simp, ?_, ?_⟩
  · rw [List.cons_append, List.take_append_drop]
  · rw [lex]

theorem bytes_pos {cs : List Char} (h : cs ≠ []) : 0 < Text.bytes cs := by
  cases cs with
  | nil => exact absurd rfl h
  | cons c cs =>
    have := c.utf8Size_pos
    simp only [Text.bytes_cons]
    omega

theorem lex_inLine (offset : Nat) (cs : List Char) :
    Range.InLine offset (offset + Text.bytes cs) ((lex offset cs).map (·.range)) ∧
      ∀ t ∈ lex offset cs, t.range.start < t.range.stop := by
  induction hn : cs.length using Nat.strongRecOn generalizing offset cs with
  | _ n ih =>
    cases cs with
    | nil =>
      rw [lex_nil]
      exact ⟨trivial, by simp⟩
    | cons c cs =>
      obtain ⟨text, rest, hne, happ, hlex⟩ := lex_cons offset c cs
      have hpos := bytes_pos hne
      have hlen : text.length + rest.length = n := by rw [← hn, ← happ, List.length_append]
      have htext := List.length_pos_iff.mpr hne
      obtain ⟨hin, hproper⟩ := ih rest.length (by omega) (offset + Text.bytes text) rest rfl
      rw [hlex, ← happ, Text.bytes_append]
      refine ⟨⟨Nat.le_refl _, by simp, ?_, ?_⟩, ?_⟩
      · simp only
        omega
      · rw [← Nat.add_assoc]
        exact hin
      · intro t ht
        rcases List.mem_cons.mp ht with rfl | ht
        · simp only
          omega
        · exact hproper t ht

end Token

theorem Lexeme.significant_tokens (blank : Bool) (ts : List Token) :
    (significant blank ts).map (·.token) = ts.filter (!·.kind.isTrivia) := by
  induction ts generalizing blank with
  | nil => rfl
  | cons t ts ih =>
    rw [significant, List.filter_cons]
    by_cases hw : t.kind = .whitespace
    · simp [hw, Token.Kind.isTrivia, ih]
    · cases hc : t.kind.isComment <;> simp [hw, hc, Token.Kind.isTrivia, ih]

end Calculation
