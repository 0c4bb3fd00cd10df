import Calculation.Proofs.Reading.Derivation

namespace Calculation.Reading
open Cursor

variable {l : Lexeme} {ls as bs taken : List Lexeme} {r q : Range} {behind : List Range} {s : Symbol}
  {ss : List Symbol} {fs : List Diagnostic} {d : Diagnostic}

theorem Told.sited {r : Range} {isComplete : Bool} (h : Told r isComplete fs) (hr : Sited taken r) :
    ∀ d ∈ fs, Sited taken d.range := by
  cases h with
  | complete => simp
  | incomplete he hs hd =>
    intro d hmem
    rw [List.mem_singleton.mp hmem, he]
    exact hr

theorem Told.not_skip {r : Range} {isComplete : Bool} (h : Told r isComplete fs) :
    ∀ d ∈ fs, d.code.isSkip = false := by
  cases h with
  | complete => simp
  | incomplete he hs hd =>
    intro d hmem
    rw [List.mem_singleton.mp hmem]
    exact hd

/-- What is at the range of a lexeme and behind it is sited from this lexeme on. -/
theorem sited_of_behind (hl : Lined (l :: ls)) {P : Prop}
    (h : (d.range ∈ l.token.range :: behind ∧ P) ∨ Sited ls d.range) :
    (d.range ∈ behind ∧ P) ∨ Sited (l :: ls) d.range := by
  rcases h with ⟨hr, hs⟩ | h
  · rcases List.mem_cons.mp hr with hr | hr
    · exact .inr (hr ▸ .one (hl.proper l List.mem_cons_self) List.mem_cons_self)
    · exact .inl ⟨hr, hs⟩
  · exact .inr (h.mono fun x hx => List.mem_cons_of_mem _ hx)

/-- Every fault is sited in what was taken, or it reports what is missing behind an earlier lexeme. -/
theorem Derives.faults (h : Derives behind taken ss fs) (hl : Lined taken) :
    ∀ d ∈ fs, (d.range ∈ behind ∧ d.code.isSkip = false) ∨ Sited taken d.range := by
  induction h with
  | nothing => simp
  | append _ _ iha ihb =>
    intro d hd
    rcases List.mem_append.mp hd with hd | hd
    · exact (iha hl.left d hd).imp id fun h => h.mono fun x hx => List.mem_append_left _ hx
    · exact (ihb hl.right d hd).imp id fun h => h.mono fun x hx => List.mem_append_right _ hx
  | token _ _ ih => exact fun d hd => sited_of_behind hl (ih hl.tail d hd)
  | operator _ _ _ _ _ ih => exact fun d hd => sited_of_behind hl (ih hl.tail d hd)
  | report hr hd => simpa using Or.inl ⟨hr, hd⟩
  | stray _ hr _ => simpa using Or.inr (hr ▸ span_sited hl)
  | @literal _ l _ _ _ _ _ _ hf =>
    exact fun d hd => .inr (hf.sited (.one (hl.proper l List.mem_cons_self) List.mem_cons_self) d hd)
  | @field _ l _ _ _ _ _ hf =>
    exact fun d hd => .inr (hf.sited (.one (hl.proper l List.mem_cons_self) List.mem_cons_self) d hd)
  | @qualifiedField _ _ _ l' _ _ _ _ _ _ _ _ hf =>
    exact fun d hd => .inr (hf.sited (.one (hl.proper l' (by simp)) (by simp)) d hd)
  | construct _ _ _ _ ih =>
    intro d hd
    exact .inr ((sited_of_behind hl (ih hl.tail d hd)).resolve_left fun h => List.not_mem_nil h.1)
  | tooDeep _ _ _ hr => simpa using Or.inr (hr ▸ span_sited hl)
  | @skipped _ l ls _ _ _ _ _ _ hr _ ih =>
    intro d hd
    rcases List.mem_cons.mp hd with rfl | hd
    · exact .inr (hr ▸ .one (hl.proper l List.mem_cons_self) List.mem_cons_self)
    · exact ih hl d hd

/-- A fault that comes with a skipped stretch is never behind. -/
theorem Derives.skip_sited (h : Derives behind taken ss fs) (hl : Lined taken) (hd : d ∈ fs)
    (hs : d.code.isSkip = true) : Sited taken d.range := by
  rcases h.faults hl d hd with ⟨-, hn⟩ | h
  · rw [hs] at hn
    cases hn
  · exact h

/-- Every symbol is sited in what was taken. -/
theorem Derives.symbols (h : Derives behind taken ss fs) (hl : Lined taken) :
    ∀ s ∈ Symbol.walkAll ss, Sited taken s.range := by
  have hwalk : ∀ {taken : List Lexeme} {s : Symbol}, Sited taken s.range →
      (∀ x ∈ Symbol.walkAll s.children, Sited taken x.range) → ∀ x ∈ Symbol.walkAll [s], Sited taken x.range := by
    intro taken s hs hc x hx
    rw [Symbol.walkAll_singleton, Symbol.walk_eq] at hx
    rcases List.mem_cons.mp hx with rfl | hx
    · exact hs
    · exact hc x hx
  induction h with
  | nothing => simp
  | append _ _ iha ihb =>
    intro s hs
    rw [Symbol.walkAll_append] at hs
    rcases List.mem_append.mp hs with hs | hs
    · exact (iha hl.left s hs).mono fun x hx => List.mem_append_left _ hx
    · exact (ihb hl.right s hs).mono fun x hx => List.mem_append_right _ hx
  | token _ _ ih => exact fun s hs => (ih hl.tail s hs).mono fun x hx => List.mem_cons_of_mem _ hx
  | @operator _ l ls o _ _ _ _ hplain _ _ ih =>
    intro s hs
    rw [Symbol.walkAll_cons, Symbol.walk_eq, hplain.children, Symbol.walkAll_nil] at hs
    rcases List.mem_cons.mp hs with rfl | hs
    · exact hplain.range ▸ .one (hl.proper l List.mem_cons_self) List.mem_cons_self
    · exact (ih hl.tail s hs).mono fun x hx => List.mem_cons_of_mem _ hx
  | report => simp
  | stray => simp
  | @literal _ l _ _ _ _ _ hplain _ =>
    exact hwalk (hplain.range ▸ .one (hl.proper l List.mem_cons_self) List.mem_cons_self) (by simp [hplain.children])
  | @field _ l _ _ _ _ hplain _ =>
    exact hwalk (hplain.range ▸ .one (hl.proper l List.mem_cons_self) List.mem_cons_self) (by simp [hplain.children])
  | @qualifiedField _ l dot l' _ _ _ _ _ _ _ hplain _ =>
    refine hwalk ?_ (by simp [hplain.children])
    have h₁ := hl.head_before l' (by simp)
    have h₂ := hl.proper l (by simp)
    have h₃ := hl.proper l' (by simp)
    rw [hplain.range, cover_eq hl]
    exact ⟨⟨l, by simp, rfl⟩, ⟨l', by simp, rfl⟩, by dsimp only; omega⟩
  | construct _ hr _ _ ih =>
    exact hwalk (hr ▸ span_sited hl) fun x hx => (ih hl.tail x hx).mono fun y hy => List.mem_cons_of_mem _ hy
  | tooDeep hs hc _ _ => exact hwalk (hs.range ▸ span_sited hl) (by simp [hc])
  | skipped hs _ _ _ _ ih => exact hwalk (hs.range ▸ span_sited hl) (ih hl)

end Calculation.Reading
