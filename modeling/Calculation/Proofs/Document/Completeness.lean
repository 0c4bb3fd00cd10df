import Mathlib.Data.List.Pairwise
import Calculation.Proofs.Document.Whole
import Calculation.Proofs.Reading.Exactness
import Calculation.Proofs.Token.Cutting

namespace Calculation.Outline
open Calculation.Symbol Reading

variable {options : Options} {text : String} {s : Symbol} {d : Diagnostic} {t : Token}

/-- Flags speak of the symbol alone, not of what is below it. -/
theorem flagged_of_same {ls : List Lexeme} {fs : List Diagnostic} {s₀ : Symbol} (h : Flagged ls fs s₀)
    (hk : s₀.kind = s.kind) (hr : s₀.range = s.range) (hc : s₀.isComplete = s.isComplete) : Flagged ls fs s := by
  obtain ⟨n, k, r, children, c, l⟩ := s
  obtain ⟨n₀, k₀, r₀, children₀, c₀, l₀⟩ := s₀
  cases hk
  cases hr
  cases hc
  exact ⟨h.explained, h.operand, h.block, h.skipped⟩

/-- The fault of a comment: the comment is open, and the fault lies in it. -/
theorem comment_fault (h : .fault d ∈ (Item.ofComment (.ofText text.toList) t).events) :
    t.isOpen = true ∧ d.range = t.range.opening 2 := by
  have hd := Item.ofComment_events _ t _ h
  cases hd
  refine ⟨?_, rfl⟩
  unfold Item.ofComment at h
  dsimp only at h
  split at h
  · assumption
  · cases h

theorem opening_proper {r : Range} (h : r.start < r.stop) : (r.opening 2).start < (r.opening 2).stop := by
  simp only [Range.opening]
  omega

/-- The same token, or two that stand apart. -/
def Apart (t u : Token) : Prop :=
  t = u ∨ t.range.stop ≤ u.range.start ∨ u.range.stop ≤ t.range.start

instance : Std.Symm Apart :=
  ⟨fun _ _ h => h.imp Eq.symm Or.symm⟩

theorem tokens_apart {u : Token} (ht : t ∈ tokenize text) (hu : u ∈ tokenize text) : Apart t u := by
  have hin := (Token.lex_inLine 0 text.toList).1
  have hpairwise : (tokenize text).Pairwise Apart := (List.pairwise_map.mp hin.pairwise).imp fun h => .inr (.inl h)
  exact hpairwise.forall_of_forall (fun _ _ => .inl rfl) ht hu

/-- No lexeme comes behind an open comment. -/
theorem before_open {l : Lexeme} (hl : l ∈ lexemes text) (ht : t ∈ comments text) (ho : t.isOpen = true) :
    l.token.range.stop ≤ t.range.start := by
  obtain ⟨ht, hk⟩ := List.mem_filter.mp ht
  obtain ⟨hlt, hlk⟩ := token_of_lexeme hl
  obtain ⟨hin, hproper⟩ := Token.lex_inLine 0 text.toList
  rcases tokens_apart hlt ht with rfl | h | h
  · rw [hk] at hlk
    cases hlk
  · exact h
  · have hstop := Token.stop_of_open ht hk ho
    have hbound := (hin.bounds _ (List.mem_map_of_mem hlt)).2.2
    have hproper := hproper _ hlt
    omega

/-- The faults of comments lie in no symbol of a statement. -/
theorem not_in_statement (hs : s ∈ walkAll ((statements options text).flatMap (·.symbols)))
    (hd : d ∈ (ofText options text).faults)
    (hnot : d ∉ (statements options text).flatMap fun i => Event.faults i.events) :
    s.range.contains d.range = false := by
  obtain ⟨t, ht, hevent⟩ := (mem_faults.mp hd).resolve_right hnot
  obtain ⟨hopen, hr⟩ := comment_fault hevent
  obtain ⟨-, ⟨l, hl, hstop⟩, -⟩ := (statements_derives options text).symbols (lexemes_lined text) s hs
  have hproper := (Token.lex_inLine 0 text.toList).2 t (List.mem_filter.mp ht).1
  rw [hr]
  exact Range.not_contains (opening_proper hproper) (.inr (hstop ▸ before_open hl ht hopen))

theorem flagged_statement (hs : s ∈ walkAll ((statements options text).flatMap (·.symbols))) :
    Flagged (lexemes text) (ofText options text).faults s := by
  have hahead : Ahead [] (lexemes text) := ⟨nofun, nofun⟩
  refine ((statements_derives options text).flagged (lexemes_lined text) hahead (List.Subset.refl _) s hs).mono ?_
    fun d hd hnot hin _ => ?_
  · exact fun d hd => mem_faults.mpr (.inr hd)
  · rw [not_in_statement hs hd hnot] at hin
    cases hin

theorem flagged_comment (ht : t ∈ comments text)
    (hs : s ∈ walkAll (Item.ofComment (.ofText text.toList) t).symbols) :
    Flagged (lexemes text) (ofText options text).faults s := by
  have hsymbol : s = ⟨.ofList (Text.trimEnd t.text.toList), .comment, t.range, [], !t.isOpen,
      (LineTable.ofText text.toList).continuation t.range⟩ := by
    rw [Item.ofComment_symbol, walkAll_singleton, walk_eq] at hs
    simpa using hs
  subst hsymbol
  refine ⟨fun hc => ?_, nofun, nofun, nofun⟩
  have ho : t.isOpen = true := by simpa using hc
  refine ⟨Cause.openComment.spanning (t.range.opening 2), mem_faults.mpr (.inl ⟨t, ht, ?_⟩), ?_⟩
  · unfold Item.ofComment
    simp [ho]
  · exact Bool.and_eq_true_iff.mpr ⟨decide_eq_true (Nat.le_refl _), decide_eq_true (Nat.min_le_right _ _)⟩

/-- Completeness is exact and explained. A symbol that is not complete has a fault inside. A call, a field or a
literal is complete when no structural fault lies inside, but for one that reports, at the symbol's first token, a
stretch of a block that is skipped from there on. A block is complete when it has its end and the branches that it
needs. What was skipped is never complete. -/
theorem complete_exactly (hs : s ∈ (ofText options text).walk) :
    Flagged (lexemes text) (ofText options text).faults s := by
  have hshow := (show_symbols (P := fun x => x.kind = s.kind ∧ x.range = s.range ∧ x.isComplete = s.isComplete)
    (fun _ _ => Iff.rfl) options text).mp ⟨s, hs, rfl, rfl, rfl⟩
  rcases hshow with ⟨t, ht, x, hx, hk, hr, hc⟩ | ⟨x, hx, hk, hr, hc⟩
  · exact flagged_of_same (flagged_comment ht hx) hk hr hc
  · exact flagged_of_same (flagged_statement hx) hk hr hc

/-- For instance a field that a block skips: it is complete, though a fault lies right on it. -/
theorem skipped_field_complete : ∃ s ∈ (ofText .default "IF [A] THEN [B] [C] END").walk,
    s.isField = true ∧ s.isComplete = true ∧
      ∃ d ∈ (ofText .default "IF [A] THEN [B] [C] END").faults, d.isStructural = true ∧ d.range = s.range := by
  have hs : ⟨"C", .field none, ⟨16, 19⟩, [], true, []⟩ ∈ (ofText .default "IF [A] THEN [B] [C] END").walk := by
    decide +kernel
  have hfaults : (ofText .default "IF [A] THEN [B] [C] END").faults =
      [(Cause.unexpected .field "[C]" false .ifBlock).spanning ⟨16, 19⟩] := by
    decide +kernel
  have hl : ⟨⟨.field, "[C]", ⟨16, 19⟩, false⟩, false⟩ ∈ lexemes "IF [A] THEN [B] [C] END" := by decide +kernel
  refine ⟨_, hs, rfl, ((complete_exactly hs).operand rfl).mpr fun d hd _ _ => ?_, ?_⟩
  · rw [hfaults] at hd
    cases List.mem_singleton.mp hd
    exact ⟨rfl, _, hl, rfl, rfl⟩
  · rw [hfaults]
    exact ⟨_, List.mem_singleton_self _, rfl, rfl⟩

end Calculation.Outline
