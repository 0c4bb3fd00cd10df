import Calculation.Proofs.Document.Comments
import Calculation.Proofs.Layout.Texts
import Calculation.Proofs.Reading.Divided

namespace Calculation

namespace Matching
open Calculation.Symbol

variable {src src' : Source} {m : Matching src src'}

theorem Arguments.sources {as as' : List Argument} (h : List.Forall₂ m.Arguments as as') :
    ∀ a ∈ as, a.text = src.trimmed a.range := by
  induction h with
  | nil => simp
  | cons h _ ih => exact List.forall_mem_cons.mpr ⟨h.source, ih⟩

mutual

theorem Symbols.sources : ∀ {s s' : Symbol}, m.Symbols s s' → ∀ x ∈ s.walk, ∀ arguments isNested,
    x.kind = .call arguments isNested → ∀ a ∈ arguments, a.text = src.trimmed a.range
  | ⟨_, _, _, _, _, _⟩, _, .mk hkind _ hchildren => by
    rw [walk]
    refine List.forall_mem_cons.mpr ⟨fun arguments isNested hk => ?_, Trees.sources hchildren⟩
    dsimp only at hk
    rw [hk] at hkind
    cases hkind with
    | call harguments => exact Arguments.sources harguments

/-- Where symbols correspond, the text of an argument is the source at its range. -/
theorem Trees.sources : ∀ {ss ss' : List Symbol}, m.Trees ss ss' → ∀ x ∈ walkAll ss, ∀ arguments isNested,
    x.kind = .call arguments isNested → ∀ a ∈ arguments, a.text = src.trimmed a.range
  | [], _, .nil => by simp
  | s :: ss, s' :: ss', .cons hs hss => by
    rw [walkAll_cons]
    exact List.forall_mem_append.mpr ⟨Symbols.sources hs, Trees.sources hss⟩

end

end Matching

namespace Symbol

variable {c s : Symbol}

theorem withoutComments_eq (s : Symbol) :
    s.withoutComments = { s with children := withoutCommentsAll s.children } := by
  cases s
  rw [withoutComments]

/-- All but comments stay, each without the comments in it. -/
theorem mem_withoutCommentsAll {ss : List Symbol} (hc : c ∈ ss) (hk : c.isComment = false) :
    c.withoutComments ∈ withoutCommentsAll ss := by
  induction ss with
  | nil => cases hc
  | cons s ss ih =>
    rw [withoutCommentsAll]
    rcases List.mem_cons.mp hc with rfl | hc
    · rw [hk]
      exact List.mem_cons_self
    · split
      · exact ih hc
      · exact List.mem_cons_of_mem _ (ih hc)

/-- So does all below them, when comments hold nothing. -/
theorem walk_withoutComments : ∀ ss : List Symbol, Bare [] ss → s ∈ walkAll ss → s.isComment = false →
    s.withoutComments ∈ walkAll (withoutCommentsAll ss)
  | [], _, hs, _ => by
    rw [walkAll_nil] at hs
    cases hs
  | ⟨n, k, r, cs, c, l⟩ :: ss, h, hs, hk => by
    obtain ⟨hbare, hcs, hss⟩ := bare_cons.mp h
    rw [walkAll_cons, walk_eq, List.cons_append, List.mem_cons, List.mem_append] at hs
    rw [withoutCommentsAll]
    split
    · rename_i hcomment
      obtain ⟨rfl, -⟩ := hbare hcomment
      rcases hs with rfl | hs | hs
      · rw [hcomment] at hk
        cases hk
      · rw [walkAll_nil] at hs
        cases hs
      · exact walk_withoutComments ss hss hs hk
    · rw [walkAll_cons, walk_eq, List.cons_append, List.mem_cons, List.mem_append]
      rcases hs with rfl | hs | hs
      · exact .inl rfl
      · exact .inr (.inl (walk_withoutComments cs hcs hs hk))
      · exact .inr (.inr (walk_withoutComments ss hss hs hk))

end Symbol

namespace Outline
open Calculation.Symbol Reading

variable {options : Options} {text : String} {s : Symbol} {arguments : List Argument} {isNested : Bool}

theorem statements_divided (hs : s ∈ walkAll ((statements options text).flatMap (·.symbols)))
    (hk : s.kind = .call arguments isNested) :
    Divided (lexemes text) (ofText options text).faults s arguments := by
  have hderives := statements_derives options text
  have hdivided := hderives.divided (lexemes_lined text) ⟨nofun, nofun⟩ ⟨[], [], by simp⟩ s hs _ _ hk
  refine hdivided.mono (fun d hd => mem_faults.mpr (.inr hd)) fun d hd hnot => .inr ?_
  exact not_in_statement hs hd hnot

/-- A text is laid out as itself. -/
theorem relaid_self (text : String) : Relaid text text :=
  ⟨rfl, rfl⟩

theorem statements_sources (hs : s ∈ walkAll ((statements options text).flatMap (·.symbols)))
    (hk : s.kind = .call arguments isNested) :
    ∀ a ∈ arguments, a.text = (Source.ofText options text.toList).trimmed a.range := by
  have hstatements := (relaid_self text).statements_matches options
  exact Matching.Trees.sources (List.rel_flatMap hstatements fun _ _ hi => hi.symbols) s hs _ _ hk

/-- Without the comments, the symbols of a text are those of its statements. -/
theorem symbols_withoutComments (options : Options) (text : String) :
    withoutCommentsAll (ofText options text).symbols = (statements options text).flatMap (·.symbols) := by
  rw [blind_symbols blind_withoutComments]
  exact withoutCommentsAll_id _ (statements_derives options text).uncommented

/-- The arguments of a call split it. They stand in line inside of it, and the text of each is the source at its range
without the blanks around. Each child of the call but a comment is inside of exactly one of them; one over anything is
complete exactly when no structural fault is inside of it. And when its parenthesis is not reported as open, the call
has no argument if nothing stands between its parentheses, and otherwise one more than it has commas outside of its
arguments. -/
theorem calls_divided (options : Options) (text : String) : ∀ s ∈ (ofText options text).walk, ∀ arguments isNested,
    s.kind = .call arguments isNested →
      Range.InLine s.range.start s.range.stop (arguments.map (·.range)) ∧
      (∀ a ∈ arguments, a.text = (Source.ofText options text.toList).trimmed a.range) ∧
        Divided (lexemes text) (ofText options text).faults s arguments := by
  intro s hs arguments isNested hk
  have hplain : s.isComment = false := beq_eq_false_iff_ne.mpr fun hcomment => by simp [hk] at hcomment
  have hline := symbols_eq_stage options text ▸ stage_inLine options text (comments text).length
  have hfits : s.kind.Fits s.range := (hline.orderly s hs).kind
  have hbare : Bare [] (ofText options text).symbols := fun x hx hcomment =>
    ⟨comment_bare options text x hx hcomment, by simp⟩
  -- What is left of the call without its comments is a call of the statements, at the same place.
  have hstatement := walk_withoutComments _ hbare hs hplain
  rw [symbols_withoutComments, withoutComments_eq] at hstatement
  have hdivided := statements_divided hstatement hk
  refine ⟨by rwa [hk] at hfits, statements_sources hstatement hk, hdivided.within, fun c hc hck => ?_,
    hdivided.isComplete, hdivided.lexemes⟩
  have hchild := hdivided.once c.withoutComments (mem_withoutCommentsAll hc hck)
  rw [withoutComments_eq] at hchild
  exact hchild hck

/-- For instance with a comma in a list, which splits nothing, and with one in front of a missing argument. -/
theorem calls_divided_list : ∃ s ∈ (ofText .default "MAX([A] IN (1, 2), )").walk,
    s.kind = .call [⟨"[A] IN (1, 2)", ⟨4, 17⟩, true⟩, ⟨"", ⟨19, 19⟩, false⟩] false ∧
      Divided (lexemes "MAX([A] IN (1, 2), )") (ofText .default "MAX([A] IN (1, 2), )").faults s
        [⟨"[A] IN (1, 2)", ⟨4, 17⟩, true⟩, ⟨"", ⟨19, 19⟩, false⟩] := by
  have hcall : ∃ s ∈ (ofText .default "MAX([A] IN (1, 2), )").walk,
      s.kind = .call [⟨"[A] IN (1, 2)", ⟨4, 17⟩, true⟩, ⟨"", ⟨19, 19⟩, false⟩] false := by
    decide +kernel
  obtain ⟨s, hs, hk⟩ := hcall
  exact ⟨s, hs, hk, (calls_divided .default "MAX([A] IN (1, 2), )" s hs _ _ hk).2.2⟩

end Outline

end Calculation
