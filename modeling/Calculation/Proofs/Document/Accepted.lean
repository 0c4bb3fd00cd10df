import Calculation.Proofs.Document.Whole
import Calculation.Proofs.Grammar.Sequence
import Calculation.Proofs.Grammar.Symbols
import Calculation.Proofs.Token.Cutting

namespace Calculation

namespace Symbol

mutual

/-- The tree without the comments in it. -/
def withoutComments : Symbol → Symbol
  | ⟨n, k, r, cs, c, l⟩ => ⟨n, k, r, withoutCommentsAll cs, c, l⟩

def withoutCommentsAll : List Symbol → List Symbol
  | [] => []
  | s :: ss => if s.isComment then withoutCommentsAll ss else s.withoutComments :: withoutCommentsAll ss

end

variable {comment : Symbol}

mutual

theorem withoutComments_withComment (hk : comment.isComment = true) : ∀ s : Symbol,
    (withComment comment s).withoutComments = s.withoutComments
  | ⟨n, k, r, cs, c, l⟩ => by
    rw [withComment, withoutComments, withoutComments, withoutCommentsAll_insertComment hk cs]

theorem withoutCommentsAll_insertComment (hk : comment.isComment = true) : ∀ ss : List Symbol,
    withoutCommentsAll (insertComment comment ss) = withoutCommentsAll ss
  | [] => by simp [insertComment, withoutCommentsAll, hk]
  | s :: ss => by
    rw [insertComment]
    split
    · rw [withoutCommentsAll, withoutCommentsAll, withoutCommentsAll_insertComment hk ss]
    · split
      · have hsame : (withComment comment s).isComment = s.isComment := by
          cases s
          rfl
        rw [withoutCommentsAll, withoutCommentsAll, hsame, withoutComments_withComment hk s]
      · rw [withoutCommentsAll, if_pos hk]

end

theorem withoutCommentsAll_append (as bs : List Symbol) :
    withoutCommentsAll (as ++ bs) = withoutCommentsAll as ++ withoutCommentsAll bs := by
  induction as with
  | nil => rfl
  | cons s as ih =>
    rw [List.cons_append, withoutCommentsAll, withoutCommentsAll, ih]
    split <;> rfl

theorem blind_withoutComments : Blind withoutCommentsAll :=
  ⟨withoutCommentsAll_append, fun _ hk _ ss => withoutCommentsAll_insertComment (beq_iff_eq.mpr hk) ss⟩

mutual

theorem withoutComments_id : ∀ s : Symbol, (∀ x ∈ s.walk, x.isComment = false) → s.withoutComments = s
  | ⟨n, k, r, cs, c, l⟩, h => by
    rw [walk] at h
    rw [withoutComments, withoutCommentsAll_id cs (List.forall_mem_cons.mp h).2]

/-- Where no comment is, none is taken out. -/
theorem withoutCommentsAll_id : ∀ ss : List Symbol, (∀ x ∈ walkAll ss, x.isComment = false) →
    withoutCommentsAll ss = ss
  | [], _ => rfl
  | s :: ss, h => by
    rw [walkAll, List.forall_mem_append] at h
    have hs : s.isComment = false := h.1 s (walk_eq s ▸ List.mem_cons_self)
    rw [withoutCommentsAll, hs, withoutComments_id s h.1, withoutCommentsAll_id ss h.2]
    rfl

end

end Symbol

namespace Lexeme

/-- Where no blanks hold a blank line, no lexeme stands behind one. -/
theorem significant_calm {ts : List Token} (h : ∀ t ∈ ts, t.kind = .whitespace → isBlankLine t = false) :
    ∀ l ∈ significant false ts, l.afterBlank = false := by
  induction ts with
  | nil => exact nofun
  | cons t ts ih =>
    obtain ⟨ht, hts⟩ := List.forall_mem_cons.mp h
    rw [significant]
    split
    · rename_i hk
      rw [ht hk]
      exact ih hts
    · split
      · exact ih hts
      · exact List.forall_mem_cons.mpr ⟨rfl, ih hts⟩

end Lexeme

namespace Outline
open Calculation.Symbol Statement Grammar

variable {options : Options} {text : String} {ss : List Symbol}

/-- A comment that is not open is complete, and nothing is reported of it. -/
theorem closed_comment (hopen : ¬Token.OpenComment (tokenize text)) {t : Token} (ht : t ∈ comments text) :
    (Item.ofComment (.ofText text.toList) t).events = [] ∧
      ∀ s ∈ walkAll (Item.ofComment (.ofText text.toList) t).symbols, s.isComplete = true := by
  obtain ⟨ht, hk⟩ := List.mem_filter.mp ht
  have hclosed : t.isOpen = false :=
    Bool.eq_false_iff.mpr fun ho => hopen (Token.openComment_of_mem ht hk ho)
  unfold Item.ofComment
  dsimp only
  rw [hclosed]
  simp [walk_eq]

/-- Where no comment is open, structural faults are those of the statements. -/
theorem sound_iff (hopen : ¬Token.OpenComment (tokenize text)) :
    (∀ d ∈ (ofText options text).faults, d.isStructural = false) ↔ ∀ i ∈ statements options text, Sound i := by
  have hfaults : ∀ d, d ∈ (ofText options text).faults ↔
      ∃ i ∈ statements options text, d ∈ Event.faults i.events := by
    intro d
    rw [mem_faults, List.mem_flatMap]
    refine or_iff_right ?_
    rintro ⟨t, ht, hd⟩
    rw [(closed_comment hopen ht).1] at hd
    cases hd
  have hsound : ∀ i : Item, Sound i ↔ ∀ d ∈ Event.faults i.events, d.isStructural = false := by
    intro i
    rw [Sound, List.any_eq_false]
    constructor
    · intro h d hd
      obtain ⟨e, he, hed⟩ := List.mem_filterMap.mp hd
      cases e with
      | valid => cases hed
      | fault d' =>
        cases hed
        exact Bool.eq_false_iff.mpr (h _ he)
    · intro h e he
      cases e with
      | valid => exact Bool.false_ne_true
      | fault d => exact Bool.eq_false_iff.mp (h d (List.mem_filterMap.mpr ⟨_, he, rfl⟩))
  simp only [hfaults, hsound]
  constructor
  · exact fun h i hi d hd => h d ⟨i, hi, hd⟩
  · rintro h d ⟨i, hi, hd⟩
    exact h i hi d hd

/-- A text without blank lines and without an open comment is read without a structural fault exactly when its lexemes
are statements of the grammar, none of them nested deeper than the levels allow. Then every symbol is complete, and
but for the comments the symbols are those of the derivation, whichever it is. -/
theorem accepts_exactly (options : Options) (text : String)
    (hblank : ∀ t ∈ tokenize text, t.kind = .whitespace → Lexeme.isBlankLine t = false)
    (hopen : ¬Token.OpenComment (tokenize text)) :
    ((∀ d ∈ (ofText options text).faults, d.isStructural = false) ↔
      ∃ ss, Program (.ofText options text.toList) (lexemes text) ss) ∧
    ∀ ss, Program (.ofText options text.toList) (lexemes text) ss →
      withoutCommentsAll (ofText options text).symbols = ss ∧
        ∀ s ∈ (ofText options text).walk, s.isComplete = true := by
  have hcalm := Lexeme.significant_calm hblank
  refine ⟨?_, fun ss h => ⟨?_, fun s hs => ?_⟩⟩
  · rw [sound_iff hopen]
    refine ⟨fun h => ⟨_, readAll_phrase h⟩, ?_⟩
    rintro ⟨ss, h⟩
    exact (readAll_gives h hcalm).2
  · rw [blind_symbols blind_withoutComments, statements, (readAll_gives h hcalm).1]
    exact withoutCommentsAll_id ss fun s hs => (h.whole s hs).2
  · -- An incomplete symbol would be one of a comment or of a statement.
    by_cases hc : s.isComplete = true
    · exact hc
    · have hshow := (show_symbols (P := fun x => x.isComplete = false) (fun _ _ => Iff.rfl) options text).mp
        ⟨s, hs, Bool.eq_false_iff.mpr hc⟩
      rcases hshow with ⟨t, ht, x, hx, hfalse⟩ | ⟨x, hx, hfalse⟩
      · rw [(closed_comment hopen ht).2 x hx] at hfalse
        cases hfalse
      · rw [statements, (readAll_gives h hcalm).1] at hx
        rw [(h.whole x hx).1] at hfalse
        cases hfalse

/-- For instance signs, a list with a comma behind it, and a comment. -/
theorem list_accepted : ∃ ss, Program (.ofText .default "SUM([A]) IN (1, -[B],) /* c */ + NOT [C]".toList)
    (lexemes "SUM([A]) IN (1, -[B],) /* c */ + NOT [C]") ss ∧
      withoutCommentsAll (ofText .default "SUM([A]) IN (1, -[B],) /* c */ + NOT [C]").symbols = ss := by
  have hblank : ∀ t ∈ tokenize "SUM([A]) IN (1, -[B],) /* c */ + NOT [C]",
      t.kind = .whitespace → Lexeme.isBlankLine t = false := by
    decide +kernel
  have hopen : ¬Token.OpenComment (tokenize "SUM([A]) IN (1, -[B],) /* c */ + NOT [C]") := by
    unfold Token.OpenComment
    decide +kernel
  have hfaults : ∀ d ∈ (ofText .default "SUM([A]) IN (1, -[B],) /* c */ + NOT [C]").faults,
      d.isStructural = false := by
    decide +kernel
  obtain ⟨hiff, hsymbols⟩ := accepts_exactly .default _ hblank hopen
  obtain ⟨ss, h⟩ := hiff.mp hfaults
  exact ⟨ss, h, (hsymbols ss h).1⟩

end Outline

end Calculation
