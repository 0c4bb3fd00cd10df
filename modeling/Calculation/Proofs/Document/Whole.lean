import Calculation.Proofs.Document.Derivation
import Calculation.Proofs.Document.Moving
import Calculation.Proofs.Document.Pieces
import Calculation.Proofs.Document.Shown
import Calculation.Proofs.Reading.Sites

namespace Calculation.Outline
open Reading

variable {options : Options} {text : String} {d : Diagnostic} {s : Symbol}

/-- What a text is made of, blanks and comments aside. -/
def lexemes (text : String) : List Lexeme :=
  Lexeme.significant false (tokenize text)

/-- The statements of a text, without the comments. -/
def statements (options : Options) (text : String) : List Item :=
  Statement.readAll (.ofText options text.toList) (lexemes text)

def comments (text : String) : List Token :=
  (tokenize text).filter (·.kind.isComment)

theorem lexemes_lined (text : String) : Lined (lexemes text) := by
  have h := (Item.TokensInLine.lex 0 text.toList).lexemes false
  exact ⟨List.pairwise_map.mp h.ranges.pairwise, h.proper⟩

theorem mem_lexemes {t : Token} (ht : t ∈ tokenize text) (hk : t.kind.startsConstruct = true) :
    ∃ l ∈ lexemes text, l.token = t := by
  have hmem : t ∈ (lexemes text).map (·.token) := by
    rw [lexemes, Lexeme.significant_tokens]
    refine List.mem_filter.mpr ⟨ht, ?_⟩
    revert hk
    cases t.kind <;> simp [Token.Kind.startsConstruct, Token.Kind.isTrivia, Token.Kind.isComment]
  exact List.mem_map.mp hmem

theorem token_of_lexeme {l : Lexeme} (hl : l ∈ lexemes text) :
    l.token ∈ tokenize text ∧ l.token.kind.isComment = false := by
  have hmem : l.token ∈ (lexemes text).map (·.token) := List.mem_map_of_mem hl
  rw [lexemes, Lexeme.significant_tokens] at hmem
  obtain ⟨ht, hk⟩ := List.mem_filter.mp hmem
  refine ⟨ht, ?_⟩
  simp only [Token.Kind.isTrivia, Bool.not_or, Bool.and_eq_true, Bool.not_eq_true'] at hk
  exact hk.2

/-- The symbols of the statements, and the faults met in them. -/
theorem statements_derives (options : Options) (text : String) :
    Derives [] (lexemes text) ((statements options text).flatMap (·.symbols))
      ((statements options text).flatMap fun i => Event.faults i.events) :=
  Statement.readAll_derives _ _

theorem reading_eq_ofParts (options : Options) (text : String) :
    Splice.reading (ofText options text) =
      .ofPieces (Piece.ofParts (.ofText text.toList) (comments text) (statements options text)) :=
  (reading_ofText options text).trans (congrArg _ (Piece.pieces_eq_ofParts _ _))

/-- The outline of a text is made of its statements and its comments. -/
theorem ofText_eq_ofParts (options : Options) (text : String) : ofText options text =
    ofReading (.ofPieces (Piece.ofParts (.ofText text.toList) (comments text) (statements options text)))
      (LineTable.ofText text.toList).count :=
  congrArg (ofReading · (LineTable.ofText text.toList).count) (Reading.ofTokens_eq _ _)

/-- What does not see comments sees in the outline what it sees in the statements. -/
theorem blind_symbols {α : Type} {g : List Symbol → List α} (hg : Symbol.Blind g) (options : Options) (text : String) :
    g (ofText options text).symbols = g ((statements options text).flatMap (·.symbols)) := by
  have hs : (ofText options text).symbols = _ := congrArg Reading.symbols (reading_eq_ofParts options text)
  rw [hs]
  exact hg.ofParts _ _ _

/-- Whatever stands below it, a symbol of the outline is one of the statements or one of the comments. -/
theorem show_symbols {P : Symbol → Prop} (hP : Symbol.Shallow P) (options : Options) (text : String) :
    Symbol.Show P (ofText options text).symbols ↔
      (∃ t ∈ comments text, Symbol.Show P (Item.ofComment (.ofText text.toList) t).symbols) ∨
        Symbol.Show P ((statements options text).flatMap (·.symbols)) := by
  have hs : (ofText options text).symbols = _ := congrArg Reading.symbols (reading_eq_ofParts options text)
  rw [hs]
  exact Piece.show_ofParts hP

theorem mem_faults : d ∈ (ofText options text).faults ↔
    (∃ t ∈ comments text, Event.fault d ∈ (Item.ofComment (.ofText text.toList) t).events) ∨
      d ∈ (statements options text).flatMap fun i => Event.faults i.events := by
  have hf : (ofText options text).faults = _ := congrArg Reading.faults (reading_eq_ofParts options text)
  rw [hf]
  refine Piece.mem_faults_ofParts.trans (or_congr_right ?_)
  simp only [List.mem_flatMap, Event.faults, List.mem_filterMap]
  refine exists_congr fun i => and_congr_right fun _ => ⟨fun h => ⟨_, h, rfl⟩, ?_⟩
  rintro ⟨e, he, hd⟩
  cases e with
  | valid => cases hd
  | fault d' =>
    cases hd
    exact he

end Calculation.Outline
