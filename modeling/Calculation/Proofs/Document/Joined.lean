import Calculation.Proofs.Document.LineStart
import Calculation.Proofs.Document.Whole
import Calculation.Proofs.Seam.Stretch

namespace Calculation.Outline

open Movable Statement

/-- Two texts with a blank line between them. -/
def joined (a b : String) : String :=
  a ++ "\n\n" ++ b

/-- What a text is made of when a blank line stands in front of it. -/
def lexemesBehindBlank (text : String) : List Lexeme :=
  Lexeme.significant true (tokenize text)

/-- How far the second text stands behind its own place, in bytes and in lines. -/
def joinBytes (a : String) : Nat :=
  Text.bytes a.toList + 2

def joinLines (a : String) : Nat :=
  a.toList.count '\n' + 2

variable {options : Options} {a b : String} {l : Lexeme} {ls : List Lexeme}

/-- Only for its first lexeme does it matter to a text that a blank line stands in front. -/
theorem significant_true (ts : List Token) :
    Lexeme.significant true ts = Statement.reblank true (Lexeme.significant false ts) := by
  induction ts with
  | nil => rfl
  | cons t ts ih =>
    simp only [Lexeme.significant]
    split
    · rename_i hk
      rw [Bool.true_or, Bool.false_or, ih]
      cases Lexeme.isBlankLine t with
      | false => rfl
      | true =>
        rw [ih]
        cases Lexeme.significant false ts <;> rfl
    · split
      · exact ih
      · rfl

theorem lexemesBehindBlank_of_cons (h : lexemes b = l :: ls) :
    lexemesBehindBlank b = { l with afterBlank := true } :: ls := by
  have hb := significant_true (tokenize b)
  change Lexeme.significant true (tokenize b) = reblank true (lexemes b) at hb
  rw [h] at hb
  exact hb

/-- The tokens behind a blank line, whatever blanks the second text starts with. -/
theorem lex_behind (offset : Nat) (blank : Bool) (cs : List Char) :
    Lexeme.significant blank (Token.lex offset ('\n' :: '\n' :: cs)) =
        Lexeme.significant true (Token.lex (offset + 2) cs) ∧
      (Token.lex offset ('\n' :: '\n' :: cs)).filter (·.kind.isComment) =
        (Token.lex (offset + 2) cs).filter (·.kind.isComment) := by
  have hsplit := List.takeWhile_append_dropWhile (p := Token.Scan.isSpace) (l := cs)
  have hz := Token.takeWhile_dropWhile cs
  have hspaces : ∀ c ∈ cs.takeWhile Token.Scan.isSpace, Token.Scan.isSpace c = true :=
    fun c hc => Token.Scan.mem_takeWhile hc
  obtain ⟨sp, hsp⟩ : ∃ sp, sp = cs.takeWhile Token.Scan.isSpace := ⟨_, rfl⟩
  obtain ⟨z, hzz⟩ : ∃ z, z = cs.dropWhile Token.Scan.isSpace := ⟨_, rfl⟩
  rw [← hsp] at hsplit hspaces
  rw [← hzz] at hsplit hz
  have hboth := Token.lex_blanks offset (show '\n' :: '\n' :: sp ≠ [] by simp)
    (by simpa [Token.Scan.isSpace] using hspaces) hz
  have hbytes : offset + Text.bytes ('\n' :: '\n' :: sp) = offset + 2 + Text.bytes sp := by
    have hn : '\n'.utf8Size = 1 := rfl
    simp only [Text.bytes_cons, hn]
    omega
  rw [hbytes] at hboth
  rw [← hsplit, ← List.cons_append, ← List.cons_append, hboth, Token.significant_blanks]
  have htwo : decide (2 ≤ ('\n' :: '\n' :: sp).count '\n') = true := by simp
  rw [htwo, Bool.or_true]
  by_cases hempty : sp = []
  · subst hempty
    exact ⟨rfl, rfl⟩
  · have hone := Token.lex_blanks (offset + 2) hempty hspaces hz
    rw [hone, Token.significant_blanks]
    exact ⟨rfl, rfl⟩

theorem toList_joined (a b : String) : (joined a b).toList = a.toList ++ ('\n' :: '\n' :: b.toList) := by
  simp [joined]

/-- The second text starts where a line starts. -/
theorem toList_joined_front (a b : String) : (joined a b).toList = (a.toList ++ ['\n', '\n']) ++ b.toList := by
  simp [joined]

theorem bytes_front (a : String) : Text.bytes (a.toList ++ ['\n', '\n']) = joinBytes a := by
  rw [Text.bytes_append]
  rfl

theorem count_front (a : String) : (a.toList ++ ['\n', '\n']).count '\n' = joinLines a := by
  rw [List.count_append]
  rfl

theorem cut_joined (hopen : ¬Token.OpenComment (tokenize a)) (b : String) :
    Token.Cut 0 a.toList ('\n' :: '\n' :: b.toList) :=
  Token.AtLineFeed.cut 0 (.inr rfl) hopen

theorem lex_second (a b : String) :
    Token.lex (joinBytes a) b.toList = (tokenize b).map (·.shifted (joinBytes a)) := by
  have h := Token.lex_shifted 0 (joinBytes a) b.toList
  rwa [Nat.zero_add] at h

theorem lexemes_joined (hopen : ¬Token.OpenComment (tokenize a)) (b : String) :
    lexemes (joined a b) = lexemes a ++ (lexemesBehindBlank b).map (·.shifted (joinBytes a)) := by
  obtain ⟨blank, hcut⟩ := (cut_joined hopen b).lexemes false
  rw [← toList_joined, Nat.zero_add, (lex_behind _ blank b.toList).1] at hcut
  refine hcut.trans (congrArg _ ?_)
  have hsecond := lex_second a b
  unfold joinBytes at hsecond ⊢
  rw [hsecond, Lexeme.significant_shifted]
  rfl

theorem comments_joined (hopen : ¬Token.OpenComment (tokenize a)) (b : String) :
    comments (joined a b) = comments a ++ (comments b).map (·.shifted (joinBytes a)) := by
  have hcut := (cut_joined hopen b).comments
  rw [← toList_joined, Nat.zero_add, (lex_behind _ true b.toList).2] at hcut
  refine hcut.trans (congrArg _ ?_)
  have hsecond := lex_second a b
  unfold joinBytes at hsecond ⊢
  rw [hsecond, Token.comments_shifted]
  rfl

/-- The source of the joined text. -/
abbrev joinedSource (options : Options) (a b : String) : Source :=
  .ofText options (joined a b).toList

theorem first_moves (options : Options) (a b : String) :
    Source.Moves (.ofText options a.toList) (joinedSource options a b) 0 0 (Text.bytes a.toList) := by
  have h := Source.moves_prefix options a.toList [] ('\n' :: '\n' :: b.toList)
  rwa [List.append_nil, ← toList_joined] at h

theorem second_moves (options : Options) (a b : String) : Source.Moves (.ofText options b.toList)
    (joinedSource options a b) (joinBytes a) (joinLines a) (Text.bytes b.toList) := by
  have h := Source.moves_suffix options (a.toList ++ ['\n', '\n']) b.toList (Text.bytes b.toList)
  rwa [bytes_front, count_front, ← toList_joined_front] at h

theorem second_startsLine (options : Options) (a b : String) :
    (joinedSource options a b).lines.StartsLine (joinBytes a) := by
  have h := LineTable.startsLine_bytes (v := b.toList) (u := a.toList ++ ['\n', '\n']) (.inr (by simp))
  rwa [bytes_front, ← toList_joined_front] at h

theorem lexemesInLine_behindBlank (text : String) :
    LexemesInLine (Item.OutsideComments (tokenize text)) 0 (Text.bytes text.toList) (lexemesBehindBlank text) := by
  have h := (Item.TokensInLine.lex 0 text.toList).lexemes true
  rwa [Nat.zero_add] at h

/-- What is read behind the blank line is what is read of the second text, moved. -/
theorem readAll_second (options : Options) (a b : String) :
    readAll (joinedSource options a b) ((lexemesBehindBlank b).map (·.shifted (joinBytes a))) =
      (statements options b).map (Item.shifted (joinBytes a) (joinLines a)) := by
  rw [readAll_shifted (second_moves options a b) (lexemesInLine_behindBlank b)]
  exact congrArg _ (readAll_significant _ true (tokenize b))

theorem between_shifted {r : Range} {lo hi : Nat} (h : r.Between lo hi) (n : Nat) :
    (r.shifted n).Between (lo + n) (hi + n) := by
  obtain ⟨h₁, h₂, h₃⟩ := h
  rw [Range.shifted_nat]
  exact ⟨Nat.add_le_add_right h₁ n, Nat.add_lt_add_right h₂ n, Nat.add_le_add_right h₃ n⟩

/-- The statements and comments of a text, moved. -/
theorem moved_between (options : Options) (text : String) (bytes lines : Nat) :
    (∀ i ∈ (statements options text).map (Item.shifted bytes lines),
      i.range.Between (0 + bytes) (0 + Text.bytes text.toList + bytes)) ∧
    ∀ t ∈ (comments text).map (·.shifted bytes), t.range.Between (0 + bytes) (0 + Text.bytes text.toList + bytes) := by
  constructor
  · intro i hi
    obtain ⟨j, hj, rfl⟩ := List.mem_map.mp hi
    exact between_shifted (Reading.items_between _ 0 text.toList j hj) bytes
  · intro t ht
    obtain ⟨u, hu, rfl⟩ := List.mem_map.mp ht
    exact between_shifted (Reading.comments_between 0 text.toList u hu) bytes

/-- The pieces of a text that is found in another one, moved. -/
theorem ofParts_moved {src : Source} {bytes lines : Nat} {text : String}
    (h : Source.Moves (.ofText options text.toList) src bytes lines (Text.bytes text.toList)) :
    Piece.ofParts src.lines ((comments text).map (·.shifted bytes))
        ((statements options text).map (Item.shifted bytes lines)) =
      (Reading.pieces (.ofText options text.toList) (tokenize text)).map (.shifted bytes lines) := by
  have hitems := Reading.items_between (.ofText options text.toList) 0 text.toList
  have hcomments := Reading.comments_between 0 text.toList
  rw [Nat.zero_add] at hitems hcomments
  exact Piece.ofParts_shifted h.lines hitems hcomments

/-- Where the statements fall apart at the blank line, so do the pieces. -/
theorem pieces_joined (hopen : ¬Token.OpenComment (tokenize a))
    (h : statements options (joined a b) = (statements options a).map (Item.shifted 0 0) ++
      (statements options b).map (Item.shifted (joinBytes a) (joinLines a))) :
    Reading.pieces (joinedSource options a b) (tokenize (joined a b)) =
      Reading.pieces (.ofText options a.toList) (tokenize a) ++
        (Reading.pieces (.ofText options b.toList) (tokenize b)).map (.shifted (joinBytes a) (joinLines a)) := by
  obtain ⟨hitems₁, hcomments₁⟩ := moved_between options a 0 0
  obtain ⟨hitems₂, hcomments₂⟩ := moved_between options b (joinBytes a) (joinLines a)
  rw [Nat.zero_add] at hitems₂ hcomments₂
  have hle : 0 + Text.bytes a.toList + 0 ≤ joinBytes a := by
    unfold joinBytes
    omega
  have hparts : Reading.pieces (joinedSource options a b) (tokenize (joined a b)) =
    Piece.ofParts (joinedSource options a b).lines (comments (joined a b)) (statements options (joined a b)) := rfl
  have hfirst := ofParts_moved (first_moves options a b)
  have hsecond := ofParts_moved (second_moves options a b)
  rw [hparts, comments_joined hopen, h, ← Token.map_shifted_zero (comments a)]
  rw [Piece.ofParts_append (second_startsLine options a b)
    (fun i hi => ⟨(hitems₁ i hi).start, (hitems₁ i hi).proper, Nat.le_trans (hitems₁ i hi).stop hle⟩) hitems₂
    (fun t ht => ⟨(hcomments₁ t ht).start, (hcomments₁ t ht).proper, Nat.le_trans (hcomments₁ t ht).stop hle⟩)
    hcomments₂]
  rw [hfirst.trans (Piece.map_shifted_zero _), hsecond]

end Calculation.Outline
