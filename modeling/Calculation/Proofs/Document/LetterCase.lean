import Calculation.Proofs.Rewording.Findings
import Calculation.Proofs.Rewording.Texts
import Calculation.Proofs.Token.LetterCase

/-!
Documents and letter case. A text in which words are spelled in other letter case is like the text itself: no table of
functions tells the spellings apart, and what is cut out of the one text is cut out of the other. So both are read in
the same way, and what is reported about them is the same but for the words.
-/
namespace Calculation

namespace Text

theorem splitAt?_toLower (n : Nat) (cs : List Char) : splitAt? n (cs.map Char.toLower) =
    (splitAt? n cs).map fun p => (p.1.map Char.toLower, p.2.map Char.toLower) := by
  induction cs generalizing n with
  | nil => cases n <;> rfl
  | cons c cs ih =>
    cases n with
    | zero => rfl
    | succ n =>
      rw [List.map_cons, splitAt?, splitAt?, utf8Size_toLower, ih]
      split
      · rw [Option.map_map, Option.map_map]
        rfl
      · rfl

theorem slice?_toLower (r : Range) (cs : List Char) :
    slice? r (cs.map Char.toLower) = (slice? r cs).map (List.map Char.toLower) := by
  unfold slice?
  rw [splitAt?_toLower]
  cases splitAt? r.start cs with
  | none => rfl
  | some p =>
    simp only [Option.map_some, Option.bind_eq_bind, Option.bind_some, splitAt?_toLower]
    cases splitAt? r.length p.2 <;> rfl

theorem isBlank_toLower (c : Char) : isBlank c.toLower = isBlank c := by
  refine Token.toLower_of_letters (fun d hd => ?_) c
  have hrange : (65 ≤ d.toNat ∧ d.toNat ≤ 90) ∨ 97 ≤ d.toNat ∧ d.toNat ≤ 122 := by
    simpa [Char.isAlpha, Char.isUpper, Char.isLower, UInt32.le_iff_toNat_le] using hd
  simp only [isBlank, Bool.or_eq_false_iff, Bool.and_eq_false_iff, decide_eq_false_iff_not, beq_eq_false_iff_ne]
  omega

theorem trim_toLower (cs : List Char) : trim (cs.map Char.toLower) = (trim cs).map Char.toLower := by
  have hblank : isBlank ∘ Char.toLower = isBlank := funext isBlank_toLower
  unfold trim trimEnd trimStart
  rw [List.dropWhile_map, hblank, ← List.map_reverse, List.dropWhile_map, hblank, List.map_reverse]

theorem utf8ByteSize_lowered (text : String) : (lowered text).utf8ByteSize = text.utf8ByteSize := by
  have htext := utf8ByteSize_ofList text.toList
  rw [String.ofList_toList] at htext
  rw [lowered, utf8ByteSize_ofList, bytes_lowered, htext]

end Text

theorem LineTable.startsAfter_toLower (offset : Nat) (cs : List Char) :
    startsAfter offset (cs.map Char.toLower) = startsAfter offset cs := by
  induction cs generalizing offset with
  | nil => rfl
  | cons c cs ih =>
    simp only [List.map_cons, startsAfter, Text.utf8Size_toLower, ih, Token.toLower_eq_iff (x := '\n') rfl]

theorem LineTable.ofText_toLower (cs : List Char) : LineTable.ofText (cs.map Char.toLower) = LineTable.ofText cs := by
  rw [ofText, ofText, startsAfter_toLower, Text.bytes_lowered]

theorem Source.trimmed_lowered (options : Options) (cs : List Char) (r : Range) :
    Text.lowered ((Source.ofText options cs).trimmed r) = (Source.ofText options (cs.map Char.toLower)).trimmed r := by
  simp only [trimmed, Source.ofText, Text.lowered, Text.slice?_toLower, String.toList_ofList, ← Text.trim_toLower]
  cases Text.slice? r cs <;> rfl

/-- A table does not see letter case. -/
theorem SignatureTable.get?_lowered (t : SignatureTable) (name : String) : t.get? (Text.lowered name) = t.get? name := by
  have hkey : keyOf (Text.lowered name) = keyOf name := by
    simp [keyOf, Text.lowered, Function.comp_def, Char.toUpper_toLower_eq_toUpper]
  rw [get?_eq, get?_eq, hkey]

namespace Recased

variable {text text' : String} {options : Options} {src src' : Source}

/-- Words in different letter case can stand for each other. -/
theorem interchangeable (t : SignatureTable) : Rewording.Interchangeable Text.lowered t := by
  refine ⟨fun hkey => ?_, fun hkey => ?_⟩
  · have hsize := congrArg String.utf8ByteSize hkey
    rwa [Text.utf8ByteSize_lowered, Text.utf8ByteSize_lowered] at hsize
  · have hget := congrArg t.get? hkey
    rwa [SignatureTable.get?_lowered, SignatureTable.get?_lowered] at hget

/-- Words are alike when they differ only in letter case. -/
def rewording (h : Recased text text') (options : Options) :
    Rewording (.ofText options text.toList) (.ofText options text'.toList) where
  key := Text.lowered
  signature := (interchangeable options.signatures).signature
  trimmed r := by rw [Source.trimmed_lowered, Source.trimmed_lowered, h.toLower]
  lines := by
    change LineTable.ofText text'.toList = LineTable.ofText text.toList
    rw [← LineTable.ofText_toLower, h.toLower, LineTable.ofText_toLower]
  levels := Nat.le_refl _

theorem significant_alike (m : Rewording src src') (hkey : m.key = Text.lowered) {ts us : List Token}
    (h : List.Forall₂ Token.Recased ts us) (hproper : ∀ t ∈ ts, t.range.start < t.range.stop) (blank : Bool) :
    List.Forall₂ m.likeness.Lexemes (Lexeme.significant blank ts) (Lexeme.significant blank us) := by
  induction h generalizing blank with
  | nil => exact .nil
  | @cons t u ts us ht hts ih =>
    obtain ⟨hfirst, hproper⟩ := List.forall_mem_cons.mp hproper
    rw [Lexeme.significant, Lexeme.significant, ht.kind]
    split
    · rename_i hk
      rw [ht.eq_of_not_isWord (by rw [Token.isWord, hk]; rfl)]
      exact ih hproper _
    · split
      · exact ih hproper _
      · refine .cons ⟨⟨ht.kind, ht.range, ht.isOpen, hkey ▸ ht.text, fun hk => ?_, hfirst⟩, rfl⟩ (ih hproper _)
        exact ht.same (by rw [Token.isWord, hk]; rfl)

theorem comments_eq (h : Recased text text') : Outline.comments text' = Outline.comments text := by
  have htokens := h.tokens
  unfold Outline.comments
  generalize tokenize text = ts, tokenize text' = us at htokens
  induction htokens with
  | nil => rfl
  | @cons t u ts us ht hts ih =>
    rw [List.filter_cons, List.filter_cons, ih, ht.kind]
    split
    · rename_i hk
      have hword : t.isWord = false := by
        rw [Token.isWord]
        revert hk
        cases t.kind <;> decide
      rw [ht.eq_of_not_isWord hword]
    · rfl

theorem tokens_same (h : Recased text text') :
    (tokenize text').map (fun t => (t.kind, t.range)) = (tokenize text).map fun t => (t.kind, t.range) := by
  have htokens := h.tokens
  generalize tokenize text = ts, tokenize text' = us at htokens
  induction htokens with
  | nil => rfl
  | cons ht _ ih => rw [List.map_cons, List.map_cons, ih, ht.kind, ht.range]

theorem ofText_alike (h : Recased text text') (options : Options) :
    (h.rewording options).Trees (Outline.ofText options text).symbols (Outline.ofText options text').symbols ∧
    (Outline.ofText options text').faults.map Diagnostic.gist =
      (Outline.ofText options text).faults.map Diagnostic.gist := by
  have hproper := (Item.TokensInLine.lex 0 text.toList).proper
  have hlexemes : List.Forall₂ (h.rewording options).likeness.Lexemes (Outline.lexemes text) (Outline.lexemes text') :=
    significant_alike _ rfl h.tokens hproper false
  exact Rewording.ofText_alike h.comments_eq
    (Likeness.readAll_alike hlexemes (Outline.lexemes_lined text).apart (.inl rfl))

end Recased

namespace Outline
open Recased

variable {text text' : String}

/-- Letter case means nothing. When the second of two texts spells the words of the first one in any letter case, both
have tokens of the same kinds at the same places; but for the letter case of words their symbols are the same, and the
faults of reading, as well as all that validation reports, have the same codes, severities and ranges in the same
order, whatever functions are known. -/
theorem recased_reads_same (h : Recased text text') (options : Options) :
    (tokenize text').map (fun t => (t.kind, t.range)) = (tokenize text).map (fun t => (t.kind, t.range)) ∧
    Symbol.renamedAll Text.lowered (ofText options text').symbols =
      Symbol.renamedAll Text.lowered (ofText options text).symbols ∧
    (ofText options text').faults.map Diagnostic.gist = (ofText options text).faults.map Diagnostic.gist ∧
    ∀ t o, (validate (ofText options text') t o).map Diagnostic.gist =
      (validate (ofText options text) t o).map Diagnostic.gist := by
  obtain ⟨hsymbols, hfaults⟩ := h.ofText_alike options
  refine ⟨h.tokens_same, hsymbols.renamed, hfaults, fun t o => Diagnostic.canonical_gist ?_⟩
  rw [List.map_append, List.map_append, hfaults,
    Rewording.findingsAll_alike (interchangeable t) o (.refl .outside) hsymbols]

/-- For instance an aggregate in another one is found, at the same place, in whatever letter case the two are called. -/
theorem recased_reads_same_nested : Recased "SUM(avg([A])) and TRUE" "sum(AVG([A])) AND true" ∧
    (validate (ofText .default "sum(AVG([A])) AND true") .builtin .default).map Diagnostic.gist =
      [(.nestedAggregate, .warning, ⟨4, 7⟩)] := by
  have hspelled : ∀ p ∈ (tokenize "SUM(avg([A])) and TRUE").zip
      ((tokenize "sum(AVG([A])) AND true").map (·.text.toList)), p.1.Respelled p.2 := by
    decide +kernel
  have h : Recased "SUM(avg([A])) and TRUE" "sum(AVG([A])) AND true" :=
    ⟨(tokenize "sum(AVG([A])) AND true").map (·.text.toList),
      List.forall₂_iff_zip.mpr ⟨by decide +kernel, fun hp => hspelled _ hp⟩, by decide +kernel⟩
  refine ⟨h, ?_⟩
  rw [(recased_reads_same h .default).2.2.2 .builtin .default]
  decide +kernel

end Outline

end Calculation
