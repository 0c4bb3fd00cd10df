import Calculation.Proofs.Token.Munch
import Calculation.Proofs.Token.Sizes

/-!
Tokens and letter case. No rule tells an ASCII letter from the same letter in the other case, so a text in small letters
is cut where the text itself is. Hence words may be spelled anew in other letter case, and every token stays where it is.
-/
namespace Calculation

namespace Text

/-- The text with its ASCII letters small. -/
def lowered (text : String) : String :=
  .ofList (text.toList.map Char.toLower)

theorem utf8Size_toLower (c : Char) : c.toLower.utf8Size = c.utf8Size := by
  by_cases hupper : c.isUpper = true
  · have hone : c.toLower.utf8Size = 1 := by
      have hlower := Token.isLower_toLower hupper
      simp only [Char.isLower, Bool.and_eq_true, decide_eq_true_eq] at hlower
      exact if_pos (Nat.le_trans hlower.2 (by decide))
    rw [hone, Token.utf8Size_of_toLower hone]
  · rw [Char.toLower_eq_of_not_isUpper hupper]

theorem bytes_lowered (cs : List Char) : bytes (cs.map Char.toLower) = bytes cs := by
  induction cs with
  | nil => rfl
  | cons c cs ih => rw [List.map_cons, bytes_cons, bytes_cons, ih, utf8Size_toLower]

end Text

namespace Token

theorem toLower_eq_iff {c x : Char} (hx : x.isAlpha = false) : c.toLower = x ↔ c = x := by
  have hplain : ∀ {y : Char}, y.isAlpha = false → y.toLower = y := by
    intro y hy
    refine Char.toLower_eq_of_not_isUpper fun hupper => ?_
    rw [Char.isAlpha, hupper, Bool.true_or] at hy
    cases hy
  constructor
  · rintro rfl
    rw [Char.isAlpha_toLower_eq_isAlpha] at hx
    exact (hplain hx).symm
  · rintro rfl
    exact hplain hx

theorem isSpace_toLower (c : Char) : Scan.isSpace c.toLower = Scan.isSpace c := by
  simp [Scan.isSpace, toLower_eq_iff]

theorem isLineEnd_toLower (c : Char) : Scan.isLineEnd c.toLower = Scan.isLineEnd c := by
  simp [Scan.isLineEnd, toLower_eq_iff]

/-- What says the same of all letters does not see letter case. -/
theorem toLower_of_letters {p : Char → Bool} (hp : ∀ c : Char, c.isAlpha = true → p c = false) (c : Char) :
    p c.toLower = p c := by
  by_cases hupper : c.isUpper = true
  · have halpha : c.isAlpha = true := by rw [Char.isAlpha, hupper, Bool.true_or]
    rw [hp c halpha, hp _ ((Char.isAlpha_toLower_eq_isAlpha c).trans halpha)]
  · rw [Char.toLower_eq_of_not_isUpper hupper]

theorem isDigit_toLower (c : Char) : c.toLower.isDigit = c.isDigit := by
  refine toLower_of_letters (fun d hd => Bool.eq_false_iff.mpr fun hdigit => ?_) c
  have hname := not_isNameStart_of_isDigit hdigit
  rw [Scan.isNameStart, hd, Bool.true_or] at hname
  cases hname

theorem isNameStart_toLower (c : Char) : Scan.isNameStart c.toLower = Scan.isNameStart c := by
  simp [Scan.isNameStart, toLower_eq_iff]

theorem isNameRest_toLower (c : Char) : Scan.isNameRest c.toLower = Scan.isNameRest c := by
  simp [Scan.isNameRest, Char.isAlphanum, isDigit_toLower, toLower_eq_iff]

theorem fold_toLower (c : Char) : Scan.fold c.toLower = Scan.fold c := by
  simp [Scan.fold, toLower_eq_iff]

theorem isExponentMark_toLower (c : Char) : (c.toLower = 'e' ∨ c.toLower = 'E') ↔ c = 'e' ∨ c = 'E' := by
  by_cases hupper : c.isUpper = true
  · have hcapital : c.toUpper = c := Char.toUpper_eq_of_not_isLower (Char.not_isLower_of_isUpper hupper)
    constructor
    · rintro (h | h)
      · right
        rw [← hcapital, ← Char.toUpper_toLower_eq_toUpper, h]
        decide
      · have hnone := Char.isUpper_toLower_eq_false c
        rw [h] at hnone
        cases hnone
    · rintro (rfl | rfl) <;> decide
  · rw [Char.toLower_eq_of_not_isUpper hupper]

/-- The rule finds the same in a text and in the text in small letters. -/
def Scan.Caseless (scan : Scan) : Prop :=
  ∀ cs, scan (cs.map Char.toLower) = scan cs

namespace Scan

theorem takeWhile_toLower {p : Char → Bool} (hp : ∀ c, p c.toLower = p c) (cs : List Char) :
    ((cs.map Char.toLower).takeWhile p).length = (cs.takeWhile p).length := by
  have hsame : p ∘ Char.toLower = p := funext hp
  rw [List.takeWhile_map, List.length_map, hsame]

theorem spaces_caseless : Caseless spaces := by
  intro cs
  rw [spaces, spaces, takeWhile_toLower isSpace_toLower]

theorem lineComment_cons (c d : Char) (cs : List Char) : lineComment (c :: d :: cs) =
    if c = '/' ∧ d = '/' then some ⟨2 + (cs.takeWhile (· ≠ '\n')).length, false⟩ else none := by
  unfold lineComment
  split
  · rename_i heq
    cases heq
    rfl
  · rename_i hne
    rw [if_neg]
    rintro ⟨rfl, rfl⟩
    exact hne cs rfl

theorem lineComment_caseless : Caseless lineComment := by
  intro cs
  match cs with
  | [] => rfl
  | [c] => simp [lineComment]
  | c :: d :: cs =>
    have hfeed : ∀ e : Char, decide (e.toLower ≠ '\n') = decide (e ≠ '\n') := by simp [toLower_eq_iff]
    rw [List.map_cons, List.map_cons, lineComment_cons, lineComment_cons, takeWhile_toLower hfeed]
    simp [toLower_eq_iff]

theorem throughStarSlash_toLower : ∀ cs : List Char, throughStarSlash (cs.map Char.toLower) = throughStarSlash cs
  | [] => rfl
  | [_] => rfl
  | c :: d :: cs => by
    have hrest := throughStarSlash_toLower (d :: cs)
    rw [List.map_cons] at hrest
    rw [List.map_cons, List.map_cons, throughStarSlash, throughStarSlash, hrest]
    simp [toLower_eq_iff]

theorem blockComment_cons (c d : Char) (cs : List Char) : blockComment (c :: d :: cs) =
    if c = '/' ∧ d = '*' then some ((throughStarSlash cs).after 2) else none := by
  unfold blockComment
  split
  · rename_i heq
    cases heq
    rfl
  · rename_i hne
    rw [if_neg]
    rintro ⟨rfl, rfl⟩
    exact hne cs rfl

theorem blockComment_caseless : Caseless blockComment := by
  intro cs
  match cs with
  | [] => rfl
  | [c] => simp [blockComment]
  | c :: d :: cs =>
    rw [List.map_cons, List.map_cons, blockComment_cons, blockComment_cons, throughStarSlash_toLower]
    simp [toLower_eq_iff]

theorem throughClose_toLower {close : Char} (hclose : close.isAlpha = false) : ∀ cs : List Char,
    throughClose close (cs.map Char.toLower) = throughClose close cs
  | [] => rfl
  | [c] => by simp [throughClose, isLineEnd_toLower, toLower_eq_iff hclose]
  | c :: d :: cs => by
    have hbehind := throughClose_toLower hclose cs
    have hrest := throughClose_toLower hclose (d :: cs)
    rw [List.map_cons] at hrest
    rw [List.map_cons, List.map_cons, throughClose, throughClose, hrest, hbehind]
    simp [isLineEnd_toLower, toLower_eq_iff hclose]

theorem delimited_caseless {opener close : Char} (ho : opener.isAlpha = false) (hc : close.isAlpha = false) :
    Caseless (delimited opener close) := by
  intro cs
  cases cs with
  | nil => rfl
  | cons c cs =>
    rw [List.map_cons, delimited, delimited, throughClose_toLower hc]
    simp [toLower_eq_iff ho]

theorem throughNumberSign_toLower (cs : List Char) :
    throughNumberSign (cs.map Char.toLower) = throughNumberSign cs := by
  induction cs with
  | nil => rfl
  | cons c cs ih =>
    rw [List.map_cons, throughNumberSign, throughNumberSign, ih]
    simp [isLineEnd_toLower, toLower_eq_iff]

theorem date_caseless : Caseless date := by
  intro cs
  cases cs with
  | nil => rfl
  | cons c cs =>
    have hcons : ∀ (c : Char) (cs : List Char), date (c :: cs) =
        if c = '#' then some ((throughNumberSign cs).after 1) else none := by
      intro c cs
      unfold date
      split <;> simp_all
    rw [List.map_cons, hcons, hcons, throughNumberSign_toLower]
    simp [toLower_eq_iff]

theorem digits_toLower (cs : List Char) : digits (cs.map Char.toLower) = digits cs :=
  takeWhile_toLower isDigit_toLower cs

theorem fraction_toLower (cs : List Char) : fraction (cs.map Char.toLower) = fraction cs := by
  cases cs with
  | nil => rfl
  | cons c cs =>
    have hcons : ∀ (c : Char) (cs : List Char), fraction (c :: cs) =
        if c = '.' then if digits cs = 0 then 0 else 1 + digits cs else 0 := by
      intro c cs
      unfold fraction
      split <;> simp_all
    rw [List.map_cons, hcons, hcons, digits_toLower]
    simp [toLower_eq_iff]

theorem signLength_toLower (cs : List Char) : signLength (cs.map Char.toLower) = signLength cs := by
  cases cs with
  | nil => rfl
  | cons c cs => simp [signLength, toLower_eq_iff]

theorem exponent_toLower (cs : List Char) : exponent (cs.map Char.toLower) = exponent cs := by
  cases cs with
  | nil => rfl
  | cons c cs =>
    rw [List.map_cons, exponent_cons, exponent_cons, signLength_toLower, ← List.map_drop, digits_toLower]
    simp only [isExponentMark_toLower]

theorem number_caseless : Caseless number := by
  have hmantissa : ∀ cs, mantissa (cs.map Char.toLower) = mantissa cs := by
    intro cs
    rw [mantissa, mantissa, digits_toLower, ← List.map_drop, fraction_toLower]
  intro cs
  rw [number_eq, number_eq, hmantissa, ← List.map_drop, exponent_toLower]

theorem identifier_caseless : Caseless identifier := by
  intro cs
  cases cs with
  | nil => rfl
  | cons c cs =>
    rw [List.map_cons, identifier, identifier, isNameStart_toLower, takeWhile_toLower isNameRest_toLower]

theorem keyword_caseless (word : String) : Caseless (keyword word) := by
  have hfold : fold ∘ Char.toLower = fold := funext fold_toLower
  intro cs
  rw [keyword, keyword, ← List.map_take, List.map_map, hfold]

theorem exactly_caseless {word : String} (hword : ∀ c ∈ word.toList, c.isAlpha = false) : Caseless (exactly word) := by
  have hsame : ∀ {w cs : List Char}, (∀ c ∈ w, c.isAlpha = false) → (cs.map Char.toLower = w ↔ cs = w) := by
    intro w cs hw
    induction w generalizing cs with
    | nil => exact List.map_eq_nil_iff
    | cons x w ih =>
      obtain ⟨hx, hw⟩ := List.forall_mem_cons.mp hw
      cases cs with
      | nil => simp
      | cons c cs => rw [List.map_cons, List.cons.injEq, List.cons.injEq, toLower_eq_iff hx, ih hw]
  intro cs
  rw [exactly, exactly, ← List.map_take]
  simp only [hsame hword]

end Scan

/-- No rule tells letters in one case from letters in the other. -/
theorem Rule.caseless : ∀ r ∈ all, r.scan.Caseless := by
  refine forall_all Scan.spaces_caseless Scan.lineComment_caseless Scan.blockComment_caseless
    (Scan.delimited_caseless rfl rfl) (Scan.delimited_caseless rfl rfl) (Scan.delimited_caseless rfl rfl)
    Scan.date_caseless ?keyword Scan.identifier_caseless Scan.number_caseless ?operator
  case keyword =>
    intro r hr
    obtain ⟨⟨w, k⟩, -, rfl⟩ := List.mem_map.mp hr
    exact Scan.keyword_caseless w
  case operator =>
    intro r hr
    obtain ⟨⟨w, k⟩, hmem, rfl⟩ := List.mem_map.mp hr
    have hsigns := (List.all_eq_true (p := fun p : String × Kind => p.1.toList.all fun c => !c.isAlpha)).mp
      (by decide) _ hmem
    exact Scan.exactly_caseless (by simpa using hsigns)

/-- The token in small letters. -/
def lowered (t : Token) : Token :=
  { t with text := Text.lowered t.text }

theorem length_lowered (t : Token) : t.lowered.text.toList.length = t.text.toList.length := by
  simp [lowered, Text.lowered]

theorem first_toLower (cs : List Char) : first (cs.map Char.toLower) = first cs := by
  rw [first, first, longest_congr fun r hr => Rule.caseless r hr cs]

/-- The tokens of a text in small letters are those of the text, in small letters. -/
theorem lex_toLower (offset : Nat) (cs : List Char) :
    lex offset (cs.map Char.toLower) = (lex offset cs).map lowered := by
  induction hn : cs.length using Nat.strongRecOn generalizing offset cs with
  | _ n ih =>
    cases cs with
    | nil => rw [List.map_nil, lex_nil, List.map_nil]
    | cons c cs =>
      have hlen : (cs.drop ((first (c :: cs)).2.size - 1)).length < n := by
        rw [← hn, List.length_drop, List.length_cons]
        omega
      have hfirst := first_toLower (c :: cs)
      have htext : c.toLower :: (cs.map Char.toLower).take ((first (c :: cs)).2.size - 1) =
          (c :: cs.take ((first (c :: cs)).2.size - 1)).map Char.toLower := by
        rw [List.map_cons, List.map_take]
      have htaking : ∀ found text, taking offset found (text.map Char.toLower) = (taking offset found text).lowered := by
        intro found text
        simp [taking, lowered, Text.lowered, Text.bytes_lowered]
      rw [List.map_cons] at hfirst
      rw [List.map_cons, lex_taking, lex_taking, hfirst, htext, htaking, Text.bytes_lowered, ← List.map_drop,
        ih _ hlen _ _ rfl, List.map_cons]

def isWord (t : Token) : Bool :=
  t.kind == .identifier || t.kind.isKeyword

/-- The characters spell the token anew: a word in other letter case, anything else as it is. -/
def Respelled (t : Token) (cs : List Char) : Prop :=
  if t.isWord then cs.map Char.toLower = t.text.toList.map Char.toLower else cs = t.text.toList

instance (t : Token) (cs : List Char) : Decidable (t.Respelled cs) := by
  unfold Respelled
  infer_instance

theorem Respelled.toLower {t : Token} {cs : List Char} (h : t.Respelled cs) :
    cs.map Char.toLower = t.text.toList.map Char.toLower := by
  unfold Respelled at h
  split at h
  · exact h
  · rw [h]

theorem Respelled.length_eq {t : Token} {cs : List Char} (h : t.Respelled cs) : cs.length = t.text.toList.length := by
  simpa using congrArg List.length h.toLower

/-- A token in other letter case, at the same place. What is no word is the same. -/
structure Recased (t u : Token) : Prop where
  kind : u.kind = t.kind
  range : u.range = t.range
  isOpen : u.isOpen = t.isOpen
  text : Text.lowered u.text = Text.lowered t.text
  same : t.isWord = false → u.text = t.text

theorem Recased.eq_of_not_isWord {t u : Token} (h : t.Recased u) (hword : t.isWord = false) : u = t := by
  obtain ⟨k, x, r, isOpen⟩ := t
  obtain ⟨k', x', r', isOpen'⟩ := u
  rw [Token.mk.injEq]
  exact ⟨h.kind, h.same hword, h.range, h.isOpen⟩

end Token

/-- The second text has each word of the first in some letter case, and all else as it is. -/
def Recased (text text' : String) : Prop :=
  ∃ spellings, List.Forall₂ Token.Respelled (tokenize text) spellings ∧ text'.toList = spellings.flatten

namespace Recased

variable {text text' : String}

theorem toLower (h : Recased text text') : text'.toList.map Char.toLower = text.toList.map Char.toLower := by
  obtain ⟨spellings, hspellings, htext'⟩ := h
  obtain ⟨htext, -⟩ := tokenize_munches text
  rw [htext', ← htext]
  clear htext htext'
  generalize tokenize text = ts at hspellings
  induction hspellings with
  | nil => rfl
  | cons ht _ ih =>
    rw [List.flatten_cons, List.flatMap_cons, List.map_append, List.map_append, ih, ht.toLower]

theorem tokens_lowered (h : Recased text text') :
    (tokenize text').map Token.lowered = (tokenize text).map Token.lowered := by
  rw [tokenize, tokenize, ← Token.lex_toLower, ← Token.lex_toLower, h.toLower]

/-- The words of the second text are the spellings. -/
theorem respelled (h : Recased text text') :
    List.Forall₂ (fun t u => t.Respelled u.text.toList) (tokenize text) (tokenize text') := by
  have hlowered := congrArg (List.map fun t => t.text.toList.length) h.tokens_lowered
  obtain ⟨spellings, hspellings, htext'⟩ := h
  obtain ⟨htext, -⟩ := tokenize_munches text'
  have hlengths : spellings.map List.length = (tokenize text).map (·.text.toList.length) := by
    clear htext' hlowered
    generalize tokenize text = ts at hspellings
    induction hspellings with
    | nil => rfl
    | cons ht _ ih => rw [List.map_cons, List.map_cons, ih, ht.length_eq]
  have hsame : spellings = (tokenize text').map (·.text.toList) := by
    refine List.eq_iff_flatten_eq.mpr ⟨?_, ?_⟩
    · rw [← htext', ← htext, List.flatMap_def]
    · simp only [List.map_map, Function.comp_def, Token.length_lowered] at hlowered
      rw [hlengths, List.map_map, ← hlowered]
      rfl
  rw [hsame, List.forall₂_map_right_iff] at hspellings
  exact hspellings

/-- Words in other letter case are words still, where they were before. -/
theorem tokens (h : Recased text text') : List.Forall₂ Token.Recased (tokenize text) (tokenize text') := by
  have hlowered := h.tokens_lowered
  rw [← List.forall₂_eq_eq_eq, List.forall₂_map_left_iff, List.forall₂_map_right_iff] at hlowered
  refine List.Forall₂.mp (fun t u hrespelled hsame => ?_) h.respelled hlowered.flip
  obtain ⟨hkind, htext, hrange, hopen⟩ := Token.mk.inj hsame
  refine ⟨hkind, hrange, hopen, htext, fun hword => ?_⟩
  rw [Token.Respelled, hword] at hrespelled
  exact String.toList_injective hrespelled

end Recased

end Calculation
