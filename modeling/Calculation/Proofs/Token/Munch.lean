import Mathlib
import Calculation.Proofs.Token.Spelling

namespace Calculation

/-- Ranges that are not empty and follow each other without a gap from one offset to another. -/
def Range.Consecutive (lo hi : Nat) : List Range → Prop
  | [] => lo = hi
  | r :: rs => r.start = lo ∧ lo < r.stop ∧ Consecutive r.stop hi rs

namespace Token

/-- What the first token of `text ++ rest` is: a spelling that no other one exceeds, where a keyword goes before the
name that is spelt the same; or a character that no spelling starts with. -/
inductive Munched : Kind → List Char → List Char → Bool → Prop
  | longest {k : Kind} {text rest : List Char} {isOpen : Bool} (h : Takes k text rest isOpen)
    (hlongest : ∀ k' text' rest' isOpen', Takes k' text' rest' isOpen' → text' ++ rest' = text ++ rest →
      text'.length < text.length ∨ text' = text ∧ (k' = k ∨ k.isKeyword = true ∧ k' = .identifier)) :
    Munched k text rest isOpen
  | unknown {c : Char} {rest : List Char}
    (h : ∀ k' text' rest' isOpen', Takes k' text' rest' isOpen' → text' ++ rest' ≠ c :: rest) :
    Munched .invalid [c] rest false

/-- The tokens of a text by longest match. -/
inductive Munches : Nat → List Char → List Token → Prop
  | nil {offset : Nat} : Munches offset [] []
  | cons {offset : Nat} {k : Kind} {text rest : List Char} {isOpen : Bool} {ts : List Token}
    (h : Munched k text rest isOpen) (hrest : Munches (offset + Text.bytes text) rest ts) :
    Munches offset (text ++ rest) (⟨k, .ofList text, ⟨offset, offset + Text.bytes text⟩, isOpen⟩ :: ts)

variable {k k' : Kind} {c : Char} {cs text rest : List Char} {isOpen : Bool}

theorem not_isNameStart_of_isDigit (h : c.isDigit = true) : Scan.isNameStart c = false := by
  have hunderscore : c ≠ '_' := fun heq => absurd (heq ▸ h) (by decide)
  simp only [Char.isDigit, Scan.isNameStart, Char.isAlpha, Char.isUpper, Char.isLower, Bool.and_eq_true,
    decide_eq_true_eq, Bool.or_eq_false_iff, Bool.and_eq_false_iff, decide_eq_false_iff_not, ge_iff_le,
    UInt32.le_iff_toNat_le] at *
  grind

theorem fold_of_plain (hlong : c ≠ 'ſ') (hkelvin : c ≠ '\u212a') : Scan.fold c = c.toLower := by
  rw [Scan.fold, if_neg hlong, if_neg hkelvin]

theorem fold_of_isDigit (h : c.isDigit = true) : Scan.fold c = c := by
  rw [fold_of_plain (fun heq => absurd (heq ▸ h) (by decide)) (fun heq => absurd (heq ▸ h) (by decide)), Char.toLower,
    dif_neg]
  simp only [Char.isDigit, Bool.and_eq_true, decide_eq_true_eq, ge_iff_le, UInt32.le_iff_toNat_le] at *
  grind

theorem isLower_toLower (h : c.isUpper = true) : c.toLower.isLower = true := by
  have hc : c.val ≥ 'A'.val ∧ c.val ≤ 'Z'.val := of_decide_eq_true h
  have hstep : 'a'.val - 'A'.val = 32 := by decide
  rw [Char.toLower, dif_pos hc]
  simp only [Char.isLower, hstep, Bool.and_eq_true, decide_eq_true_eq, ge_iff_le, UInt32.le_iff_toNat_le,
    UInt32.toNat_add] at hc ⊢
  grind

/-- The first letter of a name is one in small letters too. -/
theorem isNameStart_fold (h : Scan.isNameStart c = true) : Scan.isNameStart (Scan.fold c) = true := by
  rw [fold_of_plain (fun heq => absurd (heq ▸ h) (by decide)) (fun heq => absurd (heq ▸ h) (by decide))]
  by_cases hupper : c.isUpper = true
  · simp [Scan.isNameStart, Char.isAlpha, isLower_toLower hupper]
  · rw [Char.toLower, dif_neg fun hc => hupper (decide_eq_true hc)]
    exact h

theorem apart_of_isNameStart_fold (h : Scan.isNameStart (Scan.fold c) = true) :
    Scan.isSpace c = false ∧ c.isDigit = false := by
  refine ⟨Bool.eq_false_iff.mpr fun hspace => ?_, Bool.eq_false_iff.mpr fun hdigit => ?_⟩
  · rcases Rule.isSpace_cases hspace with rfl | rfl | rfl | rfl | rfl <;> cases h
  · rw [fold_of_isDigit hdigit, not_isNameStart_of_isDigit hdigit] at h
    cases h

/-- What the first characters of a spelling tell: its kind, a word, or else an operator. -/
def family : List Char → Option Kind
  | [] => none
  | c :: cs =>
    if Scan.isSpace c then some .whitespace
    else if c.isDigit then some .number
    else if Scan.isNameStart (Scan.fold c) then some .identifier
    else if c = '"' ∨ c = '\'' then some .string
    else if c = '[' then some .field
    else if c = '#' then some .date
    else if c = '/' ∧ cs.head? = some '/' then some .lineComment
    else if c = '/' ∧ cs.head? = some '*' then some .blockComment
    else if c = '.' ∧ cs ≠ [] then some .number
    else none

theorem family_name (h : Scan.isNameStart (Scan.fold c) = true) (cs : List Char) :
    family (c :: cs) = some .identifier := by
  obtain ⟨hspace, hdigit⟩ := apart_of_isNameStart_fold h
  simp [family, hspace, hdigit, h]

theorem family_digit (h : c.isDigit = true) (cs : List Char) : family (c :: cs) = some .number := by
  have hspace : Scan.isSpace c = false := Bool.eq_false_iff.mpr fun hspace => by
    rcases Rule.isSpace_cases hspace with rfl | rfl | rfl | rfl | rfl <;> cases h
  simp [family, hspace, h]

theorem IsNumber.family (h : IsNumber text) : family text = some .number := by
  obtain ⟨hm, -⟩ := h
  cases hm with
  | whole hd _ =>
    obtain ⟨d, ds, rfl⟩ := List.exists_cons_of_ne_nil hd.1
    exact family_digit (hd.2 d List.mem_cons_self) _
  | point hd =>
    obtain ⟨d, ds, rfl⟩ := List.exists_cons_of_ne_nil hd.1
    rfl

/-- Keywords start with a letter. -/
theorem IsKeyword.family (h : IsKeyword k text) : family text = some .identifier := by
  obtain ⟨c, cs, rfl⟩ := List.exists_cons_of_ne_nil h.ne_nil
  refine family_name ?_ cs
  have hhead : (k.displayName.toList.map Char.toLower).head? = some (Scan.fold c) := by
    rw [← h.spelt]
    rfl
  have hletter : k.isKeyword = true →
      (k.displayName.toList.map Char.toLower).head?.all Scan.isNameStart = true := by
    cases k <;> decide
  have hall := hletter h.kind
  rwa [hhead] at hall

theorem IsOperator.family (h : IsOperator k text) : family text = none := by
  cases h with
  | sign h =>
    refine sign_rule (fun k => ?_) h
    cases k <;> decide
  | and => rfl
  | or => rfl

theorem Takes.family (h : Takes k text rest isOpen) : family text = some k ∨
    IsKeyword k text ∧ family text = some .identifier ∨ IsOperator k text ∧ family text = none := by
  cases h with
  | whitespace hne h =>
    obtain ⟨c, cs, rfl⟩ := List.exists_cons_of_ne_nil hne
    exact .inl (if_pos (h c List.mem_cons_self))
  | delimited hd => cases hd <;> exact .inl rfl
  | openDelimited hd => cases hd <;> exact .inl rfl
  | identifier hc => exact .inl (family_name (isNameStart_fold hc) _)
  | number h => exact .inl h.family
  | keyword h => exact .inr (.inl ⟨h, h.family⟩)
  | operator h => exact .inr (.inr ⟨h, h.family⟩)
  | _ => exact .inl rfl

/-- The keyword of this spelling, by looking it up. -/
theorem IsKeyword.lookup (h : IsKeyword k text) : (Rule.keywords.map (·.kind)).find? (fun j =>
    j.displayName.toList.map Char.toLower == text.map Scan.fold) = some k := by
  rw [h.spelt]
  have hkind := h.kind
  clear h
  revert hkind
  cases k <;> decide

/-- The operator of this text, by looking it up; two words are not called by it. -/
theorem IsOperator.lookup (h : IsOperator k text) : ((Rule.operators.map (·.kind)).find? fun j =>
    j.displayName.toList == '\'' :: (text ++ ['\'']) || (text, j) == (['&', '&'], .and_) ||
      (text, j) == (['|', '|'], .or_)) = some k := by
  cases h with
  | sign h =>
    refine sign_rule (fun k => ?_) h
    cases k <;> decide
  | and => rfl
  | or => rfl

/-- A text is spelt in one way, but that keywords are names too. -/
theorem Takes.tie {isOpen' : Bool} (h : Takes k text rest isOpen) (h' : Takes k' text rest isOpen') :
    k' = k ∨ k.isKeyword = true ∧ k' = .identifier ∨ IsKeyword k' text ∧ k = .identifier := by
  rcases h.family with hk | ⟨hk, hf⟩ | ⟨hk, hf⟩
  · rcases h'.family with hk' | ⟨hk', hf'⟩ | ⟨-, hf'⟩
    · exact .inl (Option.some.inj (hk'.symm.trans hk))
    · exact .inr (.inr ⟨hk', Option.some.inj (hk.symm.trans hf')⟩)
    · cases hk.symm.trans hf'
  · rcases h'.family with hk' | ⟨hk', -⟩ | ⟨-, hf'⟩
    · exact .inr (.inl ⟨hk.kind, Option.some.inj (hk'.symm.trans hf)⟩)
    · exact .inl (Option.some.inj (hk'.lookup.symm.trans hk.lookup))
    · cases hf.symm.trans hf'
  · rcases h'.family with hk' | ⟨-, hf'⟩ | ⟨hk', -⟩
    · cases hk'.symm.trans hf
    · cases hf'.symm.trans hf
    · exact .inl (Option.some.inj (hk'.lookup.symm.trans hk.lookup))

/-- In front of the same text a spelling is not both open and closed. -/
theorem Takes.not_both (h : Takes k text rest true) (h' : Takes k text rest false) : False := by
  generalize ho : true = isOpen at h
  cases h with
  | @openComment body h =>
    generalize ht : '/' :: '*' :: body = text at h'
    cases h' with
    | @blockComment body' _ h' =>
      obtain rfl : body = body' ++ ['*', '/'] := by simpa using ht
      exact h ⟨body', [], by simp⟩
    | delimited hd => cases hd
    | keyword h' => cases ht ▸ h'.family
    | operator h' => cases ht ▸ h'.family
  | @openDelimited k opener close body rest hd h hrest =>
    generalize ht : opener :: body = text at h'
    have hfamily : Token.family text = some k := ht ▸ by cases hd <;> rfl
    cases h' with
    | @delimited _ opener' close' body' _ hd' h' hrest' =>
      obtain ⟨rfl, rfl⟩ : opener = opener' ∧ body = body' ++ [close'] := by simpa using ht
      obtain rfl : close = close' := by cases hd <;> cases hd' <;> rfl
      -- The closing delimiter is found where none should be.
      have hopen := throughClose_eq_open hd.not_isLineEnd h hrest
      rw [List.append_assoc, List.cons_append, List.nil_append, throughClose_append hd.not_isLineEnd h' hrest'] at hopen
      exact Bool.false_ne_true (congrArg Match.isOpen hopen)
    | keyword h' => cases hd <;> cases hfamily.symm.trans h'.family
    | operator h' => cases hfamily.symm.trans h'.family
    | _ => cases hd
  | @openDate body rest h hrest =>
    generalize ht : '#' :: body = text at h'
    cases h' with
    | delimited hd => cases hd
    | @date body' _ h' =>
      obtain rfl : body = body' ++ ['#'] := by simpa using ht
      exact (h '#' (by simp)).1 rfl
    | keyword h' => cases ht ▸ h'.family
    | operator h' => cases ht ▸ h'.family
  | _ => cases ho

theorem longest_append (cs : List Char) (best : Option (Kind × Match)) (rules rules' : List Rule) :
    longest cs best (rules ++ rules') = longest cs (longest cs best rules) rules' := by
  induction rules generalizing best with
  | nil => rfl
  | cons r rules ih =>
    simp only [List.cons_append, longest]
    split <;> exact ih _

/-- The rules that stand before the one for names. -/
def beforeNames : List Rule :=
  Rule.all.take 24

theorem all_eq : Rule.all = beforeNames ++ Rule.all.drop 24 :=
  (List.take_append_drop 24 Rule.all).symm

theorem keyword_before {r : Rule} (hr : r ∈ Rule.keywords) : r ∈ beforeNames :=
  List.mem_of_mem_drop (i := 7) hr

theorem kind_beforeNames {r : Rule} (hr : r ∈ beforeNames) : r.kind ≠ .identifier := by
  have hall : beforeNames.all (fun r => r.kind != .identifier) = true := by decide
  exact bne_iff_ne.mp (List.all_eq_true.mp hall r hr)

/-- A keyword that is no shorter than the first token leaves no name there. -/
theorem first_ne_identifier {r : Rule} (hr : r ∈ Rule.keywords) {m : Match} (hm : r.scan cs = some m)
    (hsize : (first cs).2.size ≤ m.size) : (first cs).1 ≠ .identifier := by
  have hreach := (reach_longest cs none beforeNames).2 r (keyword_before hr) m hm
  cases hbefore : longest cs none beforeNames with
  | none =>
    obtain ⟨text, rest, -, hlen, htakes⟩ := Rule.takes _ (keyword_mem hr) hm
    have hpos := List.length_pos_iff.mpr htakes.ne_nil
    rw [hbefore] at hreach
    exact absurd hreach (by simp only [reach, Option.map_none, Option.getD_none]; omega)
  | some best =>
    rw [hbefore] at hreach
    -- No later rule takes more than what is found before names.
    have hkeep : longest cs (some (best.1, best.2)) (Rule.all.drop 24) = some (best.1, best.2) := by
      refine longest_keeps fun r' hr' m' hm' => ?_
      have hle := size_le_first cs r' (List.mem_of_mem_drop hr') m' hm'
      exact Nat.le_trans hle (Nat.le_trans hsize hreach)
    have hall : longest cs none Rule.all = some best := by
      rw [all_eq, longest_append, hbefore]
      exact hkeep
    obtain ⟨r', hr', hkind, -⟩ := (longest_source hbefore).resolve_left nofun
    rw [first, hall]
    exact hkind ▸ kind_beforeNames hr'

/-- No spelling at the start of a text is longer than the first token. -/
theorem Takes.length_le (h : Takes k text rest isOpen) : text.length ≤ (first (text ++ rest)).2.size := by
  obtain ⟨r, hr, -, m, hm, hle⟩ := h.found
  exact Nat.le_trans hle (size_le_first _ r hr m hm)

theorem kind_ne_invalid {r : Rule} (hr : r ∈ Rule.all) : r.kind ≠ .invalid := by
  have hall : Rule.all.all (fun r => r.kind != .invalid) = true := by decide
  exact bne_iff_ne.mp (List.all_eq_true.mp hall r hr)

/-- The first token of a text is the longest match there. -/
theorem munched_first (c : Char) (cs : List Char) : Munched (first (c :: cs)).1
    (c :: cs.take ((first (c :: cs)).2.size - 1)) (cs.drop ((first (c :: cs)).2.size - 1))
    (first (c :: cs)).2.isOpen := by
  by_cases hinvalid : (first (c :: cs)).1 = .invalid
  · have hnone : longest (c :: cs) none Rule.all = none := by
      cases hl : longest (c :: cs) none Rule.all with
      | none => rfl
      | some found =>
        obtain ⟨r, hr, hkind, -⟩ := (longest_source hl).resolve_left nofun
        rw [first, hl] at hinvalid
        exact absurd (hkind.trans hinvalid) (kind_ne_invalid hr)
    have hfirst : first (c :: cs) = (.invalid, ⟨1, false⟩) := by rw [first, hnone]; rfl
    rw [hfirst]
    refine .unknown fun k text rest isOpen htakes happ => ?_
    obtain ⟨r, hr, -, m, hm, hle⟩ := htakes.found
    have hzero := (reach_longest (c :: cs) none Rule.all).2 r hr m (happ ▸ hm)
    have hpos := List.length_pos_iff.mpr htakes.ne_nil
    rw [hnone] at hzero
    simp only [reach, Option.map_none, Option.getD_none] at hzero
    omega
  · obtain ⟨r, hr, hkind, hscan⟩ := first_source hinvalid
    obtain ⟨text, rest, happ, hlen, htakes⟩ := Rule.takes _ hr hscan
    rw [hkind] at htakes
    obtain ⟨d, ds, rfl⟩ := List.exists_cons_of_ne_nil htakes.ne_nil
    obtain ⟨rfl, rfl⟩ : c = d ∧ cs = ds ++ rest := by simpa using happ
    have hsize : (first (c :: (ds ++ rest))).2.size - 1 = ds.length := by
      rw [← hlen, List.length_cons, Nat.add_sub_cancel]
    rw [hsize, List.take_left, List.drop_left]
    refine .longest htakes fun k' text' rest' isOpen' htakes' happ' => ?_
    have hle := htakes'.length_le
    rw [happ', List.cons_append, ← hlen] at hle
    rcases Nat.lt_or_eq_of_le hle with hlt | heq
    · exact .inl hlt
    · obtain ⟨rfl, rfl⟩ := List.append_inj happ' heq
      refine .inr ⟨rfl, ?_⟩
      rcases htakes.tie htakes' with h | h | ⟨hkeyword, hname⟩
      · exact .inl h
      · exact .inr h
      · -- The keyword stands before the name in the table.
        obtain ⟨r', hr', -, hscan'⟩ := hkeyword.found rest'
        exact absurd hname (first_ne_identifier hr' hscan' (Nat.le_of_eq hlen.symm))

/-- There is only one first token. -/
theorem Munched.unique {text' rest' : List Char} {isOpen' : Bool} (h : Munched k text rest isOpen)
    (h' : Munched k' text' rest' isOpen') (happ : text ++ rest = text' ++ rest') :
    k = k' ∧ text = text' ∧ rest = rest' ∧ isOpen = isOpen' := by
  cases h with
  | longest h hlongest =>
    cases h' with
    | longest h' hlongest' =>
      have hone := hlongest _ _ _ _ h' happ.symm
      have htwo := hlongest' _ _ _ _ h happ
      obtain ⟨rfl, hkind⟩ := hone.resolve_left (by rcases htwo with h | ⟨rfl, -⟩ <;> omega)
      obtain ⟨-, hkind'⟩ := htwo.resolve_left (by omega)
      obtain rfl := List.append_cancel_left happ
      obtain rfl : k = k' := by
        rcases hkind with rfl | ⟨hkeyword, rfl⟩
        · rfl
        · rcases hkind' with rfl | ⟨hname, -⟩
          · rfl
          · cases hname
      refine ⟨rfl, rfl, rfl, ?_⟩
      cases isOpen <;> cases isOpen'
      · rfl
      · exact (h'.not_both h).elim
      · exact (h.not_both h').elim
      · rfl
    | unknown h' => exact absurd happ (h' _ _ _ _ h)
  | unknown h =>
    cases h' with
    | longest h' => exact absurd happ.symm (h _ _ _ _ h')
    | unknown =>
      obtain ⟨rfl, rfl⟩ : _ ∧ _ := by simpa using happ
      exact ⟨rfl, rfl, rfl, rfl⟩

theorem munches_lex (offset : Nat) (cs : List Char) : Munches offset cs (lex offset cs) := by
  induction hn : cs.length using Nat.strongRecOn generalizing offset cs with
  | _ n ih =>
    cases cs with
    | nil =>
      rw [lex_nil]
      exact .nil
    | cons c cs =>
      have hlen : (cs.drop ((first (c :: cs)).2.size - 1)).length < n := by
        rw [← hn, List.length_drop, List.length_cons]
        omega
      have hcons := @Munches.cons offset _ _ _ _ _ (munched_first c cs) (ih _ hlen _ _ rfl)
      rw [List.cons_append, List.take_append_drop] at hcons
      rw [lex_taking]
      exact hcons

theorem Munched.ne_nil (h : Munched k text rest isOpen) : text ≠ [] := by
  cases h with
  | longest h => exact h.ne_nil
  | unknown => exact List.cons_ne_nil _ _

theorem Munches.unique {offset : Nat} {ts us : List Token} (h : Munches offset cs ts) (h' : Munches offset cs us) :
    ts = us := by
  induction h generalizing us with
  | nil =>
    generalize hcs : ([] : List Char) = cs at h'
    cases h' with
    | nil => rfl
    | cons h' => exact absurd (List.append_eq_nil_iff.mp hcs.symm).1 h'.ne_nil
  | cons h _ ih =>
    rename_i offset k text rest isOpen ts _
    generalize hcs : text ++ rest = cs at h'
    cases h' with
    | nil => exact absurd (List.append_eq_nil_iff.mp hcs).1 h.ne_nil
    | cons h' hrest' =>
      obtain ⟨rfl, rfl, rfl, rfl⟩ := h.unique h' hcs
      rw [ih hrest']

/-- Nothing of the text is lost, and every token takes some of it. -/
theorem Munches.lossless {offset : Nat} {ts : List Token} (h : Munches offset cs ts) :
    ts.flatMap (·.text.toList) = cs ∧ (∀ t ∈ ts, t.text ≠ "") ∧
      Range.Consecutive offset (offset + Text.bytes cs) (ts.map (·.range)) := by
  induction h with
  | nil => exact ⟨rfl, by simp, rfl⟩
  | cons h _ ih =>
    rename_i offset k text rest isOpen ts _
    obtain ⟨htext, hne, hranges⟩ := ih
    have hpos := bytes_pos h.ne_nil
    rw [Text.bytes_append, ← Nat.add_assoc]
    refine ⟨?_, List.forall_mem_cons.mpr ⟨fun hempty => h.ne_nil ?_, hne⟩, rfl, ?_, hranges⟩
    · rw [List.flatMap_cons, htext, String.toList_ofList]
    · have hlist := congrArg String.toList hempty
      rwa [String.toList_ofList] at hlist
    · exact Nat.lt_add_of_pos_right hpos

end Token

/-- The tokens of a text take it in pieces that are not empty, one behind the other from its start to its end, and
each is the longest match where it starts. No other tokens are. -/
theorem tokenize_munches (text : String) :
    (tokenize text).flatMap (·.text.toList) = text.toList ∧ (∀ t ∈ tokenize text, t.text ≠ "") ∧
      Range.Consecutive 0 (Text.bytes text.toList) ((tokenize text).map (·.range)) ∧
      ∀ ts, Token.Munches 0 text.toList ts ↔ ts = tokenize text := by
  have hmunches : Token.Munches 0 text.toList (tokenize text) := Token.munches_lex 0 text.toList
  obtain ⟨htext, hne, hranges⟩ := hmunches.lossless
  rw [Nat.zero_add] at hranges
  exact ⟨htext, hne, hranges, fun ts => ⟨fun h => h.unique hmunches, fun h => h ▸ hmunches⟩⟩

end Calculation
