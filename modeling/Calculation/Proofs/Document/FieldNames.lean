import Calculation.Proofs.Document.Lines
import Calculation.Proofs.Token.Munch
import Calculation.Outline.Basic

/-!
Names of fields. A name is written between brackets with its own closing brackets doubled, and this is undone where a
field token is decoded; both ways round it gives back what there was. Main statement: a name written so is read as one
field of that name, and a closed field token is what its name is written as.
-/
namespace Calculation

namespace Text

/-- Every closing bracket doubled. -/
def doubled (cs : List Char) : List Char :=
  cs.flatMap fun c => if c = ']' then [']', ']'] else [c]

theorem doubled_cons (c : Char) (cs : List Char) :
    doubled (c :: cs) = (if c = ']' then [']', ']'] else [c]) ++ doubled cs := by
  rw [doubled, List.flatMap_cons]
  rfl

theorem unquoted_other {c : Char} (hc : c ≠ ']') (cs : List Char) : unquoted (c :: cs) = c :: unquoted cs := by
  rw [unquoted]
  exact fun _ h => absurd h hc

theorem unquoted_doubled (cs : List Char) : unquoted (doubled cs) = cs := by
  induction cs with
  | nil => rfl
  | cons c cs ih =>
    rw [doubled_cons]
    split
    · rename_i hc
      rw [List.cons_append, List.cons_append, List.nil_append, unquoted, ih, hc]
    · rename_i hc
      rw [List.cons_append, List.nil_append, unquoted_other hc, ih]

/-- Pairs of closing brackets are what doubling makes. -/
theorem doubled_unquoted {body : List Char} (h : Token.Doubled ']' body) : doubled (unquoted body) = body := by
  induction h with
  | nil => rfl
  | other hc _ _ ih => rw [unquoted_other hc, doubled_cons, if_neg hc, ih]; rfl
  | pair _ ih => rw [unquoted, doubled_cons, if_pos rfl, ih]; rfl

/-- What is doubled on one line has its closing brackets in pairs. -/
theorem doubled_pairs {cs : List Char} (hcr : '\r' ∉ cs) (hlf : '\n' ∉ cs) : Token.Doubled ']' (doubled cs) := by
  induction cs with
  | nil => exact .nil
  | cons c cs ih =>
    rw [List.mem_cons, not_or] at hcr hlf
    rw [doubled_cons]
    split
    · exact .pair (ih hcr.2 hlf.2)
    · rename_i hc
      exact .other hc (by simp [Token.Scan.isLineEnd, Ne.symm hcr.1, Ne.symm hlf.1]) (ih hcr.2 hlf.2)

end Text

namespace Token

/-- No line ends in the name. -/
def OnOneLine (name : String) : Prop :=
  '\r' ∉ name.toList ∧ '\n' ∉ name.toList

/-- What a field of the name is written as. -/
def bracketed (name : String) : String :=
  "[" ++ .ofList (Text.doubled name.toList) ++ "]"

theorem toList_bracketed (name : String) :
    (bracketed name).toList = '[' :: (Text.doubled name.toList ++ [']']) := by
  simp [bracketed]

theorem OnOneLine.notMem_bracketed {name : String} (h : OnOneLine name) : '\n' ∉ (bracketed name).toList := by
  rw [toList_bracketed, Text.doubled]
  simp only [List.mem_cons, List.mem_append, List.mem_flatMap, not_or, not_exists, not_and]
  refine ⟨by decide, fun c hc hmem => ?_, by simp⟩
  split at hmem
  · simp at hmem
  · exact h.2 (List.mem_singleton.mp hmem ▸ hc)

/-- A field token with its closing bracket. -/
def IsClosedField (t : Token) : Prop :=
  t.kind = .field ∧ t.isOpen = false

variable {offset : Nat} {cs body rest : List Char} {t : Token}

theorem first_bracket (cs : List Char) : first ('[' :: cs) = (.field, (Scan.throughClose ']' cs).after 1) := rfl

theorem first_dot (cs : List Char) : first ('.' :: '[' :: cs) = (.dot, ⟨1, false⟩) := rfl

/-- A name in brackets is a token. -/
theorem lex_bracketed {name : String} (offset : Nat) (rest : List Char) (hname : OnOneLine name)
    (hrest : rest.head? ≠ some ']') : lex offset ((bracketed name).toList ++ rest) =
      ⟨.field, bracketed name, ⟨offset, offset + Text.bytes (bracketed name).toList⟩, false⟩ ::
        lex (offset + Text.bytes (bracketed name).toList) rest := by
  have hfirst : first ('[' :: (Text.doubled name.toList ++ [']'] ++ rest)) =
      (.field, ⟨1 + ((Text.doubled name.toList).length + 1), false⟩) := by
    rw [first_bracket, List.append_assoc, List.cons_append, List.nil_append,
      throughClose_append rfl (Text.doubled_pairs hname.1 hname.2) hrest]
    rfl
  have hlen : 1 + ((Text.doubled name.toList).length + 1) - 1 = (Text.doubled name.toList ++ [']']).length := by simp
  have htoken (n : Nat) : taking n (.field, ⟨1 + ((Text.doubled name.toList).length + 1), false⟩)
      (bracketed name).toList = ⟨.field, bracketed name, ⟨n, n + Text.bytes (bracketed name).toList⟩, false⟩ := by
    rw [taking, String.ofList_toList]
  rw [← htoken, toList_bracketed, List.cons_append, lex_taking, hfirst, hlen, List.take_left, List.drop_left]

/-- A dot in front of a field is a token. -/
theorem lex_dot (offset : Nat) (name : String) : lex offset ('.' :: (bracketed name).toList) =
    ⟨.dot, ".", ⟨offset, offset + 1⟩, false⟩ :: lex (offset + 1) (bracketed name).toList := by
  rw [toList_bracketed, lex_taking, first_dot]
  rfl

theorem fieldName_bracketed (name : String) (r : Range) :
    fieldName ⟨.field, bracketed name, r, false⟩ = name := by
  simp [fieldName, toList_bracketed, Text.unquoted_doubled]

/-- A closed field token stands between brackets. -/
theorem IsClosedField.text_eq (h : t.IsClosedField) (ht : t ∈ lex offset cs) :
    ∃ body, Doubled ']' body ∧ t.text = .ofList ('[' :: (body ++ [']'])) := by
  obtain ⟨hk, ho⟩ := h
  obtain ⟨n, c, xs, rfl⟩ := exists_first ht
  have hmunched := munched_first c xs
  rw [show (first (c :: xs)).1 = .field from hk, show (first (c :: xs)).2.isOpen = false from ho] at hmunched
  dsimp only [taking]
  generalize c :: xs.take ((first (c :: xs)).2.size - 1) = text at hmunched ⊢
  cases hmunched with
  | longest h =>
    cases h with
    | delimited hd hbody =>
      cases hd
      exact ⟨_, hbody, rfl⟩
    | keyword h => cases h.kind
    | operator h =>
      cases h with
      | sign h => exact absurd (congrArg List.head? h) (show some 'f' ≠ some '\'' by decide)

/-- Doubling the closing brackets of its name gives back a closed field token. -/
theorem IsClosedField.bracketed (h : t.IsClosedField) (ht : t ∈ lex offset cs) :
    bracketed t.fieldName = t.text := by
  obtain ⟨body, hbody, htext⟩ := h.text_eq ht
  refine String.toList_injective ?_
  rw [toList_bracketed, fieldName, h.2, htext]
  simp [Text.doubled_unquoted hbody]

end Token

/-- A text without line feeds has one line, and nothing in it goes on to another. -/
theorem LineTable.continuation_one_line {cs : List Char} (h : '\n' ∉ cs) (r : Range) :
    (LineTable.ofText cs).continuation r = [] := by
  have hstarts : LineTable.startsAfter 0 cs = [] := by
    rw [← List.length_eq_zero_iff, LineTable.length_startsAfter, List.count_eq_zero]
    exact h
  simp [LineTable.continuation, LineTable.linesOf, LineTable.lineOf, LineTable.ofText, hstarts]

namespace Outline
open Token Statement

variable {options : Options} {text : String} {levels : Nat}

/-- The text is read as the one symbol, and nothing is reported. -/
structure ReadAs (options : Options) (text : String) (s : Symbol) : Prop where
  symbols : (ofText options text).symbols = [s]
  faults : (ofText options text).faults = []
  diagnostics : (ofText options text).diagnostics = []

/-- A field of a text that is nothing else. -/
def fieldOf (text : String) (qualifier : Option String) (name : String) : Symbol :=
  ⟨name, .field qualifier, ⟨0, Text.bytes text.toList⟩, [], true, []⟩

/-- A text without comments whose lexemes are one statement that meets no fault. -/
theorem readAs_of_statement {s : Symbol} {i : Item} (hcomments : (tokenize text).filter (·.kind.isComment) = [])
    (hi : Statement.statements ⟨options, text.toList, .ofText text.toList⟩
      (Lexeme.significant false (tokenize text)).length (Lexeme.significant false (tokenize text)) = [i])
    (hs : i.symbols = [s]) (hevents : Event.faults i.events = []) : ReadAs options text s := by
  unfold tokenize at hcomments hi
  have hread : ofText options text =
      ofReading (Reading.empty.push (Run.ofItem (.ofText text.toList) i)) (LineTable.ofText text.toList).count := by
    simp only [ofText, Reading.ofTokens, Item.ofTokens, hcomments, hi, List.map_nil, List.foldl_nil, Run.ofItems,
      List.map_cons, Run.gather, List.foldl_cons]
  have hfaults : (Reading.empty.push (Run.ofItem (.ofText text.toList) i)).faults = [] := by
    simp [Reading.push, Reading.empty, Run.ofItem, hevents, Diagnostic.inPlaceOrder]
  refine ⟨?_, ?_, ?_⟩
  · rw [hread, ← hs]
    rfl
  · rw [hread]
    exact hfaults
  · rw [hread]
    simp only [ofReading, hfaults, Diagnostic.canonical, Diagnostic.keepFirst, List.mergeSort_nil]

variable {q n : String}

theorem tokenize_bracketed (hn : OnOneLine n) :
    tokenize (bracketed n) = [⟨.field, bracketed n, ⟨0, Text.bytes (bracketed n).toList⟩, false⟩] := by
  have hone := lex_bracketed 0 [] hn (by simp)
  rw [List.append_nil, lex_nil, Nat.zero_add] at hone
  exact hone

theorem tokenize_qualified (hq : OnOneLine q) (hn : OnOneLine n) :
    ∃ a b : Nat, a ≤ Text.bytes (bracketed q ++ "." ++ bracketed n).toList ∧
      tokenize (bracketed q ++ "." ++ bracketed n) =
      [⟨.field, bracketed q, ⟨0, a⟩, false⟩, ⟨.dot, ".", ⟨a, b⟩, false⟩,
        ⟨.field, bracketed n, ⟨b, Text.bytes (bracketed q ++ "." ++ bracketed n).toList⟩, false⟩] := by
  have htext : (bracketed q ++ "." ++ bracketed n).toList = (bracketed q).toList ++ '.' :: (bracketed n).toList := by
    simp
  have hqualifier := lex_bracketed 0 ('.' :: (bracketed n).toList) hq (by simp)
  have hname := lex_bracketed (Text.bytes (bracketed q).toList + 1) [] hn (by simp)
  have hbytes : Text.bytes ((bracketed q).toList ++ '.' :: (bracketed n).toList) =
      Text.bytes (bracketed q).toList + 1 + Text.bytes (bracketed n).toList := by
    rw [Text.bytes_append, Text.bytes_cons, ← Nat.add_assoc]
    rfl
  rw [List.append_nil, lex_nil] at hname
  refine ⟨Text.bytes (bracketed q).toList, Text.bytes (bracketed q).toList + 1, by rw [htext, hbytes]; omega, ?_⟩
  rw [tokenize, htext, hqualifier, Nat.zero_add, lex_dot, hname, hbytes]

theorem statements_field (src : Source) (hlevels : src.options.levels = levels + 1) (name : String) (r : Range) :
    ∃ i, Statement.statements src 1 [⟨⟨.field, bracketed name, r, false⟩, false⟩] = [i] ∧
      i.symbols = [⟨name, .field none, r, [], true, src.lines.continuation r⟩] ∧ Event.faults i.events = [] := by
  refine ⟨⟨⟨r.start, max r.stop r.start⟩, true, [⟨fieldName ⟨.field, bracketed name, r, false⟩, .field none, r, [],
    true, src.lines.continuation r⟩], [.valid]⟩, ?_, ?_, rfl⟩
  · simp only [Statement.statements, nextItem, statement, hlevels]
    rfl
  · rw [fieldName_bracketed]

theorem statements_qualified (src : Source) (hlevels : src.options.levels = levels + 1) (q n : String)
    (r s dot : Range) : ∃ i, Statement.statements src 3 [⟨⟨.field, bracketed q, r, false⟩, false⟩,
        ⟨⟨.dot, ".", dot, false⟩, false⟩, ⟨⟨.field, bracketed n, s, false⟩, false⟩] = [i] ∧
      i.symbols = [⟨n, .field (some q), r.cover s, [], true, src.lines.continuation (r.cover s)⟩] ∧
        Event.faults i.events = [] := by
  refine ⟨⟨⟨r.start, max s.stop r.start⟩, true, [⟨fieldName ⟨.field, bracketed n, s, false⟩,
    .field (some (fieldName ⟨.field, bracketed q, r, false⟩)), r.cover s, [], true,
    src.lines.continuation (r.cover s)⟩], [.valid]⟩, ?_, ?_, rfl⟩
  · simp only [Statement.statements, nextItem, statement, hlevels]
    rfl
  · rw [fieldName_bracketed, fieldName_bracketed]

theorem readAs_bracketed (hlevels : options.levels = levels + 1) (hn : OnOneLine n) :
    ReadAs options (bracketed n) (fieldOf (bracketed n) none n) := by
  have htokens := tokenize_bracketed hn
  obtain ⟨i, hi, hs, hevents⟩ := statements_field ⟨options, (bracketed n).toList, .ofText (bracketed n).toList⟩
    hlevels n ⟨0, Text.bytes (bracketed n).toList⟩
  refine readAs_of_statement ?_ ?_ ?_ hevents
  · rw [htokens]
    rfl
  · rw [htokens]
    exact hi
  · rw [hs, LineTable.continuation_one_line hn.notMem_bracketed]
    rfl

theorem readAs_qualified (hlevels : options.levels = levels + 1) (hq : OnOneLine q)
    (hn : OnOneLine n) : ReadAs options (bracketed q ++ "." ++ bracketed n)
      (fieldOf (bracketed q ++ "." ++ bracketed n) (some q) n) := by
  obtain ⟨a, b, ha, htokens⟩ := tokenize_qualified hq hn
  have hline : '\n' ∉ (bracketed q ++ "." ++ bracketed n).toList := by
    simp [hq.notMem_bracketed, hn.notMem_bracketed]
  generalize bracketed q ++ "." ++ bracketed n = text at ha htokens hline
  obtain ⟨i, hi, hs, hevents⟩ := statements_qualified ⟨options, text.toList, .ofText text.toList⟩ hlevels q n
    ⟨0, a⟩ ⟨b, Text.bytes text.toList⟩ ⟨a, b⟩
  refine readAs_of_statement ?_ ?_ ?_ hevents
  · rw [htokens]
    rfl
  · rw [htokens]
    exact hi
  · have hcover : Range.cover ⟨0, a⟩ ⟨b, Text.bytes text.toList⟩ = ⟨0, Text.bytes text.toList⟩ := by
      rw [Range.cover, Nat.zero_min, Nat.max_eq_right ha]
    rw [hs, hcover, LineTable.continuation_one_line hline]
    rfl

/-- Names of fields and the texts of field tokens are one to one. On one line, a name in brackets is read as one
complete field of that name and nothing is reported, and so are a qualifier and a name; at least one level of
expressions must be allowed for that. And the name of a closed field token of any text is written as the token is, so
tokens that are written in different ways have different names. -/
theorem field_names_round_trip :
    (∀ (options : Options) (n : String), 0 < options.levels → OnOneLine n →
      ReadAs options (bracketed n) (fieldOf (bracketed n) none n) ∧
        ∀ q : String, OnOneLine q → ReadAs options (bracketed q ++ "." ++ bracketed n)
          (fieldOf (bracketed q ++ "." ++ bracketed n) (some q) n)) ∧
    (∀ text, ∀ t ∈ tokenize text, t.IsClosedField → bracketed t.fieldName = t.text) ∧
      ∀ text text', ∀ t ∈ tokenize text, ∀ u ∈ tokenize text', t.IsClosedField → u.IsClosedField →
        t.fieldName = u.fieldName → t.text = u.text := by
  refine ⟨fun options n hlevels hn => ?_, fun text t ht h => h.bracketed ht, fun text text' t ht u hu h h' hname => ?_⟩
  · obtain ⟨levels, hlevels⟩ : ∃ levels, options.levels = levels + 1 := ⟨options.levels - 1, by omega⟩
    exact ⟨readAs_bracketed hlevels hn, fun q hq => readAs_qualified hlevels hq hn⟩
  · rw [← h.bracketed ht, ← h'.bracketed hu, hname]

/-- For instance a name that is one closing bracket, to qualify an empty name. -/
theorem field_names_round_trip_bracket :
    ReadAs .default "[]]].[]" (fieldOf "[]]].[]" (some "]") "") ∧
      ∃ t ∈ tokenize "([]]])", t.IsClosedField ∧ bracketed t.fieldName = "[]]]" ∧
        ∀ u ∈ tokenize "[]]] + []", u.IsClosedField → t.fieldName = u.fieldName → t.text = u.text := by
  have htext : bracketed "]" ++ "." ++ bracketed "" = "[]]].[]" := by decide +kernel
  have hread := (field_names_round_trip.1 .default "" (by decide) ⟨by decide, by decide⟩).2 "]" ⟨by decide, by decide⟩
  rw [htext] at hread
  have ht : ⟨.field, "[]]]", ⟨1, 5⟩, false⟩ ∈ tokenize "([]]])" := by decide +kernel
  exact ⟨hread, _, ht, ⟨rfl, rfl⟩, field_names_round_trip.2.1 _ _ ht ⟨rfl, rfl⟩, fun u hu h hname =>
    field_names_round_trip.2.2 _ _ _ ht u hu ⟨rfl, rfl⟩ h hname⟩

end Outline

end Calculation
