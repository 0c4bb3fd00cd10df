import Calculation.Proofs.Likeness.Items

/-!
Two texts with the same tokens, laid out in different ways. Tokens correspond one to one and in order; ranges
correspond when they start with corresponding tokens and stop with corresponding tokens. What is read of the two texts
corresponds when it is the same but for its ranges, for the lines that these run over and for the source of arguments
at these. So matching texts are alike.
-/
namespace Calculation

/-- Which token of one text stands for which token of another that is read with the same options. -/
structure Matching (src src' : Source) where
  options : src'.options = src.options
  Pair : Token → Token → Prop
  kind : ∀ {t u : Token}, Pair t u → u.kind = t.kind
  text : ∀ {t u : Token}, Pair t u → u.text = t.text
  isOpen : ∀ {t u : Token}, Pair t u → u.isOpen = t.isOpen
  proper : ∀ {t u : Token}, Pair t u → t.range.start < t.range.stop ∧ u.range.start < u.range.stop
  /-- Two tokens of the one text stand in the order of those of the other. -/
  order : ∀ {t u t' u' : Token}, Pair t u → Pair t' u' → (t = t' ∧ u = u') ∨
    (t.range.stop ≤ t'.range.start ∧ u.range.stop ≤ u'.range.start) ∨
    (t'.range.stop ≤ t.range.start ∧ u'.range.stop ≤ u.range.start)

namespace Matching

variable {src src' : Source} (m : Matching src src')

/-- Ranges from the start of one token to the end of another, or empty ones at the start of a token. -/
inductive Ranges : Range → Range → Prop
  | run {t u t' u' : Token} (hfirst : m.Pair t u) (hlast : m.Pair t' u') (h : t.range.start < t'.range.stop)
    (h' : u.range.start < u'.range.stop) :
    Ranges ⟨t.range.start, t'.range.stop⟩ ⟨u.range.start, u'.range.stop⟩
  | empty {t u : Token} (h : m.Pair t u) : Ranges (.empty t.range.start) (.empty u.range.start)

structure Branches (b b' : Branch) : Prop where
  kind : b'.kind = b.kind
  keyword : m.Ranges b.keyword b'.keyword
  range : m.Ranges b.range b'.range

/-- The source of each argument is what stands at its range. -/
structure Arguments (a a' : Argument) : Prop where
  range : m.Ranges a.range a'.range
  isComplete : a'.isComplete = a.isComplete
  source : a.text = src.trimmed a.range
  source' : a'.text = src'.trimmed a'.range

inductive Kinds : Symbol.Kind → Symbol.Kind → Prop
  | block {block : BlockKind} {bs bs' : List Branch} {stop stop' : Option Range}
    (hbranches : List.Forall₂ m.Branches bs bs') (hstop : Option.Rel m.Ranges stop stop') :
    Kinds (.block block bs stop) (.block block bs' stop')
  | call {as as' : List Argument} {isNested : Bool} (harguments : List.Forall₂ m.Arguments as as') :
    Kinds (.call as isNested) (.call as' isNested)
  | field (qualifier : Option String) : Kinds (.field qualifier) (.field qualifier)
  | operator : Kinds .operator .operator
  | literal (literal : LiteralKind) : Kinds (.literal literal) (.literal literal)
  | skipped : Kinds .skipped .skipped

/-- Symbols that are the same but for their ranges and what stands at these in each text. -/
inductive Symbols : Symbol → Symbol → Prop
  | mk {name : String} {k k' : Symbol.Kind} {r r' : Range} {cs cs' : List Symbol} {isComplete : Bool}
    (hkind : m.Kinds k k') (hrange : m.Ranges r r') (hchildren : List.Forall₂ Symbols cs cs') :
    Symbols ⟨name, k, r, cs, isComplete, src.lines.continuation r⟩
      ⟨name, k', r', cs', isComplete, src'.lines.continuation r'⟩

/-- Lists of symbols that correspond one to one. -/
abbrev Trees : List Symbol → List Symbol → Prop :=
  List.Forall₂ m.Symbols

structure Relateds (x x' : Related) : Prop where
  message : x'.message = x.message
  range : m.Ranges x.range x'.range

/-- Diagnostics that are the same but for the places they point at. -/
structure Diagnostics (d d' : Diagnostic) : Prop where
  code : d'.code = d.code
  severity : d'.severity = d.severity
  range : m.Ranges d.range d'.range
  proper : d.range.start < d.range.stop
  message : d'.message = d.message
  remedy : d'.remedy = d.remedy
  related : List.Forall₂ m.Relateds d.related d'.related

inductive Events : Event → Event → Prop
  | fault {d d' : Diagnostic} (h : m.Diagnostics d d') : Events (.fault d) (.fault d')
  | valid : Events .valid .valid

/-- The end of the last token taken, or nothing taken yet. -/
inductive Ends : Nat → Nat → Prop
  | unmoved : Ends 0 0
  | token {t u : Token} (h : m.Pair t u) : Ends t.range.stop u.range.stop

variable {m : Matching src src'} {c c' : Cursor} {t u t' u' : Token} {r r' : Range}

theorem range_of_pair (h : m.Pair t u) : m.Ranges t.range u.range :=
  .run h h (m.proper h).1 (m.proper h).2

/-- Where nothing was taken behind the start of a token, that is so for both. -/
theorem Ends.le_start (h : m.Ends c.lastEnd c'.lastEnd) (ht : m.Pair t u) :
    c.lastEnd ≤ t.range.start ∧ c'.lastEnd ≤ u.range.start ∨
      ∃ x y, m.Pair x y ∧ c.lastEnd = x.range.stop ∧ c'.lastEnd = y.range.stop ∧ t.range.start < x.range.stop ∧
        u.range.start < y.range.stop := by
  generalize c.lastEnd = n, c'.lastEnd = n' at h
  cases h with
  | unmoved => exact .inl ⟨Nat.zero_le _, Nat.zero_le _⟩
  | @token x y h =>
    have hproper := m.proper h
    have htproper := m.proper ht
    rcases m.order h ht with ⟨rfl, rfl⟩ | hbefore | hbehind
    · exact .inr ⟨x, y, h, rfl, rfl, hproper.1, hproper.2⟩
    · exact .inl hbefore
    · exact .inr ⟨x, y, h, rfl, rfl, by omega, by omega⟩

theorem Ends.since (h : m.Ends c.lastEnd c'.lastEnd) (ht : m.Pair t u) :
    m.Ranges (c.since t.range.start) (c'.since u.range.start) := by
  unfold Cursor.since
  rcases h.le_start ht with ⟨h, h'⟩ | ⟨x, y, hxy, hx, hy, h, h'⟩
  · rw [Nat.max_eq_right h, Nat.max_eq_right h']
    exact .empty ht
  · rw [hx, hy, Nat.max_eq_left (Nat.le_of_lt h), Nat.max_eq_left (Nat.le_of_lt h')]
    exact .run ht hxy h h'

theorem Ranges.cover (ht : m.Pair t u) (ht' : m.Pair t' u') :
    m.Ranges (t.range.cover t'.range) (u.range.cover u'.range) := by
  have hp := m.proper ht
  have hp' := m.proper ht'
  unfold Range.cover
  rcases m.order ht ht' with ⟨rfl, rfl⟩ | h | h
  · simp only [Nat.min_self, Nat.max_self]
    exact range_of_pair ht
  · rw [Nat.min_eq_left (by omega), Nat.max_eq_right (by omega), Nat.min_eq_left (by omega),
      Nat.max_eq_right (by omega)]
    exact .run ht ht' (by omega) (by omega)
  · rw [Nat.min_eq_right (by omega), Nat.max_eq_left (by omega), Nat.min_eq_right (by omega),
      Nat.max_eq_left (by omega)]
    exact .run ht' ht (by omega) (by omega)

/-- Nothing stands at an empty range. -/
theorem trimmed_empty (src : Source) (n : Nat) : src.trimmed (.empty n) = "" := by
  have hnothing : ∀ cs, Text.splitAt? 0 cs = some ([], cs) := fun cs => by rw [Text.splitAt?]
  unfold Source.trimmed Text.slice?
  rw [Range.length, Range.empty, Nat.sub_self]
  simp only [hnothing]
  cases Text.splitAt? n src.text <;> rfl

theorem kinds_of_alike {k k' : Symbol.Kind} (h : Likeness.Kinds m.Ranges m.Arguments k k') : m.Kinds k k' := by
  cases h with
  | block hbranches hstop => exact .block (hbranches.imp fun _ _ hb => ⟨hb.kind, hb.keyword, hb.range⟩) hstop
  | call harguments => exact .call harguments
  | field qualifier => exact .field qualifier
  | operator => exact .operator
  | literal literal => exact .literal literal
  | skipped => exact .skipped

theorem diagnostics_of_alike {a b : Cause} (h : Likeness.Causes m.Pair Eq a b) (hr : m.Ranges r r')
    (hproper : r.start < r.stop) : m.Diagnostics (a.spanning r) (b.spanning r') := by
  cases h with
  | word f h hcode hseverity hrelated =>
    subst h
    refine ⟨rfl, rfl, hr, hproper, rfl, rfl, ?_⟩
    simp only [Cause.spanning, hrelated]
    exact .nil
  | openCall h ht =>
    subst h
    exact ⟨rfl, rfl, hr, hproper, rfl, rfl, .cons ⟨rfl, range_of_pair ht⟩ .nil⟩

/-- Words are the same, and what is read is alike. -/
def likeness (m : Matching src src') : Likeness src src' where
  Tokens := m.Pair
  Words := Eq
  Ranges := m.Ranges
  Ends := m.Ends
  Arguments := m.Arguments
  Symbols := m.Symbols
  Events := m.Events
  levels := Nat.le_of_eq (congrArg Options.levels m.options.symm)
  kind := m.kind
  isOpen := m.isOpen
  proper ht := (m.proper ht).1
  text ht := (m.text ht).symm
  field ht _ := m.text ht
  range := range_of_pair
  cover := Ranges.cover
  same _ := rfl
  signature h := by rw [m.options, h]
  unmoved := .unmoved
  taken := .token
  since := Ends.since
  whole h := h.isComplete
  missing ht := ⟨.empty ht, rfl, (trimmed_empty src _).symm, (trimmed_empty src' _).symm⟩
  argument _ hr := ⟨hr, rfl, rfl, rfl⟩
  symbol _ hname hkind hr hcs := by
    subst hname
    exact .mk (kinds_of_alike hkind) hr hcs
  valid := .valid
  fault h hr hproper := .fault (diagnostics_of_alike h hr hproper)
  structural he := by
    cases he with
    | fault h => rw [Event.isStructural, Event.isStructural, Diagnostic.isStructural, Diagnostic.isStructural, h.code]
    | valid => rfl

end Matching

end Calculation
