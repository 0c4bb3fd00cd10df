import Calculation.Proofs.Likeness.Items

/-!
The same tokens in other words. Two sources have tokens of the same kinds at the same places; words may be spelled in
different ways, as long as a key that no table of functions tells apart is the same. So both are read alike: what is read
is the same but for the words in it, and of these the keys are the same.
-/
namespace Calculation

/-- Two sources whose words correspond when they have the same key. -/
structure Rewording (src src' : Source) where
  key : String → String
  signature : ∀ {a b : String}, key b = key a → src'.options.signatures.get? b = src.options.signatures.get? a
  trimmed : ∀ r, key (src'.trimmed r) = key (src.trimmed r)
  lines : src'.lines = src.lines
  levels : src.options.levels ≤ src'.options.levels

namespace Rewording

variable {src src' : Source} (m : Rewording src src')

/-- The name of a field is part of a word; so fields have the same text. -/
structure Tokens (t u : Token) : Prop where
  kind : u.kind = t.kind
  range : u.range = t.range
  isOpen : u.isOpen = t.isOpen
  text : m.key u.text = m.key t.text
  field : t.kind = .field → u.text = t.text
  proper : t.range.start < t.range.stop

structure Arguments (a b : Argument) : Prop where
  text : m.key b.text = m.key a.text
  range : b.range = a.range
  isComplete : b.isComplete = a.isComplete

inductive Kinds : Symbol.Kind → Symbol.Kind → Prop
  | same (k : Symbol.Kind) : Kinds k k
  | call {as bs : List Argument} {isNested : Bool} (h : List.Forall₂ m.Arguments as bs) :
    Kinds (.call as isNested) (.call bs isNested)

/-- Symbols that are the same but for the words in them. -/
inductive Symbols : Symbol → Symbol → Prop
  | mk {n n' : String} {k k' : Symbol.Kind} {r : Range} {cs cs' : List Symbol} {isComplete : Bool} {lines : List Nat}
    (hname : m.key n' = m.key n) (hkind : m.Kinds k k') (hchildren : List.Forall₂ Symbols cs cs') :
    Symbols ⟨n, k, r, cs, isComplete, lines⟩ ⟨n', k', r, cs', isComplete, lines⟩

abbrev Trees : List Symbol → List Symbol → Prop :=
  List.Forall₂ m.Symbols

/-- Diagnostics that differ at most in words, and not at all when words with the same key are the same. -/
structure Diagnostics (d e : Diagnostic) : Prop where
  code : e.code = d.code
  severity : e.severity = d.severity
  range : e.range = d.range
  same : Function.Injective m.key → e = d

inductive Events : Event → Event → Prop
  | fault {d e : Diagnostic} (h : m.Diagnostics d e) : Events (.fault d) (.fault e)
  | valid : Events .valid .valid

variable {m : Rewording src src'} {s s' : Symbol}

namespace Symbols

theorem name (hs : m.Symbols s s') : m.key s'.name = m.key s.name := by
  cases hs with
  | mk hname => exact hname

theorem kind (hs : m.Symbols s s') : m.Kinds s.kind s'.kind := by
  cases hs with
  | mk _ hkind => exact hkind

theorem range (hs : m.Symbols s s') : s'.range = s.range := by
  cases hs with
  | mk => rfl

theorem isComplete (hs : m.Symbols s s') : s'.isComplete = s.isComplete := by
  cases hs with
  | mk => rfl

end Symbols

theorem branches_eq {bs bs' : List Branch} (h : List.Forall₂ (Likeness.Branches fun r r' => r' = r) bs bs') :
    bs' = bs := by
  induction h with
  | nil => rfl
  | @cons b b' bs bs' hb _ ih =>
    obtain ⟨k, keyword, r⟩ := b
    obtain ⟨k', keyword', r'⟩ := b'
    rw [ih, List.cons.injEq, Branch.mk.injEq]
    exact ⟨⟨hb.kind, hb.keyword, hb.range⟩, rfl⟩

theorem kinds_of_alike {k k' : Symbol.Kind} (h : Likeness.Kinds (fun r r' => r' = r) m.Arguments k k') :
    m.Kinds k k' := by
  cases h with
  | @block block bs bs' stop stop' hbranches hstop =>
    have hsame : stop' = stop := by
      cases hstop with
      | none => rfl
      | some h => rw [h]
    rw [branches_eq hbranches, hsame]
    exact .same _
  | call harguments => exact .call harguments
  | _ => exact .same _

theorem diagnostics_of_alike {a b : Cause} {r r' : Range}
    (h : Likeness.Causes m.Tokens (fun x y => m.key y = m.key x) a b) (hr : r' = r) :
    m.Diagnostics (a.spanning r) (b.spanning r') := by
  subst hr
  cases h with
  | word f h hcode hseverity => exact ⟨hcode, hseverity, rfl, fun hkey => by rw [hkey h]⟩
  | openCall h ht => exact ⟨rfl, rfl, rfl, fun hkey => by rw [hkey h, ht.range]⟩

/-- Everything is at the same place, and what is read is alike. -/
def likeness (m : Rewording src src') : Likeness src src' where
  Tokens := m.Tokens
  Words x y := m.key y = m.key x
  Ranges r r' := r' = r
  Ends n n' := n' = n
  Arguments := m.Arguments
  Symbols := m.Symbols
  Events := m.Events
  levels := m.levels
  kind := Tokens.kind
  isOpen := Tokens.isOpen
  proper := Tokens.proper
  text := Tokens.text
  field := Tokens.field
  range := Tokens.range
  cover ht ht' := by rw [ht.range, ht'.range]
  same _ := rfl
  signature := m.signature
  unmoved := rfl
  taken ht := by rw [ht.range]
  since h ht := by rw [Cursor.since, Cursor.since, h, ht.range]
  whole := Arguments.isComplete
  missing ht := ⟨rfl, congrArg (Range.empty ·.start) ht.range, rfl⟩
  argument _ hr := by
    subst hr
    exact ⟨m.trimmed _, rfl, rfl⟩
  symbol _ hname hkind hr hcs := by
    subst hr
    rw [m.lines]
    exact .mk hname (kinds_of_alike hkind) hcs
  valid := .valid
  fault h hr _ := .fault (diagnostics_of_alike h hr)
  structural he := by
    cases he with
    | fault h => rw [Event.isStructural, Event.isStructural, Diagnostic.isStructural, Diagnostic.isStructural, h.code]
    | valid => rfl

/-- Statements that are alike. -/
abbrev Items (m : Rewording src src') : Item → Item → Prop :=
  m.likeness.Items

end Rewording

namespace Symbol

/-- The kind with the source of each argument put through `f`. -/
def Kind.renamed (f : String → String) : Kind → Kind
  | .call arguments isNested => .call (arguments.map fun a => { a with text := f a.text }) isNested
  | k => k

mutual

/-- The tree with each name and the source of each argument put through `f`. -/
def renamed (f : String → String) : Symbol → Symbol
  | ⟨n, k, r, cs, c, l⟩ => ⟨f n, k.renamed f, r, renamedAll f cs, c, l⟩

def renamedAll (f : String → String) : List Symbol → List Symbol
  | [] => []
  | s :: ss => renamed f s :: renamedAll f ss

end

theorem Kind.renamed_id (k : Kind) : k.renamed id = k := by
  cases k <;> simp [Kind.renamed]

mutual

theorem renamed_id : ∀ s : Symbol, s.renamed id = s
  | ⟨n, k, r, cs, c, l⟩ => by
    rw [renamed, k.renamed_id, renamedAll_id cs]
    rfl

theorem renamedAll_id : ∀ ss : List Symbol, renamedAll id ss = ss
  | [] => by rw [renamedAll]
  | s :: ss => by rw [renamedAll, renamed_id s, renamedAll_id ss]

end

end Symbol

namespace Rewording
open Calculation.Symbol

variable {src src' : Source} {m : Rewording src src'}

theorem Arguments.renamed {as bs : List Argument} (h : List.Forall₂ m.Arguments as bs) :
    (bs.map fun a => { a with text := m.key a.text }) = as.map fun a => { a with text := m.key a.text } := by
  induction h with
  | nil => rfl
  | cons ha _ ih => rw [List.map_cons, List.map_cons, ih, ha.text, ha.range, ha.isComplete]

theorem Kinds.renamed {k k' : Symbol.Kind} (h : m.Kinds k k') : k'.renamed m.key = k.renamed m.key := by
  cases h with
  | same => rfl
  | call h => rw [Kind.renamed, Kind.renamed, Arguments.renamed h]

mutual

/-- With keys for words, symbols that are alike are the same. -/
theorem Symbols.renamed : ∀ {s s' : Symbol}, m.Symbols s s' → s'.renamed m.key = s.renamed m.key
  | ⟨_, _, _, _, _, _⟩, _, .mk hname hkind hchildren => by
    rw [Symbol.renamed, Symbol.renamed, hname, hkind.renamed, Trees.renamed hchildren]

theorem Trees.renamed : ∀ {ss ss' : List Symbol}, m.Trees ss ss' → renamedAll m.key ss' = renamedAll m.key ss
  | [], _, .nil => rfl
  | s :: ss, s' :: ss', .cons hs hss => by
    rw [renamedAll, renamedAll, Symbols.renamed hs, Trees.renamed hss]

end

theorem Events.same (hkey : Function.Injective m.key) {es es' : List Event} (h : List.Forall₂ m.Events es es') :
    es' = es := by
  induction h with
  | nil => rfl
  | cons he _ ih =>
    rw [ih]
    cases he with
    | fault hd => rw [hd.same hkey]
    | valid => rfl

/-- With words for keys, statements that are alike are the same. -/
theorem Items.same (hkey : m.key = id) {is is' : List Item} (h : List.Forall₂ m.Items is is') : is' = is := by
  have hinjective : Function.Injective m.key := hkey ▸ Function.injective_id
  induction h with
  | nil => rfl
  | @cons i i' is is' hi _ ih =>
    have hsymbols := Trees.renamed hi.symbols
    rw [hkey, renamedAll_id, renamedAll_id] at hsymbols
    have hitem : i' = i := by
      obtain ⟨r, isStatement, ss, es⟩ := i
      obtain ⟨r', isStatement', ss', es'⟩ := i'
      rw [Item.mk.injEq]
      exact ⟨hi.range, hi.isStatement, hsymbols, Events.same hinjective hi.events⟩
    rw [hitem, ih]

end Rewording

end Calculation
