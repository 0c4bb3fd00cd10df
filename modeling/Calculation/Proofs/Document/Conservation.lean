import Calculation.Proofs.Document.Tiling
import Calculation.Proofs.Document.Whole
import Calculation.Proofs.Reading.Marks

/-!
No token is lost and none is read twice. Statements take all lexemes of a text in order; each lexeme that can start a
construct is where one symbol starts, or the second field of one qualified reference, unless it is nested too deep;
and the constructs, read from the front of the text on, start at these lexemes one after the other.
-/
namespace Calculation

namespace Symbol

/-- A symbol of the calculation itself: neither a skipped stretch nor a comment nor an operator. -/
def isConstruct (s : Symbol) : Bool :=
  !s.isSkipped && !s.isComment && !(s.kind == .operator)

/-- The token is the first one of the symbol, which is neither a skipped stretch nor a comment. -/
def startsWith (t : Token) (s : Symbol) : Bool :=
  !s.isSkipped && !s.isComment && s.range.start == t.range.start

/-- The token is the second field of the symbol, a qualified reference. -/
def endsWithField (t : Token) (s : Symbol) : Bool :=
  match s.kind with
  | .field (some _) => t.kind == .field && decide (s.range.start < t.range.start) && s.range.stop == t.range.stop
  | _ => false

namespace Mark

def startsAt (t : Token) : Mark → Bool
  | first n => n == t.range.start
  | second .. => false
  | word n => n == t.range.start

def endsAt (t : Token) : Mark → Bool
  | second start stop => t.kind == .field && decide (start < t.range.start) && stop == t.range.stop
  | _ => false

def first? : Mark → Option Nat
  | first n => some n
  | _ => none

end Mark

variable {t : Token} {l : Lexeme} {kept : List Lexeme} {ms : List Mark} {comment : Symbol} {ss : List Symbol}

theorem countP_marksAll {p : Mark → Bool} {q : Symbol → Bool}
    (h : ∀ s : Symbol, s.marks.countP p = if q s then 1 else 0) (ss : List Symbol) :
    (marksAll ss).countP p = (walkAll ss).countP q := by
  unfold marksAll
  induction walkAll ss with
  | nil => rfl
  | cons s ss ih => rw [List.flatMap_cons, List.countP_append, List.countP_cons, h, ih, Nat.add_comm]

theorem countP_startsAt (t : Token) (ss : List Symbol) :
    (marksAll ss).countP (Mark.startsAt t) = (walkAll ss).countP (startsWith t) := by
  refine countP_marksAll (fun s => ?_) ss
  rcases s with ⟨n, k, r, cs, c, ls⟩
  cases k with
  | field q => cases q <;> simp [marks, startsWith, isSkipped, isComment, Mark.startsAt, List.countP_cons]
  | _ => simp [marks, startsWith, isSkipped, isComment, Mark.startsAt, List.countP_cons]

theorem countP_endsAt (t : Token) (ss : List Symbol) :
    (marksAll ss).countP (Mark.endsAt t) = (walkAll ss).countP (endsWithField t) := by
  refine countP_marksAll (fun s => ?_) ss
  rcases s with ⟨n, k, r, cs, c, ls⟩
  cases k with
  | field q => cases q <;> simp [marks, endsWithField, Mark.endsAt, List.countP_cons]
  | _ => simp [marks, endsWithField, Mark.endsAt]

theorem filterMap_first? (ss : List Symbol) :
    (marksAll ss).filterMap Mark.first? = ((walkAll ss).filter isConstruct).map (·.range.start) := by
  unfold marksAll
  induction walkAll ss with
  | nil => rfl
  | cons s ss ih =>
    rw [List.flatMap_cons, List.filterMap_append, ih, List.filter_cons]
    rcases s with ⟨n, k, r, cs, c, ls⟩
    cases k with
    | field q => cases q <;> simp [marks, isConstruct, isSkipped, isComment, Mark.first?]
    | _ => simp [marks, isConstruct, isSkipped, isComment, Mark.first?]

end Symbol

namespace Reading
open Calculation.Symbol

variable {t : Token} {l : Lexeme} {kept : List Lexeme} {ms : List Mark}

/-- Marks left by other lexemes are not at this one. -/
theorem counts_elsewhere (h : List.Forall₂ Mark.Left kept ms)
    (hne : ∀ y ∈ kept, y.token.range.start ≠ t.range.start ∧ y.token.range.stop ≠ t.range.stop) :
    ms.countP (Mark.startsAt t) = 0 ∧ ms.countP (Mark.endsAt t) = 0 := by
  induction h with
  | nil => exact ⟨rfl, rfl⟩
  | @cons y m kept ms hm _ ih =>
    obtain ⟨hy, hkept⟩ := List.forall_mem_cons.mp hne
    obtain ⟨h₁, h₂⟩ := ih hkept
    rw [List.countP_cons, List.countP_cons, h₁, h₂]
    cases m with
    | first n =>
      obtain ⟨-, rfl⟩ := hm
      simp [Mark.startsAt, Mark.endsAt, hy.1]
    | second start stop =>
      obtain ⟨-, -, rfl⟩ := hm
      simp [Mark.startsAt, Mark.endsAt, hy.2]
    | word n =>
      obtain ⟨-, rfl⟩ := hm
      simp [Mark.startsAt, Mark.endsAt, hy.1]

/-- A kept lexeme that starts a construct has one mark, of one of the two sorts. -/
theorem counts_once (h : List.Forall₂ Mark.Left kept ms) (hl : Lined kept) (hmem : l ∈ kept)
    (hk : l.token.kind.startsConstruct = true) :
    (ms.countP (Mark.startsAt l.token) = 1 ∧ ms.countP (Mark.endsAt l.token) = 0) ∨
      (ms.countP (Mark.startsAt l.token) = 0 ∧ ms.countP (Mark.endsAt l.token) = 1) := by
  induction h with
  | nil => cases hmem
  | @cons y m kept ms hm hms ih =>
    have hbefore := hl.head_before
    have hy := hl.proper y List.mem_cons_self
    rw [List.countP_cons, List.countP_cons]
    rcases List.mem_cons.mp hmem with rfl | hmem
    · obtain ⟨h₁, h₂⟩ := counts_elsewhere (t := l.token) hms fun x hx => by
        have := hbefore x hx
        have := hl.tail.proper x hx
        omega
      rw [h₁, h₂]
      cases m with
      | first n =>
        obtain ⟨-, rfl⟩ := hm
        simp [Mark.startsAt, Mark.endsAt]
      | second start stop =>
        obtain ⟨hf, hs, rfl⟩ := hm
        simp [Mark.startsAt, Mark.endsAt, hf, hs]
      | word n =>
        obtain ⟨hw, -⟩ := hm
        revert hw hk
        cases l.token.kind <;> simp [Token.Kind.startsConstruct, Token.Kind.isLogicalOperator]
    · have h₁ := hbefore l hmem
      have h₂ := hl.tail.proper l hmem
      have hzero : m.startsAt l.token = false ∧ m.endsAt l.token = false := by
        cases m with
        | first n =>
          obtain ⟨-, rfl⟩ := hm
          exact ⟨by simp only [Mark.startsAt, beq_eq_false_iff_ne]; omega, rfl⟩
        | second start stop =>
          obtain ⟨-, -, rfl⟩ := hm
          refine ⟨rfl, ?_⟩
          have hne : y.token.range.stop ≠ l.token.range.stop := by omega
          simp [Mark.endsAt, hne]
        | word n =>
          obtain ⟨-, rfl⟩ := hm
          exact ⟨by simp only [Mark.startsAt, beq_eq_false_iff_ne]; omega, rfl⟩
      rw [hzero.1, hzero.2]
      exact ih hl.tail hmem

theorem first?_left (h : List.Forall₂ Mark.Left kept ms) {n : Nat} (hn : n ∈ ms.filterMap Mark.first?) :
    ∃ y ∈ kept, y.token.kind.startsConstruct = true ∧ y.token.range.start = n := by
  obtain ⟨m, hm, hfirst⟩ := List.mem_filterMap.mp hn
  obtain ⟨y, hy, hleft⟩ := exists_left h hm
  cases m with
  | first k =>
    cases hfirst
    exact ⟨y, hy, hleft⟩
  | second => cases hfirst
  | word => cases hfirst

/-- The starts of constructs grow. -/
theorem first?_pairwise (h : List.Forall₂ Mark.Left kept ms) (hl : Lined kept) :
    (ms.filterMap Mark.first?).Pairwise (· < ·) := by
  induction h with
  | nil => exact .nil
  | @cons y m kept ms hm hms ih =>
    cases m with
    | first k =>
      have hfirst : Mark.first? (.first k) = some k := rfl
      rw [List.filterMap_cons_some hfirst]
      refine List.pairwise_cons.mpr ⟨fun n hn => ?_, ih hl.tail⟩
      obtain ⟨x, hx, -, rfl⟩ := first?_left hms hn
      obtain ⟨-, rfl⟩ := hm
      exact Nat.lt_of_lt_of_le (hl.proper y List.mem_cons_self) (hl.head_before x hx)
    | second => exact ih hl.tail
    | word => exact ih hl.tail

end Reading

namespace Outline
open Calculation.Symbol Reading

variable {options : Options} {text : String} {t : Token}

theorem marks_view : View Symbol.marks :=
  ⟨fun _ _ => rfl, fun s hs => by rw [Symbol.marks, hs]⟩

/-- The marks in the outline of a text are left by lexemes that are kept. -/
theorem exists_keeps (options : Options) (text : String) :
    ∃ kept fs, Keeps (lexemes text) ((statements options text).flatMap (·.symbols)) fs kept ∧
      (∀ l, Buried fs l ↔ ∃ d ∈ (ofText options text).faults, d.code = .tooDeep ∧
        d.range.contains l.token.range = true) ∧
      (walk (ofText options text)).flatMap Symbol.marks = marksAll ((statements options text).flatMap (·.symbols)) := by
  obtain ⟨kept, hkept⟩ := (statements_derives options text).keeps (lexemes_lined text)
  refine ⟨kept, _, hkept, fun l => ?_, blind_symbols marks_view.blind options text⟩
  constructor
  · rintro ⟨d, hd, h⟩
    exact ⟨d, mem_faults.mpr (.inr hd), h⟩
  · rintro ⟨d, hd, hc, h⟩
    rcases mem_faults.mp hd with ⟨t, -, he⟩ | hd
    · cases Item.ofComment_events _ t _ he
      cases hc
    · exact ⟨d, hd, hc, h⟩

/-- A fault for what is nested too deep lies around the token. -/
def IsBuried (o : Outline) (t : Token) : Prop :=
  ∃ d ∈ o.faults, d.code = .tooDeep ∧ d.range.contains t.range = true

/-- Reading loses no token and uses none twice. The statements of a text take its lexemes in order, each at least
one. A token that can start a construct, unless it lies where the nesting is too deep, is the first one of just one
symbol that is neither skipped nor a comment, or else the second field of just one qualified reference. In reading
order the constructs start one behind the other, and at the tokens of the first sort exactly. -/
theorem tokens_conserved (options : Options) (text : String) :
    (∃ parts : List (List Lexeme), parts.flatten = lexemes text ∧
      List.Forall₂ Item.Spans (statements options text) parts) ∧
    (∀ t ∈ tokenize text, t.kind.startsConstruct = true → ¬(ofText options text).IsBuried t →
      ((ofText options text).walk.countP (startsWith t) = 1 ∧
          (ofText options text).walk.countP (endsWithField t) = 0) ∨
        ((ofText options text).walk.countP (startsWith t) = 0 ∧
          (ofText options text).walk.countP (endsWithField t) = 1)) ∧
    (((ofText options text).walk.filter isConstruct).map (·.range.start)).Pairwise (· < ·) ∧
    ∀ n, n ∈ ((ofText options text).walk.filter isConstruct).map (·.range.start) ↔
      ∃ t ∈ tokenize text, t.kind.startsConstruct = true ∧ ¬(ofText options text).IsBuried t ∧
        (ofText options text).walk.countP (startsWith t) = 1 ∧ t.range.start = n := by
  obtain ⟨kept, fs, hkept, hburied, hmarks⟩ := exists_keeps options text
  have hlined := (lexemes_lined text).sublist hkept.sublist
  have hstarts (t : Token) : (ofText options text).walk.countP (startsWith t) =
      (marksAll ((statements options text).flatMap (·.symbols))).countP (Mark.startsAt t) := by
    rw [← hmarks]
    exact (countP_startsAt t _).symm
  have hends (t : Token) : (ofText options text).walk.countP (endsWithField t) =
      (marksAll ((statements options text).flatMap (·.symbols))).countP (Mark.endsAt t) := by
    rw [← hmarks]
    exact (countP_endsAt t _).symm
  have hfirst : ((ofText options text).walk.filter isConstruct).map (·.range.start) =
      (marksAll ((statements options text).flatMap (·.symbols))).filterMap Mark.first? := by
    rw [← hmarks]
    exact (filterMap_first? _).symm
  have honce : ∀ t ∈ tokenize text, t.kind.startsConstruct = true → ¬(ofText options text).IsBuried t →
      ((ofText options text).walk.countP (startsWith t) = 1 ∧
          (ofText options text).walk.countP (endsWithField t) = 0) ∨
        ((ofText options text).walk.countP (startsWith t) = 0 ∧
          (ofText options text).walk.countP (endsWithField t) = 1) := by
    intro t ht hk hnot
    obtain ⟨l, hl, rfl⟩ := mem_lexemes ht hk
    rw [hstarts, hends]
    rcases hkept.all l hl hk with hmem | hb
    · exact counts_once hkept.marks hlined hmem hk
    · exact absurd ((hburied l).mp hb) hnot
  refine ⟨?_, honce, hfirst ▸ first?_pairwise hkept.marks hlined, fun n => ⟨fun hn => ?_, ?_⟩⟩
  · have hin := ((Item.TokensInLine.lex 0 text.toList).lexemes false).ranges
    exact Statement.readAll_tiles _ hin
  · obtain ⟨l, hl, hk, rfl⟩ := first?_left hkept.marks (hfirst ▸ hn)
    have hmem := hkept.sublist.subset hl
    have hnot : ¬(ofText options text).IsBuried l.token := fun hb => hkept.apart l hl ((hburied l).mpr hb)
    refine ⟨l.token, (token_of_lexeme hmem).1, hk, hnot, ?_, rfl⟩
    rcases honce l.token (token_of_lexeme hmem).1 hk hnot with h | ⟨hzero, -⟩
    · exact h.1
    · obtain ⟨s, hs, hstart⟩ := List.mem_map.mp hn
      obtain ⟨hs, hconstruct⟩ := List.mem_filter.mp hs
      have hnone := List.countP_eq_zero.mp hzero s hs
      simp [startsWith, hstart, (Bool.and_eq_true_iff.mp hconstruct).1] at hnone
  · rintro ⟨t, ht, hk, -, hone, rfl⟩
    obtain ⟨s, hs, hstarts⟩ := List.countP_pos_iff.mp (hone ▸ Nat.one_pos)
    obtain ⟨hplain, hstart⟩ := Bool.and_eq_true_iff.mp hstarts
    rw [beq_iff_eq] at hstart
    refine List.mem_map.mpr ⟨s, List.mem_filter.mpr ⟨hs, ?_⟩, hstart⟩
    rw [isConstruct, hplain, Bool.true_and, Bool.not_eq_true']
    -- An operator starts at a lexeme that starts no construct.
    refine Bool.eq_false_iff.mpr fun hoperator => ?_
    have hmark : Mark.word s.range.start ∈ marksAll ((statements options text).flatMap (·.symbols)) := by
      rw [← hmarks]
      refine List.mem_flatMap.mpr ⟨s, hs, ?_⟩
      rw [Symbol.marks, beq_iff_eq.mp hoperator]
      exact List.mem_singleton_self _
    obtain ⟨y, hy, hlogical, hat⟩ := exists_left hkept.marks hmark
    obtain ⟨l, hl, rfl⟩ := mem_lexemes ht hk
    obtain rfl := (lexemes_lined text).eq_of_start (hkept.sublist.subset hy) hl (hat.trans hstart)
    revert hlogical hk
    cases y.token.kind <;> simp [Token.Kind.startsConstruct, Token.Kind.isLogicalOperator]

/-- For instance the second field of a reference, and a word that starts a call. -/
theorem tokens_conserved_in_call :
    (ofText .default "SUM([A].[B])").walk.countP (endsWithField ⟨.field, "[B]", ⟨8, 11⟩, false⟩) = 1 := by
  have ht : (⟨.field, "[B]", ⟨8, 11⟩, false⟩ : Token) ∈ tokenize "SUM([A].[B])" := by decide +kernel
  have hnot : ¬(ofText .default "SUM([A].[B])").IsBuried ⟨.field, "[B]", ⟨8, 11⟩, false⟩ := by
    have hnone : (ofText .default "SUM([A].[B])").faults = [] := by decide +kernel
    rintro ⟨d, hd, -⟩
    rw [hnone] at hd
    cases hd
  have hend : (ofText .default "SUM([A].[B])").walk.countP (startsWith ⟨.field, "[B]", ⟨8, 11⟩, false⟩) = 0 := by
    decide +kernel
  rcases (tokens_conserved .default "SUM([A].[B])").2.1 _ ht rfl hnot with ⟨h, -⟩ | ⟨-, h⟩
  · rw [hend] at h
    cases h
  · exact h

end Outline

end Calculation
