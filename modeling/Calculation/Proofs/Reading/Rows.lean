import Calculation.Proofs.Reading.Sited
import Calculation.Statement.Call

/-!
The arguments of a call in a row. Each argument is made of lexemes of its own, or it is missing in front of a comma or
of the parenthesis that closes the row; commas lead from one argument to the next. So what is sited in one argument is
in no other one, and in a closed row the commas outside of the arguments are one less than these.
-/
namespace Calculation.Reading
open Statement

variable {l : Lexeme} {as bs ls : List Lexeme} {p : CallPart} {ps qs : List CallPart} {fs gs : List Diagnostic}
  {r : Range} {isClosed : Bool}

/-- An argument over lexemes. What is read in them is sited in them. -/
structure Present (ls : List Lexeme) (p : CallPart) (fs : List Diagnostic) : Prop where
  range : ∃ l rest, ls = l :: rest ∧ p.argument.range = l.span rest
  isComplete : p.argument.isComplete = !fs.any Diagnostic.isStructural
  symbols : Lined ls → ∀ s ∈ p.symbols, Sited ls s.range
  faults : Lined ls → ∀ d ∈ fs, Sited ls d.range

/-- An argument that is missing in front of a lexeme, and reported there. -/
structure Missing (l : Lexeme) (p : CallPart) (fs : List Diagnostic) : Prop where
  range : p.argument.range = .empty l.token.range.start
  isComplete : p.argument.isComplete = !fs.any Diagnostic.isStructural
  symbols : p.symbols = []
  faults : ∀ d ∈ fs, d.range = l.token.range

/-- The argument in front of a lexeme, over the lexemes or missing. -/
inductive Fills (l : Lexeme) : List Lexeme → CallPart → List Diagnostic → Prop
  | present {ls : List Lexeme} {p : CallPart} {fs : List Diagnostic} (h : Present ls p fs) : Fills l ls p fs
  | missing {p : CallPart} {fs : List Diagnostic} (h : Missing l p fs) : Fills l [] p fs

/-- The lexemes are arguments in a row, with the faults met in them. A closing parenthesis closes the row. -/
inductive Row : List Lexeme → List CallPart → Bool → List Diagnostic → Prop
  | nothing : Row [] [] false []
  | unclosed {ls : List Lexeme} {p : CallPart} {fs : List Diagnostic} (h : Present ls p fs) : Row ls [p] false fs
  | closed {ls : List Lexeme} {l : Lexeme} {p : CallPart} {fs : List Diagnostic} (h : Fills l ls p fs)
    (hl : l.token.kind = .rightParen) : Row (ls ++ [l]) [p] true fs
  | next {as ls : List Lexeme} {l : Lexeme} {p : CallPart} {ps : List CallPart} {isClosed : Bool}
    {fs gs : List Diagnostic} (h : Fills l as p fs) (hl : l.token.kind = .comma) (hrow : Row ls ps isClosed gs) :
    Row (as ++ l :: ls) (p :: ps) isClosed (fs ++ gs)

/-- A row is complete when no structural fault was met in it. -/
theorem Row.all_isComplete (h : Row ls ps isClosed fs) :
    ps.all (·.argument.isComplete) = !fs.any Diagnostic.isStructural := by
  have hfills : ∀ {l : Lexeme} {ls : List Lexeme} {p : CallPart} {fs : List Diagnostic}, Fills l ls p fs →
      p.argument.isComplete = !fs.any Diagnostic.isStructural := by
    intro l ls p fs h
    cases h with
    | present h | missing h => exact h.isComplete
  induction h with
  | nothing => rfl
  | unclosed h => simpa using h.isComplete
  | closed h => simpa using hfills h
  | next h _ _ ih => rw [List.all_cons, List.any_append, hfills h, ih, Bool.not_or]

/-- The arguments of parts stand in lexemes, each symbol of the parts in one argument, and an argument over anything
is complete when no structural fault is inside. -/
structure Divides (ls : List Lexeme) (ps : List CallPart) (fs : List Diagnostic) : Prop where
  start : ∀ p ∈ ps, ∃ x ∈ ls, p.argument.range.start = x.token.range.start
  stop : ∀ p ∈ ps, ∃ y ∈ ls, p.argument.range.stop ≤ y.token.range.stop
  sited : ∀ s ∈ ps.flatMap (·.symbols), Sited ls s.range
  once : ∀ s ∈ ps.flatMap (·.symbols), ps.countP (·.argument.range.contains s.range) = 1
  faults : ∀ d ∈ fs, Sited ls d.range
  isComplete : ∀ p ∈ ps, p.argument.range.start < p.argument.range.stop →
    (p.argument.isComplete = true ↔ ∀ d ∈ fs, d.isStructural = true → p.argument.range.contains d.range = false)

/-- What is sited in the lexemes is inside an argument over all of them. -/
theorem Present.contains (h : Present ls p fs) (hl : Lined ls) (hr : Sited ls r) :
    p.argument.range.contains r = true := by
  obtain ⟨x, rest, rfl, hrange⟩ := h.range
  rw [hrange]
  exact hr.inside hl

theorem Present.sited (h : Present ls p fs) (hl : Lined ls) : Sited ls p.argument.range := by
  obtain ⟨x, rest, rfl, hrange⟩ := h.range
  rw [hrange]
  exact span_sited hl

namespace Divides

theorem nil : Divides [] [] [] := by
  constructor <;> simp

theorem token (l : Lexeme) : Divides [l] [] [] := by
  constructor <;> simp

theorem present (h : Present ls p fs) (hl : Lined ls) : Divides ls [p] fs := by
  have hrange := h.sited hl
  refine ⟨?_, ?_, ?_, fun s hs => ?_, h.faults hl, ?_⟩
  · simpa using hrange.start
  · obtain ⟨y, hy, hstop⟩ := hrange.stop
    simpa using ⟨y, hy, Nat.le_of_eq hstop⟩
  · simpa using h.symbols hl
  · have hin := h.contains hl (h.symbols hl s (by simpa using hs))
    simp [hin]
  · intro q hq _
    obtain rfl := List.mem_singleton.mp hq
    rw [h.isComplete, Bool.not_eq_true', List.any_eq_false]
    constructor
    · exact fun hnone d hd hstructural => absurd hstructural (hnone d hd)
    · intro hall d hd hstructural
      have hout := hall d hd hstructural
      rw [h.contains hl (h.faults hl d hd)] at hout
      cases hout

theorem missing (h : Missing l p fs) (hl : Lined [l]) : Divides [l] [p] fs := by
  have hproper := hl.proper l List.mem_cons_self
  refine ⟨?_, ?_, ?_, ?_, fun d hd => ?_, ?_⟩
  · simp [h.range, Range.empty]
  · simpa [h.range, Range.empty] using Nat.le_of_lt hproper
  · simp [h.symbols]
  · simp [h.symbols]
  · rw [h.faults d hd]
    exact .one hproper List.mem_cons_self
  · intro q hq hlt
    obtain rfl := List.mem_singleton.mp hq
    rw [h.range] at hlt
    exact absurd hlt (Nat.lt_irrefl _)

/-- No argument in the first lexemes has anything inside that is sited in the others. -/
theorem not_contains_behind (h : Divides as ps fs) (hr : Sited bs r) (hl : Lined (as ++ bs)) (hp : p ∈ ps) :
    p.argument.range.contains r = false := by
  obtain ⟨y, hy, hstop⟩ := h.stop p hp
  obtain ⟨⟨x, hx, hstart⟩, -, hproper⟩ := hr
  have hapart := hl.between y hy x hx
  exact Range.not_contains hproper (.inr (by omega))

theorem not_contains_before (h : Divides bs ps fs) (hr : Sited as r) (hl : Lined (as ++ bs)) (hp : p ∈ ps) :
    p.argument.range.contains r = false := by
  obtain ⟨x, hx, hstart⟩ := h.start p hp
  obtain ⟨-, ⟨y, hy, hstop⟩, hproper⟩ := hr
  have hapart := hl.between y hy x hx
  exact Range.not_contains hproper (.inl (by omega))

theorem append (ha : Divides as ps fs) (hb : Divides bs qs gs) (hl : Lined (as ++ bs)) :
    Divides (as ++ bs) (ps ++ qs) (fs ++ gs) := by
  have hleft : ∀ x ∈ as, x ∈ as ++ bs := fun x hx => List.mem_append_left _ hx
  have hright : ∀ x ∈ bs, x ∈ as ++ bs := fun x hx => List.mem_append_right _ hx
  refine ⟨?_, ?_, ?_, ?_, ?_, ?_⟩
  · exact List.forall_mem_append.mpr ⟨fun p hp => (ha.start p hp).imp fun x hx => ⟨hleft x hx.1, hx.2⟩,
      fun p hp => (hb.start p hp).imp fun x hx => ⟨hright x hx.1, hx.2⟩⟩
  · exact List.forall_mem_append.mpr ⟨fun p hp => (ha.stop p hp).imp fun x hx => ⟨hleft x hx.1, hx.2⟩,
      fun p hp => (hb.stop p hp).imp fun x hx => ⟨hright x hx.1, hx.2⟩⟩
  · rw [List.flatMap_append]
    exact List.forall_mem_append.mpr ⟨fun s hs => (ha.sited s hs).mono hleft, fun s hs => (hb.sited s hs).mono hright⟩
  · simp only [List.flatMap_append, List.countP_append]
    refine List.forall_mem_append.mpr ⟨fun s hs => ?_, fun s hs => ?_⟩
    · have hnone : qs.countP (·.argument.range.contains s.range) = 0 := List.countP_eq_zero.mpr fun q hq =>
        Bool.eq_false_iff.mp (hb.not_contains_before (ha.sited s hs) hl hq)
      rw [ha.once s hs, hnone]
    · have hnone : ps.countP (·.argument.range.contains s.range) = 0 := List.countP_eq_zero.mpr fun q hq =>
        Bool.eq_false_iff.mp (ha.not_contains_behind (hb.sited s hs) hl hq)
      rw [hb.once s hs, hnone]
  · exact List.forall_mem_append.mpr ⟨fun d hd => (ha.faults d hd).mono hleft, fun d hd => (hb.faults d hd).mono hright⟩
  · refine List.forall_mem_append.mpr ⟨fun p hp hlt => ?_, fun p hp hlt => ?_⟩
    · rw [ha.isComplete p hp hlt, List.forall_mem_append]
      exact (and_iff_left fun d hd _ => ha.not_contains_behind (hb.faults d hd) hl hp).symm
    · rw [hb.isComplete p hp hlt, List.forall_mem_append]
      exact (and_iff_right fun d hd _ => hb.not_contains_before (ha.faults d hd) hl hp).symm

/-- The argument in front of a lexeme and this lexeme. -/
theorem fills (h : Fills l as p fs) (hl : Lined (as ++ [l])) : Divides (as ++ [l]) [p] fs := by
  cases h with
  | present h =>
    have happend := (present h hl.left).append (token l) hl
    rwa [List.append_nil, List.append_nil] at happend
  | missing h => exact missing h hl

theorem ofRow (h : Row ls ps isClosed fs) (hl : Lined ls) : Divides ls ps fs := by
  induction h with
  | nothing => exact nil
  | unclosed h => exact present h hl
  | closed h => exact fills h hl
  | @next as ls l _ _ _ _ _ h _ _ ih =>
    rw [List.append_cons] at hl ⊢
    exact (fills h hl.left).append (ih hl.right) hl

end Divides

/-- How many commas stand in no argument. -/
def separators (arguments : List Argument) (ls : List Lexeme) : Nat :=
  ls.countP fun x => x.token.kind == .comma && arguments.all fun a => !a.range.contains x.token.range

theorem separators_append (arguments : List Argument) (as bs : List Lexeme) :
    separators arguments (as ++ bs) = separators arguments as + separators arguments bs :=
  List.countP_append

theorem separators_cons_of_ne (arguments : List Argument) {l : Lexeme} (hl : l.token.kind ≠ .comma)
    (ls : List Lexeme) : separators arguments (l :: ls) = separators arguments ls :=
  List.countP_cons_of_neg (by simp [hl])

/-- A row that is closed ends with its parenthesis, and its arguments are one more than the commas outside of them. -/
theorem Row.count (h : Row ls ps isClosed fs) (hl : Lined ls) (hclosed : isClosed = true) :
    (∃ between close, ls = between ++ [close] ∧ close.token.kind = .rightParen) ∧
      ps.length = separators (ps.map (·.argument)) ls + 1 := by
  -- The lexemes of an argument are inside of it, and the lexeme behind it is not.
  have hinside : ∀ {l : Lexeme} {as : List Lexeme} {p : CallPart} {fs : List Diagnostic}, Fills l as p fs →
      Lined (as ++ [l]) → (∀ x ∈ as, p.argument.range.contains x.token.range = true) ∧
        p.argument.range.contains l.token.range = false := by
    intro l as p fs h hl
    have hproper := hl.proper l (List.mem_append_right _ (List.mem_singleton_self l))
    cases h with
    | present h =>
      refine ⟨fun x hx => h.contains hl.left (.one (hl.proper x (List.mem_append_left _ hx)) hx), ?_⟩
      exact (Divides.present h hl.left).not_contains_behind (.one hproper (List.mem_singleton_self l)) hl
        (List.mem_singleton_self p)
    | missing h =>
      refine ⟨by simp, Range.not_contains hproper (.inr ?_)⟩
      rw [h.range]
      exact Nat.le_refl _
  induction h with
  | nothing | unclosed => cases hclosed
  | @closed as l p fs h hkind =>
    obtain ⟨has, -⟩ := hinside h hl
    refine ⟨⟨as, l, rfl, hkind⟩, ?_⟩
    have hnone : separators [p.argument] as = 0 := List.countP_eq_zero.mpr fun x hx => by simp [has x hx]
    rw [List.map_singleton, separators_append, hnone, separators_cons_of_ne _ (by simp [hkind])]
    rfl
  | @next as ls l p ps isClosed fs gs h hkind hrow ih =>
    rw [List.append_cons] at hl ⊢
    obtain ⟨⟨between, close, rfl, hclose⟩, hcount⟩ := ih hl.right hclosed
    obtain ⟨has, hcomma⟩ := hinside h hl.left
    have hfirst := Divides.fills h hl.left
    have hrest := Divides.ofRow hrow hl.right
    refine ⟨⟨as ++ [l] ++ between, close, by simp, hclose⟩, ?_⟩
    have hnone : separators (p.argument :: ps.map (·.argument)) as = 0 :=
      List.countP_eq_zero.mpr fun x hx => by simp [has x hx]
    have hone : separators (p.argument :: ps.map (·.argument)) [l] = 1 := by
      have hbefore : ∀ q ∈ ps, q.argument.range.contains l.token.range = false := fun q hq =>
        hrest.not_contains_before (.one (hl.proper l (by simp)) (List.mem_append_right as (List.mem_singleton_self l)))
          hl hq
      simpa [separators, hkind, hcomma] using hbefore
    have hsame : separators (p.argument :: ps.map (·.argument)) (between ++ [close]) =
        separators (ps.map (·.argument)) (between ++ [close]) := by
      refine List.countP_congr fun x hx => ?_
      have hx' := hl.proper x (List.mem_append_right _ hx)
      have hout := hfirst.not_contains_behind (.one hx' hx) hl (List.mem_singleton_self p)
      simp [hout]
    rw [List.map_cons, separators_append, separators_append, hnone, hone, hsame, List.length_cons, hcount]
    omega

/-- The arguments behind an open parenthesis: none in front of the closing one, or else a row. -/
inductive Listed : List Lexeme → List CallPart → Bool → List Diagnostic → Prop
  | empty {l : Lexeme} (hl : l.token.kind = .rightParen) : Listed [l] [] true []
  | row {ls : List Lexeme} {ps : List CallPart} {isClosed : Bool} {fs : List Diagnostic}
    (hfirst : ∀ l ∈ ls.head?, l.token.kind ≠ .rightParen) (h : Row ls ps isClosed fs) : Listed ls ps isClosed fs

theorem Listed.all_isComplete (h : Listed ls ps isClosed fs) :
    ps.all (·.argument.isComplete) = !fs.any Diagnostic.isStructural := by
  cases h with
  | empty => rfl
  | row _ h => exact h.all_isComplete

/-- What stands behind the name of a call. What is reported of the call as a whole is reported at its name or at its
parenthesis, there when it is open. -/
inductive Called (name : Range) : List Lexeme → List Symbol → List Argument → List Diagnostic → Prop
  | mk {paren : Lexeme} {ls : List Lexeme} {ps : List CallPart} {isClosed : Bool} {fs gs : List Diagnostic}
    (hparen : paren.token.kind = .leftParen) (h : Listed ls ps isClosed fs)
    (hplace : ∀ d ∈ gs, d.range = name ∨ d.range = paren.token.range)
    (hopen : isClosed = false → ∃ d ∈ gs, d.code = .openParenthesis ∧ d.range = paren.token.range) :
    Called name (paren :: ls) (ps.flatMap (·.symbols)) (ps.map (·.argument)) (fs ++ gs)

end Calculation.Reading
