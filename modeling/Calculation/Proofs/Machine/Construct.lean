import Calculation.Proofs.Machine.Leaf

namespace Calculation.Parse
open Cursor Statement

/-- At this depth an expression of the parser stands for a reading. -/
structure Knows (src : Source) (depth : Nat) (expr : ReadExpression) : Prop where
  steady : SteadyExpression expr
  runs : ∀ {f : Frame} {c : Cursor} (place : Place), f.depth = depth → AtStart c →
    Runs f 1 (src.expression place) c (expr place c)

variable {f : Frame} {src : Source} {expr : ReadExpression} {c d : Cursor} {l : Lexeme} {ls : List Lexeme}

/-- What stands behind an expression of a list. -/
def listBehind (expr : ReadExpression) (place : Place) (first : List Symbol) (c : Cursor) : List Symbol × Cursor :=
  match c.eat? .comma with
  | some (_, d) => (first ++ (commaList expr place d).1, (commaList expr place d).2)
  | none => (first, c)

theorem commaList_nil {place : Place} (hc : c.atOperand = false) : commaList expr place c = ([], c) := by
  rw [commaList, if_neg (by simp [hc])]

theorem commaList_eq (h : SteadyExpression expr) {place : Place} (hc : c.atOperand = true) :
    commaList expr place c = listBehind expr place (expr place c).1 (expr place c).2 := by
  rw [commaList, if_pos hc, listBehind]
  dsimp only
  rw [many_eq_of_advances (nextInList?_takes h place), nextInList?]
  cases heat : (expr place c).2.eat? .comma with
  | none => simp [skipComma, heat]
  | some x =>
    by_cases hop : x.2.atOperand = true
    · simp [hop, commaList]
    · simp [hop, commaList, skipComma, heat]

theorem groupingItems_runs (h : Knows src f.depth expr) (isList : Bool) (hc : c.atOperand = true) :
    Runs f 1 (src.groupingItems isList) c
      (if isList then commaList expr .grouping c else expr .grouping c) := by
  induction hn : c.rest.length using Nat.strongRecOn generalizing c with
  | _ n ih =>
    rw [Source.groupingItems]
    have hfirst := h.runs (c := c) .grouping rfl (atStart_of_atOperand hc)
    cases isList with
    | false => exact .bindPast (fun first d => (first, d)) hfirst fun _ _ _ _ => .pure _
    | true =>
      rw [if_pos rfl, commaList_eq h.steady hc]
      refine .bindPast (listBehind expr .grouping) hfirst fun first d _ hd => ?_
      rw [if_pos rfl]
      refine .eat (fun x e heat => .get fun he => ?_) fun heat => ?_
      · rw [he.atOperand, listBehind, heat]
        by_cases hop : e.atOperand = true
        · rw [if_pos hop]
          have hlt := length_of_eat heat
          have hmore := ih e.rest.length (by omega) hop rfl
          exact .bind (fun more g => (first ++ more, g)) hmore.forget fun _ _ _ => .pure _
        · rw [if_neg hop]
          dsimp only
          rw [commaList_nil (by simpa using hop), List.append_nil]
          exact .pure _
      · rw [listBehind, heat]
        exact .pure _

theorem dimensionItems_runs (h : Knows src f.depth expr) (c : Cursor) :
    Runs f (if c.atOperand then 1 else 0) src.dimensionItems c (commaList expr .lodDimensions c) := by
  induction hn : c.rest.length using Nat.strongRecOn generalizing c with
  | _ n ih =>
    rw [Source.dimensionItems]
    refine .get fun hc => ?_
    rw [hc.atOperand]
    by_cases hop : c.atOperand = true
    · rw [if_pos hop, if_pos hop, commaList_eq h.steady hop]
      refine .bindPast (listBehind expr .lodDimensions) (h.runs .lodDimensions rfl (atStart_of_atOperand hop))
        fun first d _ hd => .eat (fun x e heat => ?_) fun heat => ?_
      · rw [listBehind, heat]
        have hlt := length_of_eat heat
        exact .bind (fun more g => (first ++ more, g)) (ih e.rest.length (by omega) e rfl).forget fun _ _ _ => .pure _
      · rw [listBehind, heat]
        exact .pure _
    · rw [if_neg hop, if_neg hop, commaList_nil (by simpa using hop)]
      exact .pure _

theorem groupingBody_runs (h : Knows src f.depth expr) (isList : Bool) (paren : Token) (c : Cursor) :
    Runs f 0 (src.groupingBody isList paren) c (Statement.groupingBody expr isList paren c) := by
  rw [Source.groupingBody, Statement.groupingBody]
  refine .get fun hc => ?_
  rw [hc.atOperand, hc.isAt]
  by_cases hop : c.atOperand = true
  · rw [if_pos hop, if_pos hop]
    exact (groupingItems_runs h isList hop).forget
  · rw [if_neg hop, if_neg hop]
    refine .doWhen (fun hat => ?_) fun hat => ?_
    · rw [if_pos hat]
      exact .fault (.pure _)
    · rw [if_neg (by simp [hat])]
      exact .pure _

theorem grouping_runs (h : Knows src f.depth expr) (isList : Bool) (hl : c.rest = l :: ls) :
    Runs f 1 (src.grouping isList) c (Statement.grouping expr isList l.token c.advance) := by
  rw [Source.grouping]
  refine .bump hl (.awaiting (fun symbols d => (symbols, closeGrouping l.token d)) (.inl rfl)
    (groupingBody_runs h isList l.token) fun symbols d _ => ?_)
  rw [closeGrouping]
  refine .eat (fun x e heat => ?_) fun heat => ?_
  · rw [heat]
    exact .pure _
  · rw [heat]
    exact .fault (.pure _)

/-- An argument and those behind it. -/
def argumentsFrom (src : Source) (expr : ReadExpression) (function : String) (part : CallPart) (c : Cursor) :
    (List CallPart × Bool) × Cursor :=
  match behindArgument part c with
  | .done r d => (r, d)
  | .next part d => ((part :: (Statement.argumentList src expr function d).1.1,
      (Statement.argumentList src expr function d).1.2), (Statement.argumentList src expr function d).2)

theorem argumentList_eq (h : SteadyExpression expr) (function : String) (c : Cursor) :
    Statement.argumentList src expr function c = match argument? src expr function c with
      | none => (([], false), c)
      | some (part, d) => argumentsFrom src expr function part d := by
  rw [Statement.argumentList, loop_eq_of_advances (argumentRound_advances src h function), argumentRound]
  cases argument? src expr function c with
  | none => rfl
  | some x =>
    dsimp only
    rw [argumentsFrom]
    cases behindArgument x.1 x.2 <;> rfl

theorem argumentsBehind_runs (function : String) (part : CallPart)
    (hrest : ∀ d, d.rest.length < c.rest.length →
      Runs f 0 (src.argumentList function) d (Statement.argumentList src expr function d)) :
    Runs f 0 (src.argumentsBehind function part) c (argumentsFrom src expr function part c) := by
  rw [Source.argumentsBehind, argumentsFrom, behindArgument]
  refine .get fun hc => ?_
  rw [hc.isAt, hc.isAt]
  by_cases hcomma : c.isAt .comma = true
  · obtain ⟨l, ls, hl, -⟩ := exists_of_isAt hcomma
    rw [if_pos hcomma, if_pos hcomma]
    dsimp only
    refine (Runs.skip hl (.get fun hd => ?_)).forget
    rw [hd.atEnd, hd.afterBlank]
    by_cases hstop : (c.advance.atEnd || c.advance.afterBlank) = true
    · rw [if_pos hstop, if_pos hstop]
      exact .pure _
    · rw [if_neg hstop, if_neg hstop]
      exact .bind (fun x d => ((part :: x.1, x.2), d)) (hrest _ (length_advance hl)) fun _ _ _ => .pure _
  · rw [if_neg hcomma, if_neg hcomma]
    by_cases hparen : c.isAt .rightParen = true
    · obtain ⟨l, ls, hl, -⟩ := exists_of_isAt hparen
      rw [if_pos hparen, if_pos hparen]
      exact (Runs.skip hl (.pure _)).forget
    · rw [if_neg hparen, if_neg hparen]
      exact .pure _

theorem argumentList_runs (h : Knows src f.depth expr) (function : String) (c : Cursor) :
    Runs f 0 (src.argumentList function) c (Statement.argumentList src expr function c) := by
  refine .byLength (Statement.argumentList src expr function) (fun c ih => ?_) c
  rw [Source.argumentList, argumentList_eq h.steady, argument?]
  refine .get fun hc => ?_
  rw [hc.current?, hc.atOperand]
  cases hl : c.rest with
  | nil => exact .pure _
  | cons l ls =>
    dsimp only [List.head?_cons]
    by_cases hmissing : l.token.kind = .comma ∨ l.token.kind = .rightParen
    · rw [if_pos hmissing, if_pos hmissing]
      exact .fault (argumentsBehind_runs function _ ih)
    · rw [if_neg hmissing, if_neg hmissing]
      by_cases hop : c.atOperand = true
      · rw [if_pos hop, if_pos hop]
        refine Runs.forget (.recording (n := 1) (expr .arguments) (fun x d => argumentsFrom src expr function
          ⟨⟨src.trimmed (d.since l.token.range.start), d.since l.token.range.start, !x.2.any Event.isStructural⟩, x.1⟩
          d) (h.runs .arguments rfl (atStart_of_atOperand hop)) fun symbols met d _ hd hfaults => .get fun he => ?_)
        rw [he.since, hfaults]
        exact argumentsBehind_runs function _ fun e he => ih e (by omega)
      · rw [if_neg hop, if_neg hop]
        exact .pure _

theorem arguments_runs (h : Knows src f.depth expr) (function : String) (c : Cursor) :
    Runs f 0 (src.arguments function) c (Statement.arguments src expr function c) := by
  rw [Source.arguments, Statement.arguments]
  refine .eat (fun x d heat => ?_) fun heat => ?_
  · rw [heat]
    exact .pure _
  · rw [heat]
    exact .awaiting (fun list d => (list, d)) (.inl rfl) (argumentList_runs h function) fun _ _ _ => .pure _

theorem call_runs (h : Knows src f.depth expr) {l' : Lexeme} (hl : c.rest = l :: l' :: ls) :
    Runs f 1 src.call c (Statement.call src expr l.token l'.token c.advance.advance) := by
  have hl' : c.advance.rest = l' :: ls := by rw [Cursor.advance, hl]
  rw [Source.call]
  refine .bump hl (Runs.bump hl' (.get fun _ => ?_)).forget
  rw [Statement.call, scopedArguments]
  cases (src.options.signatures.get? l.token.text).any Signature.isAggregate with
  | false =>
    exact .bind (fun x d => Statement.finishCall src l.token l'.token false x.1 x.2 d)
      (arguments_runs h l.token.text _) fun x d _ => finishCall_runs _ _ _ _ _
  | true =>
    exact .inScope (fun x d => Statement.finishCall src l.token l'.token
        (c.advance.advance.scopes.head? == some .aggregate) x.1 x.2 d)
      (arguments_runs h l.token.text) fun x d _ => finishCall_runs _ _ _ _ _

end Calculation.Parse
