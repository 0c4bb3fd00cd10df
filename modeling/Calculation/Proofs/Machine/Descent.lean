import Calculation.Proofs.Machine.Block
import Calculation.Proofs.Document.Statements

namespace Calculation.Parse
open Cursor Statement

variable {f : Frame} {src : Source} {expr : ReadExpression} {c d : Cursor} {l : Lexeme} {ls : List Lexeme}

/-- A construct of one symbol. -/
theorem one_runs {m : Parse Symbol} {n : Nat} {r : Symbol × Cursor} (h : Runs f n m c r) :
    Runs f n (do return [← m]) c ([r.1], r.2) :=
  .bindPast (fun s d => ([s], d)) h fun _ _ _ _ => .pure _

theorem word_runs (h : Knows src f.depth expr) (hl : c.rest = l :: ls) : Runs f 1
    (if c.rest[1]?.map (·.token.kind) = some .leftParen then do return [← src.call]
      else do return [← src.bareIdentifier]) c
    ([(word src expr l.token c.advance).1], (word src expr l.token c.advance).2) := by
  have hrest : c.advance.rest = ls := by rw [Cursor.advance, hl]
  rw [word]
  by_cases hparen : c.rest[1]?.map (·.token.kind) = some .leftParen
  · rw [hl, List.getElem?_cons_succ] at hparen
    obtain ⟨l', ls, rfl⟩ : ∃ l' ls', ls = l' :: ls' := by
      cases ls with
      | nil => cases hparen
      | cons l' ls => exact ⟨l', ls, rfl⟩
    have hkind : l'.token.kind = .leftParen := by simpa using hparen
    rw [if_pos (by rw [hl]; exact hparen), ← hkind, eat_cons hrest]
    exact one_runs (call_runs h hl)
  · have heat : c.advance.eat? .leftParen = none := by
      rw [hl, List.getElem?_cons_succ] at hparen
      rw [Cursor.eat?, Cursor.isAt, Cursor.kind?, hrest, List.head?_eq_getElem?, if_neg (by simpa using hparen)]
    rw [if_neg hparen, heat]
    exact one_runs (bareIdentifier_runs hl)

theorem primary_runs (h : Knows src f.depth expr) (hl : c.rest = l :: ls) :
    Runs f 1 src.primary c (Statement.primary src expr l.token c.advance) := by
  rw [Source.primary, Statement.primary]
  refine .get fun hc => ?_
  have hkind : c.kind? = some l.token.kind := by rw [Cursor.kind?, hl]; rfl
  rw [hc.kind?, hc.kindBehind?, hkind]
  dsimp only
  split <;> rename_i hk
  · rw [Option.some.inj hk]
    exact one_runs (fieldReference_runs hl)
  · rw [Option.some.inj hk]
    exact word_runs h hl
  · rw [Option.some.inj hk]
    exact grouping_runs h false hl
  · rw [Option.some.inj hk]
    exact one_runs (lodBlock_runs h hl)
  · rw [Option.some.inj hk]
    exact one_runs (ifBlock_runs h hl)
  · rw [Option.some.inj hk]
    exact one_runs (caseBlock_runs h hl)
  · -- A token of any other kind is a literal for both.
    split <;> first | exact one_runs (literal_runs hl) | simp_all

/-- What stands behind the signs, told by the last of them and the symbols of all. -/
def signedBehind (src : Source) (expr : ReadExpression) (signs : Option Token × List Symbol) (c : Cursor) :
    List Symbol × Cursor :=
  match if c.kind?.any Token.Kind.startsExpression && !(signs.1.isSome && c.afterBlank) then c.take? else none with
  | some (t, d) => (signs.2 ++ (Statement.primary src expr t d).1, (Statement.primary src expr t d).2)
  | none =>
    match signs.1 with
    | some op => (signs.2, c.fault (.missingExpression op.kind) op.range)
    | none => (signs.2, c)

theorem signed_eq (signs : List (Token × List Symbol)) (c : Cursor) :
    Statement.signed src expr signs c = signedBehind src expr (lastSign none signs) c := by
  rw [lastSign, Option.or_none]
  rfl

theorem signed_runs (h : Knows src f.depth expr) (signs : Option Token × List Symbol) (c : Cursor) :
    Runs f (if c.kind?.any Token.Kind.startsExpression && !(signs.1.isSome && c.afterBlank) then 1 else 0)
      (src.signed signs.1 signs.2) c (signedBehind src expr signs c) := by
  rw [Source.signed.eq_def, signedBehind]
  refine .get fun hc => ?_
  rw [hc.kind?, hc.afterBlank]
  by_cases hr : (c.kind?.any Token.Kind.startsExpression && !(signs.1.isSome && c.afterBlank)) = true
  · obtain ⟨l, ls, hl, -⟩ := exists_of_kind (Bool.and_eq_true_iff.mp hr).1
    rw [if_pos hr, if_pos hr, if_pos hr, Cursor.take?, hl]
    exact .bindPast (fun symbols d => (signs.2 ++ symbols, d)) (primary_runs h hl) fun _ _ _ _ => .pure _
  · rw [if_neg hr, if_neg hr, if_neg hr]
    cases hlast : signs.1 with
    | some op => exact .fault (.pure _)
    | none => exact .pure _

theorem operand_runs (h : Knows src f.depth expr) (hc : AtStart c) :
    Runs f 1 src.operand c (Statement.operand src expr c) := by
  obtain ⟨l, ls, hl, hx⟩ := atStart_iff.mp hc
  rw [Source.operand, Statement.operand]
  dsimp only
  rw [signed_eq]
  by_cases hs : isSign l.token.kind = true
  · exact .bindPast (signedBehind src expr) (signs_runs hl hs) fun signs d _ _ => (signed_runs h signs d).forget
  · have hsign : c.kind?.any isSign = false := by simpa [Cursor.kind?, hl] using hs
    have hnone : Statement.signs src c = ([], c) := by rw [Statement.signs, sign?, hsign]; rfl
    have hrun := signed_runs h (none, []) c
    have hstart : c.kind?.any Token.Kind.startsExpression = true := hc
    rw [if_pos (by rw [hstart]; rfl)] at hrun
    rw [hnone]
    exact .step (signs_none (by rw [hsign]; rfl)) (.refl c) hrun

theorem rightSide_runs (h : Knows src f.depth expr) (place : Place) (op : Token) (c : Cursor) :
    Runs f 0 (src.rightSide place op) c (Statement.rightSide src expr place op c) := by
  have hoperand : Runs f 0 (if c.atOperand then src.operand else do
      fault (.missingOperand op.kind place) op.range
      return []) c
      (if c.atOperand then Statement.operand src expr c
        else ([], c.fault (.missingOperand op.kind place) op.range)) := by
    split
    · rename_i hop
      exact (operand_runs h (atStart_of_atOperand hop)).forget
    · exact .fault (.pure _)
  rw [Source.rightSide, Statement.rightSide]
  refine .get fun hc => ?_
  rw [hc.afterBlank, hc.isAt, hc.atOperand]
  by_cases hin : op.kind = .in_ ∧ (!c.afterBlank) = true
  · rw [if_pos hin]
    by_cases hparen : c.isAt .leftParen = true
    · obtain ⟨l, ls, hl, hk⟩ := exists_of_isAt hparen
      rw [if_pos ⟨hin.1, hin.2, hparen⟩, ← hk, eat_cons hl]
      exact (grouping_runs h true hl).forget
    · rw [if_neg fun hall => hparen hall.2.2, Cursor.eat?, if_neg hparen]
      exact hoperand
  · rw [if_neg hin, if_neg fun hall => hin ⟨hall.1, hall.2.1⟩]
    exact hoperand

theorem links_runs (h : Knows src f.depth expr) (place : Place) (c : Cursor) : Runs f 0 (src.links place) c
    ((c.many (link? src expr place)).1.flatten, (c.many (link? src expr place)).2) := by
  refine .byLength (fun c => ((c.many (link? src expr place)).1.flatten, (c.many (link? src expr place)).2))
    (fun c ih => ?_) c
  rw [Source.links, many_eq_of_advances (link?_takes src h.steady place), link?, Cursor.operator?]
  refine .get fun hc => ?_
  rw [hc.atBinaryOperator]
  by_cases hop : (c.kind?.any Token.Kind.isBinaryOperator && !c.afterBlank) = true
  · obtain ⟨l, ls, hl, -⟩ := exists_of_kind (Bool.and_eq_true_iff.mp hop).1
    rw [if_pos hop, if_pos hop, Cursor.take?, hl]
    have hlt := length_advance hl
    have hright (word : List Symbol) (d : Cursor) (hd : d.rest.length < c.rest.length) :
        Runs f 0 (do
          let symbols ← src.rightSide place l.token
          let more ← src.links place
          return word ++ symbols ++ more) d
          (let x := Statement.rightSide src expr place l.token d
           (word ++ x.1 ++ (x.2.many (link? src expr place)).1.flatten, (x.2.many (link? src expr place)).2)) :=
      .bind (fun symbols e => (word ++ symbols ++ (e.many (link? src expr place)).1.flatten,
          (e.many (link? src expr place)).2)) (rightSide_runs h place l.token d) fun symbols e he =>
        .bind (fun more g => (word ++ symbols ++ more, g)) (ih e (Nat.lt_of_le_of_lt he.length_le hd))
          fun _ _ _ => .pure _
    exact (Runs.bump hl (.bind _ (operatorWord_runs l.token) fun word d hd =>
      hright word d (Nat.lt_of_le_of_lt hd.length_le hlt))).forget
  · rw [if_neg hop, if_neg hop]
    exact .pure _

theorem chain_runs (h : Knows src f.depth expr) (place : Place) (hc : AtStart c) :
    Runs f 1 (src.chain place) c (Statement.chain src expr place c) := by
  rw [Source.chain]
  exact .bindPast (fun first d => (first ++ (d.many (link? src expr place)).1.flatten,
      (d.many (link? src expr place)).2)) (operand_runs h hc) fun first d _ _ =>
    .bind (fun more e => (first ++ more, e)) (links_runs h place d) fun _ _ _ => .pure _

/-- At every depth the parser reads an expression with the levels that are left. -/
theorem knows_of_levels (src : Source) (n depth : Nat) (hn : src.options.levels - depth = n) :
    Knows src depth (Statement.expression src n) := by
  induction n generalizing depth with
  | zero =>
    refine ⟨expression_steady src 0, fun {f c} place hdepth hc => ?_⟩
    obtain ⟨l, ls, hl, -⟩ := atStart_iff.mp hc
    rw [Source.expression]
    refine .get fun _ => ?_
    have hdeep : src.options.levels ≤ (f.parser c).depth := by
      show _ ≤ f.depth
      omega
    rw [if_pos hdeep]
    exact tooDeep_runs place hl
  | succ n ih =>
    refine ⟨expression_steady src (n + 1), fun {f c} place hdepth hc => ?_⟩
    rw [Source.expression]
    refine .get fun _ => ?_
    have hdeep : ¬src.options.levels ≤ (f.parser c).depth := by
      show ¬_ ≤ f.depth
      omega
    rw [if_neg hdeep]
    have hinner : Knows src (f.depth + 1) (Statement.expression src n) := ih (f.depth + 1) (by omega)
    exact .nested (chain_runs hinner place hc)

theorem knows (src : Source) (depth : Nat) :
    Knows src depth (Statement.expression src (src.options.levels - depth)) :=
  knows_of_levels src _ depth rfl

end Calculation.Parse
