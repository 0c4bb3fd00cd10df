import Calculation.Proofs.Document.Statements
import Calculation.Proofs.Grammar.AcceptanceBlock

namespace Calculation

namespace Grammar
open Statement

variable {src : Source} {E : Expressions} {around : Option Scope} {ls as bs : List Lexeme} {ss tt : List Symbol}

theorem Links.append (ha : Links src E around as ss) (hb : Links src E around bs tt) :
    Links src E around (as ++ bs) (ss ++ tt) := by
  induction ha with
  | nil => exact hb
  | operand hl h _ ih =>
    rw [List.append_assoc, List.append_assoc]
    exact .operand hl h ih
  | list hl hparen h hclose _ ih =>
    rw [List.append_assoc, List.append_assoc]
    exact .list hl hparen h hclose ih

/-- The lexemes begin with a binary operator. -/
def GoesOn (ls : List Lexeme) : Prop :=
  ∃ l ∈ ls.head?, l.token.kind.isBinaryOperator = true

/-- An expression that starts with a sign goes on with the one before it. -/
theorem Chain.join (ha : Chain src E around as ss) (hb : Chain src E around bs tt) (hgo : GoesOn bs) :
    Chain src E around (as ++ bs) (ss ++ tt) := by
  cases hb with
  | @mk bs₁ bs₂ _ _ hone hmore =>
    cases ha with
    | mk hfirst hlinks =>
      cases hone with
      | @signed l _ _ _ h =>
        have hl : l.token.kind.isBinaryOperator = true := by
          obtain ⟨x, hx, hk⟩ := hgo
          obtain rfl := Option.some.inj hx
          exact hk
        rw [List.append_assoc, List.append_assoc]
        exact .mk hfirst (hlinks.append (.operand hl h hmore))
      | primary h =>
        obtain ⟨l, as, rfl, hk⟩ := h.starts
        obtain ⟨x, hx, hop⟩ := hgo
        obtain rfl := Option.some.inj hx
        rw [not_operator_of_startsPrimary hk] at hop
        cases hop

theorem not_goesOn (hs : Starts as) (h : ¬GoesOn as) (bs : List Lexeme) : Stops (as ++ bs) := by
  obtain ⟨l, as, rfl, hk⟩ := hs
  refine .of_kind rfl ⟨?_, ?_⟩ _
  · exact Bool.eq_false_iff.mpr fun hop => h ⟨l, rfl, hop⟩
  · intro hdot
    rw [hdot] at hk
    cases hk

/-- The first of some statements can be taken as long as it gets: nothing goes on with it. -/
theorem Statements.first (h : Statements (Chain src E around) ls ss) : ls = [] ∧ ss = [] ∨
    ∃ as bs ss' tt, ls = as ++ bs ∧ ss = ss' ++ tt ∧ Chain src E around as ss' ∧
      Statements (Chain src E around) bs tt ∧ Stops bs := by
  induction h with
  | nil => exact .inl ⟨rfl, rfl⟩
  | @cons as _ ss' _ ha hb ih =>
    refine .inr ?_
    rcases ih with ⟨rfl, rfl⟩ | ⟨as', bs', ss'', tt', rfl, rfl, ha', hb', hstop⟩
    · exact ⟨as, [], ss', [], rfl, rfl, ha, .nil, nofun⟩
    · by_cases hgo : GoesOn as'
      · exact ⟨as ++ as', bs', ss' ++ ss'', tt', (List.append_assoc ..).symm, (List.append_assoc ..).symm,
          ha.join ha' hgo, hb', hstop⟩
      · exact ⟨as, as' ++ bs', ss', ss'' ++ tt', rfl, rfl, ha, hb, not_goesOn ha'.starts hgo bs'⟩

theorem Program.first (h : Program src ls ss) : ls = [] ∧ ss = [] ∨ ∃ as bs ss' tt, ls = as ++ bs ∧ ss = ss' ++ tt ∧
    Expression src src.options.levels none as ss' ∧ Program src bs tt ∧ Stops bs := by
  unfold Program at h ⊢
  cases hlevels : src.options.levels with
  | zero =>
    rw [hlevels] at h
    cases h with
    | nil => exact .inl ⟨rfl, rfl⟩
    | cons ha _ => exact ha.elim
  | succ levels =>
    rw [hlevels] at h
    exact Statements.first h

end Grammar

namespace Statement
open Cursor Grammar

variable {src : Source} {l : Lexeme} {ls : List Lexeme} {ss : List Symbol}

/-- Nothing structural was met in the statement. -/
def Sound (i : Item) : Prop :=
  i.events.any Event.isStructural = false

theorem sound_nextItem : Sound (nextItem src l ls).1 ↔ Quiet (.start (l :: ls)) (nextItem src l ls).2 := by
  have hevents : (nextItem src l ls).1.events = (nextItem src l ls).2.trail.reverse := rfl
  rw [Sound, hevents, List.any_reverse]
  refine ⟨fun h => ⟨_, (List.append_nil _).symm, h⟩, ?_⟩
  rintro ⟨met, hm, hs⟩
  rw [hm]
  exact (List.append_nil met).symm ▸ hs

/-- A statement without a structural fault is an expression. -/
theorem nextItem_phrase (h : Sound (nextItem src l ls).1) : ∃ as, l :: ls = as ++ (nextItem src l ls).2.rest ∧
    Expression src src.options.levels none as (nextItem src l ls).1.symbols := by
  have hq := sound_nextItem.mp h
  have hsymbols : (nextItem src l ls).1.symbols = (statement src (.start (l :: ls))).1 := rfl
  have hcursor : (nextItem src l ls).2 = (statement src (.start (l :: ls))).2 := rfl
  rw [hcursor] at hq
  rw [hsymbols, hcursor]
  unfold statement at hq ⊢
  split
  · rename_i hk
    rw [if_pos hk] at hq
    obtain ⟨as, hr, hphrase⟩ := (expression_sound src src.options.levels).phrase .topLevel _ hk hq
    exact ⟨as, hr.rest, hphrase⟩
  · rename_i hk
    rw [if_neg hk] at hq
    have hskip : Onward _ (strayTokens (.start (l :: ls))) := .fault _ _ _
    exact absurd (hq.split (.skip _ _) hskip).2 (not_quiet_fault unexpected_structural)

theorem readAll_phrase (h : ∀ i ∈ readAll src ls, Sound i) :
    Program src ls ((readAll src ls).flatMap (·.symbols)) := by
  revert h
  refine readAll_rule (P := fun ls is => (∀ i ∈ is, Sound i) → Program src ls (is.flatMap (·.symbols)))
    (fun _ => .nil) (fun l ls is ih h => ?_) ls
  obtain ⟨hfirst, hrest⟩ := List.forall_mem_cons.mp h
  obtain ⟨as, htaken, hphrase⟩ := nextItem_phrase hfirst
  rw [List.flatMap_cons]
  conv => enter [2]; rw [htaken]
  exact .cons hphrase (ih hrest)

/-- An expression that nothing goes on with is the next statement. -/
theorem nextItem_gives {as bs : List Lexeme} (hphrase : Expression src src.options.levels none as ss)
    (hls : l :: ls = as ++ bs) (hstop : Stops bs) (hblank : ∀ x ∈ l :: ls, x.afterBlank = false) :
    (nextItem src l ls).1.symbols = ss ∧ Sound (nextItem src l ls).1 ∧ (nextItem src l ls).2.rest = bs := by
  have hx := (expression_complete src src.options.levels).gives .topLevel (.start (l :: ls)) as bs ss
    ⟨hblank, nofun⟩ hls hstop hphrase
  have hstart : Cursor.kind? (.start (l :: ls)) |>.any Token.Kind.startsExpression := by
    obtain ⟨x, as', rfl, hk⟩ := (expression_complete src src.options.levels).starts _ _ _ hphrase
    obtain ⟨rfl, -⟩ := List.cons.inj hls
    exact hk
  have hstatement : statement src (.start (l :: ls)) = expression src src.options.levels .topLevel (.start (l :: ls)) :=
    if_pos hstart
  have hsymbols : (nextItem src l ls).1.symbols = (statement src (.start (l :: ls))).1 := rfl
  have hcursor : (nextItem src l ls).2 = (statement src (.start (l :: ls))).2 := rfl
  rw [sound_nextItem, hsymbols, hcursor, hstatement]
  exact ⟨hx.value, hx.reads.quiet, hx.reads.rest_eq hls⟩

/-- A sequence of statements is read as what it is. -/
theorem readAll_gives (h : Program src ls ss) (hblank : ∀ l ∈ ls, l.afterBlank = false) :
    (readAll src ls).flatMap (·.symbols) = ss ∧ ∀ i ∈ readAll src ls, Sound i := by
  induction hn : ls.length using Nat.strongRecOn generalizing ls ss with
  | _ n ih =>
    rcases h.first with ⟨rfl, rfl⟩ | ⟨as, bs, ss', tt, hls, rfl, hphrase, hmore, hstop⟩
    · exact ⟨rfl, nofun⟩
    · obtain ⟨l, as', rfl, -⟩ := (expression_complete src src.options.levels).starts _ _ _ hphrase
      subst hls
      obtain ⟨hsymbols, hsound, hrest⟩ := nextItem_gives hphrase (rfl : l :: (as' ++ bs) = _) hstop hblank
      have hlen : bs.length < n := by
        rw [← hn, List.length_append, List.length_cons]
        omega
      obtain ⟨hvalue, hall⟩ := ih bs.length hlen hmore (fun x hx => hblank x (List.mem_append_right _ hx)) rfl
      rw [List.cons_append, readAll_cons, hrest, List.flatMap_cons, hsymbols, hvalue]
      exact ⟨rfl, List.forall_mem_cons.mpr ⟨hsound, hall⟩⟩

end Statement

end Calculation
