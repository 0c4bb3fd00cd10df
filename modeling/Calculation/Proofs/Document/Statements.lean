import Calculation.Proofs.Document.Items

namespace Calculation

namespace Cursor

/-- Behind the front of a list of ranges in line, the end only grows. -/
theorem le_endOf {n hi : Nat} {ls : List Lexeme} (h : Range.InLine n hi (ls.map (·.token.range))) :
    n ≤ endOf n ls := by
  induction ls generalizing n with
  | nil => exact Nat.le_refl n
  | cons l ls ih =>
    obtain ⟨h₁, h₂, -, h₄⟩ := h
    exact Nat.le_trans (Nat.le_trans h₁ h₂) (ih h₄)

end Cursor

namespace Statement
open Cursor

variable {src : Source} {lo hi : Nat} {l : Lexeme} {ls v r : List Lexeme}

/-- All statements of the lexemes. -/
def readAll (src : Source) (ls : List Lexeme) : List Item :=
  statements src ls.length ls

@[simp] theorem readAll_nil (src : Source) : readAll src [] = [] := rfl

theorem nextItem_takes (src : Source) (l : Lexeme) (ls : List Lexeme) :
    (nextItem src l ls).2.rest.length ≤ ls.length :=
  Nat.le_of_lt_succ (statement_takes src (c := .start (l :: ls)) rfl)

theorem statements_budget (src : Source) {n m : Nat} (hn : ls.length ≤ n) (hm : ls.length ≤ m) :
    statements src n ls = statements src m ls := by
  induction n generalizing m ls with
  | zero =>
    obtain rfl : ls = [] := List.length_eq_zero_iff.mp (Nat.le_zero.mp hn)
    cases m <;> rfl
  | succ n ih =>
    cases ls with
    | nil => cases m <;> rfl
    | cons l ls =>
      rw [List.length_cons] at hn hm
      obtain ⟨m, rfl⟩ : ∃ k, m = k + 1 := ⟨m - 1, by omega⟩
      have hle := nextItem_takes src l ls
      simp only [statements]
      rw [ih (by omega) (by omega : _ ≤ m)]

theorem readAll_cons (src : Source) (l : Lexeme) (ls : List Lexeme) :
    readAll src (l :: ls) = (nextItem src l ls).1 :: readAll src (nextItem src l ls).2.rest := by
  have hle := nextItem_takes src l ls
  rw [readAll, readAll, ← statements_budget src hle (Nat.le_refl _)]
  rfl

/-- What is left behind a statement are the last ones of the lexemes. -/
theorem nextItem_sublist (src : Source) (l : Lexeme) (ls : List Lexeme) :
    (nextItem src l ls).2.rest.Sublist (l :: ls) := by
  obtain ⟨taken, htaken, -⟩ := (statement_onward src (.start (l :: ls))).rest
  have hall : l :: ls = taken ++ (nextItem src l ls).2.rest := htaken
  exact hall ▸ List.sublist_append_right taken _

/-- What holds of no statements, and of one more before others, holds of all statements. -/
theorem readAll_rule {P : List Lexeme → List Item → Prop} (hnil : P [] [])
    (hcons : ∀ l ls is, P (nextItem src l ls).2.rest is → P (l :: ls) ((nextItem src l ls).1 :: is))
    (ls : List Lexeme) : P ls (readAll src ls) := by
  induction hn : ls.length using Nat.strongRecOn generalizing ls with
  | _ n ih =>
    cases ls with
    | nil => exact hnil
    | cons l ls =>
      have hlen : (nextItem src l ls).2.rest.length < n := by
        rw [← hn, List.length_cons]
        exact Nat.lt_succ_of_le (nextItem_takes src l ls)
      rw [readAll_cons]
      exact hcons l ls _ (ih _ hlen _ rfl)

/-- The lexemes with or without a blank line in front. -/
def reblank (blank : Bool) : List Lexeme → List Lexeme
  | [] => []
  | l :: ls => { l with afterBlank := blank } :: ls

theorem significant_reblank (blank : Bool) (ts : List Token) :
    ∃ blank', Lexeme.significant blank ts = reblank blank' (Lexeme.significant false ts) := by
  induction ts generalizing blank with
  | nil => exact ⟨false, rfl⟩
  | cons t ts ih =>
    simp only [Lexeme.significant]
    split
    · obtain ⟨b, hb⟩ := ih (blank || Lexeme.isBlankLine t)
      obtain ⟨b', hb'⟩ := ih (false || Lexeme.isBlankLine t)
      refine ⟨b, ?_⟩
      rw [hb, hb']
      cases Lexeme.significant false ts <;> rfl
    · split
      · exact ih blank
      · exact ⟨blank, rfl⟩

theorem operand_reblank (src : Source) (expr : ReadExpression) (blank : Bool)
    (h : l.token.kind.startsExpression = true) :
    operand src expr (.start ({ l with afterBlank := blank } :: ls)) = operand src expr (.start (l :: ls)) := by
  unfold operand signs sign?
  by_cases hs : isSign l.token.kind = true
  · simp [kind?, start, take?, advance, hs]
  · simp [kind?, start, take?, advance, hs, signed, h]

/-- What takes the first lexeme does not ask whether a blank line stands before it. -/
theorem skip_reblank (blank : Bool) (l : Lexeme) (ls : List Lexeme) (n : Nat) :
    (Cursor.start ({ l with afterBlank := blank } :: ls)).skip (1 + n) = (Cursor.start (l :: ls)).skip (1 + n) := by
  rw [Nat.add_comm]
  rfl

theorem nextItem_reblank (src : Source) (blank : Bool) (l : Lexeme) (ls : List Lexeme) :
    nextItem src { l with afterBlank := blank } ls = nextItem src l ls := by
  have hs : statement src (.start ({ l with afterBlank := blank } :: ls)) = statement src (.start (l :: ls)) := by
    unfold statement
    by_cases h : l.token.kind.startsExpression = true
    · have hk : ∀ b, (Cursor.start ({ l with afterBlank := b } :: ls)).kind?.any
          Token.Kind.startsExpression = true := fun b => by simp [kind?, start, h]
      rw [if_pos (hk blank), if_pos (hk l.afterBlank)]
      cases src.options.levels with
      | zero =>
        have hskip := skip_reblank blank l ls
        simp only [start] at hskip
        simp only [expression, tooDeep, start, hskip]
      | succ levels =>
        simp only [expression, chain]
        rw [operand_reblank src _ blank h]
    · have hk : ∀ b, ¬(Cursor.start ({ l with afterBlank := b } :: ls)).kind?.any
          Token.Kind.startsExpression = true := fun b => by simp [kind?, start, h]
      rw [if_neg (hk blank), if_neg (hk l.afterBlank)]
      have hskip := skip_reblank blank l ls
      simp only [start] at hskip
      simp only [strayTokens, start, hskip]
  unfold nextItem
  rw [hs]

/-- A blank line in front of the first statement changes nothing. -/
theorem readAll_reblank (src : Source) (blank : Bool) (ls : List Lexeme) :
    readAll src (reblank blank ls) = readAll src ls := by
  cases ls with
  | nil => rfl
  | cons l ls => rw [reblank, readAll_cons, readAll_cons, nextItem_reblank]

theorem readAll_significant (src : Source) (blank : Bool) (ts : List Token) :
    readAll src (Lexeme.significant blank ts) = readAll src (Lexeme.significant false ts) := by
  obtain ⟨b, hb⟩ := significant_reblank blank ts
  rw [hb, readAll_reblank]

/-- A statement takes lexemes from `v` and from `r`, which stand one behind the other. -/
def Straddles (src : Source) (v r : List Lexeme) : Prop :=
  ∃ i ∈ readAll src (v ++ r), (∃ l ∈ v, i.range.start = l.token.range.start) ∧
    ∃ x ∈ r, x.token.range.stop ≤ i.range.stop

theorem Straddles.cons {v' : List Lexeme} (h : Straddles src v' r) (hv : ∃ taken, v = taken ++ v')
    (hrest : (nextItem src l ls).2.rest = v' ++ r) (hls : l :: ls = v ++ r) : Straddles src v r := by
  obtain ⟨i, hi, ⟨l', hl', hstart⟩, hx⟩ := h
  obtain ⟨taken, rfl⟩ := hv
  refine ⟨i, ?_, ⟨l', List.mem_append_right taken hl', hstart⟩, hx⟩
  rw [← hls, readAll_cons, hrest]
  exact List.mem_cons_of_mem _ hi

/-- What a statement takes, and its range. -/
theorem nextItem_taken (src : Source) (hin : Range.InLine lo hi ((l :: ls).map (·.token.range))) :
    ∃ taken, ls = taken ++ (nextItem src l ls).2.rest ∧
      (nextItem src l ls).1.range = ⟨l.token.range.start, endOf 0 (l :: taken)⟩ := by
  obtain ⟨taken, hrest, hend⟩ := (statement_onward src (.start (l :: ls))).rest
  have hlt := statement_takes src (c := .start (l :: ls)) rfl
  cases taken with
  | nil =>
    rw [List.nil_append] at hrest
    rw [← hrest] at hlt
    exact absurd hlt (Nat.lt_irrefl _)
  | cons x taken =>
    obtain ⟨rfl, hls⟩ := List.cons.inj (hrest : l :: ls = x :: (taken ++ (nextItem src l ls).2.rest))
    refine ⟨taken, hls, ?_⟩
    obtain ⟨-, hproper, -, hbehind⟩ := hin
    have hsub : (taken.map (·.token.range)).Sublist (ls.map (·.token.range)) := by
      rw [hls]
      exact (List.sublist_append_left taken _).map _
    have hle := Nat.le_trans hproper (le_endOf (hbehind.sublist hsub))
    have hrange : (nextItem src l ls).1.range =
        ⟨l.token.range.start, max (endOf 0 (l :: taken)) l.token.range.start⟩ :=
      congrArg (fun n => (⟨_, max n _⟩ : Range)) hend
    rw [hrange, endOf_cons, Nat.max_eq_left hle]

/-- A statement that starts in front of the place goes over it or ends in front of it. -/
theorem nextItem_cut (src : Source) (hin : Range.InLine lo hi ((v ++ r).map (·.token.range)))
    (hls : l :: ls = v ++ r) (hv : v ≠ []) :
    Straddles src v r ∨ ∃ taken v', v = l :: taken ++ v' ∧ (nextItem src l ls).2.rest = v' ++ r ∧
      ∃ x ∈ v, (nextItem src l ls).1.range.stop = x.token.range.stop := by
  obtain ⟨taken, htaken, hrange⟩ := nextItem_taken src (hls ▸ hin)
  have hsplit : v ++ r = (l :: taken) ++ (nextItem src l ls).2.rest := by
    rw [← hls, List.cons_append, ← htaken]
  obtain ⟨x, hx, he⟩ := endOf_mem 0 l taken
  have hends : ∀ v', v = l :: taken ++ v' → ∃ x ∈ v, (nextItem src l ls).1.range.stop = x.token.range.stop :=
    fun v' hv' => ⟨x, hv' ▸ List.mem_append_left v' hx, by rw [hrange, he]⟩
  rcases List.append_eq_append_iff.mp hsplit with ⟨past, hover, hr⟩ | ⟨v', hv', hrest⟩
  · cases past with
    | nil =>
      have hv' : v = l :: taken ++ [] := by rw [hover, List.append_nil, List.append_nil]
      exact .inr ⟨taken, [], hv', hr.symm, hends [] hv'⟩
    | cons y past =>
      have hl : l ∈ v := by
        obtain ⟨z, v', rfl⟩ := List.exists_cons_of_ne_nil hv
        rw [(List.cons.inj hls).1]
        exact List.mem_cons_self
      have hsub : (y :: past).Sublist (v ++ r) := by
        rw [hr]
        exact (List.sublist_append_left _ _).trans (List.sublist_append_right v _)
      obtain ⟨-, -, -, hbehind⟩ := hin.sublist (hsub.map _)
      have hmem : (nextItem src l ls).1 ∈ readAll src (v ++ r) := by
        rw [← hls, readAll_cons]
        exact List.mem_cons_self
      refine .inl ⟨_, hmem, ⟨l, hl, by rw [hrange]⟩, y, hr ▸ List.mem_cons_self, ?_⟩
      rw [hrange, hover, endOf_append, endOf_cons]
      exact le_endOf hbehind
  · exact .inr ⟨taken, v', hv', hrest, hends v' hv'⟩

/-- Either a statement goes past the place, or those in front of it and those behind it are read apart. -/
theorem readAll_cut (src : Source) (hin : Range.InLine lo hi ((v ++ r).map (·.token.range))) :
    Straddles src v r ∨ ∃ is, readAll src (v ++ r) = is ++ readAll src r ∧
      ∀ i ∈ is, ∃ x ∈ v, i.range.stop = x.token.range.stop := by
  induction hn : v.length using Nat.strongRecOn generalizing v lo with
  | _ n ih =>
    cases v with
    | nil => exact .inr ⟨[], rfl, by simp⟩
    | cons l v =>
      rcases nextItem_cut src hin (rfl : l :: (v ++ r) = l :: v ++ r) (by simp) with h | ⟨taken, v', hv, hrest, hx⟩
      · exact .inl h
      · have hin' : Range.InLine lo hi ((v' ++ r).map (·.token.range)) := by
          rw [hv, List.append_assoc] at hin
          exact hin.sublist ((List.sublist_append_right _ _).map _)
        have hlen : v'.length < n := by
          rw [← hn, hv, List.length_append, List.length_cons]
          omega
        rcases ih v'.length hlen hin' rfl with h | ⟨is, his, hstops⟩
        · exact .inl (h.cons ⟨_, hv⟩ hrest rfl)
        · refine .inr ⟨_ :: is, ?_, List.forall_mem_cons.mpr ⟨hx, fun i hi => ?_⟩⟩
          · rw [List.cons_append, readAll_cons, hrest, his]
            rfl
          · obtain ⟨x, hx, he⟩ := hstops i hi
            exact ⟨x, hv ▸ List.mem_append_right _ hx, he⟩

end Statement

end Calculation
