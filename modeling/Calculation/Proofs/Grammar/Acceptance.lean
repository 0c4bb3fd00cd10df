import Calculation.Proofs.Grammar.Edges
import Calculation.Proofs.Grammar.SoundnessBlock

namespace Calculation

namespace Cursor

variable {c d : Cursor} {as xs ls : List Lexeme} {l : Lexeme} {k : Token.Kind}

/-- No blank line lies ahead, and only closing brackets are waited for. -/
structure Calm (c : Cursor) : Prop where
  rest : ∀ l ∈ c.rest, l.afterBlank = false
  closers : ∀ k ∈ c.closers, k = .rightParen ∨ k = .rightBrace

theorem Calm.onward (h : Calm c) (hd : Onward c d) : Calm d := by
  obtain ⟨taken, hr, -⟩ := hd.rest
  refine ⟨fun l hl => h.rest l ?_, hd.closers ▸ h.closers⟩
  rw [hr]
  exact List.mem_append_right taken hl

theorem Calm.inside (h : Calm c) (hk : k = .rightParen ∨ k = .rightBrace) :
    Calm { c with closers := k :: c.closers } :=
  ⟨h.rest, List.forall_mem_cons.mpr ⟨hk, h.closers⟩⟩

theorem Reads.rest_eq (h : Reads c as d) (hc : c.rest = as ++ xs) : d.rest = xs :=
  (List.append_cancel_left (hc.symm.trans h.rest)).symm

/-- Exactly these lexemes are read, with this result. -/
structure Gives {α : Type} (c : Cursor) (ls : List Lexeme) (a : α) (r : α × Cursor) : Prop where
  value : r.1 = a
  reads : Reads c ls r.2

theorem kind?_of_rest (h : c.rest = l :: ls) : c.kind? = some l.token.kind := by
  simp [kind?, h]

theorem isAt_of_rest (h : c.rest = l :: ls) : c.isAt k = (l.token.kind == k) := by
  simp [isAt, kind?, h]

theorem eat?_of_rest (h : c.rest = l :: ls) (hk : l.token.kind = k) : c.eat? k = some (l.token, c.advance) := by
  rw [eat?, isAt_of_rest h, hk, if_pos (beq_self_eq_true k), take?_of_rest h]

theorem eat?_eq_none (h : ∀ l ∈ c.rest.head?, l.token.kind ≠ k) : c.eat? k = none := by
  refine if_neg ?_
  cases hls : c.rest with
  | nil => simp [isAt, kind?, hls]
  | cons l ls =>
    rw [isAt_of_rest hls, beq_iff_eq]
    exact h l (by simp [hls])

theorem Calm.afterBlank (h : Calm c) : c.afterBlank = false := by
  unfold Cursor.afterBlank
  cases hls : c.rest with
  | nil => rfl
  | cons l ls =>
    have hl := h.rest l (by simp [hls])
    simp [hl]

theorem Calm.atOperand (h : Calm c) (hr : c.rest = l :: ls) : c.atOperand = l.token.kind.startsExpression := by
  rw [Cursor.atOperand, h.afterBlank, kind?_of_rest hr]
  simp

end Cursor

namespace Statement
open Cursor Grammar

/-- What the constructs rely on in the way to read an expression: it reads every phrase that nothing goes on with. -/
structure CompleteExpression (E : Expressions) (expr : ReadExpression) : Prop where
  steady : SteadyExpression expr
  starts : ∀ around ls ss, E around ls ss → Starts ls
  gives : ∀ place c ls rest ss, Calm c → c.rest = ls ++ rest → Stops rest → E c.scopes.head? ls ss →
    Gives c ls ss (expr place c)

variable {src : Source} {E : Expressions} {expr : ReadExpression} {around : Option Scope} {b c d e : Cursor}
  {place : Place} {t : Token} {l comma close : Lexeme} {ls as bs xs rest : List Lexeme} {ss tt : List Symbol}

theorem atOperand_of_starts (hc : Calm c) (hr : c.rest = ls ++ rest) (hs : Starts ls) : c.atOperand = true := by
  obtain ⟨l, as, rfl, hl⟩ := hs
  exact (hc.atOperand hr).trans hl

theorem CompleteExpression.atOperand (h : CompleteExpression E expr) (hc : Calm c) (hr : c.rest = ls ++ rest)
    (hphrase : E around ls ss) : c.atOperand = true :=
  atOperand_of_starts hc hr (h.starts around ls ss hphrase)

theorem literal_gives (src : Source) (hl : Reads b [l] c) (hclosed : openLiteral? l.token = none) :
    Gives b [l] (node src l.token.text (.literal (literalKind l.token.kind)) l.token.range [])
      (literal src l.token c) := by
  obtain ⟨hnode, hr⟩ := literal_reads src hclosed c
  exact ⟨hnode, hl.trans hr⟩

theorem field_gives (src : Source) (hl : Reads b [l] c) (hclosed : l.token.isOpen = false) (hdot : Undotted c.rest) :
    Gives b [l] (node src l.token.fieldName (.field none) l.token.range []) (fieldReference src l.token c) := by
  have hnone : qualified? c = none := by
    rw [qualified?, eat?_eq_none hdot]
    rfl
  rw [fieldReference_closed src hclosed, hnone]
  exact ⟨rfl, hl.trans (.finish src _ c)⟩

theorem qualified_gives (src : Source) {dot l' : Lexeme} (hl : Reads b [l] c) (hclosed : l.token.isOpen = false)
    (hdot : dot.token.kind = .dot) (hl' : l'.token.kind = .field) (hclosed' : l'.token.isOpen = false)
    (hr : c.rest = dot :: l' :: rest) :
    Gives b [l, dot, l'] (node src l'.token.fieldName (.field (some l.token.fieldName))
      (l.token.range.cover l'.token.range) []) (fieldReference src l.token c) := by
  have hdotr := Reads.advance hr
  have hrest : c.advance.rest = l' :: rest := hdotr.rest_eq hr
  have hsome : qualified? c = some (l'.token, c.advance.advance) := by
    rw [qualified?, eat?_of_rest hr hdot]
    exact eat?_of_rest hrest hl'
  rw [fieldReference_closed src hclosed, hsome]
  dsimp only
  rw [checkField_closed hclosed', hclosed']
  exact ⟨rfl, hl.trans (hdotr.trans ((Reads.advance hrest).trans (.finish src _ _)))⟩

theorem nextInList?_gives (h : CompleteExpression E expr) (place : Place) (hc : Calm c)
    (hk : comma.token.kind = .comma) (hr : c.rest = comma :: as ++ rest) (hstop : Stops rest)
    (hphrase : E c.scopes.head? as ss) :
    ∃ d, nextInList? expr place c = some (ss, d) ∧ Reads c (comma :: as) d := by
  have hcomma := Reads.advance hr
  have hrest : c.advance.rest = as ++ rest := hcomma.rest_eq hr
  have hcalm := hc.onward hcomma.onward
  obtain ⟨hvalue, hreads⟩ := h.gives place c.advance as rest ss hcalm hrest hstop (hcomma.scopes ▸ hphrase)
  refine ⟨(expr place c.advance).2, ?_, hcomma.trans hreads⟩
  rw [nextInList?, eat?_of_rest hr hk]
  dsimp only
  rw [if_pos (h.atOperand hcalm hrest hphrase), ← hvalue]

/-- A list ends in front of what is no comma, or a comma that no expression follows. -/
theorem nextInList?_ends (place : Place) (comma : Lexeme) (hc : Calm c)
    (hclose : close.token.kind = .rightParen ∨ close.token.kind = .colon)
    (hr : c.rest = close :: xs ∨ c.rest = comma :: close :: xs) : nextInList? expr place c = none := by
  rcases hr with hr | hr
  · rw [nextInList?, eat?_eq_none]
    rcases hclose with hk | hk <;> simp [hr, hk]
  · by_cases hk : comma.token.kind = .comma
    · have hcomma := Reads.advance hr
      rw [nextInList?, eat?_of_rest hr hk]
      dsimp only
      rw [(hc.onward hcomma.onward).atOperand (hcomma.rest_eq hr)]
      rcases hclose with hk | hk <;> rw [hk] <;> rfl
    · rw [nextInList?, eat?_eq_none]
      simpa [hr] using hk

theorem more_gives (h : CompleteExpression E expr) (place : Place) (hm : More (E around) bs tt) (hstop : Stops rest)
    (hends : ∀ d, Calm d → d.rest = rest → nextInList? expr place d = none) (hc : Calm c)
    (hscopes : c.scopes.head? = around) (hr : c.rest = bs ++ rest) :
    (c.many (nextInList? expr place)).1.flatten = tt ∧ Reads c bs (c.many (nextInList? expr place)).2 := by
  induction hm generalizing c with
  | nil =>
    rw [many_none (nextInList?_takes h.steady place) (hends c hc hr)]
    exact ⟨rfl, .refl c⟩
  | cons hk ha hb ih =>
    rw [List.append_assoc] at hr
    obtain ⟨d, hd, hreads⟩ := nextInList?_gives h place hc hk hr (hb.stops hstop) (hscopes ▸ ha)
    obtain ⟨hvalue, hmore⟩ := ih (hc.onward hreads.onward) (hreads.scopes.trans hscopes) (hreads.rest_eq hr)
    rw [many_some (nextInList?_takes h.steady place) hd]
    exact ⟨by rw [List.flatten_cons, hvalue], hreads.trans hmore⟩

/-- The expressions of a list, up to the place where it ends. -/
theorem items_gives (h : CompleteExpression E expr) (place : Place) (ha : E c.scopes.head? as ss)
    (hb : More (E c.scopes.head?) bs tt) (hstop : Stops rest)
    (hends : ∀ d, Calm d → d.rest = rest → nextInList? expr place d = none) (hc : Calm c)
    (hr : c.rest = as ++ bs ++ rest) :
    (expr place c).1 ++ ((expr place c).2.many (nextInList? expr place)).1.flatten = ss ++ tt ∧
      Reads c (as ++ bs) ((expr place c).2.many (nextInList? expr place)).2 := by
  rw [List.append_assoc] at hr
  obtain ⟨hvalue, hreads⟩ := h.gives place c as _ ss hc hr (hb.stops hstop) ha
  obtain ⟨hmore, hmreads⟩ := more_gives h place hb hstop hends (hc.onward hreads.onward) hreads.scopes
    (hreads.rest_eq hr)
  exact ⟨by rw [hvalue, hmore], hreads.trans hmreads⟩

theorem commaList_gives (h : CompleteExpression E expr) (place : Place) (hc : Calm c)
    (hclose : close.token.kind = .rightParen ∨ close.token.kind = .colon) (hr : c.rest = ls ++ close :: xs)
    (hphrase : CommaList (E c.scopes.head?) ls ss) : Gives c ls ss (commaList expr place c) := by
  have hne : close.token.kind ≠ .comma := by
    rcases hclose with hk | hk <;> rw [hk] <;> nofun
  cases hphrase with
  | @plain as bs _ _ ha hb =>
    have hstop : Stops (close :: xs) := by
      rcases hclose with hk | hk <;> exact .of_kind hk ⟨rfl, nofun⟩ _
    obtain ⟨hvalue, hreads⟩ := items_gives h place ha hb hstop
      (fun d hd hdr => nextInList?_ends place close hd hclose (.inl hdr)) hc hr
    rw [List.append_assoc] at hr
    rw [commaList_eq place (h.atOperand hc hr ha)]
    refine ⟨hvalue, ?_⟩
    rw [← List.append_assoc] at hr
    rw [skipComma, eat?_eq_none (by simpa [hreads.rest_eq hr] using hne)]
    exact hreads
  | @trailing comma as bs _ _ ha hb hk =>
    rw [List.append_assoc, List.singleton_append] at hr
    obtain ⟨hvalue, hreads⟩ := items_gives h place ha hb (.of_kind hk ⟨rfl, nofun⟩ _)
      (fun d hd hdr => nextInList?_ends place comma hd hclose (.inr hdr)) hc hr
    have hrest := hreads.rest_eq hr
    rw [List.append_assoc] at hr
    rw [commaList_eq place (h.atOperand hc hr ha)]
    refine ⟨hvalue, ?_⟩
    rw [skipComma, eat?_of_rest hrest hk]
    exact hreads.trans (.advance hrest)

/-- What stands behind an open parenthesis, up to the closing one. -/
theorem grouping_gives (h : CompleteExpression E expr) (isList : Bool) (paren : Token) (hc : Calm c)
    (hclose : close.token.kind = .rightParen) (hr : c.rest = ls ++ close :: xs)
    (hphrase : (bif isList then CommaList (E c.scopes.head?) else E c.scopes.head?) ls ss) :
    Gives c (ls ++ [close]) ss (grouping expr isList paren c) := by
  have hc' := hc.inside (k := .rightParen) (.inl rfl)
  have hbody : Gives { c with closers := .rightParen :: c.closers } ls ss
      (groupingBody expr isList paren { c with closers := .rightParen :: c.closers }) := by
    unfold groupingBody
    cases isList with
    | true =>
      rw [if_pos (atOperand_of_starts hc' hr (hphrase.starts (h.starts _)))]
      exact commaList_gives h .grouping hc' (.inl hclose) hr hphrase
    | false =>
      rw [if_pos (h.atOperand hc' hr hphrase)]
      exact h.gives .grouping _ ls _ ss hc' hr (.of_kind hclose ⟨rfl, nofun⟩ _) hphrase
  have hreads := hbody.reads.inside
  have hrest := hreads.rest_eq hr
  refine ⟨hbody.value, ?_⟩
  unfold grouping closeGrouping
  dsimp only
  rw [eat?_of_rest hrest hclose]
  exact hreads.trans (.advance hrest)

theorem argument?_gives (src : Source) (h : CompleteExpression E expr) (function : String) (hc : Calm c)
    (hr : c.rest = l :: ls ++ rest) (hstop : Stops rest) (hphrase : E c.scopes.head? (l :: ls) ss) :
    ∃ d, argument? src expr function c = some (argument src l ls ss, d) ∧ Reads c (l :: ls) d := by
  obtain ⟨hvalue, hread⟩ := h.gives .arguments { c with trail := [] } (l :: ls) rest ss ⟨hc.rest, hc.closers⟩ hr hstop
    hphrase
  obtain ⟨hreads, hquiet⟩ := hread.recording
  have hstart : ¬(l.token.kind = .comma ∨ l.token.kind = .rightParen) := by
    obtain ⟨l', as, he, hk⟩ := h.starts _ _ _ hphrase
    rw [(List.cons.inj he).1]
    rintro (hk' | hk') <;> rw [hk'] at hk <;> cases hk
  have hsymbols : (c.recording (expr .arguments)).1.1 = ss := hvalue
  refine ⟨(c.recording (expr .arguments)).2, ?_, hreads⟩
  unfold argument?
  rw [hr]
  dsimp only [List.cons_append]
  rw [if_neg hstart, if_pos (h.atOperand hc hr hphrase), hquiet, hreads.since, hsymbols]
  rfl

theorem argumentRound_last (src : Source) (h : CompleteExpression E expr) (function : String) (hc : Calm c)
    (hclose : close.token.kind = .rightParen) (hr : c.rest = l :: ls ++ close :: xs)
    (hphrase : E c.scopes.head? (l :: ls) ss) :
    ∃ d, argumentRound src expr function c = .done ([argument src l ls ss], true) d ∧
      Reads c (l :: ls ++ [close]) d := by
  obtain ⟨d, hd, hreads⟩ := argument?_gives src h function hc hr (.of_kind hclose ⟨rfl, nofun⟩ _) hphrase
  have hrest := hreads.rest_eq hr
  refine ⟨d.advance, ?_, hreads.trans (.advance hrest)⟩
  rw [argumentRound, hd]
  dsimp only
  rw [behindArgument, isAt_of_rest hrest, isAt_of_rest hrest, hclose]
  rfl

theorem argumentRound_next (src : Source) (h : CompleteExpression E expr) (function : String) (hc : Calm c)
    (hk : comma.token.kind = .comma) (hne : xs ≠ []) (hr : c.rest = l :: ls ++ comma :: xs)
    (hphrase : E c.scopes.head? (l :: ls) ss) :
    ∃ d, argumentRound src expr function c = .next (argument src l ls ss) d ∧ Reads c (l :: ls ++ [comma]) d := by
  obtain ⟨d, hd, hreads⟩ := argument?_gives src h function hc hr (.of_kind hk ⟨rfl, nofun⟩ _) hphrase
  have hrest := hreads.rest_eq hr
  have hcomma := Reads.advance hrest
  have hcalm := hc.onward (hreads.trans hcomma).onward
  refine ⟨d.advance, ?_, hreads.trans hcomma⟩
  rw [argumentRound, hd]
  dsimp only
  rw [behindArgument, isAt_of_rest hrest, hk]
  dsimp only [beq_self_eq_true, if_true]
  have hmore : d.advance.atEnd = false := by
    rw [atEnd, hcomma.rest_eq hrest]
    simpa using hne
  rw [hmore, hcalm.afterBlank]
  rfl

theorem argumentList_of_done {function : String} {last : List CallPart × Bool} (h : SteadyExpression expr)
    (hd : argumentRound src expr function c = .done last d) : argumentList src expr function c = (last, d) := by
  unfold argumentList
  rw [loop_eq_of_advances (argumentRound_advances src h function), hd]
  rfl

theorem argumentList_of_next {function : String} {part : CallPart} (h : SteadyExpression expr)
    (hd : argumentRound src expr function c = .next part d) : argumentList src expr function c =
      ((part :: (argumentList src expr function d).1.1, (argumentList src expr function d).1.2),
        (argumentList src expr function d).2) := by
  unfold argumentList
  rw [loop_eq_of_advances (argumentRound_advances src h function), hd]
  rfl

theorem argumentList_gives (src : Source) (h : CompleteExpression E expr) (function : String) {parts : List CallPart}
    (hphrase : Arguments src (E around) ls parts) (hclose : close.token.kind = .rightParen) (hc : Calm c)
    (hscopes : c.scopes.head? = around) (hr : c.rest = ls ++ close :: xs) :
    Gives c (ls ++ [close]) (parts, true) (argumentList src expr function c) := by
  induction hphrase generalizing c with
  | one ha =>
    obtain ⟨d, hd, hreads⟩ := argumentRound_last src h function hc hclose hr (hscopes ▸ ha)
    rw [argumentList_of_done h.steady hd]
    exact ⟨rfl, hreads⟩
  | @cons l comma ls as ss parts ha hk hm ih =>
    rw [List.append_assoc, List.cons_append] at hr
    have hne : as ++ close :: xs ≠ [] := by simp
    obtain ⟨d, hd, hreads⟩ := argumentRound_next src h function hc hk hne hr (hscopes ▸ ha)
    have hrest : d.rest = as ++ close :: xs := hreads.rest_eq (by simpa using hr)
    obtain ⟨hvalue, hmore⟩ := ih (hc.onward hreads.onward) (hreads.scopes.trans hscopes) hrest
    rw [argumentList_of_next h.steady hd, hvalue]
    refine ⟨rfl, ?_⟩
    have hall := hreads.trans hmore
    simpa only [List.append_assoc, List.cons_append, List.nil_append] using hall

theorem arguments_gives (src : Source) (h : CompleteExpression E expr) (function : String) {parts : List CallPart}
    (hphrase : Closed src (E c.scopes.head?) ls parts) (hc : Calm c) (hr : c.rest = ls ++ rest) :
    Gives c ls (parts, true) (arguments src expr function c) := by
  unfold arguments
  cases hphrase with
  | @empty close hclose =>
    rw [eat?_of_rest hr hclose]
    exact ⟨rfl, .advance hr⟩
  | @arguments close as _ ha hclose =>
    rw [List.append_assoc] at hr
    obtain ⟨l, as', he, hl⟩ := ha.starts (h.starts _)
    have hnone : c.eat? .rightParen = none := by
      refine eat?_eq_none fun x hx => ?_
      rw [hr, he] at hx
      obtain rfl := Option.some.inj hx
      intro hk
      rw [hk] at hl
      cases hl
    have hlist := argumentList_gives src h function ha hclose (hc.inside (k := .rightParen) (.inl rfl)) rfl hr
    rw [hnone]
    exact ⟨hlist.value, hlist.reads.inside⟩

theorem scopedArguments_gives (src : Source) (h : CompleteExpression E expr) (name : Token) {parts : List CallPart}
    (hphrase : Closed src (E (argumentScope src name c.scopes.head?)) ls parts) (hc : Calm c)
    (hr : c.rest = ls ++ rest) :
    Gives c ls (parts, true) (scopedArguments src expr name (isAggregate src name) c) := by
  unfold scopedArguments
  unfold argumentScope at hphrase
  split
  · rename_i hagg
    rw [if_pos hagg] at hphrase
    have harguments := arguments_gives (c := { c with scopes := .aggregate :: c.scopes }) src h name.text hphrase
      ⟨hc.rest, hc.closers⟩ hr
    exact ⟨harguments.value, harguments.reads.inScope⟩
  · rename_i hagg
    rw [if_neg hagg] at hphrase
    exact arguments_gives src h name.text hphrase hc hr

theorem call_gives (src : Source) (h : CompleteExpression E expr) {name paren : Lexeme} {parts : List CallPart}
    (hl : Reads b [name, paren] c) (hphrase : Closed src (E (argumentScope src name.token b.scopes.head?)) as parts)
    (hc : Calm c) (hr : c.rest = as ++ rest) :
    Gives b (name :: paren :: as) (node src name.token.text
      (.call (parts.map (·.argument)) (isAggregate src name.token && b.scopes.head? == some .aggregate))
      (name.span (paren :: as)) (parts.flatMap (·.symbols))) (call src expr name.token paren.token c) := by
  rw [← hl.scopes] at hphrase
  obtain ⟨hvalue, hreads⟩ := scopedArguments_gives src h name.token hphrase hc hr
  obtain ⟨hnode, hf⟩ := finishCall_reads src name.token paren.token
    (isAggregate src name.token && c.scopes.head? == some .aggregate) hphrase.complete
    (scopedArguments src expr name.token (isAggregate src name.token) c).2
  have hall : Reads b (name :: paren :: as) _ := hl.trans hreads
  rw [call_eq, hvalue, ← hl.scopes]
  refine ⟨?_, List.append_nil (name :: paren :: as) ▸ hall.trans hf⟩
  rw [hnode, hall.since]

end Statement

end Calculation
