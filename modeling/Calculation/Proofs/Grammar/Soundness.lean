import Calculation.Proofs.Grammar.Reads
import Calculation.Proofs.Reading.DerivedBlock

namespace Calculation.Statement
open Cursor Grammar

/-- What the constructs rely on in the way to read an expression: without a structural fault it reads a phrase. -/
structure SoundExpression (E : Expressions) (expr : ReadExpression) : Prop where
  steady : SteadyExpression expr
  phrase : ∀ place c, AtStart c → Quiet c (expr place c).2 →
    ∃ ls, Reads c ls (expr place c).2 ∧ E c.scopes.head? ls (expr place c).1

variable {src : Source} {E : Expressions} {expr : ReadExpression} {around : Option Scope} {b c d e : Cursor}
  {t : Token} {l : Lexeme} {ls : List Lexeme}

/-- An expression behind which a reading goes on. -/
theorem SoundExpression.phrase_split (h : SoundExpression E expr) (place : Place) (hc : c.atOperand = true)
    (hd : Onward (expr place c).2 d) (hq : Quiet c d) :
    (∃ ls, Reads c ls (expr place c).2 ∧ E c.scopes.head? ls (expr place c).1) ∧ Quiet (expr place c).2 d := by
  obtain ⟨hqx, hqd⟩ := hq.split (h.steady.onward place c) hd
  exact ⟨h.phrase place c (atStart_of_atOperand hc) hqx, hqd⟩

theorem operatorSymbol_reads (src : Source) (op : Token) (c : Cursor) :
    (operatorSymbol src op c).1 = operator src op ∧ Reads c [] (operatorSymbol src op c).2 := by
  unfold operatorSymbol operator
  split
  · dsimp only
    exact ⟨rfl, .finish src _ c⟩
  · exact ⟨rfl, .refl c⟩

theorem literal_reads (src : Source) (h : openLiteral? t = none) (c : Cursor) :
    (literal src t c).1 = node src t.text (.literal (literalKind t.kind)) t.range [] ∧
      Reads c [] (literal src t c).2 := by
  unfold literal
  rw [h]
  exact ⟨rfl, .finish src _ c⟩

theorem openLiteral?_of_quiet (src : Source) (hq : Quiet c (literal src t c).2) : openLiteral? t = none := by
  unfold literal at hq
  cases ho : openLiteral? t with
  | none => rfl
  | some cause =>
    rw [ho] at hq
    exact absurd hq (not_quiet_of_fault (openLiteral?_code ho).1 (.leaf src _ _ _ _ _))

/-- A field token that is reported is open. -/
theorem closed_of_quiet (hd : Onward (checkField t c) d) (hq : Quiet c d) : t.isOpen = false := by
  cases hopen : t.isOpen with
  | false => rfl
  | true =>
    rw [checkField, if_pos hopen] at hd
    exact absurd hq (not_quiet_of_fault rfl hd)

theorem fieldReference_closed (src : Source) (h : t.isOpen = false) (c : Cursor) :
    fieldReference src t c = match qualified? c with
      | some (t', c) => (checkField t' c).leaf src t'.fieldName (.field (some t.fieldName))
          (t.range.cover t'.range) (!t'.isOpen)
      | none => c.leaf src t.fieldName (.field none) t.range true := by
  unfold fieldReference
  rw [checkField_closed h, h]
  rfl

theorem fieldReference_phrase (hl : Reads b [l] c) (hk : l.token.kind = .field)
    (hq : Quiet c (fieldReference src l.token c).2) : ∃ ls, Reads b ls (fieldReference src l.token c).2 ∧
      Primary src E around ls [(fieldReference src l.token c).1] := by
  have hclosed : l.token.isOpen = false := by
    refine closed_of_quiet ?_ hq
    unfold fieldReference
    dsimp only
    split
    · rename_i t' d hd
      split at hd
      · cases hd
      · exact (qualified?_onward _ _ _ hd).trans ((checkField_onward t' d).trans (.leaf src _ _ _ _ _))
    · exact .leaf src _ _ _ _ _
  rw [fieldReference_closed src hclosed c] at hq ⊢
  cases hs : qualified? c with
  | none => exact ⟨[l], hl.trans (.finish src _ c), .field hk hclosed⟩
  | some p =>
    obtain ⟨t', d⟩ := p
    obtain ⟨⟨dot, c'⟩, hdot, hfield⟩ := Option.bind_eq_some_iff.mp hs
    obtain ⟨ldot, rfl, hdotk, hrdot⟩ := Reads.of_eat hdot
    obtain ⟨l', rfl, hk', hr'⟩ := Reads.of_eat (c := c') hfield
    rw [hs] at hq
    have hboth := hrdot.trans hr'
    obtain ⟨-, hq'⟩ := hq.split hboth.onward ((checkField_onward l'.token d).trans (.leaf src _ _ _ _ _))
    have hclosed' := closed_of_quiet (.leaf src _ _ _ _ _) hq'
    dsimp only
    rw [checkField_closed hclosed', hclosed']
    exact ⟨_, hl.trans (hboth.trans (.finish src _ d)), .qualified hk hclosed hdotk hk' hclosed'⟩

theorem nextInList?_eq_some {place : Place} {ss : List Symbol} (h : nextInList? expr place c = some (ss, d)) :
    ∃ comma e, c.eat? .comma = some (comma, e) ∧ e.atOperand = true ∧ expr place e = (ss, d) := by
  unfold nextInList? at h
  split at h
  · rename_i comma e he
    split at h
    · exact ⟨comma, e, he, ‹_›, Option.some.inj h⟩
    · cases h
  · cases h

theorem nextInList?_phrase (h : SoundExpression E expr) {place : Place} {ss : List Symbol}
    (hc : c.scopes.head? = around) (hr : nextInList? expr place c = some (ss, d)) (hq : Quiet c d) :
    ∃ comma as, comma.token.kind = .comma ∧ E around as ss ∧ Reads c (comma :: as) d := by
  obtain ⟨_, e, he, hat, hx⟩ := nextInList?_eq_some hr
  obtain ⟨comma, -, hk, hcomma⟩ := Reads.of_eat he
  have hd : (expr place e).2 = d := congrArg Prod.snd hx
  obtain ⟨-, hqx⟩ := hq.split hcomma.onward (hd ▸ h.steady.onward place e)
  obtain ⟨as, has, ha⟩ := h.phrase place e (atStart_of_atOperand hat) (hd ▸ hqx)
  rw [hx, hcomma.scopes, hc] at ha
  exact ⟨comma, as, hk, ha, hcomma.trans (hd ▸ has)⟩

theorem skipComma_reads (c : Cursor) :
    skipComma c = c ∨ ∃ comma, comma.token.kind = .comma ∧ Reads c [comma] (skipComma c) := by
  unfold skipComma
  cases he : c.eat? .comma with
  | none => exact .inl rfl
  | some p =>
    obtain ⟨comma, -, hk, hcomma⟩ := Reads.of_eat he
    exact .inr ⟨comma, hk, hcomma⟩

theorem commaList_eq (place : Place) (hc : c.atOperand = true) : commaList expr place c =
    ((expr place c).1 ++ ((expr place c).2.many (nextInList? expr place)).1.flatten,
      skipComma ((expr place c).2.many (nextInList? expr place)).2) := by
  rw [commaList, if_pos hc]

theorem commaList_phrase (h : SoundExpression E expr) (place : Place) (hc : c.atOperand = true)
    (hq : Quiet c (commaList expr place c).2) : ∃ ls, Reads c ls (commaList expr place c).2 ∧
      CommaList (E c.scopes.head?) ls (commaList expr place c).1 := by
  have hmore := nextInList?_onward h.steady place
  rw [commaList_eq place hc] at hq ⊢
  obtain ⟨⟨as, has, ha⟩, hq⟩ := h.phrase_split place hc ((hmore.many _).trans (skipComma_onward _)) hq
  obtain ⟨hqm, -⟩ := hq.split (hmore.many _) (skipComma_onward _)
  obtain ⟨bs, hbs, hb⟩ := hmore.many_reads (P := fun ls sss => More (E c.scopes.head?) ls sss.flatten) .nil
    (fun c' ss d hc' hr hqr => by
      obtain ⟨comma, as, hk, ha, has⟩ := nextInList?_phrase h hc' hr hqr
      exact ⟨_, has, fun bs rest hm => .cons hk ha hm⟩) has.scopes hqm
  rcases skipComma_reads ((expr place c).2.many (nextInList? expr place)).2 with he | ⟨comma, hk, hcomma⟩
  · rw [he]
    exact ⟨_, has.trans hbs, .plain ha hb⟩
  · exact ⟨_, (has.trans hbs).trans hcomma, .trailing ha hb hk⟩

theorem groupingBody_phrase (h : SoundExpression E expr) {isList : Bool} {paren : Token} {close : Lexeme}
    (hk : close.token.kind = .rightParen) (hclose : (groupingBody expr isList paren c).2.rest = close :: ls)
    (hq : Quiet c (groupingBody expr isList paren c).2) : ∃ as, Reads c as (groupingBody expr isList paren c).2 ∧
      (bif isList then CommaList (E c.scopes.head?) else E c.scopes.head?) as (groupingBody expr isList paren c).1 := by
  unfold groupingBody at hclose hq ⊢
  by_cases hat : c.atOperand = true
  · rw [if_pos hat] at hq ⊢
    cases isList with
    | true => exact commaList_phrase h .grouping hat hq
    | false => exact h.phrase .grouping c (atStart_of_atOperand hat) hq
  · rw [if_neg hat] at hclose hq
    by_cases hempty : c.isAt .rightParen = true
    · rw [if_pos hempty] at hq
      exact absurd hq (not_quiet_fault rfl)
    · rw [if_neg hempty] at hclose
      have hrest : c.rest = close :: ls := hclose
      exact absurd (by simpa [isAt, kind?, hrest] using hk) hempty

theorem closeGrouping_reads {paren : Token} (hq : Quiet c (closeGrouping paren c)) :
    ∃ close, close.token.kind = .rightParen ∧ Reads c [close] (closeGrouping paren c) := by
  unfold closeGrouping at hq ⊢
  cases he : c.eat? .rightParen with
  | none =>
    rw [he] at hq
    exact absurd hq (not_quiet_fault rfl)
  | some p =>
    obtain ⟨close, -, hk, hr⟩ := Reads.of_eat he
    exact ⟨close, hk, hr⟩

/-- What stands behind an open parenthesis. -/
theorem grouping_phrase (h : SoundExpression E expr) {isList : Bool} {paren : Token}
    (hq : Quiet c (grouping expr isList paren c).2) : ∃ as close, close.token.kind = .rightParen ∧
      Reads c (as ++ [close]) (grouping expr isList paren c).2 ∧
      (bif isList then CommaList (E c.scopes.head?) else E c.scopes.head?) as (grouping expr isList paren c).1 := by
  obtain ⟨hqb, hqc⟩ := hq.split ((groupingBody_onward h.steady isList paren).inside .rightParen c)
    (closeGrouping_onward paren _)
  obtain ⟨close, hk, hclose⟩ := closeGrouping_reads hqc
  obtain ⟨as, has, hphrase⟩ := groupingBody_phrase (c := { c with closers := .rightParen :: c.closers }) h hk
    hclose.rest hqb
  exact ⟨as, close, hk, has.inside.trans hclose, hphrase⟩

/-- An expression takes the lexeme that it starts with. -/
theorem SoundExpression.phrase_cons (h : SoundExpression E expr) {place : Place} (hc : AtStart c)
    (hq : Quiet c (expr place c).2) : ∃ l ls, Reads c (l :: ls) (expr place c).2 ∧
      E c.scopes.head? (l :: ls) (expr place c).1 := by
  obtain ⟨ls, hls, hphrase⟩ := h.phrase place c hc hq
  cases ls with
  | nil =>
    have htakes := h.steady.takes place c hc
    rw [hls.rest] at htakes
    exact absurd htakes (Nat.lt_irrefl _)
  | cons l ls => exact ⟨l, ls, hls, hphrase⟩

theorem argument?_phrase (h : SoundExpression E expr) {function : String} {part : CallPart}
    (hc : c.scopes.head? = around) (hr : argument? src expr function c = some (part, d)) (hq : Quiet c d) :
    ∃ l ls ss, Reads c (l :: ls) d ∧ E around (l :: ls) ss ∧ part = argument src l ls ss := by
  unfold argument? at hr
  split at hr
  · cases hr
  · rename_i first rest hrest
    dsimp only at hr
    split at hr
    · cases hr
      exact absurd hq (not_quiet_fault rfl)
    · split at hr
      · rename_i hat
        cases hr
        obtain ⟨l, ls, hls, hphrase⟩ := h.phrase_cons (c := { c with trail := [] }) (atStart_of_atOperand hat)
          (quiet_recording hq)
        obtain ⟨hreads, hquiet⟩ := hls.recording
        obtain ⟨rfl, -⟩ : first = l ∧ _ := List.cons.inj (hrest.symm.trans hls.rest)
        refine ⟨first, ls, _, hreads, hc ▸ hphrase, ?_⟩
        rw [hquiet, hreads.since]
        rfl
      · cases hr

/-- What a round of arguments reads: an argument with its comma, or the last one with the parenthesis behind it. -/
def RoundPhrase (src : Source) (E : Phrase) (c : Cursor) : Cursor.Round CallPart (List CallPart × Bool) → Prop
  | .next part d => ∃ l ls ss comma, comma.token.kind = .comma ∧ Reads c (l :: ls ++ [comma]) d ∧
      E (l :: ls) ss ∧ part = argument src l ls ss
  | .done last d => last.2 = true → ∃ l ls ss close, close.token.kind = .rightParen ∧
      Reads c (l :: ls ++ [close]) d ∧ E (l :: ls) ss ∧ last.1 = [argument src l ls ss]

theorem argumentRound_phrase (src : Source) (h : SoundExpression E expr) (function : String)
    (hc : c.scopes.head? = around) (hq : Quiet c (argumentRound src expr function c).cursor) :
    RoundPhrase src (E around) c (argumentRound src expr function c) := by
  unfold argumentRound at hq ⊢
  cases hr : argument? src expr function c with
  | none => exact nofun
  | some p =>
    obtain ⟨part, d⟩ := p
    rw [hr] at hq
    obtain ⟨hqa, -⟩ := hq.split (argument?_onward src h.steady function _ _ _ hr) (behindArgument_onward part d)
    obtain ⟨l, ls, ss, hls, hphrase, rfl⟩ := argument?_phrase h hc hr hqa
    dsimp only
    unfold behindArgument
    split
    · rename_i hcomma
      obtain ⟨comma, hk, hr⟩ := Reads.of_isAt hcomma
      dsimp only
      split
      · exact nofun
      · exact ⟨l, ls, ss, comma, hk, hls.trans hr, hphrase, rfl⟩
    · split
      · rename_i hclose
        obtain ⟨close, hk, hr⟩ := Reads.of_isAt hclose
        exact fun _ => ⟨l, ls, ss, close, hk, hls.trans hr, hphrase, rfl⟩
      · exact nofun

theorem argumentList_phrase (h : SoundExpression E expr) {function : String}
    (hq : Quiet c (argumentList src expr function c).2) (hclosed : (argumentList src expr function c).1.2 = true) :
    ∃ as close, close.token.kind = .rightParen ∧ Reads c (as ++ [close]) (argumentList src expr function c).2 ∧
      Arguments src (E c.scopes.head?) as (argumentList src expr function c).1.1 := by
  unfold argumentList Cursor.loop at hq hclosed ⊢
  refine (rounds_rule ?_ ?_ ?_ (c.rest.length + 1) c (P := fun c' (r : List CallPart × List CallPart × Bool) e =>
    Onward c' e ∧ (c'.scopes.head? = c.scopes.head? → Quiet c' e → r.2.2 = true →
      ∃ as close, close.token.kind = .rightParen ∧ Reads c' (as ++ [close]) e ∧
        Arguments src (E c.scopes.head?) as (r.1 ++ r.2.1)))).2 rfl hq hclosed
  · exact fun c' => ⟨.refl c', nofun⟩
  · intro c' last d hs
    have hd := argumentRound_onward src h.steady function c'
    rw [hs] at hd
    refine ⟨hd, fun hc' hq hclosed => ?_⟩
    have hround := argumentRound_phrase src h function hc' (hs ▸ hq)
    rw [hs] at hround
    obtain ⟨l, ls, ss, close, hk, hr, hphrase, hlast⟩ := hround hclosed
    exact ⟨l :: ls, close, hk, hr, hlast ▸ .one hphrase⟩
  · rintro c' part d r e hs ⟨hde, ih⟩
    have hd := argumentRound_onward src h.steady function c'
    rw [hs] at hd
    refine ⟨hd.trans hde, fun hc' hq hclosed => ?_⟩
    obtain ⟨hqd, hqe⟩ := hq.split hd hde
    have hround := argumentRound_phrase src h function hc' (hs ▸ hqd)
    rw [hs] at hround
    obtain ⟨l, ls, ss, comma, hk, hr, hphrase, rfl⟩ := hround
    obtain ⟨as, close, hk', hr', hmore⟩ := ih (hr.scopes.trans hc') hqe hclosed
    have hreads := hr.trans hr'
    refine ⟨l :: ls ++ comma :: as, close, hk', ?_, .cons hphrase hk hmore⟩
    simpa only [List.append_assoc, List.cons_append, List.nil_append] using hreads

theorem arguments_phrase (h : SoundExpression E expr) {function : String}
    (hq : Quiet c (arguments src expr function c).2) (hclosed : (arguments src expr function c).1.2 = true) :
    ∃ as, Reads c as (arguments src expr function c).2 ∧
      Closed src (E c.scopes.head?) as (arguments src expr function c).1.1 := by
  unfold arguments at hq hclosed ⊢
  cases he : c.eat? .rightParen with
  | some p =>
    obtain ⟨close, -, hk, hr⟩ := Reads.of_eat he
    exact ⟨[close], hr, .empty hk⟩
  | none =>
    rw [he] at hq hclosed
    obtain ⟨as, close, hk, hr, hphrase⟩ := argumentList_phrase (c := { c with closers := .rightParen :: c.closers })
      h hq hclosed
    exact ⟨_, hr.inside, .arguments hphrase hk⟩

theorem scopedArguments_phrase (h : SoundExpression E expr) {name : Token} (hc : c.scopes.head? = around)
    (hq : Quiet c (scopedArguments src expr name (isAggregate src name) c).2)
    (hclosed : (scopedArguments src expr name (isAggregate src name) c).1.2 = true) :
    ∃ as, Reads c as (scopedArguments src expr name (isAggregate src name) c).2 ∧
      Closed src (E (argumentScope src name around)) as
        (scopedArguments src expr name (isAggregate src name) c).1.1 := by
  unfold scopedArguments at hq hclosed ⊢
  unfold argumentScope
  split
  · rename_i hagg
    rw [if_pos hagg] at hq hclosed
    obtain ⟨as, hr, hphrase⟩ := arguments_phrase (c := { c with scopes := .aggregate :: c.scopes }) h hq hclosed
    exact ⟨as, hr.inScope, hphrase⟩
  · rename_i hagg
    rw [if_neg hagg] at hq hclosed
    exact hc ▸ arguments_phrase h hq hclosed

theorem checkSignature_reads (name : Token) (signature? : Option Signature) (count : Nat) (c : Cursor) :
    Reads c [] (checkSignature name signature? count c) := by
  unfold checkSignature
  split
  · exact .fault rfl
  · split
    · exact .refl c
    · exact .fault rfl

/-- What is checked of a call that is closed is nothing structural. -/
theorem checkCall_reads (name paren : Token) (signature? : Option Signature) (isComplete : Bool) (count : Nat)
    (c : Cursor) : Reads c [] (checkCall name paren signature? true isComplete count c) := by
  unfold checkCall
  rw [if_neg (by simp)]
  split
  · exact checkSignature_reads name signature? count c
  · exact .refl c

theorem finishCall_closed {name paren : Token} {isNested isClosed : Bool} {parts : List CallPart}
    (hq : Quiet c (finishCall src name paren isNested parts isClosed c).2) : isClosed = true := by
  cases isClosed with
  | true => rfl
  | false => exact absurd hq (not_quiet_of_fault rfl (.finish src _ _))

theorem finishCall_reads (src : Source) (name paren : Token) (isNested : Bool) {parts : List CallPart}
    (hall : parts.all (·.argument.isComplete) = true) (c : Cursor) :
    (finishCall src name paren isNested parts true c).1 = node src name.text
        (.call (parts.map (·.argument)) isNested) (c.since name.range.start) (parts.flatMap (·.symbols)) ∧
      Reads c [] (finishCall src name paren isNested parts true c).2 := by
  have hargs : (parts.map (·.argument)).all (·.isComplete) = true := by
    rw [List.all_map]
    exact hall
  have hcheck := checkCall_reads name paren (src.options.signatures.get? name.text) true
    (parts.map (·.argument)).length c
  unfold finishCall
  dsimp only
  rw [hargs, Bool.true_and]
  refine ⟨?_, hcheck.trans (.finish src _ _)⟩
  have hsince : (checkCall name paren (src.options.signatures.get? name.text) true true
      (parts.map (·.argument)).length c).since name.range.start = c.since name.range.start := by
    rw [since, hcheck.lastEnd]
    rfl
  rw [hsince]
  rfl

theorem call_eq (src : Source) (expr : ReadExpression) (name paren : Token) (c : Cursor) :
    call src expr name paren c = finishCall src name paren
      (isAggregate src name && c.scopes.head? == some .aggregate)
      (scopedArguments src expr name (isAggregate src name) c).1.1
      (scopedArguments src expr name (isAggregate src name) c).1.2
      (scopedArguments src expr name (isAggregate src name) c).2 := by
  unfold call isAggregate
  rfl

theorem call_phrase (h : SoundExpression E expr) {name paren : Lexeme} (hname : name.token.kind = .identifier)
    (hparen : paren.token.kind = .leftParen) (hl : Reads b [name, paren] c)
    (hq : Quiet c (call src expr name.token paren.token c).2) :
    ∃ ls, Reads b ls (call src expr name.token paren.token c).2 ∧
      Primary src E b.scopes.head? ls [(call src expr name.token paren.token c).1] := by
  rw [call_eq] at hq ⊢
  obtain ⟨hqa, hqf⟩ := hq.split (scopedArguments_onward src h.steady name.token _ c)
    (finishCall_onward src name.token paren.token _ _ _ _)
  have hclosed := finishCall_closed hqf
  obtain ⟨as, hr, hphrase⟩ := scopedArguments_phrase h hl.scopes hqa hclosed
  obtain ⟨hnode, hf⟩ := finishCall_reads src name.token paren.token
    (isAggregate src name.token && c.scopes.head? == some .aggregate) hphrase.complete
    (scopedArguments src expr name.token (isAggregate src name.token) c).2
  have hreads : Reads b (name :: paren :: as) _ := hl.trans hr
  rw [hclosed, hnode, hreads.since, hl.scopes]
  exact ⟨_, List.append_nil (name :: paren :: as) ▸ hreads.trans hf, .call hname hparen hphrase⟩

end Calculation.Statement
