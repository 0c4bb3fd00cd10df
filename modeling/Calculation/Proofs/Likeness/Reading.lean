import Calculation.Proofs.Likeness.Basic
import Calculation.Statement.Call
import Calculation.Statement.Skipping

/-!
What tokens that correspond give: operands of a token or two, groupings, calls and what is skipped. The constructs get
the way to read an expression from outside, so that what they give is stated for any two ways that are alike; nothing
was too deep in such an expression when nothing is too deep in the end.
-/
namespace Calculation.Likeness
open Statement Cursor

variable {src src' : Source} {m : Likeness src src'} {c c' : Cursor} {t u paren paren' : Token}

/-- Two ways to read an expression that are alike in every place. -/
structure Expressions (m : Likeness src src') (expr expr' : ReadExpression) : Prop where
  steady : SteadyExpression expr
  alike : ∀ place, m.Readers m.Trees (expr place) (expr' place)

variable {expr expr' : ReadExpression}

theorem operatorSymbol_alike (hc : m.Cursors c c') (ht : m.Tokens t u) :
    m.Both m.Trees (operatorSymbol src t c) (operatorSymbol src' u c') := by
  unfold operatorSymbol
  rw [m.kind ht]
  split
  · obtain ⟨hs, hd⟩ := hc.leaf true (m.same t.kind.displayName) .operator (m.range ht)
    exact ⟨.cons hs .nil, hd⟩
  · exact ⟨.nil, hc⟩

theorem openLiteral?_related {cause : Cause} (h : openLiteral? t = some cause) : cause.related = [] := by
  unfold openLiteral? at h
  split at h
  · split at h <;> cases h <;> rfl
  · cases h

theorem literal_alike (hc : m.Cursors c c') (ht : m.Tokens t u) :
    m.Both m.Symbols (literal src t c) (literal src' u c') := by
  have hopen : openLiteral? u = openLiteral? t := by rw [openLiteral?, openLiteral?, m.isOpen ht, m.kind ht]
  unfold literal
  rw [hopen, m.kind ht]
  cases h : openLiteral? t with
  | none => exact hc.leaf true (m.text ht) (.literal _) (m.range ht)
  | some cause =>
    exact (hc.plainAt cause ht (openLiteral?_related h)).leaf false (m.text ht) (.literal _) (m.range ht)

theorem checkField_alike (hc : m.Cursors c c') (ht : m.Tokens t u) :
    m.Cursors (checkField t c) (checkField u c') := by
  unfold checkField
  rw [m.isOpen ht]
  split
  · exact hc.faultAt .openField (m.text ht) ht rfl rfl rfl
  · exact hc

theorem fieldName_eq (ht : m.Tokens t u) (hk : t.kind = .field) : u.fieldName = t.fieldName := by
  rw [Token.fieldName, Token.fieldName, m.field ht hk, m.isOpen ht]

/-- Fields behind a dot that correspond. -/
def Fields (m : Likeness src src') (t u : Token) : Prop :=
  m.Tokens t u ∧ t.kind = .field

theorem eatField?_alike (hc : m.Cursors c c') : Option.Rel (m.Both m.Fields) (c.eat? .field) (c'.eat? .field) := by
  have hadvance := hc.advance
  unfold Cursor.eat? Cursor.take?
  rw [hc.isAt]
  split
  · rename_i hat
    rcases hc.rest_cases with ⟨h, h'⟩ | ⟨l, ls, l', ls', h, h', hl, -⟩
    · rw [h, h']
      exact .none
    · rw [h, h']
      have hk : l.token.kind = .field := by simpa [Cursor.isAt, Cursor.kind?, h] using hat
      exact .some ⟨⟨hl.token, hk⟩, hadvance⟩
  · exact .none

theorem qualified?_alike (hc : m.Cursors c c') : Option.Rel (m.Both m.Fields) (qualified? c) (qualified? c') := by
  unfold qualified?
  have hdot := hc.eat? .dot
  generalize c.eat? .dot = x, c'.eat? .dot = x' at hdot
  cases hdot with
  | none => exact .none
  | some hx => exact eatField?_alike hx.cursor

theorem fieldReference_alike (hc : m.Cursors c c') (ht : m.Tokens t u) (hk : t.kind = .field) :
    m.Both m.Symbols (fieldReference src t c) (fieldReference src' u c') := by
  have hd := checkField_alike hc ht
  have hqualified : Option.Rel (m.Both m.Fields) (if t.isOpen then none else qualified? (checkField t c))
      (if u.isOpen then none else qualified? (checkField u c')) := by
    rw [m.isOpen ht]
    split
    · exact .none
    · exact qualified?_alike hd
  unfold fieldReference
  dsimp only
  generalize (if t.isOpen then none else qualified? (checkField t c)) = x,
    (if u.isOpen then none else qualified? (checkField u c')) = x' at hqualified
  cases hqualified with
  | none =>
    dsimp only
    rw [fieldName_eq ht hk, m.isOpen ht]
    exact hd.leaf _ (m.same t.fieldName) (.field none) (m.range ht)
  | @some x x' hx =>
    obtain ⟨t', d⟩ := x
    obtain ⟨u', d'⟩ := x'
    obtain ⟨⟨ht', hk'⟩, hd'⟩ := hx
    dsimp only at ht' hk' hd' ⊢
    rw [fieldName_eq ht hk, fieldName_eq ht' hk', m.isOpen ht']
    exact (checkField_alike hd' ht').leaf _ (m.same t'.fieldName) (.field (some t.fieldName)) (m.cover ht ht')

theorem bareIdentifier_alike (hc : m.Cursors c c') (ht : m.Tokens t u) :
    m.Both m.Symbols (bareIdentifier src t c) (bareIdentifier src' u c') :=
  (hc.faultAt .bareIdentifier (m.text ht) ht rfl rfl rfl).leaf false (m.text ht) (.field none) (m.range ht)

theorem nextInList?_alike (he : m.Expressions expr expr') (place : Place) :
    m.Readers? m.Trees (nextInList? expr place) (nextInList? expr' place) := by
  intro c c' hc
  unfold nextInList?
  have hcomma := hc.eat? .comma
  generalize c.eat? .comma = x, c'.eat? .comma = x' at hcomma
  cases hcomma with
  | none => exact .none
  | some hx =>
    have hd := hx.cursor
    dsimp only
    rw [hd.atOperand]
    split
    · exact .some (he.alike place _ _ hd)
    · exact .none

theorem skipComma_alike (hc : m.Cursors c c') : m.Cursors (skipComma c) (skipComma c') := by
  unfold skipComma
  have hcomma := hc.eat? .comma
  generalize c.eat? .comma = x, c'.eat? .comma = x' at hcomma
  cases hcomma with
  | none => exact hc
  | some hx => exact hx.cursor

theorem commaList_alike (he : m.Expressions expr expr') (place : Place) :
    m.Readers m.Trees (commaList expr place) (commaList expr' place) := by
  intro c c' hc
  have hon := nextInList?_onward he.steady place
  unfold commaList
  rw [hc.atOperand]
  split
  · intro hshallow
    have hbehind := hshallow.back (skipComma_onward _)
    obtain ⟨hfirst, hd⟩ := he.alike place c c' hc (hbehind.back (hon.many _))
    obtain ⟨hmore, hd'⟩ := (nextInList?_alike he place).many hon _ _ hd hbehind
    exact ⟨List.rel_append hfirst (List.rel_flatten hmore), skipComma_alike hd'⟩
  · exact Both.read ⟨.nil, hc⟩

theorem groupingBody_alike (he : m.Expressions expr expr') (isList : Bool) (ht : m.Tokens paren paren') :
    m.Readers m.Trees (groupingBody expr isList paren) (groupingBody expr' isList paren') := by
  intro c c' hc
  unfold groupingBody
  rw [hc.atOperand, hc.isAt]
  split
  · split
    · exact commaList_alike he .grouping c c' hc
    · exact he.alike .grouping c c' hc
  · split
    · exact Both.read ⟨.nil, hc.plainAt .emptyGrouping ht rfl⟩
    · exact Both.read ⟨.nil, hc⟩

theorem closeGrouping_alike (hc : m.Cursors c c') (ht : m.Tokens paren paren') :
    m.Cursors (closeGrouping paren c) (closeGrouping paren' c') := by
  unfold closeGrouping
  have hclose := hc.eat? .rightParen
  generalize c.eat? .rightParen = x, c'.eat? .rightParen = x' at hclose
  cases hclose with
  | none => exact hc.plainAt .openGrouping ht rfl
  | some hx => exact hx.cursor

theorem grouping_alike (he : m.Expressions expr expr') (isList : Bool) (ht : m.Tokens paren paren') :
    m.Readers m.Trees (grouping expr isList paren) (grouping expr' isList paren') := by
  intro c c' hc hshallow
  obtain ⟨hbody, hd⟩ := (groupingBody_alike he isList ht).inside .rightParen c c' hc
    (hshallow.back (closeGrouping_onward paren _))
  exact ⟨hbody, closeGrouping_alike hd ht⟩

structure CallParts (m : Likeness src src') (p p' : CallPart) : Prop where
  argument : m.Arguments p.argument p'.argument
  symbols : m.Trees p.symbols p'.symbols

/-- Rows of arguments that are alike, both closed or both open. -/
def ArgumentLists (m : Likeness src src') (x x' : List CallPart × Bool) : Prop :=
  List.Forall₂ m.CallParts x.1 x'.1 ∧ x'.2 = x.2

theorem argument?_alike (he : m.Expressions expr expr') {f f' : String} (hf : m.Words f f') :
    m.Readers? m.CallParts (argument? src expr f) (argument? src' expr' f') := by
  intro c c' hc
  unfold argument?
  rw [hc.atOperand]
  rcases hc.rest_cases with ⟨h, h'⟩ | ⟨l, ls, l', ls', h, h', hl, -⟩
  · rw [h, h']
    exact .none
  · rw [h, h']
    dsimp only
    rw [m.kind hl.token]
    split
    · have hd := hc.faultAt .missingArgument hf hl.token rfl rfl rfl
      exact .some (Both.read ⟨⟨m.missing hl.token, .nil⟩, hd⟩)
    · split
      · refine .some fun hshallow => ?_
        obtain ⟨⟨hsymbols, hmet⟩, hd⟩ := (he.alike .arguments).recording c c' hc hshallow
        rw [any_isStructural hmet]
        exact ⟨⟨m.argument _ (hd.since hl.token), hsymbols⟩, hd⟩
      · exact .none

theorem behindArgument_alike {part part' : CallPart} (hpart : m.CallParts part part') (hc : m.Cursors c c') :
    m.Rounds m.CallParts m.ArgumentLists (behindArgument part c) (behindArgument part' c') := by
  have hd := hc.advance
  have hone : List.Forall₂ m.CallParts [part] [part'] := .cons hpart .nil
  unfold behindArgument
  rw [hc.isAt, hc.isAt]
  split
  · dsimp only
    rw [hd.atEnd, hd.afterBlank]
    split
    · exact .done ⟨hone, rfl⟩ hd
    · exact .next hpart hd
  · split
    · exact .done ⟨hone, rfl⟩ hd
    · exact .done ⟨hone, rfl⟩ hc

theorem argumentRound_alike (he : m.Expressions expr expr') {f f' : String} (hf : m.Words f f')
    (hc : m.Cursors c c') (hshallow : Shallow src src' (argumentRound src expr f c).cursor) :
    m.Rounds m.CallParts m.ArgumentLists (argumentRound src expr f c) (argumentRound src' expr' f' c') := by
  have hargument := argument?_alike he hf c c' hc
  unfold argumentRound at hshallow ⊢
  generalize argument? src expr f c = x, argument? src' expr' f' c' = x' at hargument hshallow
  cases hargument with
  | none => exact .done ⟨.nil, rfl⟩ hc
  | some hx =>
    obtain ⟨hpart, hd⟩ := hx (hshallow.back (behindArgument_onward _ _))
    exact behindArgument_alike hpart hd

theorem argumentList_alike (he : m.Expressions expr expr') {f f' : String} (hf : m.Words f f') :
    m.Readers m.ArgumentLists (argumentList src expr f) (argumentList src' expr' f') := by
  intro c c' hc hshallow
  obtain ⟨⟨hparts, hlast, hclosed⟩, hd⟩ :=
    loop (argumentRound_onward src he.steady f) (fun _ _ hc => argumentRound_alike he hf hc)
      (⟨.nil, rfl⟩ : m.ArgumentLists ([], false) ([], false)) c c' hc hshallow
  exact ⟨⟨List.rel_append hparts hlast, hclosed⟩, hd⟩

theorem arguments_alike (he : m.Expressions expr expr') {f f' : String} (hf : m.Words f f') :
    m.Readers m.ArgumentLists (arguments src expr f) (arguments src' expr' f') := by
  intro c c' hc
  unfold arguments
  have hclose := hc.eat? .rightParen
  generalize c.eat? .rightParen = x, c'.eat? .rightParen = x' at hclose
  cases hclose with
  | none => exact (argumentList_alike he hf).inside .rightParen c c' hc
  | some hx => exact Both.read ⟨⟨.nil, rfl⟩, hx.cursor⟩

theorem scopedArguments_alike (he : m.Expressions expr expr') (ht : m.Tokens t u) (isAggregate : Bool) :
    m.Readers m.ArgumentLists (scopedArguments src expr t isAggregate) (scopedArguments src' expr' u isAggregate) := by
  intro c c' hc
  unfold scopedArguments
  split
  · exact (arguments_alike he (m.text ht)).inScope .aggregate c c' hc
  · exact arguments_alike he (m.text ht) c c' hc

theorem checkSignature_alike (hc : m.Cursors c c') (ht : m.Tokens t u) (signature? : Option Signature) (count : Nat) :
    m.Cursors (checkSignature t signature? count c) (checkSignature u signature? count c') := by
  unfold checkSignature
  cases signature? with
  | none => exact hc.faultAt .unknownFunction (m.text ht) ht rfl rfl rfl
  | some s =>
    dsimp only
    split
    · exact hc
    · exact hc.faultAt (.wrongArity · s.expected count) (m.text ht) ht rfl rfl rfl

theorem checkCall_alike (hc : m.Cursors c c') (ht : m.Tokens t u) (hparen : m.Tokens paren paren')
    (signature? : Option Signature) (isClosed isComplete : Bool) (count : Nat) :
    m.Cursors (checkCall t paren signature? isClosed isComplete count c)
      (checkCall u paren' signature? isClosed isComplete count c') := by
  unfold checkCall
  rw [hc.scans]
  split
  · exact hc.fault (.openCall (m.text ht) ht) (m.range hparen) (m.proper hparen)
  · split
    · exact checkSignature_alike hc ht signature? count
    · exact hc

theorem CallParts.all_isComplete {ps ps' : List CallPart} (h : List.Forall₂ m.CallParts ps ps') :
    (ps'.map (·.argument)).all (·.isComplete) = (ps.map (·.argument)).all (·.isComplete) := by
  induction h with
  | nil => rfl
  | cons hp _ ih =>
    rw [List.map_cons, List.map_cons, List.all_cons, List.all_cons, ih, m.whole hp.argument]

theorem finishCall_alike (hc : m.Cursors c c') (ht : m.Tokens t u) (hparen : m.Tokens paren paren') (isNested : Bool)
    {ps ps' : List CallPart} (hparts : List.Forall₂ m.CallParts ps ps') (isClosed : Bool) :
    m.Both m.Symbols (finishCall src t paren isNested ps isClosed c)
      (finishCall src' u paren' isNested ps' isClosed c') := by
  have hargs : List.Forall₂ m.Arguments (ps.map (·.argument)) (ps'.map (·.argument)) :=
    List.rel_map (fun _ _ hp => hp.argument) hparts
  have hsymbols : m.Trees (ps.flatMap (·.symbols)) (ps'.flatMap (·.symbols)) :=
    List.rel_flatMap hparts fun _ _ hp => hp.symbols
  unfold finishCall
  dsimp only
  rw [m.signature (m.text ht), CallParts.all_isComplete hparts, ← hargs.length_eq]
  have hd := checkCall_alike hc ht hparen (src.options.signatures.get? t.text) isClosed
    (isClosed && (ps.map (·.argument)).all (·.isComplete)) (ps.map (·.argument)).length
  exact hd.finish _ (m.text ht) (.call hargs) (hd.since ht) hsymbols

theorem call_alike (he : m.Expressions expr expr') (ht : m.Tokens t u) (hparen : m.Tokens paren paren')
    (hc : m.Cursors c c') : m.Read m.Symbols (call src expr t paren c) (call src' expr' u paren' c') := by
  intro hshallow
  unfold call
  dsimp only
  rw [m.signature (m.text ht), hc.scopes]
  obtain ⟨⟨hparts, hclosed⟩, hd⟩ :=
    scopedArguments_alike he ht ((src.options.signatures.get? t.text).any Signature.isAggregate) c c' hc
      (hshallow.back (finishCall_onward src t paren _ _ _ _))
  rw [hclosed]
  exact finishCall_alike hd ht hparen _ hparts _

theorem skipNext?_alike (he : m.Expressions expr expr') (place : Place) :
    m.Readers? m.Trees (skipNext? expr place) (skipNext? expr' place) := by
  intro c c' hc
  unfold skipNext?
  rw [hc.atCloser]
  rcases hc.rest_cases with ⟨h, h'⟩ | ⟨l, ls, l', ls', h, h', hl, -⟩
  · rw [h, h']
    exact .none
  · rw [h, h']
    dsimp only
    rw [m.kind hl.token, hl.afterBlank]
    split
    · exact .none
    · split
      · exact .some (he.alike place c c' hc)
      · exact .some (Both.read ⟨.nil, hc.advance⟩)

theorem skipFirst_alike (he : m.Expressions expr expr') (place : Place) (ht : m.Tokens t u) :
    m.Readers m.Trees (skipFirst expr place t) (skipFirst expr' place u) := by
  intro c c' hc
  unfold skipFirst
  rw [m.kind ht]
  split
  · exact he.alike place c c' hc
  · exact Both.read ⟨.nil, hc.advance⟩

theorem skipStretch_alike (he : m.Expressions expr expr') (place : Place) (ht : m.Tokens t u) :
    m.Readers m.Trees (skipStretch expr place t) (skipStretch expr' place u) := by
  intro c c' hc hshallow
  have hon := skipNext?_onward he.steady place
  obtain ⟨hfirst, hd⟩ := skipFirst_alike he place ht c c' hc (hshallow.back (hon.many _))
  obtain ⟨hmore, hd'⟩ := (skipNext?_alike he place).many hon _ _ hd hshallow
  exact ⟨List.rel_append hfirst (List.rel_flatten hmore), hd'⟩

/-- The code of what is unexpected does not depend on its text. -/
theorem unexpected_alike (kind : Token.Kind) (isRun : Bool) (place : Place) (ht : m.Tokens t u) :
    Causes m.Tokens m.Words (.unexpected kind t.text isRun place) (.unexpected kind u.text isRun place) :=
  .word (.unexpected kind · isRun place) (m.text ht) rfl rfl rfl

theorem resync_alike (he : m.Expressions expr expr') (place : Place) (ht : m.Tokens t u) (hc : m.Cursors c c') :
    m.Read m.Symbols (resync src expr place t c) (resync src' expr' place u c') := by
  intro hshallow
  unfold resync
  rw [m.kind ht]
  have hfault := hc.fault (unexpected_alike t.kind false place ht) (m.range ht) (m.proper ht)
  obtain ⟨hsymbols, hd⟩ := (skipStretch_alike he place ht).scanning _ _ hfault (hshallow.back (.finish src _ _))
  exact hd.finish false (m.same _) .skipped (hd.since ht) hsymbols

theorem runLength_eq (balance : Nat) {ls ls' : List Lexeme} (h : List.Forall₂ m.Lexemes ls ls') :
    runLength balance ls' = runLength balance ls := by
  induction h generalizing balance with
  | nil => rfl
  | @cons l l' ls ls' hl _ ih =>
    rw [runLength, runLength, m.kind hl.token, hl.afterBlank]
    cases balanceBehind? balance l.token.kind with
    | none => rfl
    | some b =>
      dsimp only
      rw [ih b]

/-- With the same levels, what is too deep is so in both. -/
theorem tooDeep_alike (hlevels : src'.options.levels = src.options.levels) :
    m.Expressions (tooDeep src) (tooDeep src') := by
  refine ⟨expression_steady src 0, fun place c c' hc => ?_⟩
  unfold tooDeep
  rcases hc.rest_cases with ⟨h, h'⟩ | ⟨l, ls, l', ls', h, h', hl, hls⟩
  · rw [h, h']
    exact Both.read ⟨.nil, hc⟩
  · rw [h, h']
    dsimp only
    rw [m.kind hl.token, runLength_eq _ hls, hlevels]
    have hd := hc.skip (1 + runLength ((balanceBehind? 0 l.token.kind).getD 0) ls)
    have hrange := hd.since hl.token
    have hcause : Causes m.Tokens m.Words (.tooDeep src.options.levels) (.tooDeep src.options.levels) :=
      .word (fun _ => .tooDeep src.options.levels) (m.same "") rfl rfl rfl
    obtain ⟨hs, he⟩ := (hd.fault hcause hrange (hc.lt_since_skip h _)).leaf false (m.same "error") .skipped hrange
    exact Both.read ⟨.cons hs .nil, he⟩

theorem stray_eq {ls ls' : List Lexeme} (h : List.Forall₂ m.Lexemes ls ls') :
    (ls'.takeWhile fun l => !(l.token.kind.startsExpression || l.afterBlank)).length =
      (ls.takeWhile fun l => !(l.token.kind.startsExpression || l.afterBlank)).length := by
  induction h with
  | nil => rfl
  | @cons l l' ls ls' hl _ ih =>
    rw [List.takeWhile_cons, List.takeWhile_cons, m.kind hl.token, hl.afterBlank]
    split
    · rw [List.length_cons, List.length_cons, ih]
    · rfl

theorem strayTokens_alike (hc : m.Cursors c c') : m.Cursors (strayTokens c) (strayTokens c') := by
  unfold strayTokens
  rcases hc.rest_cases with ⟨h, h'⟩ | ⟨l, ls, l', ls', h, h', hl, hls⟩
  · rw [h, h']
    exact hc
  · rw [h, h']
    dsimp only
    rw [stray_eq hls, m.kind hl.token]
    have hd := hc.skip (1 + (ls.takeWhile fun l => !(l.token.kind.startsExpression || l.afterBlank)).length)
    exact hd.fault (unexpected_alike l.token.kind _ .topLevel hl.token) (hd.since hl.token) (hc.lt_since_skip h _)

end Calculation.Likeness
