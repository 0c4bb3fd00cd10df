import Calculation.Proofs.Reading.Extent

namespace Calculation

namespace Statement
open Cursor

variable {src : Source} {expr : ReadExpression} {edge : Nat → Prop} {lo hi : Nat} {c d : Cursor} {t : Token}

/-- What the constructs rely on in the way to read an expression. -/
structure LayingExpression (edge : Nat → Prop) (hi : Nat) (expr : ReadExpression) : Prop where
  steady : SteadyExpression expr
  lays : ∀ lo place, Lays edge lo hi (expr place)

theorem operatorSymbol_lays (src : Source) {op : Token} (ht : Behind edge lo op c) :
    Extends lo c (operatorSymbol src op c).2 ∧
      Symbol.InLine edge op.range.start ((operatorSymbol src op c).2.pos lo) (operatorSymbol src op c).1 := by
  unfold operatorSymbol
  split
  · exact leaf_inLine src ht _ .operator true ⟨ht.proper, ht.stop⟩ ht.edges.2 trivial
  · exact ⟨.refl c, .nil⟩

theorem literal_builds (src : Source) (t : Token) : Builds edge lo hi t (literal src t) := by
  intro c hc ht
  unfold literal
  cases hl : openLiteral? t with
  | none => exact leaf_inLine src ht _ _ _ ⟨ht.proper, ht.stop⟩ ht.edges.2 trivial
  | some cause =>
    have hf : Extends lo c (c.fault cause t.range) := by
      refine .faultAt ht ?_
      unfold openLiteral? at hl
      split at hl
      · split at hl <;> cases hl <;> rfl
      · cases hl
    have hl := leaf_inLine src (ht.onward hc hf.onward) t.text (.literal (literalKind t.kind)) false
      ⟨ht.proper, ht.stop⟩ ht.edges.2 trivial
    exact ⟨hf.trans hc hl.1, hl.2⟩

theorem checkField_extends (ht : Behind edge lo t c) : Extends lo c (checkField t c) := by
  unfold checkField
  split
  · exact .faultAt ht rfl
  · exact .refl c

theorem qualified?_extends {t' : Token} (h : qualified? c = some (t', d)) (hc : c.Placed edge lo hi) :
    Extends lo c d ∧ Behind edge lo t' d ∧ c.pos lo ≤ t'.range.start := by
  unfold qualified? at h
  obtain ⟨⟨dot, e⟩, he, hd⟩ := Option.bind_eq_some_iff.mp h
  have hce : Extends lo c e := .of_eat he
  obtain ⟨ht', hp⟩ := (hce.placed hc).of_eat hd
  exact ⟨hce.trans hc (.of_eat hd), ht', Nat.le_trans (hce.pos_le hc) hp⟩

theorem fieldReference_builds (src : Source) (t : Token) : Builds edge lo hi t (fieldReference src t) := by
  intro c hc ht
  have hf := checkField_extends ht
  have hft := hf.behind hc ht
  unfold fieldReference
  dsimp only
  split
  · rename_i t' d hq
    split at hq
    · cases hq
    · obtain ⟨hq, ht', hp⟩ := qualified?_extends hq (hf.placed hc)
      have hd := hf.trans hc hq
      have hg := checkField_extends ht'
      have htd := hg.behind (hd.placed hc) (hd.behind hc ht)
      have htd' := hg.behind (hd.placed hc) ht'
      have hstart : t.range.start ≤ t'.range.start := Nat.le_trans (start_le_pos hft) hp
      have hstop : t.range.stop ≤ t'.range.start := Nat.le_trans (hft.pos_eq ▸ hft.stop) hp
      rw [Range.cover, Nat.min_eq_left hstart, Nat.max_eq_right (Nat.le_trans hstop ht'.proper)]
      have hl := leaf_inLine src htd t'.fieldName (.field (some t.fieldName)) (!t'.isOpen)
        ⟨Nat.le_trans hstart ht'.proper, htd'.stop⟩ htd'.edges.2 trivial
      exact ⟨(hd.trans hc hg).trans hc hl.1, hl.2⟩
  · have hl := leaf_inLine src hft t.fieldName (.field none) (!t.isOpen) ⟨ht.proper, hft.stop⟩ ht.edges.2
      trivial
    exact ⟨hf.trans hc hl.1, hl.2⟩

theorem bareIdentifier_builds (src : Source) (t : Token) : Builds edge lo hi t (bareIdentifier src t) := by
  intro c hc ht
  have hf : Extends lo c (c.fault (.bareIdentifier t.text) t.range) := .faultAt ht rfl
  have hl := leaf_inLine src (hf.behind hc ht) t.text (.field none) false ⟨ht.proper, ht.stop⟩ ht.edges.2
    trivial
  exact ⟨hf.trans hc hl.1, hl.2⟩

theorem nextInList?_lays (h : LayingExpression edge hi expr) (place : Place) :
    Lays? edge lo hi (nextInList? expr place) := by
  intro c ss d hd hc
  unfold nextInList? at hd
  split at hd
  · rename_i e he
    split at hd
    · simp only [Option.some.injEq] at hd
      have hce : Extends lo c e := .of_eat he
      obtain ⟨hx, hss⟩ := h.lays lo place e (hce.placed hc)
      rw [hd] at hx hss
      exact ⟨hce.trans hc hx, hss.mono (hce.pos_le hc) (Nat.le_refl _)⟩
    · cases hd
  · cases hd

theorem skipComma_extends (c : Cursor) : Extends lo c (skipComma c) := by
  unfold skipComma
  cases h : c.eat? .comma with
  | none => exact .refl c
  | some p => exact .of_eat h

theorem commaList_lays (h : LayingExpression edge hi expr) (place : Place) :
    Lays edge lo hi (commaList expr place) := by
  intro c hc
  unfold commaList
  split
  · dsimp only
    obtain ⟨he, hs⟩ := h.lays lo place c hc
    obtain ⟨hm, hms⟩ := (nextInList?_lays h place).many _ (he.placed hc)
    dsimp only at hm hms
    have hem := he.trans hc hm
    have hss := hs.append hms (he.pos_le hc) (hm.pos_le (he.placed hc))
    have hp : Extends lo _ (skipComma ((expr place c).2.many (nextInList? expr place)).2) := skipComma_extends _
    exact ⟨hem.trans hc hp, hss.mono (Nat.le_refl _) (hp.pos_le (hem.placed hc))⟩
  · exact ⟨.refl c, .nil⟩

theorem groupingBody_lays (h : LayingExpression edge hi expr) (isList : Bool) (paren : Token) :
    LaysBehind edge lo hi paren (groupingBody expr isList paren) := by
  intro c hc ht
  unfold groupingBody
  split
  · split
    · exact commaList_lays h _ c hc
    · exact h.lays lo _ c hc
  · split
    · exact ⟨.faultAt ht rfl, .nil⟩
    · exact ⟨.refl c, .nil⟩

theorem closeGrouping_extends {paren : Token} (hp : Behind edge lo paren c) :
    Extends lo c (closeGrouping paren c) := by
  unfold closeGrouping
  split
  · rename_i he
    exact .of_eat he
  · exact .faultAt hp rfl

theorem grouping_lays (h : LayingExpression edge hi expr) (isList : Bool) (paren : Token) :
    LaysBehind edge lo hi paren (grouping expr isList paren) := by
  intro c hc ht
  obtain ⟨hb, hs⟩ := (groupingBody_lays h isList paren).inside .rightParen c hc ht
  have hd := closeGrouping_extends (hb.behind hc ht)
  exact ⟨hb.trans hc hd, hs.mono (Nat.le_refl _) (hd.pos_le (hb.placed hc))⟩

/-- The arguments of a call and the symbols in them stand in line. -/
structure PartsInLine (edge : Nat → Prop) (lo hi : Nat) (parts : List CallPart) : Prop where
  arguments : Range.InLine lo hi (parts.map (·.argument.range))
  symbols : Symbol.InLine edge lo hi (parts.flatMap (·.symbols))

namespace PartsInLine

variable {m : Nat} {as bs : List CallPart}

theorem nil : PartsInLine edge lo hi [] :=
  ⟨trivial, .nil⟩

theorem append (ha : PartsInLine edge lo m as) (hb : PartsInLine edge m hi bs) (hl : lo ≤ m) (hm : m ≤ hi) :
    PartsInLine edge lo hi (as ++ bs) := by
  refine ⟨?_, ?_⟩
  · rw [List.map_append]
    exact ha.arguments.append hb.arguments hl hm
  · rw [List.flatMap_append]
    exact ha.symbols.append hb.symbols hl hm

theorem mono {hi' : Nat} (h : PartsInLine edge lo hi as) (hh : hi ≤ hi') : PartsInLine edge lo hi' as :=
  ⟨h.arguments.mono (Nat.le_refl _) hh, h.symbols.mono (Nat.le_refl _) hh⟩

end PartsInLine

theorem argument_lays (h : LayingExpression edge hi expr) {l : Lexeme} {ls : List Lexeme}
    (hc : c.Placed edge lo hi) (hl : c.rest = l :: ls) (ha : c.atOperand = true) (text : String) (isComplete : Bool) :
    Extends lo c (c.recording (expr .arguments)).2 ∧
      PartsInLine edge (c.pos lo) ((c.recording (expr .arguments)).2.pos lo)
        [⟨⟨text, (c.recording (expr .arguments)).2.since l.token.range.start, isComplete⟩,
          (c.recording (expr .arguments)).1.1⟩] := by
  have hx := h.lays lo .arguments { c with trail := [] } (hc.of_same rfl rfl)
  have he : Extends lo c (c.recording (expr .arguments)).2 := hx.1.recording
  have hd := h.steady.takes .arguments { c with trail := [] } (atStart_of_atOperand ha)
  obtain ⟨ht, hp⟩ := hc.behind_head he.onward hl hd
  refine ⟨he, ⟨?_, ?_⟩⟩
  · rw [ht.since_eq]
    exact ⟨hp, Nat.le_trans ht.proper (ht.pos_eq ▸ ht.stop), Nat.le_refl _, trivial⟩
  · rw [List.flatMap_singleton]
    exact hx.2

/-- A missing argument, reported at the comma or parenthesis in front, which is taken afterwards. -/
theorem missingArgument_lays {l : Lexeme} {ls : List Lexeme} (hc : c.Placed edge lo hi) (hl : c.rest = l :: ls)
    (function : String) :
    Extends lo c (c.fault (.missingArgument function) l.token.range).advance ∧
      PartsInLine edge (c.pos lo) ((c.fault (.missingArgument function) l.token.range).advance.pos lo)
        [⟨⟨"", .empty l.token.range.start, false⟩, []⟩] := by
  have hd := length_advance (c := c.fault (.missingArgument function) l.token.range) hl
  have he : Extends lo c (c.fault (.missingArgument function) l.token.range).advance :=
    .faultAhead hc hl rfl (.advance _) hd
  obtain ⟨ht, hp⟩ := hc.behind_head he.onward hl hd
  refine ⟨he, ⟨?_, .nil⟩⟩
  exact ⟨hp, Nat.le_refl _, Nat.le_trans ht.proper (ht.pos_eq ▸ ht.stop), trivial⟩

/-- Where a round of arguments leads, and that what it gives stands in line up to there. -/
def RoundInLine (edge : Nat → Prop) (lo : Nat) (c : Cursor) : Cursor.Round CallPart (List CallPart × Bool) → Prop
  | .next part d => Extends lo c d ∧ PartsInLine edge (c.pos lo) (d.pos lo) [part]
  | .done last d => Extends lo c d ∧ PartsInLine edge (c.pos lo) (d.pos lo) last.1

theorem argumentRound_inLine (src : Source) (h : LayingExpression edge hi expr) (function : String)
    (hc : c.Placed edge lo hi) : RoundInLine edge lo c (argumentRound src expr function c) := by
  unfold argumentRound argument? behindArgument
  cases hl : c.rest with
  | nil => exact ⟨.refl c, .nil⟩
  | cons l ls =>
    dsimp only
    have hat (k : Token.Kind) :
        (c.fault (.missingArgument function) l.token.range).isAt k = (l.token.kind == k) := by
      simp [Cursor.isAt, Cursor.kind?, Cursor.fault, hl]
    by_cases hm : l.token.kind = .comma ∨ l.token.kind = .rightParen
    · rw [if_pos hm]
      have hlays := missingArgument_lays hc hl function
      dsimp only
      rw [hat, hat]
      split
      · split
        · exact hlays
        · exact hlays
      · rw [if_pos (by grind)]
        exact hlays
    · rw [if_neg hm]
      by_cases ha : c.atOperand = true
      · rw [if_pos ha]
        dsimp only
        obtain ⟨he, hps⟩ := argument_lays h hc hl ha _ _
        have hd : Extends lo _ (c.recording (expr .arguments)).2.advance := .advance _
        have hcd := he.trans hc hd
        have hpos := hd.pos_le (he.placed hc)
        split
        · split
          · exact ⟨hcd, hps.mono hpos⟩
          · exact ⟨hcd, hps.mono hpos⟩
        · split
          · exact ⟨hcd, hps.mono hpos⟩
          · exact ⟨he, hps⟩
      · rw [if_neg ha]
        exact ⟨.refl c, .nil⟩

theorem argumentList_lays (src : Source) (h : LayingExpression edge hi expr) (function : String)
    (hc : c.Placed edge lo hi) :
    Extends lo c (argumentList src expr function c).2 ∧
      PartsInLine edge (c.pos lo) ((argumentList src expr function c).2.pos lo)
        (argumentList src expr function c).1.1 := by
  unfold argumentList Cursor.loop
  refine rounds_rule ?_ ?_ ?_ (c.rest.length + 1) c (P := fun c (r : List CallPart × List CallPart × Bool) e =>
    c.Placed edge lo hi → Extends lo c e ∧ PartsInLine edge (c.pos lo) (e.pos lo) (r.1 ++ r.2.1)) hc
  · intro c _
    exact ⟨.refl c, .nil⟩
  · intro c b d hs hc
    have hr := argumentRound_inLine src h function hc
    rw [hs] at hr
    exact hr
  · intro c part d r e hs ih hc
    have hr := argumentRound_inLine src h function hc
    rw [hs] at hr
    obtain ⟨hcd, hp⟩ := hr
    have hd := hcd.placed hc
    obtain ⟨hde, hps⟩ := ih hd
    exact ⟨hcd.trans hc hde, hp.append hps (hcd.pos_le hc) (hde.pos_le hd)⟩

theorem arguments_lays (src : Source) (h : LayingExpression edge hi expr) (function : String)
    (hc : c.Placed edge lo hi) :
    Extends lo c (arguments src expr function c).2 ∧
      PartsInLine edge (c.pos lo) ((arguments src expr function c).2.pos lo)
        (arguments src expr function c).1.1 := by
  unfold arguments
  split
  · rename_i he
    exact ⟨.of_eat he, .nil⟩
  · have hl := argumentList_lays src h function (c := { c with closers := .rightParen :: c.closers })
      (hc.of_same rfl rfl)
    exact ⟨hl.1.inside, hl.2⟩

theorem scopedArguments_lays (src : Source) (h : LayingExpression edge hi expr) (name : Token)
    (isAggregate : Bool) (hc : c.Placed edge lo hi) :
    Extends lo c (scopedArguments src expr name isAggregate c).2 ∧
      PartsInLine edge (c.pos lo) ((scopedArguments src expr name isAggregate c).2.pos lo)
        (scopedArguments src expr name isAggregate c).1.1 := by
  unfold scopedArguments
  split
  · have hl := arguments_lays src h name.text (c := { c with scopes := .aggregate :: c.scopes })
      (hc.of_same rfl rfl)
    exact ⟨hl.1.inScope, hl.2⟩
  · exact arguments_lays src h name.text hc

theorem checkSignature_extends (ht : Behind edge lo t c) (signature? : Option Signature) (count : Nat) :
    Extends lo c (checkSignature t signature? count c) := by
  unfold checkSignature
  split
  · exact .faultAt ht rfl
  · split
    · exact .refl c
    · exact .faultAt ht rfl

theorem checkCall_extends {paren : Token} (ht : Behind edge lo t c) (hp : Behind edge lo paren c)
    (signature? : Option Signature) (isClosed isComplete : Bool) (count : Nat) :
    Extends lo c (checkCall t paren signature? isClosed isComplete count c) := by
  unfold checkCall
  split
  · refine .fault ⟨hp.start, hp.proper, hp.pos_eq ▸ hp.stop⟩ ?_
    intro x hx
    cases List.mem_singleton.mp hx
    exact ⟨ht.start, ht.proper, ht.pos_eq ▸ ht.stop⟩
  · split
    · exact checkSignature_extends ht signature? count
    · exact .refl c

@[simp] theorem pos_checkCall (lo : Nat) (name paren : Token) (signature? : Option Signature)
    (isClosed isComplete : Bool) (count : Nat) (c : Cursor) :
    (checkCall name paren signature? isClosed isComplete count c).pos lo = c.pos lo := by
  unfold checkCall checkSignature
  split
  · rfl
  · split
    · split
      · rfl
      · split <;> rfl
    · rfl

theorem finishCall_builds (src : Source) {name paren : Token} (isNested isClosed : Bool) {parts : List CallPart}
    (hc : c.Placed edge lo hi) (ht : Behind edge lo name c) (hp : Behind edge lo paren c)
    (hps : PartsInLine edge name.range.start (c.pos lo) parts) :
    Extends lo c (finishCall src name paren isNested parts isClosed c).2 ∧
      Symbol.InLine edge name.range.start ((finishCall src name paren isNested parts isClosed c).2.pos lo)
        [(finishCall src name paren isNested parts isClosed c).1] := by
  have hk := checkCall_extends ht hp (src.options.signatures.get? name.text) isClosed
    (isClosed && (parts.map (·.argument)).all (·.isComplete)) (parts.map (·.argument)).length
  unfold finishCall
  dsimp only
  have hl := since_inLine src (hk.placed hc) (hk.behind hc ht) rfl
    (s := ⟨name.text, .call (parts.map (·.argument)) isNested, _, parts.flatMap (·.symbols),
      isClosed && (parts.map (·.argument)).all (·.isComplete), []⟩)
    (by simpa [Symbol.Kind.Fits, Function.comp_def] using hps.arguments) (by simpa using hps.symbols)
  exact ⟨hk.trans hc hl.1, hl.2⟩

theorem call_builds (src : Source) (h : LayingExpression edge hi expr) {name paren : Token}
    (hc : c.Placed edge lo hi) (ht : Behind edge lo name c) (hp : Behind edge lo paren c) :
    Extends lo c (call src expr name paren c).2 ∧
      Symbol.InLine edge name.range.start ((call src expr name paren c).2.pos lo) [(call src expr name paren c).1] := by
  obtain ⟨he, hps⟩ := scopedArguments_lays src h name
    ((src.options.signatures.get? name.text).any Signature.isAggregate) hc
  have hstart : name.range.start ≤ c.pos lo := Nat.le_trans ht.proper (ht.pos_eq ▸ ht.stop)
  have hparts : PartsInLine edge name.range.start _ _ :=
    ⟨hps.arguments.mono hstart (Nat.le_refl _), hps.symbols.mono hstart (Nat.le_refl _)⟩
  have hf := finishCall_builds src (((src.options.signatures.get? name.text).any Signature.isAggregate) &&
      c.scopes.head? == some .aggregate)
    (scopedArguments src expr name ((src.options.signatures.get? name.text).any Signature.isAggregate) c).1.2
    (he.placed hc) (he.behind hc ht) (he.behind hc hp) hparts
  exact ⟨he.trans hc hf.1, hf.2⟩

theorem skipNext?_lays (h : LayingExpression edge hi expr) (place : Place) :
    Lays? edge lo hi (skipNext? expr place) := by
  intro c ss d hd hc
  unfold skipNext? at hd
  split at hd
  · cases hd
  · split at hd
    · cases hd
    · split at hd
      · simp only [Option.some.injEq] at hd
        have hx := h.lays lo place c hc
        rw [hd] at hx
        exact hx
      · cases hd
        exact ⟨.advance c, .nil⟩

theorem skipFirst_lays (h : LayingExpression edge hi expr) (place : Place) (t : Token) :
    Lays edge lo hi (skipFirst expr place t) := by
  intro c hc
  unfold skipFirst
  split
  · exact h.lays lo place c hc
  · exact ⟨.advance c, .nil⟩

theorem skipStretch_lays (h : LayingExpression edge hi expr) (place : Place) (t : Token) :
    Lays edge lo hi (skipStretch expr place t) := by
  intro c hc
  obtain ⟨hf, hs⟩ := skipFirst_lays h place t c hc
  obtain ⟨hm, hms⟩ := (skipNext?_lays h place).many _ (hf.placed hc)
  exact ⟨hf.trans hc hm, hs.append hms (hf.pos_le hc) (hm.pos_le (hf.placed hc))⟩

theorem resync_lays (src : Source) (h : LayingExpression edge hi expr) (place : Place) {l : Lexeme}
    {ls : List Lexeme} (hc : c.Placed edge lo hi) (hl : c.rest = l :: ls) :
    Extends lo c (resync src expr place l.token c).2 ∧
      Symbol.InLine edge (c.pos lo) ((resync src expr place l.token c).2.pos lo)
        [(resync src expr place l.token c).1] := by
  obtain ⟨e, heq⟩ : ∃ e : Cursor, e =
    { c.fault (.unexpected l.token.kind l.token.text false place) l.token.range with scans := c.scans + 1 } :=
    ⟨_, rfl⟩
  have hel : e.rest = l :: ls := by rw [heq]; exact hl
  have hep : e.Placed edge lo hi := by rw [heq]; exact (hc.of_same rfl rfl)
  have hd := skipStretch_takes h.steady place hel
  -- What was skipped starts with the token, so the symbols in it are placed from there.
  obtain ⟨hfrom, hstart⟩ := hep.from_head hel
  obtain ⟨-, hs⟩ := skipStretch_lays h place l.token e hfrom
  obtain ⟨hx, -⟩ := skipStretch_lays h place l.token e hep
  obtain ⟨htd, -⟩ := hep.behind_head hx.onward hel hd
  rw [hstart, htd.pos_from] at hs
  subst heq
  have he := Extends.faultAhead hc hl rfl hx.scanning hd
  obtain ⟨ht, hp⟩ := hc.behind_head he.onward hl hd
  have hf := since_inLine src (he.placed hc) ht rfl (s := ⟨"error", .skipped, _, _, false, []⟩) trivial hs
  exact ⟨he.trans hc hf.1, hf.2.mono hp (Nat.le_refl _)⟩

theorem skip_behind {l : Lexeme} {ls : List Lexeme} (hc : c.Placed edge lo hi) (hl : c.rest = l :: ls) (n : Nat) :
    Behind edge lo l.token (c.skip (1 + n)) ∧ c.pos lo ≤ l.token.range.start := by
  refine hc.behind_head (.skip _ c) hl ?_
  rw [Nat.add_comm]
  exact Nat.lt_of_le_of_lt (Onward.skip n c.advance).length_le (length_advance hl)

theorem tooDeep_lays (src : Source) (place : Place) : Lays edge lo hi (tooDeep src place) := by
  intro c hc
  unfold tooDeep
  split
  · exact ⟨.refl c, .nil⟩
  · rename_i l ls hl
    dsimp only
    obtain ⟨n, hn⟩ : ∃ n, n = runLength ((balanceBehind? 0 l.token.kind).getD 0) ls := ⟨_, rfl⟩
    rw [← hn]
    obtain ⟨ht, hp⟩ := skip_behind hc hl n
    have hs : Extends lo c (c.skip (1 + n)) := .skip _ c
    have hstop : l.token.range.start ≤ (c.skip (1 + n)).pos lo := Nat.le_trans ht.proper (ht.pos_eq ▸ ht.stop)
    have hf : Extends lo (c.skip (1 + n))
        ((c.skip (1 + n)).fault (.tooDeep src.options.levels) ((c.skip (1 + n)).since l.token.range.start)) := by
      refine .fault ?_ (by simp [Cause.related])
      rw [ht.since_eq]
      exact ⟨ht.start, hstop, Nat.le_refl _⟩
    have hl := since_inLine src ((hs.trans hc hf).placed hc) (hf.behind (hs.placed hc) ht) rfl
      (s := ⟨"error", .skipped, _, [], false, []⟩) trivial .nil
    exact ⟨(hs.trans hc hf).trans hc hl.1, hl.2.mono hp (Nat.le_refl _)⟩

theorem strayTokens_extends (hc : c.Placed edge lo hi) : Extends lo c (strayTokens c) := by
  unfold strayTokens
  split
  · exact .refl c
  · rename_i l ls hl
    dsimp only
    obtain ⟨ht, -⟩ := skip_behind hc hl
      (ls.takeWhile fun l => !(l.token.kind.startsExpression || l.afterBlank)).length
    have hstop := Nat.le_trans ht.proper (ht.pos_eq ▸ ht.stop)
    refine (Extends.skip _ c).trans hc (.fault ?_ (by simp [Cause.related]))
    rw [ht.since_eq]
    exact ⟨ht.start, hstop, Nat.le_refl _⟩

end Statement

end Calculation
