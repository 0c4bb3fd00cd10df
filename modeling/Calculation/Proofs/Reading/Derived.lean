import Calculation.Proofs.Reading.Sites

namespace Calculation.Statement
open Cursor Reading

/-- What the constructs rely on in the way to read an expression. -/
structure DerivedExpression (expr : ReadExpression) : Prop where
  steady : SteadyExpression expr
  yields : ∀ behind place, Yielding behind (expr place)

variable {src : Source} {expr : ReadExpression} {behind : List Range} {c d e : Cursor} {t : Token} {l : Lexeme}
  {ls : List Lexeme}

theorem operatorSymbol_reports (src : Source) (op : Token) (c : Cursor) : Reports c [] (operatorSymbol src op c).2 := by
  unfold operatorSymbol
  split
  · dsimp only
    exact .leaf src _ _ _ _ c
  · exact .refl c

/-- An operator, with or without a symbol, and what is read behind it. -/
theorem operator_yields (src : Source) {op : Token} {tt : List Symbol} {fs : List Diagnostic}
    (ht : c.take? = some (op, d)) (hk : op.kind.startsConstruct = false)
    (h : Yields (op.range :: behind) (operatorSymbol src op d).2 tt fs e) :
    Yields behind c ((operatorSymbol src op d).1 ++ tt) fs e := by
  have hd : Yields (op.range :: behind) d tt fs e := .unreportedAhead (operatorSymbol_reports src op d) h
  unfold operatorSymbol
  split
  · rename_i hop
    exact hd.taking ht fun _ _ hl _ _ hder => .operator (hl ▸ hop) rfl ⟨hl ▸ rfl, rfl⟩ rfl (hl ▸ hder)
  · exact hd.token ht hk

theorem openLiteral?_code {cause : Cause} (h : openLiteral? t = some cause) :
    cause.code.isStructural = true ∧ cause.code.isSkip = false := by
  unfold openLiteral? at h
  split at h
  · split at h <;> cases h <;> exact ⟨rfl, rfl⟩
  · cases h

theorem literal_yields (src : Source) (ht : c.take? = some (t, d)) (hk : t.kind.startsConstruct = true) :
    ∃ fs, Yields behind c [(literal src t d).1] fs (literal src t d).2 := by
  unfold literal
  cases ho : openLiteral? t with
  | none =>
    exact ⟨[], .alone ht (.leaf src _ _ _ _ d) fun l hl =>
      .literal (hl ▸ hk) rfl ⟨by rw [hl]; rfl, rfl⟩ .complete⟩
  | some cause =>
    obtain ⟨hs, hskip⟩ := openLiteral?_code ho
    exact ⟨_, .alone ht ((Reports.fault d cause t.range).trans (.leaf src _ _ _ _ _)) fun l hl =>
      .literal (hl ▸ hk) rfl ⟨by rw [hl]; rfl, rfl⟩ (.incomplete (by rw [hl]; rfl) hs hskip)⟩

/-- What is reported about a field token, which is complete when nothing is. -/
theorem checkField_reports (t : Token) (c : Cursor) :
    ∃ fs, Reports c fs (checkField t c) ∧ Told t.range (!t.isOpen) fs := by
  unfold checkField
  cases t.isOpen with
  | true => exact ⟨_, .fault c _ _, .incomplete rfl rfl rfl⟩
  | false => exact ⟨[], .refl c, .complete⟩

/-- Three lexemes in a row, and what is reported behind them. -/
theorem threefold {t₁ t₂ t₃ : Token} {c₁ c₂ c₃ : Cursor} {ss : List Symbol} {fs : List Diagnostic}
    (h₁ : c.take? = some (t₁, c₁)) (h₂ : c₁.take? = some (t₂, c₂)) (h₃ : c₂.take? = some (t₃, c₃))
    (h : Reports c₃ fs e) (hd : ∀ l₁ l₂ l₃ : Lexeme, l₁.token = t₁ → l₂.token = t₂ → l₃.token = t₃ →
      Derives behind [l₁, l₂, l₃] ss fs) : Yields behind c ss fs e := by
  obtain ⟨l₁, ls₁, hls₁, rfl, rfl⟩ := take?_eq_some h₁
  obtain ⟨l₂, ls₂, hls₂, rfl, rfl⟩ := take?_eq_some h₂
  obtain ⟨l₃, ls₃, hls₃, rfl, rfl⟩ := take?_eq_some h₃
  obtain ⟨hr, hend, met, hm, hf⟩ := h
  obtain rfl : ls₁ = l₂ :: ls₂ := by simpa [advance, hls₁] using hls₂
  obtain rfl : ls₂ = l₃ :: ls₃ := by simpa [advance, hls₁] using hls₃
  refine ⟨⟨[l₁, l₂, l₃], ?_, ?_, hd l₁ l₂ l₃ rfl rfl rfl⟩, met, ?_, hf⟩
  · rw [hr]
    simp [advance, hls₁]
  · rw [hend]
    simp [advance, hls₁]
  · rw [hm]
    simp [advance, hls₁]

theorem fieldReference_yields (src : Source) (ht : c.take? = some (t, d)) (hk : t.kind = .field) :
    ∃ fs, Yields behind c [(fieldReference src t d).1] fs (fieldReference src t d).2 := by
  obtain ⟨fs, hr, hf⟩ := checkField_reports t d
  unfold fieldReference
  dsimp only
  split
  · rename_i t' e hq
    split at hq
    · cases hq
    · rename_i hopen
      rw [Bool.not_eq_true] at hopen
      rw [checkField_closed hopen] at hq
      obtain ⟨⟨dot, d'⟩, hdot, he⟩ := Option.bind_eq_some_iff.mp hq
      obtain ⟨hdot, hdotk⟩ := eat?_eq_some hdot
      obtain ⟨he, hek⟩ := eat?_eq_some (c := d') he
      obtain ⟨gs, hr', hf'⟩ := checkField_reports t' e
      exact ⟨gs, threefold ht hdot he (List.append_nil gs ▸ hr'.trans (.leaf src _ _ _ _ _)) fun l l₂ l₃ hl hl₂ hl₃ =>
        .qualifiedField (hl ▸ hk) (hl₂ ▸ hdotk) (hl₃ ▸ hek) rfl ⟨by rw [hl, hl₃]; rfl, rfl⟩ (hl₃ ▸ hf')⟩
  · have hboth := hr.trans (.leaf src t.fieldName (.field none) t.range (!t.isOpen) _)
    exact ⟨_, .alone ht hboth fun l hl =>
      .field (by rw [hl, hk]; rfl) rfl ⟨by rw [hl]; rfl, rfl⟩ (by rw [hl, List.append_nil]; exact hf)⟩

theorem bareIdentifier_yields (src : Source) (ht : c.take? = some (t, d)) (hk : t.kind.startsConstruct = true) :
    ∃ fs, Yields behind c [(bareIdentifier src t d).1] fs (bareIdentifier src t d).2 := by
  refine ⟨_, .alone ht ((Reports.fault d _ t.range).trans (.leaf src _ _ _ _ _)) fun l hl => ?_⟩
  exact .field (hl ▸ hk) rfl ⟨by rw [hl]; rfl, rfl⟩ (.incomplete (by rw [hl]; rfl) rfl rfl)

theorem nextInList?_yields (h : DerivedExpression expr) (place : Place) :
    Yielding? behind (nextInList? expr place) := by
  intro c ss d hd
  unfold nextInList? at hd
  split at hd
  · rename_i comma e he
    split at hd
    · obtain ⟨he, hk⟩ := eat?_eq_some he
      obtain ⟨fs, hx⟩ := h.yields (comma.range :: behind) place e
      rw [Option.some.inj hd] at hx
      exact ⟨fs, hx.token he (by rw [hk]; rfl)⟩
    · cases hd
  · cases hd

theorem skipComma_yields (c : Cursor) : Yields behind c [] [] (skipComma c) := by
  unfold skipComma
  cases he : c.eat? .comma with
  | none => exact .refl behind c
  | some p =>
    obtain ⟨he, hk⟩ := eat?_eq_some he
    exact (Yields.refl _ p.2).token he (by rw [hk]; rfl)

theorem commaList_yields (h : DerivedExpression expr) (place : Place) : Yielding behind (commaList expr place) := by
  intro c
  unfold commaList
  split
  · obtain ⟨fs, hx⟩ := h.yields behind place c
    obtain ⟨gs, hm⟩ := (nextInList?_yields h place).many (expr place c).2
    exact ⟨_, List.append_nil _ ▸ (hx.trans hm).trans (skipComma_yields _)⟩
  · exact ⟨[], .refl behind c⟩

theorem groupingBody_yields (h : DerivedExpression expr) (isList : Bool) {paren : Token}
    (hp : paren.range ∈ behind) : Yielding behind (groupingBody expr isList paren) := by
  intro c
  unfold groupingBody
  split
  · split
    · exact commaList_yields h .grouping c
    · exact h.yields behind .grouping c
  · split
    · exact ⟨_, .report hp rfl⟩
    · exact ⟨[], .refl behind c⟩

theorem closeGrouping_yields {paren : Token} (hp : paren.range ∈ behind) (c : Cursor) :
    ∃ fs, Yields behind c [] fs (closeGrouping paren c) := by
  unfold closeGrouping
  split
  · rename_i he
    obtain ⟨he, hk⟩ := eat?_eq_some he
    exact ⟨[], (Yields.refl _ _).token he (by rw [hk]; rfl)⟩
  · exact ⟨_, .report hp rfl⟩

/-- What stands in parentheses is derived with the open parenthesis in front. -/
theorem grouping_yields (h : DerivedExpression expr) (isList : Bool) {paren : Token}
    (ht : c.take? = some (paren, d)) (hk : paren.kind = .leftParen) :
    ∃ fs, Yields behind c (grouping expr isList paren d).1 fs (grouping expr isList paren d).2 := by
  obtain ⟨fs, hb⟩ := groupingBody_yields h isList (List.mem_cons_self (a := paren.range) (l := behind))
    { d with closers := .rightParen :: d.closers }
  obtain ⟨gs, hc⟩ := closeGrouping_yields (List.mem_cons_self (a := paren.range) (l := behind))
    (d.inside .rightParen (groupingBody expr isList paren)).2
  have hboth := hb.inside.trans hc
  rw [List.append_nil] at hboth
  exact ⟨_, hboth.token ht (by rw [hk]; rfl)⟩

/-- The parts of a call are derived, and stand in what was taken as `R` says. -/
def Parts (R : List Lexeme → List CallPart → Bool → List Diagnostic → Prop) (behind : List Range) (c : Cursor)
    (parts : List CallPart) (isClosed : Bool) (d : Cursor) : Prop :=
  ∃ fs taken, Yields behind c (parts.flatMap (·.symbols)) fs d ∧ c.rest = taken ++ d.rest ∧ R taken parts isClosed fs

/-- One part is derived, and the lexeme behind it is taken. -/
def Part (behind : List Range) (kind : Token.Kind) (c : Cursor) (part : CallPart) (d : Cursor) : Prop :=
  ∃ fs taken l, Yields behind c part.symbols fs d ∧ c.rest = taken ++ l :: d.rest ∧ l.token.kind = kind ∧
    Fills l taken part fs

variable {part : CallPart} {parts : List CallPart} {isClosed : Bool} {k : Token.Kind}

theorem Parts.nil (c : Cursor) : Parts Row behind c [] false c :=
  ⟨[], [], .refl behind c, rfl, .nothing⟩

theorem Part.closed (h : Part behind .rightParen c part d) : Parts Row behind c [part] true d := by
  obtain ⟨fs, taken, l, hy, hrest, hl, hfills⟩ := h
  refine ⟨fs, taken ++ [l], ?_, by rw [hrest, List.append_cons], .closed hfills hl⟩
  rwa [List.flatMap_singleton]

/-- Behind a comma the row goes on. -/
theorem Part.next (h : Part behind .comma c part d) (hde : Parts Row behind d parts isClosed e) :
    Parts Row behind c (part :: parts) isClosed e := by
  obtain ⟨fs, taken, l, hy, hrest, hl, hfills⟩ := h
  obtain ⟨gs, taken', hy', hrest', hrow⟩ := hde
  refine ⟨fs ++ gs, taken ++ l :: taken', ?_, ?_, .next hfills hl hrow⟩
  · rw [List.flatMap_cons]
    exact hy.trans hy'
  · rw [hrest, hrest', List.append_assoc, List.cons_append]

/-- A missing argument, reported at the comma or parenthesis in front. -/
theorem missingArgument_yields {cause : Cause} (hl : c.rest = l :: ls) (hk : l.token.kind.startsConstruct = false)
    (hd : cause.code.isSkip = false) :
    Yields behind c [] [cause.spanning l.token.range] (c.fault cause l.token.range).advance := by
  have hr : Reports c.advance [cause.spanning l.token.range] (c.fault cause l.token.range).advance := by
    refine ⟨?_, ?_, [.fault _], ?_, rfl⟩ <;> simp [advance, Cursor.fault, hl]
  have hone : Yields (l.token.range :: behind) c.advance [] [cause.spanning l.token.range]
      (c.fault cause l.token.range).advance :=
    ⟨⟨[], hr.rest.symm, hr.lastEnd, .report List.mem_cons_self hd⟩, hr.met⟩
  exact hone.token (take?_of_rest hl) hk

theorem missingArgument_part (function : String) (hl : c.rest = l :: ls) (hk : l.token.kind.startsConstruct = false) :
    Part behind l.token.kind c ⟨⟨"", .empty l.token.range.start, false⟩, []⟩
      (c.fault (.missingArgument function) l.token.range).advance := by
  refine ⟨_, [], l, missingArgument_yields hl hk rfl, ?_, rfl, .missing ⟨rfl, rfl, rfl, ?_⟩⟩
  · simp [advance, Cursor.fault, hl]
  · simp [Cause.spanning]

/-- An argument that is there is made of the lexemes that its expression takes. -/
theorem argument_present (behind : List Range) (h : DerivedExpression expr) (text : String) (hl : c.rest = l :: ls)
    (ha : c.atOperand = true) :
    ∃ fs taken, Yields behind c (c.recording (expr .arguments)).1.1 fs (c.recording (expr .arguments)).2 ∧
      c.rest = taken ++ (c.recording (expr .arguments)).2.rest ∧
      Present taken ⟨⟨text, (c.recording (expr .arguments)).2.since l.token.range.start,
        !(c.recording (expr .arguments)).1.2.any Event.isStructural⟩, (c.recording (expr .arguments)).1.1⟩ fs := by
  obtain ⟨fs, hx⟩ := h.yields [] .arguments { c with trail := [] }
  obtain ⟨⟨⟨taken, hrest, hend, hder⟩, hmet⟩, hany⟩ := hx.recording
  have htakes : (c.recording (expr .arguments)).2.rest.length < c.rest.length :=
    h.steady.takes .arguments { c with trail := [] } (atStart_of_atOperand ha)
  obtain ⟨rest, rfl⟩ : ∃ rest, taken = l :: rest := by
    cases taken with
    | nil =>
      rw [hrest] at htakes
      exact absurd htakes (Nat.lt_irrefl _)
    | cons x rest =>
      obtain ⟨rfl, -⟩ := List.cons.inj (hl.symm.trans hrest)
      exact ⟨rest, rfl⟩
  refine ⟨fs, l :: rest, ⟨⟨_, hrest, hend, hder.mono (List.nil_subset _)⟩, hmet⟩, hrest, ⟨l, rest, rfl, ?_⟩, ?_, ?_, ?_⟩
  · dsimp only
    rw [since, hend]
    rfl
  · simp [hany]
  · exact fun hlined s hs => hder.symbols hlined s (Symbol.subset_walkAll _ hs)
  · exact fun hlined d hd => (hder.faults hlined d hd).resolve_left (by simp)

/-- An argument and the lexeme behind it. -/
theorem present_part {fs : List Diagnostic} {taken : List Lexeme} (hy : Yields behind c part.symbols fs d)
    (hrest : c.rest = taken ++ d.rest) (hp : Present taken part fs) (hd : d.isAt k = true)
    (hk : k.startsConstruct = false) : Part behind k c part d.advance := by
  obtain ⟨l, ls, hls, hl⟩ : ∃ l ls, d.rest = l :: ls ∧ l.token.kind = k := by
    cases hls : d.rest with
    | nil => simp [isAt, kind?, hls] at hd
    | cons l ls => exact ⟨l, ls, rfl, by simpa [isAt, kind?, hls] using hd⟩
  have hone : Yields behind d [] [] d.advance := (Yields.refl _ _).token (take?_of_rest hls) (hl ▸ hk)
  have hboth := hy.trans hone
  rw [List.append_nil, List.append_nil] at hboth
  exact ⟨fs, taken, l, hboth, by simp [hrest, hls, advance], hl, .present hp⟩

/-- What a round of arguments gives. -/
def RoundParts (behind : List Range) (c : Cursor) : Cursor.Round CallPart (List CallPart × Bool) → Prop
  | .next part d => Part behind .comma c part d
  | .done last d => Parts Row behind c last.1 last.2 d

theorem argumentRound_parts (src : Source) (h : DerivedExpression expr) (function : String) (c : Cursor) :
    RoundParts behind c (argumentRound src expr function c) := by
  unfold argumentRound argument? behindArgument
  cases hl : c.rest with
  | nil => exact Parts.nil c
  | cons l ls =>
    dsimp only
    have hat (k : Token.Kind) :
        (c.fault (.missingArgument function) l.token.range).isAt k = (l.token.kind == k) := by
      simp [Cursor.isAt, Cursor.kind?, Cursor.fault, hl]
    by_cases hm : l.token.kind = .comma ∨ l.token.kind = .rightParen
    · rw [if_pos hm]
      have hk : l.token.kind.startsConstruct = false := by
        rcases hm with hm | hm <;> rw [hm] <;> rfl
      have hpart : Part behind l.token.kind c _ _ := missingArgument_part function hl hk
      dsimp only
      rw [hat, hat]
      split
      · rename_i hcomma
        rw [beq_iff_eq.mp hcomma] at hpart
        split
        · exact hpart.next (.nil _)
        · exact hpart
      · rename_i hcomma
        have hparen : l.token.kind = .rightParen := hm.resolve_left fun hc => hcomma (beq_iff_eq.mpr hc)
        rw [hparen] at hpart ⊢
        exact hpart.closed
    · rw [if_neg hm]
      by_cases ha : c.atOperand = true
      · rw [if_pos ha]
        dsimp only
        obtain ⟨fs, taken, hy, hrest, hpresent⟩ := argument_present behind h
          (src.trimmed ((c.recording (expr .arguments)).2.since l.token.range.start)) hl ha
        split
        · rename_i hcomma
          have hpart : Part behind .comma c _ _ := present_part hy hrest hpresent hcomma rfl
          split
          · exact hpart.next (.nil _)
          · exact hpart
        · split
          · rename_i hparen
            have hpart : Part behind .rightParen c _ _ := present_part hy hrest hpresent hparen rfl
            exact hpart.closed
          · refine ⟨fs, taken, ?_, hrest, .unclosed hpresent⟩
            rwa [List.flatMap_singleton]
      · rw [if_neg ha]
        exact Parts.nil c

theorem argumentList_parts (src : Source) (h : DerivedExpression expr) (function : String) (c : Cursor) :
    Parts Row behind c (argumentList src expr function c).1.1 (argumentList src expr function c).1.2
      (argumentList src expr function c).2 := by
  unfold argumentList Cursor.loop
  refine rounds_rule ?_ ?_ ?_ (c.rest.length + 1) c
    (P := fun c (r : List CallPart × List CallPart × Bool) e => Parts Row behind c (r.1 ++ r.2.1) r.2.2 e)
  · intro c
    exact Parts.nil c
  · intro c b d hs
    have hr : RoundParts behind c _ := argumentRound_parts src h function c
    rw [hs] at hr
    exact hr
  · intro c part d r e hs ih
    have hr : RoundParts behind c _ := argumentRound_parts src h function c
    rw [hs] at hr
    exact hr.next ih

theorem arguments_parts (src : Source) (h : DerivedExpression expr) (function : String) (c : Cursor) :
    Parts Listed behind c (arguments src expr function c).1.1 (arguments src expr function c).1.2
      (arguments src expr function c).2 := by
  unfold arguments
  split
  · rename_i he
    obtain ⟨he, hk⟩ := eat?_eq_some he
    obtain ⟨l, ls, hls, rfl, rfl⟩ := take?_eq_some he
    exact ⟨[], [l], (Yields.refl _ _).token he (by rw [hk]; rfl), by simp [hls, advance], .empty hk⟩
  · rename_i he
    obtain ⟨fs, taken, hy, hrest, hrow⟩ : Parts Row behind _ _ _ _ :=
      argumentList_parts src h function { c with closers := .rightParen :: c.closers }
    have hrest : c.rest = taken ++ _ := hrest
    refine ⟨fs, taken, hy.inside, hrest, .row (fun l hl hk => ?_) hrow⟩
    have hhead : c.rest.head? = some l := by
      rw [hrest, List.head?_append, hl]
      rfl
    simp [eat?, isAt, kind?, take?, hhead, hk] at he

theorem scopedArguments_parts (src : Source) (h : DerivedExpression expr) (name : Token) (isAggregate : Bool)
    (c : Cursor) : Parts Listed behind c (scopedArguments src expr name isAggregate c).1.1
      (scopedArguments src expr name isAggregate c).1.2 (scopedArguments src expr name isAggregate c).2 := by
  unfold scopedArguments
  split
  · obtain ⟨fs, taken, hy, hrest, hlisted⟩ : Parts Listed behind _ _ _ _ :=
      arguments_parts src h name.text { c with scopes := .aggregate :: c.scopes }
    exact ⟨fs, taken, hy.inScope, hrest, hlisted⟩
  · exact arguments_parts src h name.text c

theorem checkSignature_yields {name : Token} (hn : name.range ∈ behind) (signature? : Option Signature)
    (count : Nat) (c : Cursor) : ∃ fs, Yields behind c [] fs (checkSignature name signature? count c) ∧
      fs.any Diagnostic.isStructural = false ∧ ∀ d ∈ fs, d.range = name.range := by
  unfold checkSignature
  split
  · exact ⟨_, .report hn rfl, rfl, by simp [Cause.spanning]⟩
  · split
    · exact ⟨[], .refl behind c, rfl, by simp⟩
    · exact ⟨_, .report hn rfl, rfl, by simp [Cause.spanning]⟩

/-- A call that is closed is not reported by a structural fault, one that is open is reported at its parenthesis. -/
theorem checkCall_yields {name paren : Token} (hn : name.range ∈ behind) (hp : paren.range ∈ behind)
    (signature? : Option Signature) (isClosed isComplete : Bool) (count : Nat) (c : Cursor) :
    ∃ fs, Yields behind c [] fs (checkCall name paren signature? isClosed isComplete count c) ∧
      fs.any Diagnostic.isStructural = !isClosed ∧ (∀ d ∈ fs, d.range = name.range ∨ d.range = paren.range) ∧
        (isClosed = false → ∃ d ∈ fs, d.code = .openParenthesis ∧ d.range = paren.range) := by
  unfold checkCall
  cases isClosed with
  | false =>
    refine ⟨_, .report hp rfl, rfl, ?_, fun _ => ⟨_, List.mem_singleton_self _, rfl, rfl⟩⟩
    simp [Cause.spanning]
  | true =>
    rw [if_neg (by simp)]
    split
    · obtain ⟨fs, hy, hany, hplace⟩ := checkSignature_yields hn signature? count c
      exact ⟨fs, hy, hany, fun d hd => .inl (hplace d hd), nofun⟩
    · exact ⟨[], .refl behind c, rfl, by simp, nofun⟩

theorem checkCall_rest (name paren : Token) (signature? : Option Signature) (isClosed isComplete : Bool) (count : Nat)
    (c : Cursor) : (checkCall name paren signature? isClosed isComplete count c).rest = c.rest := by
  unfold checkCall checkSignature
  repeat' split
  all_goals rfl

theorem call_yields (src : Source) (h : DerivedExpression expr) {name paren : Token}
    (ht : c.take? = some (name, d)) (hk : name.kind.startsConstruct = true) (hp : d.take? = some (paren, e))
    (hpk : paren.kind = .leftParen) :
    ∃ fs, Yields behind c [(call src expr name paren e).1] fs (call src expr name paren e).2 := by
  have hn : name.range ∈ [paren.range, name.range] := by simp
  have hargs : Parts Listed [paren.range, name.range] e _ _ _ := scopedArguments_parts src h name
    ((src.options.signatures.get? name.text).any Signature.isAggregate) e
  unfold call
  dsimp only
  revert hargs
  generalize scopedArguments src expr name
    ((src.options.signatures.get? name.text).any Signature.isAggregate) e = r
  obtain ⟨⟨parts, isClosed⟩, e'⟩ := r
  rintro ⟨fs, taken, hargs, hrest, hlisted⟩
  dsimp only at hargs hrest hlisted ⊢
  unfold finishCall
  dsimp only
  obtain ⟨gs, hcheck, hany, hplace, hopen⟩ := checkCall_yields hn List.mem_cons_self
    (src.options.signatures.get? name.text) isClosed (isClosed && (parts.map (·.argument)).all (·.isComplete))
    (parts.map (·.argument)).length e'
  have hinner := (hargs.trans hcheck).token hp (by rw [hpk]; rfl)
  rw [List.append_nil] at hinner
  refine ⟨_, hinner.construct src ht hk rfl fun ls hls => .call rfl ?_ ?_⟩
  · show (isClosed && (parts.map (·.argument)).all (·.isComplete)) = _
    rw [List.any_append, hany, Bool.not_or, Bool.not_not, ← hlisted.all_isComplete, List.all_map, Bool.and_comm]
    rfl
  · -- What the call takes behind its name is the parenthesis and the lexemes of the arguments.
    obtain ⟨l, rest, hl, rfl, rfl⟩ := take?_eq_some hp
    have hlexemes : d.rest = (l :: taken) ++ e'.rest := by
      rw [List.cons_append, ← hrest, hl]
      simp [advance, hl]
    rw [checkCall_rest, hlexemes] at hls
    rw [← List.append_cancel_right hls]
    exact .mk hpk hlisted (fun d hd => hplace d hd) hopen

theorem startsConstruct_of_not_start {k : Token.Kind} (h : ¬k.startsExpression = true) : k.startsConstruct = false := by
  cases k <;> first | rfl | exact absurd rfl h

theorem skipNext?_yields (h : DerivedExpression expr) (place : Place) : Yielding? behind (skipNext? expr place) := by
  intro c ss d hd
  unfold skipNext? at hd
  split at hd
  · cases hd
  · rename_i l ls hl
    split at hd
    · cases hd
    · split at hd
      · obtain ⟨fs, hx⟩ := h.yields behind place c
        rw [Option.some.inj hd] at hx
        exact ⟨fs, hx⟩
      · rename_i hs
        cases hd
        exact ⟨[], (Yields.refl _ _).token (take?_of_rest hl) (startsConstruct_of_not_start hs)⟩

theorem skipStretch_yields (h : DerivedExpression expr) (place : Place) (hl : c.rest = l :: ls) :
    ∃ fs, Yields behind c (skipStretch expr place l.token c).1 fs (skipStretch expr place l.token c).2 := by
  have hfirst : ∃ fs, Yields behind c (skipFirst expr place l.token c).1 fs (skipFirst expr place l.token c).2 := by
    unfold skipFirst
    split
    · exact h.yields behind place c
    · rename_i hs
      exact ⟨[], (Yields.refl _ _).token (take?_of_rest hl) (startsConstruct_of_not_start hs)⟩
  obtain ⟨fs, hf⟩ := hfirst
  obtain ⟨gs, hm⟩ := (skipNext?_yields h place).many (skipFirst expr place l.token c).2
  exact ⟨_, hf.trans hm⟩

theorem unexpected_code {t : Token} {isRun : Bool} {place : Place} (hp : place.isBlock = true)
    (hk : t.kind.startsConstruct = true) : (Cause.unexpected t.kind t.text isRun place).code = .unexpectedInBlock := by
  have hinvalid : t.kind ≠ .invalid := by
    rintro he
    rw [he] at hk
    cases hk
  have hcloser : ¬t.kind.isClosingDelimiter = true := by
    revert hk
    cases t.kind <;> simp [Token.Kind.startsConstruct, Token.Kind.isClosingDelimiter]
  rw [Cause.code, if_neg hinvalid, if_neg hcloser, if_pos hp]

theorem unexpected_not_skip (kind : Token.Kind) (text : String) (isRun : Bool) :
    (Cause.unexpected kind text isRun .topLevel).code.isSkip = false := by
  rw [Cause.code]
  split
  · rfl
  · split <;> rfl

theorem resync_yields (src : Source) (h : DerivedExpression expr) {place : Place} (hp : place.isBlock = true)
    (hl : c.rest = l :: ls) :
    ∃ fs, Yields behind c [(resync src expr place l.token c).1] fs (resync src expr place l.token c).2 := by
  obtain ⟨fs, hs⟩ := skipStretch_yields (c := { c.fault (.unexpected l.token.kind l.token.text false place)
    l.token.range with scans := c.scans + 1 }) h place hl
  exact ⟨_, Yields.skipped src hl (Cause.unexpected_ne_tooDeep _ _ _ place) (unexpected_code hp) hs.scanning
    (skipStretch_takes h.steady place (c := { c.fault (.unexpected l.token.kind l.token.text false place)
      l.token.range with scans := c.scans + 1 }) hl) rfl rfl rfl⟩

theorem tooDeep_yields (src : Source) (place : Place) : Yielding behind (tooDeep src place) := by
  intro c
  unfold tooDeep
  split
  · exact ⟨[], .refl behind c⟩
  · rename_i l ls hl
    dsimp only
    exact ⟨_, Yields.finish (Yields.run hl fun hr => .tooDeep ⟨rfl, hr, rfl⟩ rfl rfl hr) src _⟩

theorem strayTokens_yields (hl : c.rest = l :: ls) (hk : ¬l.token.kind.startsExpression = true) :
    ∃ fs, Yields behind c [] fs (strayTokens c) := by
  unfold strayTokens
  rw [hl]
  dsimp only
  refine ⟨_, Yields.run hl fun hr => .stray ?_ hr ?_⟩
  · intro x hx
    rcases List.mem_cons.mp hx with rfl | hx
    · exact startsConstruct_of_not_start hk
    · rw [← List.prefix_iff_eq_take.mp (List.takeWhile_prefix _)] at hx
      have hp := List.all_eq_true.mp List.all_takeWhile x hx
      rw [Bool.not_eq_true', Bool.or_eq_false_iff] at hp
      exact startsConstruct_of_not_start (by simp [hp.1])
  · exact unexpected_not_skip l.token.kind l.token.text false

end Calculation.Statement
