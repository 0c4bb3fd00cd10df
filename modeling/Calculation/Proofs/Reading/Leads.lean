import Calculation.Proofs.Reading.Derivation
import Calculation.Statement.Item

/-!
Readings step by step. A reading is made of few kinds of steps: it takes a lexeme, meets a fault, goes into what
surrounds a part and comes out again, and finishes a symbol. Whatever each step does to the cursor and to the symbols
every reading does; so what is met on the way is told by one case for each kind of step. The scopes of a cursor are
those that the symbols around it open: what is in a symbol is read in the scope of the symbol, and nothing else opens
one.
-/
namespace Calculation

/-- Codes of faults that leave a block open. -/
def Code.opensBlock : Code → Bool
  | missingEnd | openBrace => true
  | _ => false

/-- The kind of token that opens a block, and the cause of the fault when the block has no end. -/
def BlockKind.openerKind : BlockKind → Token.Kind
  | if_ => .if_
  | case_ => .case_
  | lod _ => .leftBrace

def BlockKind.openCause : BlockKind → Cause
  | if_ => .missingEnd .if_
  | case_ => .missingEnd .case_
  | lod _ => .openBrace

/-- Kinds of symbols that nothing is reported about when they are finished: all but calls, blocks without an end,
skipped stretches and comments. -/
def Symbol.Kind.isClosed : Kind → Bool
  | block _ _ terminator => terminator.isSome
  | field _ | operator | literal _ => true
  | _ => false

/-- The scope of what stands in a block. -/
def BlockKind.scope? : BlockKind → Option Scope
  | lod _ => some .lod
  | _ => none

/-- The scope of the arguments of a function. -/
def SignatureTable.scope? (t : SignatureTable) (name : String) : Option Scope :=
  if t.isAggregate name then some .aggregate else none

/-- The scope of what stands in a symbol. -/
def Symbol.scope? (t : SignatureTable) (s : Symbol) : Option Scope :=
  match s.kind with
  | .block b _ _ => b.scope?
  | .call .. => t.scope? s.name
  | _ => none

namespace Cursor
open Statement

/-- The cursor in one more scope, if any. -/
def within (scope? : Option Scope) (c : Cursor) : Cursor :=
  { c with scopes := scope?.toList ++ c.scopes }

/-- A reading that starts at the first cursor gives the symbols and leads to the second one. -/
inductive Leads (src : Source) : Cursor → List Symbol → Cursor → Prop
  | stay (c : Cursor) : Leads src c [] c
  | next {c d e : Cursor} {ss tt : List Symbol} (hcd : Leads src c ss d) (hde : Leads src d tt e) :
    Leads src c (ss ++ tt) e
  | take {c : Cursor} {l : Lexeme} {ls : List Lexeme} (hl : c.rest = l :: ls) : Leads src c [] c.advance
  | fault (c : Cursor) (cause : Cause) (r : Range) (hs : cause.code.isStructural = true)
    (ho : cause.code.opensBlock = false) : Leads src c [] (c.fault cause r)
  | inside {c d : Cursor} {ss : List Symbol} {closer : Token.Kind}
    (h : Leads src { c with closers := closer :: c.closers } ss d) :
    Leads src c ss { d with closers := c.closers }
  /-- A part is read with nothing met before it. -/
  | recording {c d : Cursor} {ss : List Symbol} (h : Leads src { c with trail := [] } ss d) :
    Leads src c ss { d with trail := d.trail ++ c.trail }
  | finish {c d : Cursor} {s : Symbol} (hk : s.kind.isClosed = true)
    (h : Leads src (c.within (s.scope? src.options.signatures)) s.children d) :
    Leads src c [(finish src s { d with scopes := c.scopes }).1] (finish src s { d with scopes := c.scopes }).2
  /-- A call starts with its name. It is nested when an aggregate calls an aggregate. -/
  | call {c d : Cursor} {l : Lexeme} {ls : List Lexeme} {paren : Token} {isNested isClosed : Bool}
    {parts : List CallPart} (hl : c.rest = l :: ls) (hk : l.token.kind = .identifier)
    (hn : isNested = (src.options.signatures.isAggregate l.token.text && c.scopes.head? == some .aggregate))
    (h : Leads src (c.advance.within (src.options.signatures.scope? l.token.text)) (parts.flatMap (·.symbols)) d) :
    Leads src c [(finishCall src l.token paren isNested parts isClosed { d with scopes := c.scopes }).1]
      (finishCall src l.token paren isNested parts isClosed { d with scopes := c.scopes }).2
  /-- A block without its end is reported at the token that opens it. -/
  | openBlock {c d : Cursor} {l : Lexeme} {ls : List Lexeme} {kind : BlockKind} {body : Clause}
    (hl : c.rest = l :: ls) (hk : l.token.kind = kind.openerKind)
    (h : Leads src (c.advance.within kind.scope?) body.symbols d) :
    Leads src c
      [(finishBlock src kind l.token body none
        (Cursor.fault { d with scopes := c.scopes } kind.openCause l.token.range)).1]
      (finishBlock src kind l.token body none
        (Cursor.fault { d with scopes := c.scopes } kind.openCause l.token.range)).2
  /-- A stretch is looked through, and what it holds is kept below one symbol. -/
  | skipped {c d : Cursor} {s : Symbol} (hk : s.kind = .skipped) (hc : s.isComplete = false)
    (h : Leads src { c with scans := c.scans + 1 } s.children d) :
    Leads src c [(finish src s { d with scans := c.scans }).1] (finish src s { d with scans := c.scans }).2

variable {src : Source} {c d e : Cursor} {ss tt : List Symbol} {t : Token} {k : Token.Kind} {scope? : Option Scope}

theorem advance_within (scope? : Option Scope) (c : Cursor) : (c.within scope?).advance = c.advance.within scope? := by
  obtain ⟨rest, lastEnd, trail, closers, scopes, scans⟩ := c
  cases rest <;> rfl

theorem advance_scopes (c : Cursor) : c.advance.scopes = c.scopes :=
  (Onward.advance c).scopes

/-- Out of a scope again. -/
theorem Onward.without (h : Onward (c.within scope?) d) : Onward c { d with scopes := c.scopes } :=
  ⟨h.rest, h.trail, h.closers, rfl, h.scans⟩

/-- The same behind the lexeme that a symbol starts with. -/
theorem Onward.without_advance (h : Onward (c.advance.within scope?) d) :
    Onward c.advance { d with scopes := c.scopes } :=
  advance_scopes c ▸ h.without

/-- What keeps the scopes leaves none behind. -/
theorem Onward.without_none (h : Onward c d) : { d with scopes := c.scopes } = d := by
  rw [← h.scopes]

namespace Leads

/-- What gives no symbols, behind a reading. -/
theorem onto (hcd : Leads src c ss d) (hde : Leads src d [] e) : Leads src c ss e :=
  List.append_nil ss ▸ hcd.next hde

theorem behind (hcd : Leads src c [] d) (hde : Leads src d ss e) : Leads src c ss e :=
  hcd.next hde

theorem taking (h : c.take? = some (t, d)) : Leads src c [] d := by
  obtain ⟨l, ls, hls, -, rfl⟩ := take?_eq_some h
  exact .take hls

theorem eating (h : c.eat? k = some (t, d)) : Leads src c [] d :=
  taking (eat?_eq_some h).1

theorem taking_within (h : c.take? = some (t, d)) (scope? : Option Scope) :
    Leads src (c.within scope?) [] (d.within scope?) := by
  obtain ⟨l, ls, hls, -, rfl⟩ := take?_eq_some h
  exact advance_within scope? c ▸ .take hls

theorem advance (c : Cursor) : Leads src c [] c.advance := by
  cases hl : c.rest with
  | nil =>
    have hsame : c.advance = c := by simp [Cursor.advance, hl]
    rw [hsame]
    exact .stay c
  | cons l ls => exact .take hl

theorem skip (n : Nat) (c : Cursor) : Leads src c [] (c.skip n) := by
  induction n generalizing c with
  | zero => exact .stay c
  | succ n ih => exact (advance c).next (ih c.advance)

theorem leaf (c : Cursor) (name : String) {kind : Symbol.Kind} (r : Range) (isComplete : Bool)
    (hk : kind.isClosed = true) :
    Leads src c [(c.leaf src name kind r isComplete).1] (c.leaf src name kind r isComplete).2 :=
  .finish (s := ⟨name, kind, r, [], isComplete, []⟩) (d := c.within _) hk (.stay _)

/-- Whatever it does, a reading takes lexemes, adds to what has been met, and closes what it opened. -/
theorem onward (h : Leads src c ss d) : Onward c d := by
  induction h with
  | stay c => exact .refl c
  | next _ _ ihcd ihde => exact ihcd.trans ihde
  | take => exact .advance _
  | fault c cause r => exact .fault c cause r
  | inside _ ih => exact ⟨ih.rest, ih.trail, rfl, ih.scopes, ih.scans⟩
  | recording _ ih => exact ⟨ih.rest, ⟨_, rfl⟩, ih.closers, ih.scopes, ih.scans⟩
  | finish _ _ ih => exact ih.without.trans (.finish src _ _)
  | call _ _ _ _ ih => exact (Onward.advance _).trans (ih.without_advance.trans (finishCall_onward src _ _ _ _ _ _))
  | openBlock _ _ _ ih =>
    exact ((Onward.advance _).trans ih.without_advance).trans ((Onward.fault _ _ _).trans (.finish src _ _))
  | @skipped c d s _ _ _ ih =>
    have hback : Onward c { d with scans := c.scans } := ⟨ih.rest, ih.trail, ih.closers, ih.scopes, rfl⟩
    exact hback.trans (.finish src s _)

end Leads

/-- A reading that goes step by step from everywhere. -/
def Stepwise (src : Source) (read : Cursor → List Symbol × Cursor) : Prop :=
  ∀ c, Leads src c (read c).1 (read c).2

/-- The same of a reading that may find nothing to read. -/
def Stepwise? (src : Source) (read? : Cursor → Option (List Symbol × Cursor)) : Prop :=
  ∀ c ss d, read? c = some (ss, d) → Leads src c ss d

theorem Stepwise?.many {read? : Cursor → Option (List Symbol × Cursor)} (h : Stepwise? src read?) :
    Stepwise src fun c => ((c.many read?).1.flatten, (c.many read?).2) :=
  many_rule (P := fun c sss e => Leads src c sss.flatten e) (fun c => .stay c)
    fun c ss d _ _ hr ih => (h c ss d hr).next ih

end Cursor

namespace Statement
open Cursor

/-- The way to read an expression goes step by step. -/
def StepwiseExpression (src : Source) (expr : ReadExpression) : Prop :=
  ∀ place, Stepwise src (expr place)

variable {src : Source} {expr : ReadExpression} {c d e : Cursor} {t paren opener : Token} {a : Clause}

theorem operatorSymbol_leads (src : Source) (op : Token) : Stepwise src (operatorSymbol src op) := by
  intro c
  unfold operatorSymbol
  split
  · exact .leaf c _ _ _ rfl
  · exact .stay c

theorem literal_leads (src : Source) (t : Token) (c : Cursor) :
    Leads src c [(literal src t c).1] (literal src t c).2 := by
  unfold literal openLiteral?
  split
  · split
    · exact .next (.fault c _ t.range rfl rfl) (.leaf _ _ _ _ rfl)
    · exact .next (.fault c _ t.range rfl rfl) (.leaf _ _ _ _ rfl)
    · exact .leaf c _ _ _ rfl
  · exact .leaf c _ _ _ rfl

theorem checkField_leads (src : Source) (t : Token) (c : Cursor) : Leads src c [] (checkField t c) := by
  unfold checkField
  split
  · exact .fault c _ t.range rfl rfl
  · exact .stay c

theorem fieldReference_leads (src : Source) (t : Token) (c : Cursor) :
    Leads src c [(fieldReference src t c).1] (fieldReference src t c).2 := by
  unfold fieldReference
  refine .behind (checkField_leads src t c) ?_
  dsimp only
  split
  · rename_i t' d hq
    split at hq
    · cases hq
    · obtain ⟨⟨dot, d'⟩, hdot, hfield⟩ := Option.bind_eq_some_iff.mp hq
      refine .behind (.eating hdot) (.behind (.eating (c := d') hfield) ?_)
      exact .behind (checkField_leads src t' d) (.leaf _ _ _ _ rfl)
  · exact .leaf _ _ _ _ rfl

theorem bareIdentifier_leads (src : Source) (t : Token) (c : Cursor) :
    Leads src c [(bareIdentifier src t c).1] (bareIdentifier src t c).2 :=
  .behind (.fault c _ t.range rfl rfl) (.leaf _ _ _ _ rfl)

theorem nextInList?_leads (h : StepwiseExpression src expr) (place : Place) :
    Stepwise? src (nextInList? expr place) := by
  intro c ss d hd
  unfold nextInList? at hd
  split at hd
  · rename_i comma e he
    split at hd
    · have hx := h place e
      rw [Option.some.inj hd] at hx
      exact .behind (.eating he) hx
    · cases hd
  · cases hd

theorem skipComma_leads (src : Source) (c : Cursor) : Leads src c [] (skipComma c) := by
  unfold skipComma
  cases he : c.eat? .comma with
  | none => exact .stay c
  | some p => exact .eating he

theorem commaList_leads (h : StepwiseExpression src expr) (place : Place) : Stepwise src (commaList expr place) := by
  intro c
  unfold commaList
  split
  · exact .onto (.next (h place c) ((nextInList?_leads h place).many _)) (skipComma_leads src _)
  · exact .stay c

theorem groupingBody_leads (h : StepwiseExpression src expr) (isList : Bool) (paren : Token) :
    Stepwise src (groupingBody expr isList paren) := by
  intro c
  unfold groupingBody
  split
  · split
    · exact commaList_leads h .grouping c
    · exact h .grouping c
  · split
    · exact .fault c _ paren.range rfl rfl
    · exact .stay c

theorem closeGrouping_leads (src : Source) (paren : Token) (c : Cursor) : Leads src c [] (closeGrouping paren c) := by
  unfold closeGrouping
  split
  · rename_i he
    exact .eating he
  · exact .fault c _ paren.range rfl rfl

theorem grouping_leads (h : StepwiseExpression src expr) (isList : Bool) (paren : Token) :
    Stepwise src (grouping expr isList paren) := by
  intro c
  exact .onto (.inside (groupingBody_leads h isList paren _)) (closeGrouping_leads src paren _)

theorem argument?_leads (h : StepwiseExpression src expr) (function : String) {part : CallPart}
    (hp : argument? src expr function c = some (part, d)) : Leads src c part.symbols d := by
  unfold argument? at hp
  split at hp
  · cases hp
  · dsimp only at hp
    split at hp
    · cases hp
      exact .fault c _ _ rfl rfl
    · split at hp
      · cases hp
        exact .recording (h .arguments _)
      · cases hp

/-- The parts that a round of arguments gives, be it the last or not. -/
def roundParts : Cursor.Round CallPart (List CallPart × Bool) → List CallPart
  | .next part _ => [part]
  | .done last _ => last.1

theorem behindArgument_leads (src : Source) (part : CallPart) (c : Cursor) :
    roundParts (behindArgument part c) = [part] ∧ Leads src c [] (behindArgument part c).cursor := by
  unfold behindArgument
  split
  · dsimp only
    split
    · exact ⟨rfl, .advance c⟩
    · exact ⟨rfl, .advance c⟩
  · split
    · exact ⟨rfl, .advance c⟩
    · exact ⟨rfl, .stay c⟩

theorem argumentRound_leads (h : StepwiseExpression src expr) (function : String) (c : Cursor) :
    Leads src c ((roundParts (argumentRound src expr function c)).flatMap (·.symbols))
      (argumentRound src expr function c).cursor := by
  unfold argumentRound
  split
  · exact .stay c
  · rename_i part d hp
    obtain ⟨hparts, hd⟩ := behindArgument_leads src part d
    rw [hparts, List.flatMap_singleton]
    exact (argument?_leads h function hp).onto hd

theorem argumentList_leads (h : StepwiseExpression src expr) (function : String) (c : Cursor) :
    Leads src c ((argumentList src expr function c).1.1.flatMap (·.symbols))
      (argumentList src expr function c).2 := by
  unfold argumentList Cursor.loop
  refine rounds_rule (fun c => .stay c) ?_ ?_ (c.rest.length + 1) c
    (P := fun c (r : List CallPart × List CallPart × Bool) e => Leads src c ((r.1 ++ r.2.1).flatMap (·.symbols)) e)
  · intro c b d hs
    have hr := argumentRound_leads h function c
    rw [hs] at hr
    exact hr
  · intro c part d r e hs ih
    have hr := argumentRound_leads h function c
    rw [hs, roundParts, List.flatMap_singleton] at hr
    rw [List.cons_append, List.flatMap_cons]
    exact hr.next ih

theorem arguments_leads (h : StepwiseExpression src expr) (function : String) (c : Cursor) :
    Leads src c ((arguments src expr function c).1.1.flatMap (·.symbols)) (arguments src expr function c).2 := by
  unfold arguments
  split
  · rename_i he
    exact .eating he
  · exact .inside (argumentList_leads h function _)

/-- The arguments of an aggregate are read in its scope. -/
theorem scopedArguments_leads (h : StepwiseExpression src expr) (name : Token) (isAggregate : Bool) (c : Cursor) :
    ∃ d, Leads src (c.within (if isAggregate then some .aggregate else none))
        ((scopedArguments src expr name isAggregate c).1.1.flatMap (·.symbols)) d ∧
      (scopedArguments src expr name isAggregate c).2 = { d with scopes := c.scopes } := by
  unfold scopedArguments
  split
  · exact ⟨_, arguments_leads h name.text (c.within (some .aggregate)), rfl⟩
  · have harguments := arguments_leads h name.text c
    exact ⟨_, harguments, harguments.onward.without_none.symm⟩

theorem call_leads (h : StepwiseExpression src expr) (ht : c.take? = some (t, d)) (hk : t.kind = .identifier)
    (hp : d.take? = some (paren, e)) :
    Leads src c [(call src expr t paren e).1] (call src expr t paren e).2 := by
  obtain ⟨l, ls, hls, rfl, rfl⟩ := take?_eq_some ht
  obtain ⟨f, hf, hback⟩ := scopedArguments_leads h l.token (src.options.signatures.isAggregate l.token.text) e
  have hparen : Leads src c.advance [] e := .taking hp
  have hscopes : e.scopes = c.scopes := hparen.onward.scopes.trans (advance_scopes c)
  rw [hscopes] at hback
  unfold call
  dsimp only
  rw [hscopes]
  exact hback ▸ .call hls hk rfl (.behind (.taking_within hp _) hf)

theorem skipNext?_leads (h : StepwiseExpression src expr) (place : Place) : Stepwise? src (skipNext? expr place) := by
  intro c ss d hd
  unfold skipNext? at hd
  split at hd
  · cases hd
  · split at hd
    · cases hd
    · split at hd
      · have hx := h place c
        rw [Option.some.inj hd] at hx
        exact hx
      · cases hd
        exact .advance c

theorem skipStretch_leads (h : StepwiseExpression src expr) (place : Place) (t : Token) :
    Stepwise src (skipStretch expr place t) := by
  intro c
  have hfirst : Leads src c (skipFirst expr place t c).1 (skipFirst expr place t c).2 := by
    unfold skipFirst
    split
    · exact h place c
    · exact .advance c
  exact hfirst.next ((skipNext?_leads h place).many _)

theorem unexpected_code_plain (kind : Token.Kind) (text : String) (isRun : Bool) (place : Place) :
    (Cause.unexpected kind text isRun place).code.isStructural = true ∧
      (Cause.unexpected kind text isRun place).code.opensBlock = false := by
  rw [Cause.code]
  split
  · exact ⟨rfl, rfl⟩
  · split
    · exact ⟨rfl, rfl⟩
    · split
      · exact ⟨rfl, rfl⟩
      · exact ⟨rfl, rfl⟩

theorem resync_leads (h : StepwiseExpression src expr) (place : Place) (t : Token) (c : Cursor) :
    Leads src c [(resync src expr place t c).1] (resync src expr place t c).2 := by
  obtain ⟨hs, ho⟩ := unexpected_code_plain t.kind t.text false place
  refine .behind (.fault c _ t.range hs ho) ?_
  exact .skipped (s := ⟨"error", .skipped, _, _, false, []⟩) rfl rfl (skipStretch_leads h place t _)

theorem tooDeep_leads (src : Source) : StepwiseExpression src (tooDeep src) := by
  intro place c
  unfold tooDeep
  split
  · exact .stay c
  · rename_i l ls hl
    dsimp only
    generalize 1 + runLength ((balanceBehind? 0 l.token.kind).getD 0) ls = n
    have hmet : Leads src (c.skip n) []
        ((c.skip n).fault (.tooDeep src.options.levels) ((c.skip n).since l.token.range.start)) := .fault _ _ _ rfl rfl
    refine .behind (.skip n c) (.behind hmet ?_)
    exact .skipped (s := ⟨"error", .skipped, _, [], false, []⟩) rfl rfl (.stay _)

theorem strayTokens_leads (src : Source) (c : Cursor) : Leads src c [] (strayTokens c) := by
  unfold strayTokens
  split
  · exact .stay c
  · rename_i l ls hl
    obtain ⟨hs, ho⟩ := unexpected_code_plain l.token.kind l.token.text
      (0 < (ls.takeWhile fun l => !(l.token.kind.startsExpression || l.afterBlank)).length) .topLevel
    exact .behind (.skip _ c) (.fault _ _ _ hs ho)

theorem required_leads (h : StepwiseExpression src expr) (place : Place) (keyword : Token) :
    Stepwise src (required expr place keyword) := by
  intro c
  unfold required
  split
  · exact h place c
  · exact .fault c _ keyword.range rfl rfl

theorem branch_leads (h : StepwiseExpression src expr) (place : Place) (kind : BranchKind) (keyword : Token)
    (c : Cursor) :
    Leads src c (branch expr place kind keyword c).1.symbols (branch expr place kind keyword c).2 :=
  required_leads h place keyword c

theorem thenClause_leads (h : StepwiseExpression src expr) (place : Place) (keyword : Token) (c : Cursor) :
    Leads src c (thenClause expr place keyword c).1.symbols (thenClause expr place keyword c).2 := by
  unfold thenClause
  split
  · rename_i t d he
    exact .behind (.eating he) (branch_leads h place .then_ t d)
  · refine .behind (.fault c (.missingThen keyword.kind) keyword.range rfl rfl) ?_
    dsimp only
    split
    · exact h place _
    · exact .stay _

theorem condition_leads (h : StepwiseExpression src expr) (place : Place) (kind : BranchKind) (keyword : Token)
    (c : Cursor) :
    Leads src c (condition expr place kind keyword c).1.symbols (condition expr place kind keyword c).2 :=
  .next (branch_leads h place kind keyword c) (thenClause_leads h place keyword _)

theorem nextClause?_leads (h : StepwiseExpression src expr) (place : Place) (k : Token.Kind) (kind : BranchKind)
    (hd : nextClause? src expr place k kind c = some (a, d)) : Leads src c a.symbols d := by
  unfold nextClause? at hd
  split at hd
  · cases hd
  · split at hd
    · cases hd
    · rename_i l ls hl
      dsimp only at hd
      split at hd
      · cases hd
      · split at hd
        · have hx := condition_leads h place kind l.token c.advance
          rw [Option.some.inj hd] at hx
          exact .behind (.take hl) hx
        · split at hd
          · have hx := branch_leads h place .else_ l.token c.advance
            rw [Option.some.inj hd] at hx
            exact .behind (.take hl) hx
          · cases hd
            exact resync_leads h place l.token c

/-- Clauses one after the other. -/
theorem clauses_lead {read? : Cursor → Option (Clause × Cursor)}
    (h : ∀ c a d, read? c = some (a, d) → Leads src c a.symbols d) (c : Cursor) :
    Leads src c (Clause.join (c.many read?).1).symbols (c.many read?).2 :=
  many_rule (P := fun c as e => Leads src c (Clause.join as).symbols e) (fun c => .stay c)
    (fun c a d _ _ hr ih => (h c a d hr).next ih) c

/-- A block from what was read in its scope, once its end was found there or has been reported. -/
theorem finishBlock_leads (kind : BlockKind) {body : Clause} {stop : Option Range}
    (ht : c.take? = some (opener, d)) (hk : opener.kind = kind.openerKind)
    (hb : Leads src (d.within kind.scope?) body.symbols e) {f : Cursor}
    (hf : (stop.isSome = true ∧ f = { e with scopes := d.scopes }) ∨
      (stop = none ∧ f = Cursor.fault { e with scopes := d.scopes } kind.openCause opener.range)) :
    Leads src c [(finishBlock src kind opener body stop f).1] (finishBlock src kind opener body stop f).2 := by
  obtain ⟨l, ls, hls, rfl, rfl⟩ := take?_eq_some ht
  rw [advance_scopes] at hf
  rcases hf with ⟨hstop, rfl⟩ | ⟨rfl, rfl⟩
  · exact .finish (s := ⟨_, .block kind body.branches stop, _, body.symbols, _, []⟩) hstop
      (.behind (.taking_within ht _) hb)
  · exact .openBlock hls hk hb

/-- A block that opens no scope, up to END or the report that it is missing. -/
theorem conditional_leads (kind : BlockKind) {body : Clause} (ht : c.take? = some (opener, d))
    (hk : opener.kind = kind.openerKind) (hscope : kind.scope? = none)
    (hcause : kind.openCause = .missingEnd opener.kind) (hb : Leads src d body.symbols e) :
    Leads src c [(finishBlock src kind opener body (terminator opener e).1 (terminator opener e).2).1]
      (finishBlock src kind opener body (terminator opener e).1 (terminator opener e).2).2 := by
  have hinside : Leads src (d.within kind.scope?) body.symbols e := by
    rwa [hscope]
  unfold terminator
  split
  · rename_i t f he
    have hend : Leads src d body.symbols f := hb.onto (.eating he)
    exact finishBlock_leads kind ht hk (hinside.onto (.eating he)) (.inl ⟨rfl, hend.onward.without_none.symm⟩)
  · refine finishBlock_leads kind ht hk hinside (.inr ⟨rfl, ?_⟩)
    rw [hb.onward.without_none, hcause]

theorem ifBlock_leads (h : StepwiseExpression src expr) (ht : c.take? = some (opener, d)) (hk : opener.kind = .if_) :
    Leads src c [(ifBlock src expr opener d).1] (ifBlock src expr opener d).2 := by
  have hbody : Leads src d (ifBody src expr opener d).1.symbols (ifBody src expr opener d).2 :=
    .next (condition_leads h .ifBlock .if_ opener d)
      (clauses_lead (fun _ _ _ hd => nextClause?_leads h .ifBlock .elseIf .elseIf hd) _)
  exact conditional_leads .if_ ht hk rfl (by rw [hk]; rfl) hbody

theorem checkWhen_leads (src : Source) (opener : Token) (hasWhen : Bool) (c : Cursor) :
    Leads src c [] (checkWhen opener hasWhen c) := by
  unfold checkWhen
  split
  · exact .stay c
  · exact .fault c _ opener.range rfl rfl

theorem caseBlock_leads (h : StepwiseExpression src expr) (ht : c.take? = some (opener, d))
    (hk : opener.kind = .case_) : Leads src c [(caseBlock src expr opener d).1] (caseBlock src expr opener d).2 := by
  have hbody : Leads src d (caseBody src expr opener d).1.symbols (caseBody src expr opener d).2 :=
    .next (branch_leads h .caseBlock .case_ opener d)
      (clauses_lead (fun _ _ _ hd => nextClause?_leads h .caseBlock .when_ .when_ hd) _)
  exact conditional_leads .case_ ht hk rfl (by rw [hk]; rfl) (hbody.onto (checkWhen_leads src opener _ _))

theorem dimensions_leads (h : StepwiseExpression src expr) (keyword : Token) (c : Cursor) :
    Leads src c (dimensions expr keyword c).1.symbols (dimensions expr keyword c).2 := by
  unfold dimensions
  split
  · exact commaList_leads h .lodDimensions c
  · exact .stay c

theorem aggregate_leads (h : StepwiseExpression src expr) (keyword : Token) (c : Cursor) :
    Leads src c (aggregate expr keyword c).1.symbols (aggregate expr keyword c).2 := by
  unfold aggregate
  split
  · rename_i colon d he
    exact .behind (.eating he) (branch_leads h .lodBody .aggregate colon d)
  · exact .fault c _ keyword.range rfl rfl

theorem lodHead_leads (h : StepwiseExpression src expr) (brace : Token) (c : Cursor) :
    Leads src c (lodHead expr brace c).1.2.symbols (lodHead expr brace c).2 := by
  unfold lodHead
  split
  · rename_i scope keyword d _ ht
    exact .behind (.taking ht) (.next (dimensions_leads h keyword d) (aggregate_leads h keyword _))
  · exact branch_leads h .lodBody .aggregate brace c

theorem nextSkipped?_leads (h : StepwiseExpression src expr) (hd : nextSkipped? src expr c = some (a, d)) :
    Leads src c a.symbols d := by
  unfold nextSkipped? at hd
  split at hd
  · cases hd
  · split at hd
    · cases hd
    · split at hd
      · cases hd
      · cases hd
        exact resync_leads h .lodBody _ c

theorem lodBody_leads (h : StepwiseExpression src expr) (brace : Token) (c : Cursor) :
    Leads src c (lodBody src expr brace c).1.2.1.symbols (lodBody src expr brace c).2 := by
  have hbody := (lodHead_leads h brace c).next (clauses_lead (fun _ _ _ hd => nextSkipped?_leads h hd) _)
  unfold lodBody
  dsimp only
  split
  · rename_i he
    exact hbody.onto (.eating he)
  · exact hbody

theorem checkBrace_cases (brace : Token) (stop : Option Range) (c : Cursor) :
    (stop.isSome = true ∧ checkBrace brace stop c = c) ∨
      (stop = none ∧ checkBrace brace stop c = c.fault .openBrace brace.range) := by
  cases stop with
  | some r => exact .inl ⟨rfl, rfl⟩
  | none => exact .inr ⟨rfl, rfl⟩

theorem lodBlock_leads (h : StepwiseExpression src expr) (ht : c.take? = some (opener, d))
    (hk : opener.kind = .leftBrace) :
    Leads src c [(lodBlock src expr opener d).1] (lodBlock src expr opener d).2 :=
  finishBlock_leads (.lod _) ht hk (.inside (lodBody_leads h opener _)) (checkBrace_cases opener _ _)

theorem sign?_leads (src : Source) {s : Token × List Symbol} (hs : sign? src c = some (s, d)) : Leads src c s.2 d := by
  unfold sign? at hs
  split at hs
  · obtain ⟨⟨t, e⟩, ht, he⟩ := Option.map_eq_some_iff.mp hs
    cases he
    exact .behind (.taking ht) (operatorSymbol_leads src t e)
  · cases hs

theorem signs_leads (src : Source) (c : Cursor) : Leads src c ((signs src c).1.flatMap (·.2)) (signs src c).2 := by
  have hmany (c : Cursor) : Leads src c ((c.many (nextSign? src)).1.flatMap (·.2)) (c.many (nextSign? src)).2 := by
    refine many_rule (P := fun c (signs : List (Token × List Symbol)) e => Leads src c (signs.flatMap (·.2)) e)
      (fun c => .stay c) ?_ c
    intro c s d signs e hs ih
    unfold nextSign? at hs
    split at hs
    · cases hs
    · exact (sign?_leads src hs).next ih
  unfold signs
  split
  · exact .stay c
  · rename_i first d hs
    exact (sign?_leads src hs).next (hmany d)

theorem word_leads (h : StepwiseExpression src expr) (ht : c.take? = some (t, d)) (hk : t.kind = .identifier) :
    Leads src c [(word src expr t d).1] (word src expr t d).2 := by
  unfold word
  split
  · rename_i paren e he
    exact call_leads h ht hk (eat?_eq_some he).1
  · exact .behind (.taking ht) (bareIdentifier_leads src t d)

theorem primary_leads (h : StepwiseExpression src expr) (ht : c.take? = some (t, d)) :
    Leads src c (primary src expr t d).1 (primary src expr t d).2 := by
  unfold primary
  dsimp only
  split
  · exact .behind (.taking ht) (fieldReference_leads src t d)
  · rename_i hk
    exact word_leads h ht hk
  · exact .behind (.taking ht) (grouping_leads h false t d)
  · rename_i hk
    exact lodBlock_leads h ht hk
  · rename_i hk
    exact ifBlock_leads h ht hk
  · rename_i hk
    exact caseBlock_leads h ht hk
  · exact .behind (.taking ht) (literal_leads src t d)

theorem operand_leads (h : StepwiseExpression src expr) : Stepwise src (operand src expr) := by
  intro c
  have hsigns := signs_leads src c
  unfold operand signed
  dsimp only
  split
  · rename_i t d ht
    split at ht
    · exact hsigns.next (primary_leads h ht)
    · cases ht
  · split
    · exact hsigns.onto (.fault _ _ _ rfl rfl)
    · exact hsigns

theorem rightSide_leads (h : StepwiseExpression src expr) (place : Place) (op : Token) :
    Stepwise src (rightSide src expr place op) := by
  intro c
  unfold rightSide
  split
  · rename_i paren d hparen
    split at hparen
    · exact .behind (.eating hparen) (grouping_leads h true paren d)
    · cases hparen
  · split
    · exact operand_leads h c
    · exact .fault c _ op.range rfl rfl

theorem link?_leads (h : StepwiseExpression src expr) (place : Place) : Stepwise? src (link? src expr place) := by
  intro c ss d hd
  unfold link? at hd
  obtain ⟨⟨op, e⟩, ho, he⟩ := Option.map_eq_some_iff.mp hd
  cases he
  exact .behind (.taking (operator?_eq_some ho).1)
    (.next (operatorSymbol_leads src op e) (rightSide_leads h place op _))

theorem expression_leads (src : Source) (levels : Nat) : StepwiseExpression src (expression src levels) := by
  induction levels with
  | zero => exact tooDeep_leads src
  | succ levels ih => exact fun place c => .next (operand_leads ih c) ((link?_leads ih place).many _)

/-- A statement is read step by step. -/
theorem statement_leads (src : Source) : Stepwise src (statement src) := by
  intro c
  unfold statement
  split
  · exact expression_leads src _ .topLevel c
  · exact strayTokens_leads src c

end Statement

end Calculation
