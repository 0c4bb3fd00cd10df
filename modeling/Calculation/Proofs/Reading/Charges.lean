import Calculation.Proofs.Reading.Endings

/-!
What each fault is charged to. A fault is charged to a lexeme, the one it starts with, and no lexeme is charged twice
with one code; that a token cannot stand where it stands is charged to it before what is read from it on. Some faults
are also charged to a symbol, which lacks what was expected: a block lacks its end, a condition lacks THEN, a name of a
field lacks its brackets. So the faults that are due when a symbol is finished are those for what it lacks.
-/
namespace Calculation

/-- The code of a fault and the range it is reported at. -/
abbrev Charge := Code × Range

def Diagnostic.charge (d : Diagnostic) : Charge :=
  (d.code, d.range)

namespace Code

/-- Codes of faults that the tree shows as something that a symbol lacks. -/
def isDefect : Code → Bool
  | missingEnd | openBrace | missingThen | missingWhen | missingColon | bareIdentifier => true
  | _ => false

/-- Codes of tokens that cannot stand where they stand. -/
def isUnexpected : Code → Bool
  | invalidCharacter | unexpectedCloser | unexpectedInBlock | unexpectedToken => true
  | _ => false

/-- What some symbol has to account for once the fault has been reported. -/
def defect (code : Code) (r : Range) : List Charge :=
  if code.isDefect then [(code, r)] else []

end Code

/-- The branches that THEN has to follow. -/
def BranchKind.isCondition : BranchKind → Bool
  | if_ | elseIf | when_ => true
  | _ => false

namespace Branch

/-- The conditions that no THEN follows at once. -/
def unfollowed : List Branch → List Branch
  | [] => []
  | b :: bs =>
    if b.kind.isCondition && bs.head?.all (·.kind != .then_) then b :: unfollowed bs else unfollowed bs

/-- The faults of the conditions that no THEN follows. -/
def thenCharges (bs : List Branch) : List Charge :=
  (unfollowed bs).map fun b => (.missingThen, b.keyword)

variable {as bs : List Branch}

theorem unfollowed_append (h : bs.head?.all (·.kind != .then_) = true) :
    unfollowed (as ++ bs) = unfollowed as ++ unfollowed bs := by
  induction as with
  | nil => rfl
  | cons a as ih =>
    have hhead : (as ++ bs).head?.all (·.kind != .then_) = as.head?.all (·.kind != .then_) := by
      cases as with
      | nil => exact h
      | cons => rfl
    rw [List.cons_append, unfollowed, unfollowed, hhead, ih]
    split <;> rfl

/-- Branches that do not start with THEN follow no condition. -/
theorem thenCharges_append (h : bs.head?.all (·.kind != .then_) = true) :
    thenCharges (as ++ bs) = thenCharges as ++ thenCharges bs := by
  rw [thenCharges, unfollowed_append h, List.map_append]
  rfl

/-- Without conditions nothing lacks THEN. -/
theorem thenCharges_of_plain (h : ∀ b ∈ bs, b.kind.isCondition = false) : thenCharges bs = [] := by
  induction bs with
  | nil => rfl
  | cons b bs ih =>
    obtain ⟨hb, hbs⟩ := List.forall_mem_cons.mp h
    rw [thenCharges, unfollowed, hb]
    exact ih hbs

end Branch

namespace BlockKind

/-- A CASE block has to have a WHEN. -/
def lacksWhen (b : BlockKind) (branches : List Branch) : Bool :=
  match b with
  | case_ => !branches.any (·.kind == .when_)
  | _ => false

/-- A LOD block with a keyword has to have an aggregate expression, behind a colon. -/
def lacksColon (b : BlockKind) (branches : List Branch) : Bool :=
  match b with
  | if_ | case_ | lod .table => false
  | lod _ => !branches.any (·.kind == .aggregate)

/-- The faults of a block by what it lacks; `opener` is what opens it, `scope` the keyword of an LOD block. -/
def lacks (b : BlockKind) (opener scope : Range) (branches : List Branch) (terminator : Option Range) : List Charge :=
  Branch.thenCharges branches ++ (if b.lacksWhen branches then [(.missingWhen, opener)] else []) ++
    (if b.lacksColon branches then [(.missingColon, scope)] else []) ++
      (if terminator.isNone then [(b.openCause.code, opener)] else [])

end BlockKind

/-- Kinds of symbols that lack nothing: all but blocks and fields. -/
def Symbol.Kind.isWhole : Kind → Bool
  | block .. | field _ => false
  | _ => true

namespace Cursor
open Statement

/-- Of a symbol that starts with the token `t`, which has been taken before `c`, and is finished at `d`: the faults
that are due are those for what it lacks. -/
def Lacks (t : Token) (c d : Cursor) (s : Symbol) (due : List Charge) : Prop :=
  match s.kind with
  | .block b branches terminator =>
    t.kind = b.openerKind ∧ s.range = d.since t.range.start ∧ ∃ scope, due = b.lacks t.range scope branches terminator ∧
      (b.lacksColon branches = true →
        ∃ l ls, c.rest = l :: ls ∧ scope = l.token.range ∧ d.rest.length < c.rest.length)
  | .field _ =>
    (t.kind = .field ∧ due = [] ∧ (s.range = t.range ∨ ∃ l ∈ c.rest, s.range = t.range.cover l.token.range)) ∨
      (t.kind = .identifier ∧ due = [(.bareIdentifier, t.range)] ∧ s.range = t.range)
  | _ => due = []

/-- A reading behind the token `t` gives the symbols and leads to the second cursor. The faults that start with `t`
have at most the codes `ks`; what no symbol accounts for yet is `due`. -/
inductive Charges (src : Source) : Token → List Code → Cursor → List Symbol → List Charge → Cursor → Prop
  | stay (t : Token) (c : Cursor) : Charges src t [] c [] [] c
  | next {t : Token} {ks ls : List Code} {c d e : Cursor} {ss tt : List Symbol} {due due' : List Charge}
    (hcd : Charges src t ks c ss due d) (hde : Charges src t ls d tt due' e) :
    Charges src t (ks ++ ls) c (ss ++ tt) (due ++ due') e
  /-- To permit more codes. -/
  | permit {t : Token} {ks ls : List Code} {c d : Cursor} {ss : List Symbol} {due : List Charge} (hk : ks.Sublist ls)
    (h : Charges src t ks c ss due d) : Charges src t ls c ss due d
  | fault {t : Token} (c : Cursor) (cause : Cause) {r : Range} (hr : r.start = t.range.start) :
    Charges src t [cause.code] c [] (cause.code.defect r) (c.fault cause r)
  /-- A lexeme is charged with each code at most once. -/
  | take {t : Token} {ks : List Code} {c d : Cursor} {l : Lexeme} {ls : List Lexeme} {ss : List Symbol}
    {due : List Charge} (hl : c.rest = l :: ls) (hk : ks.Nodup) (h : Charges src l.token ks c.advance ss due d) :
    Charges src t [] c ss due d
  /-- What surrounds a part is left again. -/
  | around {t : Token} {ks : List Code} {c d : Cursor} {ss : List Symbol} {due : List Charge}
    {closers : List Token.Kind} {scopes : List Scope} {scans : Nat}
    (h : Charges src t ks { c with closers := closers, scopes := scopes, scans := scans } ss due d) :
    Charges src t ks c ss due { d with closers := c.closers, scopes := c.scopes, scans := c.scans }
  /-- A part is read with nothing met before it. -/
  | recording {t : Token} {ks : List Code} {c d : Cursor} {ss : List Symbol} {due : List Charge}
    (h : Charges src t ks { c with trail := [] } ss due d) :
    Charges src t ks c ss due { d with trail := d.trail ++ c.trail }
  | finish {t : Token} {ks : List Code} {c d : Cursor} {s : Symbol} {due : List Charge} (hs : Lacks t c d s due)
    (h : Charges src t ks c s.children due d) :
    Charges src t ks c [(finish src s d).1] [] (finish src s d).2

/-- A reading that reports nothing at the token before it. -/
def Clear (src : Source) (c : Cursor) (ss : List Symbol) (d : Cursor) : Prop :=
  ∀ t, Charges src t [] c ss [] d

/-- A reading behind the token `t`, which is charged with each code at most once, and not for where it stands. -/
def Owned (src : Source) (t : Token) (c : Cursor) (ss : List Symbol) (d : Cursor) : Prop :=
  ∃ ks : List Code, ks.Nodup ∧ (∀ k ∈ ks, k.isUnexpected = false) ∧ Charges src t ks c ss [] d

/-- A reading of something that starts with the lexeme in front. -/
def Opens (src : Source) (c : Cursor) (ss : List Symbol) (d : Cursor) : Prop :=
  ∃ l ls, c.rest = l :: ls ∧ Owned src l.token c.advance ss d

variable {src : Source} {c d e : Cursor} {ss tt : List Symbol} {t op : Token} {k : Token.Kind} {ks : List Code}
  {due due' : List Charge} {s : Symbol}

theorem Lacks.nothing (h : s.kind.isWhole = true) : Lacks t c d s [] := by
  unfold Lacks
  split
  · rename_i hk
    rw [hk] at h
    cases h
  · rename_i hk
    rw [hk] at h
    cases h
  · rfl

theorem advance_fault (c : Cursor) (cause : Cause) (r : Range) :
    (c.fault cause r).advance = c.advance.fault cause r := by
  obtain ⟨rest, lastEnd, trail, closers, scopes, scans⟩ := c
  cases rest <;> rfl

theorem advance_scans (c : Cursor) (n : Nat) :
    Cursor.advance { c with scans := n } = { c.advance with scans := n } := by
  obtain ⟨rest, lastEnd, trail, closers, scopes, scans⟩ := c
  cases rest <;> rfl

namespace Charges

/-- A charged reading is onward like every other. -/
theorem onward (h : Charges src t ks c ss due d) : Onward c d := by
  induction h with
  | stay _ c => exact .refl c
  | next _ _ ihcd ihde => exact ihcd.trans ihde
  | permit _ _ ih => exact ih
  | fault c cause => exact .fault c cause _
  | take _ _ _ ih => exact (Onward.advance _).trans ih
  | around _ ih => exact ⟨ih.rest, ih.trail, rfl, rfl, rfl⟩
  | recording _ ih => exact ⟨ih.rest, ⟨_, rfl⟩, ih.closers, ih.scopes, ih.scans⟩
  | finish _ _ ih => exact ih.trans (.finish src _ _)

theorem plain (c : Cursor) (cause : Cause) {r : Range} (hr : r.start = t.range.start)
    (h : cause.code.isDefect = false) : Charges src t [cause.code] c [] [] (c.fault cause r) := by
  have hdue : cause.code.defect r = [] := by rw [Code.defect, h]; rfl
  exact hdue ▸ .fault c cause hr

/-- A fault that some symbol has to account for. -/
theorem owing (c : Cursor) (cause : Cause) {r : Range} (hr : r.start = t.range.start)
    (h : cause.code.isDefect = true) : Charges src t [cause.code] c [] [(cause.code, r)] (c.fault cause r) := by
  have hdue : cause.code.defect r = [(cause.code, r)] := by rw [Code.defect, h]; rfl
  exact hdue ▸ .fault c cause hr

/-- What gives no symbols, behind a reading. -/
theorem onto {ls : List Code} (hcd : Charges src t ks c ss due d) (hde : Charges src t ls d [] due' e) :
    Charges src t (ks ++ ls) c ss (due ++ due') e :=
  List.append_nil ss ▸ hcd.next hde

/-- What is clear, behind a reading. -/
theorem before (hcd : Charges src t ks c ss due d) (hde : Clear src d tt e) :
    Charges src t ks c (ss ++ tt) due e := by
  simpa using hcd.next (hde t)

theorem inside {closer : Token.Kind} (h : Charges src t ks { c with closers := closer :: c.closers } ss due d) :
    Charges src t ks c ss due { d with closers := c.closers } := by
  have hscopes : d.scopes = c.scopes := h.onward.scopes
  have hscans : d.scans = c.scans := h.onward.scans
  have hc : Charges src t ks c ss due { d with closers := c.closers, scopes := c.scopes, scans := c.scans } := .around h
  rwa [← hscopes, ← hscans] at hc

theorem inScope {scope : Scope} (h : Charges src t ks { c with scopes := scope :: c.scopes } ss due d) :
    Charges src t ks c ss due { d with scopes := c.scopes } := by
  have hclosers : d.closers = c.closers := h.onward.closers
  have hscans : d.scans = c.scans := h.onward.scans
  have hc : Charges src t ks c ss due { d with closers := c.closers, scopes := c.scopes, scans := c.scans } := .around h
  rwa [← hclosers, ← hscans] at hc

theorem scanning {n m : Nat} (hm : c.scans = m) (h : Charges src t ks { c with scans := n } ss due d) :
    Charges src t ks c ss due { d with scans := m } := by
  subst hm
  have hclosers : d.closers = c.closers := h.onward.closers
  have hscopes : d.scopes = c.scopes := h.onward.scopes
  have hc : Charges src t ks c ss due { d with closers := c.closers, scopes := c.scopes, scans := c.scans } := .around h
  rwa [← hclosers, ← hscopes] at hc

/-- A symbol without children. -/
theorem leaf (t : Token) (c : Cursor) (name : String) {kind : Symbol.Kind} (r : Range) (isComplete : Bool)
    (hk : kind.isWhole = true) :
    Charges src t [] c [(c.leaf src name kind r isComplete).1] [] (c.leaf src name kind r isComplete).2 :=
  .finish (s := ⟨name, kind, r, [], isComplete, []⟩) (.nothing hk) (.stay t c)

theorem taking (h : c.take? = some (op, d)) (hk : ks.Nodup) (hd : Charges src op ks d ss due e) :
    Charges src t [] c ss due e := by
  obtain ⟨l, ls, hls, rfl, rfl⟩ := take?_eq_some h
  exact .take hls hk hd

end Charges

namespace Clear

theorem stay (c : Cursor) : Clear src c [] c :=
  fun t => .stay t c

theorem next (hcd : Clear src c ss d) (hde : Clear src d tt e) : Clear src c (ss ++ tt) e :=
  fun t => (hcd t).next (hde t)

theorem advance (c : Cursor) : Clear src c [] c.advance := by
  intro t
  cases hl : c.rest with
  | nil =>
    have hsame : c.advance = c := by simp [Cursor.advance, hl]
    rw [hsame]
    exact .stay t c
  | cons l ls => exact .take hl .nil (.stay l.token c.advance)

theorem skip (n : Nat) (c : Cursor) : Clear src c [] (c.skip n) := by
  induction n generalizing c with
  | zero => exact .stay c
  | succ n ih => exact (advance c).next (ih c.advance)

theorem taking (h : c.take? = some (t, d)) : Clear src c [] d := by
  obtain ⟨l, ls, -, -, rfl⟩ := take?_eq_some h
  exact .advance c

theorem eating (h : c.eat? k = some (t, d)) : Clear src c [] d :=
  taking (eat?_eq_some h).1

theorem onto (hcd : Clear src c ss d) (hde : Clear src d [] e) : Clear src c ss e :=
  List.append_nil ss ▸ hcd.next hde

theorem behind (hcd : Clear src c [] d) (hde : Clear src d ss e) : Clear src c ss e :=
  hcd.next hde

theorem many {read? : Cursor → Option (List Symbol × Cursor)}
    (h : ∀ c ss d, read? c = some (ss, d) → Clear src c ss d) (c : Cursor) :
    Clear src c (c.many read?).1.flatten (c.many read?).2 :=
  many_rule (P := fun c sss e => Clear src c sss.flatten e) (fun c => .stay c)
    (fun c ss d _ _ hr ih => (h c ss d hr).next ih) c

end Clear

namespace Owned

theorem of_clear (h : Clear src c ss d) (t : Token) : Owned src t c ss d :=
  ⟨[], .nil, by simp, h t⟩

theorem before (hcd : Owned src t c ss d) (hde : Clear src d tt e) : Owned src t c (ss ++ tt) e := by
  obtain ⟨ks, hn, hk, h⟩ := hcd
  exact ⟨ks, hn, hk, h.before hde⟩

/-- What follows a part that is clear. -/
theorem behind (hcd : Charges src t [] c ss [] d) (hde : Owned src t d tt e) : Owned src t c (ss ++ tt) e := by
  obtain ⟨ks, hn, hk, h⟩ := hde
  exact ⟨ks, hn, hk, hcd.next h⟩

/-- What is owned by the lexeme that is taken reports nothing before it. -/
theorem clear (h : Owned src op d ss e) (ht : c.take? = some (op, d)) : Clear src c ss e := by
  obtain ⟨ks, hn, -, h⟩ := h
  exact fun _ => .taking ht hn h

theorem opens (h : Owned src op d ss e) (ht : c.take? = some (op, d)) : Opens src c ss e := by
  obtain ⟨l, ls, hl, rfl, rfl⟩ := take?_eq_some ht
  exact ⟨l, ls, hl, h⟩

end Owned

namespace Opens

theorem clear (h : Opens src c ss d) : Clear src c ss d := by
  obtain ⟨l, ls, hl, h⟩ := h
  exact h.clear (take?_of_rest hl)

theorem before (hcd : Opens src c ss d) (hde : Clear src d tt e) : Opens src c (ss ++ tt) e := by
  obtain ⟨l, ls, hl, h⟩ := hcd
  exact ⟨l, ls, hl, h.before hde⟩

end Opens

end Cursor

namespace Statement
open Cursor

/-- An expression is charged to the lexemes from the one it starts with. -/
def ChargedExpression (src : Source) (expr : ReadExpression) : Prop :=
  ∀ place c, AtStart c → Opens src c (expr place c).1 (expr place c).2

variable {src : Source} {expr : ReadExpression} {c d e : Cursor} {t paren : Token} {l : Lexeme} {ls : List Lexeme}
  {ss : List Symbol}

theorem ChargedExpression.clear (h : ChargedExpression src expr) (place : Place) (hc : AtStart c) :
    Clear src c (expr place c).1 (expr place c).2 :=
  (h place c hc).clear

theorem operatorSymbol_clear (src : Source) (op : Token) (c : Cursor) :
    Clear src c (operatorSymbol src op c).1 (operatorSymbol src op c).2 := by
  intro t
  unfold operatorSymbol
  split
  · exact .leaf t c _ _ _ rfl
  · exact .stay t c

theorem literal_owned (src : Source) (t : Token) (c : Cursor) :
    Owned src t c [(literal src t c).1] (literal src t c).2 := by
  unfold literal openLiteral?
  split
  · split
    · exact ⟨[.openString], by simp, by simp [Code.isUnexpected],
        .next (.plain c .openString rfl rfl) (.leaf t _ _ _ _ rfl)⟩
    · exact ⟨[.openDate], by simp, by simp [Code.isUnexpected],
        .next (.plain c .openDate rfl rfl) (.leaf t _ _ _ _ rfl)⟩
    · exact .of_clear (fun t => .leaf t c _ _ _ rfl) t
  · exact .of_clear (fun t => .leaf t c _ _ _ rfl) t

theorem checkField_charges (src : Source) (t : Token) (c : Cursor) :
    Charges src t [.openField] c [] [] (checkField t c) := by
  unfold checkField
  split
  · exact .plain c (.openField t.text) rfl rfl
  · exact .permit (List.nil_sublist _) (.stay t c)

/-- A reference to a field may be open at its first field, or at its second. -/
theorem fieldReference_owned (src : Source) (hk : t.kind = .field) (c : Cursor) :
    Owned src t c [(fieldReference src t c).1] (fieldReference src t c).2 := by
  refine ⟨[.openField], by simp, by simp [Code.isUnexpected], ?_⟩
  unfold fieldReference
  dsimp only
  split
  · rename_i t' d hq
    split at hq
    · cases hq
    · obtain ⟨⟨dot, d'⟩, hdot, hfield⟩ := Option.bind_eq_some_iff.mp hq
      have hfield := (eat?_eq_some (c := d') hfield).1
      have hopen := checkField_charges src t c
      have hsecond : Clear src d' [] (checkField t' d) :=
        fun _ => .taking hfield (by simp) (checkField_charges src t' d)
      obtain ⟨l, ls, hl, rfl, -⟩ := take?_eq_some hfield
      have hmem : l ∈ c.rest := by
        refine (hopen.onward.trans (.of_eat hdot)).rest_subset ?_
        rw [hl]
        exact List.mem_cons_self
      exact .finish (s := ⟨_, .field _, _, [], _, []⟩) (.inl ⟨hk, rfl, .inr ⟨l, hmem, rfl⟩⟩)
        ((hopen.before (.eating hdot)).before hsecond)
  · exact .finish (s := ⟨_, .field _, _, [], _, []⟩) (.inl ⟨hk, rfl, .inl rfl⟩) (checkField_charges src t c)

theorem bareIdentifier_owned (src : Source) (hk : t.kind = .identifier) (c : Cursor) :
    Owned src t c [(bareIdentifier src t c).1] (bareIdentifier src t c).2 := by
  refine ⟨[.bareIdentifier], by simp, by simp [Code.isUnexpected], ?_⟩
  exact .finish (s := ⟨_, .field _, _, [], _, []⟩) (.inr ⟨hk, rfl, rfl⟩) (.owing c (.bareIdentifier t.text) rfl rfl)

theorem nextInList?_clear (h : ChargedExpression src expr) (place : Place)
    (hd : nextInList? expr place c = some (ss, d)) : Clear src c ss d := by
  unfold nextInList? at hd
  split at hd
  · rename_i comma e he
    split at hd
    · rename_i hat
      have hx := h.clear place (atStart_of_atOperand hat)
      rw [Option.some.inj hd] at hx
      exact .behind (.eating he) hx
    · cases hd
  · cases hd

theorem skipComma_clear (src : Source) (c : Cursor) : Clear src c [] (skipComma c) := by
  unfold skipComma
  cases he : c.eat? .comma with
  | none => exact .stay c
  | some p => exact .eating he

theorem commaList_clear (h : ChargedExpression src expr) (place : Place) (c : Cursor) :
    Clear src c (commaList expr place c).1 (commaList expr place c).2 := by
  unfold commaList
  split
  · rename_i hat
    have hmany := Clear.many (fun _ _ _ => nextInList?_clear h place) (expr place c).2
    exact ((h.clear place (atStart_of_atOperand hat)).next hmany).onto (skipComma_clear src _)
  · exact .stay c

theorem groupingBody_charges (h : ChargedExpression src expr) (isList : Bool) (paren : Token) (c : Cursor) :
    Charges src paren [.missingExpression] c (groupingBody expr isList paren c).1 []
      (groupingBody expr isList paren c).2 := by
  unfold groupingBody
  split
  · rename_i hat
    refine .permit (List.nil_sublist _) ?_
    split
    · exact commaList_clear h .grouping c paren
    · exact h.clear .grouping (atStart_of_atOperand hat) paren
  · split
    · exact .plain c .emptyGrouping rfl rfl
    · exact .permit (List.nil_sublist _) (.stay paren c)

theorem closeGrouping_charges (src : Source) (paren : Token) (c : Cursor) :
    Charges src paren [.openParenthesis] c [] [] (closeGrouping paren c) := by
  unfold closeGrouping
  split
  · rename_i he
    exact .permit (List.nil_sublist _) (Clear.eating he paren)
  · exact .plain c .openGrouping rfl rfl

/-- A parenthesis may be empty, and may stay open. -/
theorem grouping_owned (h : ChargedExpression src expr) (isList : Bool) (paren : Token) (c : Cursor) :
    Owned src paren c (grouping expr isList paren c).1 (grouping expr isList paren c).2 := by
  refine ⟨[.missingExpression, .openParenthesis], by simp, by simp [Code.isUnexpected], ?_⟩
  exact .onto (.inside (groupingBody_charges h isList paren _)) (closeGrouping_charges src paren _)

theorem behindArgument_cursor (part : CallPart) (c : Cursor) :
    (behindArgument part c).cursor = if c.isAt .comma || c.isAt .rightParen then c.advance else c := by
  unfold behindArgument
  split
  · rename_i hcomma
    rw [hcomma]
    dsimp only
    split <;> rfl
  · rename_i hcomma
    rw [Bool.eq_false_iff.mpr hcomma]
    split
    · rename_i hparen
      rw [hparen]
      rfl
    · rename_i hparen
      rw [Bool.eq_false_iff.mpr hparen]
      rfl

/-- An argument and what stands behind it. A missing argument is reported at the comma or parenthesis that is taken
next. -/
theorem argument?_clear (h : ChargedExpression src expr) (function : String) {part : CallPart}
    (hp : argument? src expr function c = some (part, d)) :
    Clear src c part.symbols (behindArgument part d).cursor := by
  unfold argument? at hp
  split at hp
  · cases hp
  · rename_i l ls hl
    dsimp only at hp
    split at hp
    · rename_i hkind
      cases hp
      have hat : ((c.fault (.missingArgument function) l.token.range).isAt .comma ||
          (c.fault (.missingArgument function) l.token.range).isAt .rightParen) = true := by
        simpa [isAt, kind?, fault, hl] using hkind
      have hmet : Charges src l.token [.missingExpression] c.advance [] []
          (c.advance.fault (.missingArgument function) l.token.range) :=
        .plain _ (.missingArgument function) rfl rfl
      rw [behindArgument_cursor, if_pos hat, advance_fault]
      exact fun _ => .take hl (by simp) hmet
    · split at hp
      · rename_i hat
        cases hp
        have hexpr := h.clear .arguments (c := { c with trail := [] }) (atStart_of_atOperand hat)
        refine Clear.onto (fun t => .recording (hexpr t)) ?_
        rw [behindArgument_cursor]
        split
        · exact .advance _
        · exact .stay _
      · cases hp

theorem argumentRound_clear (h : ChargedExpression src expr) (function : String) (c : Cursor) :
    Clear src c ((roundParts (argumentRound src expr function c)).flatMap (·.symbols))
      (argumentRound src expr function c).cursor := by
  unfold argumentRound
  split
  · exact .stay c
  · rename_i part d hp
    rw [(behindArgument_leads src part d).1, List.flatMap_singleton]
    exact argument?_clear h function hp

theorem argumentList_clear (h : ChargedExpression src expr) (function : String) (c : Cursor) :
    Clear src c ((argumentList src expr function c).1.1.flatMap (·.symbols)) (argumentList src expr function c).2 := by
  unfold argumentList Cursor.loop
  refine rounds_rule (fun c => .stay c) ?_ ?_ (c.rest.length + 1) c
    (P := fun c (r : List CallPart × List CallPart × Bool) e => Clear src c ((r.1 ++ r.2.1).flatMap (·.symbols)) e)
  · intro c b d hs
    have hr := argumentRound_clear h function c
    rw [hs] at hr
    exact hr
  · intro c part d r e hs ih
    have hr := argumentRound_clear h function c
    rw [hs, roundParts, List.flatMap_singleton] at hr
    rw [List.cons_append, List.flatMap_cons]
    exact hr.next ih

theorem scopedArguments_clear (h : ChargedExpression src expr) (name : Token) (isAggregate : Bool) (c : Cursor) :
    Clear src c ((scopedArguments src expr name isAggregate c).1.1.flatMap (·.symbols))
      (scopedArguments src expr name isAggregate c).2 := by
  have harguments (c : Cursor) : Clear src c ((arguments src expr name.text c).1.1.flatMap (·.symbols))
      (arguments src expr name.text c).2 := by
    unfold arguments
    split
    · rename_i he
      exact .eating he
    · exact fun t => .inside (argumentList_clear h name.text _ t)
  unfold scopedArguments
  split
  · exact fun t => .inScope (harguments _ t)
  · exact harguments c

/-- A complete call may be charged to its name. -/
theorem checkSignature_charges (src : Source) (name : Token) (signature? : Option Signature) (count : Nat)
    (c : Cursor) : Charges src name [.unknownFunction, .wrongArity] c [] [] (checkSignature name signature? count c) := by
  unfold checkSignature
  split
  · exact .permit (by simp [Cause.code]) (.plain c (.unknownFunction name.text) rfl rfl)
  · split
    · exact .permit (List.nil_sublist _) (.stay name c)
    · exact .permit (by simp [Cause.code]) (.plain c (.wrongArity name.text _ count) rfl rfl)

/-- A call that stays open is charged to its parenthesis, one that is complete to its name. -/
theorem checkCall_charges {name : Token} (hp : c.take? = some (paren, d)) (hargs : Clear src d ss e)
    (signature? : Option Signature) (isClosed isComplete : Bool) (count : Nat) :
    Charges src name [.unknownFunction, .wrongArity] c ss []
      (checkCall name paren signature? isClosed isComplete count e) := by
  have hboth : Charges src name [] c ss [] e := Clear.behind (.taking hp) hargs name
  unfold checkCall
  split
  · have hopen : Charges src paren [.openParenthesis] e [] [] (e.fault (.openCall name.text name.range) paren.range) :=
      .plain e (.openCall name.text name.range) rfl rfl
    exact .permit (List.nil_sublist _) (.taking hp (by simp) ((hargs paren).onto hopen))
  · split
    · exact hboth.onto (checkSignature_charges src name signature? count e)
    · exact .permit (List.nil_sublist _) hboth

theorem call_owned (h : ChargedExpression src expr) {name : Token} (hp : c.take? = some (paren, d)) :
    Owned src name c [(call src expr name paren d).1] (call src expr name paren d).2 := by
  refine ⟨[.unknownFunction, .wrongArity], by simp, by simp [Code.isUnexpected], ?_⟩
  have hargs := scopedArguments_clear h name ((src.options.signatures.get? name.text).any Signature.isAggregate) d
  exact .finish (s := ⟨_, .call _ _, _, _, _, []⟩) (.nothing rfl) (checkCall_charges hp hargs _ _ _ _)

theorem skipNext?_clear (h : ChargedExpression src expr) (place : Place) (hd : skipNext? expr place c = some (ss, d)) :
    Clear src c ss d := by
  unfold skipNext? at hd
  split at hd
  · cases hd
  · rename_i l ls hl
    split at hd
    · cases hd
    · split at hd
      · rename_i hstart
        have hx := h.clear place (atStart_cons hl hstart)
        rw [Option.some.inj hd] at hx
        exact hx
      · cases hd
        exact .advance c

/-- A skipped stretch takes the token that could not stand there, alone or with what it starts. -/
theorem skipStretch_opens (h : ChargedExpression src expr) (place : Place) (hl : c.rest = l :: ls) :
    Opens src c (skipStretch expr place l.token c).1 (skipStretch expr place l.token c).2 := by
  have hfirst : Opens src c (skipFirst expr place l.token c).1 (skipFirst expr place l.token c).2 := by
    unfold skipFirst
    split
    · rename_i hstart
      exact h place c (atStart_cons hl hstart)
    · exact ⟨l, ls, hl, .of_clear (.stay c.advance) l.token⟩
  exact hfirst.before (Clear.many (fun _ _ _ => skipNext?_clear h place) _)

theorem unexpected_isUnexpected (kind : Token.Kind) (text : String) (isRun : Bool) (place : Place) :
    (Cause.unexpected kind text isRun place).code.isUnexpected = true := by
  rw [Cause.code]
  split
  · rfl
  · split
    · rfl
    · split <;> rfl

theorem isDefect_of_isUnexpected {k : Code} (h : k.isUnexpected = true) : k.isDefect = false := by
  cases k <;> first | rfl | cases h

/-- The token that cannot stand here is reported, and then read from. -/
theorem resync_clear (h : ChargedExpression src expr) (place : Place) (hl : c.rest = l :: ls) :
    Clear src c [(resync src expr place l.token c).1] (resync src expr place l.token c).2 := by
  let cause := Cause.unexpected l.token.kind l.token.text false place
  let b := c.fault cause l.token.range
  have hcause : cause.code.isUnexpected = true := unexpected_isUnexpected ..
  have hrest : Cursor.rest { b with scans := b.scans + 1 } = l :: ls := hl
  obtain ⟨l', ls', hl', ks, hn, hks, hstretch⟩ := skipStretch_opens h place hrest
  cases hrest.symm.trans hl'
  have hmet : Charges src l.token [cause.code] c.advance [] [] b.advance :=
    advance_fault c cause _ ▸ .plain c.advance cause rfl (isDefect_of_isUnexpected hcause)
  have hnodup : (cause.code :: ks).Nodup := by
    refine List.nodup_cons.mpr ⟨fun hmem => ?_, hn⟩
    rw [hks _ hmem] at hcause
    cases hcause
  rw [advance_scans] at hstretch
  have hinside := hmet.next (hstretch.scanning (Onward.advance b).scans)
  exact fun _ => .take hl hnodup (.finish (s := ⟨"error", .skipped, _, _, false, []⟩) (.nothing rfl) hinside)

theorem tooDeep_opens (src : Source) (place : Place) (hl : c.rest = l :: ls) :
    Opens src c (tooDeep src place c).1 (tooDeep src place c).2 := by
  refine ⟨l, ls, hl, [.tooDeep], by simp, by simp [Code.isUnexpected], ?_⟩
  unfold tooDeep
  rw [hl]
  dsimp only
  generalize runLength ((balanceBehind? 0 l.token.kind).getD 0) ls = n
  rw [Nat.add_comm 1 n]
  refine .finish (s := ⟨"error", .skipped, _, [], false, []⟩) (.nothing rfl) ?_
  exact (Clear.skip n c.advance l.token).onto (.plain _ (.tooDeep src.options.levels) rfl rfl)

/-- A run that starts no statement is charged to its first token. -/
theorem strayTokens_charges (src : Source) (hl : c.rest = l :: ls) :
    ∃ k, Charges src l.token [k] c.advance [] [] (strayTokens c) := by
  unfold strayTokens
  rw [hl]
  dsimp only
  generalize (ls.takeWhile fun l => !(l.token.kind.startsExpression || l.afterBlank)).length = n
  rw [Nat.add_comm 1 n]
  refine ⟨_, (Clear.skip n c.advance l.token).onto (.plain _ (.unexpected ..) rfl ?_)⟩
  exact isDefect_of_isUnexpected (unexpected_isUnexpected ..)

end Statement

end Calculation
