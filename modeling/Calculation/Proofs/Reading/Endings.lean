import Calculation.Proofs.Reading.Extent
import Calculation.Proofs.Reading.Leads
import Calculation.Proofs.Token.Sizes
import Calculation.Proofs.Tree.Finished

/-!
What reading reports when a symbol ends. The ends of complete symbols, and what is wrong with the calls among them, are
told in the order in which the symbols were finished, children before their parents; within a skipped stretch nothing
of this is told. A block that has no end is reported once, wherever it stands. Calls start with their names.
-/
namespace Calculation

/-- A token that opens a block is as long as the block takes it to be. -/
def Token.OpensWhole (t : Token) : Prop :=
  ∀ b : BlockKind, t.kind = b.openerKind → t.range.stop = t.range.start + b.openerSize

/-- A fault that leaves a block open. -/
def Event.opensBlock : Event → Bool
  | fault d => d.code.opensBlock
  | valid => false

theorem Code.opensBlock_structural {c : Code} (h : c.opensBlock = true) : c.isStructural = true := by
  cases c <;> first | rfl | cases h

theorem BlockKind.openCause_opensBlock (b : BlockKind) : b.openCause.code.opensBlock = true := by
  cases b <;> rfl

namespace Symbol

/-- What is wrong with a call by the table of functions: the function is unknown, or a complete call has so many
arguments as the function does not take. -/
def signatureFault? (t : SignatureTable) (s : Symbol) : Option Diagnostic :=
  match s.kind with
  | .call arguments _ =>
    match t.get? s.name with
    | none => some ((Cause.unknownFunction s.name).spanning s.nameRange)
    | some f =>
      if s.isComplete && !f.accepts arguments.length then
        some ((Cause.wrongArity s.name f.expected arguments.length).spanning s.nameRange)
      else none
  | _ => none

/-- What is met at the end of a symbol outside of skipped stretches, apart from structural faults. -/
def ending (t : SignatureTable) (s : Symbol) : List Event :=
  if s.isComplete && !s.isComment then (s.signatureFault? t).toList.map .fault ++ [.valid] else []

/-- The fault of a block that has no end. -/
def openFault? (s : Symbol) : Option Diagnostic :=
  match s.kind with
  | .block b _ none => some (b.openCause.spanning (s.opener b))
  | _ => none

variable {t : SignatureTable} {s : Symbol} {as bs ss : List Symbol}

/-- Nothing is wrong by the table of functions with what is no call. -/
theorem signatureFault?_of_not_call (h : s.isCall = false) : s.signatureFault? t = none := by
  unfold isCall at h
  unfold signatureFault?
  cases hk : s.kind with
  | call => simp [hk] at h
  | _ => rfl

theorem ending_incomplete (h : s.isComplete = false) : s.ending t = [] := by
  simp [ending, h]

theorem isCall_of_isClosed (h : s.kind.isClosed = true) : s.isCall = false := by
  unfold isCall
  split
  · rename_i hk
    rw [hk] at h
    cases h
  · rfl

theorem ending_of_isClosed (h : s.kind.isClosed = true) : s.ending t = if s.isComplete then [.valid] else [] := by
  have hcomment : s.isComment = false := beq_eq_false_iff_ne.mpr fun hk => by simp [hk, Kind.isClosed] at h
  simp [ending, hcomment, signatureFault?_of_not_call (isCall_of_isClosed h)]

theorem openFault?_of_isClosed (h : s.kind.isClosed = true) : s.openFault? = none := by
  unfold openFault?
  split
  · rename_i hk
    rw [hk] at h
    cases h
  · rfl

end Symbol

/-- What is met at the ends of the symbols of trees; within a skipped stretch it is nothing. -/
def Symbol.endings (t : SignatureTable) (scans : Nat) (ss : List Symbol) : List Event :=
  if scans = 0 then (finishedAll ss).flatMap (ending t) else []

namespace Symbol

variable {t : SignatureTable} {scans : Nat} {s : Symbol}

@[simp] theorem endings_nil (t : SignatureTable) (scans : Nat) : endings t scans [] = [] := by
  simp [endings]

theorem endings_append (t : SignatureTable) (scans : Nat) (as bs : List Symbol) :
    endings t scans (as ++ bs) = endings t scans as ++ endings t scans bs := by
  unfold endings
  split <;> simp

theorem endings_one (hk : s.kind ≠ .skipped) :
    endings t scans [s] = endings t scans s.children ++ if scans = 0 then s.ending t else [] := by
  unfold endings
  split <;> simp [finishedAll_one hk]

theorem endings_skipped (hk : s.kind = .skipped) : endings t scans [s] = [] := by
  simp [endings, finishedAll_skipped hk]

theorem endings_scanning (h : scans ≠ 0) (ss : List Symbol) : endings t scans ss = [] :=
  if_neg h

end Symbol

/-- The faults of the open blocks in trees. -/
def Symbol.openFaults (ss : List Symbol) : List Diagnostic :=
  (walkAll ss).filterMap openFault?

namespace Symbol

variable {s : Symbol}

@[simp] theorem openFaults_nil : openFaults [] = [] := by
  simp [openFaults]

@[simp] theorem openFaults_append (as bs : List Symbol) : openFaults (as ++ bs) = openFaults as ++ openFaults bs := by
  simp [openFaults]

theorem openFaults_one (h : s.openFault? = none) : openFaults [s] = openFaults s.children := by
  simp [openFaults, walk_eq, h]

theorem openFaults_open {d : Diagnostic} (h : s.openFault? = some d) :
    openFaults [s] = d :: openFaults s.children := by
  simp [openFaults, walk_eq, h]

end Symbol

/-- Where in the text a symbol begins: a call with its name, an open block with what opens it. -/
structure Symbol.Begins (ls : List Lexeme) (s : Symbol) : Prop where
  call : s.isCall = true → ∃ l ∈ ls, l.token.kind = .identifier ∧ l.token.text = s.name ∧ l.token.range = s.nameRange
  openBlock : ∀ {b branches}, s.kind = .block b branches none → ∃ l ∈ ls, l.token.kind = b.openerKind ∧
    l.token.range.start = s.range.start ∧ (l.token.OpensWhole → l.token.range = s.opener b)

namespace Symbol

variable {ls ls' : List Lexeme} {s : Symbol}

theorem Begins.mono (h : s.Begins ls) (hsub : ls ⊆ ls') : s.Begins ls' := by
  refine ⟨fun hs => ?_, fun hs => ?_⟩
  · obtain ⟨l, hl, hrest⟩ := h.call hs
    exact ⟨l, hsub hl, hrest⟩
  · obtain ⟨l, hl, hrest⟩ := h.openBlock hs
    exact ⟨l, hsub hl, hrest⟩

theorem Begins.of_isClosed (h : s.kind.isClosed = true) : s.Begins ls := by
  refine ⟨fun hs => ?_, fun hs => ?_⟩
  · rw [isCall_of_isClosed h] at hs
    cases hs
  · rw [hs] at h
    cases h

theorem Begins.of_isSkipped (h : s.kind = .skipped) : s.Begins ls :=
  ⟨fun hs => by simp [isCall, h] at hs, fun hs => by simp [h] at hs⟩

/-- What holds of a symbol and of all below it holds of its tree. -/
theorem begins_one (hs : s.Begins ls) (hc : ∀ x ∈ walkAll s.children, x.Begins ls) :
    ∀ x ∈ walkAll [s], x.Begins ls := by
  rw [walkAll_singleton, walk_eq]
  exact List.forall_mem_cons.mpr ⟨hs, hc⟩

end Symbol

/-- Of what was met between two trails, those events that `p` selects, in the order in which they were met. -/
def Event.Met (p : Event → Bool) (before after : List Event) (es : List Event) : Prop :=
  ∃ met, after = met ++ before ∧ met.reverse.filter p = es

namespace Event.Met

variable {p : Event → Bool} {a b c es es' : List Event}

theorem refl (p : Event → Bool) (a : List Event) : Met p a a [] :=
  ⟨[], rfl, rfl⟩

theorem trans (hab : Met p a b es) (hbc : Met p b c es') : Met p a c (es ++ es') := by
  obtain ⟨m, rfl, rfl⟩ := hab
  obtain ⟨n, rfl, rfl⟩ := hbc
  exact ⟨n ++ m, by simp, by simp⟩

theorem one (p : Event → Bool) (a : List Event) (e : Event) : Met p a (e :: a) (if p e then [e] else []) :=
  ⟨[e], rfl, by cases h : p e <;> simp [h]⟩

/-- What `p` does not select is not told. -/
theorem none {e : Event} (h : p e = false) (a : List Event) : Met p a (e :: a) [] := by
  simpa [h] using one p a e

theorem some {e : Event} (h : p e = true) (a : List Event) : Met p a (e :: a) [e] := by
  simpa [h] using one p a e

/-- A part that was read with nothing met before it. -/
theorem after (h : Met p [] b es) (a : List Event) : Met p a (b ++ a) es := by
  obtain ⟨m, rfl, hm⟩ := h
  exact ⟨m, by simp, hm⟩

end Event.Met

namespace Cursor

variable {src : Source} {hi : Nat} {c d e : Cursor} {ss : List Symbol} {s : Symbol} {l : Lexeme} {ls : List Lexeme}

/-- A cursor in front of lexemes in line, the ranges of which are as long as their texts. -/
structure Ready (hi : Nat) (c : Cursor) : Prop where
  placed : c.Placed (fun _ => True) 0 hi
  sized : ∀ l ∈ c.rest, l.token.Sized

theorem Onward.rest_subset (h : Onward c d) : d.rest ⊆ c.rest := by
  obtain ⟨taken, hr, -⟩ := h.rest
  rw [hr]
  exact List.subset_append_right _ _

theorem Ready.onward (hc : c.Ready hi) (h : Onward c d) : d.Ready hi :=
  ⟨hc.placed.onward h, fun l hl => hc.sized l (h.rest_subset hl)⟩

theorem Ready.of_same (hc : c.Ready hi) (hr : d.rest = c.rest) (he : d.lastEnd = c.lastEnd) : d.Ready hi :=
  ⟨hc.placed.of_same hr he, hr ▸ hc.sized⟩

/-- What starts with the lexeme in front starts with the range of its token. -/
theorem Ready.opening (hc : c.Ready hi) (hl : c.rest = l :: ls) (h : Onward c.advance d) {n : Nat}
    (hn : l.token.range.stop = l.token.range.start + n) :
    (d.since l.token.range.start).opening n = l.token.range := by
  have hlen := Nat.lt_of_le_of_lt h.length_le (length_advance hl)
  have hstop := (hc.placed.behind_head ((Onward.advance c).trans h) hl hlen).1.stop
  have hmax : min (l.token.range.start + n) (max d.lastEnd l.token.range.start) = l.token.range.stop := by omega
  rw [Range.opening, Cursor.since, hmax]

theorem finish_trail (src : Source) (s : Symbol) (c : Cursor) :
    (c.finish src s).2.trail = if s.isComplete && c.scans == 0 then .valid :: c.trail else c.trail := by
  unfold finish noteValid
  cases s.isComplete <;> by_cases hs : c.scans = 0 <;> simp [hs]

theorem advance_trail (c : Cursor) : c.advance.trail = c.trail := by
  unfold Cursor.advance
  split <;> rfl

/-- The end of a symbol reports no open block. -/
theorem finish_opens {a es : List Event} (h : Event.Met Event.opensBlock a c.trail es) :
    Event.Met Event.opensBlock a (c.finish src s).2.trail es := by
  rw [finish_trail]
  split
  · exact List.append_nil es ▸ h.trans (.none rfl _)
  · exact h

/-- What has been met from one cursor to another, apart from structural faults. -/
def Tells (c d : Cursor) (es : List Event) : Prop :=
  Event.Met (!·.isStructural) c.trail d.trail es

theorem Tells.refl (c : Cursor) : Tells c c [] :=
  Event.Met.refl _ _

theorem Tells.trans {es es' : List Event} (hcd : Tells c d es) (hde : Tells d e es') : Tells c e (es ++ es') :=
  Event.Met.trans hcd hde

theorem advance_tells (c : Cursor) : Tells c c.advance [] := by
  unfold Tells
  rw [advance_trail]
  exact .refl _ _

/-- To take a lexeme tells nothing. -/
theorem Tells.of_advance {t : SignatureTable}
    (h : Tells c.advance d (Symbol.endings t c.advance.scans ss)) : Tells c d (Symbol.endings t c.scans ss) := by
  rw [← (Onward.advance c).scans]
  exact (advance_tells c).trans h

/-- The end of a complete symbol is told. -/
theorem Tells.finish {es : List Event} (h : Tells c d es) (hs : s.isComplete = true) (hd : d.scans = 0) :
    Tells c (d.finish src s).2 (es ++ [.valid]) := by
  refine h.trans ?_
  unfold Tells
  rw [finish_trail, hs, hd]
  exact .some rfl _

/-- The end of a symbol that is not complete, or that stands in a skipped stretch, is not told. -/
theorem Tells.finish_silent {es : List Event} (h : Tells c d es) (hs : s.isComplete = false ∨ d.scans ≠ 0) :
    Tells c (d.finish src s).2 es := by
  unfold Tells
  rwa [finish_trail, if_neg (by rcases hs with hs | hs <;> simp [hs])]

/-- The end of a symbol that nothing is reported about is told when it is complete. -/
theorem Tells.finish_closed {es : List Event} (h : Tells c d es) (hk : s.kind.isClosed = true) (t : SignatureTable) :
    Tells c (d.finish src s).2 (es ++ if d.scans = 0 then (d.finish src s).1.ending t else []) := by
  have hend : (d.finish src s).1.ending t = if s.isComplete then [.valid] else [] := Symbol.ending_of_isClosed hk
  rw [hend]
  by_cases hs : s.isComplete = true
  · by_cases hd : d.scans = 0
    · rw [if_pos hd, if_pos hs]
      exact h.finish hs hd
    · rw [if_neg hd, List.append_nil]
      exact h.finish_silent (.inr hd)
  · rw [if_neg hs, ite_self, List.append_nil]
    exact h.finish_silent (.inl (Bool.eq_false_iff.mpr hs))

theorem fault_tells (c : Cursor) {cause : Cause} (r : Range) (h : cause.code.isStructural = true) :
    Tells c (c.fault cause r) [] :=
  .none (congrArg (!·) h) _

end Cursor

namespace Statement
open Cursor

variable {src : Source} {hi : Nat} {c d : Cursor} {ss : List Symbol} {l : Lexeme} {ls : List Lexeme}
  {name paren : Token} {isNested isClosed : Bool} {parts : List CallPart}

/-- The name of a call stands where the call has it. -/
theorem finishCall_nameRange (hc : c.Ready hi) (hl : c.rest = l :: ls) (h : Onward c.advance d) :
    (finishCall src l.token paren isNested parts isClosed d).1.nameRange = l.token.range := by
  have ho := h.trans (checkCall_onward l.token paren (src.options.signatures.get? l.token.text) isClosed
    (isClosed && (parts.map (·.argument)).all (·.isComplete)) (parts.map (·.argument)).length d)
  exact hc.opening hl ho (hc.sized l (by simp [hl]))

/-- What is wrong with a complete call is told at its name. -/
theorem checkSignature_tells {s : Symbol} {t : SignatureTable} {arguments : List Argument}
    (hk : s.kind = .call arguments isNested) (hname : s.name = name.text) (hr : s.nameRange = name.range)
    (hc : s.isComplete = true) (d : Cursor) :
    Tells d (checkSignature name (t.get? name.text) arguments.length d) ((s.signatureFault? t).toList.map .fault) := by
  unfold checkSignature Symbol.signatureFault?
  rw [hk]
  dsimp only
  rw [hname, hr, hc]
  cases t.get? name.text with
  | none => exact .some rfl _
  | some f =>
    dsimp only
    cases f.accepts arguments.length with
    | false => exact .some rfl _
    | true => exact .refl d

/-- What is wrong with a call leaves no block open. -/
theorem checkCall_opens (name paren : Token) (signature? : Option Signature) (isClosed isComplete : Bool) (count : Nat)
    (d : Cursor) : Event.Met Event.opensBlock d.trail
      (checkCall name paren signature? isClosed isComplete count d).trail [] := by
  unfold checkCall checkSignature
  split
  · exact .none rfl _
  · split
    · split
      · exact .none rfl _
      · split
        · exact .refl _ _
        · exact .none rfl _
    · exact .refl _ _

/-- The end of a call tells what is wrong with it and that it is complete, but for skipped stretches. -/
theorem finishCall_tells (hn : (finishCall src name paren isNested parts isClosed d).1.nameRange = name.range) :
    Tells d (finishCall src name paren isNested parts isClosed d).2
      (if d.scans = 0 then (finishCall src name paren isNested parts isClosed d).1.ending src.options.signatures
        else []) := by
  generalize hs : (finishCall src name paren isNested parts isClosed d).1 = s at hn ⊢
  have hk : s.kind = .call (parts.map (·.argument)) isNested := hs ▸ rfl
  have hname : s.name = name.text := hs ▸ rfl
  have hcomplete : s.isComplete = (isClosed && (parts.map (·.argument)).all (·.isComplete)) := hs ▸ rfl
  have hcomment : s.isComment = false := by simp [Symbol.isComment, hk]
  unfold finishCall
  dsimp only
  rw [← hcomplete]
  unfold checkCall
  cases hc : s.isComplete with
  | false =>
    rw [Symbol.ending_incomplete hc, ite_self]
    refine .finish_silent ?_ (.inl rfl)
    split
    · exact fault_tells d _ rfl
    · exact .refl d
  | true =>
    have hclosed : isClosed = true := (Bool.and_eq_true_iff.mp (hcomplete.symm.trans hc)).1
    rw [hclosed, Symbol.ending, hc, hcomment]
    by_cases hscans : d.scans = 0
    · have hsame := (checkSignature_onward name (src.options.signatures.get? name.text)
        (parts.map (·.argument)).length d).scans
      simpa [hscans] using (checkSignature_tells hk hname hn hc d).finish rfl (hsame.trans hscans)
    · simpa [hscans] using Tells.finish_silent (.refl d) (.inr hscans)

end Statement

namespace Cursor.Leads
open Statement Calculation.Symbol

variable {src : Source} {hi : Nat} {c d : Cursor} {ss : List Symbol}

/-- Reading tells, apart from structural faults, how its symbols end: all those outside of skipped stretches, in the
order in which they are finished, and none within such a stretch. -/
theorem tells (h : Leads src c ss d) (hc : c.Ready hi) : Tells c d (endings src.options.signatures c.scans ss) := by
  induction h with
  | stay c => exact (endings_nil ..).symm ▸ .refl c
  | take hl => exact (endings_nil ..).symm ▸ advance_tells _
  | next hcd hde ihcd ihde =>
    rw [endings_append]
    exact (ihcd hc).trans (hcd.onward.scans ▸ ihde (hc.onward hcd.onward))
  | fault c cause r hs _ => exact (endings_nil ..).symm ▸ fault_tells c r hs
  | inside _ ih => exact ih (hc.of_same rfl rfl)
  | recording _ ih => exact (ih (hc.of_same rfl rfl)).after _
  | @finish c d s hk hd ih =>
    have hplain : s.kind ≠ .skipped := fun he => by
      rw [he] at hk
      cases hk
    have htold := ih (hc.of_same rfl rfl)
    rw [← hd.onward.scans] at htold
    rw [endings_one (s := (Cursor.finish ..).1) hplain, ← hd.onward.without.scans]
    exact Tells.finish_closed (c := c) (d := { d with scopes := c.scopes }) htold hk _
  | @call c d l ls paren isNested isClosed parts hl _ _ hd ih =>
    have hin := hd.onward.without_advance
    have htold := ih ((hc.onward (.advance c)).of_same rfl rfl)
    rw [← hd.onward.scans] at htold
    rw [endings_one (s := (finishCall ..).1) nofun, ← ((Onward.advance c).trans hin).scans]
    exact (advance_tells c).trans (Tells.trans (d := { d with scopes := c.scopes }) htold
      (finishCall_tells (finishCall_nameRange hc hl hin)))
  | @openBlock c d l ls kind body _ _ hd ih =>
    have htold : Tells c { d with scopes := c.scopes } (endings _ c.scans body.symbols) :=
      Tells.of_advance (ih ((hc.onward (.advance c)).of_same rfl rfl))
    rw [endings_one (s := (finishBlock ..).1) nofun, ending_incomplete (Bool.and_false _), ite_self]
    refine .finish_silent (htold.trans (fault_tells _ _ ?_)) (.inl (Bool.and_false _))
    exact Code.opensBlock_structural (BlockKind.openCause_opensBlock _)
  | skipped hk hincomplete hd ih =>
    have htold := ih (hc.of_same rfl rfl)
    rw [endings_scanning (Nat.succ_ne_zero _)] at htold
    rw [endings_skipped (s := (Cursor.finish ..).1) hk]
    exact .finish_silent htold (.inl hincomplete)

/-- Every call and every open block starts with a lexeme that was to come. -/
theorem begins (h : Leads src c ss d) (hc : c.Ready hi) : ∀ s ∈ walkAll ss, s.Begins c.rest := by
  induction h with
  | stay => simp
  | take => simp
  | next hcd hde ihcd ihde =>
    rw [walkAll_append, List.forall_mem_append]
    exact ⟨ihcd hc, fun s hs => (ihde (hc.onward hcd.onward) s hs).mono hcd.onward.rest_subset⟩
  | fault => simp
  | inside _ ih => exact ih (hc.of_same rfl rfl)
  | recording _ ih => exact ih (hc.of_same rfl rfl)
  | finish hk _ ih => exact begins_one (.of_isClosed hk) (ih (hc.of_same rfl rfl))
  | @call c _ _ _ _ _ _ _ hl hk _ hd ih =>
    have hsub : c.advance.rest ⊆ c.rest := (Onward.advance c).rest_subset
    refine begins_one ?_ fun s hs => (ih ((hc.onward (.advance c)).of_same rfl rfl) s hs).mono hsub
    refine ⟨fun _ => ⟨_, hl ▸ List.mem_cons_self, hk, rfl, ?_⟩, nofun⟩
    exact (finishCall_nameRange hc hl hd.onward.without_advance).symm
  | @openBlock c d l _ kind body hl hk hd ih =>
    have hsub : c.advance.rest ⊆ c.rest := (Onward.advance c).rest_subset
    refine begins_one ?_ fun s hs => (ih ((hc.onward (.advance c)).of_same rfl rfl) s hs).mono hsub
    refine ⟨nofun, fun hb => ?_⟩
    cases hb
    refine ⟨_, hl ▸ List.mem_cons_self, hk, rfl, fun hwhole => ?_⟩
    exact (hc.opening hl (hd.onward.without_advance.trans (.fault _ _ _)) (hwhole _ hk)).symm
  | skipped hk _ _ ih => exact begins_one (.of_isSkipped hk) (ih (hc.of_same rfl rfl))

/-- Every open block is reported once, with the token that opens it. -/
theorem opens (h : Leads src c ss d) (hc : c.Ready hi) (ho : ∀ l ∈ c.rest, l.token.OpensWhole) :
    ∃ es, Event.Met Event.opensBlock c.trail d.trail es ∧ es.Perm ((openFaults ss).map .fault) := by
  induction h with
  | stay c => exact ⟨[], .refl _ _, by simp⟩
  | take => exact ⟨[], (advance_trail _).symm ▸ .refl _ _, by simp⟩
  | next hcd hde ihcd ihde =>
    obtain ⟨es, hes, hperm⟩ := ihcd hc ho
    obtain ⟨es', hes', hperm'⟩ := ihde (hc.onward hcd.onward) fun l hl => ho l (hcd.onward.rest_subset hl)
    exact ⟨_, hes.trans hes', by simpa using hperm.append hperm'⟩
  | fault c cause r _ hn => exact ⟨[], .none hn _, by simp⟩
  | inside _ ih => exact ih (hc.of_same rfl rfl) ho
  | recording _ ih =>
    obtain ⟨es, hes, hperm⟩ := ih (hc.of_same rfl rfl) ho
    exact ⟨es, hes.after _, hperm⟩
  | @finish c d s hk _ ih =>
    obtain ⟨es, hes, hperm⟩ := ih (hc.of_same rfl rfl) ho
    refine ⟨es, finish_opens hes, ?_⟩
    rwa [openFaults_one (s := (Cursor.finish src s _).1) (openFault?_of_isClosed hk)]
  | @call c d l ls paren isNested isClosed parts hl hk _ hd ih =>
    obtain ⟨es, hes, hperm⟩ := ih ((hc.onward (.advance c)).of_same rfl rfl)
      fun l hl => ho l ((Onward.advance c).rest_subset hl)
    have hes : Event.Met Event.opensBlock c.trail d.trail es := advance_trail c ▸ hes
    refine ⟨_, finish_opens (hes.trans (checkCall_opens ..)), ?_⟩
    rwa [openFaults_one (s := (finishCall ..).1) rfl, List.append_nil]
  | @openBlock c d l ls kind body hl hk hd ih =>
    obtain ⟨es, hes, hperm⟩ := ih ((hc.onward (.advance c)).of_same rfl rfl)
      fun l hl => ho l ((Onward.advance c).rest_subset hl)
    have hes : Event.Met Event.opensBlock c.trail d.trail es := advance_trail c ▸ hes
    have hrange := hc.opening hl (hd.onward.without_advance.trans (.fault _ kind.openCause l.token.range))
      (ho l (hl ▸ List.mem_cons_self) kind hk)
    have hopen : (finishBlock src kind l.token body none
        (Cursor.fault { d with scopes := c.scopes } kind.openCause l.token.range)).1.openFault? =
        some (kind.openCause.spanning l.token.range) := congrArg (fun r => some (kind.openCause.spanning r)) hrange
    refine ⟨_, finish_opens (hes.trans (.some (BlockKind.openCause_opensBlock kind) _)), ?_⟩
    rw [openFaults_open hopen, List.map_cons]
    exact (hperm.append_right _).trans List.perm_append_comm
  | @skipped c d s hk _ _ ih =>
    obtain ⟨es, hes, hperm⟩ := ih (hc.of_same rfl rfl) ho
    refine ⟨es, finish_opens hes, ?_⟩
    rwa [openFaults_one (s := (Cursor.finish ..).1) (by simp [openFault?, hk, Cursor.finish])]

end Cursor.Leads

end Calculation
