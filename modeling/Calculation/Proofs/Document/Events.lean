import Mathlib.Data.List.Perm.Basic
import Calculation.Proofs.Document.Completeness
import Calculation.Proofs.Reading.Endings

/-!
All that reading a text meets, in one row: the events of its statements in order, and behind them the fault of a
comment that is open. The items of the text and the runs made of them have these events in this order; apart from
structural faults they are the ends of the symbols in the outline.
-/
namespace Calculation

namespace Item

variable {lines : LineTable} {is : List Item} {cs : List Token}

theorem ofComment_closed {t : Token} (h : t.isOpen = false) : (ofComment lines t).events = [] := by
  simp [ofComment, h]

/-- A comment without events changes none. -/
theorem events_attach {comment : Item} (h : comment.events = []) (is : List Item) :
    (attach comment is).flatMap (·.events) = is.flatMap (·.events) := by
  induction is with
  | nil => simp [attach, h]
  | cons i is ih =>
    rw [attach]
    split
    · rw [List.flatMap_cons, List.flatMap_cons, ih]
    · split
      · simp [withComment, h]
      · rw [List.flatMap_cons, h, List.nil_append]

/-- Events come in the order of statements and comments when no open comment stands in front of a statement. -/
theorem events_weave (hopen : ∀ t ∈ cs, t.isOpen = true → ∀ i ∈ is, i.range.stop ≤ t.range.start)
    (hline : cs.Pairwise fun a b => a.range.stop ≤ b.range.start) :
    (weave lines cs is).flatMap (·.events) =
      is.flatMap (·.events) ++ cs.flatMap fun t => (ofComment lines t).events := by
  induction cs generalizing is with
  | nil => simp
  | cons t cs ih =>
    obtain ⟨ht, hcs⟩ := List.forall_mem_cons.mp hopen
    obtain ⟨hfirst, hline⟩ := List.pairwise_cons.mp hline
    have hopen' : ∀ u ∈ cs, u.isOpen = true → ∀ i ∈ attach (ofComment lines t) is, i.range.stop ≤ u.range.start := by
      intro u hu ho i hi
      rcases range_of_attach hi with hr | ⟨j, hj, hr⟩
      · rw [hr, ofComment_range]
        exact hfirst u hu
      · exact hr ▸ hcs u hu ho j hj
    rw [weave_cons, ih hopen' hline, List.flatMap_cons, ← List.append_assoc]
    cases ho : t.isOpen with
    | false => rw [events_attach (ofComment_closed ho), ofComment_closed ho, List.append_nil]
    | true =>
      have hbehind : ∀ i ∈ is, i.range.stop ≤ (ofComment lines t).range.start := by
        rw [ofComment_range]
        exact ht ho
      have happend : attach (ofComment lines t) (is ++ []) = is ++ attach (ofComment lines t) [] :=
        attach_behind hbehind
      rw [List.append_nil, attach] at happend
      rw [happend, List.flatMap_append, List.flatMap_singleton]

end Item

namespace Run

theorem events_gather (x : Run) (xs : List Run) :
    (gather x xs).flatMap (·.item.events) = (x :: xs).flatMap (·.item.events) := by
  induction xs generalizing x with
  | nil => rfl
  | cons y ys ih =>
    rw [gather]
    split
    · rw [ih]
      simp [join]
    · rw [List.flatMap_cons, ih]
      rfl

/-- Runs have the events of their items, in the same order. -/
theorem events_ofItems (lines : LineTable) (is : List Item) :
    (ofItems lines is).flatMap (·.item.events) = is.flatMap (·.events) := by
  cases is with
  | nil => rfl
  | cons i is =>
    rw [ofItems, List.map_cons, events_gather, ← List.map_cons, List.flatMap_map]
    rfl

end Run

namespace Statement
open Cursor

variable {src : Source} {lo hi : Nat} {ls : List Lexeme} {i : Item}

/-- The item of a statement read from some of the lexemes. -/
def ReadFrom (src : Source) (hi : Nat) (ls : List Lexeme) (i : Item) : Prop :=
  ∃ rest d, rest ⊆ ls ∧ (Cursor.start rest).Ready hi ∧ Leads src (.start rest) i.symbols d ∧ i.events = d.trail.reverse

theorem readAll_readFrom (hin : Range.InLine lo hi (ls.map (·.token.range))) (hsized : ∀ l ∈ ls, l.token.Sized) :
    ∀ i ∈ readAll src ls, ReadFrom src hi ls i := by
  revert hin hsized
  refine readAll_rule (P := fun ls is => Range.InLine lo hi (ls.map (·.token.range)) → (∀ l ∈ ls, l.token.Sized) →
    ∀ i ∈ is, ReadFrom src hi ls i) (by simp) (fun l ls is ih hin hsized => ?_) ls
  have hready : (Cursor.start (l :: ls)).Ready hi :=
    ⟨⟨hin.mono (Nat.zero_le lo) (Nat.le_refl hi), Nat.zero_le hi, fun _ _ => ⟨trivial, trivial⟩, trivial⟩, hsized⟩
  have hsub := nextItem_sublist src l ls
  have hleads := statement_leads src (.start (l :: ls))
  refine List.forall_mem_cons.mpr ⟨⟨_, _, List.Subset.refl _, hready, hleads, rfl⟩, fun i hi => ?_⟩
  obtain ⟨rest, d, hrest, h⟩ := ih (hin.sublist (hsub.map _)) (fun x hx => hsized x (hsub.subset hx)) i hi
  exact ⟨rest, d, fun x hx => hsub.subset (hrest hx), h⟩

theorem ReadFrom.told (h : ReadFrom src hi ls i) : i.events.filter (!·.isStructural) =
    (Symbol.finishedAll i.symbols).flatMap (Symbol.ending src.options.signatures) := by
  obtain ⟨rest, d, -, hready, hleads, hevents⟩ := h
  obtain ⟨met, hmet, htold⟩ := hleads.tells hready
  have htrail : d.trail = met := hmet.trans (List.append_nil met)
  rw [hevents, htrail]
  exact htold

theorem ReadFrom.opened (h : ReadFrom src hi ls i) (ho : ∀ l ∈ ls, l.token.OpensWhole) :
    (i.events.filter Event.opensBlock).Perm ((Symbol.openFaults i.symbols).map .fault) := by
  obtain ⟨rest, d, hsub, hready, hleads, hevents⟩ := h
  obtain ⟨es, ⟨met, hmet, htold⟩, hperm⟩ := hleads.opens hready fun l hl => ho l (hsub hl)
  have htrail : d.trail = met := hmet.trans (List.append_nil met)
  rw [hevents, htrail, htold]
  exact hperm

theorem ReadFrom.begins (h : ReadFrom src hi ls i) : ∀ s ∈ Symbol.walkAll i.symbols, s.Begins ls := by
  obtain ⟨rest, d, hsub, hready, hleads, -⟩ := h
  exact fun s hs => (hleads.begins hready s hs).mono hsub

end Statement

namespace Symbol.View

variable {α : Type} {f : Symbol → List α} {comment : Symbol}

mutual

theorem finished_withComment (hf : View f) (hk : comment.kind = .comment) (hc : comment.children = []) :
    ∀ s : Symbol, (Symbol.withComment comment s).finished.flatMap f = s.finished.flatMap f
  | ⟨n, k, r, cs, c, l⟩ => by
    have hsame : f ⟨n, k, r, Symbol.insertComment comment cs, c, l⟩ = f ⟨n, k, r, cs, c, l⟩ :=
      hf.shallow ⟨n, k, r, cs, c, l⟩ _
    rw [Symbol.withComment, finished, finished]
    split
    · rfl
    · simp [finished_insertComment hf hk hc cs, hsame]

/-- A comment among symbols is not seen at the ends of symbols. -/
theorem finished_insertComment (hf : View f) (hk : comment.kind = .comment) (hc : comment.children = []) :
    ∀ ss : List Symbol, (finishedAll (Symbol.insertComment comment ss)).flatMap f = (finishedAll ss).flatMap f
  | [] => by
    rw [Symbol.insertComment, finishedAll_one (by simp [hk]), hc]
    simp [hf.comment comment hk]
  | s :: ss => by
    rw [Symbol.insertComment]
    split
    · simp [finishedAll_cons, finished_insertComment hf hk hc ss]
    · split
      · rw [finishedAll_cons, finishedAll_cons, List.flatMap_append, List.flatMap_append,
          finished_withComment hf hk hc s]
      · have hone := finishedAll_one (s := comment) (by simp [hk])
        rw [← List.singleton_append, finishedAll_append, hone, hc]
        simp [hf.comment comment hk]

end

theorem blind_finished (hf : View f) : Blind fun ss => (finishedAll ss).flatMap f :=
  ⟨fun as bs => by rw [finishedAll_append, List.flatMap_append], fun _ hk hc ss => hf.finished_insertComment hk hc ss⟩

end Symbol.View

namespace Symbol

theorem view_ending (t : SignatureTable) : View (ending t) :=
  ⟨fun _ _ => rfl, fun s hs => by simp [ending, isComment, hs]⟩

theorem view_openFault : View fun s => s.openFault?.toList :=
  ⟨fun _ _ => rfl, fun s hs => by simp [openFault?, hs]⟩

theorem blind_openFaults : Blind openFaults := by
  have hblind := view_openFault.blind
  simp only [← List.filterMap_eq_flatMap_toList] at hblind
  exact hblind

/-- Where a symbol begins is told by its name, kind and range. -/
theorem Begins.of_same {ls : List Lexeme} {s₀ s : Symbol} (h : s₀.Begins ls) (hn : s₀.name = s.name)
    (hk : s₀.kind = s.kind) (hr : s₀.range = s.range) : s.Begins ls := by
  obtain ⟨n, k, r, children, c, l⟩ := s
  obtain ⟨n₀, k₀, r₀, children₀, c₀, l₀⟩ := s₀
  cases hn
  cases hk
  cases hr
  exact ⟨h.call, h.openBlock⟩

end Symbol

namespace Outline
open Calculation.Symbol Reading

variable {options : Options} {text : String} {s : Symbol}

/-- What reading a text meets, in the order in which it is met, the fault of an open comment last. -/
def events (options : Options) (text : String) : List Event :=
  (statements options text).flatMap (·.events) ++
    (comments text).flatMap fun t => (Item.ofComment (.ofText text.toList) t).events

/-- The statements of a text with its comments between and in them. -/
def items (options : Options) (text : String) : List Item :=
  Item.ofTokens (.ofText options text.toList) (tokenize text)

theorem lexemes_inLine (text : String) :
    Range.InLine 0 (0 + Text.bytes text.toList) ((lexemes text).map (·.token.range)) :=
  ((Item.TokensInLine.lex 0 text.toList).lexemes false).ranges

theorem statements_readFrom (options : Options) (text : String) : ∀ i ∈ statements options text,
    Statement.ReadFrom (.ofText options text.toList) (0 + Text.bytes text.toList) (lexemes text) i :=
  Statement.readAll_readFrom (lexemes_inLine text) fun _ hl => Token.lex_sized (token_of_lexeme hl).1

/-- The items of a text have its events, in the same order. -/
theorem events_items (options : Options) (text : String) :
    (items options text).flatMap (·.events) = events options text := by
  refine Item.events_weave (fun t ht ho i hi => ?_) ?_
  · have hcut := Statement.readAll_cut (.ofText options text.toList) (v := lexemes text) (r := [])
      (by rw [List.append_nil]; exact lexemes_inLine text)
    rcases hcut with ⟨_, _, -, x, hx, -⟩ | ⟨is, his, hstops⟩
    · cases hx
    · simp only [List.append_nil, Statement.readAll_nil] at his
      obtain ⟨l, hl, hstop⟩ := hstops i (his ▸ hi)
      exact hstop ▸ before_open hl ht ho
  · have hline := (Token.lex_inLine 0 text.toList).1.pairwise
    exact (List.pairwise_map.mp hline).sublist List.filter_sublist

/-- Apart from structural faults, what is met are the ends of the symbols in the outline, those of skipped stretches
aside, in the order in which they are finished. -/
theorem events_told (options : Options) (text : String) :
    (events options text).filter (!·.isStructural) =
      (finishedAll (ofText options text).symbols).flatMap (ending options.signatures) := by
  have hcomments : ((comments text).flatMap fun t => (Item.ofComment (.ofText text.toList) t).events).filter
      (!·.isStructural) = [] := by
    simp only [List.filter_eq_nil_iff, List.mem_flatMap]
    rintro e ⟨t, -, he⟩
    rw [Item.ofComment_events _ t e he]
    simp [Event.isStructural, Diagnostic.isStructural, Cause.spanning, Cause.code, Code.isStructural, Code.number]
  have hblind := (view_ending options.signatures).blind_finished
  have hitems : ((statements options text).flatMap fun i => i.events.filter (!·.isStructural)) =
      (statements options text).flatMap fun i => (finishedAll i.symbols).flatMap (ending options.signatures) :=
    List.flatMap_congr fun i hi => (statements_readFrom options text i hi).told
  rw [events, List.filter_append, hcomments, List.append_nil, List.filter_flatMap, hitems]
  exact ((blind_symbols hblind options text).trans (hblind.flatMap Item.symbols _)).symm

/-- Every open block of the outline is reported once, when the tokens that open blocks are as long as the blocks take
them to be. -/
theorem events_opened (options : Options) (ho : ∀ l ∈ lexemes text, l.token.OpensWhole) :
    ((events options text).filter Event.opensBlock).Perm ((openFaults (ofText options text).symbols).map .fault) := by
  have hcomments : ((comments text).flatMap fun t => (Item.ofComment (.ofText text.toList) t).events).filter
      Event.opensBlock = [] := by
    simp only [List.filter_eq_nil_iff, List.mem_flatMap]
    rintro e ⟨t, -, he⟩
    rw [Item.ofComment_events _ t e he]
    exact Bool.false_ne_true
  have hsymbols := (blind_symbols blind_openFaults options text).trans (blind_openFaults.flatMap Item.symbols _)
  rw [events, List.filter_append, hcomments, List.append_nil, List.filter_flatMap, hsymbols, List.map_flatMap]
  exact List.Perm.flatMap_left _ fun i hi => (statements_readFrom options text i hi).opened ho

/-- The faults of the outline are those that were met. -/
theorem faults_perm (options : Options) (text : String) :
    (ofText options text).faults.Perm (Event.faults (events options text)) := by
  have hfaults : (ofText options text).faults = _ := congrArg Reading.faults (reading_eq_ofParts options text)
  have hevents := (Run.events_ofItems (.ofText text.toList) (items options text)).trans (events_items options text)
  rw [hfaults, ← hevents, Event.faults, List.filterMap_flatMap]
  refine (List.Perm.of_eq (List.flatMap_map ..)).trans (List.Perm.flatMap_left _ fun r _ => ?_)
  exact List.mergeSort_perm _ _

/-- Every call and every open block in the outline starts with a token of the text. -/
theorem walk_begins (options : Options) (text : String) :
    ∀ s ∈ (ofText options text).walk, s.Begins (lexemes text) := by
  intro s hs
  have hshow := (show_symbols (P := fun x => x.name = s.name ∧ x.kind = s.kind ∧ x.range = s.range)
    (fun _ _ => Iff.rfl) options text).mp ⟨s, hs, rfl, rfl, rfl⟩
  rw [show_flatMap] at hshow
  rcases hshow with ⟨t, -, x, hx, hn, hk, hr⟩ | ⟨i, hi, x, hx, hn, hk, hr⟩
  · obtain ⟨c, hc, hkind, hchildren⟩ := Item.ofComment_symbols (.ofText text.toList) t
    rw [hc, walkAll_singleton, walk_eq, hchildren, walkAll_nil, List.mem_singleton] at hx
    have hcomment : s.kind = .comment := hk.symm.trans (hx ▸ hkind)
    exact ⟨fun h => by simp [isCall, hcomment] at h, fun h => by simp [hcomment] at h⟩
  · exact ((statements_readFrom options text i hi).begins x hx).of_same hn hk hr

end Outline

end Calculation
