import Calculation.Proofs.Diagnostic.Placing
import Calculation.Proofs.Document.Accepted
import Calculation.Proofs.Document.Events
import Calculation.Proofs.Layout.Matching

/-!
Two layouts of one text. Blanks and comments may be others, and so may the blank lines in front of the first token; then
but for the comments the symbols are the same, and so are the faults but for those of open comments, each at the place
that corresponds to its own.
-/
namespace Calculation

namespace Matching
open Statement Diagnostic

variable {src src' : Source} {m : Matching src src'}

theorem Ranges.start {r r' : Range} (h : m.Ranges r r') :
    ∃ t u, m.Pair t u ∧ r.start = t.range.start ∧ r'.start = u.range.start := by
  cases h with
  | run hfirst => exact ⟨_, _, hfirst, rfl, rfl⟩
  | empty h => exact ⟨_, _, h, rfl, rfl⟩

theorem Ranges.stop {r r' : Range} (h : m.Ranges r r') (hproper : r.start < r.stop) :
    ∃ t u, m.Pair t u ∧ r.stop = t.range.stop ∧ r'.stop = u.range.stop := by
  cases h with
  | run _ hlast => exact ⟨_, _, hlast, rfl, rfl⟩
  | empty h => exact absurd hproper (Nat.lt_irrefl _)

theorem Ranges.proper {r r' : Range} (h : m.Ranges r r') (hproper : r.start < r.stop) : r'.start < r'.stop := by
  cases h with
  | run _ _ _ h' => exact h'
  | empty => exact absurd hproper (Nat.lt_irrefl _)

/-- Tokens stand to one another as those do that they correspond to. -/
theorem places_alike {t u t' u' : Token} (h : m.Pair t u) (h' : m.Pair t' u') :
    ((u.range.start < u'.range.start ↔ t.range.start < t'.range.start) ∧
      (u.range.start = u'.range.start ↔ t.range.start = t'.range.start)) ∧
    (u.range.stop < u'.range.stop ↔ t.range.stop < t'.range.stop) ∧
      (u.range.stop = u'.range.stop ↔ t.range.stop = t'.range.stop) := by
  have hproper := m.proper h
  have hproper' := m.proper h'
  rcases m.order h h' with ⟨rfl, rfl⟩ | hbefore | hbehind
  all_goals refine ⟨⟨?_, ?_⟩, ?_, ?_⟩ <;> omega

theorem precedes_iff {d d' e e' : Diagnostic} (hd : m.Diagnostics d d') (he : m.Diagnostics e e') :
    Precedes d' e' ↔ Precedes d e := by
  obtain ⟨t, u, ht, hstart, hstart'⟩ := hd.range.start
  obtain ⟨t₁, u₁, ht₁, hstart₁, hstart₁'⟩ := he.range.start
  obtain ⟨x, y, hx, hstop, hstop'⟩ := hd.range.stop hd.proper
  obtain ⟨x₁, y₁, hx₁, hstop₁, hstop₁'⟩ := he.range.stop he.proper
  obtain ⟨hstarts, -⟩ := places_alike ht ht₁
  obtain ⟨-, hstops⟩ := places_alike hx hx₁
  simp only [Precedes, placeKey, keyLe, Bool.or_eq_true, Bool.and_eq_true, decide_eq_true_eq, beq_iff_eq, hd.code,
    he.code, hstart, hstart', hstart₁, hstart₁', hstop, hstop', hstop₁, hstop₁', hstarts.1, hstarts.2, hstops.1,
    hstops.2]

theorem inPlaceOrder_matches {ds ds' : List Diagnostic} (h : List.Forall₂ m.Diagnostics ds ds') :
    List.Forall₂ m.Diagnostics (inPlaceOrder ds) (inPlaceOrder ds') := by
  have hinsert : ∀ {d d' : Diagnostic} {es es' : List Diagnostic}, m.Diagnostics d d' →
      List.Forall₂ m.Diagnostics es es' →
      List.Forall₂ m.Diagnostics (es.orderedInsert Precedes d) (es'.orderedInsert Precedes d') := by
    intro d d' es es' hd hes
    induction hes with
    | nil => exact .cons hd .nil
    | cons he hes ih =>
      rw [List.orderedInsert_cons, List.orderedInsert_cons]
      simp only [precedes_iff hd he]
      split
      · exact .cons hd (.cons he hes)
      · exact .cons he ih
  induction h with
  | nil =>
    rw [inPlaceOrder_nil]
    exact .nil
  | cons hd _ ih =>
    rw [inPlaceOrder_cons, inPlaceOrder_cons]
    exact hinsert hd ih

theorem faults_matches {es es' : List Event} (h : List.Forall₂ m.Events es es') :
    List.Forall₂ m.Diagnostics (Event.faults es) (Event.faults es') := by
  refine List.rel_filterMap (fun e e' he => ?_) h
  cases he with
  | fault hd => exact .some hd
  | valid => exact .none

/-- On both sides they point at more than nothing. -/
theorem faults_proper {ds ds' : List Diagnostic} (h : List.Forall₂ m.Diagnostics ds ds') :
    (∀ d ∈ ds, d.range.start < d.range.stop) ∧ ∀ d ∈ ds', d.range.start < d.range.stop := by
  induction h with
  | nil => exact ⟨List.forall_mem_nil _, List.forall_mem_nil _⟩
  | cons hd _ ih =>
    refine ⟨List.forall_mem_cons.mpr ⟨hd.proper, ih.1⟩, List.forall_mem_cons.mpr ⟨?_, ih.2⟩⟩
    exact hd.range.proper hd.proper

theorem isComment_of_kinds {k k' : Symbol.Kind} (h : m.Kinds k k') :
    (k == .comment) = false ∧ (k' == .comment) = false := by
  cases h <;> exact ⟨rfl, rfl⟩

mutual

theorem withoutComments_matches : ∀ {s s' : Symbol}, m.Symbols s s' →
    m.Symbols s.withoutComments s'.withoutComments
  | ⟨_, _, _, _, _, _⟩, _, .mk hkind hrange hchildren => .mk hkind hrange (withoutCommentsAll_matches hchildren)

/-- No symbols that correspond are comments. -/
theorem withoutCommentsAll_matches : ∀ {ss ss' : List Symbol}, m.Trees ss ss' →
    m.Trees (Symbol.withoutCommentsAll ss) (Symbol.withoutCommentsAll ss')
  | [], _, .nil => .nil
  | s :: ss, s' :: ss', .cons hs hss => by
    have hcomment : s.isComment = false ∧ s'.isComment = false := by
      cases hs with
      | mk hkind => exact isComment_of_kinds hkind
    rw [Symbol.withoutCommentsAll, Symbol.withoutCommentsAll, hcomment.1, hcomment.2]
    exact .cons (withoutComments_matches hs) (withoutCommentsAll_matches hss)

end

end Matching

/-- What a token is, wherever it stands. -/
def Token.content (t : Token) : Token.Kind × String × Bool :=
  (t.kind, t.text, t.isOpen)

namespace Outline
open Calculation.Symbol Matching

variable {text text' : String}

/-- The tokens of a text that statements are read from. -/
def tokens (text : String) : List Token :=
  (lexemes text).map (·.token)

theorem tokens_inLine (text : String) : (tokens text).Pairwise fun a b => a.range.stop ≤ b.range.start :=
  List.pairwise_map.mpr (lexemes_lined text).apart

theorem tokens_proper {t : Token} (ht : t ∈ tokens text) : t.range.start < t.range.stop := by
  obtain ⟨l, hl, rfl⟩ := List.mem_map.mp ht
  exact (lexemes_lined text).proper l hl

/-- One text has the tokens of the other. A token behind the first one stands behind a blank line if it does so in the
other text. -/
structure Relaid (text text' : String) : Prop where
  contents : (tokens text').map Token.content = (tokens text).map Token.content
  blanks : (lexemes text').tail.map (·.afterBlank) = (lexemes text).tail.map (·.afterBlank)

/-- Of two tokens, the one that stands first has its counterpart first in another list. -/
theorem zip_order {ts us : List Token} (hts : ts.Pairwise fun a b => a.range.stop ≤ b.range.start)
    (hus : us.Pairwise fun a b => a.range.stop ≤ b.range.start) {t u t' u' : Token} (h : (t, u) ∈ ts.zip us)
    (h' : (t', u') ∈ ts.zip us) : (t = t' ∧ u = u') ∨
      (t.range.stop ≤ t'.range.start ∧ u.range.stop ≤ u'.range.start) ∨
      (t'.range.stop ≤ t.range.start ∧ u'.range.stop ≤ u.range.start) := by
  induction ts generalizing us with
  | nil => cases h
  | cons x ts ih =>
    cases us with
    | nil => cases h
    | cons y us =>
      obtain ⟨hx, hts⟩ := List.pairwise_cons.mp hts
      obtain ⟨hy, hus⟩ := List.pairwise_cons.mp hus
      rw [List.zip_cons_cons, List.mem_cons, Prod.mk.injEq] at h h'
      rcases h with ⟨rfl, rfl⟩ | h <;> rcases h' with ⟨rfl, rfl⟩ | h'
      · exact .inl ⟨rfl, rfl⟩
      · obtain ⟨ht', hu'⟩ := List.of_mem_zip h'
        exact .inr (.inl ⟨hx t' ht', hy u' hu'⟩)
      · obtain ⟨ht, hu⟩ := List.of_mem_zip h
        exact .inr (.inr ⟨hx t ht, hy u hu⟩)
      · exact ih hts hus h h'

namespace Relaid

theorem contents_forall₂ (h : Relaid text text') :
    List.Forall₂ (fun t u => Token.content u = Token.content t) (tokens text) (tokens text') := by
  have hcontents := h.contents.symm
  rw [← List.forall₂_eq_eq_eq, List.forall₂_map_left_iff, List.forall₂_map_right_iff] at hcontents
  exact hcontents.imp fun _ _ => Eq.symm

/-- The tokens of the texts one by one. -/
def matching (h : Relaid text text') (options : Options) :
    Matching (.ofText options text.toList) (.ofText options text'.toList) where
  options := rfl
  Pair t u := (t, u) ∈ (tokens text).zip (tokens text')
  kind ht := congrArg Prod.fst (List.forall₂_zip h.contents_forall₂ ht)
  text ht := congrArg (·.2.1) (List.forall₂_zip h.contents_forall₂ ht)
  isOpen ht := congrArg (·.2.2) (List.forall₂_zip h.contents_forall₂ ht)
  proper ht := (List.of_mem_zip ht).imp tokens_proper tokens_proper
  order := zip_order (tokens_inLine text) (tokens_inLine text')

/-- But for the first of them, the lexemes correspond with the blank lines in front of them. -/
theorem lexemes_matches (h : Relaid text text') (options : Options) :
    ∃ blank, List.Forall₂ (h.matching options).likeness.Lexemes (lexemes text)
      (Statement.reblank blank (lexemes text')) := by
  have hpairs : List.Forall₂ (h.matching options).Pair (tokens text) (tokens text') :=
    List.forall₂_iff_zip.mpr ⟨h.contents_forall₂.length_eq, fun hp => hp⟩
  have hblanks := h.blanks.symm
  rw [tokens, tokens, List.forall₂_map_left_iff, List.forall₂_map_right_iff] at hpairs
  rw [← List.forall₂_eq_eq_eq, List.forall₂_map_left_iff, List.forall₂_map_right_iff] at hblanks
  generalize lexemes text = ls, lexemes text' = ls' at hpairs hblanks
  cases hpairs with
  | nil => exact ⟨false, .nil⟩
  | @cons l l' ls ls' hl hls =>
    refine ⟨l.afterBlank, .cons ⟨hl, rfl⟩ ?_⟩
    rw [List.tail_cons, List.tail_cons] at hblanks
    induction hls with
    | nil => exact .nil
    | cons hx _ ih =>
      obtain ⟨hb, hblanks⟩ := List.forall₂_cons.mp hblanks
      exact .cons ⟨hx, hb.symm⟩ (ih hblanks)

theorem statements_matches (h : Relaid text text') (options : Options) :
    List.Forall₂ (h.matching options).likeness.Items (statements options text) (statements options text') := by
  obtain ⟨blank, hlexemes⟩ := h.lexemes_matches options
  have hread := Likeness.readAll_alike hlexemes (lexemes_lined text).apart (.inl rfl)
  rw [Statement.readAll_reblank] at hread
  exact hread

end Relaid

/-- Faults that no comment is to blame for. -/
def isOfStatement (d : Diagnostic) : Bool :=
  d.code != .openComment

theorem faults_flatMap {α : Type} (f : α → List Event) (as : List α) :
    Event.faults (as.flatMap f) = as.flatMap fun a => Event.faults (f a) :=
  List.filterMap_flatMap

/-- Runs in order have their faults of one sort in the order of the text if these point at more than nothing. -/
theorem faults_ofRuns {lines : LineTable} {lo hi : Nat} {rs : List Run} (h : Piece.InOrder lines lo hi (rs.map .ofRun))
    {es : List Event} (hes : rs.flatMap (·.item.events) = es) (p : Diagnostic → Bool)
    (hproper : ∀ d ∈ (Event.faults es).filter p, d.range.start < d.range.stop) :
    ((rs.map Piece.ofRun).flatMap (·.faults)).filter p = Diagnostic.inPlaceOrder ((Event.faults es).filter p) := by
  subst hes
  have hpicked : ∀ r : Run, (Piece.ofRun r).faults.filter p =
      Diagnostic.inPlaceOrder ((Event.faults r.item.events).filter p) := fun r =>
    Diagnostic.inPlaceOrder_filter p (Event.faults r.item.events)
  have hinLine : rs.Pairwise fun a b => (Piece.ofRun a).range.stop ≤ (Piece.ofRun b).range.start :=
    List.pairwise_map.mp (List.pairwise_map.mp h.inLine.pairwise)
  have hwithin : ∀ r ∈ rs, ∀ d ∈ Event.faults r.item.events,
      d.Within (Piece.ofRun r).range.start (Piece.ofRun r).range.stop := fun r hr d hd =>
    (h.sound _ (List.mem_map_of_mem hr)).faults d (List.mem_mergeSort.mpr hd)
  rw [faults_flatMap, List.filter_flatMap] at hproper ⊢
  rw [List.flatMap_map, List.filter_flatMap]
  simp only [hpicked]
  refine Diagnostic.inPlaceOrder_flatMap _ (hinLine.imp_of_mem fun {a b} ha hb hle d hd e he => ?_)
  have hd' := hwithin a ha d (List.mem_filter.mp hd).1
  have he' := hwithin b hb e (List.mem_filter.mp he).1
  have hlt := hproper d (List.mem_flatMap.mpr ⟨a, ha, hd⟩)
  have hstop := hd'.range.2.2
  have hstart := he'.range.1
  exact Diagnostic.precedes_of_lt (by omega)

/-- The faults of the statements, in the order of the text. -/
theorem faults_ofStatement (options : Options) (text : String)
    (hproper : ∀ d ∈ Event.faults ((statements options text).flatMap (·.events)), d.range.start < d.range.stop) :
    (ofText options text).faults.filter isOfStatement = Diagnostic.inPlaceOrder
      ((Event.faults ((statements options text).flatMap (·.events))).filter isOfStatement) := by
  have hfaults : (ofText options text).faults = _ := congrArg Reading.faults (reading_ofText options text)
  have hin := Piece.ofText_inOrder options text.toList
  have hevents : (Run.ofItems (.ofText text.toList) (items options text)).flatMap (·.item.events) =
      events options text := (Run.events_ofItems _ _).trans (events_items options text)
  have hcomments : (Event.faults ((comments text).flatMap fun t =>
      (Item.ofComment (.ofText text.toList) t).events)).filter isOfStatement = [] := by
    refine List.filter_eq_nil_iff.mpr fun d hd => ?_
    obtain ⟨e, he, hed⟩ := List.mem_filterMap.mp hd
    obtain ⟨t, -, he⟩ := List.mem_flatMap.mp he
    rw [Item.ofComment_events _ t e he] at hed
    cases hed
    exact Bool.false_ne_true
  have hsame : (Event.faults (events options text)).filter isOfStatement =
      (Event.faults ((statements options text).flatMap (·.events))).filter isOfStatement := by
    rw [events, Event.faults, List.filterMap_append, List.filter_append]
    exact (congrArg _ hcomments).trans (List.append_nil _)
  rw [hfaults, ← hsame]
  refine faults_ofRuns hin hevents isOfStatement fun d hd => ?_
  rw [hsame] at hd
  exact hproper d (List.mem_filter.mp hd).1

/-- Comments and layout change nothing but places. Two texts with the same tokens, those behind the first one behind
blank lines in the one if in the other, are read alike: but for the comments the symbols correspond one to one and so do
the faults, in their order, but for those of open comments. Symbols and faults that correspond have their ranges between
the same tokens and agree in all else, except that the lines and sources at these ranges are those of each text. -/
theorem Relaid.reads_alike (h : Relaid text text') (options : Options) :
    (h.matching options).Trees (withoutCommentsAll (ofText options text).symbols)
        (withoutCommentsAll (ofText options text').symbols) ∧
      List.Forall₂ (h.matching options).Diagnostics ((ofText options text).faults.filter isOfStatement)
        ((ofText options text').faults.filter isOfStatement) := by
  have hstatements := h.statements_matches options
  constructor
  · rw [blind_symbols blind_withoutComments, blind_symbols blind_withoutComments]
    exact withoutCommentsAll_matches (List.rel_flatMap hstatements fun _ _ hi => hi.symbols)
  · have hfaults := faults_matches (List.rel_flatMap hstatements fun _ _ hi => hi.events)
    have hproper := faults_proper hfaults
    rw [faults_ofStatement options text hproper.1, faults_ofStatement options text' hproper.2]
    refine inPlaceOrder_matches (List.rel_filter (fun d d' hd => ?_) hfaults)
    have hsort : isOfStatement d = isOfStatement d' := by rw [isOfStatement, isOfStatement, hd.code]
    exact iff_of_eq (congrArg (· = true) hsort)

/-- For instance with an open comment behind it, and statements on one line or on many. The parenthesis that is not
closed is reported in both. -/
theorem reads_alike_commented :
    ((ofText .default "IF [A] /* a */ THEN SUM([B] END\n\n1 + 2 /*").faults.filter isOfStatement).map (·.code) =
      [.openParenthesis] ∧
    ∃ h : Relaid "IF [A] /* a */ THEN SUM([B] END\n\n1 + 2 /*" "\n\nIF[A]\n  THEN SUM( // b\n  [B]\nEND\n\n1+2",
      (h.matching .default).Trees
          (withoutCommentsAll (ofText .default "IF [A] /* a */ THEN SUM([B] END\n\n1 + 2 /*").symbols)
          (withoutCommentsAll (ofText .default "\n\nIF[A]\n  THEN SUM( // b\n  [B]\nEND\n\n1+2").symbols) ∧
        List.Forall₂ (h.matching .default).Diagnostics
          ((ofText .default "IF [A] /* a */ THEN SUM([B] END\n\n1 + 2 /*").faults.filter isOfStatement)
          ((ofText .default "\n\nIF[A]\n  THEN SUM( // b\n  [B]\nEND\n\n1+2").faults.filter isOfStatement) := by
  have h : Relaid "IF [A] /* a */ THEN SUM([B] END\n\n1 + 2 /*"
      "\n\nIF[A]\n  THEN SUM( // b\n  [B]\nEND\n\n1+2" := ⟨by decide +kernel, by decide +kernel⟩
  exact ⟨by decide +kernel, h, h.reads_alike .default⟩

end Outline
end Calculation
