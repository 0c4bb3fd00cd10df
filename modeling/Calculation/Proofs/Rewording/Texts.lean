import Calculation.Proofs.Diagnostic.Gist
import Calculation.Proofs.Document.Whole
import Calculation.Proofs.Rewording.Basic

namespace Calculation

namespace Rewording
open Calculation.Symbol

variable {src src' : Source} {m : Rewording src src'}

mutual

theorem Symbols.refl : ∀ s : Symbol, m.Symbols s s
  | ⟨_, k, _, cs, _, _⟩ => .mk rfl (.same k) (Trees.refl cs)

theorem Trees.refl : ∀ ss : List Symbol, m.Trees ss ss
  | [] => .nil
  | s :: ss => .cons (Symbols.refl s) (Trees.refl ss)

end

theorem Events.refl (e : Event) : m.Events e e := by
  cases e with
  | fault d => exact .fault ⟨rfl, rfl, rfl, fun _ => rfl⟩
  | valid => exact .valid

theorem Items.refl (i : Item) : m.Items i i :=
  ⟨rfl, rfl, Trees.refl i.symbols, List.forall₂_same.mpr fun e _ => Events.refl e⟩

mutual

theorem withComment_alike (comment : Symbol) : ∀ {s s' : Symbol}, m.Symbols s s' →
    m.Symbols (withComment comment s) (withComment comment s')
  | ⟨_, _, _, _, _, _⟩, _, .mk hname hkind hchildren => .mk hname hkind (insertComment_alike comment hchildren)

theorem insertComment_alike (comment : Symbol) : ∀ {ss ss' : List Symbol}, m.Trees ss ss' →
    m.Trees (insertComment comment ss) (insertComment comment ss')
  | [], _, .nil => .cons (Symbols.refl comment) .nil
  | s :: ss, s' :: ss', .cons hs hss => by
    rw [insertComment, insertComment, hs.range]
    split
    · exact .cons hs (insertComment_alike comment hss)
    · split
      · exact .cons (withComment_alike comment hs) hss
      · exact .cons (Symbols.refl comment) (.cons hs hss)

end

theorem Items.withComment (comment : Item) {i i' : Item} (h : m.Items i i') :
    m.Items (i.withComment comment) (i'.withComment comment) := by
  refine ⟨h.range, h.isStatement, ?_, List.rel_append h.events (Items.refl comment).events⟩
  have hsymbols := h.symbols
  unfold Item.withComment
  dsimp only
  generalize i.symbols = ss, i'.symbols = ss' at hsymbols
  induction comment.symbols generalizing ss ss' with
  | nil => exact hsymbols
  | cons s rest ih => exact ih _ _ (insertComment_alike s hsymbols)

variable {is is' : List Item}

theorem attach_alike (comment : Item) (h : List.Forall₂ m.Items is is') :
    List.Forall₂ m.Items (Item.attach comment is) (Item.attach comment is') := by
  induction h with
  | nil => exact .cons (Items.refl comment) .nil
  | cons hi his ih =>
    rw [Item.attach, Item.attach, hi.range]
    split
    · exact .cons hi ih
    · split
      · exact .cons (hi.withComment comment) his
      · exact .cons (Items.refl comment) (.cons hi his)

theorem weave_alike (lines : LineTable) (comments : List Token) (h : List.Forall₂ m.Items is is') :
    List.Forall₂ m.Items (Item.weave lines comments is) (Item.weave lines comments is') := by
  unfold Item.weave
  induction comments.map (Item.ofComment lines) generalizing is is' with
  | nil => exact h
  | cons comment rest ih => exact ih (attach_alike comment h)

structure Runs (m : Rewording src src') (r r' : Run) : Prop where
  firstLine : r'.firstLine = r.firstLine
  lastLine : r'.lastLine = r.lastLine
  statements : r'.statements = r.statements
  item : m.Items r.item r'.item

theorem ofItem_alike (lines : LineTable) {i i' : Item} (h : m.Items i i') :
    m.Runs (Run.ofItem lines i) (Run.ofItem lines i') := by
  unfold Run.ofItem
  rw [h.range, h.isStatement]
  exact ⟨rfl, rfl, rfl, h⟩

theorem Runs.join {a a' b b' : Run} (ha : m.Runs a a') (hb : m.Runs b b') : m.Runs (a.join b) (a'.join b') := by
  have hrange : a'.item.range.cover b'.item.range = a.item.range.cover b.item.range := by
    rw [ha.item.range, hb.item.range]
  have hlast : max a'.lastLine b'.lastLine = max a.lastLine b.lastLine := by rw [ha.lastLine, hb.lastLine]
  have hcount : a'.statements + b'.statements = a.statements + b.statements := by rw [ha.statements, hb.statements]
  exact ⟨ha.firstLine, hlast, hcount, hrange, ha.item.isStatement, List.rel_append ha.item.symbols hb.item.symbols,
    List.rel_append ha.item.events hb.item.events⟩

theorem gather_alike {before before' : Run} {rs rs' : List Run} (hbefore : m.Runs before before')
    (h : List.Forall₂ m.Runs rs rs') : List.Forall₂ m.Runs (Run.gather before rs) (Run.gather before' rs') := by
  induction h generalizing before before' with
  | nil => exact .cons hbefore .nil
  | cons hr _ ih =>
    rw [Run.gather, Run.gather, hr.firstLine, hbefore.lastLine]
    split
    · exact ih (hbefore.join hr)
    · exact .cons hbefore (ih hr)

theorem ofItems_alike (lines : LineTable) (h : List.Forall₂ m.Items is is') :
    List.Forall₂ m.Runs (Run.ofItems lines is) (Run.ofItems lines is') := by
  have hruns : List.Forall₂ m.Runs (is.map (Run.ofItem lines)) (is'.map (Run.ofItem lines)) :=
    List.rel_map (fun _ _ hi => ofItem_alike lines hi) h
  unfold Run.ofItems
  generalize is.map (Run.ofItem lines) = rs, is'.map (Run.ofItem lines) = rs' at hruns
  cases hruns with
  | nil => exact .nil
  | cons hr hrs => exact gather_alike hr hrs

theorem Diagnostics.gist {d e : Diagnostic} (h : m.Diagnostics d e) : e.gist = d.gist := by
  rw [Diagnostic.gist, Diagnostic.gist, h.code, h.severity, h.range]

theorem faults_gist {es es' : List Event} (h : List.Forall₂ m.Events es es') :
    (Event.faults es').map Diagnostic.gist = (Event.faults es).map Diagnostic.gist := by
  induction h with
  | nil => rfl
  | cons he _ ih =>
    cases he with
    | fault hd => exact congrArg₂ List.cons hd.gist ih
    | valid => exact ih

theorem pieces_alike {rs rs' : List Run} (h : List.Forall₂ m.Runs rs rs') :
    m.Trees (Reading.ofPieces (rs.map .ofRun)).symbols (Reading.ofPieces (rs'.map .ofRun)).symbols ∧
    (Reading.ofPieces (rs'.map .ofRun)).faults.map Diagnostic.gist =
      (Reading.ofPieces (rs.map .ofRun)).faults.map Diagnostic.gist := by
  induction h with
  | nil => exact ⟨.nil, rfl⟩
  | cons hr _ ih =>
    obtain ⟨hsymbols, hfaults⟩ := ih
    refine ⟨List.rel_append hr.item.symbols hsymbols, ?_⟩
    simp only [Reading.ofPieces, List.map_cons, List.flatMap_cons, List.map_append] at hfaults ⊢
    exact congrArg₂ _ (Diagnostic.inPlaceOrder_gist (faults_gist hr.item.events)) hfaults

/-- Texts are alike if their statements are, and their comments are the same and their lines as long. -/
theorem ofText_alike {options options' : Options} {text text' : String}
    {m : Rewording (.ofText options text.toList) (.ofText options' text'.toList)}
    (hcomments : Outline.comments text' = Outline.comments text)
    (h : List.Forall₂ m.Items (Outline.statements options text) (Outline.statements options' text')) :
    m.Trees (Outline.ofText options text).symbols (Outline.ofText options' text').symbols ∧
    (Outline.ofText options' text').faults.map Diagnostic.gist =
      (Outline.ofText options text).faults.map Diagnostic.gist := by
  have hlines : LineTable.ofText text'.toList = LineTable.ofText text.toList := m.lines
  rw [Outline.ofText_eq_ofParts, Outline.ofText_eq_ofParts, hlines, hcomments]
  exact pieces_alike (ofItems_alike _ (weave_alike _ _ h))

end Rewording
end Calculation
