import Calculation.Proofs.Diagnostic.Distinct
import Calculation.Proofs.Edit.Clearance

/-!
The order of a whole document. Every outline that reading a text gives, or reading it again after any number of
edits, nests properly: its roots stand in line, so do the children of each symbol and the parts of each block, and
nothing in it points outside the text.
-/
namespace Calculation

namespace Outline

/-- The outlines of a text that come from reading some text and following its edits to this one. The settings
may be others at each step. -/
inductive Reachable : String → Outline → Prop
  | read (options : Options) (text : String) : Reachable text (ofText options text)
  | again (options : Options) (threshold : Nat) {old : String} {previous : Outline}
    (h : Reachable old previous) (new : String) : Reachable new (reparse options threshold old previous new)
  | answered {options : Options} {threshold : Nat} {isCancelled : Bool} {old new : String} {previous o : Outline}
    (h : Reachable old previous) (ho : reparse? options threshold isCancelled old previous new = some o) :
    Reachable new o

/-- An outline that is made of pieces in order, which span their symbols. -/
structure Pieced (text : String) (o : Outline) (ps : List Piece) : Prop where
  reading : Splice.reading o = .ofPieces ps
  inOrder : Piece.InOrder (LineTable.ofText text.toList) 0 (Text.bytes text.toList) ps
  spans : ∀ p ∈ ps, p.Spans
  recovery : o.recovery = .ofTallies (ps.map (·.tally))
  diagnostics : o.diagnostics = Diagnostic.canonical o.faults

variable {text old new : String} {o previous : Outline} {ps : List Piece}

theorem ofReading_pieced (h : Piece.InOrder (LineTable.ofText text.toList) 0 (Text.bytes text.toList) ps)
    (hspans : ∀ p ∈ ps, p.Spans) (lineCount : Nat) : (ofReading (.ofPieces ps) lineCount).Pieced text ps :=
  ⟨rfl, h, hspans, congrArg Recovery.ofTallies (Piece.map_segments (fun _ _ _ => rfl) 0 0 ps), rfl⟩

/-- A property of texts and their pieces that reading a text gives and that every splice keeps. -/
structure Lasting (Q : List Char → List Piece → Prop) : Prop where
  read : ∀ options cs, Q cs (Reading.pieces ⟨options, cs, LineTable.ofText cs⟩ (Token.lex 0 cs))
  splice : ∀ {e : Splice.Edited} {old : List Char} {o : Outline} {stop cut : Nat} {tokens : List Token}
    {before removed added behind : List Char} {ps : List Piece}, Splice.Spliced e old o stop tokens cut →
    e.change.Parts old e.text before removed added behind → e.lines = LineTable.ofText e.text →
    Splice.reading e.previous = .ofPieces ps → Piece.InOrder (LineTable.ofText old) 0 (Text.bytes old) ps →
    Q old ps → Q e.text (ps.take e.first ++ (Reading.pieces ⟨e.options, e.text, e.lines⟩ tokens).take cut ++
      (ps.drop stop).map (.shifted e.change.byteDelta e.change.lineDelta))

theorem inOrder_lasting : Lasting fun cs ps => Piece.InOrder (LineTable.ofText cs) 0 (Text.bytes cs) ps :=
  ⟨Piece.ofText_inOrder, fun hs hparts hlines hprev hps _ => hlines ▸ hs.inOrder hparts hlines hprev hps⟩

variable {Q : List Char → List Piece → Prop}

theorem ofText_pieced (hQ : Lasting Q) (options : Options) (text : String) :
    ∃ ps, (ofText options text).Pieced text ps ∧ Q text.toList ps := by
  unfold ofText
  dsimp only
  rw [Reading.ofTokens_eq]
  have hinOrder := inOrder_lasting.read options text.toList
  exact ⟨_, ofReading_pieced hinOrder (Piece.pieces_spans _ _ hinOrder) _, hQ.read options text.toList⟩

theorem Pieced.changed (h : o.Pieced text ps) (lines : Option (List Nat)) :
    ({ o with changedLines := lines } : Outline).Pieced text ps :=
  ⟨h.reading, h.inOrder, h.spans, h.recovery, h.diagnostics⟩

/-- What a splice gives is made of pieces in order. -/
theorem spliced_pieced (hQ : Lasting Q) {options : Options} {isCancelled : Bool} {d : LineChange}
    (hprev : previous.Pieced old ps) (hps : Q old.toList ps)
    (hd : LineChange.between? old.toList new.toList = some d)
    (h : Splice.attempt options isCancelled old.toList previous new.toList (LineTable.ofText new.toList) d =
      .spliced o) : ∃ qs, o.Pieced new qs ∧ Q new.toList qs := by
  obtain ⟨before, removed, added, behind, hparts⟩ := LineChange.between?_eq_some hd
  obtain ⟨first, start, stop, tokens, cut, hs⟩ := Splice.attempt_spliced h
  have hord := hs.inOrder hparts rfl hprev.reading hprev.inOrder
  have hgives := hs.assembles hparts rfl hprev.reading hprev.inOrder hprev.spans
  exact ⟨_, hgives ▸ ofReading_pieced hord (hs.spans hprev.spans) _,
    hQ.splice hs hparts rfl hprev.reading hprev.inOrder hps⟩

theorem reparse?_pieced (hQ : Lasting Q) {options : Options} {threshold : Nat} {isCancelled : Bool}
    (hprev : previous.Pieced old ps) (hps : Q old.toList ps)
    (h : reparse? options threshold isCancelled old previous new = some o) :
    ∃ qs, o.Pieced new qs ∧ Q new.toList qs := by
  unfold reparse? at h
  split at h
  · rename_i hsame
    cases h
    have htext : old = new := String.toList_injective (LineChange.between?_eq_none.mp hsame)
    exact ⟨ps, htext ▸ hprev.changed _, htext ▸ hps⟩
  · rename_i d hd
    dsimp only at h
    split at h
    · rename_i o' ho
      cases h
      split at ho
      · cases ho
      · obtain ⟨qs, hqs, hq⟩ := spliced_pieced hQ hprev hps hd ho
        exact ⟨qs, hqs.changed _, hq⟩
    · cases h
    · obtain ⟨o', ho, rfl⟩ := Option.map_eq_some_iff.mp h
      unfold ofText? at ho
      split at ho
      · cases ho
      · cases ho
        obtain ⟨qs, hqs, hq⟩ := ofText_pieced hQ options new
        exact ⟨qs, hqs.changed _, hq⟩

/-- Every outline that can be reached is made of pieces in order, which have every lasting property. -/
theorem Reachable.pieced_with (hQ : Lasting Q) (h : Reachable text o) :
    ∃ ps, o.Pieced text ps ∧ Q text.toList ps := by
  induction h with
  | read options text => exact ofText_pieced hQ options text
  | again options threshold h new ih =>
    obtain ⟨ps, hps, hq⟩ := ih
    unfold reparse
    cases hr : reparse? options threshold false _ _ new with
    | none => exact ofText_pieced hQ options new
    | some o => exact reparse?_pieced hQ hps hq hr
  | answered h ho ih =>
    obtain ⟨ps, hps, hq⟩ := ih
    exact reparse?_pieced hQ hps hq ho

theorem Reachable.pieced (h : Reachable text o) : ∃ ps, o.Pieced text ps :=
  (h.pieced_with inOrder_lasting).imp fun _ => And.left

/-- All ranges of an outline: those of its symbols and their parts, of what is reported and of its segments. -/
def ranges (o : Outline) : List Range :=
  o.walk.flatMap (fun s => s.range :: s.kind.ranges) ++
    (o.diagnostics ++ o.faults).flatMap (fun d => d.range :: d.related.map (·.range)) ++ o.segments.map (·.range)

variable {text : String} {o : Outline} {ps : List Piece}

theorem Pieced.symbols (h : o.Pieced text ps) :
    Symbol.InLine (fun _ => True) 0 (Text.bytes text.toList) o.symbols := by
  have hs : o.symbols = ps.flatMap (·.symbols) := congrArg Reading.symbols h.reading
  rw [hs]
  exact h.inOrder.symbols

theorem Pieced.disorder? (h : o.Pieced text ps) : o.disorder? = none := by
  have hrecovery : ¬o.recovery.total < o.recovery.recovered := by
    have hb : (((ps.map (·.tally)).foldl Tally.followedBy .zero)).Bounded := by
      refine Tally.foldl_bounded (Nat.le_refl _) fun t ht => ?_
      obtain ⟨p, hp, rfl⟩ := List.mem_map.mp ht
      exact (h.inOrder.sound p hp).tally
    rw [h.recovery]
    unfold Tally.Bounded at hb
    simp only [Recovery.ofTallies]
    omega
  rw [Outline.disorder?, rootDisorder?_eq_none h.symbols (by simp), if_neg hrecovery]
  rfl

theorem Pieced.reports (h : o.Pieced text ps) :
    ∀ d ∈ o.diagnostics ++ o.faults, d.Within 0 (Text.bytes text.toList) := by
  intro d hd
  have hf : o.faults = ps.flatMap (·.faults) := congrArg Reading.faults h.reading
  have hmem : d ∈ o.faults := by
    rcases List.mem_append.mp hd with hd | hd
    · rw [h.diagnostics] at hd
      exact Diagnostic.mem_keepFirst (List.mem_mergeSort.mp hd)
    · exact hd
  rw [hf] at hmem
  exact h.inOrder.faults d hmem

theorem Pieced.ranges (h : o.Pieced text ps) :
    ∀ r ∈ o.ranges, r.start ≤ r.stop ∧ r.stop ≤ Text.bytes text.toList := by
  intro r hr
  rcases List.mem_append.mp hr with hr | hr
  · rcases List.mem_append.mp hr with hr | hr
    · obtain ⟨s, hs, hr⟩ := List.mem_flatMap.mp hr
      obtain ⟨-, b₂, b₃⟩ := Symbol.InLine.walkAll_bounds _ h.symbols s hs
      rcases List.mem_cons.mp hr with rfl | hr
      · exact ⟨b₂, b₃⟩
      · obtain ⟨-, p₂, p₃⟩ := Symbol.Kind.bounds_of_fits (h.symbols.orderly s hs).kind hr
        exact ⟨p₂, Nat.le_trans p₃ b₃⟩
    · obtain ⟨d, hd, hr⟩ := List.mem_flatMap.mp hr
      obtain ⟨⟨-, d₂, d₃⟩, hrel⟩ := h.reports d hd
      rcases List.mem_cons.mp hr with rfl | hr
      · exact ⟨d₂, d₃⟩
      · obtain ⟨x, hx, rfl⟩ := List.mem_map.mp hr
        exact (hrel x hx).2
  · have hsegs : o.segments = Piece.segments 0 0 ps := congrArg Reading.segments h.reading
    obtain ⟨s, hs, rfl⟩ := List.mem_map.mp hr
    rw [hsegs] at hs
    obtain ⟨i, hi⟩ := List.mem_iff_getElem?.mp hs
    rw [Piece.segments_getElem?] at hi
    obtain ⟨p, hp, rfl⟩ := Option.map_eq_some_iff.mp hi
    have hmem := List.mem_of_getElem? hp
    exact ⟨Nat.le_of_lt (h.inOrder.sound p hmem).proper, (h.inOrder.bounds p hmem).2⟩

/-- Whatever text was read and however it was edited, the outline of the text nests properly. There is no
disorder in it; its roots stand in line in the text, and the children of each symbol in line inside the symbol;
all ranges lie inside the text. In a block the branches stand in line, each starts with its keyword, and a
terminator stands behind the last of them and ends where the block does. -/
theorem Reachable.ordered (h : Reachable text o) :
    o.disorder? = none ∧ Range.InLine 0 (Text.bytes text.toList) (o.symbols.map (·.range)) ∧
      (∀ r ∈ o.ranges, r.start ≤ r.stop ∧ r.stop ≤ Text.bytes text.toList) ∧
      ∀ s ∈ o.walk, Range.InLine s.range.start s.range.stop (s.children.map (·.range)) ∧
        ∀ block branches terminator, s.kind = .block block branches terminator →
          Range.InLine s.range.start s.range.stop (branches.map (·.range)) ∧
            (∀ b ∈ branches, b.keyword.start = b.range.start ∧ b.keyword.stop ≤ b.range.stop) ∧
            ∀ t ∈ terminator, (∀ b ∈ branches, b.range.stop ≤ t.start) ∧ t.start ≤ t.stop ∧
              t.stop = s.range.stop := by
  obtain ⟨ps, hps⟩ := h.pieced
  refine ⟨hps.disorder?, hps.symbols.ranges, hps.ranges, fun s hs => ?_⟩
  obtain ⟨hkind, hchildren, -⟩ := hps.symbols.orderly s hs
  refine ⟨hchildren, fun block branches terminator hk => ?_⟩
  rw [hk] at hkind
  obtain ⟨hin, hproper, hterm⟩ := hkind
  refine ⟨hin, fun b hb => ⟨(hproper b hb).start, (hproper b hb).stop⟩, fun t ht => ?_⟩
  have htt := hterm t ht
  exact ⟨htt.behind, htt.proper.2, htt.stop⟩

/-- For instance after a block has been finished by an edit. -/
theorem reachable_ordered_after_edit :
    (reparse .default 0 "IF [A]" (ofText .default "IF [A]") "IF [A] THEN 1 END").disorder? = none :=
  (Reachable.ordered (.again .default 0 (.read .default "IF [A]") "IF [A] THEN 1 END")).1

end Outline

end Calculation
