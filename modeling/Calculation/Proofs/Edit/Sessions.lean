import Calculation.Proofs.Edit.ChangedLines
import Calculation.Proofs.Edit.Window

namespace Calculation

namespace Splice

variable {e : Edited} {old new : String} {before removed added behind : List Char} {ps : List Piece}
variable {o : Outline} {tokens : List Token} {stop cut : Nat}

/-- What a splice makes of the outline of a text: the pieces in front of the window are kept, and from its start on the
pieces are those of the new text. -/
theorem Spliced.reads_on {old : List Char} (h : Spliced e old o stop tokens cut)
    (hparts : e.change.Parts old e.text before removed added behind) (hlines : e.lines = LineTable.ofText e.text)
    (hps : ps = Reading.pieces (.ofText e.options old) (Token.lex 0 old)) (hprev : reading e.previous = .ofPieces ps) :
    ∃ u v, before = u ++ v ∧ e.windowStart = Text.bytes u ∧ (∀ p ∈ ps.take e.first, p.range.stop ≤ Text.bytes u) ∧
      o = .ofReading (.ofPieces (ps.take e.first ++ Reading.pieces (.ofText e.options e.text)
        (Token.lex (Text.bytes u) (v ++ added ++ behind)))) e.lines.count := by
  have hsegs : e.previous.segments = Piece.segments 0 0 ps := congrArg Reading.segments hprev
  have hinOrder : Piece.InOrder (LineTable.ofText old) 0 (Text.bytes old) ps :=
    hps ▸ Piece.ofText_inOrder e.options old
  obtain ⟨u, v, hbefore, hstart, -, hkept⟩ := windowStart_spec hparts hinOrder (hsegs ▸ h.isFirst ▸ h.starts)
  rw [← hsegs, ← h.isFirst] at hkept
  refine ⟨u, v, hbefore, hstart, fun p hp => (hkept p hp).2, ?_⟩
  have hspans := hps ▸ Piece.pieces_spans _ _ (hps ▸ hinOrder)
  rw [h.reads_behind hparts hlines hps hprev hbefore hstart, ← List.append_assoc, Source.ofText, ← hlines]
  exact h.assembles hparts hlines hprev hinOrder hspans

/-- Where a window starts that does not start with the text, the pieces in front of it are those of the new text, or a
field is severed there and a piece of the new text goes over the place. -/
theorem front_of_window {options : Options} {d : LineChange} {start : Nat} {u v : List Char}
    (hparts : d.Parts old.toList new.toList before removed added behind)
    (hps : ps = Reading.pieces (.ofText options old.toList) (Token.lex 0 old.toList))
    (hpos : firstAffected (Piece.segments 0 0 ps) d.firstLine ≠ 0)
    (hstarts : StartsAt (LineTable.ofText old.toList) (Piece.segments 0 0 ps)
      (firstAffected (Piece.segments 0 0 ps) d.firstLine) start)
    (hbefore : before = u ++ v) (hstart : start = Text.bytes u) :
    (¬Outline.Severed options old new start ∧
      Reading.pieces (.ofText options new.toList) (Token.lex 0 new.toList) =
        ps.take (firstAffected (Piece.segments 0 0 ps) d.firstLine) ++
          Reading.pieces (.ofText options new.toList) (Token.lex (Text.bytes u) (v ++ added ++ behind))) ∨
      (Outline.Severed options old new start ∧
        ∃ p ∈ Reading.pieces (.ofText options new.toList) (Token.lex 0 new.toList), ¬p.range.Avoids (Text.bytes u)) := by
  have hinOrder : Piece.InOrder (LineTable.ofText old.toList) 0 (Text.bytes old.toList) ps :=
    hps ▸ Piece.ofText_inOrder options old.toList
  obtain ⟨q, q', hq, hcount, hq', hless, habove⟩ := exists_segments_above hinOrder hpos
  -- The window starts where the line of the first one does.
  obtain ⟨s, hs, hline⟩ := (if_neg hpos).mp hstarts
  obtain ⟨u₁, v₁, hbefore₁, hstart₁, hcount₁, hends₁⟩ :=
    split_above hparts hinOrder (List.mem_of_getElem? hq) (Nat.lt_trans hless habove)
  obtain ⟨rfl, rfl⟩ : u = u₁ ∧ v = v₁ := by
    refine Text.parts_of_bytes (hbefore.symm.trans hbefore₁) ?_
    rw [Piece.segments_getElem?, hq] at hs
    cases hs
    exact hstart.symm.trans (Option.some.inj (hline.symm.trans hstart₁))
  -- The next one starts further down in what the two texts have in common.
  obtain ⟨u', v', hbefore', -, hcount', hends'⟩ := split_above hparts hinOrder (List.mem_of_getElem? hq') habove
  obtain ⟨m, rfl⟩ : u <+: u' := by
    refine (List.prefix_or_prefix_of_prefix ⟨v, hbefore.symm⟩ ⟨v', hbefore'.symm⟩).resolve_right fun hlonger => ?_
    have hle := hlonger.sublist.count_le '\n'
    omega
  obtain rfl : v = m ++ v' := by
    rw [hbefore, List.append_assoc] at hbefore'
    exact List.append_cancel_left hbefore'
  have hold : old.toList = u ++ (m ++ (v' ++ removed ++ behind)) := by
    rw [hparts.old, hbefore]
    simp only [List.append_assoc]
  have hnew : new.toList = u ++ (m ++ (v' ++ added ++ behind)) := by
    rw [hparts.new, hbefore]
    simp only [List.append_assoc]
  have hfront := Outline.front_exchanged hold hnew (hps ▸ hq) hcount hcount₁ hends₁ (hps ▸ hq') hcount' hends'
  rw [← hps, ← hstart, ← List.append_assoc m, ← List.append_assoc m] at hfront
  rw [← hstart]
  exact hfront

/-- What a splice makes of the outline of the old text is the outline of the new one, unless a field is severed where
the window starts. -/
theorem Spliced.eq_ofText_iff {options : Options} {previous : Outline} {d : LineChange} {first start : Nat}
    (h : Spliced ⟨options, previous, new.toList, .ofText new.toList, d, first, start⟩ old.toList o stop tokens cut)
    (hprevious : reading previous = reading (.ofText options old))
    (hd : LineChange.between? old.toList new.toList = some d) :
    o = .ofText options new ↔ ¬Outline.Severed options old new start := by
  obtain ⟨before, removed, added, behind, hparts⟩ := LineChange.between?_eq_some hd
  obtain ⟨ps, hps⟩ : ∃ ps, ps = Reading.pieces (.ofText options old.toList) (Token.lex 0 old.toList) := ⟨_, rfl⟩
  have hprev : reading previous = .ofPieces ps := hprevious.trans (hps ▸ Outline.reading_ofText options old)
  have hsegs : previous.segments = Piece.segments 0 0 ps := congrArg Reading.segments hprev
  obtain ⟨u, v, hbefore, hstart, hfront, rfl⟩ := h.reads_on hparts rfl hps hprev
  have hnew : Outline.ofText options new = .ofReading (.ofPieces (Reading.pieces (.ofText options new.toList)
      (Token.lex 0 new.toList))) (LineTable.ofText new.toList).count := by
    rw [← Reading.ofTokens_eq]
    rfl
  have hfirst := h.isFirst
  have hstarts := h.starts
  dsimp only at hstart hfront hfirst hstarts ⊢
  rw [hsegs] at hfirst hstarts
  rw [hnew]
  by_cases hzero : first = 0
  · -- The window starts with the text.
    rw [StartsAt, if_pos hzero] at hstarts
    subst hzero hstarts
    obtain rfl : u = [] := Decidable.not_not.mp fun hu => by
      have := Token.bytes_pos hu
      omega
    have hwhole : new.toList = v ++ added ++ behind := by
      rw [hparts.new, hbefore, List.nil_append]
    refine iff_of_true ?_ Outline.not_severed_zero
    rw [List.take_zero, List.nil_append, ← hwhole]
    rfl
  · rw [hfirst] at hzero hstarts hfront ⊢
    rcases front_of_window hparts hps hzero hstarts hbefore hstart with ⟨hcalm, hpieces⟩ | ⟨hsevered, p, hp, hover⟩
    · exact iff_of_true (by rw [hpieces]) hcalm
    · refine iff_of_false (fun hsame => hover ?_) (not_not_intro hsevered)
      -- The pieces of the splice are in front of the place or behind it.
      have hranges := congrArg (fun o : Outline => o.segments.map (·.range)) hsame
      simp only [Outline.ofReading, Reading.segments_ranges] at hranges
      obtain ⟨q, hq, hrange⟩ := List.mem_map.mp (hranges ▸ List.mem_map_of_mem hp)
      rw [← hrange]
      rcases List.mem_append.mp hq with hq | hq
      · exact .inr (hfront q hq)
      · exact .inl (Reading.pieces_between _ _ _ q hq).start

theorem firstAffected_nil (line : Nat) : firstAffected [] line = 0 := by
  simp [firstAffected, partitionPoint, halving, backToStatement]

end Splice

namespace Outline

variable {options : Options} {threshold : Nat} {old new : String} {previous : Outline} {d : LineChange}

theorem agrees_iff {a b : Outline} : a.agrees b = true ↔ ∃ lines, a = { b with changedLines := lines } := by
  unfold agrees
  rw [beq_iff_eq]
  constructor
  · intro h
    refine ⟨a.changedLines, ?_⟩
    obtain ⟨_, _, _, _, _, _, _, _⟩ := a
    obtain ⟨_, _, _, _, _, _, _, _⟩ := b
    simpa using h
  · rintro ⟨lines, rfl⟩
    rfl

/-- The outlines of two readings agree when they are the same. -/
theorem agrees_changed_iff {a b : Outline} (ha : a.changedLines = none) (hb : b.changedLines = none)
    (lines : Option (List Nat)) : { a with changedLines := lines }.agrees b = true ↔ a = b := by
  unfold agrees
  rw [beq_iff_eq]
  obtain ⟨_, _, _, _, _, _, _, _⟩ := a
  obtain ⟨_, _, _, _, _, _, _, _⟩ := b
  subst ha hb
  rfl

/-- An edit for which the outline of the old text is spliced, with a window that starts between a field and what makes it
a qualifier in the new text. -/
inductive Severs (options : Options) (threshold : Nat) (old new : String) : Prop
  | intro (d : LineChange) (o : Outline) (start : Nat) (hd : LineChange.between? old.toList new.toList = some d)
    (hlong : threshold ≤ (LineTable.ofText new.toList).count)
    (hspliced : Splice.attempt options false old.toList (ofText options old) new.toList (.ofText new.toList) d =
      .spliced o)
    (hstart : Splice.StartsAt (.ofText old.toList) (ofText options old).segments
      (Splice.firstAffected (ofText options old).segments d.firstLine) start)
    (hsevered : Severed options old new start)

/-- Where a splice succeeds, it gives the outline of the new text unless the edit severs a field. -/
theorem spliced_eq_iff {o : Outline} (hd : LineChange.between? old.toList new.toList = some d)
    (hlong : threshold ≤ (LineTable.ofText new.toList).count)
    (ho : Splice.attempt options false old.toList (ofText options old) new.toList (.ofText new.toList) d = .spliced o) :
    o = ofText options new ↔ ¬Severs options threshold old new := by
  obtain ⟨first, start, stop, tokens, cut, hs⟩ := Splice.attempt_spliced ho
  have hstarts := hs.starts
  rw [hs.isFirst] at hstarts
  rw [hs.eq_ofText_iff rfl hd, not_iff_not]
  refine ⟨fun h => ⟨d, o, start, hd, hlong, ho, hstarts, h⟩, ?_⟩
  rintro ⟨d', o', start', hd', -, -, hstarts', hsevered⟩
  obtain rfl : d = d' := Option.some.inj (hd.symm.trans hd')
  obtain rfl : start' = start := hstarts'.unique hstarts
  exact hsevered

/-- Reading a text again after an edit gives its outline, when the outline of the text before is given, unless the edit
severs a field. -/
theorem reparse_agrees_iff (hprevious : previous.agrees (ofText options old) = true) :
    (reparse options threshold old previous new).agrees (ofText options new) = true ↔
      ¬Severs options threshold old new := by
  obtain ⟨lines, rfl⟩ := agrees_iff.mp hprevious
  cases hd : LineChange.between? old.toList new.toList with
  | none =>
    have hsame : reparse options threshold old { ofText options old with changedLines := lines } new =
        { ofText options old with changedLines := some [] } := by
      rw [reparse, reparse?, hd]
      rfl
    obtain rfl : old = new := String.toList_injective (LineChange.between?_eq_none.mp hd)
    refine iff_of_true (by rw [hsame, agrees_changed_iff rfl rfl]) ?_
    rintro ⟨d, -, -, hd', -⟩
    rw [hd] at hd'
    cases hd'
  | some d =>
    have hattempt : Splice.attempt options false old.toList { ofText options old with changedLines := lines } new.toList
        (.ofText new.toList) d = Splice.attempt options false old.toList (ofText options old) new.toList
        (.ofText new.toList) d := Splice.attempt_congr options false _ _ _ _ rfl rfl
    have hmade := reparse?_uncancelled options threshold old new { ofText options old with changedLines := lines }
    unfold reparse? at hmade
    rw [hd] at hmade
    dsimp only at hmade
    rw [hattempt] at hmade
    split at hmade
    · rename_i o ho
      split at ho
      · cases ho
      · rename_i hlong
        rw [Bool.or_eq_true, decide_eq_true_eq, not_or] at hlong
        obtain ⟨_, _, _, _, _, hs⟩ := Splice.attempt_spliced ho
        have hnone : o.changedLines = none := by
          rw [hs.gives]
          rfl
        rw [← Option.some.inj hmade, agrees_changed_iff hnone rfl, spliced_eq_iff hd (Nat.le_of_not_lt hlong.1) ho]
    · cases hmade
    · rename_i hfailed
      refine iff_of_true ?_ ?_
      · rw [← Option.some.inj hmade, agrees_changed_iff rfl rfl]
      · rintro ⟨d', o, start, hd', hlong, hspliced, hstart, hsevered⟩
        obtain rfl : d = d' := Option.some.inj (hd.symm.trans hd')
        split at hfailed
        · rename_i hwhole
          rcases Bool.or_eq_true_iff.mp hwhole with hshort | hempty
          · exact absurd hlong (Nat.not_le_of_lt (of_decide_eq_true hshort))
          · -- An outline without segments is spliced from the start of the text.
            rw [List.isEmpty_iff.mp hempty, Splice.firstAffected_nil, Splice.StartsAt, if_pos rfl] at hstart
            exact not_severed_zero (hstart ▸ hsevered)
        · rw [hspliced] at hfailed
          cases hfailed

/-- The outlines of a session: of each text in turn, made from the outline of the text before. -/
def session (options : Options) (threshold : Nat) (text : String) (o : Outline) : List String → List Outline
  | [] => []
  | new :: texts =>
    let o' := reparse options threshold text o new
    o' :: session options threshold new o' texts

/-- All outlines of a session are those that their texts have when they are read as a whole. -/
def Follows (options : Options) (threshold : Nat) (text : String) (o : Outline) (texts : List String) : Prop :=
  List.Forall₂ (fun new o' => o'.agrees (ofText options new) = true) texts (session options threshold text o texts)

theorem follows_iff {text : String} {texts : List String} {o : Outline} (ho : o.agrees (ofText options text) = true) :
    Follows options threshold text o texts ↔
      List.IsChain (fun old new => ¬Severs options threshold old new) (text :: texts) := by
  induction texts generalizing text o with
  | nil => exact iff_of_true .nil (.singleton text)
  | cons new texts ih =>
    unfold Follows at ih ⊢
    rw [session, List.forall₂_cons, List.isChain_cons_cons, reparse_agrees_iff ho]
    exact and_congr_right fun hnot => ih ((reparse_agrees_iff ho).mpr hnot)

/-- A session keeps to its texts: all its outlines are those that the texts have when they are read as a whole, exactly
when no edit severs a field. So where no field that stands alone gets a dot and another field behind it, it does not
matter what was edited before, nor from which length on texts are spliced. -/
theorem sessions_followed (options : Options) (text : String) (texts : List String) :
    (∀ threshold, Follows options threshold text (ofText options text) texts ↔
      List.IsChain (fun old new => ¬Severs options threshold old new) (text :: texts)) ∧
    (List.IsChain (fun old new => ∀ w, ¬Severed options old new w) (text :: texts) →
      ∀ threshold, Follows options threshold text (ofText options text) texts) := by
  have hiff : ∀ threshold, Follows options threshold text (ofText options text) texts ↔
      List.IsChain (fun old new => ¬Severs options threshold old new) (text :: texts) :=
    fun threshold => follows_iff (agrees_iff.mpr ⟨none, rfl⟩)
  refine ⟨hiff, fun hchain threshold => (hiff threshold).mpr (hchain.imp fun old new hnot => ?_)⟩
  rintro ⟨-, -, start, -, -, -, -, hsevered⟩
  exact hnot start hsevered

/-- For instance a call that is finished, gets a comment and another statement, and is taken out. -/
theorem sessions_followed_through_call : Follows .default 0 "SUM([A]" (ofText .default "SUM([A]")
    ["SUM([A])", "SUM([A])\n/* b */\n\n2", "/* b */\n\n2"] := by
  refine (sessions_followed .default "SUM([A]" _).2 ?_ 0
  refine .cons_cons (not_severed_of_undotted ?_) (.cons_cons (not_severed_of_undotted ?_)
    (.cons_cons (not_severed_of_undotted ?_) (.singleton _))) <;> decide +kernel

/-- A dot on a line of its own, with a comment below: the window starts with the dot, and the field that is put behind it
is severed from the one above. -/
theorem severed_not_followed : ¬Follows .default 0 "[A]\n.\n// c\n1" (ofText .default "[A]\n.\n// c\n1")
    ["[A]\n.\n// c\n[B]"] := by
  intro h
  have hagrees := (List.forall₂_cons.mp h).1
  exact absurd hagrees (by decide +kernel)

end Outline

end Calculation
