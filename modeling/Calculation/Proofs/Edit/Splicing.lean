import Calculation.Proofs.Edit.Boundary
import Calculation.Proofs.Text.Slices

namespace Calculation

namespace Text

theorem slice?_eq_some {r : Range} {cs middle : List Char} (h : slice? r cs = some middle) :
    ∃ before behind, cs = before ++ middle ++ behind ∧ Text.bytes before = r.start ∧
      Text.bytes middle = r.length := by
  unfold slice? at h
  obtain ⟨⟨before, rest⟩, hb, h⟩ := Option.bind_eq_some_iff.mp h
  obtain ⟨⟨middle', behind⟩, hm, h⟩ := Option.bind_eq_some_iff.mp h
  cases h
  obtain ⟨rfl, hstart⟩ := splitAt?_eq_some hb
  obtain ⟨rfl, hlength⟩ := splitAt?_eq_some hm
  exact ⟨before, behind, by rw [List.append_assoc], hstart.symm, hlength.symm⟩

end Text

namespace Splice

/-- What a successful attempt did: it kept the segments before `first` and those from `stop` on, and read the
window between them again. The texts are short enough for their offsets. -/
structure Spliced (e : Edited) (old : List Char) (o : Outline) (stop : Nat) (tokens : List Token) (cut : Nat) :
    Prop where
  oldShort : Text.bytes old < capacity
  newShort : e.lines.size < capacity
  isFirst : e.first = firstAffected e.previous.segments e.change.firstLine
  starts : StartsAt (LineTable.ofText old) e.previous.segments e.first e.windowStart
  stops : ∃ i, affected old e.change e.previous.segments ≤ i ∧ stop = nextStatement e.previous.segments i
  reads : e.window? stop = some tokens
  cuts : e.cut? stop (.ofTokens ⟨e.options, e.text, e.lines⟩ tokens) = some cut
  gives : o = .ofReading (e.assemble stop (.ofTokens ⟨e.options, e.text, e.lines⟩ tokens) cut) e.lines.count

theorem Edited.attempt_spliced {e : Edited} {isCancelled : Bool} {after : Nat} {growths : List Nat} {o : Outline}
    (h : e.attempt isCancelled after growths = .spliced o) : ∃ i tokens cut, after ≤ i ∧
      e.window? (nextStatement e.previous.segments i) = some tokens ∧
      e.cut? (nextStatement e.previous.segments i) (.ofTokens ⟨e.options, e.text, e.lines⟩ tokens) = some cut ∧
      o = .ofReading (e.assemble (nextStatement e.previous.segments i)
        (.ofTokens ⟨e.options, e.text, e.lines⟩ tokens) cut) e.lines.count := by
  induction growths with
  | nil => rw [Edited.attempt] at h; cases h
  | cons growth growths ih =>
    rw [Edited.attempt] at h
    dsimp only at h
    split at h
    · cases h
    · rename_i tokens hw
      split at h
      · cases h
      · split at h
        · rename_i cut hc
          cases h
          exact ⟨after + growth, tokens, cut, Nat.le_add_right _ _, hw, hc, rfl⟩
        · exact ih h

theorem attempt_spliced {options : Options} {isCancelled : Bool} {old new : List Char} {previous o : Outline}
    {lines : LineTable} {d : LineChange}
    (h : attempt options isCancelled old previous new lines d = .spliced o) :
    ∃ first start stop tokens cut,
      Spliced ⟨options, previous, new, lines, d, first, start⟩ old o stop tokens cut := by
  unfold attempt at h
  dsimp only at h
  split at h
  · cases h
  · rename_i hshort
    obtain ⟨hold, hnew⟩ := Nat.max_lt.mp (Nat.lt_of_not_le fun hlong => hshort (.inl hlong))
    split at h
    · cases h
    · rename_i start hstart
      obtain ⟨i, tokens, cut, hi, hw, hc, ho⟩ := Edited.attempt_spliced h
      refine ⟨_, start, _, tokens, cut, ⟨hold, hnew, rfl, ?_, ⟨i, hi, rfl⟩, hw, hc, ho⟩⟩
      unfold StartsAt
      split at hstart
      · rename_i hzero
        rw [if_pos hzero]
        exact (Option.some.inj hstart).symm
      · rename_i hzero
        rw [if_neg hzero]
        exact Option.bind_eq_some_iff.mp hstart

variable {e : Edited} {old : List Char} {o : Outline} {stop cut : Nat} {tokens : List Token}
variable {before removed added behind : List Char} {ps : List Piece}

/-- The window is a stretch of the text. -/
theorem window_eq_some (h : e.window? stop = some tokens) :
    ∃ u w z, e.text = u ++ w ++ z ∧ Text.bytes u = e.windowStart ∧ tokens = Token.lex e.windowStart w ∧
      Text.bytes u + Text.bytes w = max (e.windowStop stop) e.windowStart := by
  unfold Edited.window? at h
  obtain ⟨w, hw, rfl⟩ := Option.map_eq_some_iff.mp h
  obtain ⟨u, z, htext, hu, hlength⟩ := Text.slice?_eq_some hw
  refine ⟨u, w, z, htext, hu, rfl, ?_⟩
  rw [hu, hlength]
  exact Nat.add_sub_cancel' (Nat.le_max_right _ _)

/-- The window is so much of the text from its start on. -/
theorem window_text {u y : List Char} (h : e.window? stop = some tokens) (htext : e.text = u ++ y)
    (hstart : e.windowStart = Text.bytes u) : ∃ w z, y = w ++ z ∧ tokens = Token.lex (Text.bytes u) w ∧
      Text.bytes u + Text.bytes w = max (e.windowStop stop) (Text.bytes u) := by
  obtain ⟨u', w, z, htext', hu, htokens, hbytes⟩ := window_eq_some h
  rw [hstart] at hu htokens hbytes
  rw [htext, List.append_assoc] at htext'
  obtain ⟨rfl, rfl⟩ := Text.parts_of_bytes htext' hu.symm
  exact ⟨w, z, rfl, htokens, hbytes⟩

/-- The tokens of the window stand in line between its start and the end of the text. -/
theorem window_inLine (h : e.window? stop = some tokens) :
    Item.TokensInLine e.windowStart (Text.bytes e.text) tokens := by
  obtain ⟨u, w, z, htext, hu, rfl, -⟩ := window_eq_some h
  have hin := Item.TokensInLine.lex e.windowStart w
  refine ⟨hin.ranges.mono (Nat.le_refl _) ?_, hin.proper⟩
  rw [htext, Text.bytes_append, Text.bytes_append, hu]
  exact Nat.le_add_right _ _

/-- The ranges of pieces lose no bits when they are moved as far as the change moves what is behind it. -/
def Edited.Lossless (e : Edited) (ps : List Piece) : Prop :=
  ∀ p ∈ ps, p.range.relocated e.change.byteDelta = p.range.shifted e.change.byteDelta

theorem Spliced.lossless (h : Spliced e old o stop tokens cut)
    (hparts : e.change.Parts old e.text before removed added behind) (hlines : e.lines = LineTable.ofText e.text)
    (hps : Piece.InOrder (LineTable.ofText old) 0 (Text.bytes old) ps) :
    e.Lossless ps := by
  intro p hp
  have hproper := (hps.sound p hp).proper
  have hstop := (hps.bounds p hp).2
  have hsize := hparts.size_eq
  have hshort : Text.bytes e.text < capacity := by
    have hnew := h.newShort
    rwa [hlines] at hnew
  exact Range.relocated_eq (by omega) (by omega)

/-- Where the window stops: with the text, or with a piece that counts a statement behind the one that is kept first. -/
theorem windowStop_cases (stop : Nat) (hprev : reading e.previous = .ofPieces ps) (hexact : e.Lossless ps) :
    e.windowStop stop = e.lines.size ∨ stop < ps.length ∧ ∃ j p, stop < j ∧ ps[j]? = some p ∧ p.statements ≠ 0 ∧
      e.windowStop stop = moved p.range.stop e.change.byteDelta := by
  have hs : e.previous.segments = Piece.segments 0 0 ps := congrArg Reading.segments hprev
  unfold Edited.windowStop
  dsimp only
  rw [hs, Piece.length_segments]
  split
  · rename_i hstop
    split
    · rename_i s hnext
      have hge := nextStatement_ge (List.getElem?_eq_some_iff.mp hnext).1
      have hcounts := nextStatement_counts hnext
      rw [Piece.segments_getElem?] at hnext
      obtain ⟨p, hp, rfl⟩ := Option.map_eq_some_iff.mp hnext
      exact .inr ⟨hstop, _, p, hge, hp, hcounts, congrArg Range.stop (hexact p (List.mem_of_getElem? hp))⟩
    · exact .inl rfl
  · exact .inl rfl

/-- The cut is at a piece of the window that stands where the piece is that is kept first behind. -/
theorem cut_at {ws : List Piece} (hprev : reading e.previous = .ofPieces ps) (hexact : e.Lossless ps)
    (hcut : e.cut? stop (.ofPieces ws) = some cut) {q : Piece} (hq : ps[stop]? = some q) :
    ∃ w, ws[cut]? = some w ∧ w.range = q.range.shifted e.change.byteDelta := by
  have hs : e.previous.segments = Piece.segments 0 0 ps := congrArg Reading.segments hprev
  unfold Edited.cut? at hcut
  rw [hs, Piece.segments_getElem?, hq] at hcut
  obtain ⟨hlt, hrange, -⟩ := List.findIdx?_eq_some_iff_getElem.mp hcut
  have hget : (Piece.segments 0 0 ws)[cut]? = some ((Reading.ofPieces ws).segments[cut]) :=
    List.getElem?_eq_getElem hlt
  rw [Piece.segments_getElem?] at hget
  obtain ⟨w, hw, hsegment⟩ := Option.map_eq_some_iff.mp hget
  rw [← hsegment] at hrange
  exact ⟨w, hw, (beq_iff_eq.mp hrange).trans (hexact q (List.mem_of_getElem? hq))⟩

theorem cut_at_end {ws : List Piece} (hprev : reading e.previous = .ofPieces ps)
    (hcut : e.cut? stop (.ofPieces ws) = some cut) (hnone : ps[stop]? = none) : cut = ws.length := by
  have hs : e.previous.segments = Piece.segments 0 0 ps := congrArg Reading.segments hprev
  unfold Edited.cut? at hcut
  rw [hs, Piece.segments_getElem?, hnone] at hcut
  rw [← Option.some.inj hcut]
  exact Piece.length_segments 0 0 ws

/-- The pieces of the window before the cut are on earlier lines than the piece that is kept first behind. -/
theorem cut_spec {ws : List Piece} (hws : Piece.InOrder e.lines e.windowStart (Text.bytes e.text) ws)
    (hprev : reading e.previous = .ofPieces ps) (hexact : e.Lossless ps)
    (hcut : e.cut? stop (.ofPieces ws) = some cut) {q : Piece} (hq : ps[stop]? = some q)
    (hsound : (q.shifted e.change.byteDelta e.change.lineDelta).Sound e.lines) :
    ∀ w ∈ ws.take cut, w.lastLine < (q.shifted e.change.byteDelta e.change.lineDelta).firstLine := by
  obtain ⟨x, hx, hrange⟩ := cut_at hprev hexact hcut hq
  have hline : x.firstLine = (q.shifted e.change.byteDelta e.change.lineDelta).firstLine := by
    have hsame : x.range = (q.shifted e.change.byteDelta e.change.lineDelta).range := hrange
    rw [(hws.sound x (List.mem_of_getElem? hx)).firstLine_eq, hsound.firstLine_eq, hsame]
  intro w hw
  rw [← hline]
  exact hws.lastLine_lt hw hx

theorem firstLine_ge {lines : LineTable} {u z : List Char} {q : Piece} (hq : q.Sound lines)
    (hlines : lines = LineTable.ofText (u ++ z)) (h : Text.bytes u ≤ q.range.start) :
    u.count '\n' ≤ q.firstLine := by
  rw [hq.firstLine_eq, ← LineTable.lineOf_bytes u z, ← hlines]
  exact lines.lineOf_mono h

/-- The pieces kept behind are in order where they are moved to. -/
theorem behind_inOrder (hparts : e.change.Parts old e.text before removed added behind)
    (hlines : e.lines = LineTable.ofText e.text)
    (hps : Piece.InOrder (LineTable.ofText old) 0 (Text.bytes old) ps)
    (hstops : ∀ p ∈ ps.drop stop, Text.bytes (before ++ removed) ≤ p.range.start) :
    Piece.InOrder e.lines (Text.bytes (before ++ added)) (Text.bytes e.text)
      ((ps.drop stop).map (.shifted e.change.byteDelta e.change.lineDelta)) := by
  have hmem : ∀ p ∈ ps.drop stop, p ∈ ps := fun p hp => List.mem_of_mem_drop hp
  refine ⟨?_, ?_, ?_⟩
  · intro q hq
    obtain ⟨p, hp, rfl⟩ := List.mem_map.mp hq
    rw [hlines]
    exact (hps.sound p (hmem p hp)).moved_behind hparts (hstops p hp)
  · intro q hq
    obtain ⟨p, hp, rfl⟩ := List.mem_map.mp hq
    have hstart := moved_mono (hstops p hp) e.change.byteDelta
    have hstop := moved_mono (hps.bounds p (hmem p hp)).2 e.change.byteDelta
    have hzero := hparts.moved_oldStop 0
    rw [hparts.moved_size] at hstop
    rw [Nat.add_zero, Nat.add_zero] at hzero
    rw [hzero] at hstart
    exact ⟨hstart, hstop⟩
  · refine List.pairwise_map.mpr (List.Pairwise.imp_of_mem ?_ (hps.apart.sublist (List.drop_sublist stop ps)))
    intro a b ha hb hlt
    have hline := firstLine_ge (hps.sound a (hmem a ha)) (congrArg LineTable.ofText hparts.old) (hstops a ha)
    have hle := (hps.sound a (hmem a ha)).lines_le
    have hdelta := hparts.lineDelta
    rw [List.count_append] at hline
    simp only [Piece.shifted, moved]
    omega

/-- The pieces that are kept behind the window stood behind the change. -/
theorem Spliced.kept_behind (h : Spliced e old o stop tokens cut)
    (hparts : e.change.Parts old e.text before removed added behind) (hprev : reading e.previous = .ofPieces ps)
    (hps : Piece.InOrder (LineTable.ofText old) 0 (Text.bytes old) ps) :
    ∀ p ∈ ps.drop stop, Text.bytes (before ++ removed) ≤ p.range.start := by
  intro p hp
  have hsegs : e.previous.segments = Piece.segments 0 0 ps := congrArg Reading.segments hprev
  obtain ⟨i, hi, hstop⟩ := h.stops
  have hlt : stop < e.previous.segments.length := by
    have hpos := List.length_pos_of_mem hp
    rw [List.length_drop] at hpos
    rw [hsegs, Piece.length_segments]
    omega
  have hge := nextStatement_ge (hstop ▸ hlt)
  exact Splice.kept_behind hparts hps (hsegs ▸ Nat.le_trans hi (hstop ▸ hge)) p hp

/-- What is read again up to the cut shares no line with what is kept behind. -/
theorem Spliced.cut_apart (h : Spliced e old o stop tokens cut)
    (hparts : e.change.Parts old e.text before removed added behind)
    (hlines : e.lines = LineTable.ofText e.text) (hprev : reading e.previous = .ofPieces ps)
    (hps : Piece.InOrder (LineTable.ofText old) 0 (Text.bytes old) ps) :
    ∀ w ∈ (Reading.pieces ⟨e.options, e.text, e.lines⟩ tokens).take cut,
      ∀ q ∈ (ps.drop stop).map (Piece.shifted e.change.byteDelta e.change.lineDelta), w.lastLine < q.firstLine := by
  intro w hw q hq
  have hws := Piece.pieces_inOrder ⟨e.options, e.text, e.lines⟩ (window_inLine h.reads)
  have hbehind := behind_inOrder hparts hlines hps (h.kept_behind hparts hprev hps)
  cases hp : ps[stop]? with
  | none =>
    rw [List.drop_eq_nil_of_le (List.getElem?_eq_none_iff.mp hp)] at hq
    cases hq
  | some p =>
    have hfirst : ((ps.drop stop).map (Piece.shifted e.change.byteDelta e.change.lineDelta))[0]? =
        some (p.shifted e.change.byteDelta e.change.lineDelta) := by
      rw [List.getElem?_map, List.getElem?_drop, Nat.add_zero, hp]
      rfl
    have hsound := hbehind.sound _ (List.mem_of_getElem? hfirst)
    have hexact := h.lossless hparts hlines hps
    have hcut := cut_spec hws hprev hexact (Reading.ofTokens_eq _ _ ▸ h.cuts) hp hsound w hw
    exact Nat.lt_of_lt_of_le hcut (hbehind.firstLine_le hfirst hq)

/-- The pieces that a splice is made of are in order in the new text. -/
theorem Spliced.inOrder (h : Spliced e old o stop tokens cut)
    (hparts : e.change.Parts old e.text before removed added behind)
    (hlines : e.lines = LineTable.ofText e.text) (hprev : reading e.previous = .ofPieces ps)
    (hps : Piece.InOrder (LineTable.ofText old) 0 (Text.bytes old) ps) :
    Piece.InOrder e.lines 0 (Text.bytes e.text)
      (ps.take e.first ++ (Reading.pieces ⟨e.options, e.text, e.lines⟩ tokens).take cut ++
        (ps.drop stop).map (.shifted e.change.byteDelta e.change.lineDelta)) := by
  have hsegs : e.previous.segments = Piece.segments 0 0 ps := congrArg Reading.segments hprev
  obtain ⟨u, v, hbefore, hstart, hends, hkept⟩ := windowStart_spec hparts hps (hsegs ▸ h.isFirst ▸ h.starts)
  rw [← hsegs, ← h.isFirst] at hkept
  have htext : e.text = u ++ (v ++ added ++ behind) := by
    rw [hparts.new, hbefore, List.append_assoc, List.append_assoc, List.append_assoc]
  have hu : Text.bytes u ≤ Text.bytes (before ++ added) := by
    rw [hbefore, Text.bytes_append, Text.bytes_append]
    omega
  have hnew : Text.bytes (before ++ added) ≤ Text.bytes e.text := by
    rw [hparts.new, Text.bytes_append (before ++ added)]
    omega
  have hubefore : Text.bytes u ≤ Text.bytes before := by
    rw [hbefore, Text.bytes_append]
    omega
  -- What is kept in front.
  have hfront : Piece.InOrder e.lines 0 (Text.bytes e.text) (ps.take e.first) := by
    refine ⟨fun p hp => ?_, fun p hp => ⟨Nat.zero_le _, ?_⟩, hps.apart.sublist (List.take_sublist _ ps)⟩
    · rw [hlines]
      exact (hps.sound p (List.mem_of_mem_take hp)).kept hparts (Nat.le_trans (hkept p hp).2 hubefore)
    · exact Nat.le_trans (hkept p hp).2 (Nat.le_trans hu hnew)
  -- What is read again.
  have hws := Piece.pieces_inOrder ⟨e.options, e.text, e.lines⟩ (window_inLine h.reads)
  have hwindow : Piece.InOrder e.lines (Text.bytes u) (Text.bytes e.text)
      ((Reading.pieces ⟨e.options, e.text, e.lines⟩ tokens).take cut) :=
    hstart ▸ hws.sublist (List.take_sublist _ _)
  -- What is kept behind.
  have hbehind := behind_inOrder hparts hlines hps (h.kept_behind hparts hprev hps)
  -- No two of the three share a line.
  have hlow : ∀ {q : Piece}, q.Sound e.lines → Text.bytes u ≤ q.range.start → u.count '\n' ≤ q.firstLine :=
    fun hq hle => firstLine_ge hq (hlines.trans (congrArg LineTable.ofText htext)) hle
  refine (hfront.append (hwindow.widen (Nat.zero_le _)) ?_).append (hbehind.widen (Nat.zero_le _)) ?_
  · intro p hp w hw
    exact Nat.lt_of_lt_of_le (hkept p hp).1 (hlow (hwindow.sound w hw) (hwindow.bounds w hw).1)
  · intro p hp q hq
    rcases List.mem_append.mp hp with hp | hp
    · exact Nat.lt_of_lt_of_le (hkept p hp).1
        (hlow (hbehind.sound q hq) (Nat.le_trans hu (hbehind.bounds q hq).1))
    · exact h.cut_apart hparts hlines hprev hps p hp q hq

end Splice

end Calculation
