import Calculation.Proofs.Edit.Kept

namespace Calculation

namespace LineTable

theorem startsAfter_getElem? {offset n w : Nat} {cs : List Char} (h : (startsAfter offset cs)[n]? = some w) :
    ∃ u v, cs = u ++ v ∧ w = offset + Text.bytes u ∧ u.count '\n' = n + 1 ∧ u.getLast? = some '\n' := by
  induction cs generalizing offset n with
  | nil => simp [startsAfter] at h
  | cons c cs ih =>
    simp only [startsAfter] at h
    split at h
    · rename_i hc
      cases n with
      | zero =>
        simp only [List.getElem?_cons_zero, Option.some.injEq] at h
        exact ⟨[c], cs, rfl, by simp [h], by simp [hc], by simp [hc]⟩
      | succ n =>
        obtain ⟨u, v, rfl, hw, hcount, hlast⟩ := ih (by simpa using h)
        refine ⟨c :: u, v, rfl, by simp only [Text.bytes_cons]; omega, by simp [hc, hcount], ?_⟩
        simp [List.getLast?_cons, hlast]
    · rename_i hc
      obtain ⟨u, v, rfl, hw, hcount, hlast⟩ := ih h
      refine ⟨c :: u, v, rfl, by simp only [Text.bytes_cons]; omega, by simp [hc, hcount], ?_⟩
      simp [List.getLast?_cons, hlast]

/-- Where a line starts, as many line feeds stand before it as its number says. -/
theorem starts_getElem? {n w : Nat} {cs : List Char} (h : (ofText cs).starts[n]? = some w) :
    ∃ u v, cs = u ++ v ∧ w = Text.bytes u ∧ u.count '\n' = n ∧ Text.EndsLine u := by
  cases n with
  | zero =>
    simp only [ofText, List.getElem?_cons_zero, Option.some.injEq] at h
    exact ⟨[], cs, rfl, h.symm, rfl, .inl rfl⟩
  | succ n =>
    have hafter : (startsAfter 0 cs)[n]? = some w := by simpa [ofText] using h
    obtain ⟨u, v, hcs, hw, hcount, hlast⟩ := startsAfter_getElem? hafter
    exact ⟨u, v, hcs, by omega, hcount, .inr hlast⟩

theorem lineOf_bytes (u v : List Char) : (ofText (u ++ v)).lineOf (Text.bytes u) = u.count '\n' := by
  have h := lineOf_suffix u v 0
  have hzero : (ofText v).lineOf 0 = 0 := by
    rw [lineOf_ofText]
    refine List.countP_eq_zero.mpr fun s hs => ?_
    have := (mem_startsAfter hs).1
    simp only [decide_eq_true_eq]
    omega
  rw [Nat.add_zero, hzero, Nat.add_zero] at h
  exact h

end LineTable

namespace Piece

variable {lines : LineTable} {lo hi : Nat} {ps : List Piece}

theorem Sound.lines_le {p : Piece} (h : p.Sound lines) : p.firstLine ≤ p.lastLine := by
  rw [h.firstLine_eq, h.lastLine_eq]
  exact lines.lineOf_mono (by have := h.proper; omega)

theorem InOrder.firstLines (h : InOrder lines lo hi ps) : (ps.map (·.firstLine)).Pairwise (· < ·) := by
  refine List.pairwise_map.mpr (h.apart.imp_of_mem fun ha _ hlt => ?_)
  exact Nat.lt_of_le_of_lt (h.sound _ ha).lines_le hlt

/-- Segments that start above a line come before the others. -/
theorem InOrder.leading (h : InOrder lines lo hi ps) {q : Nat → Bool} (hq : ∀ m n, m < n → q n = true → q m = true) :
    Leading (fun s : Segment => q s.firstLine) (segments 0 0 ps) := by
  have hp := h.firstLines
  have hsame : (segments 0 0 ps).map (·.firstLine) = ps.map (·.firstLine) := map_segments (fun _ _ _ => rfl) 0 0 ps
  rw [← hsame] at hp
  exact (List.pairwise_map.mp hp).imp fun hlt => hq _ _ hlt

theorem InOrder.lastLine_lt (h : InOrder lines lo hi ps) {i : Nat} {p q : Piece} (hp : p ∈ ps.take i)
    (hq : ps[i]? = some q) : p.lastLine < q.firstLine := by
  have hsplit : ps = ps.take i ++ ps.drop i := (List.take_append_drop i ps).symm
  have hmem : q ∈ ps.drop i := by
    rw [← List.head?_drop] at hq
    exact List.mem_of_mem_head? hq
  have ha := h.apart
  rw [hsplit, List.pairwise_append] at ha
  exact ha.2.2 p hp q hmem

/-- A piece from a place on is the one that stands there, or starts on a line below it. -/
theorem InOrder.eq_or_lastLine_lt (h : InOrder lines lo hi ps) {k : Nat} {p q : Piece} (hq : ps[k]? = some q)
    (hp : p ∈ ps.drop k) : p = q ∨ q.lastLine < p.firstLine := by
  have hdrop := h.apart.sublist (List.drop_sublist k ps)
  rw [← List.head?_drop] at hq
  obtain ⟨rest, hrest⟩ := List.head?_eq_some_iff.mp hq
  rw [hrest] at hp hdrop
  exact (List.mem_cons.mp hp).imp_right ((List.pairwise_cons.mp hdrop).1 p)

theorem InOrder.firstLine_le (h : InOrder lines lo hi ps) {k : Nat} {p q : Piece} (hq : ps[k]? = some q)
    (hp : p ∈ ps.drop k) : q.firstLine ≤ p.firstLine := by
  rcases h.eq_or_lastLine_lt hq hp with rfl | hlt
  · exact Nat.le_refl _
  · exact Nat.le_trans (h.sound q (List.mem_of_getElem? hq)).lines_le (Nat.le_of_lt hlt)

theorem InOrder.start_le (h : InOrder lines lo hi ps) {k : Nat} {p q : Piece} (hq : ps[k]? = some q)
    (hp : p ∈ ps.drop k) : q.range.start ≤ p.range.start := by
  rcases h.eq_or_lastLine_lt hq hp with rfl | hlt
  · exact Nat.le_refl _
  · have hsound := h.sound q (List.mem_of_getElem? hq)
    exact Nat.le_trans (Nat.le_of_lt hsound.proper)
      (hsound.stop_le_start (h.sound p (List.mem_of_mem_drop hp)) hlt)

end Piece

namespace Splice

theorem backToStatement_le (segments : List Segment) (i : Nat) : backToStatement segments i ≤ i := by
  induction i with
  | zero => exact Nat.le_refl _
  | succ i ih =>
    rw [backToStatement]
    split
    · omega
    · exact Nat.le_refl _

/-- Where the window of an edit starts: at the start of the text, or where the line of its first segment
starts. -/
def StartsAt (oldLines : LineTable) (segments : List Segment) (first start : Nat) : Prop :=
  if first = 0 then start = 0 else ∃ s, segments[first]? = some s ∧ oldLines.start? s.firstLine = some start

theorem StartsAt.unique {oldLines : LineTable} {segments : List Segment} {first start start' : Nat}
    (h : StartsAt oldLines segments first start) (h' : StartsAt oldLines segments first start') : start = start' := by
  unfold StartsAt at h h'
  split at h
  · rename_i hzero
    rw [if_pos hzero] at h'
    exact h.trans h'.symm
  · rename_i hpos
    rw [if_neg hpos] at h'
    obtain ⟨s, hs, hstart⟩ := h
    obtain ⟨s', hs', hstart'⟩ := h'
    obtain rfl : s = s' := Option.some.inj (hs.symm.trans hs')
    exact Option.some.inj (hstart.symm.trans hstart')

variable {d : LineChange} {old new before removed added behind : List Char} {lo hi : Nat} {ps : List Piece}

/-- The window starts where a line of the common start does, and what is kept in front is on earlier lines. -/
theorem windowStart_spec (h : d.Parts old new before removed added behind)
    (hps : Piece.InOrder (LineTable.ofText old) lo hi ps) {start : Nat}
    (hs : StartsAt (LineTable.ofText old) (Piece.segments 0 0 ps)
      (firstAffected (Piece.segments 0 0 ps) d.firstLine) start) :
    ∃ u v, before = u ++ v ∧ start = Text.bytes u ∧ Text.EndsLine u ∧
      ∀ p ∈ ps.take (firstAffected (Piece.segments 0 0 ps) d.firstLine),
        p.lastLine < u.count '\n' ∧ p.range.stop ≤ Text.bytes u := by
  obtain ⟨first, hfirst⟩ : ∃ first, first = firstAffected (Piece.segments 0 0 ps) d.firstLine := ⟨_, rfl⟩
  rw [← hfirst] at hs ⊢
  unfold StartsAt at hs
  split at hs
  · rename_i hzero
    exact ⟨[], before, rfl, hs, .inl rfl, by simp [hzero]⟩
  · rename_i hpos
    obtain ⟨s, hseg, hstart⟩ := hs
    have hlead := hps.leading (q := fun n => decide (n < d.firstLine))
      (by simp only [decide_eq_true_eq]; omega)
    have hpoint := partitionPoint_eq hlead
    have hle := backToStatement_le (Piece.segments 0 0 ps)
      (partitionPoint (fun s : Segment => decide (s.firstLine < d.firstLine)) (Piece.segments 0 0 ps) - 1 - 1)
    have hlt : first < ((Piece.segments 0 0 ps).takeWhile fun s => decide (s.firstLine < d.firstLine)).length := by
      rw [hpoint] at hle
      rw [firstAffected, hpoint] at hfirst
      omega
    have hline : s.firstLine < d.firstLine := by
      have hany := hlead.any_getElem? first
      rw [hseg] at hany
      simpa using hany.trans (decide_eq_true hlt)
    rw [h.firstLine] at hline
    have hcount : s.firstLine ≠ (LineTable.ofText old).count := by
      rw [LineTable.count_ofText, h.old, List.count_append, List.count_append]
      omega
    rw [LineTable.start?, if_neg hcount] at hstart
    obtain ⟨u, w, hold, hu, hn, hends⟩ := LineTable.starts_getElem? hstart
    have hbefore : u <+: before := by
      have hb : before <+: old := ⟨removed ++ behind, by rw [h.old, List.append_assoc]⟩
      refine (List.prefix_or_prefix_of_prefix ⟨w, hold.symm⟩ hb).resolve_right fun hbu => ?_
      have := hbu.sublist.count_le '\n'
      omega
    obtain ⟨v, hv⟩ := hbefore
    refine ⟨u, v, hv.symm, hu, hends, fun p hp => ?_⟩
    rw [Piece.segments_getElem?] at hseg
    obtain ⟨q, hq, rfl⟩ := Option.map_eq_some_iff.mp hseg
    have hlast : p.lastLine < u.count '\n' := hn ▸ hps.lastLine_lt hp hq
    refine ⟨hlast, (hps.sound p (List.mem_of_mem_take hp)).stop_le ?_⟩
    rw [hold, LineTable.lineOf_bytes]
    exact hlast

theorem nextStatement_ge {segments : List Segment} {i : Nat} (h : nextStatement segments i < segments.length) :
    i ≤ nextStatement segments i := by
  unfold nextStatement at *
  dsimp only at *
  rcases Nat.le_total i segments.length with hi | hi
  · rw [Nat.min_eq_left hi]
    omega
  · rw [Nat.min_eq_right hi] at h
    omega

theorem getElem?_length_takeWhile {α : Type} (p : α → Bool) (as : List α) :
    as[(as.takeWhile p).length]? = (as.dropWhile p).head? := by
  induction as with
  | nil => rfl
  | cons a as ih => cases ha : p a <;> simp [ha, ih]

theorem nextStatement_counts {segments : List Segment} {i : Nat} {s : Segment}
    (hs : segments[nextStatement segments i]? = some s) : s.statements ≠ 0 := by
  unfold nextStatement at hs
  dsimp only at hs
  rw [← List.getElem?_drop, getElem?_length_takeWhile] at hs
  have hhead := List.head?_dropWhile_not (fun s : Segment => s.statements == 0)
    (segments.drop (min i segments.length))
  rw [hs] at hhead
  simpa using hhead

/-- A piece that starts on a line behind the changed ones starts behind the change. -/
theorem start_of_line_lt (h : d.Parts old new before removed added behind) {p : Piece}
    (hp : p.Sound (LineTable.ofText old))
    (hline : ((LineTable.ofText old).linesOf d.oldRange).2 < p.firstLine) :
    Text.bytes (before ++ removed) ≤ p.range.start := by
  rw [hp.firstLine_eq] at hline
  rw [← h.oldStop]
  by_cases hproper : d.oldRange.start < d.oldRange.stop
  · exact LineTable.stop_le_of_line_lt (LineTable.ofText old) hproper hline
  · have hbounds : d.oldStop ≤ d.start := Nat.le_of_not_lt hproper
    have hle : (LineTable.ofText old).lineOf d.start ≤ ((LineTable.ofText old).linesOf d.oldRange).2 :=
      Nat.le_max_right _ _
    refine Nat.le_trans hbounds (Nat.le_of_not_lt fun hlt => ?_)
    have := (LineTable.ofText old).lineOf_mono (Nat.le_of_lt hlt)
    omega

/-- How many segments start at or above the last changed line. -/
def affected (old : List Char) (d : LineChange) (segments : List Segment) : Nat :=
  partitionPoint (fun s : Segment => s.firstLine ≤ ((LineTable.ofText old).linesOf d.oldRange).2) segments

theorem kept_behind (h : d.Parts old new before removed added behind)
    (hps : Piece.InOrder (LineTable.ofText old) lo hi ps) {i : Nat}
    (hi : affected old d (Piece.segments 0 0 ps) ≤ i) :
    ∀ p ∈ ps.drop i, Text.bytes (before ++ removed) ≤ p.range.start := by
  intro p hp
  have hlead := hps.leading (q := fun n => decide (n ≤ ((LineTable.ofText old).linesOf d.oldRange).2))
    (by simp only [decide_eq_true_eq]; omega)
  obtain ⟨j, hj⟩ := List.mem_iff_getElem?.mp hp
  rw [List.getElem?_drop] at hj
  have hany := hlead.any_getElem? (i + j)
  rw [Piece.segments_getElem?, hj] at hany
  rw [affected, partitionPoint_eq hlead] at hi
  have hline : ¬p.firstLine ≤ ((LineTable.ofText old).linesOf d.oldRange).2 := by
    intro hle
    have hlt := hany.symm.trans (decide_eq_true hle)
    simp only [decide_eq_true_eq] at hlt
    omega
  exact start_of_line_lt h (hps.sound p (List.mem_of_mem_drop hp)) (by omega)

end Splice

end Calculation
