import Mathlib.Data.List.TakeWhile
import Calculation.Edit.Splice
import Calculation.Proofs.Edit.Boundary

/-!
What a change leaves alone. The common start and the common end that a change is found between are the longest ones of
whole lines, and the lines that an outline names as changed are those between them: in front of these the new text has
the lines of the old one, and behind them too, as many lines further on as the edit added line feeds.
-/
namespace Calculation

section

variable {α : Type} [DecidableEq α]

/-- What two lists both start with starts what they have in common. -/
theorem prefix_commonStart {ps as bs : List α} (ha : ps <+: as) (hb : ps <+: bs) : ps <+: commonStart as bs := by
  induction ps generalizing as bs with
  | nil => exact List.nil_prefix
  | cons p ps ih =>
    obtain ⟨as', rfl⟩ := ha
    obtain ⟨bs', rfl⟩ := hb
    rw [List.cons_append, List.cons_append, commonStart, if_pos rfl]
    exact (List.prefix_cons_inj p).mpr (ih (List.prefix_append ps as') (List.prefix_append ps bs'))

end

namespace Text

variable {a b cs m : List Char} {ls : List (List Char)}

theorem lines_cons_full (hm : m.count '\n' = 0) (b : List Char) :
    lines (m ++ '\n' :: b) = (m ++ ['\n']) :: lines b := by
  induction m with
  | nil => rw [List.nil_append, lines, if_pos rfl, List.nil_append]
  | cons c m ih =>
    have hc : c ≠ '\n' := fun hc => by simp [hc] at hm
    rw [List.count_cons_of_ne hc] at hm
    rw [List.cons_append, lines, if_neg hc, ih hm]
    rfl

theorem lines_flatten_append (h : ∀ l ∈ ls, IsFullLine l) (b : List Char) :
    lines (ls.flatten ++ b) = ls ++ lines b := by
  induction ls with
  | nil => rfl
  | cons l ls ih =>
    obtain ⟨⟨m, rfl, hm⟩, hls⟩ := List.forall_mem_cons.mp h
    have hassoc : ((m ++ ['\n']) :: ls).flatten ++ b = m ++ '\n' :: (ls.flatten ++ b) := by simp
    rw [hassoc, lines_cons_full hm, ih hls, List.cons_append]

theorem bytes_pos (h : cs ≠ []) : 0 < bytes cs := by
  cases cs with
  | nil => exact absurd rfl h
  | cons c cs =>
    have := c.utf8Size_pos
    rw [bytes_cons]
    omega

/-- The last byte of a text lies on its last line. -/
theorem lineOf_last (h : cs ≠ []) : (LineTable.ofText cs).lineOf (bytes cs - 1) + 1 = (lines cs).length := by
  obtain ⟨full, last, hfull, hlast, heq⟩ := lines_shape cs
  obtain ⟨hends, hcount⟩ := flatten_full hfull
  have hflat := heq ▸ flatten_lines cs
  rw [heq]
  by_cases hne : last = []
  · rw [if_pos hne, List.append_nil] at hflat ⊢
    -- The last byte is a line feed, and it lies on the line that it ends.
    obtain ⟨front, rfl⟩ : ∃ front, cs = front ++ ['\n'] := by
      rcases hflat ▸ hends with hnil | hfeed
      · exact absurd hnil h
      · exact List.getLast?_eq_some_iff.mp hfeed
    have hbytes : bytes (front ++ ['\n']) - 1 = bytes front := by
      rw [bytes_append]
      exact Nat.add_sub_cancel ..
    have hline := LineTable.lineOf_bytes front []
    rw [List.append_nil] at hline
    rw [hbytes, LineTable.lineOf_prefix _ _ (Nat.le_refl _), hline, ← hcount, hflat, List.count_append]
    rfl
  · rw [if_neg hne, List.flatten_append, List.flatten_singleton] at hflat
    have hpos := bytes_pos hne
    have hbytes : bytes (full.flatten ++ last) - 1 = bytes full.flatten + (bytes last - 1) := by
      rw [bytes_append]
      omega
    have hzero : (LineTable.ofText last).lineOf (bytes last - 1) = 0 := by
      have hmono := (LineTable.ofText last).lineOf_mono (Nat.sub_le (bytes last) 1)
      have hline := LineTable.lineOf_bytes last []
      rw [List.append_nil, hlast] at hline
      omega
    rw [← hflat, hbytes, LineTable.lineOf_suffix, hzero, hcount, List.length_append, if_neg hne]
    rfl

/-- Lines that a text starts with are the lines of what they make. -/
theorem lines_flatten_front {as bs : List (List Char)} (h : lines cs = as ++ bs) : lines as.flatten = as := by
  by_cases hb : bs = []
  · rw [hb, List.append_nil] at h
    rw [← h, flatten_lines]
  · have hfull := lines_flatten_append (full_of_lines h hb) []
    rwa [List.append_nil, lines, List.append_nil] at hfull

theorem lines_ne_nil {l : List Char} (h : l ∈ lines cs) : l ≠ [] := by
  obtain ⟨full, last, hfull, -, heq⟩ := lines_shape cs
  rw [heq] at h
  rcases List.mem_append.mp h with h | h
  · obtain ⟨m, rfl, -⟩ := hfull l h
    simp
  · split at h
    · cases h
    · rename_i hne
      exact List.mem_singleton.mp h ▸ hne

/-- Lines at the end of a text that take no more than what stands behind a place stand behind it. -/
theorem suffix_of_bytes_le {as bs : List (List Char)} (h : lines cs = as ++ bs) (hs : ls <:+ lines cs)
    (hle : bytes ls.flatten ≤ bytes bs.flatten) : ls <:+ bs := by
  rw [h] at hs
  rcases List.suffix_or_suffix_of_suffix hs (List.suffix_append as bs) with hs | ⟨t, rfl⟩
  · exact hs
  · cases t with
    | nil => exact List.suffix_rfl
    | cons l t =>
      obtain ⟨front, hfront⟩ := hs
      have hmem : l ∈ lines cs := by simp [h, ← hfront]
      have hpos := bytes_pos (lines_ne_nil hmem)
      rw [List.cons_append, List.flatten_cons, List.flatten_append, bytes_append, bytes_append] at hle
      omega

end Text

namespace LineChange
open Text

variable {d : LineChange} {old new : List Char} {before removed added behind : List (List Char)}

/-- A change with the lines of the two texts that it tells apart. -/
structure Blocks (d : LineChange) (old new : List Char) (before removed added behind : List (List Char)) : Prop where
  oldLines : lines old = before ++ (removed ++ behind)
  newLines : lines new = before ++ (added ++ behind)
  start : d.start = bytes before.flatten
  oldStop : d.oldStop = d.start + bytes removed.flatten
  newStop : d.newStop = d.start + bytes added.flatten
  firstLine : d.firstLine = before.length
  lineDelta : d.lineDelta = (added.flatten.count '\n' : Int) - removed.flatten.count '\n'
  before_full : ∀ l ∈ before, IsFullLine l
  before_longest : ∀ ls, ls <+: lines old → ls <+: lines new → ls <+: before
  behind_longest : ∀ ls, ls <:+ removed ++ behind → ls <:+ added ++ behind → ls <:+ behind

/-- Lines at the start of two texts that differ are full. -/
theorem commonStart_full (h : old ≠ new) : ∀ l ∈ commonStart (lines old) (lines new), IsFullLine l := by
  obtain ⟨⟨oldRest, hold⟩, newRest, hnew⟩ := commonStart_prefix (lines old) (lines new)
  by_cases ho : oldRest = []
  · by_cases hn : newRest = []
    · rw [ho, List.append_nil] at hold
      rw [hn, List.append_nil] at hnew
      exact absurd (by rw [← flatten_lines old, ← hold, hnew, flatten_lines]) h
    · exact full_of_lines hnew.symm hn
  · exact full_of_lines hold.symm ho

theorem ofLines_blocks (h : old ≠ new) :
    ∃ before removed added behind, (ofLines (lines old) (lines new)).Blocks old new before removed added behind := by
  have hfull := commonStart_full h
  have hall : (commonStart (lines old) (lines new)).takeWhile (fun l => l.getLast? == some '\n') =
      commonStart (lines old) (lines new) := by
    refine List.takeWhile_eq_self_iff.mpr fun l hl => ?_
    obtain ⟨m, rfl, -⟩ := hfull l hl
    simp
  obtain ⟨common, hcommon⟩ : ∃ common, common = commonStart (lines old) (lines new) := ⟨_, rfl⟩
  rw [← hcommon] at hall hfull
  obtain ⟨hstart, hstart'⟩ := commonStart_prefix (lines old) (lines new)
  rw [← hcommon] at hstart hstart'
  have hold := List.prefix_iff_eq_append.mp hstart
  have hnew := List.prefix_iff_eq_append.mp hstart'
  obtain ⟨holds, hnews⟩ := commonEnd_split ((lines old).drop common.length) ((lines new).drop common.length)
  refine ⟨common, _, _, _, by rw [← holds, hold], by rw [← hnews, hnew], ?_, ?_, ?_, ?_, ?_, hfull, ?_, ?_⟩
  · simp only [ofLines, ← hcommon, hall]
  · simp only [ofLines, ← hcommon, hall]
  · simp only [ofLines, ← hcommon, hall]
  · simp only [ofLines, ← hcommon, hall]
  · simp only [ofLines, ← hcommon, hall]
  · exact fun ls ho hn => hcommon ▸ prefix_commonStart ho hn
  · intro ls ho hn
    rw [← holds] at ho
    rw [← hnews] at hn
    rw [← List.reverse_reverse ls]
    exact List.reverse_suffix.mpr (prefix_commonStart (List.reverse_prefix.mpr ho) (List.reverse_prefix.mpr hn))

theorem between?_blocks (h : old ≠ new) : ∃ d, between? old new = some d ∧
    ∃ before removed added behind, d.Blocks old new before removed added behind :=
  ⟨_, if_neg h, ofLines_blocks h⟩

/-- A line starts at the offset, or the text ends there. -/
def AtLine (cs : List Char) (offset : Nat) : Prop :=
  offset ∈ (LineTable.ofText cs).starts ∨ offset = bytes cs

/-- What a change tells of two texts: they are the same in front of it and behind it, it is cut at whole lines, and no
more whole lines are common at either end. -/
structure Exact (d : LineChange) (old new : List Char) : Prop where
  bounds : d.start ≤ d.oldStop ∧ d.oldStop ≤ bytes old ∧ d.start ≤ d.newStop ∧ d.newStop ≤ bytes new
  front : ∃ before oldRest newRest, splitAt? d.start old = some (before, oldRest) ∧
    splitAt? d.start new = some (before, newRest) ∧ d.firstLine = before.count '\n'
  back : ∃ behind oldFront newFront, splitAt? d.oldStop old = some (oldFront, behind) ∧
    splitAt? d.newStop new = some (newFront, behind)
  start_line : d.start ∈ (LineTable.ofText old).starts ∧ d.start ∈ (LineTable.ofText new).starts
  stop_line : AtLine old d.oldStop ∧ AtLine new d.newStop
  lineDelta : d.lineDelta = (new.count '\n' : Int) - old.count '\n'
  front_longest : ∀ ls, ls <+: lines old → ls <+: lines new → bytes ls.flatten ≤ d.start
  back_longest : ∀ ls, ls <:+ lines old → ls <:+ lines new → d.start + bytes ls.flatten ≤ bytes old →
    d.start + bytes ls.flatten ≤ bytes new →
    d.oldStop + bytes ls.flatten ≤ bytes old ∧ d.newStop + bytes ls.flatten ≤ bytes new

theorem mem_starts {u : List Char} (hu : EndsLine u) (v : List Char) :
    bytes u ∈ (LineTable.ofText (u ++ v)).starts := by
  rcases hu with rfl | hu
  · exact List.mem_cons_self
  · obtain ⟨w, rfl⟩ : ∃ w, u = w ++ ['\n'] := List.getLast?_eq_some_iff.mp hu
    refine List.mem_cons_of_mem _ ?_
    rw [List.append_assoc, LineTable.startsAfter_append, bytes_append, Nat.zero_add]
    exact List.mem_append_right _ List.mem_cons_self

/-- Where lines of a text follow others, or none do, a line starts or the text ends. -/
theorem atLine_of_lines {cs : List Char} {as bs : List (List Char)} (h : lines cs = as ++ bs) :
    AtLine cs (bytes as.flatten) := by
  have hflat : cs = as.flatten ++ bs.flatten := by rw [← List.flatten_append, ← h, flatten_lines]
  by_cases hb : bs = []
  · rw [hb, List.flatten_nil, List.append_nil] at hflat
    exact .inr (congrArg bytes hflat.symm)
  · rw [hflat]
    exact .inl (mem_starts (flatten_full (full_of_lines h hb)).1 _)

namespace Blocks

variable (h : d.Blocks old new before removed added behind)

include h

theorem old_eq : old = before.flatten ++ (removed.flatten ++ behind.flatten) := by
  rw [← List.flatten_append, ← List.flatten_append, ← h.oldLines, flatten_lines]

theorem new_eq : new = before.flatten ++ (added.flatten ++ behind.flatten) := by
  rw [← List.flatten_append, ← List.flatten_append, ← h.newLines, flatten_lines]

theorem oldStop_eq : d.oldStop = bytes (before ++ removed).flatten := by
  rw [h.oldStop, h.start, List.flatten_append, bytes_append]

theorem newStop_eq : d.newStop = bytes (before ++ added).flatten := by
  rw [h.newStop, h.start, List.flatten_append, bytes_append]

theorem bytes_old : bytes old = d.oldStop + bytes behind.flatten := by
  rw [congrArg bytes h.old_eq, h.oldStop, h.start, bytes_append, bytes_append, Nat.add_assoc]

theorem bytes_new : bytes new = d.newStop + bytes behind.flatten := by
  rw [congrArg bytes h.new_eq, h.newStop, h.start, bytes_append, bytes_append, Nat.add_assoc]

theorem exact : d.Exact old new := by
  have holdStop := h.oldStop
  have hnewStop := h.newStop
  have hbytes := h.bytes_old
  have hbytes' := h.bytes_new
  refine ⟨by omega, ?_, ?_, ?_, ?_, ?_, fun ls ho hn => ?_, fun ls ho hn hlo hln => ?_⟩
  · refine ⟨before.flatten, removed.flatten ++ behind.flatten, added.flatten ++ behind.flatten, ?_, ?_, ?_⟩
    · rw [h.start, h.old_eq, splitAt?_bytes]
    · rw [h.start, h.new_eq, splitAt?_bytes]
    · rw [h.firstLine, (flatten_full h.before_full).2]
  · refine ⟨behind.flatten, (before ++ removed).flatten, (before ++ added).flatten, ?_, ?_⟩
    · rw [h.oldStop_eq, h.old_eq, ← List.append_assoc, ← List.flatten_append, splitAt?_bytes]
    · rw [h.newStop_eq, h.new_eq, ← List.append_assoc, ← List.flatten_append, splitAt?_bytes]
  · have hends := (flatten_full h.before_full).1
    rw [h.start]
    exact ⟨h.old_eq ▸ mem_starts hends _, h.new_eq ▸ mem_starts hends _⟩
  · rw [h.oldStop_eq, h.newStop_eq]
    exact ⟨atLine_of_lines (h.oldLines.trans (List.append_assoc ..).symm),
      atLine_of_lines (h.newLines.trans (List.append_assoc ..).symm)⟩
  · rw [h.lineDelta, congrArg (List.count '\n') h.old_eq, congrArg (List.count '\n') h.new_eq]
    simp only [List.count_append]
    omega
  · obtain ⟨t, rfl⟩ := h.before_longest ls ho hn
    rw [h.start, List.flatten_append, bytes_append]
    omega
  · obtain ⟨t, rfl⟩ : ls <:+ behind := by
      refine h.behind_longest ls (suffix_of_bytes_le h.oldLines ho ?_) (suffix_of_bytes_le h.newLines hn ?_)
      · rw [List.flatten_append, bytes_append]
        omega
      · rw [List.flatten_append, bytes_append]
        omega
    rw [List.flatten_append, bytes_append] at hbytes hbytes'
    omega

/-- The lines that the change touches are those that it added, or the one behind it when it only took lines away. -/
theorem touched : d.touchedLines (.ofText new) = List.range' before.length (max 1 added.length) := by
  have hfirst : (LineTable.ofText new).lineOf d.start = before.length := by
    rw [h.start, h.new_eq, LineTable.lineOf_bytes, (flatten_full h.before_full).2]
  have hlines : (LineTable.ofText new).linesOf d.newRange =
      (before.length, before.length + max 1 added.length - 1) := by
    by_cases hempty : added.flatten = []
    · have hnone : added = [] := by
        have hlines := lines_flatten_front (h.newLines.trans (List.append_assoc ..).symm)
        have hfront := lines_flatten_front h.newLines
        rw [List.flatten_append, hempty, List.append_nil, hfront] at hlines
        exact List.self_eq_append_right.mp hlines
      have hsame : d.newStop = d.start := by rw [h.newStop, hempty]; rfl
      rw [LineTable.linesOf, newRange, hsame, hfirst, hnone]
      simp [Range.isEmpty]
    · have hpos := bytes_pos hempty
      have hstop := h.newStop
      have hlines := lines_flatten_front (h.newLines.trans (List.append_assoc ..).symm)
      have hlast := lineOf_last (show (before ++ added).flatten ≠ [] by simp [hempty])
      have hprefix : (LineTable.ofText new).lineOf (d.newStop - 1) =
          (LineTable.ofText (before ++ added).flatten).lineOf (d.newStop - 1) := by
        rw [h.new_eq, ← List.append_assoc, ← List.flatten_append]
        exact LineTable.lineOf_prefix _ _ (by rw [← h.newStop_eq]; omega)
      rw [← h.newStop_eq, hlines, ← hprefix, List.length_append] at hlast
      have hsome : 0 < added.length := List.length_pos_iff.mpr fun hnil => hempty (hnil ▸ rfl)
      rw [LineTable.linesOf_proper _ (show d.start < d.newStop by omega), newRange, hfirst]
      simp only [Prod.mk.injEq, true_and]
      omega
  rw [LineChange.touchedLines, hlines, List.range'_eq_map_range]
  dsimp only
  congr 2
  omega

end Blocks

/-- The lines named as changed are a run that is not empty. A line of the new text in front of them is the same line of
the old text; one behind them is the line of the old text as many lines further up as line feeds were added. -/
structure ChangedRun (old new : List Char) (changed : List Nat) : Prop where
  run : ∃ first count, 0 < count ∧ changed = List.range' first count
  front : ∀ i l, (lines new)[i]? = some l → (∀ j ∈ changed, i < j) → (lines old)[i]? = some l
  back : ∀ (i : Nat) l, (lines new)[i]? = some l → (∀ j ∈ changed, j < i) →
    ∃ k : Nat, (k : Int) = i - ((new.count '\n' : Int) - old.count '\n') ∧ (lines old)[k]? = some l

theorem Blocks.changedRun (h : d.Blocks old new before removed added behind) :
    ChangedRun old new (d.touchedLines (.ofText new)) := by
  rw [h.touched]
  refine ⟨⟨_, _, Nat.le_max_left .., rfl⟩, fun i l hl hi => ?_, fun i l hl hi => ?_⟩
  · have hlt := hi before.length (List.mem_range'_1.mpr (by omega))
    rw [h.newLines, List.getElem?_append_left hlt] at hl
    rw [h.oldLines, List.getElem?_append_left hlt, hl]
  · have hlt := hi (before.length + max 1 added.length - 1) (List.mem_range'_1.mpr (by omega))
    rw [h.newLines, List.getElem?_append_right (by omega), List.getElem?_append_right (by omega)] at hl
    have hbehind : behind ≠ [] := by
      rintro rfl
      cases hl
    have hdelta := h.exact.lineDelta
    have hremoved := full_of_lines (h.oldLines.trans (List.append_assoc ..).symm) hbehind
    have hadded := full_of_lines (h.newLines.trans (List.append_assoc ..).symm) hbehind
    have hremoved := (flatten_full fun l hl => hremoved l (List.mem_append_right _ hl)).2
    have hadded := (flatten_full fun l hl => hadded l (List.mem_append_right _ hl)).2
    rw [h.lineDelta, hremoved, hadded] at hdelta
    refine ⟨i + removed.length - added.length, by omega, ?_⟩
    rw [h.oldLines, List.getElem?_append_right (by omega), List.getElem?_append_right (by omega), ← hl]
    congr 1
    omega

end LineChange

namespace Text

variable {cs : List Char}

/-- The lines made of the parts between line feeds; an empty part at the end is no line. -/
def withFeeds : List (List Char) → List (List Char)
  | [] => []
  | [m] => if m = [] then [] else [m]
  | m :: n :: ms => (m ++ ['\n']) :: withFeeds (n :: ms)

theorem lines_eq_withFeeds (cs : List Char) : lines cs = withFeeds (cs.splitOn '\n') := by
  induction cs with
  | nil => rfl
  | cons c cs ih =>
    rw [lines, List.splitOn_cons_eq_if_modifyHead, ih]
    cases hs : cs.splitOn '\n' with
    | nil => exact absurd hs (List.splitOnP_ne_nil _ _)
    | cons m ms =>
      by_cases hc : c = '\n'
      · simp [hc, withFeeds]
      · rw [if_neg hc, if_neg (by simpa using hc), List.modifyHead_cons]
        cases ms with
        | nil => by_cases hm : m = [] <;> simp [withFeeds, hm]
        | cons n ms => rfl

/-- What a part between others makes of itself: a full line, or at the end what it is. -/
def lineOfPart (m : List Char) (behind : List (List Char)) : List (List Char) :=
  if behind = [] then withFeeds [m] else [m ++ ['\n']]

theorem withFeeds_append (ps : List (List Char)) (m : List Char) (qs : List (List Char)) :
    withFeeds (ps ++ m :: qs) = ps.map (· ++ ['\n']) ++ (lineOfPart m qs ++ withFeeds qs) := by
  induction ps with
  | nil =>
    cases qs with
    | nil => simp [lineOfPart, withFeeds]
    | cons q qs => rfl
  | cons p ps ih =>
    obtain ⟨n, ms, hcons⟩ : ∃ n ms, ps ++ m :: qs = n :: ms := List.exists_cons_of_ne_nil (by simp)
    rw [List.cons_append, hcons, withFeeds, ← hcons, ih]
    rfl

theorem length_lineOfPart (m : List Char) (behind : List (List Char)) : (lineOfPart m behind).length ≤ 1 := by
  unfold lineOfPart withFeeds
  split
  · split <;> simp
  · simp

/-- Two parts that differ make no line in common. -/
theorem not_prefix_lineOfPart {m n l : List Char} {behind ls : List (List Char)} (h : m ≠ n)
    (hm : l :: ls <+: lineOfPart m behind ++ withFeeds behind) :
    ¬l :: ls <+: lineOfPart n behind ++ withFeeds behind := by
  intro hn
  cases behind with
  | nil =>
    simp only [lineOfPart, withFeeds, if_pos] at hm hn
    split at hm
    · simp at hm
    · split at hn
      · simp at hn
      · simp only [List.append_nil, List.cons_prefix_cons] at hm hn
        exact h (hm.1.symm.trans hn.1)
  | cons b bs =>
    rw [lineOfPart, if_neg (List.cons_ne_nil b bs), List.singleton_append, List.cons_prefix_cons] at hm hn
    exact h (by simpa using hm.1.symm.trans hn.1)

end Text

namespace LineChange
open Text

variable {d : LineChange} {old new : List Char} {before removed added behind : List (List Char)} {i : Nat}
  {m n : List Char}

/-- When one part between line feeds is put in place of another, its line is the one that the change touches. -/
theorem Blocks.touched_one (h : d.Blocks old new before removed added behind)
    (hm : (old.splitOn '\n')[i]? = some m) (hn : new.splitOn '\n' = (old.splitOn '\n').set i n) (hne : m ≠ n) :
    d.touchedLines (.ofText new) = [i] := by
  obtain ⟨ps, qs, hps, hsplit⟩ : ∃ ps qs, ps.length = i ∧ old.splitOn '\n' = ps ++ m :: qs := by
    obtain ⟨hlt, hget⟩ := List.getElem?_eq_some_iff.mp hm
    refine ⟨(old.splitOn '\n').take i, (old.splitOn '\n').drop (i + 1), List.length_take_of_le hlt.le, ?_⟩
    rw [← hget, ← List.drop_eq_getElem_cons hlt, List.take_append_drop]
  have hset : new.splitOn '\n' = ps ++ n :: qs := by
    rw [hn, hsplit, List.set_append_right _ _ (by omega), hps, Nat.sub_self, List.set_cons_zero]
  have hold := h.oldLines
  have hnew := h.newLines
  have hlines : lines old = ps.map (· ++ ['\n']) ++ (lineOfPart m qs ++ withFeeds qs) := by
    rw [lines_eq_withFeeds, hsplit, withFeeds_append]
  have hlines' : lines new = ps.map (· ++ ['\n']) ++ (lineOfPart n qs ++ withFeeds qs) := by
    rw [lines_eq_withFeeds, hset, withFeeds_append]
  -- The common start goes up to the line, and not further.
  obtain ⟨t, ht⟩ := h.before_longest _ (hlines ▸ List.prefix_append ..) (hlines' ▸ List.prefix_append ..)
  subst ht
  rw [hlines, List.append_assoc, List.append_cancel_left_eq] at hold
  rw [hlines', List.append_assoc, List.append_cancel_left_eq] at hnew
  have hnil : t = [] := by
    cases t with
    | nil => rfl
    | cons l ls =>
      have hm : l :: ls <+: lineOfPart m qs ++ withFeeds qs := ⟨_, hold.symm⟩
      exact absurd ⟨_, hnew.symm⟩ (not_prefix_lineOfPart hne hm)
  subst hnil
  rw [List.nil_append] at hold hnew
  -- The common end comes at least up to the line from behind.
  obtain ⟨u, hu⟩ := h.behind_longest (withFeeds qs) ⟨_, hold⟩ ⟨_, hnew⟩
  have hlen := congrArg List.length hnew
  have hone := length_lineOfPart n qs
  rw [← hu] at hlen
  simp only [List.length_append] at hlen
  have hcount : max 1 added.length = 1 := by omega
  rw [h.touched, hcount, List.append_nil, List.length_map, hps]
  rfl

end LineChange

namespace Outline
open Text

variable {options : Options} {threshold : Nat} {isCancelled : Bool} {old new : String} {previous o : Outline}
  {d : LineChange}

/-- An outline that was made after an edit names the lines that the edit touched. -/
theorem reparse?_changedLines (hd : LineChange.between? old.toList new.toList = some d)
    (h : reparse? options threshold isCancelled old previous new = some o) :
    o.changedLines = some (d.touchedLines (.ofText new.toList)) := by
  unfold reparse? at h
  rw [hd] at h
  dsimp only at h
  split at h
  · cases h
    rfl
  · cases h
  · obtain ⟨o', -, rfl⟩ := Option.map_eq_some_iff.mp h
    rfl

/-- An attempt that is not to be given up never is. -/
theorem attempt_uncancelled (e : Splice.Edited) (after : Nat) (growths : List Nat) :
    e.attempt false after growths ≠ .cancelled := by
  intro h
  induction growths with
  | nil => cases h
  | cons growth growths ih =>
    unfold Splice.Edited.attempt at h
    dsimp only at h
    split at h
    · cases h
    · rw [Bool.false_and, if_neg Bool.false_ne_true] at h
      split at h
      · cases h
      · exact ih h

/-- So an outline is always made. -/
theorem reparse?_uncancelled (options : Options) (threshold : Nat) (old new : String) (previous : Outline) :
    reparse? options threshold false old previous new = some (reparse options threshold old previous new) := by
  have hsome : ∃ o, reparse? options threshold false old previous new = some o := by
    unfold reparse?
    cases hd : LineChange.between? old.toList new.toList with
    | none => exact ⟨_, rfl⟩
    | some d =>
      dsimp only
      split
      · exact ⟨_, rfl⟩
      · rename_i hcancelled
        split at hcancelled
        · cases hcancelled
        · unfold Splice.attempt at hcancelled
          dsimp only at hcancelled
          split at hcancelled
          · cases hcancelled
          · split at hcancelled
            · cases hcancelled
            · exact absurd hcancelled (attempt_uncancelled _ _ _)
      · exact ⟨_, rfl⟩
  obtain ⟨o, ho⟩ := hsome
  rw [reparse, ho, Option.getD_some]

/-- Between two texts a change is found when they differ. It stands between their longest common ends of whole lines,
and the lines that an outline of the new text names as changed are the lines there: outside of them the new text has the
lines of the old one. When one part between line feeds is put in place of another, that is the one line named. -/
theorem changes_told (old new : String) :
    (LineChange.between? old.toList new.toList = none ↔ old = new) ∧
    (∀ d, LineChange.between? old.toList new.toList = some d → d.Exact old.toList new.toList) ∧
    (old ≠ new → ∃ changed, LineChange.ChangedRun old.toList new.toList changed ∧
      (∀ options threshold previous,
        (reparse options threshold old previous new).changedLines = some changed ∧
        ∀ isCancelled o, reparse? options threshold isCancelled old previous new = some o →
          o.changedLines = some changed) ∧
      ∀ i m n, (old.toList.splitOn '\n')[i]? = some m →
        new.toList.splitOn '\n' = (old.toList.splitOn '\n').set i n → m ≠ n → changed = [i]) := by
  refine ⟨LineChange.between?_eq_none.trans String.toList_inj, fun d hd => ?_, fun hne => ?_⟩
  · have hne : old.toList ≠ new.toList := fun he => by
      rw [LineChange.between?_eq_none.mpr he] at hd
      cases hd
    obtain ⟨d', hd', before, removed, added, behind, h⟩ := LineChange.between?_blocks hne
    rw [hd', Option.some.injEq] at hd
    exact hd ▸ h.exact
  · obtain ⟨d, hd, before, removed, added, behind, h⟩ :=
      LineChange.between?_blocks fun he => hne (String.toList_inj.mp he)
    refine ⟨_, h.changedRun, fun options threshold previous => ?_, fun i m n hm hn hmn => h.touched_one hm hn hmn⟩
    exact ⟨reparse?_changedLines hd (reparse?_uncancelled options threshold old new previous),
      fun isCancelled o ho => reparse?_changedLines hd ho⟩

/-- For instance one statement put in place of another. -/
theorem changes_told_one_line :
    (∃ d, LineChange.between? "[A]\n[B]\n[C]".toList "[A]\n[D]\n[C]".toList = some d ∧
      d.Exact "[A]\n[B]\n[C]".toList "[A]\n[D]\n[C]".toList) ∧
    (reparse .default 0 "[A]\n[B]\n[C]" (ofText .default "[A]\n[B]\n[C]") "[A]\n[D]\n[C]").changedLines =
      some [1] := by
  obtain ⟨-, hexact, hchanged⟩ := changes_told "[A]\n[B]\n[C]" "[A]\n[D]\n[C]"
  obtain ⟨changed, -, hnamed, hone⟩ := hchanged (by decide)
  refine ⟨⟨⟨4, 8, 8, 1, 0⟩, by decide, hexact _ (by decide)⟩, ?_⟩
  rw [(hnamed .default 0 _).1, hone 1 "[B]".toList "[D]".toList (by decide) (by decide) (by decide)]

end Outline

end Calculation
