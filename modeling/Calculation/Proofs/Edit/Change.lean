import Calculation.Edit.LineChange
import Calculation.Proofs.Document.Lines

namespace Calculation

namespace Text

/-- A text that is empty or ends with a line feed: what follows it starts a line. -/
def EndsLine (cs : List Char) : Prop :=
  cs = [] ∨ cs.getLast? = some '\n'

theorem EndsLine.append {a b : List Char} (ha : EndsLine a) (hb : EndsLine b) : EndsLine (a ++ b) := by
  rcases hb with rfl | hb
  · rwa [List.append_nil]
  · exact .inr (by rw [List.getLast?_append, hb]; rfl)

/-- A line with its line feed, which is the only one in it. -/
def IsFullLine (l : List Char) : Prop :=
  ∃ m, l = m ++ ['\n'] ∧ m.count '\n' = 0

theorem IsFullLine.cons {l : List Char} {c : Char} (h : IsFullLine l) (hc : c ≠ '\n') : IsFullLine (c :: l) := by
  obtain ⟨m, rfl, hm⟩ := h
  exact ⟨c :: m, rfl, by rw [List.count_cons_of_ne hc, hm]⟩

/-- All lines but the last are full, and the last one holds no line feed. -/
theorem lines_shape (cs : List Char) : ∃ full last, (∀ l ∈ full, IsFullLine l) ∧ last.count '\n' = 0 ∧
    lines cs = full ++ if last = [] then [] else [last] := by
  induction cs with
  | nil => exact ⟨[], [], by simp, rfl, rfl⟩
  | cons c cs ih =>
    obtain ⟨full, last, hfull, hlast, heq⟩ := ih
    rw [lines]
    by_cases hc : c = '\n'
    · rw [if_pos hc]
      refine ⟨[c] :: full, last, List.forall_mem_cons.mpr ⟨⟨[], by rw [hc]; rfl, rfl⟩, hfull⟩, hlast, ?_⟩
      rw [heq]
      rfl
    · rw [if_neg hc, heq]
      cases full with
      | nil =>
        refine ⟨[], c :: last, by simp, by rw [List.count_cons_of_ne hc, hlast], ?_⟩
        by_cases hempty : last = []
        · simp [hempty]
        · simp [hempty]
      | cons l ls =>
        obtain ⟨hl, hls⟩ := List.forall_mem_cons.mp hfull
        exact ⟨(c :: l) :: ls, last, List.forall_mem_cons.mpr ⟨hl.cons hc, hls⟩, hlast, rfl⟩

theorem flatten_full {ls : List (List Char)} (h : ∀ l ∈ ls, IsFullLine l) :
    EndsLine ls.flatten ∧ ls.flatten.count '\n' = ls.length := by
  induction ls with
  | nil => exact ⟨.inl rfl, rfl⟩
  | cons l ls ih =>
    obtain ⟨⟨m, rfl, hm⟩, hls⟩ := List.forall_mem_cons.mp h
    obtain ⟨hends, hcount⟩ := ih hls
    rw [List.flatten_cons]
    refine ⟨EndsLine.append (.inr (by simp)) hends, ?_⟩
    rw [List.count_append, List.count_append, hm, hcount, List.length_cons, List.count_singleton_self]
    omega

/-- Lines that others follow are full. -/
theorem full_of_lines {cs : List Char} {as bs : List (List Char)} (h : lines cs = as ++ bs) (hb : bs ≠ []) :
    ∀ l ∈ as, IsFullLine l := by
  obtain ⟨full, last, hfull, -, heq⟩ := lines_shape cs
  have hlead : as <+: full := by
    refine List.prefix_of_prefix_length_le (⟨bs, rfl⟩ : as <+: as ++ bs) ⟨_, (h ▸ heq).symm⟩ ?_
    have hlen := congrArg List.length (h ▸ heq : as ++ bs = _)
    have hpos := List.length_pos_iff.mpr hb
    rw [List.length_append, List.length_append] at hlen
    split at hlen
    · simp only [List.length_nil] at hlen
      omega
    · simp only [List.length_singleton] at hlen
      omega
  exact fun l hl => hfull l (hlead.subset hl)

theorem full_of_getLast? {cs : List Char} {l : List Char} (hl : l ∈ lines cs) (hn : l.getLast? = some '\n') :
    IsFullLine l := by
  obtain ⟨full, last, hfull, hlast, heq⟩ := lines_shape cs
  rw [heq] at hl
  rcases List.mem_append.mp hl with hl | hl
  · exact hfull l hl
  · split at hl
    · cases hl
    · cases List.mem_singleton.mp hl
      have hmem := List.mem_of_getLast? hn
      exact absurd (List.count_eq_zero.mp hlast) (fun h => h hmem)

end Text

section

variable {α : Type} [DecidableEq α]

theorem commonStart_prefix (as bs : List α) : commonStart as bs <+: as ∧ commonStart as bs <+: bs := by
  induction as generalizing bs with
  | nil => simp [commonStart]
  | cons a as ih =>
    cases bs with
    | nil => simp [commonStart]
    | cons b bs =>
      simp only [commonStart]
      split
      · rename_i hab
        subst hab
        exact ⟨(List.prefix_cons_inj a).mpr (ih bs).1, (List.prefix_cons_inj a).mpr (ih bs).2⟩
      · simp

/-- Two lists with what they have in common at their ends taken off. -/
theorem commonEnd_split (as bs : List α) :
    as = as.take (as.length - (commonStart as.reverse bs.reverse).length) ++
        (commonStart as.reverse bs.reverse).reverse ∧
      bs = bs.take (bs.length - (commonStart as.reverse bs.reverse).length) ++
        (commonStart as.reverse bs.reverse).reverse := by
  have hsplit : ∀ cs ds : List α, cs <+: ds.reverse → ds = ds.take (ds.length - cs.length) ++ cs.reverse := by
    intro cs ds h
    obtain ⟨es, hes⟩ := h
    have hds : ds = es.reverse ++ cs.reverse := by
      rw [← List.reverse_append, hes, List.reverse_reverse]
    rw [hds]
    simp
  obtain ⟨ha, hb⟩ := commonStart_prefix as.reverse bs.reverse
  exact ⟨hsplit _ _ ha, hsplit _ _ hb⟩

end

namespace LineChange

/-- A change with the parts of the two texts that it tells apart: `before` and `behind` are common, `removed`
stands between them in the old text and `added` in the new one. -/
structure Parts (d : LineChange) (old new before removed added behind : List Char) : Prop where
  old : old = before ++ removed ++ behind
  new : new = before ++ added ++ behind
  start : d.start = Text.bytes before
  oldStop : d.oldStop = Text.bytes (before ++ removed)
  newStop : d.newStop = Text.bytes (before ++ added)
  firstLine : d.firstLine = before.count '\n'
  lineDelta : d.lineDelta = (added.count '\n' : Int) - removed.count '\n'
  before_ends : Text.EndsLine before
  behind_starts : behind = [] ∨ Text.EndsLine (before ++ removed) ∧ Text.EndsLine (before ++ added)

theorem ofLines_parts (old new : List Char) : ∃ before removed added behind,
    (ofLines (Text.lines old) (Text.lines new)).Parts old new before removed added behind := by
  obtain ⟨common, hcommon⟩ : ∃ common, common = (commonStart (Text.lines old) (Text.lines new)).takeWhile
      fun l => l.getLast? == some '\n' := ⟨_, rfl⟩
  have hlead := List.takeWhile_prefix (l := commonStart (Text.lines old) (Text.lines new))
    fun l => l.getLast? == some '\n'
  have hends := List.all_takeWhile (l := commonStart (Text.lines old) (Text.lines new))
    (p := fun l => l.getLast? == some '\n')
  rw [← hcommon] at hlead hends
  obtain ⟨holdp, hnewp⟩ := commonStart_prefix (Text.lines old) (Text.lines new)
  have hold := List.prefix_iff_eq_append.mp (hlead.trans holdp)
  have hnew := List.prefix_iff_eq_append.mp (hlead.trans hnewp)
  obtain ⟨ending, hending⟩ : ∃ ending, ending = commonStart ((Text.lines old).drop common.length).reverse
      ((Text.lines new).drop common.length).reverse := ⟨_, rfl⟩
  obtain ⟨holds, hnews⟩ := commonEnd_split ((Text.lines old).drop common.length)
    ((Text.lines new).drop common.length)
  rw [← hending] at holds hnews
  have hfull : ∀ l ∈ common, Text.IsFullLine l := fun l hl =>
    Text.full_of_getLast? ((hlead.trans holdp).subset hl) (beq_iff_eq.mp (List.all_eq_true.mp hends l hl))
  obtain ⟨removed, hremoved⟩ : ∃ removed, removed = ((Text.lines old).drop common.length).take
      (((Text.lines old).drop common.length).length - ending.length) := ⟨_, rfl⟩
  obtain ⟨added, hadded⟩ : ∃ added, added = ((Text.lines new).drop common.length).take
      (((Text.lines new).drop common.length).length - ending.length) := ⟨_, rfl⟩
  rw [← hremoved] at holds
  rw [← hadded] at hnews
  have hlines : Text.lines old = (common ++ removed) ++ ending.reverse := by
    rw [List.append_assoc, ← holds, hold]
  have hlines' : Text.lines new = (common ++ added) ++ ending.reverse := by
    rw [List.append_assoc, ← hnews, hnew]
  have hflat : ∀ {cs : List Char} {ls : List (List Char)}, Text.lines cs = (common ++ ls) ++ ending.reverse →
      cs = common.flatten ++ ls.flatten ++ ending.reverse.flatten := by
    intro cs ls h
    rw [← Text.flatten_lines cs, h, List.flatten_append, List.flatten_append]
  have hclosed : ∀ {cs : List Char} {ls : List (List Char)}, Text.lines cs = (common ++ ls) ++ ending.reverse →
      ending ≠ [] → Text.EndsLine (common.flatten ++ ls.flatten) := by
    intro cs ls h hne
    rw [← List.flatten_append]
    exact (Text.flatten_full (Text.full_of_lines h (by simpa using hne))).1
  refine ⟨common.flatten, removed.flatten, added.flatten, ending.reverse.flatten, hflat hlines, hflat hlines',
    ?_, ?_, ?_, ?_, ?_, (Text.flatten_full hfull).1, ?_⟩
  · simp only [ofLines, ← hcommon]
  · simp only [ofLines, ← hcommon, ← hending, ← hremoved, Text.bytes_append]
  · simp only [ofLines, ← hcommon, ← hending, ← hadded, Text.bytes_append]
  · simp only [ofLines, ← hcommon, (Text.flatten_full hfull).2]
  · simp only [ofLines, ← hcommon, ← hending, ← hadded, ← hremoved]
  · by_cases hne : ending = []
    · exact .inl (by rw [hne]; rfl)
    · exact .inr ⟨hclosed hlines hne, hclosed hlines' hne⟩

/-- A change is found between two texts that differ, and only then. -/
theorem between?_eq_some {old new : List Char} {d : LineChange} (h : between? old new = some d) :
    ∃ before removed added behind, d.Parts old new before removed added behind := by
  unfold between? at h
  split at h
  · cases h
  · cases h
    exact ofLines_parts old new

theorem between?_eq_none {old new : List Char} : between? old new = none ↔ old = new := by
  unfold between?
  split <;> simp_all

end LineChange

end Calculation
