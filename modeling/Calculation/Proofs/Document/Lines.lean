import Calculation.Text.Lines

namespace Calculation.LineTable

theorem startsAfter_append (offset : Nat) (a b : List Char) :
    startsAfter offset (a ++ b) = startsAfter offset a ++ startsAfter (offset + Text.bytes a) b := by
  induction a generalizing offset with
  | nil => rfl
  | cons c cs ih =>
    simp only [List.cons_append, startsAfter, ih, Text.bytes_cons, Nat.add_assoc]
    split <;> rfl

theorem startsAfter_add (offset n : Nat) (cs : List Char) :
    startsAfter (offset + n) cs = (startsAfter n cs).map (offset + ·) := by
  induction cs generalizing n with
  | nil => rfl
  | cons c cs ih =>
    simp only [startsAfter, Nat.add_assoc, ih]
    split <;> rfl

theorem mem_startsAfter {offset s : Nat} {cs : List Char} (h : s ∈ startsAfter offset cs) :
    offset < s ∧ s ≤ offset + Text.bytes cs := by
  induction cs generalizing offset with
  | nil => cases h
  | cons c cs ih =>
    have hc := c.utf8Size_pos
    have hrest : s ∈ startsAfter (offset + c.utf8Size) cs →
        offset < s ∧ s ≤ offset + Text.bytes (c :: cs) := by
      intro hs
      have := ih hs
      simp only [Text.bytes_cons]
      omega
    simp only [startsAfter] at h
    split at h
    · rcases List.mem_cons.mp h with rfl | h
      · simp only [Text.bytes_cons]
        omega
      · exact hrest h
    · exact hrest h

theorem length_startsAfter (offset : Nat) (cs : List Char) :
    (startsAfter offset cs).length = cs.count '\n' := by
  induction cs generalizing offset with
  | nil => rfl
  | cons c cs ih =>
    simp only [startsAfter, List.count_cons]
    split
    · rename_i hc
      simp [hc, ih]
    · rename_i hc
      simp [hc, ih]

theorem count_ofText (cs : List Char) : (ofText cs).count = cs.count '\n' + 1 := by
  simp [count, ofText, length_startsAfter]

theorem lineOf_ofText (cs : List Char) (n : Nat) :
    (ofText cs).lineOf n = (startsAfter 0 cs).countP (· ≤ n) := by
  simp [lineOf, ofText]

theorem lineOf_mono (t : LineTable) {m n : Nat} (h : m ≤ n) : t.lineOf m ≤ t.lineOf n := by
  unfold lineOf
  have hcount : t.starts.countP (· ≤ m) ≤ t.starts.countP (· ≤ n) := by
    refine List.countP_mono_left fun s _ hs => ?_
    simp only [decide_eq_true_eq] at hs ⊢
    omega
  omega

theorem lineOf_prefix (a b : List Char) {n : Nat} (h : n ≤ Text.bytes a) :
    (ofText (a ++ b)).lineOf n = (ofText a).lineOf n := by
  rw [lineOf_ofText, lineOf_ofText, startsAfter_append, List.countP_append]
  have hnone : (startsAfter (0 + Text.bytes a) b).countP (· ≤ n) = 0 := by
    refine List.countP_eq_zero.mpr fun s hs => ?_
    have := (mem_startsAfter hs).1
    simp only [decide_eq_true_eq]
    omega
  omega

theorem lineOf_suffix (a b : List Char) (n : Nat) :
    (ofText (a ++ b)).lineOf (Text.bytes a + n) = a.count '\n' + (ofText b).lineOf n := by
  rw [lineOf_ofText, lineOf_ofText, startsAfter_append, List.countP_append, Nat.zero_add]
  have hall : (startsAfter 0 a).countP (· ≤ Text.bytes a + n) = a.count '\n' := by
    rw [← length_startsAfter 0 a, List.countP_eq_length]
    intro s hs
    have := (mem_startsAfter hs).2
    simp only [decide_eq_true_eq]
    omega
  have hshift := startsAfter_add (Text.bytes a) 0 b
  rw [Nat.add_zero] at hshift
  rw [hall, hshift, List.countP_map]
  congr 2
  funext s
  simp

theorem linesOf_proper (t : LineTable) {r : Range} (h : r.start < r.stop) :
    t.linesOf r = (t.lineOf r.start, t.lineOf (r.stop - 1)) := by
  have hne : r.isEmpty = false := by
    simp only [Range.isEmpty, beq_eq_false_iff_ne]
    omega
  have hmono := t.lineOf_mono (show r.start ≤ r.stop - 1 by omega)
  simp only [linesOf, hne]
  rw [if_neg (by simp), Nat.max_eq_left hmono]

/-- What ends on a line above the one of an offset ends before the offset. -/
theorem stop_le_of_line_lt (t : LineTable) {r : Range} {n : Nat} (hr : r.start < r.stop)
    (h : (t.linesOf r).2 < t.lineOf n) : r.stop ≤ n := by
  rw [linesOf_proper t hr] at h
  refine Nat.le_of_not_lt fun hlt => ?_
  have hle := t.lineOf_mono (show n ≤ r.stop - 1 by omega)
  exact absurd h (Nat.not_lt_of_le hle)

theorem linesOf_mono (t : LineTable) {a b : Range} (ha : a.start < a.stop) (hb : b.start < b.stop)
    (h : a.stop ≤ b.start) : (t.linesOf a).1 ≤ (t.linesOf b).1 ∧ (t.linesOf a).2 ≤ (t.linesOf b).2 := by
  rw [linesOf_proper t ha, linesOf_proper t hb]
  exact ⟨t.lineOf_mono (by omega), t.lineOf_mono (by omega)⟩

end Calculation.LineTable
