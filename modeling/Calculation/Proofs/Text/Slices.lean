import Calculation.Text.Slice

namespace Calculation.Text

theorem splitAt?_front {n : Nat} {a : List Char} (b : List Char) (h : n ≤ bytes a) :
    splitAt? n (a ++ b) = (splitAt? n a).map fun p => (p.1, p.2 ++ b) := by
  induction a generalizing n with
  | nil =>
    obtain rfl := Nat.le_zero.mp h
    cases b <;> rfl
  | cons c a ih =>
    cases n with
    | zero => rfl
    | succ n =>
      simp only [List.cons_append, splitAt?]
      split
      · rw [ih (by simp only [bytes_cons] at h; omega), Option.map_map, Option.map_map]
        rfl
      · rfl

theorem splitAt?_suffix (a b : List Char) (n : Nat) :
    splitAt? (bytes a + n) (a ++ b) = (splitAt? n b).map fun p => (a ++ p.1, p.2) := by
  induction a with
  | nil => simp
  | cons c a ih =>
    have hc := c.utf8Size_pos
    obtain ⟨k, hk⟩ : ∃ k, bytes (c :: a) + n = k + 1 := ⟨bytes (c :: a) + n - 1, by simp only [bytes_cons]; omega⟩
    have hle : c.utf8Size ≤ k + 1 := by
      rw [← hk, bytes_cons]
      omega
    have hsub : k + 1 - c.utf8Size = bytes a + n := by
      rw [← hk, bytes_cons]
      omega
    rw [hk, List.cons_append, splitAt?, if_pos hle, hsub, ih, Option.map_map]
    rfl

/-- Two ways to part a text after the same number of bytes are one. -/
theorem parts_of_bytes {a b c d : List Char} (h : a ++ b = c ++ d) (hbytes : bytes a = bytes c) : a = c ∧ b = d := by
  have hcut := splitAt?_bytes a b
  rw [h, hbytes, splitAt?_bytes] at hcut
  obtain ⟨rfl, rfl⟩ := Prod.mk.inj (Option.some.inj hcut)
  exact ⟨rfl, rfl⟩

/-- Of two fronts of a text the shorter one is the front of the other. -/
theorem exists_between {a b c d : List Char} (h : a ++ b = c ++ d) (hle : bytes a ≤ bytes c) :
    ∃ m, c = a ++ m ∧ b = m ++ d := by
  rcases List.append_eq_append_iff.mp h with hm | ⟨m, rfl, rfl⟩
  · exact hm
  · have hempty : bytes (c ++ m) = bytes c := by
      rw [bytes_append] at hle ⊢
      omega
    obtain ⟨hsame, hrest⟩ := parts_of_bytes h hempty
    exact ⟨[], by rw [List.append_nil, hsame], hrest⟩

theorem slice?_prefix {r : Range} {a : List Char} (b : List Char) (hr : r.start ≤ r.stop) (h : r.stop ≤ bytes a) :
    slice? r (a ++ b) = slice? r a := by
  unfold slice?
  rw [splitAt?_front b (Nat.le_trans hr h)]
  cases hs : splitAt? r.start a with
  | none => rfl
  | some p =>
    obtain ⟨front, behind⟩ := p
    obtain ⟨rfl, hstart⟩ := splitAt?_eq_some hs
    have hlen : r.length ≤ bytes behind := by
      rw [bytes_append] at h
      unfold Range.length
      omega
    simp only [Option.map_some, Option.bind_eq_bind, Option.bind_some, splitAt?_front b hlen]
    cases splitAt? r.length behind <;> rfl

theorem slice?_suffix (a b : List Char) (r : Range) :
    slice? ⟨r.start + bytes a, r.stop + bytes a⟩ (a ++ b) = slice? r b := by
  have hlen : Range.length ⟨r.start + bytes a, r.stop + bytes a⟩ = r.length := by
    simp only [Range.length]
    omega
  unfold slice?
  rw [hlen, Nat.add_comm, splitAt?_suffix]
  cases splitAt? r.start b <;> rfl

end Calculation.Text
