import Calculation.Proofs.Token.Layout

namespace Calculation.Token

/-- What the rule finds within the first part of a text it finds in that part alone. -/
structure Scan.Stable (scan : Scan) : Prop where
  found : ∀ {y z : List Char} {m : Match}, scan (y ++ z) = some m → m.size ≤ y.length → scan y = some m
  missed : ∀ {y z : List Char}, scan (y ++ z) = none → scan y = none

/-- The rule does not go on over a line feed. -/
def Scan.OneLine (scan : Scan) : Prop :=
  ∀ {cs : List Char} {m : Match}, scan cs = some m → '\n' ∉ cs.take m.size

namespace Scan

variable {y z : List Char}

theorem takeWhile_stable {p : Char → Bool} (h : ((y ++ z).takeWhile p).length ≤ y.length) :
    y.takeWhile p = (y ++ z).takeWhile p := by
  induction y with
  | nil => exact (List.length_eq_zero_iff.mp (Nat.le_zero.mp h)).symm
  | cons c y ih =>
    rw [List.cons_append, List.takeWhile_cons, List.takeWhile_cons]
    rw [List.cons_append, List.takeWhile_cons] at h
    split
    · rename_i hc
      rw [if_pos hc, List.length_cons, List.length_cons] at h
      rw [ih (Nat.le_of_succ_le_succ h)]
    · rfl

theorem takeWhile_length_le (p : Char → Bool) (y z : List Char) :
    (y.takeWhile p).length ≤ ((y ++ z).takeWhile p).length := by
  induction y with
  | nil => exact Nat.zero_le _
  | cons c y ih =>
    rw [List.cons_append, List.takeWhile_cons, List.takeWhile_cons]
    split
    · exact Nat.succ_le_succ ih
    · exact Nat.le_refl _

theorem take_takeWhile (p : Char → Bool) (cs : List Char) : cs.take (cs.takeWhile p).length = cs.takeWhile p :=
  (List.prefix_iff_eq_take.mp (List.takeWhile_prefix p)).symm

theorem mem_takeWhile {p : Char → Bool} {c : Char} {cs : List Char} (h : c ∈ cs.takeWhile p) : p c = true :=
  List.all_eq_true.mp List.all_takeWhile c h

theorem whole?_eq_some {n : Nat} {m : Match} (h : Match.whole? n = some m) : m = ⟨n, false⟩ ∧ n ≠ 0 := by
  unfold Match.whole? at h
  split at h
  · cases h
  · rename_i hn
    cases h
    exact ⟨rfl, hn⟩

theorem whole?_eq_none {n : Nat} : Match.whole? n = none ↔ n = 0 := by
  unfold Match.whole?
  split <;> simp_all

theorem spaces_stable : Stable spaces := by
  refine ⟨fun {y z m} h hm => ?_, fun {y z} h => ?_⟩
  · obtain ⟨rfl, -⟩ := whole?_eq_some h
    have hs := takeWhile_stable hm
    unfold spaces at h ⊢
    rw [hs]
    exact h
  · have hz := whole?_eq_none.mp h
    have hle := takeWhile_length_le isSpace y z
    exact whole?_eq_none.mpr (by omega)

theorem identifier_stable : Stable identifier := by
  refine ⟨fun {y z m} h hm => ?_, fun {y z} h => ?_⟩
  · cases y with
    | nil =>
      cases z with
      | nil => exact h
      | cons c z =>
        simp only [identifier, List.nil_append] at h
        split at h
        · cases h
          simp only [List.length_nil] at hm
          omega
        · cases h
    | cons c y =>
      simp only [identifier, List.cons_append] at h ⊢
      split at h
      · rename_i hc
        cases h
        simp only [List.length_cons] at hm
        rw [if_pos hc, takeWhile_stable (z := z) (by omega)]
      · cases h
  · cases y with
    | nil => rfl
    | cons c y =>
      simp only [identifier, List.cons_append] at h ⊢
      split at h
      · cases h
      · rename_i hc
        rw [if_neg hc]

theorem identifier_oneLine : OneLine identifier := by
  intro cs m h hmem
  cases cs with
  | nil => cases h
  | cons c cs =>
    simp only [identifier] at h
    split at h
    · rename_i hc
      cases h
      rw [Nat.add_comm, List.take_succ_cons, take_takeWhile] at hmem
      rcases List.mem_cons.mp hmem with rfl | hmem
      · exact absurd hc (by decide)
      · exact absurd (mem_takeWhile hmem) (by decide)
    · cases h

/-- A rule for a word looks at as many characters as the word has. -/
theorem word_stable {word : String} {g : List Char → List Char} (hg : ∀ cs, (g cs).length = cs.length) :
    Stable fun cs => if g (cs.take word.length) = word.toList then Match.whole? word.length else none := by
  have hsame : ∀ {y z : List Char}, word.length ≤ y.length → (y ++ z).take word.length = y.take word.length :=
    fun hn => List.take_append_of_le_length hn
  have hlength : ∀ {cs : List Char}, g (cs.take word.length) = word.toList → word.length ≤ cs.length := by
    intro cs h
    have hl := congrArg List.length h
    rw [hg, List.length_take, String.length_toList] at hl
    omega
  refine ⟨fun {y z m} h hm => ?_, fun {y z} h => ?_⟩
  · split at h
    · rename_i hword
      obtain ⟨rfl, -⟩ := whole?_eq_some h
      rw [hsame hm] at hword
      rw [if_pos hword]
      exact h
    · cases h
  · by_cases hy : g (y.take word.length) = word.toList
    · rw [if_pos hy]
      rw [hsame (hlength hy), if_pos hy] at h
      exact h
    · rw [if_neg hy]

theorem exactly_stable (word : String) : Stable (exactly word) :=
  word_stable (g := id) fun _ => rfl

theorem keyword_stable (word : String) : Stable (keyword word) :=
  word_stable (g := List.map fold) fun _ => List.length_map _

theorem exactly_oneLine {word : String} (h : '\n' ∉ word.toList) : OneLine (exactly word) := by
  intro cs m hm hmem
  unfold exactly at hm
  split at hm
  · rename_i hword
    obtain ⟨rfl, -⟩ := whole?_eq_some hm
    exact h (hword ▸ hmem)
  · cases hm

theorem keyword_oneLine {word : String} (h : '\n' ∉ word.toList) : OneLine (keyword word) := by
  intro cs m hm hmem
  unfold keyword at hm
  split at hm
  · rename_i hword
    obtain ⟨rfl, -⟩ := whole?_eq_some hm
    have hfold : fold '\n' ∈ word.toList := hword ▸ List.mem_map_of_mem hmem
    exact h hfold
  · cases hm

theorem lineComment_stable : Stable lineComment := by
  refine ⟨fun {y z m} h hm => ?_, fun {y z} h => ?_⟩
  · unfold lineComment at h
    split at h
    · rename_i cs heq
      cases h
      match y with
      | [] => simp at hm
      | [_] =>
        simp at hm
        omega
      | _ :: _ :: y =>
        obtain ⟨rfl, rfl, rfl⟩ : _ ∧ _ ∧ _ := by simpa using heq
        simp only [List.length_cons] at hm
        simp only [lineComment]
        rw [takeWhile_stable (z := z) (by omega)]
    · cases h
  · unfold lineComment at h ⊢
    split at h
    · cases h
    · rename_i hno
      split
      · rename_i cs
        exact absurd rfl (hno (cs ++ z))
      · rfl

theorem lineComment_oneLine : OneLine lineComment := by
  intro cs m h hmem
  unfold lineComment at h
  split at h
  · rename_i cs
    cases h
    rw [Nat.add_comm, List.take_succ_cons, List.take_succ_cons, take_takeWhile] at hmem
    rcases List.mem_cons.mp hmem with hc | hmem
    · cases hc
    · rcases List.mem_cons.mp hmem with hc | hmem
      · cases hc
      · simpa using mem_takeWhile hmem
  · cases h

theorem throughStarSlash_pos (c : Char) (cs : List Char) : 0 < (throughStarSlash (c :: cs)).size := by
  cases cs with
  | nil => exact Nat.one_pos
  | cons d cs =>
    rw [throughStarSlash]
    split
    · exact Nat.two_pos
    · simp only [Match.after]
      omega

theorem throughStarSlash_stable : ∀ y z : List Char, (throughStarSlash (y ++ z)).size ≤ y.length →
    throughStarSlash y = throughStarSlash (y ++ z)
  | y, [], _ => by rw [List.append_nil]
  | [], c :: z, h => absurd h (Nat.not_le_of_lt (throughStarSlash_pos c z))
  | [c], d :: z, h => by
    have hpos := throughStarSlash_pos d z
    simp only [List.cons_append, List.nil_append, throughStarSlash] at h
    split at h
    · simp at h
    · simp only [Match.after, List.length_cons, List.length_nil] at h
      omega
  | c :: d :: y, e :: z, h => by
    simp only [List.cons_append, throughStarSlash] at h ⊢
    split
    · rfl
    · rename_i hcd
      rw [if_neg hcd] at h
      have hle : (throughStarSlash (d :: (y ++ e :: z))).size ≤ (d :: y).length := by
        simp only [Match.after, List.length_cons] at h ⊢
        omega
      rw [throughStarSlash_stable (d :: y) (e :: z) hle]
      rfl

/-- A comment that is closed stays so whatever follows it; an open one takes the whole text. -/
theorem throughStarSlash_closed : ∀ y z : List Char, (throughStarSlash y).isOpen = false →
    throughStarSlash (y ++ z) = throughStarSlash y ∧ (throughStarSlash y).size ≤ y.length
  | [], _, h => by cases h
  | [_], _, h => by cases h
  | c :: d :: y, z, h => by
    simp only [List.cons_append, throughStarSlash] at h ⊢
    split
    · exact ⟨rfl, by simp⟩
    · rename_i hcd
      rw [if_neg hcd] at h
      obtain ⟨hsame, hsize⟩ := throughStarSlash_closed (d :: y) z h
      refine ⟨congrArg (·.after 1) hsame, ?_⟩
      simp only [Match.after, List.length_cons] at hsize ⊢
      omega

theorem throughStarSlash_open : ∀ y : List Char, (throughStarSlash y).isOpen = true →
    (throughStarSlash y).size = y.length
  | [], _ => rfl
  | [_], _ => rfl
  | c :: d :: y, h => by
    simp only [throughStarSlash] at h ⊢
    split
    · rename_i hcd
      rw [if_pos hcd] at h
      cases h
    · rename_i hcd
      rw [if_neg hcd] at h
      have ih := throughStarSlash_open (d :: y) h
      simp only [Match.after, List.length_cons] at ih ⊢
      omega

theorem blockComment_stable : Stable blockComment := by
  refine ⟨fun {y z m} h hm => ?_, fun {y z} h => ?_⟩
  · unfold blockComment at h
    split at h
    · rename_i cs heq
      cases h
      match y with
      | [] => simp [Match.after] at hm
      | [_] =>
        simp [Match.after] at hm
        omega
      | _ :: _ :: y =>
        obtain ⟨rfl, rfl, rfl⟩ : _ ∧ _ ∧ _ := by simpa using heq
        simp only [Match.after, List.length_cons] at hm
        simp only [blockComment]
        rw [throughStarSlash_stable y z (by omega)]
    · cases h
  · unfold blockComment at h ⊢
    split at h
    · cases h
    · rename_i hno
      split
      · rename_i cs
        exact absurd rfl (hno (cs ++ z))
      · rfl

theorem throughClose_size {close : Char} {cs : List Char} (h : (throughClose close cs).size = 0) :
    throughClose close cs = ⟨0, true⟩ := by
  match cs with
  | [] => rfl
  | [c] =>
    simp only [throughClose] at h ⊢
    split at h
    · rename_i hc
      rw [if_pos hc]
    · simp at h
  | c :: d :: cs =>
    simp only [throughClose] at h ⊢
    split at h
    · rename_i hc
      rw [if_pos hc]
    · split at h
      · split at h <;> simp [Match.after] at h
      · simp [Match.after] at h

/-- What does not even take its first character is cut off by the end of the line or of the text. -/
theorem throughClose_stable (close : Char) : ∀ y z : List Char, (throughClose close (y ++ z)).size ≤ y.length →
    throughClose close y = throughClose close (y ++ z)
  | y, [], _ => by rw [List.append_nil]
  | [], c :: z, h => by
    rw [List.nil_append] at h ⊢
    rw [throughClose_size (Nat.le_zero.mp h)]
    rfl
  | [c], d :: z, h => by
    simp only [List.cons_append, List.nil_append, throughClose] at h ⊢
    split
    · rfl
    · rename_i hc
      rw [if_neg hc] at h
      split
      · rename_i hclose
        rw [if_pos hclose] at h
        split
        · rename_i hd
          rw [if_pos hd] at h
          simp [Match.after] at h
          omega
        · simp [hclose]
      · rename_i hclose
        rw [if_neg hclose] at h
        have hzero : (throughClose close (d :: z)).size = 0 := by
          simp only [Match.after, List.length_cons, List.length_nil] at h
          omega
        rw [throughClose_size hzero]
        simp [Match.after, hclose]
  | c :: d :: y, e :: z, h => by
    simp only [List.cons_append, throughClose] at h ⊢
    split
    · rfl
    · rename_i hc
      rw [if_neg hc] at h
      split
      · rename_i hclose
        rw [if_pos hclose] at h
        split
        · rename_i hd
          rw [if_pos hd] at h
          have hle : (throughClose close (y ++ e :: z)).size ≤ y.length := by
            simp only [Match.after, List.length_cons] at h
            omega
          rw [throughClose_stable close y (e :: z) hle]
        · rfl
      · rename_i hclose
        rw [if_neg hclose] at h
        have hle : (throughClose close (d :: (y ++ e :: z))).size ≤ (d :: y).length := by
          simp only [Match.after, List.length_cons] at h ⊢
          omega
        rw [throughClose_stable close (d :: y) (e :: z) hle]
        rfl

theorem delimited_stable (opener close : Char) : Stable (delimited opener close) := by
  refine ⟨fun {y z m} h hm => ?_, fun {y z} h => ?_⟩
  · cases y with
    | nil =>
      cases z with
      | nil => exact h
      | cons c z =>
        simp only [List.nil_append, delimited] at h
        split at h
        · cases h
          simp only [Match.after, List.length_nil] at hm
          omega
        · cases h
    | cons c y =>
      simp only [List.cons_append, delimited] at h ⊢
      split at h
      · rename_i hc
        cases h
        simp only [Match.after, List.length_cons] at hm
        rw [if_pos hc, throughClose_stable close y z (by omega)]
      · cases h
  · cases y with
    | nil => rfl
    | cons c y =>
      simp only [List.cons_append, delimited] at h ⊢
      split at h
      · cases h
      · rename_i hc
        rw [if_neg hc]

theorem throughClose_oneLine {close : Char} (hclose : close ≠ '\n') : ∀ cs : List Char,
    '\n' ∉ cs.take (throughClose close cs).size
  | [] => by simp
  | [c] => by
    rw [throughClose]
    split
    · simp
    · rename_i hc
      intro hmem
      have heq : '\n' = c := by simpa using hmem
      exact hc (heq ▸ rfl)
  | c :: d :: cs => by
    have hn : ∀ {x : Char}, ¬isLineEnd x = true → '\n' ≠ x := fun hx heq => hx (heq ▸ rfl)
    rw [throughClose]
    split
    · simp
    · rename_i hc
      split
      · split
        · rename_i hd
          have ih := throughClose_oneLine hclose cs
          simp only [Match.after, Nat.add_comm 2, List.take_succ_cons, List.mem_cons, not_or]
          exact ⟨hn hc, hd ▸ hclose.symm, ih⟩
        · simpa using hn hc
      · have ih := throughClose_oneLine hclose (d :: cs)
        simp only [Match.after, Nat.add_comm 1, List.take_succ_cons, List.mem_cons, not_or]
        exact ⟨hn hc, ih⟩

theorem delimited_oneLine {opener close : Char} (ho : opener ≠ '\n') (hclose : close ≠ '\n') :
    OneLine (delimited opener close) := by
  intro cs m h
  cases cs with
  | nil => cases h
  | cons c cs =>
    simp only [delimited] at h
    split at h
    · rename_i hc
      cases h
      simp only [Match.after, Nat.add_comm 1, List.take_succ_cons, List.mem_cons, not_or]
      exact ⟨hc ▸ ho.symm, throughClose_oneLine hclose cs⟩
    · cases h

theorem throughNumberSign_stable : ∀ y z : List Char, (throughNumberSign (y ++ z)).size ≤ y.length →
    throughNumberSign y = throughNumberSign (y ++ z)
  | [], [], _ => rfl
  | [], c :: z, h => by
    simp only [List.nil_append, throughNumberSign] at h ⊢
    split
    · rfl
    · rename_i hc
      rw [if_neg hc] at h
      split at h
      · simp at h
      · simp [Match.after] at h
  | c :: y, z, h => by
    simp only [List.cons_append, throughNumberSign] at h ⊢
    split
    · rfl
    · rename_i hc
      rw [if_neg hc] at h
      split
      · rfl
      · rename_i hsign
        rw [if_neg hsign] at h
        have hle : (throughNumberSign (y ++ z)).size ≤ y.length := by
          simp only [Match.after, List.length_cons] at h
          omega
        rw [throughNumberSign_stable y z hle]

theorem throughNumberSign_oneLine : ∀ cs : List Char, '\n' ∉ cs.take (throughNumberSign cs).size
  | [] => by simp
  | c :: cs => by
    rw [throughNumberSign]
    split
    · simp
    · rename_i hc
      have hn : '\n' ≠ c := fun heq => hc (heq ▸ rfl)
      split
      · simpa using hn
      · have ih := throughNumberSign_oneLine cs
        simp only [Match.after, Nat.add_comm 1, List.take_succ_cons, List.mem_cons, not_or]
        exact ⟨hn, ih⟩

theorem date_stable : Stable date := by
  refine ⟨fun {y z m} h hm => ?_, fun {y z} h => ?_⟩
  · unfold date at h
    split at h
    · rename_i cs heq
      cases h
      match y with
      | [] => simp [Match.after] at hm
      | _ :: y =>
        obtain ⟨rfl, rfl⟩ : _ ∧ _ := by simpa using heq
        simp only [Match.after, List.length_cons] at hm
        simp only [date]
        rw [throughNumberSign_stable y z (by omega)]
    · cases h
  · unfold date at h ⊢
    split at h
    · cases h
    · rename_i hno
      split
      · rename_i cs
        exact absurd rfl (hno (cs ++ z))
      · rfl

theorem date_oneLine : OneLine date := by
  intro cs m h
  unfold date at h
  split at h
  · rename_i cs
    cases h
    simp only [Match.after, Nat.add_comm 1, List.take_succ_cons, List.mem_cons, not_or]
    exact ⟨by decide, throughNumberSign_oneLine cs⟩
  · cases h

theorem digits_stable (h : digits (y ++ z) ≤ y.length) : digits y = digits (y ++ z) :=
  congrArg List.length (takeWhile_stable h)

theorem fraction_stable (h : fraction (y ++ z) ≤ y.length) : fraction y = fraction (y ++ z) := by
  cases y with
  | nil => exact (Nat.le_zero.mp h).symm
  | cons c y =>
    by_cases hc : c = '.'
    · subst hc
      simp only [List.cons_append, fraction] at h ⊢
      have hd : digits (y ++ z) ≤ y.length := by
        split at h
        · omega
        · simp only [List.length_cons] at h
          omega
      rw [digits_stable hd]
    · have hnone : ∀ cs, fraction (c :: cs) = 0 := by
        intro cs
        unfold fraction
        split
        · rename_i heq
          exact absurd (List.cons.inj heq).1 hc
        · rfl
      rw [List.cons_append, hnone, hnone]

/-- How many characters the sign of an exponent takes. -/
def signLength (cs : List Char) : Nat :=
  if cs.head?.any (fun s => s == '+' || s == '-') then 1 else 0

theorem signLength_le (c : Char) (cs : List Char) : signLength (c :: cs) ≤ (c :: cs).length := by
  unfold signLength
  split <;> simp

theorem exponent_cons (c : Char) (cs : List Char) : exponent (c :: cs) =
    if c = 'e' ∨ c = 'E' then
      if digits (cs.drop (signLength cs)) = 0 then 0
      else 1 + signLength cs + digits (cs.drop (signLength cs))
    else 0 := by
  cases cs <;> simp [exponent, signLength]

theorem exponent_stable (h : exponent (y ++ z) ≤ y.length) : exponent y = exponent (y ++ z) := by
  cases y with
  | nil => exact (Nat.le_zero.mp h).symm
  | cons c y =>
    rw [List.cons_append, exponent_cons] at h
    rw [List.cons_append, exponent_cons, exponent_cons]
    by_cases hc : c = 'e' ∨ c = 'E'
    · rw [if_pos hc] at h
      rw [if_pos hc, if_pos hc]
      cases y with
      | nil =>
        rw [List.nil_append] at h
        by_cases hz : digits (z.drop (signLength z)) = 0
        · rw [List.nil_append, if_pos hz]
          rfl
        · rw [if_neg hz] at h
          simp only [List.length_cons, List.length_nil] at h
          omega
      | cons d y =>
        have hsign : signLength ((d :: y) ++ z) = signLength (d :: y) := rfl
        have hle := signLength_le d y
        rw [hsign, List.drop_append_of_le_length hle] at h ⊢
        have hd : digits ((d :: y).drop (signLength (d :: y)) ++ z) ≤
            ((d :: y).drop (signLength (d :: y))).length := by
          rw [List.length_drop]
          split at h
          · omega
          · simp only [List.length_cons] at h ⊢
            omega
        rw [digits_stable hd]
    · rw [if_neg hc, if_neg hc]

theorem digits_le_length (cs : List Char) : digits cs ≤ cs.length :=
  (List.takeWhile_prefix _).length_le

/-- The digits and the fraction of a number. -/
def mantissa (cs : List Char) : Nat :=
  digits cs + fraction (cs.drop (digits cs))

theorem number_eq (cs : List Char) : number cs =
    if mantissa cs = 0 then none else some ⟨mantissa cs + exponent (cs.drop (mantissa cs)), false⟩ := rfl

theorem mantissa_stable (h : mantissa (y ++ z) ≤ y.length) : mantissa y = mantissa (y ++ z) := by
  unfold mantissa at h ⊢
  have hd : digits y = digits (y ++ z) := digits_stable (by omega)
  rw [← hd] at h ⊢
  have hle := digits_le_length y
  rw [List.drop_append_of_le_length hle] at h ⊢
  rw [fraction_stable (z := z) (by rw [List.length_drop]; omega)]

theorem number_stable : Stable number := by
  refine ⟨fun {y z m} h hm => ?_, fun {y z} h => ?_⟩
  · rw [number_eq] at h
    split at h
    · cases h
    · rename_i hpos
      cases h
      dsimp only at hm
      have hsame : mantissa y = mantissa (y ++ z) := mantissa_stable (by omega)
      rw [← hsame] at hm hpos ⊢
      have hle : mantissa y ≤ y.length := by omega
      rw [List.drop_append_of_le_length hle] at hm ⊢
      rw [number_eq, if_neg hpos, exponent_stable (z := z) (by rw [List.length_drop]; omega)]
  · rw [number_eq] at h ⊢
    split at h
    · rename_i hzero
      rw [mantissa_stable (z := z) (by omega), if_pos hzero]
    · cases h

theorem take_add_notMem {a b : Nat} {cs : List Char} (ha : '\n' ∉ cs.take a) (hb : '\n' ∉ (cs.drop a).take b) :
    '\n' ∉ cs.take (a + b) := by
  rw [List.take_add]
  exact fun h => (List.mem_append.mp h).elim ha hb

theorem digits_oneLine (cs : List Char) : '\n' ∉ cs.take (digits cs) := by
  rw [digits, take_takeWhile]
  exact fun h => absurd (mem_takeWhile h) (by decide)

theorem fraction_oneLine (cs : List Char) : '\n' ∉ cs.take (fraction cs) := by
  unfold fraction
  split
  · rename_i cs
    split
    · simp
    · rw [Nat.add_comm, List.take_succ_cons, List.mem_cons, not_or]
      exact ⟨by decide, digits_oneLine cs⟩
  · simp

theorem exponent_oneLine (cs : List Char) : '\n' ∉ cs.take (exponent cs) := by
  cases cs with
  | nil => simp
  | cons c cs =>
    rw [exponent_cons]
    split
    · rename_i hc
      split
      · simp
      · have hn : '\n' ≠ c := by
          rcases hc with rfl | rfl <;> decide
        have hsign : '\n' ∉ cs.take (signLength cs) := by
          cases cs with
          | nil => simp
          | cons s cs =>
            unfold signLength
            split
            · rename_i hs
              simp only [List.head?_cons, Option.any_some, Bool.or_eq_true, beq_iff_eq] at hs
              rcases hs with rfl | rfl <;> simp
            · simp
        rw [Nat.add_assoc, Nat.add_comm 1, List.take_succ_cons, List.mem_cons, not_or]
        exact ⟨hn, take_add_notMem hsign (digits_oneLine _)⟩
    · simp

theorem number_oneLine : OneLine number := by
  intro cs m h
  rw [number_eq] at h
  split at h
  · cases h
  · cases h
    exact take_add_notMem (take_add_notMem (digits_oneLine cs) (fraction_oneLine _)) (exponent_oneLine _)

end Scan

namespace Rule

/-- A word that no blank starts, that no line feed is in, and that is a slash alone if it starts with one. -/
structure Plain (w : String) (k : Kind) : Prop where
  noSpaces : k ≠ .whitespace
  noComment : k ≠ .blockComment
  oneLine : '\n' ∉ w.toList
  start : w.toList.head?.all (fun c => !Scan.isSpace c) = true
  slash : w.toList.head? = some '/' → w.length ≤ 1

def isPlain (w : String × Kind) : Bool :=
  w.2 != .whitespace && w.2 != .blockComment && !w.1.toList.contains '\n' &&
    w.1.toList.head?.all (fun c => !Scan.isSpace c) && (w.1.toList.head? != some '/' || w.1.length ≤ 1)

theorem plain_of_isPlain {w : String} {k : Kind} (h : isPlain (w, k) = true) : Plain w k := by
  simp only [isPlain, Bool.and_eq_true, bne_iff_ne, Bool.not_eq_true', Bool.or_eq_true, decide_eq_true_eq] at h
  obtain ⟨⟨⟨⟨h₁, h₂⟩, h₃⟩, h₄⟩, h₅⟩ := h
  exact ⟨h₁, h₂, by simpa using h₃, h₄, fun hs => h₅.resolve_left fun hn => hn hs⟩

/-- The rules of the table: those with a way of their own to scan, and those for words. -/
theorem cases_all {P : Rule → Prop} (hspaces : P ⟨.whitespace, Scan.spaces⟩)
    (hline : P ⟨.lineComment, Scan.lineComment⟩) (hblock : P ⟨.blockComment, Scan.blockComment⟩)
    (hdelimited : ∀ k o c, k ≠ .whitespace → k ≠ .blockComment → o ≠ '\n' → c ≠ '\n' → Scan.isSpace o = false →
      o ≠ '/' → P ⟨k, Scan.delimited o c⟩)
    (hdate : P ⟨.date, Scan.date⟩) (hidentifier : P ⟨.identifier, Scan.identifier⟩)
    (hnumber : P ⟨.number, Scan.number⟩)
    (hkeyword : ∀ k w, Plain w k → P ⟨k, Scan.keyword w⟩) (hexactly : ∀ k w, Plain w k → P ⟨k, Scan.exactly w⟩) :
    ∀ r ∈ all, P r := by
  refine forall_all hspaces hline hblock ?double ?single ?bracket hdate ?keyword hidentifier hnumber ?operator
  case double | single | bracket =>
    exact hdelimited _ _ _ (by decide) (by decide) (by decide) (by decide) (by decide) (by decide)
  case keyword =>
    intro r hr
    obtain ⟨⟨w, k⟩, hmem, rfl⟩ := List.mem_map.mp hr
    exact hkeyword k w (plain_of_isPlain ((List.all_eq_true (p := isPlain)).mp (by decide) _ hmem))
  case operator =>
    intro r hr
    obtain ⟨⟨w, k⟩, hmem, rfl⟩ := List.mem_map.mp hr
    exact hexactly k w (plain_of_isPlain ((List.all_eq_true (p := isPlain)).mp (by decide) _ hmem))

theorem stable : ∀ r ∈ all, r.scan.Stable :=
  cases_all Scan.spaces_stable Scan.lineComment_stable Scan.blockComment_stable
    (fun _ o c _ _ _ _ _ _ => Scan.delimited_stable o c) Scan.date_stable Scan.identifier_stable Scan.number_stable
    (fun _ w _ => Scan.keyword_stable w) (fun _ w _ => Scan.exactly_stable w)

/-- All rules but those for blanks and block comments stay on their line. -/
theorem oneLine : ∀ r ∈ all, r.kind = .whitespace ∨ r.kind = .blockComment ∨ r.scan.OneLine :=
  cases_all (.inl rfl) (.inr (.inr Scan.lineComment_oneLine)) (.inr (.inl rfl))
    (fun _ _ _ _ _ ho hc _ _ => .inr (.inr (Scan.delimited_oneLine ho hc))) (.inr (.inr Scan.date_oneLine))
    (.inr (.inr Scan.identifier_oneLine)) (.inr (.inr Scan.number_oneLine))
    (fun _ _ h => .inr (.inr (Scan.keyword_oneLine h.oneLine)))
    (fun _ _ h => .inr (.inr (Scan.exactly_oneLine h.oneLine)))

theorem isSpace_cases {c : Char} (h : Scan.isSpace c = true) :
    c = ' ' ∨ c = '\t' ∨ c = '\r' ∨ c = '\n' ∨ c = '\x0c' := by
  simpa [Scan.isSpace, or_assoc] using h

/-- Only blanks start with a blank. -/
theorem none_of_space {c : Char} (h : Scan.isSpace c = true) (cs : List Char) :
    ∀ r ∈ all, r.kind = .whitespace ∨ r.scan (c :: cs) = none := by
  have hword : ∀ {w : String} {d : Char} {ds : List Char}, Scan.isSpace d = true →
      w.toList.head?.all (fun c => !Scan.isSpace c) = true → d :: ds = w.toList → False := by
    intro w d ds hd hw heq
    rw [← heq] at hw
    simp [hd] at hw
  have hfold : Scan.isSpace (Scan.fold c) = true := by
    rcases isSpace_cases h with rfl | rfl | rfl | rfl | rfl <;> decide
  refine cases_all (.inl rfl) (.inr ?_) (.inr ?_) (fun k o close _ _ _ _ ho _ => .inr ?_) (.inr ?_) (.inr ?_) (.inr ?_)
    (fun k w hw => .inr ?_) (fun k w hw => .inr ?_)
  · rcases isSpace_cases h with rfl | rfl | rfl | rfl | rfl <;> rfl
  · rcases isSpace_cases h with rfl | rfl | rfl | rfl | rfl <;> rfl
  · have hne : c ≠ o := by
      rintro rfl
      rw [h] at ho
      cases ho
    simp [Scan.delimited, hne]
  · rcases isSpace_cases h with rfl | rfl | rfl | rfl | rfl <;> rfl
  · rcases isSpace_cases h with rfl | rfl | rfl | rfl | rfl <;> rfl
  · rcases isSpace_cases h with rfl | rfl | rfl | rfl | rfl <;> rfl
  · simp only [Scan.keyword]
    cases hn : w.length with
    | zero => simp [Match.whole?]
    | succ n => exact if_neg fun heq => hword hfold hw.start heq
  · simp only [Scan.exactly]
    cases hn : w.length with
    | zero => simp [Match.whole?]
    | succ n => exact if_neg fun heq => hword h hw.start heq

theorem of_kind : ∀ r ∈ all, (r.kind = .whitespace → r.scan = Scan.spaces) ∧
    (r.kind = .blockComment → r.scan = Scan.blockComment) :=
  cases_all ⟨fun _ => rfl, nofun⟩ ⟨nofun, nofun⟩ ⟨nofun, fun _ => rfl⟩
    (fun _ _ _ h₁ h₂ _ _ _ _ => ⟨fun h => absurd h h₁, fun h => absurd h h₂⟩) ⟨nofun, nofun⟩ ⟨nofun, nofun⟩
    ⟨nofun, nofun⟩ (fun _ _ h => ⟨fun hk => absurd hk h.noSpaces, fun hk => absurd hk h.noComment⟩)
    (fun _ _ h => ⟨fun hk => absurd hk h.noSpaces, fun hk => absurd hk h.noComment⟩)

/-- Where a block comment starts no other rule takes more than the slash. -/
theorem of_slashStar (cs : List Char) : ∀ r ∈ all, r.kind = .blockComment ∨
    ∀ m, r.scan ('/' :: '*' :: cs) = some m → m.size ≤ 1 := by
  have hslash : ∀ {w : String} {k : Kind} {ds : List Char}, Plain w k → '/' :: ds = w.toList → w.length ≤ 1 := by
    intro w k ds hw heq
    apply hw.slash
    rw [← heq]
    rfl
  refine cases_all (.inr nofun) (.inr nofun) (.inl rfl) (fun k o close _ _ _ _ _ ho => .inr fun m hm => ?_)
    (.inr nofun) (.inr nofun) (.inr nofun) (fun k w hw => .inr fun m hm => ?_) (fun k w hw => .inr fun m hm => ?_)
  · simp [Scan.delimited, ho.symm] at hm
  · simp only [Scan.keyword] at hm
    split at hm
    · rename_i hword
      obtain ⟨rfl, hn⟩ := Scan.whole?_eq_some hm
      obtain ⟨n, hn⟩ := Nat.exists_eq_succ_of_ne_zero hn
      rw [hn] at hword
      exact hslash hw hword
    · cases hm
  · simp only [Scan.exactly] at hm
    split at hm
    · rename_i hword
      obtain ⟨rfl, hn⟩ := Scan.whole?_eq_some hm
      obtain ⟨n, hn⟩ := Nat.exists_eq_succ_of_ne_zero hn
      rw [hn] at hword
      exact hslash hw hword
    · cases hm

end Rule

end Calculation.Token
