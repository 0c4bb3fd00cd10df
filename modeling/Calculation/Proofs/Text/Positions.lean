import Mathlib.Data.List.TakeWhile
import Calculation.Proofs.Document.LineStart

/-!
Offsets, lines and columns. The table of a text counts its line feeds: the line of an offset has the number of those
before it, and starts where the lines before it end. From this the ways between offsets and positions are inverse to
each other, and two ranges have bytes on one line just when their lines meet.
-/
namespace Calculation

/-- One position comes before the other in reading order. -/
def Position.Before (p q : Position) : Prop :=
  p.line < q.line ∨ p.line = q.line ∧ p.column < q.column

namespace Text

/-- The bytes of a text's UTF-8 form. -/
def utf8 (cs : List Char) : List UInt8 :=
  cs.flatMap String.utf8EncodeChar

/-- How many of the first `n` bytes of a text are line feeds. -/
def feedsBefore (cs : List Char) (n : Nat) : Nat :=
  ((utf8 cs).take n).count 10

theorem length_utf8 (cs : List Char) : (utf8 cs).length = bytes cs := by
  induction cs with
  | nil => rfl
  | cons c cs ih =>
    rw [utf8, List.flatMap_cons, List.length_append, String.length_utf8EncodeChar, bytes_cons]
    exact congrArg _ ih

theorem eq_feed_iff {c : Char} : c = '\n' ↔ c.val.toNat = 10 :=
  ⟨fun h => h ▸ rfl, fun h => Char.ext (UInt32.toNat_inj.mp h)⟩

/-- Only a line feed has the byte of a line feed in its UTF-8 form: the bytes of longer forms are 128 and more. -/
theorem feed_mem_utf8EncodeChar {c : Char} : 10 ∈ String.utf8EncodeChar c ↔ c = '\n' := by
  have hbyte : ∀ n < 256, 10 = UInt8.ofNat n ↔ n = 10 := by
    intro n hn
    rw [← UInt8.toNat_inj, UInt8.toNat_ofNat', Nat.mod_eq_of_lt hn]
    exact eq_comm
  rw [eq_feed_iff]
  simp only [String.utf8EncodeChar]
  split
  · rw [List.mem_singleton, hbyte _ (by omega)]
  · split
    · simp only [List.mem_cons, List.not_mem_nil, or_false]
      rw [hbyte _ (by omega), hbyte _ (by omega)]
      omega
    · split
      · simp only [List.mem_cons, List.not_mem_nil, or_false]
        rw [hbyte _ (by omega), hbyte _ (by omega), hbyte _ (by omega)]
        omega
      · simp only [List.mem_cons, List.not_mem_nil, or_false]
        rw [hbyte _ (by omega), hbyte _ (by omega), hbyte _ (by omega), hbyte _ (by omega)]
        omega

/-- A character that is cut, or cut off, shows no line feed. -/
theorem count_take_utf8EncodeChar (c : Char) (n : Nat) :
    ((String.utf8EncodeChar c).take n).count 10 = if c = '\n' ∧ c.utf8Size ≤ n then 1 else 0 := by
  by_cases hc : c = '\n'
  · subst hc
    cases n with
    | zero => rfl
    | succ n => simp [String.utf8EncodeChar, Char.utf8Size]
  · rw [if_neg (fun h => hc h.1), List.count_eq_zero]
    exact fun h => hc (feed_mem_utf8EncodeChar.mp (List.mem_of_mem_take h))

theorem feedsBefore_zero (cs : List Char) : feedsBefore cs 0 = 0 := rfl

/-- Behind the end of the text there are no more line feeds. -/
theorem feedsBefore_min (cs : List Char) (n : Nat) : feedsBefore cs (min n (bytes cs)) = feedsBefore cs n := by
  have htake : (utf8 cs).take (min n (bytes cs)) = (utf8 cs).take n := by
    rw [List.take_eq_take_iff, length_utf8, Nat.min_assoc, Nat.min_self]
  rw [feedsBefore, feedsBefore, htake]

theorem feedsBefore_cons (c : Char) (cs : List Char) (n : Nat) :
    feedsBefore (c :: cs) n = (if c = '\n' ∧ c.utf8Size ≤ n then 1 else 0) + feedsBefore cs (n - c.utf8Size) := by
  rw [feedsBefore, utf8, List.flatMap_cons, List.take_append, List.count_append, count_take_utf8EncodeChar,
    String.length_utf8EncodeChar]
  rfl

end Text

namespace LineTable

variable {text : List Char} {k n : Nat}

/-- The line starts at or before a place are as many as the line feeds before it. -/
theorem countP_startsAfter (offset n : Nat) (cs : List Char) :
    (startsAfter offset cs).countP (· ≤ offset + n) = Text.feedsBefore cs n := by
  induction cs generalizing offset n with
  | nil => simp [startsAfter, Text.feedsBefore, Text.utf8]
  | cons c cs ih =>
    have hrest : (startsAfter (offset + c.utf8Size) cs).countP (· ≤ offset + n) =
        Text.feedsBefore cs (n - c.utf8Size) := by
      by_cases hn : c.utf8Size ≤ n
      · rw [← ih (offset + c.utf8Size), Nat.add_assoc, Nat.add_sub_cancel' hn]
      · rw [Nat.sub_eq_zero_of_le (by omega), Text.feedsBefore_zero, List.countP_eq_zero]
        intro s hs
        have := (mem_startsAfter hs).1
        simp only [decide_eq_true_eq]
        omega
    rw [Text.feedsBefore_cons, startsAfter]
    by_cases hc : c = '\n'
    · rw [if_pos hc, List.countP_cons, hrest, Nat.add_comm]
      simp [hc]
    · simp [hc, hrest]

/-- The line of an offset has the number of the line feeds before it. -/
theorem lineOf_eq_feedsBefore (text : List Char) (n : Nat) : (ofText text).lineOf n = Text.feedsBefore text n := by
  have hcount := countP_startsAfter 0 n text
  rwa [Nat.zero_add, ← lineOf_ofText] at hcount

theorem startsAfter_full (offset : Nat) {full : List (List Char)} (hfull : ∀ l ∈ full, Text.IsFullLine l)
    {last : List Char} (hlast : last.count '\n' = 0) :
    startsAfter offset (full.flatten ++ last) =
      (List.range full.length).map fun i => offset + Text.bytes (full.take (i + 1)).flatten := by
  induction full generalizing offset with
  | nil =>
    rw [List.flatten_nil, List.nil_append, List.length_nil, List.range_zero, List.map_nil,
      ← List.length_eq_zero_iff, length_startsAfter, hlast]
  | cons l ls ih =>
    obtain ⟨⟨m, rfl, hm⟩, hls⟩ := List.forall_mem_cons.mp hfull
    have hnone : startsAfter offset m = [] := by
      rw [← List.length_eq_zero_iff, length_startsAfter, hm]
    have hfeed : ∀ n, startsAfter n ['\n'] = [n + 1] := fun _ => rfl
    have hone : Text.bytes ['\n'] = 1 := rfl
    rw [List.flatten_cons, List.append_assoc, startsAfter_append, startsAfter_append, hnone, hfeed, ih _ hls,
      List.length_cons, List.range_succ_eq_map, List.map_cons, List.map_map, List.nil_append, List.singleton_append,
      List.cons.injEq]
    refine ⟨?_, List.map_congr_left fun i _ => ?_⟩
    · rw [Nat.zero_add, List.take_succ_cons, List.take_zero, List.flatten_singleton, Text.bytes_append, hone,
        Nat.add_assoc]
    · rw [Function.comp_apply, List.take_succ_cons, List.flatten_cons, Text.bytes_append, Text.bytes_append,
        Text.bytes_append, hone, Nat.add_assoc, Nat.add_assoc]

/-- The full lines of a text, and what stands behind the last line feed: as many lines as the table counts. -/
theorem lines_counted (text : List Char) : ∃ full last, (∀ l ∈ full, Text.IsFullLine l) ∧ last.count '\n' = 0 ∧
    Text.lines text = full ++ (if last = [] then [] else [last]) ∧ full.flatten ++ last = text ∧
      (ofText text).count = full.length + 1 := by
  obtain ⟨full, last, hfull, hlast, heq⟩ := Text.lines_shape text
  have htext : full.flatten ++ last = text := by
    rw [← Text.flatten_lines text, heq]
    by_cases hempty : last = [] <;> simp [hempty]
  refine ⟨full, last, hfull, hlast, heq, htext, ?_⟩
  rw [count_ofText, ← htext, List.count_append, hlast, (Text.flatten_full hfull).2]

/-- The lines before a line take as many bytes as stand before it. -/
theorem starts_getElem?_eq (h : k < (ofText text).count) :
    (ofText text).starts[k]? = some (Text.bytes ((Text.lines text).take k).flatten) := by
  obtain ⟨full, last, hfull, hlast, heq, htext, hcount⟩ := lines_counted text
  have hstarts := startsAfter_full 0 hfull hlast
  have hk : k ≤ full.length := by omega
  rw [heq, List.take_append_of_le_length hk, ofText, ← htext, hstarts]
  cases k with
  | zero => rfl
  | succ k =>
    rw [List.getElem?_cons_succ, List.getElem?_map, List.getElem?_range hk, Option.map_some, Nat.zero_add]

/-- So many bytes stand before a line as the lines before it take, up to the end of the text. -/
theorem start?_eq (text : List Char) (k : Nat) : (ofText text).start? k =
    if k ≤ (ofText text).count then some (Text.bytes ((Text.lines text).take k).flatten) else none := by
  unfold start?
  rcases Nat.lt_trichotomy k (ofText text).count with hlt | heq | hgt
  · rw [if_neg (Nat.ne_of_lt hlt), if_pos (Nat.le_of_lt hlt), starts_getElem?_eq hlt]
  · have hall : (Text.lines text).length ≤ k := by
      obtain ⟨full, last, -, -, hlines, -, hcount⟩ := lines_counted text
      rw [heq, hcount, hlines]
      by_cases hempty : last = [] <;> simp [hempty]
    rw [if_pos heq, if_pos (Nat.le_of_eq heq), List.take_of_length_le hall, Text.flatten_lines]
    rfl
  · rw [if_neg (Nat.ne_of_gt hgt), if_neg (Nat.not_le_of_lt hgt)]
    exact List.getElem?_eq_none (Nat.le_of_lt hgt)

/-- Where a line starts, the line is told by its number. -/
theorem lineOf_start {w : Nat} (h : (ofText text).starts[k]? = some w) :
    (ofText text).lineOf w = k ∧ ∀ n < w, (ofText text).lineOf n < k := by
  obtain ⟨u, v, rfl, rfl, hcount, hends⟩ := starts_getElem? h
  have hline := lineOf_bytes u v
  exact ⟨hline.trans hcount, fun n hn => hcount ▸ hline ▸ startsLine_bytes hends n hn⟩

theorem lineOf_lt_count (text : List Char) (n : Nat) : (ofText text).lineOf n < (ofText text).count := by
  rw [lineOf_ofText, count_ofText, ← length_startsAfter 0]
  exact Nat.lt_succ_of_le List.countP_le_length

/-- The line of an offset starts at or before it, and the next line behind it. -/
theorem lineOf_bounds (text : List Char) (n : Nat) :
    ∃ w, (ofText text).starts[(ofText text).lineOf n]? = some w ∧ w ≤ n ∧
      ∀ next, (ofText text).starts[(ofText text).lineOf n + 1]? = some next → n < next := by
  have hw := List.getElem?_eq_getElem (lineOf_lt_count text n)
  refine ⟨_, hw, ?_, fun next hnext => ?_⟩
  · by_contra hlt
    exact absurd ((lineOf_start hw).2 n (Nat.lt_of_not_le hlt)) (Nat.lt_irrefl _)
  · by_contra hle
    have hmono := (ofText text).lineOf_mono (Nat.le_of_not_lt hle)
    rw [(lineOf_start hnext).1] at hmono
    omega

theorem lineOf_succ_le (text : List Char) (n : Nat) : (ofText text).lineOf (n + 1) ≤ (ofText text).lineOf n + 1 := by
  have hone : ((Text.utf8 text)[n]?.toList).count 10 ≤ 1 :=
    List.count_le_length.trans (by cases (Text.utf8 text)[n]? <;> simp)
  rw [lineOf_eq_feedsBefore, lineOf_eq_feedsBefore, Text.feedsBefore, List.take_add_one, List.count_append]
  exact Nat.add_le_add_left hone _

/-- Between two offsets no line is left out. -/
theorem exists_lineOf_eq (text : List Char) (k : Nat) {m : Nat} (h : m ≤ n) (hm : (ofText text).lineOf m ≤ k)
    (hn : k ≤ (ofText text).lineOf n) : ∃ i, m ≤ i ∧ i ≤ n ∧ (ofText text).lineOf i = k := by
  induction n, h using Nat.le_induction with
  | base => exact ⟨m, Nat.le_refl _, Nat.le_refl _, Nat.le_antisymm hm hn⟩
  | succ n hmn ih =>
    by_cases hk : k ≤ (ofText text).lineOf n
    · obtain ⟨i, hmi, hin, hi⟩ := ih hk
      exact ⟨i, hmi, Nat.le_succ_of_le hin, hi⟩
    · have hstep := lineOf_succ_le text n
      exact ⟨n + 1, Nat.le_succ_of_le hmn, Nat.le_refl _, by omega⟩

/-- A search in the line starts that meets the offset tells its line; one that misses it tells where it would come in,
which is behind the start of its line. -/
theorem lineOf_eq_search (text : List Char) (offset : Nat) :
    (∀ line, (ofText text).starts[line]? = some offset → (ofText text).lineOf offset = line) ∧
    ∀ before behind, (ofText text).starts = before ++ behind → (∀ s ∈ before, s < offset) →
      (∀ s ∈ behind, offset < s) → 0 < before.length ∧ (ofText text).lineOf offset = before.length - 1 := by
  refine ⟨fun line h => (lineOf_start h).1, fun before behind hstarts hbefore hbehind => ⟨?_, ?_⟩⟩
  · refine List.length_pos_iff.mpr fun hnil => ?_
    have hfirst : 0 ∈ behind := by
      rw [hnil, List.nil_append] at hstarts
      exact hstarts ▸ List.mem_cons_self
    exact absurd (hbehind 0 hfirst) (Nat.not_lt_zero _)
  · have hall : before.countP (· ≤ offset) = before.length :=
      List.countP_eq_length.mpr fun s hs => decide_eq_true (Nat.le_of_lt (hbefore s hs))
    have hnone : behind.countP (· ≤ offset) = 0 :=
      List.countP_eq_zero.mpr fun s hs => by simpa using hbehind s hs
    rw [lineOf, hstarts, List.countP_append, hall, hnone, Nat.add_zero]

theorem position_eq (h : n ≤ Text.bytes text) : ∃ w, (ofText text).starts[(ofText text).lineOf n]? = some w ∧ w ≤ n ∧
    (ofText text).position n = ⟨(ofText text).lineOf n, n - w⟩ := by
  obtain ⟨w, hw, hle, -⟩ := lineOf_bounds text n
  refine ⟨w, hw, hle, ?_⟩
  have hmin : min n (ofText text).size = n := Nat.min_eq_left h
  rw [position, hmin, hw, Option.getD_some]

/-- The line of a position starts so many bytes before the offset as the column says. -/
theorem start?_position (h : n ≤ Text.bytes text) :
    ∃ start, (ofText text).start? ((ofText text).position n).line = some start ∧
      start + ((ofText text).position n).column = n := by
  obtain ⟨w, hw, hle, hposition⟩ := position_eq h
  have hne : (ofText text).lineOf n ≠ (ofText text).count := Nat.ne_of_lt (lineOf_lt_count text n)
  rw [hposition]
  exact ⟨w, (if_neg hne).trans hw, Nat.add_sub_of_le hle⟩

/-- The column of a byte lies in the line. -/
theorem column_lt (h : n < Text.bytes text) :
    ∃ line, (Text.lines text)[((ofText text).position n).line]? = some line ∧
      ((ofText text).position n).column < Text.bytes line := by
  obtain ⟨w, hw, hle, hnext⟩ := lineOf_bounds text n
  obtain ⟨w', hw', -, hposition⟩ := position_eq (Nat.le_of_lt h)
  obtain rfl := Option.some.inj (hw.symm.trans hw')
  have hcount := lineOf_lt_count text n
  rw [hposition]
  generalize (ofText text).lineOf n = k at hw hnext hcount
  rw [starts_getElem?_eq hcount, Option.some.injEq] at hw
  have hbefore : n < Text.bytes ((Text.lines text).take (k + 1)).flatten := by
    by_cases hlast : k + 1 < (ofText text).count
    · exact hnext _ (starts_getElem?_eq hlast)
    · have hend := start?_eq text (ofText text).count
      rw [start?, if_pos rfl, if_pos (Nat.le_refl _), Option.some.injEq] at hend
      have hk : k + 1 = (ofText text).count := by omega
      exact hk ▸ hend ▸ h
  rw [List.take_add_one, List.flatten_append, Text.bytes_append, hw] at hbefore
  cases hline : (Text.lines text)[k]? with
  | none =>
    rw [hline] at hbefore
    simp at hbefore
    omega
  | some line =>
    rw [hline] at hbefore
    refine ⟨line, rfl, ?_⟩
    simp only [Option.toList_some, List.flatten_singleton] at hbefore
    show n - w < Text.bytes line
    omega

theorem position_before {m : Nat} (h : m < n) (hn : n ≤ Text.bytes text) :
    ((ofText text).position m).Before ((ofText text).position n) := by
  obtain ⟨v, hv, hvm, hm⟩ := position_eq (Nat.le_of_lt (Nat.lt_of_lt_of_le h hn))
  obtain ⟨w, hw, hwn, hn⟩ := position_eq hn
  rw [hm, hn]
  rcases Nat.lt_or_eq_of_le ((ofText text).lineOf_mono (Nat.le_of_lt h)) with hlt | heq
  · exact .inl hlt
  · rw [← heq, hv, Option.some.injEq] at hw
    refine .inr ⟨heq, ?_⟩
    show m - v < n - w
    omega

/-- Ranges with bytes on one line are those whose lines meet. -/
theorem exists_shared_line_iff {a b : Range} (ha : a.start < a.stop) (hb : b.start < b.stop) :
    (∃ m n, a.start ≤ m ∧ m < a.stop ∧ b.start ≤ n ∧ n < b.stop ∧ (ofText text).lineOf m = (ofText text).lineOf n) ↔
      ((ofText text).linesOf a).1 ≤ ((ofText text).linesOf b).2 ∧
        ((ofText text).linesOf b).1 ≤ ((ofText text).linesOf a).2 := by
  have hmono := @lineOf_mono (ofText text)
  rw [linesOf_proper _ ha, linesOf_proper _ hb]
  constructor
  · rintro ⟨m, n, ham, hma, hbn, hnb, hline⟩
    have h₁ := hmono ham
    have h₂ := hmono (show m ≤ a.stop - 1 by omega)
    have h₃ := hmono hbn
    have h₄ := hmono (show n ≤ b.stop - 1 by omega)
    exact ⟨by dsimp only; omega, by dsimp only; omega⟩
  · rintro ⟨hab, hba⟩
    -- The later one of the two first lines is a line of both.
    have h₁ := hmono (show a.start ≤ a.stop - 1 by omega)
    have h₂ := hmono (show b.start ≤ b.stop - 1 by omega)
    let line := max ((ofText text).lineOf a.start) ((ofText text).lineOf b.start)
    obtain ⟨m, ham, hma, hm⟩ := exists_lineOf_eq text line (show a.start ≤ a.stop - 1 by omega) (Nat.le_max_left ..)
      (Nat.max_le.mpr ⟨h₁, hba⟩)
    obtain ⟨n, hbn, hnb, hn⟩ := exists_lineOf_eq text line (show b.start ≤ b.stop - 1 by omega) (Nat.le_max_right ..)
      (Nat.max_le.mpr ⟨hab, h₂⟩)
    exact ⟨m, n, ham, by omega, hbn, by omega, hm.trans hn.symm⟩

/-- Offsets, lines and columns of a text go together. The line of an offset has the number of the line feeds before it, and
a search in the line starts tells it whether it meets the offset or not. The line of a position starts as many bytes
before the offset as the column says, and the column lies in that line unless the text ends there; positions come in the
order of their offsets. A line has a start up to the one behind the last, which starts where the text ends. The lines of
a range are those of its first and of its last byte, so that ranges have bytes on one line just when their lines meet. -/
theorem positions_exact (text : List Char) :
    (∀ offset, (ofText text).lineOf offset = Text.feedsBefore text (min offset (Text.bytes text))) ∧
    (∀ offset line, (ofText text).starts[line]? = some offset → (ofText text).lineOf offset = line) ∧
    (∀ offset before behind, (ofText text).starts = before ++ behind → (∀ s ∈ before, s < offset) →
      (∀ s ∈ behind, offset < s) → 0 < before.length ∧ (ofText text).lineOf offset = before.length - 1) ∧
    (∀ offset ≤ Text.bytes text,
      (∃ start, (ofText text).start? ((ofText text).position offset).line = some start ∧
        start + ((ofText text).position offset).column = offset) ∧
      ((∃ line, (Text.lines text)[((ofText text).position offset).line]? = some line ∧
        ((ofText text).position offset).column < Text.bytes line) ∨ offset = Text.bytes text)) ∧
    (∀ m n, m < n → n ≤ Text.bytes text → ((ofText text).position m).Before ((ofText text).position n)) ∧
    (∀ line, ((ofText text).start? line).isSome = true ↔ line ≤ (ofText text).count) ∧
    (∀ line ≤ (ofText text).count,
      (ofText text).start? line = some (Text.bytes ((Text.lines text).take line).flatten)) ∧
    (ofText text).start? (ofText text).count = some (Text.bytes text) ∧
    (∀ r : Range, r.start < r.stop → r.stop ≤ Text.bytes text →
      (ofText text).linesOf r = (Text.feedsBefore text r.start, Text.feedsBefore text (r.stop - 1))) ∧
    ∀ a b : Range, a.start < a.stop → a.stop ≤ Text.bytes text → b.start < b.stop → b.stop ≤ Text.bytes text →
      ((∃ m n, a.start ≤ m ∧ m < a.stop ∧ b.start ≤ n ∧ n < b.stop ∧
        Text.feedsBefore text m = Text.feedsBefore text n) ↔
          ((ofText text).linesOf a).1 ≤ ((ofText text).linesOf b).2 ∧
            ((ofText text).linesOf b).1 ≤ ((ofText text).linesOf a).2) := by
  refine ⟨?_, fun offset => (lineOf_eq_search text offset).1, fun offset => (lineOf_eq_search text offset).2, ?_, ?_, ?_,
    ?_, if_pos rfl, ?_, ?_⟩
  · intro offset
    rw [lineOf_eq_feedsBefore, Text.feedsBefore_min]
  · intro offset h
    refine ⟨start?_position h, ?_⟩
    rcases Nat.lt_or_eq_of_le h with hlt | heq
    · exact .inl (column_lt hlt)
    · exact .inr heq
  · exact fun m n => position_before
  · intro line
    rw [start?_eq]
    by_cases h : line ≤ (ofText text).count <;> simp [h]
  · intro line h
    rw [start?_eq, if_pos h]
  · intro r h _
    rw [linesOf_proper _ h, lineOf_eq_feedsBefore, lineOf_eq_feedsBefore]
  · intro a b ha _ hb _
    simp only [← lineOf_eq_feedsBefore]
    exact exists_shared_line_iff ha hb

/-- For instance in a text with a character of two bytes, and an empty line at its end. -/
theorem positions_exact_accented :
    let t := ofText ['é', '\n', 'b', '\n']
    t.lineOf 3 = 1 ∧ (∃ start, t.start? (t.position 4).line = some start ∧ start + (t.position 4).column = 4) ∧
      (t.position 4).Before (t.position 5) ∧ t.start? 3 = some 5 ∧ t.linesOf ⟨1, 5⟩ = (0, 1) := by
  obtain ⟨hline, -, -, hposition, hbefore, -, -, hlast, hrange, -⟩ := positions_exact ['é', '\n', 'b', '\n']
  exact ⟨(hline 3).trans (by decide), (hposition 4 (by decide)).1, hbefore 4 5 (by decide) (by decide), hlast,
    (hrange ⟨1, 5⟩ (by decide) (by decide)).trans (by decide)⟩

end LineTable

end Calculation
