import Mathlib.Data.List.Basic
import Calculation.Proofs.Token.Cutting

/-!
Where the lexer may start again. At the end of a token, and anywhere among blanks, a text can be cut in two: the
tokens of the first part and those of the second, read from the offset of the cut on, are the tokens of the whole, but
that blanks the cut falls into become two tokens.
-/
namespace Calculation

namespace Token

/-- What becomes of a token when the text is cut at `p`: blanks with `p` inside of them become two tokens. -/
def partsAt (p : Nat) (t : Token) : List Token :=
  if t.kind = .whitespace ∧ t.range.start < p ∧ p < t.range.stop then
    match Text.splitAt? (p - t.range.start) t.text.toList with
    | some (x, y) =>
      [{ t with text := .ofList x, range := ⟨t.range.start, p⟩ },
        { t with text := .ofList y, range := ⟨p, t.range.stop⟩ }]
    | none => [t]
  else [t]

/-- A text can be cut at the ends of this token, and among its blanks. -/
def CutsAt (p : Nat) (t : Token) : Prop :=
  p = t.range.start ∨ p = t.range.stop ∨ (t.kind = .whitespace ∧ t.range.start < p ∧ p < t.range.stop)

/-- An offset between two tokens, before the first, behind the last, or inside of blanks. -/
def Cuttable (ts : List Token) (p : Nat) : Prop :=
  p = 0 ∨ ∃ t ∈ ts, CutsAt p t

variable {p offset : Nat} {t : Token} {cs : List Char}

theorem partsAt_of_avoids (h : t.range.Avoids p) : partsAt p t = [t] :=
  if_neg fun hin => by
    unfold Range.Avoids at h
    omega

theorem flatMap_partsAt_of_le (h : p ≤ offset) : (lex offset cs).flatMap (partsAt p) = lex offset cs := by
  have hwhole : ∀ t ∈ lex offset cs, partsAt p t = [t] := by
    intro t ht
    have hb := (lex_inLine offset cs).1.bounds _ (List.mem_map_of_mem ht)
    exact partsAt_of_avoids (.inl (Nat.le_trans h hb.1))
  rw [List.flatMap_congr hwhole, List.flatMap_singleton']

/-- The first token is there whatever is left of the text behind it. -/
theorem lex_front (offset : Nat) (c : Char) (cs : List Char) : ∃ text rest, text ≠ [] ∧ c :: cs = text ++ rest ∧
    ((first (c :: cs)).1 = .whitespace → text = (c :: cs).takeWhile Scan.isSpace) ∧
    ∀ x y, rest = x ++ y →
      lex offset (text ++ x) = taking offset (first (c :: cs)) text :: lex (offset + Text.bytes text) x := by
  refine ⟨c :: cs.take ((first (c :: cs)).2.size - 1), cs.drop ((first (c :: cs)).2.size - 1), by simp, ?_,
    first_whitespace, ?_⟩
  · rw [List.cons_append, List.take_append_drop]
  · intro x y hxy
    generalize hn : (first (c :: cs)).2.size - 1 = n at hxy ⊢
    cases y with
    | nil =>
      rw [List.append_nil] at hxy
      rw [← hxy, List.cons_append, List.take_append_drop, lex_taking, hn]
    | cons d y =>
      -- Something is left behind the first token, so that it takes no more than its text.
      have hdrop := congrArg List.length hxy
      simp only [List.length_drop, List.length_append, List.length_cons] at hdrop
      have htake : (cs.take n).length = n := List.length_take_of_le (by omega)
      have happ : c :: cs = (c :: cs.take n ++ x) ++ (d :: y) := by
        rw [List.append_assoc, ← hxy, List.cons_append, List.take_append_drop]
      have hsame : first (c :: (cs.take n ++ x)) = first (c :: cs) := by
        have hsize : (first (c :: cs)).2.size ≤ (c :: cs.take n ++ x).length := by
          rw [List.length_append, List.length_cons, htake]
          omega
        rw [happ] at hsize ⊢
        exact first_stable hsize
      rw [List.cons_append, lex_taking, hsame, hn, List.take_left' htake, List.drop_left' htake]

theorem bytes_blanks (h : ∀ c ∈ cs, Scan.isSpace c = true) : Text.bytes cs = cs.length := by
  induction cs with
  | nil => rfl
  | cons c cs ih =>
    obtain ⟨hc, hcs⟩ := List.forall_mem_cons.mp h
    have hone : c.utf8Size = 1 := by
      rcases Rule.isSpace_cases hc with rfl | rfl | rfl | rfl | rfl <;> rfl
    rw [Text.bytes_cons, hone, ih hcs, List.length_cons, Nat.add_comm]

theorem partsAt_blanks {x y : List Char} (hx : x ≠ []) (hy : y ≠ []) :
    partsAt (offset + Text.bytes x) (blanks offset (x ++ y)) =
      [blanks offset x, blanks (offset + Text.bytes x) y] := by
  have hxpos := bytes_pos hx
  have hypos := bytes_pos hy
  have hstart : (blanks offset (x ++ y)).range.start < offset + Text.bytes x := Nat.lt_add_of_pos_right hxpos
  have hstop : offset + Text.bytes x < (blanks offset (x ++ y)).range.stop := by
    simp only [blanks, taking, Text.bytes_append]
    omega
  have hsplit : Text.splitAt? (offset + Text.bytes x - (blanks offset (x ++ y)).range.start)
      (blanks offset (x ++ y)).text.toList = some (x, y) := by
    simp only [blanks, taking, String.toList_ofList, Nat.add_sub_cancel_left]
    exact Text.splitAt?_bytes x y
  rw [partsAt, if_pos ⟨rfl, hstart, hstop⟩, hsplit]
  simp [blanks, taking, Nat.add_assoc]

/-- Blanks can be cut anywhere inside: each part is a token of blanks. -/
theorem lex_splits_blanks (hlo : offset < p) (hhi : p < offset + Text.bytes (cs.takeWhile Scan.isSpace)) :
    ∃ x y, cs = x ++ y ∧ p = offset + Text.bytes x ∧
      lex offset x ++ lex p y = (lex offset cs).flatMap (partsAt p) := by
  obtain ⟨w, hw⟩ : ∃ w, cs.takeWhile Scan.isSpace = w := ⟨_, rfl⟩
  have hspace : ∀ c ∈ w, Scan.isSpace c = true := fun c hc => Scan.mem_takeWhile (hw ▸ hc)
  have hcs : cs = w ++ cs.dropWhile Scan.isSpace := by rw [← hw, List.takeWhile_append_dropWhile]
  have hbehind := takeWhile_dropWhile cs
  generalize cs.dropWhile Scan.isSpace = z at hcs hbehind
  rw [hw, bytes_blanks hspace] at hhi
  obtain ⟨x, y, rfl, hx⟩ : ∃ x y, w = x ++ y ∧ x.length = p - offset :=
    ⟨w.take (p - offset), w.drop (p - offset), (List.take_append_drop _ _).symm, by
      rw [List.length_take]
      omega⟩
  have hxspace : ∀ c ∈ x, Scan.isSpace c = true := fun c hc => hspace c (List.mem_append_left y hc)
  have hyspace : ∀ c ∈ y, Scan.isSpace c = true := fun c hc => hspace c (List.mem_append_right x hc)
  have hxne : x ≠ [] := List.length_pos_iff.mp (by omega)
  have hyne : y ≠ [] := List.length_pos_iff.mp (by rw [List.length_append] at hhi; omega)
  obtain rfl : p = offset + Text.bytes x := by
    rw [bytes_blanks hxspace]
    omega
  have hfront := lex_blanks offset (z := []) hxne hxspace rfl
  rw [List.append_nil, lex_nil] at hfront
  refine ⟨x, y ++ z, by rw [hcs, List.append_assoc], rfl, ?_⟩
  rw [hcs, hfront, lex_blanks _ hyne hyspace hbehind, lex_blanks _ (by simp [hxne]) hspace hbehind,
    List.flatMap_cons, partsAt_blanks hxne hyne, Text.bytes_append, ← Nat.add_assoc,
    flatMap_partsAt_of_le (Nat.le_add_right _ _)]
  rfl

/-- The tokens of a text cut in two are those of the whole, the blanks around the cut in two. -/
theorem lex_splits (h : p = offset ∨ ∃ t ∈ lex offset cs, CutsAt p t) : ∃ x y, cs = x ++ y ∧
    p = offset + Text.bytes x ∧ lex offset x ++ lex p y = (lex offset cs).flatMap (partsAt p) := by
  induction hn : cs.length using Nat.strongRecOn generalizing offset cs with
  | _ n ih =>
    by_cases hp : p = offset
    · subst hp
      refine ⟨[], cs, rfl, by simp, ?_⟩
      rw [lex_nil, List.nil_append, flatMap_partsAt_of_le (Nat.le_refl p)]
    · obtain ⟨t, ht, hcut⟩ := h.resolve_left hp
      cases cs with
      | nil =>
        rw [lex_nil] at ht
        cases ht
      | cons c cs =>
        obtain ⟨text, rest, hne, happ, hblank, hfront⟩ := lex_front offset c cs
        have hlex := hfront rest [] (List.append_nil rest).symm
        rw [← happ] at hlex
        -- Behind the first token the cut is found by induction, and the first token stays as it is.
        have hbehind : p = offset + Text.bytes text ∨ (∃ t ∈ lex (offset + Text.bytes text) rest, CutsAt p t) →
            ∃ x y, c :: cs = x ++ y ∧ p = offset + Text.bytes x ∧
              lex offset x ++ lex p y = (lex offset (c :: cs)).flatMap (partsAt p) := by
          intro hrest
          have hlen : rest.length < n := by
            have hpos := List.length_pos_iff.mpr hne
            rw [← hn, happ, List.length_append]
            omega
          obtain ⟨x, y, rfl, hpx, hxy⟩ := ih rest.length hlen hrest rfl
          refine ⟨text ++ x, y, by rw [happ, List.append_assoc], ?_, ?_⟩
          · rw [hpx, Text.bytes_append, Nat.add_assoc]
          · have hstop : (taking offset (first (c :: cs)) text).range.Avoids p :=
              .inr (by rw [hpx]; exact Nat.le_add_right _ _)
            rw [hfront x y rfl, hlex, List.flatMap_cons, partsAt_of_avoids hstop, List.cons_append, hxy]
            rfl
        rw [hlex] at ht
        rcases List.mem_cons.mp ht with rfl | ht
        · rcases hcut with hstart | hstop | ⟨hkind, hlo, hhi⟩
          · exact absurd hstart hp
          · exact hbehind (.inl hstop)
          · exact lex_splits_blanks hlo (hblank hkind ▸ hhi)
        · exact hbehind (.inr ⟨t, ht, hcut⟩)

end Token

/-- At the end of a token, and inside of blanks, a text can be cut, and the tokens of the parts are those of the whole,
where blanks that the cut falls into are two tokens. -/
theorem tokenize_splits {text : String} {p : Nat} (h : Token.Cuttable (tokenize text) p) : ∃ x y,
    Text.splitAt? p text.toList = some (x, y) ∧
      tokenize (.ofList x) ++ Token.lex p y = (tokenize text).flatMap (Token.partsAt p) := by
  obtain ⟨x, y, htext, hp, hsplits⟩ := Token.lex_splits h
  refine ⟨x, y, ?_, ?_⟩
  · rw [htext, hp, Nat.zero_add]
    exact Text.splitAt?_bytes x y
  · rw [tokenize, String.toList_ofList]
    exact hsplits

/-- Between the carriage return and the line feed, where the text has a doubled quote before and a comment behind. -/
theorem tokenize_splits_line_end : Token.Cuttable (tokenize "'a'''\r\n//b") 6 ∧ ∃ x y,
    Text.splitAt? 6 "'a'''\r\n//b".toList = some (x, y) ∧
      tokenize (.ofList x) ++ Token.lex 6 y = (tokenize "'a'''\r\n//b").flatMap (Token.partsAt 6) := by
  have hcut : Token.Cuttable (tokenize "'a'''\r\n//b") 6 :=
    .inr ⟨⟨.whitespace, "\r\n", ⟨5, 7⟩, false⟩, by decide +kernel, .inr (.inr (by decide))⟩
  exact ⟨hcut, tokenize_splits hcut⟩

end Calculation
