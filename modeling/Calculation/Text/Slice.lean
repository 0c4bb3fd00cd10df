import Calculation.Text.Range

/-!
Cutting text at byte offsets. A text is its list of characters; an offset that falls inside a
character cuts nothing.
-/
namespace Calculation.Text

/-- The number of bytes of a text's UTF-8 form. -/
def bytes : List Char → Nat
  | [] => 0
  | c :: cs => c.utf8Size + bytes cs

@[simp] theorem bytes_nil : bytes [] = 0 := rfl

@[simp] theorem bytes_cons (c : Char) (cs : List Char) : bytes (c :: cs) = c.utf8Size + bytes cs := rfl

@[simp] theorem bytes_append (a b : List Char) : bytes (a ++ b) = bytes a + bytes b := by
  induction a with
  | nil => simp
  | cons c cs ih => simp [ih, Nat.add_assoc]

/-- The text before and after `offset`; nothing when the offset is past the end or inside a character. -/
def splitAt? : Nat → List Char → Option (List Char × List Char)
  | 0, cs => some ([], cs)
  | _ + 1, [] => none
  | n + 1, c :: cs =>
    if c.utf8Size ≤ n + 1 then
      (splitAt? (n + 1 - c.utf8Size) cs).map fun (before, after) => (c :: before, after)
    else none

def slice? (r : Range) (cs : List Char) : Option (List Char) := do
  let (_, after) ← splitAt? r.start cs
  let (middle, _) ← splitAt? r.length after
  return middle

theorem splitAt?_bytes (a b : List Char) : splitAt? (bytes a) (a ++ b) = some (a, b) := by
  induction a with
  | nil => simp [splitAt?]
  | cons c cs ih =>
    have hc : 0 < c.utf8Size := Char.utf8Size_pos c
    obtain ⟨n, hn⟩ : ∃ n, bytes (c :: cs) = n + 1 := ⟨bytes (c :: cs) - 1, by simp; omega⟩
    rw [hn, List.cons_append, splitAt?]
    have hle : c.utf8Size ≤ n + 1 := by rw [← hn]; simp
    have hs : n + 1 - c.utf8Size = bytes cs := by rw [← hn]; simp
    rw [if_pos hle, hs, ih]
    rfl

theorem splitAt?_eq_some {n : Nat} {cs a b : List Char} (h : splitAt? n cs = some (a, b)) :
    cs = a ++ b ∧ n = bytes a := by
  induction cs generalizing n a with
  | nil =>
    cases n with
    | zero => simp [splitAt?] at h; obtain ⟨rfl, rfl⟩ := h; simp
    | succ n => simp [splitAt?] at h
  | cons c cs ih =>
    cases n with
    | zero => simp [splitAt?] at h; obtain ⟨rfl, rfl⟩ := h; simp
    | succ n =>
      simp only [splitAt?] at h
      split at h
      · rename_i hc
        cases hs : splitAt? (n + 1 - c.utf8Size) cs with
        | none => simp [hs] at h
        | some p =>
          obtain ⟨a', b'⟩ := p
          simp only [hs, Option.map_some, Option.some.injEq, Prod.mk.injEq] at h
          obtain ⟨rfl, rfl⟩ := h
          obtain ⟨hcs, hn⟩ := ih hs
          exact ⟨by rw [hcs]; rfl, by simp; omega⟩
      · simp at h

end Calculation.Text
