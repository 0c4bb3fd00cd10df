import Calculation.Proofs.Token.Cutting

namespace Calculation

theorem Text.utf8ByteSize_ofList (cs : List Char) : (String.ofList cs).utf8ByteSize = Text.bytes cs := by
  induction cs with
  | nil => rfl
  | cons c cs ih =>
    rw [String.ofList_cons, String.utf8ByteSize_append, String.utf8ByteSize_singleton, ih, Text.bytes_cons]

namespace Token

variable {offset : Nat} {cs : List Char} {t : Token} {k : Kind}

/-- The range of a token is as long as its text. -/
def Sized (t : Token) : Prop :=
  t.range.stop = t.range.start + t.text.utf8ByteSize

theorem lex_sized (ht : t ∈ lex offset cs) : t.Sized := by
  obtain ⟨n, c, xs, rfl⟩ := exists_first ht
  exact congrArg (n + ·) (Text.utf8ByteSize_ofList _).symm

/-- What the only rule of a kind found is the text of the token, when the rule looks for a fixed word. -/
theorem text_of_word (word : String) (g : List Char → List Char) (hk : k ≠ .invalid)
    (hone : Rule.all.filter (·.kind == k) =
      [⟨k, fun cs => if g (cs.take word.length) = word.toList then Match.whole? word.length else none⟩])
    (ht : t ∈ lex offset cs) (htk : t.kind = k) : ∃ text, t.text = .ofList text ∧ g text = word.toList := by
  obtain ⟨n, c, xs, rfl⟩ := exists_first ht
  obtain ⟨r, hr, hrk, hscan⟩ := first_source fun h : (first (c :: xs)).1 = .invalid => hk (htk.symm.trans h)
  have hmem : r ∈ Rule.all.filter (·.kind == k) :=
    List.mem_filter.mpr ⟨hr, beq_iff_eq.mpr (hrk.trans htk)⟩
  rw [hone] at hmem
  cases List.mem_singleton.mp hmem
  dsimp only at hscan
  split at hscan
  · rename_i hword
    obtain ⟨hfound, hpos⟩ := Scan.whole?_eq_some hscan
    refine ⟨_, rfl, ?_⟩
    rw [hfound, ← List.take_succ_cons, Nat.sub_add_cancel (Nat.one_le_iff_ne_zero.mpr hpos)]
    exact hword
  · cases hscan

theorem utf8Size_of_toLower {c : Char} (h : c.toLower.utf8Size = 1) : c.utf8Size = 1 := by
  unfold Char.toLower at h
  split at h
  · rename_i hupper
    have hle : c.val ≤ 127 := Nat.le_trans hupper.2 (by decide)
    simp only [Char.utf8Size]
    exact if_pos hle
  · exact h

/-- Only the letters s and k have a spelling of more than one byte. -/
theorem utf8Size_of_fold {c : Char} (hsize : (Scan.fold c).utf8Size = 1) (hs : Scan.fold c ≠ 's')
    (hk : Scan.fold c ≠ 'k') : c.utf8Size = 1 := by
  by_cases hlong : c = 'ſ'
  · exact absurd (if_pos hlong) hs
  · by_cases hkelvin : c = '\u212a'
    · exact absurd ((if_neg hlong).trans (if_pos hkelvin)) hk
    · exact utf8Size_of_toLower (((if_neg hlong).trans (if_neg hkelvin) : Scan.fold c = c.toLower) ▸ hsize)

theorem bytes_of_fold {text : List Char} (h : ∀ c ∈ text.map Scan.fold, c.utf8Size = 1 ∧ c ≠ 's' ∧ c ≠ 'k') :
    Text.bytes text = (text.map Scan.fold).length := by
  induction text with
  | nil => rfl
  | cons c text ih =>
    obtain ⟨⟨hsize, hs, hk⟩, htext⟩ := List.forall_mem_cons.mp h
    rw [Text.bytes_cons, utf8Size_of_fold hsize hs hk, ih htext, List.map_cons, List.length_cons, Nat.add_comm]

/-- IF takes two bytes in every spelling. -/
theorem size_of_if (ht : t ∈ lex offset cs) (hk : t.kind = .if_) : t.text.utf8ByteSize = 2 := by
  obtain ⟨text, htext, hword⟩ := text_of_word "if" (List.map Scan.fold) (by decide) rfl ht hk
  have hplain : ∀ c ∈ "if".toList, c.utf8Size = 1 ∧ c ≠ 's' ∧ c ≠ 'k' :=
    List.forall_mem_cons.mpr ⟨by decide, List.forall_mem_singleton.mpr (by decide)⟩
  rw [htext, Text.utf8ByteSize_ofList, bytes_of_fold (hword ▸ hplain), hword]
  rfl

theorem size_of_leftBrace (ht : t ∈ lex offset cs) (hk : t.kind = .leftBrace) : t.text.utf8ByteSize = 1 := by
  obtain ⟨text, htext, hword⟩ := text_of_word "\x7b" id (by decide) rfl ht hk
  rw [htext, Text.utf8ByteSize_ofList, show text = ['\x7b'] from hword]
  rfl

end Token

end Calculation
