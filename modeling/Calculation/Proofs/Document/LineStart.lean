import Calculation.Proofs.Document.Weaving
import Calculation.Proofs.Edit.Boundary

namespace Calculation

namespace LineTable

theorem startsLine_bytes {u v : List Char} (hu : Text.EndsLine u) :
    (ofText (u ++ v)).StartsLine (Text.bytes u) := by
  intro n hn
  rcases hu with rfl | hu
  · cases hn
  · obtain ⟨w, rfl⟩ : ∃ w, u = w ++ ['\n'] := List.getLast?_eq_some_iff.mp hu
    have hle : n ≤ Text.bytes w := by
      have hfeed : Text.bytes (w ++ ['\n']) = Text.bytes w + 1 := by
        rw [Text.bytes_append]
        rfl
      omega
    rw [lineOf_bytes, List.append_assoc, lineOf_prefix w _ hle, List.count_append]
    have hline := (ofText w).lineOf_mono hle
    have hlast : (ofText w).lineOf (Text.bytes w) = w.count '\n' := by
      have h := lineOf_bytes w []
      rwa [List.append_nil] at h
    have hone : ['\n'].count '\n' = 1 := rfl
    omega

end LineTable

namespace Piece

variable {lines : LineTable} {lo hi k w : Nat} {ps : List Piece} {q : Piece}

/-- The line where a piece starts parts the pieces before it from it and those behind it. -/
theorem InOrder.parted (h : InOrder lines lo hi ps) (hq : ps[k]? = some q) (hline : lines.lineOf w = q.firstLine)
    (hw : lines.StartsLine w) :
    (∀ p ∈ ps.take k, p.range.stop ≤ w) ∧ ∀ p ∈ ps.drop k, w ≤ p.range.start := by
  refine ⟨fun p hp => ?_, fun p hp => Nat.le_of_not_lt fun hlt => ?_⟩
  · refine (h.sound p (List.mem_of_mem_take hp)).stop_le ?_
    rw [hline]
    exact h.lastLine_lt hp hq
  · have hle := h.firstLine_le hq hp
    have hbefore := hw _ hlt
    rw [(h.sound p (List.mem_of_mem_drop hp)).firstLine_eq] at hle
    omega

/-- The text in front of the line where a piece starts, and the text from this line on. -/
theorem InOrder.split {cs : List Char} (h : InOrder (LineTable.ofText cs) lo hi ps) (hq : q ∈ ps) :
    ∃ u v, cs = u ++ v ∧ (LineTable.ofText cs).start? q.firstLine = some (Text.bytes u) ∧
      u.count '\n' = q.firstLine ∧ Text.EndsLine u := by
  have hcount : q.firstLine < (LineTable.ofText cs).count := by
    rw [(h.sound q hq).firstLine_eq, LineTable.lineOf_ofText, LineTable.count_ofText, ← LineTable.length_startsAfter 0]
    exact Nat.lt_succ_of_le List.countP_le_length
  obtain ⟨w, hw⟩ : ∃ w, (LineTable.ofText cs).starts[q.firstLine]? = some w := ⟨_, List.getElem?_eq_getElem hcount⟩
  obtain ⟨u, v, hcs, rfl, hlines, hends⟩ := LineTable.starts_getElem? hw
  exact ⟨u, v, hcs, by rw [LineTable.start?, if_neg (Nat.ne_of_lt hcount), hw], hlines, hends⟩

end Piece

end Calculation
