import Calculation.Proofs.Document.Order

namespace Calculation

open Located Calculation.Symbol

namespace Outline

variable {e : Splice.Edited} {old : String} {previous : Outline} {ps : List Piece}

/-- The pieces of a reachable outline that are kept behind a change of its text. -/
theorem Pieced.kept_behind {new before removed added behind : List Char} {d : LineChange} (h : previous.Pieced old ps)
    (hparts : d.Parts old.toList new before removed added behind) (growth : Nat) :
    ∀ p ∈ ps.drop (Splice.nextStatement previous.segments
      (Splice.affected old.toList d previous.segments + growth)), Text.bytes (before ++ removed) ≤ p.range.start := by
  intro p hp
  have hsegments : previous.segments = Piece.segments 0 0 ps := congrArg Reading.segments h.reading
  obtain ⟨i, hi⟩ : ∃ i, i = Splice.nextStatement previous.segments
    (Splice.affected old.toList d previous.segments + growth) := ⟨_, rfl⟩
  rw [← hi] at hp
  have hlt : i < previous.segments.length := by
    have hpos := List.length_pos_of_mem hp
    rw [List.length_drop] at hpos
    rw [hsegments, Piece.length_segments]
    omega
  have hge := Splice.nextStatement_ge (hi ▸ hlt)
  refine Splice.kept_behind hparts h.inOrder ?_ p hp
  rw [← hsegments]
  omega

end Outline

end Calculation
