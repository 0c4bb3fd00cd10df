import Calculation.Proofs.Document.Halves
import Calculation.Proofs.Document.Moving
import Calculation.Proofs.Document.Shown
import Calculation.Proofs.Seam.Items

namespace Calculation.Seam

open Movable Statement

variable {m : Seam} {src₁ src₂ : Source} {lines : LineTable} {cs : List Token} {is : List Item}

/-- The marks that what was read of the first text shows. -/
def MarksReading (m : Seam) (r : Reading) : Prop :=
  (∃ d ∈ r.faults, m.MarksEvent (.fault d)) ∨ Symbol.Show m.MarksSymbol r.symbols

theorem additive_marks (m : Seam) : Item.Additive m.MarksItem :=
  (Item.additive_met m.MarksEvent).or (Item.additive_show fun _ _ => Iff.rfl)

theorem comment_unmarked (m : Seam) (lines : LineTable) (t : Token) : ¬m.MarksItem (Item.ofComment lines t) := by
  rintro (⟨e, he, d, pre, l, v, rfl, hcode, -⟩ | ⟨s, hs, hkind, -⟩)
  · have hd := Item.ofComment_events lines t _ he
    cases hd
    cases hcode
  · obtain ⟨c, hc, hk, hchildren⟩ := Item.ofComment_symbols lines t
    rw [hc, Symbol.walkAll_singleton, Symbol.walk_eq, hchildren, Symbol.walkAll_nil] at hs
    cases List.mem_singleton.mp hs
    rw [hk] at hkind
    cases hkind

theorem marks_run (m : Seam) (r : Run) : (∃ d ∈ (Piece.ofRun r).faults, m.MarksEvent (.fault d)) ∨
    Symbol.Show m.MarksSymbol (Piece.ofRun r).symbols ↔ m.MarksItem r.item := by
  refine or_congr ⟨?_, ?_⟩ Iff.rfl
  · rintro ⟨d, hd, hm⟩
    obtain ⟨e, he, hed⟩ := List.mem_filterMap.mp (List.mem_mergeSort.mp hd)
    cases e with
    | valid => cases hed
    | fault d' =>
      cases hed
      exact ⟨_, he, hm⟩
  · rintro ⟨e, he, hm⟩
    obtain ⟨d, pre, l, v, rfl, -⟩ := id hm
    exact ⟨d, List.mem_mergeSort.mpr (List.mem_filterMap.mpr ⟨_, he, rfl⟩), hm⟩

/-- The pieces made of statements and comments show the marks of the statements. -/
theorem marksReading_ofParts (m : Seam) (lines : LineTable) (cs : List Token) (is : List Item) :
    m.MarksReading (.ofPieces (Piece.ofParts lines cs is)) ↔ ∃ i ∈ is, m.MarksItem i := by
  have hruns := (additive_marks m).exists_run lines cs is
  have hnone : ¬∃ t ∈ cs, m.MarksItem (Item.ofComment lines t) :=
    fun ⟨t, _, ht⟩ => comment_unmarked m lines t ht
  rw [or_iff_right hnone] at hruns
  rw [← hruns]
  have hfaults : (∃ d ∈ (Piece.ofParts lines cs is).flatMap (·.faults), m.MarksEvent (.fault d)) ↔
      ∃ p ∈ Piece.ofParts lines cs is, ∃ d ∈ p.faults, m.MarksEvent (.fault d) := by
    constructor
    · rintro ⟨d, hd, hm⟩
      obtain ⟨p, hp, hdp⟩ := List.mem_flatMap.mp hd
      exact ⟨p, hp, d, hdp, hm⟩
    · rintro ⟨p, hp, d, hdp, hm⟩
      exact ⟨d, List.mem_flatMap.mpr ⟨p, hp, hdp⟩, hm⟩
  simp only [MarksReading, Reading.ofPieces, hfaults, Symbol.show_flatMap, ← exists_or, ← and_or_left]
  constructor
  · rintro ⟨p, hp, hm⟩
    obtain ⟨r, hr, rfl⟩ := List.mem_map.mp hp
    exact ⟨r, hr, (marks_run m r).mp hm⟩
  · rintro ⟨r, hr, hm⟩
    exact ⟨_, List.mem_map_of_mem hr, (marks_run m r).mpr hm⟩

/-- A seam is sound when the first text is found again, moved, in the second one up to the seam. -/
theorem sound_of_moves (h : Source.Moves m.src₁ m.src₂ m.bytes m.lines m.size) {edge : Nat → Prop}
    (hin : LexemesInLine edge 0 m.size m.before) (hjoint : m.Joint) : m.Sound :=
  ⟨h.options, hin.ranges, hin.proper, fun _ hr hsize => h.lines.continuation hr hsize, h.trimmed, hjoint⟩

end Calculation.Seam
