import Calculation.Proofs.Document.Runs
import Calculation.Proofs.Edit.Bisection
import Calculation.Proofs.Edit.Change

namespace Calculation

theorem moved_mono {m n : Nat} (h : m ≤ n) (d : Int) : moved m d ≤ moved n d := by
  unfold moved
  omega

namespace Range

variable {lo hi : Nat} {rs : List Range}

theorem InLine.shifted (h : InLine lo hi rs) (d : Int) :
    InLine (moved lo d) (moved hi d) (rs.map (·.shifted d)) := by
  induction rs generalizing lo with
  | nil => trivial
  | cons r rs ih =>
    obtain ⟨h₁, h₂, h₃, h₄⟩ := h
    exact ⟨moved_mono h₁ d, moved_mono h₂ d, moved_mono h₃ d, ih h₄⟩

end Range

theorem Branch.Proper.shifted {b : Branch} (h : b.Proper) (d : Int) : (b.shifted d).Proper :=
  ⟨congrArg (moved · d) h.start, moved_mono h.keyword d, moved_mono h.stop d⟩

namespace Symbol

theorem Kind.Fits.shifted {r : Range} {k : Kind} (h : k.Fits r) (d : Int) :
    (k.shifted d).Fits (r.shifted d) := by
  cases k with
  | block block branches terminator =>
    obtain ⟨hin, hproper, hterm⟩ := h
    refine ⟨?_, ?_, ?_⟩
    · have hs := hin.shifted d
      rwa [List.map_map] at hs ⊢
    · intro b hb
      obtain ⟨b', hb', rfl⟩ := List.mem_map.mp hb
      exact (hproper b' hb').shifted d
    · intro t ht
      obtain ⟨t', ht', rfl⟩ := Option.map_eq_some_iff.mp ht
      obtain ⟨⟨h₁, h₂⟩, h₃, h₄⟩ := hterm t' ht'
      refine ⟨⟨moved_mono h₁ d, moved_mono h₂ d⟩, congrArg (moved · d) h₃, ?_⟩
      intro b hb
      obtain ⟨b', hb', rfl⟩ := List.mem_map.mp hb
      exact moved_mono (h₄ b' hb') d
  | call arguments isNested =>
    have hs := Range.InLine.shifted h d
    unfold Kind.Fits
    simp only [Kind.shifted]
    rwa [List.map_map] at hs ⊢
  | _ => trivial

mutual

theorem InLine.shifted_one (d l : Int) : ∀ (s : Symbol) {lo hi : Nat}, InLine (fun _ => True) lo hi [s] →
    InLine (fun _ => True) (moved lo d) (moved hi d) [s.shifted d l]
  | ⟨n, k, r, cs, c, ls⟩, lo, hi, h => by
    obtain ⟨h₁, h₂, h₃, -, hk, hc, -⟩ := h.uncons
    rw [Symbol.shifted]
    exact .one (moved_mono h₁ d) (moved_mono h₂ d) (moved_mono h₃ d) ⟨trivial, trivial⟩ (hk.shifted d)
      (InLine.shifted d l cs hc)

/-- Symbols in line are still in line when they are moved. -/
theorem InLine.shifted (d l : Int) : ∀ (ss : List Symbol) {lo hi : Nat}, InLine (fun _ => True) lo hi ss →
    InLine (fun _ => True) (moved lo d) (moved hi d) (shiftedAll d l ss)
  | [], _, _, _ => by
    rw [shiftedAll]
    exact .nil
  | s :: ss, lo, hi, h => by
    obtain ⟨h₁, h₂, h₃, he, hk, hc, hss⟩ := h.uncons
    have hrange : (s.shifted d l).range = s.range.shifted d := by
      cases s
      rw [Symbol.shifted]
    have hrest := InLine.shifted d l ss hss
    rw [shiftedAll]
    refine (InLine.shifted_one d l s (.one h₁ h₂ h₃ he hk hc)).cons ?_
    rw [hrange]
    exact hrest

end

end Symbol

theorem Diagnostic.Within.shifted {lo hi : Nat} {x : Diagnostic} (h : x.Within lo hi) (d : Int) :
    (x.shifted d).Within (moved lo d) (moved hi d) := by
  obtain ⟨⟨h₁, h₂, h₃⟩, hrel⟩ := h
  refine ⟨⟨moved_mono h₁ d, moved_mono h₂ d, moved_mono h₃ d⟩, ?_⟩
  intro r hr
  obtain ⟨r', hr', rfl⟩ := List.mem_map.mp hr
  obtain ⟨h₁, h₂, h₃⟩ := hrel r' hr'
  exact ⟨moved_mono h₁ d, moved_mono h₂ d, moved_mono h₃ d⟩

namespace LineChange.Parts

variable {d : LineChange} {old new before removed added behind : List Char}

theorem moved_oldStop (h : d.Parts old new before removed added behind) (n : Nat) :
    moved (Text.bytes (before ++ removed) + n) d.byteDelta = Text.bytes (before ++ added) + n := by
  unfold moved byteDelta
  rw [h.oldStop, h.newStop]
  omega

theorem moved_size (h : d.Parts old new before removed added behind) :
    moved (Text.bytes old) d.byteDelta = Text.bytes new := by
  rw [h.old, h.new, Text.bytes_append, h.moved_oldStop, ← Text.bytes_append]

theorem size_eq (h : d.Parts old new before removed added behind) :
    (Text.bytes new : Int) = Text.bytes old + d.byteDelta := by
  unfold byteDelta
  rw [h.oldStop, h.newStop, h.old, h.new, Text.bytes_append _ behind, Text.bytes_append _ behind]
  omega

/-- Up to the change the two texts have the same lines. -/
theorem lineOf_before (h : d.Parts old new before removed added behind) {n : Nat}
    (hn : n ≤ Text.bytes before) : (LineTable.ofText new).lineOf n = (LineTable.ofText old).lineOf n := by
  rw [h.old, h.new, List.append_assoc, List.append_assoc, LineTable.lineOf_prefix _ _ hn,
    LineTable.lineOf_prefix _ _ hn]

/-- Behind the change the lines of the old text are those of the new one, moved. -/
theorem lineOf_behind (h : d.Parts old new before removed added behind) {n : Nat}
    (hn : Text.bytes (before ++ removed) ≤ n) :
    (LineTable.ofText new).lineOf (moved n d.byteDelta) =
      moved ((LineTable.ofText old).lineOf n) d.lineDelta := by
  obtain ⟨k, rfl⟩ : ∃ k, n = Text.bytes (before ++ removed) + k := ⟨_, (Nat.add_sub_of_le hn).symm⟩
  rw [h.moved_oldStop, h.old, h.new, LineTable.lineOf_suffix, LineTable.lineOf_suffix, List.count_append,
    List.count_append, moved, h.lineDelta]
  omega

end LineChange.Parts

namespace Piece

variable {d : LineChange} {old new before removed added behind : List Char} {p : Piece}

theorem Sound.kept (hp : p.Sound (LineTable.ofText old)) (h : d.Parts old new before removed added behind)
    (hstop : p.range.stop ≤ Text.bytes before) : p.Sound (LineTable.ofText new) := by
  have hproper := hp.proper
  refine ⟨hproper, ?_, hp.symbols, hp.faults, hp.tally⟩
  rw [← hp.lines, LineTable.linesOf_proper _ hproper, LineTable.linesOf_proper _ hproper,
    h.lineOf_before (by omega), h.lineOf_before (by omega)]

theorem Sound.moved_behind (hp : p.Sound (LineTable.ofText old))
    (h : d.Parts old new before removed added behind) (hstart : Text.bytes (before ++ removed) ≤ p.range.start) :
    (p.shifted d.byteDelta d.lineDelta).Sound (LineTable.ofText new) := by
  have hproper := hp.proper
  obtain ⟨k, hk⟩ : ∃ k, p.range.start = Text.bytes (before ++ removed) + k := ⟨_, (Nat.add_sub_of_le hstart).symm⟩
  obtain ⟨m, hm⟩ : ∃ m, p.range.stop = Text.bytes (before ++ removed) + (m + 1) :=
    ⟨p.range.stop - Text.bytes (before ++ removed) - 1, by omega⟩
  have hlast : moved p.range.stop d.byteDelta - 1 = moved (p.range.stop - 1) d.byteDelta := by
    have hpred : p.range.stop - 1 = Text.bytes (before ++ removed) + m := by omega
    rw [hpred, hm, h.moved_oldStop, h.moved_oldStop]
    omega
  have hshifted : (p.range.shifted d.byteDelta).start < (p.range.shifted d.byteDelta).stop := by
    simp only [Range.shifted, hk, hm, h.moved_oldStop]
    omega
  refine ⟨hshifted, ?_, hp.symbols.shifted _ _ _, ?_, hp.tally⟩
  · simp only [Piece.shifted]
    rw [LineTable.linesOf_proper _ hshifted]
    simp only [Range.shifted]
    rw [hlast, h.lineOf_behind hstart, h.lineOf_behind (by omega), ← hp.firstLine_eq,
      ← hp.lastLine_eq]
  · intro x hx
    obtain ⟨x', hx', rfl⟩ := List.mem_map.mp hx
    exact (hp.faults x' hx').shifted _

end Piece

end Calculation
