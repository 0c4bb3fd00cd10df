import Calculation.Outline.Segment

namespace Calculation

/-- A range, moved as if offsets had as many bits as they need. Where 32 bits are enough for all that is moved, this is
how the program moves. -/
def Range.shifted (r : Range) (delta : Int) : Range :=
  ⟨moved r.start delta, moved r.stop delta⟩

def Branch.shifted (b : Branch) (delta : Int) : Branch :=
  { b with keyword := b.keyword.shifted delta, range := b.range.shifted delta }

def Argument.shifted (a : Argument) (delta : Int) : Argument :=
  { a with range := a.range.shifted delta }

namespace Symbol

def Kind.shifted (delta : Int) : Kind → Kind
  | .block b branches terminator =>
    .block b (branches.map (·.shifted delta)) (terminator.map (·.shifted delta))
  | .call arguments isNested => .call (arguments.map (·.shifted delta)) isNested
  | k => k

mutual

/-- The tree `delta` bytes and `lines` lines further on. -/
def shifted (delta lines : Int) : Symbol → Symbol
  | ⟨n, k, r, cs, c, l⟩ =>
    ⟨n, k.shifted delta, r.shifted delta, shiftedAll delta lines cs, c, movedLines l lines⟩

def shiftedAll (delta lines : Int) : List Symbol → List Symbol
  | [] => []
  | s :: ss => s.shifted delta lines :: shiftedAll delta lines ss

end

theorem shiftedAll_eq_map (delta lines : Int) (ss : List Symbol) :
    shiftedAll delta lines ss = ss.map (·.shifted delta lines) := by
  induction ss with
  | nil => rfl
  | cons s ss ih => rw [shiftedAll, ih, List.map_cons]

end Symbol

def Diagnostic.shifted (d : Diagnostic) (delta : Int) : Diagnostic :=
  { d with
    range := d.range.shifted delta
    related := d.related.map fun r => { r with range := r.range.shifted delta } }

def Segment.shifted (s : Segment) (delta lines symbols faults : Int) : Segment :=
  { s with
    firstLine := moved s.firstLine lines
    lastLine := moved s.lastLine lines
    range := s.range.shifted delta
    symbols := s.symbols.shifted symbols
    faults := s.faults.shifted faults }

theorem Symbol.relocatedAll_eq_map (delta lines : Int) (ss : List Symbol) :
    relocatedAll delta lines ss = ss.map (·.relocated delta lines) := by
  induction ss with
  | nil => rfl
  | cons s ss ih => rw [relocatedAll, ih, List.map_cons]

theorem relocate_eq {n : Nat} {d : Int} (h : (n : Int) + d < capacity) : relocate n d = moved n d := by
  have hpos : 0 < capacity := by decide
  refine Nat.mod_eq_of_lt ?_
  unfold moved
  omega

theorem Range.relocated_eq {r : Range} {d : Int} (hstart : (r.start : Int) + d < capacity)
    (hstop : (r.stop : Int) + d < capacity) : r.relocated d = r.shifted d := by
  rw [relocated, shifted, relocate_eq hstart, relocate_eq hstop]

theorem mem_movedLines {ls : List Nat} {m : Nat} {d : Int} (h : m ∈ movedLines ls d) : ∃ n ∈ ls, m = moved n d := by
  have hkept : ∀ x ∈ (ls.filter fun n : Nat => 0 ≤ n + d).map (moved · d), ∃ n ∈ ls, x = moved n d := by
    intro x hx
    obtain ⟨n, hn, rfl⟩ := List.mem_map.mp hx
    exact ⟨n, (List.mem_filter.mp hn).1, rfl⟩
  unfold movedLines at h
  dsimp only at h
  split at h
  · rename_i hlow
    rcases List.mem_cons.mp h with rfl | h
    · obtain ⟨n, hn, hneg⟩ := List.any_eq_true.mp (Bool.and_eq_true_iff.mp hlow).1
      have hneg := of_decide_eq_true hneg
      exact ⟨n, hn, by unfold moved; omega⟩
    · exact hkept m h
  · exact hkept m h

theorem relocatedLines_eq {lines : List Nat} {d : Int} (h : ∀ n ∈ lines, (n : Int) + d < capacity) :
    relocatedLines lines d = movedLines lines d := by
  have hlow : ∀ m ∈ movedLines lines d, m < capacity := by
    intro m hm
    obtain ⟨n, hn, rfl⟩ := mem_movedLines hm
    rw [← relocate_eq (h n hn)]
    exact Nat.mod_lt _ (by decide)
  have hnone : (movedLines lines d).filter (capacity ≤ ·) = [] :=
    List.filter_eq_nil_iff.mpr fun m hm => by simpa using hlow m hm
  have hall : (movedLines lines d).filter (· < capacity) = movedLines lines d :=
    List.filter_eq_self.mpr fun m hm => decide_eq_true (hlow m hm)
  unfold relocatedLines
  dsimp only
  rw [hnone, hall, List.foldr_nil]

end Calculation
