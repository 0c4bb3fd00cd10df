import Calculation.Proofs.Tree.InLine

namespace Calculation.Symbol

mutual

/-- The symbols of a tree that are finished outside of skipped stretches, in the order in which they are: children
before their parents. -/
def finished : Symbol → List Symbol
  | ⟨n, k, r, cs, c, l⟩ => if k = .skipped then [] else finishedAll cs ++ [⟨n, k, r, cs, c, l⟩]

def finishedAll : List Symbol → List Symbol
  | [] => []
  | s :: ss => s.finished ++ finishedAll ss

end

mutual

/-- The skipped stretches of a tree, with all that stands below them. -/
def hidden : Symbol → List Symbol
  | ⟨n, k, r, cs, c, l⟩ => if k = .skipped then ⟨n, k, r, cs, c, l⟩ :: walkAll cs else hiddenAll cs

def hiddenAll : List Symbol → List Symbol
  | [] => []
  | s :: ss => s.hidden ++ hiddenAll ss

end

variable {s x m : Symbol} {ss : List Symbol}

theorem finished_eq (s : Symbol) : s.finished = if s.kind = .skipped then [] else finishedAll s.children ++ [s] := by
  cases s
  rw [finished]

@[simp] theorem finishedAll_nil : finishedAll [] = [] := by rw [finishedAll]

theorem finishedAll_cons (s : Symbol) (ss : List Symbol) : finishedAll (s :: ss) = s.finished ++ finishedAll ss := by
  rw [finishedAll]

@[simp] theorem finishedAll_append (as bs : List Symbol) :
    finishedAll (as ++ bs) = finishedAll as ++ finishedAll bs := by
  induction as with
  | nil => simp
  | cons s ss ih => simp [finishedAll_cons, ih]

theorem finishedAll_one (hk : s.kind ≠ .skipped) : finishedAll [s] = finishedAll s.children ++ [s] := by
  rw [finishedAll_cons, finishedAll_nil, List.append_nil, finished_eq, if_neg hk]

theorem finishedAll_skipped (hk : s.kind = .skipped) : finishedAll [s] = [] := by
  rw [finishedAll_cons, finishedAll_nil, List.append_nil, finished_eq, if_pos hk]

mutual

theorem finished_hidden : ∀ s : Symbol, (s.finished ++ s.hidden).Perm s.walk
  | ⟨n, k, r, cs, c, l⟩ => by
    rw [finished, hidden, walk]
    split
    · exact .refl _
    · have hchildren := finishedAll_hiddenAll cs
      refine List.Perm.trans ?_ (hchildren.cons _)
      rw [List.append_assoc, List.singleton_append]
      exact List.perm_middle

/-- Every symbol is either finished outside of skipped stretches or hidden by one. -/
theorem finishedAll_hiddenAll : ∀ ss : List Symbol, (finishedAll ss ++ hiddenAll ss).Perm (walkAll ss)
  | [] => by
    rw [finishedAll, hiddenAll, walkAll]
    exact .refl _
  | s :: ss => by
    rw [finishedAll, hiddenAll, walkAll]
    refine List.Perm.trans ?_ ((finished_hidden s).append (finishedAll_hiddenAll ss))
    simp only [List.append_assoc]
    exact (List.perm_append_comm_assoc ..).append_left _

end

mutual

theorem walk_trans : ∀ s : Symbol, m ∈ s.walk → m.walk ⊆ s.walk
  | ⟨n, k, r, cs, c, l⟩, hm => by
    rw [walk] at hm ⊢
    rcases List.mem_cons.mp hm with rfl | hm
    · rw [walk]
      exact List.Subset.refl _
    · exact List.subset_cons_of_subset _ (walkAll_trans cs hm)

/-- What stands below a symbol of trees stands in the trees. -/
theorem walkAll_trans : ∀ ss : List Symbol, m ∈ walkAll ss → m.walk ⊆ walkAll ss
  | [], hm => by
    rw [walkAll] at hm
    cases hm
  | s :: ss, hm => by
    rw [walkAll] at hm ⊢
    rcases List.mem_append.mp hm with hm | hm
    · exact List.subset_append_of_subset_left _ (walk_trans s hm)
    · exact List.subset_append_of_subset_right _ (walkAll_trans ss hm)

end

mutual

theorem mem_hidden : ∀ s : Symbol, m ∈ s.walk → m.kind = .skipped → x ∈ m.walk → x ∈ s.hidden
  | ⟨n, k, r, cs, c, l⟩, hm, hk, hx => by
    rw [hidden]
    split
    · have hsub := walk_trans _ hm hx
      rwa [walk] at hsub
    · rename_i hplain
      rw [walk] at hm
      rcases List.mem_cons.mp hm with rfl | hm
      · exact absurd hk hplain
      · exact mem_hiddenAll cs hm hk hx

/-- All that stands below a skipped stretch is hidden. -/
theorem mem_hiddenAll : ∀ ss : List Symbol, m ∈ walkAll ss → m.kind = .skipped → x ∈ m.walk → x ∈ hiddenAll ss
  | [], hm, _, _ => by
    rw [walkAll] at hm
    cases hm
  | s :: ss, hm, hk, hx => by
    rw [walkAll] at hm
    rw [hiddenAll]
    rcases List.mem_append.mp hm with hm | hm
    · exact List.mem_append_left _ (mem_hidden s hm hk hx)
    · exact List.mem_append_right _ (mem_hiddenAll ss hm hk hx)

end

end Calculation.Symbol
