import Calculation.Proofs.Tree.Finished
import Calculation.Proofs.Tree.Paths

namespace Calculation.Symbol

variable {edge : Nat → Prop} {lo hi : Nat} {c p q x : Symbol} {ss above outer : List Symbol}

/-- Of the symbols that are no comments and have `r` inside, the one furthest down. -/
def Innermost (ss : List Symbol) (r : Range) (p : Symbol) : Prop :=
  p.isComment = false ∧ p.range.contains r = true ∧ ∃ n, (n, p) ∈ walkAllFrom 0 ss ∧
    ∀ m q, (m, q) ∈ walkAllFrom 0 ss → q.isComment = false → q.range.contains r = true → m ≤ n ∧ (m = n → q = p)

theorem walkAllFrom_eq_placedAll : ∀ (ss : List Symbol) (n : Nat),
    walkAllFrom n ss = placedAll (fun _ n => n + 1) n ss
  | [], n => by rw [walkAllFrom, placedAll_nil]
  | ⟨name, k, r, cs, c, l⟩ :: ss, n => by
    rw [walkAllFrom, walkFrom, placedAll_cons, placed_eq, walkAllFrom_eq_placedAll cs, walkAllFrom_eq_placedAll ss]

/-- The depth of a symbol is the number of those around it. -/
theorem mem_walkAllFrom {n : Nat} : (n, p) ∈ walkAllFrom 0 ss ↔
    ∃ outer, (outer, p) ∈ placedAll List.cons [] ss ∧ outer.length = n := by
  have hmap : (placedAll List.cons [] ss).map (fun p => (p.1.length, p.2)) =
      placedAll (fun _ n => n + 1) 0 ss := map_placedAll (fun _ _ => List.length_cons) ss []
  rw [walkAllFrom_eq_placedAll, ← hmap, List.mem_map]
  constructor
  · rintro ⟨⟨outer, x⟩, hmem, heq⟩
    cases heq
    exact ⟨outer, hmem, rfl⟩
  · rintro ⟨outer, hmem, rfl⟩
    exact ⟨_, hmem, rfl⟩

theorem exists_around (hp : p ∈ walkAll ss) : ∃ outer, (outer, p) ∈ placedAll List.cons [] ss := by
  rw [← map_placedAll_symbol List.cons ss []] at hp
  obtain ⟨⟨outer, x⟩, hmem, rfl⟩ := List.mem_map.mp hp
  exact ⟨outer, hmem⟩

theorem mem_walkAll_of_placed {around : List Symbol} (hp : (outer, p) ∈ placedAll List.cons around ss) :
    p ∈ walkAll ss :=
  map_placedAll_symbol List.cons ss around ▸ List.mem_map_of_mem hp

/-- A child has its parent around, and then those around the parent. -/
theorem placed_child : ∀ (ss around : List Symbol), (outer, p) ∈ placedAll List.cons around ss → c ∈ p.children →
    (p :: outer, c) ∈ placedAll List.cons around ss
  | [], around, hp, _ => by
    rw [placedAll_nil] at hp
    cases hp
  | ⟨n, k, r, cs, ok, l⟩ :: ss, around, hp, hc => by
    rw [placedAll_cons, placed_eq, List.cons_append, List.mem_cons, List.mem_append] at hp ⊢
    rcases hp with heq | hp | hp
    · cases heq
      refine .inr (.inl ?_)
      obtain ⟨before, behind, rfl⟩ := List.append_of_mem hc
      rw [placedAll_append, placedAll_cons, placed_eq]
      exact List.mem_append_right _ (List.mem_append_left _ List.mem_cons_self)
    · exact .inr (.inl (placed_child cs _ hp hc))
    · exact .inr (.inr (placed_child ss around hp hc))

/-- A symbol is a root, or the child of the first of those around it. -/
theorem root_or_child : ∀ (ss around : List Symbol), (above, c) ∈ placedAll List.cons around ss →
    above = around ∧ c ∈ ss ∨
      ∃ p outer, above = p :: outer ∧ (outer, p) ∈ placedAll List.cons around ss ∧ c ∈ p.children
  | [], around, hc => by
    rw [placedAll_nil] at hc
    cases hc
  | ⟨n, k, r, cs, ok, l⟩ :: ss, around, hc => by
    rw [placedAll_cons, placed_eq, List.cons_append]
    rw [placedAll_cons, placed_eq, List.cons_append, List.mem_cons, List.mem_append] at hc
    rcases hc with heq | hc | hc
    · cases heq
      exact .inl ⟨rfl, List.mem_cons_self⟩
    · refine .inr ?_
      rcases root_or_child cs _ hc with ⟨habove, hc⟩ | ⟨p, outer, habove, hp, hc⟩
      · exact ⟨_, around, habove, List.mem_cons_self, hc⟩
      · exact ⟨p, outer, habove, List.mem_cons_of_mem _ (List.mem_append_left _ hp), hc⟩
    · rcases root_or_child ss around hc with ⟨habove, hc⟩ | ⟨p, outer, habove, hp, hc⟩
      · exact .inl ⟨habove, List.mem_cons_of_mem _ hc⟩
      · exact .inr ⟨p, outer, habove, List.mem_cons_of_mem _ (List.mem_append_right _ hp), hc⟩

/-- Those around the whole are the outermost around each symbol of it. -/
theorem around_suffix : ∀ (ss around : List Symbol), (above, c) ∈ placedAll List.cons around ss → around <:+ above
  | [], around, hc => by
    rw [placedAll_nil] at hc
    cases hc
  | ⟨n, k, r, cs, ok, l⟩ :: ss, around, hc => by
    rw [placedAll_cons, placed_eq, List.cons_append, List.mem_cons, List.mem_append] at hc
    rcases hc with heq | hc | hc
    · cases heq
      exact List.suffix_refl _
    · exact (List.suffix_cons _ _).trans (around_suffix cs _ hc)
    · exact around_suffix ss around hc

theorem InLine.tail (h : InLine edge lo hi (p :: ss)) : InLine edge p.range.stop hi ss :=
  h.uncons.2.2.2.2.2.2

theorem InLine.inner (h : InLine edge lo hi (p :: ss)) : InLine edge p.range.start p.range.stop p.children :=
  h.uncons.2.2.2.2.2.1

/-- All that stands in a symbol is inside of it. -/
theorem InLine.contains_below (h : InLine edge lo hi ss) (hp : p ∈ walkAll ss) (hx : x ∈ walkAll p.children) :
    p.range.contains x.range = true := by
  have hbelow : ∀ y ∈ walkAll p.children, y ∈ walkAll ss := fun y hy =>
    walkAll_trans ss hp (walk_eq p ▸ List.mem_cons_of_mem p hy)
  have hchildren : InLine edge p.range.start p.range.stop p.children :=
    ⟨(h.orderly p hp).children, fun y hy => h.orderly y (hbelow y hy)⟩
  obtain ⟨hstart, -, hstop⟩ := InLine.walkAll_bounds _ hchildren x hx
  simp only [Range.contains, Bool.and_eq_true, decide_eq_true_eq]
  exact ⟨hstart, hstop⟩

/-- A symbol that has `c` inside is `c` or one of those around it. -/
theorem InLine.enclosing : ∀ (ss around : List Symbol) {lo hi : Nat}, InLine edge lo hi ss → c.children = [] →
    c.range.start < c.range.stop → (above, c) ∈ placedAll List.cons around ss →
    (outer, q) ∈ placedAll List.cons around ss → q.range.contains c.range = true →
    q = c ∧ above = outer ∨ ∃ inner, above = inner ++ q :: outer
  | [], around, lo, hi, _, _, _, hc, _, _ => by
    rw [placedAll_nil] at hc
    cases hc
  | ⟨n, k, r, cs, ok, l⟩ :: ss, around, lo, hi, h, hleaf, hproper, hc, hq, hin => by
    -- All below the first root ends in front of all in the others, so that both symbols are on the same side.
    have hfirst : ∀ x ∈ walkAll cs, x.range.stop ≤ r.stop := fun x hx =>
      (InLine.walkAll_bounds _ h.inner x hx).2.2
    have hothers : ∀ x ∈ walkAll ss, r.stop ≤ x.range.start := fun x hx =>
      (InLine.walkAll_bounds _ h.tail x hx).1
    have hnot : ¬(c.range.stop ≤ q.range.start ∨ q.range.stop ≤ c.range.start) := fun hapart =>
      Bool.false_ne_true ((Range.not_contains hproper hapart).symm.trans hin)
    rw [placedAll_cons, placed_eq, List.cons_append, List.mem_cons, List.mem_append] at hc hq
    rcases hc with hc | hc | hc
    · cases hc
      obtain rfl : cs = [] := hleaf
      rcases hq with hq | hq | hq
      · cases hq
        exact .inl ⟨rfl, rfl⟩
      · rw [placedAll_nil] at hq
        cases hq
      · exact absurd (.inl (hothers q (mem_walkAll_of_placed hq))) hnot
    · have hcs := mem_walkAll_of_placed hc
      rcases hq with hq | hq | hq
      · cases hq
        obtain ⟨inner, hinner⟩ := around_suffix cs _ hc
        exact .inr ⟨inner, hinner.symm⟩
      · exact InLine.enclosing cs _ h.inner hleaf hproper hc hq hin
      · have hapart := Nat.le_trans (hfirst c hcs) (hothers q (mem_walkAll_of_placed hq))
        exact absurd (.inl hapart) hnot
    · have hbehind := hothers c (mem_walkAll_of_placed hc)
      rcases hq with hq | hq | hq
      · cases hq
        exact absurd (.inr hbehind) hnot
      · have hapart := Nat.le_trans (hfirst q (mem_walkAll_of_placed hq)) hbehind
        exact absurd (.inr hapart) hnot
      · exact InLine.enclosing ss around h.tail hleaf hproper hc hq hin

/-- Those around a symbol without children have it inside, and are others than it. -/
theorem InLine.contains_around (h : InLine edge lo hi ss) (hleaf : c.children = [])
    (hc : (above, c) ∈ placedAll List.cons [] ss) (hx : x ∈ above) :
    x ∈ walkAll ss ∧ x ≠ c ∧ x.range.contains c.range = true := by
  rcases mem_around ss [] hc hx with hx | ⟨hx, hbelow⟩
  · cases hx
  · refine ⟨hx, ?_, h.contains_below hx hbelow⟩
    rintro rfl
    rw [hleaf, walkAll_nil] at hbelow
    cases hbelow

/-- A symbol without children stands in one place. -/
theorem InLine.place_unique (h : InLine edge lo hi ss) (hleaf : c.children = [])
    (hproper : c.range.start < c.range.stop) (hc : (above, c) ∈ placedAll List.cons [] ss)
    (hc' : (outer, c) ∈ placedAll List.cons [] ss) : above = outer := by
  rcases InLine.enclosing ss [] h hleaf hproper hc hc' (Range.contains_self _) with ⟨-, he⟩ | ⟨inner, he⟩
  · exact he
  · have hmem : c ∈ above := he ▸ List.mem_append_right inner List.mem_cons_self
    exact absurd rfl (h.contains_around hleaf hc hmem).2.1

/-- A symbol without children is a root when no other symbol has it inside. -/
theorem InLine.mem_roots_iff (h : InLine edge lo hi ss) (hleaf : c.children = [])
    (hproper : c.range.start < c.range.stop) (hc : c ∈ walkAll ss) :
    c ∈ ss ↔ ∀ s ∈ walkAll ss, s ≠ c → s.range.contains c.range = false := by
  obtain ⟨above, hplace⟩ := exists_around hc
  constructor
  · intro hroot s hs hne
    by_contra hin
    obtain ⟨outer, hs⟩ := exists_around hs
    obtain rfl := h.place_unique hleaf hproper hplace (mem_placedAll_self hroot)
    rcases InLine.enclosing ss [] h hleaf hproper hplace hs (Bool.eq_true_of_not_eq_false hin) with
      ⟨rfl, -⟩ | ⟨inner, he⟩
    · exact hne rfl
    · simp at he
  · intro hnone
    rcases root_or_child ss [] hplace with ⟨-, hroot⟩ | ⟨p, outer, rfl, -, -⟩
    · exact hroot
    · obtain ⟨hp, hne, hin⟩ := h.contains_around hleaf hplace List.mem_cons_self
      rw [hnone p hp hne] at hin
      cases hin

/-- The symbol that a comment stands in is the innermost that has it inside. -/
theorem InLine.mem_children_iff (h : InLine edge lo hi ss)
    (hleaves : ∀ s ∈ walkAll ss, s.isComment = true → s.children = []) (hc : c ∈ walkAll ss)
    (hcomment : c.isComment = true) (hproper : c.range.start < c.range.stop) (hp : p ∈ walkAll ss) :
    c ∈ p.children ↔ Innermost ss c.range p := by
  have hleaf := hleaves c hc hcomment
  have hother : ∀ {q : Symbol}, q.isComment = false → q ≠ c := by
    rintro q hq rfl
    rw [hcomment] at hq
    cases hq
  have hinner : ∀ {p : Symbol} {outer : List Symbol}, (outer, p) ∈ placedAll List.cons [] ss → c ∈ p.children →
      p.isComment = false ∧ p.range.contains c.range = true ∧
        ∀ m q, (m, q) ∈ walkAllFrom 0 ss → q.isComment = false → q.range.contains c.range = true →
          m ≤ outer.length ∧ (m = outer.length → q = p) := by
    intro p outer hplace hchild
    have hplain : p.isComment = false := by
      by_contra hp
      rw [hleaves p (mem_walkAll_of_placed hplace) (Bool.eq_true_of_not_eq_false hp)] at hchild
      cases hchild
    have habove := placed_child ss [] hplace hchild
    refine ⟨hplain, (h.contains_around hleaf habove List.mem_cons_self).2.2, fun m q hq hplain hin => ?_⟩
    obtain ⟨around, hqplace, rfl⟩ := mem_walkAllFrom.mp hq
    rcases InLine.enclosing ss [] h hleaf hproper habove hqplace hin with ⟨rfl, -⟩ | ⟨inner, he⟩
    · exact absurd rfl (hother hplain)
    · cases inner with
      | nil =>
        cases he
        exact ⟨Nat.le_refl _, fun _ => rfl⟩
      | cons y inner =>
        have hlen := congrArg List.length he
        simp only [List.length_append, List.length_cons] at hlen
        exact ⟨by omega, by omega⟩
  constructor
  · intro hchild
    obtain ⟨outer, hplace⟩ := exists_around hp
    obtain ⟨hplain, hin, hmost⟩ := hinner hplace hchild
    exact ⟨hplain, hin, _, mem_walkAllFrom.mpr ⟨outer, hplace, rfl⟩, hmost⟩
  · rintro ⟨hplain, hin, n, hn, hmost⟩
    obtain ⟨outer, hplace, rfl⟩ := mem_walkAllFrom.mp hn
    obtain ⟨above, habove⟩ := exists_around hc
    rcases InLine.enclosing ss [] h hleaf hproper habove hplace hin with ⟨rfl, -⟩ | ⟨inner, he⟩
    · exact absurd rfl (hother hplain)
    · rcases root_or_child ss [] habove with ⟨hnil, -⟩ | ⟨p', outer', hcons, hplace', hchild⟩
      · rw [he] at hnil
        simp at hnil
      · -- The parent is not further up than the innermost, and so is the innermost.
        obtain ⟨hplain', hin', -⟩ := hinner hplace' hchild
        obtain ⟨hle, heq⟩ := hmost _ p' (mem_walkAllFrom.mpr ⟨outer', hplace', rfl⟩) hplain' hin'
        have hlen := congrArg List.length (he.symm.trans hcons)
        rw [List.length_append, List.length_cons, List.length_cons] at hlen
        exact heq (by omega) ▸ hchild

end Calculation.Symbol
