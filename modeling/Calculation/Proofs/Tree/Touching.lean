import Calculation.Proofs.Tree.Finished

/-!
Which symbols touch an offset, and which of them is found there. In trees without disorder a symbol touches what its
children touch. So the search, which goes down only below symbols that touch the offset and takes the first answer,
finds the first symbol in reading order that touches it while none of its children does. A symbol further down touches
the offset only behind a sibling that touches it as well: there the one ends and the other starts.
-/
namespace Calculation

variable {offset : Nat} {parent : String} {within : Range} {previousStop : Option Nat} {s x y : Symbol}
  {ss : List Symbol}

namespace Range

theorem touches_of_contains {p r : Range} (h : p.contains r = true) (hr : r.touches offset = true) :
    p.touches offset = true := by
  simp only [contains, touches, Bool.and_eq_true, decide_eq_true_eq] at *
  omega

/-- Two ranges one behind the other touch an offset where the first ends and the second starts. -/
theorem touches_both {a b : Range} (h : a.stop ≤ b.start) (ha : a.touches offset = true)
    (hb : b.touches offset = true) : a.stop = offset ∧ b.start = offset := by
  simp only [touches, Bool.and_eq_true, decide_eq_true_eq] at ha hb
  omega

end Range

open Outline

theorem Outline.rootDisorder?_cons : rootDisorder? previousStop (s :: ss) = none ↔
    (∀ stop ∈ previousStop, stop ≤ s.range.start) ∧ s.disorder? = none ∧
      rootDisorder? (some s.range.stop) ss = none := by
  rw [rootDisorder?]
  cases previousStop with
  | none => simp
  | some stop =>
    by_cases hover : s.range.start < stop
    · simp [hover, Nat.not_le_of_lt hover]
    · simp [hover, Nat.le_of_not_lt hover]

theorem Outline.disorder?_roots (h : rootDisorder? previousStop ss = none) : ∀ s ∈ ss, s.disorder? = none := by
  induction ss generalizing previousStop with
  | nil => exact List.forall_mem_nil _
  | cons s ss ih =>
    obtain ⟨-, hs, hss⟩ := rootDisorder?_cons.mp h
    exact List.forall_mem_cons.mpr ⟨hs, ih hss⟩

namespace Symbol

/-- Children are in order when they stand inside their parent and would be in order as roots. -/
theorem disorderAll?_iff : disorderAll? parent within previousStop ss = none ↔
    (∀ s ∈ ss, within.contains s.range = true) ∧ rootDisorder? previousStop ss = none := by
  induction ss generalizing previousStop with
  | nil => simp [disorderAll?, rootDisorder?]
  | cons s ss ih =>
    rw [disorderAll?, rootDisorder?, List.forall_mem_cons]
    by_cases hin : within.contains s.range = true
    · by_cases hover : previousStop.any (s.range.start < ·) = true
      · simp [hin, hover]
      · simp [hin, hover, ih, and_left_comm]
    · simp [hin]

theorem disorder?_iff : s.disorder? = none ↔
    (∀ c ∈ s.children, s.range.contains c.range = true) ∧ rootDisorder? none s.children = none := by
  cases s
  rw [disorder?]
  exact disorderAll?_iff

theorem disorder?_children (h : s.disorder? = none) : ∀ c ∈ s.children, c.disorder? = none :=
  disorder?_roots (disorder?_iff.mp h).2

/-- Without disorder at the top there is none further down. -/
theorem disorder?_below : ∀ (ss : List Symbol), (∀ s ∈ ss, s.disorder? = none) →
    ∀ p ∈ walkAll ss, p.disorder? = none
  | [], _, p, hp => by
    rw [walkAll_nil] at hp
    cases hp
  | ⟨n, k, r, cs, c, l⟩ :: ss, h, p, hp => by
    obtain ⟨hs, hss⟩ := List.forall_mem_cons.mp h
    rw [walkAll_cons, walk_eq, List.cons_append, List.mem_cons, List.mem_append] at hp
    rcases hp with rfl | hp | hp
    · exact hs
    · exact disorder?_below cs (disorder?_children hs) p hp
    · exact disorder?_below ss hss p hp

/-- What touches an offset below the top does so below something at the top that touches it. -/
theorem exists_touching : ∀ (ss : List Symbol), (∀ s ∈ ss, s.disorder? = none) → x ∈ walkAll ss →
    x.range.touches offset = true → ∃ s ∈ ss, x ∈ s.walk ∧ s.range.touches offset = true
  | [], _, hx, _ => by
    rw [walkAll_nil] at hx
    cases hx
  | ⟨n, k, r, cs, c, l⟩ :: ss, h, hx, ht => by
    obtain ⟨hs, hss⟩ := List.forall_mem_cons.mp h
    rw [walkAll_cons, List.mem_append] at hx
    rcases hx with hx | hx
    · refine ⟨_, List.mem_cons_self, hx, ?_⟩
      rw [walk_eq, List.mem_cons] at hx
      rcases hx with rfl | hx
      · exact ht
      · obtain ⟨c, hc, -, hct⟩ := exists_touching cs (disorder?_children hs) hx ht
        exact Range.touches_of_contains ((disorder?_iff.mp hs).1 c hc) hct
    · obtain ⟨b, hb, hxb, hbt⟩ := exists_touching ss hss hx ht
      exact ⟨b, List.mem_cons_of_mem _ hb, hxb, hbt⟩

theorem touches_of_mem_walk (hs : s.disorder? = none) (hx : x ∈ s.walk) (ht : x.range.touches offset = true) :
    s.range.touches offset = true := by
  obtain ⟨t, hmem, -, htouch⟩ := exists_touching [s] (List.forall_mem_singleton.mpr hs)
    (walkAll_singleton s ▸ hx) ht
  exact List.mem_singleton.mp hmem ▸ htouch

/-- The symbol touches the offset, and none of its children does. -/
def isInnermostAt (offset : Nat) (s : Symbol) : Bool :=
  s.range.touches offset && !s.children.any (·.range.touches offset)

theorem findAt?_eq (offset : Nat) (s : Symbol) : s.findAt? offset =
    if s.range.touches offset then (findAtAll? offset s.children).or (some s) else none := by
  cases s
  rw [findAt?]

theorem findAt?_isSome : (s.findAt? offset).isSome = s.range.touches offset := by
  rw [findAt?_eq]
  cases s.range.touches offset <;> simp

theorem findAtAll?_isSome : (findAtAll? offset ss).isSome = ss.any (·.range.touches offset) := by
  induction ss with
  | nil =>
    rw [findAtAll?]
    rfl
  | cons s ss ih => rw [findAtAll?, Option.isSome_or, ih, List.any_cons, findAt?_isSome]

/-- The search finds the first symbol in reading order that touches the offset while none of its children does. -/
theorem findAtAll?_eq_find? : ∀ (ss : List Symbol), (∀ s ∈ ss, s.disorder? = none) →
    findAtAll? offset ss = (walkAll ss).find? (isInnermostAt offset)
  | [], _ => by rw [findAtAll?, walkAll_nil, List.find?_nil]
  | ⟨n, k, r, cs, c, l⟩ :: ss, h => by
    obtain ⟨hs, hss⟩ := List.forall_mem_cons.mp h
    have hbelow := findAtAll?_eq_find? cs (disorder?_children hs)
    rw [findAtAll?, findAt?_eq, walkAll_cons, List.find?_append, ← findAtAll?_eq_find? ss hss]
    refine congrArg (Option.or · _) ?_
    rw [walk_eq, List.find?_cons, isInnermostAt, ← findAtAll?_isSome]
    cases ht : r.touches offset with
    | true =>
      cases hfound : findAtAll? offset cs with
      | none => simp
      | some y => simp [← hbelow, hfound]
    | false =>
      -- What does not touch the offset has nothing below it that does.
      have hnone : (walkAll cs).find? (isInnermostAt offset) = none := by
        refine List.find?_eq_none.mpr fun y hy hinner => ?_
        have hyt : y.range.touches offset = true := (Bool.and_eq_true_iff.mp hinner).1
        have hmem := List.mem_cons_of_mem (⟨n, k, r, cs, c, l⟩ : Symbol) hy
        exact Bool.false_ne_true (ht.symm.trans (touches_of_mem_walk hs (walk_eq _ ▸ hmem) hyt))
      simp [hnone]

theorem le_of_mem_walkAllFrom : ∀ (ss : List Symbol) (depth : Nat), ∀ p ∈ walkAllFrom depth ss,
    depth ≤ p.1 ∧ p.2 ∈ walkAll ss
  | [], depth, p, hp => by
    rw [walkAllFrom] at hp
    cases hp
  | ⟨n, k, r, cs, c, l⟩ :: ss, depth, p, hp => by
    rw [walkAllFrom, walkFrom, List.cons_append, List.mem_cons, List.mem_append] at hp
    rw [walkAll_cons, walk_eq, List.cons_append, List.mem_cons, List.mem_append]
    rcases hp with rfl | hp | hp
    · exact ⟨Nat.le_refl _, .inl rfl⟩
    · obtain ⟨hle, hmem⟩ := le_of_mem_walkAllFrom cs _ p hp
      exact ⟨Nat.le_of_succ_le hle, .inr (.inl hmem)⟩
    · obtain ⟨hle, hmem⟩ := le_of_mem_walkAllFrom ss _ p hp
      exact ⟨hle, .inr (.inr hmem)⟩

theorem mem_walk_of_walkFrom {n depth : Nat} (h : (n, x) ∈ s.walkFrom depth) : x ∈ s.walk := by
  have hall : (n, x) ∈ walkAllFrom depth [s] := by simpa [walkAllFrom] using h
  exact walkAll_singleton s ▸ (le_of_mem_walkAllFrom [s] depth _ hall).2

/-- One stands in front of the other among the roots or among the children of one symbol. -/
def Siblings (ss : List Symbol) (a b : Symbol) : Prop :=
  List.Sublist [a, b] ss ∨ ∃ p ∈ walkAll ss, List.Sublist [a, b] p.children

/-- The two stand below siblings that both touch the offset, the second below the one further back. -/
def Rivals (offset : Nat) (ss : List Symbol) (s x : Symbol) : Prop :=
  ∃ a b, Siblings ss a b ∧ a.range.touches offset = true ∧ b.range.touches offset = true ∧
    s ∈ a.walk ∧ x ∈ b.walk

theorem Siblings.below (h : Siblings s.children x y) : Siblings (s :: ss) x y := by
  refine .inr ?_
  rw [walkAll_cons, walk_eq]
  rcases h with h | ⟨p, hp, h⟩
  · exact ⟨s, List.mem_append_left _ List.mem_cons_self, h⟩
  · exact ⟨p, List.mem_append_left _ (List.mem_cons_of_mem _ hp), h⟩

theorem Siblings.behind (h : Siblings ss x y) : Siblings (s :: ss) x y := by
  rcases h with h | ⟨p, hp, h⟩
  · exact .inl (h.cons s)
  · exact .inr ⟨p, walkAll_cons s ss ▸ List.mem_append_right _ hp, h⟩

theorem Rivals.below (h : Rivals offset s.children x y) : Rivals offset (s :: ss) x y := by
  obtain ⟨a, b, hab, hrest⟩ := h
  exact ⟨a, b, hab.below, hrest⟩

theorem Rivals.behind (h : Rivals offset ss x y) : Rivals offset (s :: ss) x y := by
  obtain ⟨a, b, hab, hrest⟩ := h
  exact ⟨a, b, hab.behind, hrest⟩

mutual

/-- What touches the offset stands no deeper than what is found, or is a rival of it. -/
theorem findAt?_depth : ∀ (s : Symbol) (depth : Nat), s.disorder? = none → s.findAt? offset = some x →
    ∃ n, (n, x) ∈ s.walkFrom depth ∧ ∀ m y, (m, y) ∈ s.walkFrom depth → y.range.touches offset = true →
      m ≤ n ∨ Rivals offset s.children x y
  | ⟨name, k, r, cs, c, l⟩, depth, hs, hfound => by
    have ht : r.touches offset = true := findAt?_isSome.symm.trans (Option.isSome_of_eq_some hfound)
    rw [findAt?_eq, if_pos ht] at hfound
    rw [walkFrom]
    cases hbelow : findAtAll? offset cs with
    | some z =>
      have hzx : z = x := by simpa [hbelow] using hfound
      rw [hzx] at hbelow
      obtain ⟨n, hn, hmost⟩ := findAtAll?_depth cs (depth + 1) (disorder?_children hs) hbelow
      refine ⟨n, List.mem_cons_of_mem _ hn, fun m y hy hyt => ?_⟩
      rcases List.mem_cons.mp hy with heq | hy
      · cases heq
        exact .inl (Nat.le_of_succ_le (le_of_mem_walkAllFrom cs _ _ hn).1)
      · exact hmost m y hy hyt
    | none =>
      obtain rfl : ⟨name, k, r, cs, c, l⟩ = x := by simpa [hbelow] using hfound
      refine ⟨depth, List.mem_cons_self, fun m y hy hyt => ?_⟩
      rcases List.mem_cons.mp hy with heq | hy
      · cases heq
        exact .inl (Nat.le_refl _)
      · obtain ⟨c, hc, -, hct⟩ :=
          exists_touching cs (disorder?_children hs) (le_of_mem_walkAllFrom cs _ _ hy).2 hyt
        have hsome : (findAtAll? offset cs).isSome = true :=
          findAtAll?_isSome ▸ List.any_eq_true.mpr ⟨c, hc, hct⟩
        rw [hbelow] at hsome
        cases hsome

theorem findAtAll?_depth : ∀ (ss : List Symbol) (depth : Nat), (∀ s ∈ ss, s.disorder? = none) →
    findAtAll? offset ss = some x → ∃ n, (n, x) ∈ walkAllFrom depth ss ∧
      ∀ m y, (m, y) ∈ walkAllFrom depth ss → y.range.touches offset = true → m ≤ n ∨ Rivals offset ss x y
  | [], depth, _, hfound => by
    rw [findAtAll?] at hfound
    cases hfound
  | s :: ss, depth, h, hfound => by
    obtain ⟨hs, hss⟩ := List.forall_mem_cons.mp h
    rw [findAtAll?] at hfound
    rw [walkAllFrom]
    cases hfirst : s.findAt? offset with
    | some z =>
      have hzx : z = x := by simpa [hfirst] using hfound
      rw [hzx] at hfirst
      obtain ⟨n, hn, hmost⟩ := findAt?_depth s depth hs hfirst
      refine ⟨n, List.mem_append_left _ hn, fun m y hy hyt => ?_⟩
      rcases List.mem_append.mp hy with hy | hy
      · exact (hmost m y hy hyt).imp_right Rivals.below
      · -- What stands below the others is a rival of all that is found below the first.
        obtain ⟨b, hb, hyb, hbt⟩ := exists_touching ss hss (le_of_mem_walkAllFrom ss _ _ hy).2 hyt
        have hst := findAt?_isSome.symm.trans (Option.isSome_of_eq_some hfirst)
        exact .inr ⟨s, b, .inl ((List.singleton_sublist.mpr hb).cons_cons s), hst, hbt, mem_walk_of_walkFrom hn, hyb⟩
    | none =>
      obtain ⟨n, hn, hmost⟩ := findAtAll?_depth ss depth hss (by simpa [hfirst] using hfound)
      refine ⟨n, List.mem_append_right _ hn, fun m y hy hyt => ?_⟩
      rcases List.mem_append.mp hy with hy | hy
      · have hst := findAt?_isSome.trans (touches_of_mem_walk hs (mem_walk_of_walkFrom hy) hyt)
        rw [hfirst] at hst
        cases hst
      · exact (hmost m y hy hyt).imp_right Rivals.behind

end

/-- Siblings whose ranges are proper stand one behind the other. -/
theorem pairwise_of_rootDisorder? (h : rootDisorder? previousStop ss = none)
    (hproper : ∀ s ∈ ss, s.range.start ≤ s.range.stop) :
    (∀ stop ∈ previousStop, ∀ s ∈ ss, stop ≤ s.range.start) ∧
      ss.Pairwise fun a b => a.range.stop ≤ b.range.start := by
  induction ss generalizing previousStop with
  | nil => simp
  | cons s ss ih =>
    obtain ⟨hstop, -, hss⟩ := rootDisorder?_cons.mp h
    obtain ⟨hs, hall⟩ := List.forall_mem_cons.mp hproper
    obtain ⟨hbehind, hpairs⟩ := ih hss hall
    have hfirst : ∀ b ∈ ss, s.range.stop ≤ b.range.start := hbehind _ rfl
    refine ⟨fun stop hprevious => List.forall_mem_cons.mpr ⟨hstop stop hprevious, fun b hb => ?_⟩,
      List.pairwise_cons.mpr ⟨hfirst, hpairs⟩⟩
    exact Nat.le_trans (hstop stop hprevious) (Nat.le_trans hs (hfirst b hb))

theorem Siblings.in_line {a b : Symbol} (h : rootDisorder? none ss = none)
    (hproper : ∀ s ∈ walkAll ss, s.range.start ≤ s.range.stop) (hab : Siblings ss a b) :
    a.range.stop ≤ b.range.start := by
  have hlevel : ∀ ts : List Symbol, rootDisorder? none ts = none → ts ⊆ walkAll ss → List.Sublist [a, b] ts →
      a.range.stop ≤ b.range.start := fun ts hts hsub hsublist =>
    List.rel_of_pairwise_cons
      ((pairwise_of_rootDisorder? hts fun s hs => hproper s (hsub hs)).2.sublist hsublist) List.mem_cons_self
  rcases hab with hab | ⟨p, hp, hab⟩
  · exact hlevel ss h (subset_walkAll ss) hab
  · have hbelow : p.disorder? = none := disorder?_below ss (disorder?_roots h) p hp
    refine hlevel p.children (disorder?_iff.mp hbelow).2 (fun c hc => ?_) hab
    exact walkAll_trans ss hp (walk_eq p ▸ List.mem_cons_of_mem p (subset_walkAll _ hc))

end Symbol

namespace Outline
open Calculation.Symbol

/-- What is found at an offset of an outline without disorder. Nothing is found just where nothing touches the offset;
otherwise it is the first symbol in reading order that touches it while none of its children does. Where no two siblings
touch the offset that is the deepest symbol to touch it: what touches it further down stands below a sibling further
back, at an offset where the one sibling ends and the other starts. -/
theorem first_innermost_found (o : Outline) (offset : Nat) (h : o.disorder? = none) :
    (o.symbolAt? offset = none ↔ ∀ s ∈ o.walk, s.range.touches offset = false) ∧
    o.symbolAt? offset = o.walk.find? (isInnermostAt offset) ∧
    (∀ s, o.symbolAt? offset = some s → s.range.touches offset = true ∧
      ∃ n, (n, s) ∈ walkAllFrom 0 o.symbols ∧ ∀ m x, (m, x) ∈ walkAllFrom 0 o.symbols →
        x.range.touches offset = true → m ≤ n ∨ Rivals offset o.symbols s x) ∧
    ((∀ s ∈ o.walk, s.range.start ≤ s.range.stop) → ∀ a b, Siblings o.symbols a b →
      a.range.touches offset = true → b.range.touches offset = true →
        a.range.stop = offset ∧ b.range.start = offset) := by
  have hroots : rootDisorder? none o.symbols = none := (Option.or_eq_none_iff.mp h).1
  have horder := disorder?_roots hroots
  have hfind : o.symbolAt? offset = o.walk.find? (isInnermostAt offset) := findAtAll?_eq_find? o.symbols horder
  refine ⟨?_, hfind, fun s hs => ⟨?_, findAtAll?_depth o.symbols 0 horder hs⟩, fun hproper a b hab ha hb => ?_⟩
  · rw [symbolAt?, ← Option.not_isSome_iff_eq_none, findAtAll?_isSome, Bool.not_eq_true, List.any_eq_false]
    constructor
    · intro hnone x hx
      refine Bool.eq_false_iff.mpr fun hxt => ?_
      obtain ⟨s, hs, -, hst⟩ := exists_touching o.symbols horder hx hxt
      exact hnone s hs hst
    · intro hnone s hs
      rw [hnone s (subset_walkAll _ hs)]
      exact Bool.false_ne_true
  · rw [hfind] at hs
    have hinner : s.isInnermostAt offset = true := List.find?_some hs
    exact (Bool.and_eq_true_iff.mp hinner).1
  · exact Range.touches_both (hab.in_line hroots hproper) ha hb

theorem first_innermost_found_in_call :
    let o := ofText .default "IF [A] THEN SUM([B]) END"
    o.disorder? = none ∧ o.symbolAt? 17 = o.walk.find? (isInnermostAt 17) ∧
      (o.symbolAt? 17).map (fun s => (s.name, s.range)) = some ("B", ⟨16, 19⟩) := by
  have horder : (ofText .default "IF [A] THEN SUM([B]) END").disorder? = none := by decide +kernel
  exact ⟨horder, (first_innermost_found _ 17 horder).2.1, by decide +kernel⟩

/-- Between the two fields of a block without a keyword the first is found, while the second stands deeper, in the mark
of what was not expected. -/
theorem deeper_symbol_missed :
    let o := ofText .default "{[A][B]}"
    o.disorder? = none ∧ (o.symbolAt? 4).map (fun s => (s.name, s.range)) = some ("A", ⟨1, 4⟩) ∧
      (walkAllFrom 0 o.symbols).map (fun p => (p.1, p.2.name, p.2.range)) =
        [(0, "LOD", ⟨0, 8⟩), (1, "A", ⟨1, 4⟩), (1, "error", ⟨4, 7⟩), (2, "B", ⟨4, 7⟩)] := by
  refine ⟨?_, ?_, ?_⟩ <;> decide +kernel

end Outline

end Calculation
