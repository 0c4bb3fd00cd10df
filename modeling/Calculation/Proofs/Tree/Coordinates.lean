import Calculation.Proofs.Tree.InLine
import Calculation.Proofs.Tree.Shifting

/-!
Coordinates: the numbers in a symbol tree, a fault or a segment that say where it stands. A thing is told by its
coordinates and by what it is apart from them. Moving it adds to each coordinate and leaves the rest alone, unless a
coordinate would fall below zero or have more than 32 bits; so moves add up, and a move can be taken back.
-/
namespace Calculation

/-- What a coordinate counts: bytes or lines of the text, root symbols or faults of the document. -/
inductive Axis where
  | byte | line | symbol | fault
deriving DecidableEq

/-- The numbers that a coordinate can be: bytes and lines are counted with 32 bits. -/
def Axis.Holds (i : Axis) (n : Int) : Prop :=
  0 ≤ n ∧ (i = .byte ∨ i = .line → n < capacity)

instance (i : Axis) (n : Int) : Decidable (i.Holds n) :=
  inferInstanceAs (Decidable (_ ∧ (_ → _)))

/-- How far to move along each axis. -/
abbrev Shift := Axis → Int

/-- What stands somewhere: its coordinates in order, what it is apart from them, and how it is moved, exactly and with
numbers of 32 bits. -/
class Located (α : Type) where
  coordinates : α → List (Axis × Nat)
  bare : α → α
  shifted : Shift → α → α
  relocated : Shift → α → α

namespace Located

variable {α : Type} [Located α]

/-- No coordinate would fall below zero. -/
def Fits (δ : Shift) (a : α) : Prop :=
  ∀ x ∈ coordinates a, 0 ≤ (x.2 : Int) + δ x.1

/-- All coordinates are numbers that they can be, and would still be such numbers. -/
def Keeps (δ : Shift) (a : α) : Prop :=
  ∀ x ∈ coordinates a, x.1.Holds x.2 ∧ x.1.Holds (x.2 + δ x.1)

/-- A coordinate moved, as far down as zero. -/
def along (δ : Shift) (x : Axis × Nat) : Axis × Nat :=
  (x.1, moved x.2 (δ x.1))

/-- Coordinates with whatever follows them, and the rest, determine the whole; a move that fits changes
coordinates only, each along its axis. Where 32 bits are enough, moves with such numbers are exact. -/
class Lawful (α : Type) [Located α] : Prop where
  ext {a b : α} {xs ys : List (Axis × Nat)} (hb : bare a = bare b)
    (hc : coordinates a ++ xs = coordinates b ++ ys) : a = b ∧ xs = ys
  bare_shifted {δ : Shift} {a : α} (h : Fits δ a) : bare (shifted δ a) = bare a
  coordinates_shifted {δ : Shift} {a : α} (h : Fits δ a) :
    coordinates (shifted δ a) = (coordinates a).map (along δ)
  relocated_eq {δ : Shift} {a : α} (h : Keeps δ a) : relocated δ a = shifted δ a

instance : Located (List α) :=
  ⟨List.flatMap coordinates, List.map bare, fun δ => List.map (shifted δ), fun δ => List.map (relocated δ)⟩

instance : Located (Option α) :=
  ⟨fun a => coordinates a.toList, Option.map bare, fun δ => Option.map (shifted δ), fun δ => Option.map (relocated δ)⟩

theorem forall_coordinates_list {P : Axis × Nat → Prop} {as : List α} :
    (∀ x ∈ coordinates as, P x) ↔ ∀ a ∈ as, ∀ x ∈ coordinates a, P x :=
  List.forall_mem_flatMap

theorem fits_cons {δ : Shift} {a : α} {as : List α} : Fits δ (a :: as) ↔ Fits δ a ∧ Fits δ as :=
  List.forall_mem_append

theorem fits_list {δ : Shift} {as : List α} : Fits δ as ↔ ∀ a ∈ as, Fits δ a :=
  forall_coordinates_list

theorem keeps_list {δ : Shift} {as : List α} : Keeps δ as ↔ ∀ a ∈ as, Keeps δ a :=
  forall_coordinates_list

instance [Lawful α] : Lawful (List α) where
  ext {a b xs ys} hb hc := by
    induction a generalizing b with
    | nil =>
      obtain rfl : b = [] := List.map_eq_nil_iff.mp hb.symm
      exact ⟨rfl, hc⟩
    | cons a as ih =>
      obtain ⟨b, bs, rfl, hb₁, hb₂⟩ := List.map_eq_cons_iff.mp hb.symm
      have hc' : coordinates a ++ (coordinates as ++ xs) = coordinates b ++ (coordinates bs ++ ys) := by
        rw [← List.append_assoc, ← List.append_assoc]
        exact hc
      obtain ⟨rfl, hrest⟩ := Lawful.ext hb₁.symm hc'
      obtain ⟨rfl, hxs⟩ := ih hb₂.symm hrest
      exact ⟨rfl, hxs⟩
  bare_shifted {δ a} h := by
    have hall := fits_list.mp h
    show (a.map (shifted δ)).map bare = a.map bare
    rw [List.map_map]
    exact List.map_congr_left fun x hx => Lawful.bare_shifted (hall x hx)
  coordinates_shifted {δ a} h := by
    induction a with
    | nil => rfl
    | cons a as ih =>
      obtain ⟨ha, has⟩ := fits_cons.mp h
      show coordinates (shifted δ a) ++ coordinates (shifted δ as) = (coordinates a ++ coordinates as).map (along δ)
      rw [List.map_append, Lawful.coordinates_shifted ha, ih has]
  relocated_eq h := List.map_congr_left fun a ha => Lawful.relocated_eq (keeps_list.mp h a ha)

instance [Lawful α] : Lawful (Option α) where
  ext {a b xs ys} hb hc := by
    have hlist : bare a.toList = bare b.toList := by
      cases a <;> cases b <;> simp_all [bare]
    obtain ⟨hab, hrest⟩ := Lawful.ext hlist hc
    refine ⟨?_, hrest⟩
    cases a <;> cases b <;> simp_all
  bare_shifted {δ a} h := by
    cases a with
    | none => rfl
    | some a => exact congrArg some (Lawful.bare_shifted (fits_cons.mp h).1)
  coordinates_shifted {δ a} h := by
    have hlist : (shifted δ a).toList = shifted δ a.toList := by cases a <;> rfl
    show coordinates (shifted δ a).toList = _
    rw [hlist]
    exact Lawful.coordinates_shifted h
  relocated_eq {δ a} h := by
    cases a with
    | none => rfl
    | some a => exact congrArg some (Lawful.relocated_eq (keeps_list.mp h a (List.mem_singleton_self a)))

end Located

open Located

/-- Two parts with what follows them. -/
theorem Located.Lawful.ext_append {α β : Type} [Located α] [Lawful α] [Located β] [Lawful β] {a a' : α} {b b' : β}
    {xs ys : List (Axis × Nat)} (ha : bare a = bare a') (hb : bare b = bare b')
    (hc : coordinates a ++ coordinates b ++ xs = coordinates a' ++ coordinates b' ++ ys) : a = a' ∧ b = b' ∧ xs = ys := by
  rw [List.append_assoc, List.append_assoc] at hc
  obtain ⟨rfl, hrest⟩ := Lawful.ext ha hc
  obtain ⟨rfl, hxs⟩ := Lawful.ext hb hrest
  exact ⟨rfl, rfl, hxs⟩

namespace Range

def coordinates (axis : Axis) (r : Range) : List (Axis × Nat) :=
  [(axis, r.start), (axis, r.stop)]

instance : Located Range :=
  ⟨coordinates .byte, fun _ => .empty 0, fun δ r => r.shifted (δ .byte), fun δ r => r.relocated (δ .byte)⟩

instance : Lawful Range where
  ext {a b xs ys} _ hc := by
    cases a
    cases b
    simp_all [Located.coordinates, coordinates]
  bare_shifted _ := rfl
  coordinates_shifted _ := rfl
  relocated_eq {δ a} h := by
    have hstart := h (.byte, a.start) (by simp [Located.coordinates, coordinates])
    have hstop := h (.byte, a.stop) (by simp [Located.coordinates, coordinates])
    exact Range.relocated_eq (hstart.2.2 (.inl rfl)) (hstop.2.2 (.inl rfl))

end Range

/-- The lines that a symbol names, without their numbers. -/
def bareLines (lines : List Nat) : List Nat :=
  lines.map fun _ => 0

theorem lines_ext {a b : List Nat} {xs ys : List (Axis × Nat)} (hb : bareLines a = bareLines b)
    (hc : a.map (Axis.line, ·) ++ xs = b.map (Axis.line, ·) ++ ys) : a = b ∧ xs = ys := by
  have hlen : (a.map (Axis.line, ·)).length = (b.map (Axis.line, ·)).length := by
    simpa [bareLines] using congrArg List.length hb
  obtain ⟨hab, hrest⟩ := List.append_inj hc hlen
  exact ⟨(List.map_inj_right fun _ _ h => (Prod.mk.inj h).2).mp hab, hrest⟩

theorem lines_moved {δ : Shift} {lines : List Nat} (h : ∀ n ∈ lines, 0 ≤ (n : Int) + δ .line) :
    bareLines (movedLines lines (δ .line)) = bareLines lines ∧
      (movedLines lines (δ .line)).map (Axis.line, ·) = (lines.map (Axis.line, ·)).map (along δ) := by
  rw [movedLines_of_nonneg h, bareLines, bareLines, List.map_map, List.map_map, List.map_map]
  exact ⟨rfl, rfl⟩

instance : Located Branch :=
  ⟨fun b => coordinates b.keyword ++ coordinates b.range, fun b => ⟨b.kind, bare b.keyword, bare b.range⟩,
    fun δ b => b.shifted (δ .byte), fun δ b => b.relocated (δ .byte)⟩

instance : Lawful Branch where
  ext {a b xs ys} hb hc := by
    obtain ⟨k, ⟨_, _⟩, ⟨_, _⟩⟩ := a
    obtain ⟨l, ⟨_, _⟩, ⟨_, _⟩⟩ := b
    simp_all [coordinates, bare, Range.coordinates]
  bare_shifted _ := rfl
  coordinates_shifted _ := rfl
  relocated_eq {δ a} h := by
    obtain ⟨hkeyword, hrange⟩ := List.forall_mem_append.mp h
    show Branch.mk a.kind (relocated δ a.keyword) (relocated δ a.range) = _
    rw [Lawful.relocated_eq hkeyword, Lawful.relocated_eq hrange]
    rfl

instance : Located Argument :=
  ⟨fun a => coordinates a.range, fun a => ⟨a.text, bare a.range, a.isComplete⟩, fun δ a => a.shifted (δ .byte),
    fun δ a => a.relocated (δ .byte)⟩

instance : Lawful Argument where
  ext {a b xs ys} hb hc := by
    obtain ⟨t, ⟨_, _⟩, _⟩ := a
    obtain ⟨u, ⟨_, _⟩, _⟩ := b
    simp_all [coordinates, bare, Range.coordinates]
  bare_shifted _ := rfl
  coordinates_shifted _ := rfl
  relocated_eq {δ a} h := congrArg (Argument.mk a.text · a.isComplete) (Lawful.relocated_eq (a := a.range) h)

namespace Symbol

namespace Kind

def coordinates : Kind → List (Axis × Nat)
  | block _ branches terminator => Located.coordinates branches ++ Located.coordinates terminator
  | call arguments _ => Located.coordinates arguments
  | _ => []

def bare : Kind → Kind
  | block b branches terminator => block b (Located.bare branches) (Located.bare terminator)
  | call arguments isNested => call (Located.bare arguments) isNested
  | k => k

instance : Located Kind :=
  ⟨coordinates, bare, fun δ k => k.shifted (δ .byte), fun δ k => k.relocated (δ .byte)⟩

instance : Lawful Kind where
  ext {a b xs ys} hb hc := by
    cases a <;> cases b <;> try cases hb
    case block.block k branches terminator k' branches' terminator' =>
      obtain ⟨rfl, hbranches, hterminator⟩ := Kind.block.inj hb
      obtain ⟨rfl, rfl, hxs⟩ := Lawful.ext_append hbranches hterminator hc
      exact ⟨rfl, hxs⟩
    case call.call arguments isNested arguments' isNested' =>
      obtain ⟨harguments, rfl⟩ := Kind.call.inj hb
      obtain ⟨rfl, hxs⟩ := Lawful.ext harguments hc
      exact ⟨rfl, hxs⟩
    all_goals exact ⟨rfl, hc⟩
  bare_shifted {δ a} h := by
    cases a with
    | block k branches terminator =>
      obtain ⟨hb, ht⟩ := List.forall_mem_append.mp h
      show block k (Located.bare (Located.shifted δ branches)) (Located.bare (Located.shifted δ terminator)) = _
      rw [Lawful.bare_shifted hb, Lawful.bare_shifted ht]
      rfl
    | call arguments isNested => exact congrArg (call · isNested) (Lawful.bare_shifted h)
    | _ => rfl
  coordinates_shifted {δ a} h := by
    cases a with
    | block k branches terminator =>
      obtain ⟨hb, ht⟩ := List.forall_mem_append.mp h
      show Located.coordinates (Located.shifted δ branches) ++ Located.coordinates (Located.shifted δ terminator) =
        (Located.coordinates branches ++ Located.coordinates terminator).map (along δ)
      rw [List.map_append, Lawful.coordinates_shifted hb, Lawful.coordinates_shifted ht]
    | call arguments isNested =>
      have harguments : Located.Fits δ arguments := h
      have hsame := Lawful.coordinates_shifted harguments
      exact hsame
    | _ => rfl
  relocated_eq {δ a} h := by
    cases a with
    | block k branches terminator =>
      obtain ⟨hb, ht⟩ := List.forall_mem_append.mp h
      show block k (Located.relocated δ branches) (Located.relocated δ terminator) = _
      rw [Lawful.relocated_eq hb, Lawful.relocated_eq ht]
      rfl
    | call arguments isNested => exact congrArg (call · isNested) (Lawful.relocated_eq (a := arguments) h)
    | _ => rfl

end Kind

mutual

/-- The coordinates of a tree: of the symbol, of the parts of its kind, of the lines it runs over, and of all
symbols below it. -/
def coordinates : Symbol → List (Axis × Nat)
  | ⟨_, k, r, cs, _, l⟩ =>
    Located.coordinates r ++ (Located.coordinates k ++ (l.map (Axis.line, ·) ++ coordinatesAll cs))

def coordinatesAll : List Symbol → List (Axis × Nat)
  | [] => []
  | s :: ss => s.coordinates ++ coordinatesAll ss

end

mutual

def bare : Symbol → Symbol
  | ⟨n, k, r, cs, c, l⟩ => ⟨n, Located.bare k, Located.bare r, bareAll cs, c, bareLines l⟩

def bareAll : List Symbol → List Symbol
  | [] => []
  | s :: ss => s.bare :: bareAll ss

end

instance : Located Symbol :=
  ⟨coordinates, bare, fun δ s => s.shifted (δ .byte) (δ .line), fun δ s => s.relocated (δ .byte) (δ .line)⟩

/-- The coordinates of a symbol without those of the symbols below it. -/
def ownCoordinates (s : Symbol) : List (Axis × Nat) :=
  Located.coordinates s.range ++ (Located.coordinates s.kind ++ s.continuation.map (Axis.line, ·))

mutual

theorem coordinates_eq : ∀ s : Symbol, s.coordinates = s.walk.flatMap ownCoordinates
  | ⟨n, k, r, cs, c, l⟩ => by
    rw [coordinates, walk, List.flatMap_cons, coordinatesAll_eq cs, ownCoordinates, List.append_assoc, List.append_assoc]

/-- All symbols of the trees count, each with its own coordinates. -/
theorem coordinatesAll_eq : ∀ ss : List Symbol, coordinatesAll ss = (walkAll ss).flatMap ownCoordinates
  | [] => by
    rw [coordinatesAll, walkAll]
    rfl
  | s :: ss => by rw [coordinatesAll, walkAll, List.flatMap_append, coordinates_eq s, coordinatesAll_eq ss]

end

theorem coordinates_list (ss : List Symbol) : Located.coordinates ss = (walkAll ss).flatMap ownCoordinates := by
  rw [← coordinatesAll_eq]
  induction ss with
  | nil => exact (coordinatesAll.eq_1).symm
  | cons s ss ih =>
    rw [coordinatesAll, ← ih]
    rfl

variable {δ : Shift}

theorem forall_coordinates_symbol {P : Axis × Nat → Prop} {n : String} {k : Kind} {r : Range} {cs : List Symbol}
    {c : Bool} {l : List Nat} : (∀ x ∈ coordinates ⟨n, k, r, cs, c, l⟩, P x) ↔ (∀ x ∈ Located.coordinates r, P x) ∧
      (∀ x ∈ Located.coordinates k, P x) ∧ (∀ m ∈ l, P (.line, m)) ∧ ∀ x ∈ coordinatesAll cs, P x := by
  rw [coordinates, List.forall_mem_append, List.forall_mem_append, List.forall_mem_append, List.forall_mem_map]

theorem fits_symbol {n : String} {k : Kind} {r : Range} {cs : List Symbol} {c : Bool} {l : List Nat} :
    Fits δ (⟨n, k, r, cs, c, l⟩ : Symbol) ↔ Fits δ r ∧ Fits δ k ∧ (∀ m ∈ l, 0 ≤ (m : Int) + δ .line) ∧
      ∀ x ∈ coordinatesAll cs, 0 ≤ (x.2 : Int) + δ x.1 :=
  forall_coordinates_symbol

mutual

theorem coordinates_ext : ∀ (a b : Symbol) {xs ys : List (Axis × Nat)}, a.bare = b.bare →
    a.coordinates ++ xs = b.coordinates ++ ys → a = b ∧ xs = ys
  | ⟨n, k, r, cs, c, l⟩, ⟨n', k', r', cs', c', l'⟩, xs, ys, hb, hc => by
    rw [bare, bare] at hb
    obtain ⟨rfl, hk, hr, hcs, rfl, hl⟩ := Symbol.mk.inj hb
    simp only [coordinates, List.append_assoc] at hc
    obtain ⟨rfl, hc₁⟩ := Lawful.ext hr hc
    obtain ⟨rfl, hc₂⟩ := Lawful.ext hk hc₁
    obtain ⟨rfl, hc₃⟩ := lines_ext hl hc₂
    obtain ⟨rfl, hxs⟩ := coordinatesAll_ext cs cs' hcs hc₃
    exact ⟨rfl, hxs⟩

theorem coordinatesAll_ext : ∀ (as bs : List Symbol) {xs ys : List (Axis × Nat)}, bareAll as = bareAll bs →
    coordinatesAll as ++ xs = coordinatesAll bs ++ ys → as = bs ∧ xs = ys
  | [], [], _, _, _, hc => by
    simp only [coordinatesAll, List.nil_append] at hc
    exact ⟨rfl, hc⟩
  | [], _ :: _, _, _, hb, _ => by
    rw [bareAll, bareAll] at hb
    cases hb
  | _ :: _, [], _, _, hb, _ => by
    rw [bareAll, bareAll] at hb
    cases hb
  | a :: as, b :: bs, xs, ys, hb, hc => by
    rw [bareAll, bareAll] at hb
    obtain ⟨ha, has⟩ := List.cons.inj hb
    simp only [coordinatesAll, List.append_assoc] at hc
    obtain ⟨rfl, hrest⟩ := coordinates_ext a b ha hc
    obtain ⟨rfl, hxs⟩ := coordinatesAll_ext as bs has hrest
    exact ⟨rfl, hxs⟩

end

mutual

theorem bare_shifted : ∀ s : Symbol, Fits δ s → (s.shifted (δ .byte) (δ .line)).bare = s.bare
  | ⟨n, k, r, cs, c, l⟩, h => by
    obtain ⟨hr, hk, hl, hcs⟩ := fits_symbol.mp h
    rw [shifted, bare, bare, (lines_moved hl).1, bareAll_shifted cs hcs]
    exact congrArg (Symbol.mk n · _ _ _ _) (Lawful.bare_shifted hk)

theorem bareAll_shifted : ∀ ss : List Symbol, (∀ x ∈ coordinatesAll ss, 0 ≤ (x.2 : Int) + δ x.1) →
    bareAll (shiftedAll (δ .byte) (δ .line) ss) = bareAll ss
  | [], _ => by rw [shiftedAll]
  | s :: ss, h => by
    rw [coordinatesAll] at h
    obtain ⟨hs, hss⟩ := List.forall_mem_append.mp h
    rw [shiftedAll, bareAll, bareAll, bare_shifted s hs, bareAll_shifted ss hss]

end

mutual

theorem coordinates_shifted : ∀ s : Symbol, Fits δ s →
    (s.shifted (δ .byte) (δ .line)).coordinates = s.coordinates.map (along δ)
  | ⟨n, k, r, cs, c, l⟩, h => by
    obtain ⟨hr, hk, hl, hcs⟩ := fits_symbol.mp h
    have hr' : Located.coordinates (r.shifted (δ .byte)) = _ := Lawful.coordinates_shifted hr
    have hk' : Located.coordinates (k.shifted (δ .byte)) = _ := Lawful.coordinates_shifted hk
    rw [shifted, coordinates, coordinates, hr', hk', (lines_moved hl).2, coordinatesAll_shifted cs hcs,
      List.map_append, List.map_append, List.map_append]

theorem coordinatesAll_shifted : ∀ ss : List Symbol, (∀ x ∈ coordinatesAll ss, 0 ≤ (x.2 : Int) + δ x.1) →
    coordinatesAll (shiftedAll (δ .byte) (δ .line) ss) = (coordinatesAll ss).map (along δ)
  | [], _ => by
    rw [shiftedAll, coordinatesAll]
    rfl
  | s :: ss, h => by
    rw [coordinatesAll] at h
    obtain ⟨hs, hss⟩ := List.forall_mem_append.mp h
    rw [shiftedAll, coordinatesAll, coordinatesAll, coordinates_shifted s hs, coordinatesAll_shifted ss hss,
      List.map_append]

end

mutual

theorem relocated_eq : ∀ s : Symbol, Keeps δ s → s.relocated (δ .byte) (δ .line) = s.shifted (δ .byte) (δ .line)
  | ⟨n, k, r, cs, c, l⟩, h => by
    obtain ⟨hr, hk, hl, hcs⟩ := forall_coordinates_symbol.mp h
    have hr' : r.relocated (δ .byte) = r.shifted (δ .byte) := Lawful.relocated_eq hr
    have hk' : k.relocated (δ .byte) = k.shifted (δ .byte) := Lawful.relocated_eq hk
    rw [relocated, shifted, hr', hk', relocatedLines_eq fun m hm => (hl m hm).2.2 (.inr rfl), relocatedAll_eq cs hcs]

theorem relocatedAll_eq : ∀ ss : List Symbol, (∀ x ∈ coordinatesAll ss, x.1.Holds x.2 ∧ x.1.Holds (x.2 + δ x.1)) →
    relocatedAll (δ .byte) (δ .line) ss = shiftedAll (δ .byte) (δ .line) ss
  | [], _ => by rw [relocatedAll, shiftedAll]
  | s :: ss, h => by
    rw [coordinatesAll] at h
    obtain ⟨hs, hss⟩ := List.forall_mem_append.mp h
    rw [relocatedAll, shiftedAll, relocated_eq s hs, relocatedAll_eq ss hss]

end

instance : Lawful Symbol :=
  ⟨coordinates_ext _ _, bare_shifted _, coordinates_shifted _, relocated_eq _⟩

end Symbol

theorem moved_le_moved {m n : Nat} {d : Int} (hm : 0 ≤ (m : Int) + d) (hn : 0 ≤ (n : Int) + d) :
    moved m d ≤ moved n d ↔ m ≤ n := by
  simp only [moved]
  omega

/-- The same failure to nest, so many bytes further on. -/
def Disorder.shifted (delta : Int) : Disorder → Disorder
  | escapes child r parent q => escapes child (r.shifted delta) parent (q.shifted delta)
  | overlaps child r parent => overlaps child (r.shifted delta) parent
  | d => d

namespace Range

variable {δ : Shift} {r q : Range}

theorem fits_iff : Fits δ r ↔ 0 ≤ (r.start : Int) + δ .byte ∧ 0 ≤ (r.stop : Int) + δ .byte := by
  simp [Fits, Located.coordinates, coordinates]

theorem contains_shifted (hq : Fits δ q) (hr : Fits δ r) :
    (q.shifted (δ .byte)).contains (r.shifted (δ .byte)) = q.contains r := by
  obtain ⟨hq₁, hq₂⟩ := fits_iff.mp hq
  obtain ⟨hr₁, hr₂⟩ := fits_iff.mp hr
  simp only [contains, shifted, moved_le_moved hq₁ hr₁, moved_le_moved hr₂ hq₂]

end Range

namespace Symbol

variable {δ : Shift}

theorem range_shifted (delta lines : Int) (s : Symbol) : (s.shifted delta lines).range = s.range.shifted delta := by
  cases s
  rw [shifted]

theorem name_shifted (delta lines : Int) (s : Symbol) : (s.shifted delta lines).name = s.name := by
  cases s
  rw [shifted]

theorem fits_range {s : Symbol} (h : Fits δ s) : Fits δ s.range := by
  cases s
  exact (fits_symbol.mp h).1

mutual

/-- A moved tree fails to nest where the tree does, or not at all. -/
theorem disorder?_shifted : ∀ s : Symbol, Fits δ s →
    (s.shifted (δ .byte) (δ .line)).disorder? = s.disorder?.map (Disorder.shifted (δ .byte))
  | ⟨n, k, r, cs, c, l⟩, h => by
    obtain ⟨hr, -, -, hcs⟩ := fits_symbol.mp h
    rw [shifted, disorder?, disorder?]
    exact disorderAll?_shifted n r hr cs none (by simp) hcs

theorem disorderAll?_shifted (parent : String) (within : Range) (hw : Fits δ within) :
    ∀ (ss : List Symbol) (previousStop : Option Nat), (∀ p ∈ previousStop, 0 ≤ (p : Int) + δ .byte) →
    (∀ x ∈ coordinatesAll ss, 0 ≤ (x.2 : Int) + δ x.1) →
    disorderAll? parent (within.shifted (δ .byte)) (previousStop.map (moved · (δ .byte)))
        (shiftedAll (δ .byte) (δ .line) ss) =
      (disorderAll? parent within previousStop ss).map (Disorder.shifted (δ .byte))
  | [], _, _, _ => by
    rw [shiftedAll, disorderAll?, disorderAll?]
    rfl
  | s :: ss, previousStop, hp, h => by
    rw [coordinatesAll] at h
    obtain ⟨hs, hss⟩ := List.forall_mem_append.mp h
    have hr := fits_range hs
    obtain ⟨hstart, hstop⟩ := Range.fits_iff.mp hr
    have hbehind : (previousStop.map (moved · (δ .byte))).any ((s.range.shifted (δ .byte)).start < ·) =
        previousStop.any (s.range.start < ·) := by
      cases previousStop with
      | none => rfl
      | some p =>
        have hle := moved_le_moved (hp p rfl) hstart
        exact decide_eq_decide.mpr (by rw [← Nat.not_le, ← Nat.not_le]; exact not_congr hle)
    have hrest := disorderAll?_shifted parent within hw ss (some s.range.stop) (by simpa using hstop) hss
    rw [Option.map_some] at hrest
    rw [shiftedAll, disorderAll?, disorderAll?, range_shifted, name_shifted, Range.contains_shifted hw hr,
      hbehind, disorder?_shifted s hs]
    split
    · rfl
    · split
      · rfl
      · show ((s.disorder?.map _).or (disorderAll? _ _ (some (moved s.range.stop (δ .byte))) _)) = _
        rw [hrest]
        cases s.disorder? <;> rfl

end

end Symbol

instance : Located Related :=
  ⟨fun r => coordinates r.range, fun r => ⟨r.message, bare r.range⟩,
    fun δ r => { r with range := r.range.shifted (δ .byte) }, fun δ r => { r with range := r.range.relocated (δ .byte) }⟩

instance : Lawful Related where
  ext {a b xs ys} hb hc := by
    obtain ⟨m, ⟨_, _⟩⟩ := a
    obtain ⟨n, ⟨_, _⟩⟩ := b
    simp_all [coordinates, bare, Range.coordinates]
  bare_shifted _ := rfl
  coordinates_shifted _ := rfl
  relocated_eq {δ a} h := congrArg (Related.mk a.message) (Lawful.relocated_eq (a := a.range) h)

instance : Located Diagnostic :=
  ⟨fun d => coordinates d.range ++ coordinates d.related,
    fun d => { d with range := bare d.range, related := bare d.related }, fun δ d => d.shifted (δ .byte),
    fun δ d => d.relocated (δ .byte)⟩

instance : Lawful Diagnostic where
  ext {a b xs ys} hb hc := by
    obtain ⟨code, severity, range, message, remedy, related⟩ := a
    obtain ⟨code', severity', range', message', remedy', related'⟩ := b
    obtain ⟨rfl, rfl, hrange, rfl, rfl, hrelated⟩ := Diagnostic.mk.inj hb
    obtain ⟨rfl, rfl, hxs⟩ := Lawful.ext_append hrange hrelated hc
    exact ⟨rfl, hxs⟩
  bare_shifted {δ a} h := by
    obtain ⟨hrange, hrelated⟩ := List.forall_mem_append.mp h
    have hsame := Lawful.bare_shifted hrelated
    exact congrArg (Diagnostic.mk a.code a.severity _ a.message a.remedy) hsame
  coordinates_shifted {δ a} h := by
    obtain ⟨hrange, hrelated⟩ := List.forall_mem_append.mp h
    show coordinates (shifted δ a.range) ++ coordinates (shifted δ a.related) =
      (coordinates a.range ++ coordinates a.related).map (along δ)
    rw [List.map_append, Lawful.coordinates_shifted hrange, Lawful.coordinates_shifted hrelated]
  relocated_eq {δ a} h := by
    obtain ⟨hrange, hrelated⟩ := List.forall_mem_append.mp h
    show Diagnostic.mk a.code a.severity (relocated δ a.range) a.message a.remedy (relocated δ a.related) = _
    rw [Lawful.relocated_eq hrange, Lawful.relocated_eq hrelated]
    rfl

/-- The coordinates of a segment: its lines, its range, and where its symbols and faults stand in the document. -/
instance : Located Segment :=
  ⟨fun s => (.line, s.firstLine) :: (.line, s.lastLine) ::
      (s.range.coordinates .byte ++ (s.symbols.coordinates .symbol ++ s.faults.coordinates .fault)),
    fun s => ⟨0, 0, .empty 0, .empty 0, .empty 0, s.statements, s.tally⟩,
    fun δ s => s.shifted (δ .byte) (δ .line) (δ .symbol) (δ .fault),
    fun δ s => s.relocated (δ .byte) (δ .line) (δ .symbol) (δ .fault)⟩

instance : Lawful Segment where
  ext {a b xs ys} hb hc := by
    obtain ⟨_, _, ⟨_, _⟩, ⟨_, _⟩, ⟨_, _⟩, _, _⟩ := a
    obtain ⟨_, _, ⟨_, _⟩, ⟨_, _⟩, ⟨_, _⟩, _, _⟩ := b
    simp_all [coordinates, bare, Range.coordinates]
  bare_shifted _ := rfl
  coordinates_shifted _ := rfl
  relocated_eq {δ a} h := by
    obtain ⟨hfirst, h⟩ := List.forall_mem_cons.mp h
    obtain ⟨hlast, h⟩ := List.forall_mem_cons.mp h
    have hrange : a.range.relocated (δ .byte) = a.range.shifted (δ .byte) :=
      Lawful.relocated_eq (List.forall_mem_append.mp h).1
    show a.relocated _ _ _ _ = a.shifted _ _ _ _
    rw [Segment.relocated, Segment.shifted, relocate_eq (hfirst.2.2 (.inr rfl)), relocate_eq (hlast.2.2 (.inr rfl)),
      hrange]
    rfl

instance : Located Reading :=
  ⟨fun r => coordinates r.symbols ++ (coordinates r.faults ++ coordinates r.segments),
    fun r => ⟨bare r.symbols, bare r.faults, bare r.segments⟩,
    fun δ r => ⟨shifted δ r.symbols, shifted δ r.faults, shifted δ r.segments⟩,
    fun δ r => ⟨relocated δ r.symbols, relocated δ r.faults, relocated δ r.segments⟩⟩

instance : Lawful Reading where
  ext {a b xs ys} hb hc := by
    obtain ⟨symbols, faults, segments⟩ := a
    obtain ⟨symbols', faults', segments'⟩ := b
    obtain ⟨hsymbols, hfaults, hsegments⟩ := Reading.mk.inj hb
    have hc' : coordinates symbols ++ (coordinates faults ++ (coordinates segments ++ xs)) =
        coordinates symbols' ++ (coordinates faults' ++ (coordinates segments' ++ ys)) := by
      rw [← List.append_assoc (coordinates faults), ← List.append_assoc, ← List.append_assoc (coordinates faults'),
        ← List.append_assoc (coordinates symbols')]
      exact hc
    obtain ⟨rfl, hc₁⟩ := Lawful.ext hsymbols hc'
    obtain ⟨rfl, hc₂⟩ := Lawful.ext hfaults hc₁
    obtain ⟨rfl, hxs⟩ := Lawful.ext hsegments hc₂
    exact ⟨rfl, hxs⟩
  bare_shifted {δ a} h := by
    obtain ⟨hsymbols, h⟩ := List.forall_mem_append.mp h
    obtain ⟨hfaults, hsegments⟩ := List.forall_mem_append.mp h
    show Reading.mk (bare (shifted δ a.symbols)) (bare (shifted δ a.faults)) (bare (shifted δ a.segments)) = _
    rw [Lawful.bare_shifted hsymbols, Lawful.bare_shifted hfaults, Lawful.bare_shifted hsegments]
    rfl
  coordinates_shifted {δ a} h := by
    obtain ⟨hsymbols, h⟩ := List.forall_mem_append.mp h
    obtain ⟨hfaults, hsegments⟩ := List.forall_mem_append.mp h
    show coordinates (shifted δ a.symbols) ++ (coordinates (shifted δ a.faults) ++ coordinates (shifted δ a.segments)) =
      (coordinates a.symbols ++ (coordinates a.faults ++ coordinates a.segments)).map (along δ)
    rw [List.map_append, List.map_append, Lawful.coordinates_shifted hsymbols, Lawful.coordinates_shifted hfaults,
      Lawful.coordinates_shifted hsegments]
  relocated_eq {δ a} h := by
    obtain ⟨hsymbols, h⟩ := List.forall_mem_append.mp h
    obtain ⟨hfaults, hsegments⟩ := List.forall_mem_append.mp h
    show Reading.mk (relocated δ a.symbols) (relocated δ a.faults) (relocated δ a.segments) = _
    rw [Lawful.relocated_eq hsymbols, Lawful.relocated_eq hfaults, Lawful.relocated_eq hsegments]
    rfl

namespace Located

variable {α : Type} [Located α] [Lawful α] {δ ε : Shift} {a b : α}

/-- What has the same coordinates and is the same apart from them is the same. -/
theorem eq_of_bare (hb : bare a = bare b) (hc : coordinates a = coordinates b) : a = b := by
  have hc' : coordinates a ++ [] = coordinates b ++ [] := by rw [hc]
  exact (Lawful.ext hb hc').1

theorem fits_shifted (hδ : Fits δ a) : Fits ε (shifted δ a) ↔ Fits (fun i => δ i + ε i) a := by
  unfold Fits
  rw [Lawful.coordinates_shifted hδ, List.forall_mem_map]
  refine forall₂_congr fun x hx => ?_
  have := hδ x hx
  simp only [along, moved]
  omega

theorem fits_back (hδ : Fits δ a) : Fits (fun i => -δ i) (shifted δ a) := by
  refine (fits_shifted hδ).mpr fun x _ => ?_
  dsimp only
  omega

/-- A move can be taken back. -/
theorem shifted_back (hδ : Fits δ a) : shifted (fun i => -δ i) (shifted δ a) = a := by
  refine eq_of_bare ?_ ?_
  · rw [Lawful.bare_shifted (fits_back hδ), Lawful.bare_shifted hδ]
  · rw [Lawful.coordinates_shifted (fits_back hδ), Lawful.coordinates_shifted hδ, List.map_map]
    refine (List.map_congr_left fun x hx => ?_).trans (List.map_id' _)
    have := hδ x hx
    simp only [Function.comp_apply, along, moved]
    refine Prod.ext rfl ?_
    dsimp only
    omega

/-- Moves of what stands somewhere, which change its coordinates only and each by as much as is asked where `P` holds:
nothing but coordinates and the rest is there to be changed, moves in a row add up, and a move can be taken back. -/
structure Exact {α : Type} [Located α] (P : Shift → α → Prop) (move : Shift → α → α) : Prop where
  coordinates {δ : Shift} {a : α} (h : P δ a) : (coordinates (move δ a)).map (fun x => (x.1, (x.2 : Int))) =
    (coordinates a).map fun x => (x.1, (x.2 : Int) + δ x.1)
  bare {δ : Shift} {a : α} (h : P δ a) : bare (move δ a) = bare a
  determined {a b : α} (hb : Located.bare a = Located.bare b) (hc : Located.coordinates a = Located.coordinates b) :
    a = b
  adds {δ ε : Shift} {a : α} (hδ : P δ a) (hε : P ε (move δ a)) : move ε (move δ a) = move (fun i => δ i + ε i) a
  back {δ : Shift} {a : α} (h : P δ a) : move (fun i => -δ i) (move δ a) = a

instance (δ : Shift) (a : α) : Decidable (Fits δ a) :=
  inferInstanceAs (Decidable (∀ x ∈ coordinates a, 0 ≤ (x.2 : Int) + δ x.1))

instance (δ : Shift) (a : α) : Decidable (Keeps δ a) :=
  inferInstanceAs (Decidable (∀ x ∈ coordinates a, x.1.Holds x.2 ∧ x.1.Holds (x.2 + δ x.1)))

end Located

end Calculation
