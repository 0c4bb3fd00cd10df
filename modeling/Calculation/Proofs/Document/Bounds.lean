import Calculation.Proofs.Document.Shown
import Calculation.Proofs.Document.Statements
import Calculation.Proofs.Edit.Boundary
import Calculation.Proofs.Reading.Leads
import Calculation.Proofs.Tree.Coordinates

namespace Calculation

open Located Calculation.Symbol

/-- A symbol names the lines behind its first one. -/
theorem Cursor.Leads.continued {src : Source} {c d : Cursor} {ss : List Symbol} (h : Leads src c ss d) :
    ∀ s ∈ walkAll ss, s.continuation = src.lines.continuation s.range := by
  have hone : ∀ s : Symbol, (∀ x ∈ walkAll s.children, x.continuation = src.lines.continuation x.range) →
      ∀ c : Cursor, ∀ x ∈ walkAll [(c.finish src s).1], x.continuation = src.lines.continuation x.range := by
    intro s hs c x hx
    rw [walkAll_singleton, walk_eq] at hx
    rcases List.mem_cons.mp hx with rfl | hx
    · rfl
    · exact hs x hx
  induction h with
  | stay | take | fault => simp
  | next _ _ ihcd ihde =>
    rw [walkAll_append]
    exact List.forall_mem_append.mpr ⟨ihcd, ihde⟩
  | inside _ ih => exact ih
  | recording _ ih => exact ih
  | finish _ _ ih => exact hone _ ih _
  | call _ _ _ _ ih => exact hone _ ih _
  | openBlock _ _ _ ih => exact hone _ ih _
  | skipped _ _ _ ih => exact hone _ ih _

theorem Statement.readAll_continued (src : Source) (ls : List Lexeme) :
    ∀ s ∈ walkAll ((readAll src ls).flatMap (·.symbols)), s.continuation = src.lines.continuation s.range := by
  refine readAll_rule (P := fun _ is => ∀ s ∈ walkAll (is.flatMap (·.symbols)),
    s.continuation = src.lines.continuation s.range) (by simp) ?_ ls
  intro l ls is ih
  rw [List.flatMap_cons, walkAll_append]
  exact List.forall_mem_append.mpr ⟨(statement_leads src _).continued, ih⟩

theorem Reading.pieces_continued (src : Source) (ts : List Token) :
    ∀ p ∈ pieces src ts, ∀ s ∈ walkAll p.symbols, s.continuation = src.lines.continuation s.range := by
  intro p hp s hs
  have hshallow : Shallow fun s => s.continuation ≠ src.lines.continuation s.range := fun _ _ => Iff.rfl
  refine Decidable.not_not.mp fun hne => ?_
  rw [Piece.pieces_eq_ofParts] at hp
  rcases (Piece.show_ofParts hshallow).mp ((show_flatMap _ _).mpr ⟨p, hp, s, hs, hne⟩) with
    ⟨t, -, x, hx, hne⟩ | ⟨x, hx, hne⟩
  · rw [Item.ofComment_symbol, walkAll_singleton, walk_eq, walkAll_nil, List.mem_singleton] at hx
    exact hne (hx ▸ rfl)
  · exact hne (Statement.readAll_continued src _ x hx)

theorem LineTable.mem_continuation {t : LineTable} {r : Range} {n : Nat} (h : n ∈ t.continuation r)
    (hr : r.start ≤ r.stop) : t.lineOf r.start < n ∧ n ≤ t.lineOf (r.stop - 1) := by
  unfold continuation at h
  by_cases hproper : r.start < r.stop
  · rw [linesOf_proper t hproper] at h
    obtain ⟨i, hi, rfl⟩ := List.mem_map.mp h
    have hlt := List.mem_range.mp hi
    omega
  · have hempty : r.isEmpty = true := beq_iff_eq.mpr (by omega)
    simp [linesOf, hempty] at h

/-- A text has no more line feeds than bytes. -/
theorem Text.feeds_le_bytes (cs : List Char) : cs.count '\n' ≤ bytes cs := by
  induction cs with
  | nil => exact Nat.le_refl _
  | cons c cs ih =>
    have hc := c.utf8Size_pos
    have hone : [c].count '\n' ≤ 1 := List.count_le_length
    rw [← List.singleton_append, List.count_append, bytes_append, bytes_cons]
    omega

theorem LineTable.lineOf_le_feeds (cs : List Char) (n : Nat) : (ofText cs).lineOf n ≤ cs.count '\n' := by
  rw [lineOf_ofText, ← length_startsAfter 0 cs]
  exact List.countP_le_length

namespace Symbol

mutual

theorem walk_shifted (delta lines : Int) : ∀ s : Symbol,
    (s.shifted delta lines).walk = s.walk.map (·.shifted delta lines)
  | ⟨n, k, r, cs, c, l⟩ => by
    rw [shifted, walk, walk, walkAll_shifted delta lines cs, List.map_cons, shifted]

theorem walkAll_shifted (delta lines : Int) : ∀ ss : List Symbol,
    walkAll (shiftedAll delta lines ss) = (walkAll ss).map (·.shifted delta lines)
  | [] => by rw [shiftedAll, walkAll, List.map_nil]
  | s :: ss => by
    rw [shiftedAll, walkAll, walkAll, List.map_append, walk_shifted delta lines s, walkAll_shifted delta lines ss]

end

end Symbol

namespace Piece

/-- No symbol runs over lines above the piece or below it. -/
def Spans (p : Piece) : Prop :=
  ∀ s ∈ walkAll p.symbols, ∀ n ∈ s.continuation, p.firstLine ≤ n ∧ n ≤ p.lastLine

theorem spans_of_continued {lines : LineTable} {p : Piece} (hp : p.Sound lines)
    (hs : ∀ s ∈ walkAll p.symbols, s.continuation = lines.continuation s.range) : p.Spans := by
  intro s hmem n hn
  rw [hs s hmem] at hn
  obtain ⟨hstart, hproper, hstop⟩ := InLine.walkAll_bounds _ hp.symbols s hmem
  obtain ⟨hlow, hhigh⟩ := LineTable.mem_continuation hn hproper
  have hfirst := lines.lineOf_mono hstart
  have hlast := lines.lineOf_mono (Nat.sub_le_sub_right hstop 1)
  rw [hp.firstLine_eq, hp.lastLine_eq]
  omega

theorem Spans.shifted {p : Piece} (h : p.Spans) (delta lines : Int) : (p.shifted delta lines).Spans := by
  intro s hs m hm
  rw [Piece.shifted, walkAll_shifted] at hs
  obtain ⟨x, hx, rfl⟩ := List.mem_map.mp hs
  have hm' : m ∈ movedLines x.continuation lines := by
    cases x
    rw [Symbol.shifted] at hm
    exact hm
  obtain ⟨n, hn, rfl⟩ := mem_movedLines hm'
  obtain ⟨hlow, hhigh⟩ := h x hx n hn
  exact ⟨moved_mono hlow lines, moved_mono hhigh lines⟩

/-- The pieces of what is read span their symbols. -/
theorem pieces_spans (src : Source) (ts : List Token) {lo hi : Nat} (h : InOrder src.lines lo hi (Reading.pieces src ts)) :
    ∀ p ∈ Reading.pieces src ts, p.Spans := fun p hp =>
  spans_of_continued (h.sound p hp) (Reading.pieces_continued src ts p hp)

end Piece

/-- The ranges that the parts of a symbol have. -/
def Symbol.Kind.ranges : Symbol.Kind → List Range
  | .block _ branches terminator => branches.flatMap (fun b => [b.keyword, b.range]) ++ terminator.toList
  | .call arguments _ => arguments.map (·.range)
  | _ => []

/-- The parts of a symbol lie inside it. -/
theorem Symbol.Kind.bounds_of_fits {k : Symbol.Kind} {r x : Range} (h : k.Fits r) (hx : x ∈ k.ranges) :
    r.start ≤ x.start ∧ x.start ≤ x.stop ∧ x.stop ≤ r.stop := by
  cases k with
  | block block branches terminator =>
    obtain ⟨hin, hproper, hterm⟩ := h
    rcases List.mem_append.mp hx with hx | hx
    · obtain ⟨b, hb, hx⟩ := List.mem_flatMap.mp hx
      obtain ⟨h₁, h₂, h₃⟩ := hin.bounds b.range (List.mem_map_of_mem hb)
      obtain ⟨p₁, p₂, p₃⟩ := hproper b hb
      rcases List.mem_cons.mp hx with rfl | hx
      · exact ⟨by omega, p₂, by omega⟩
      · cases List.mem_singleton.mp hx
        exact ⟨h₁, h₂, h₃⟩
    · obtain ⟨⟨t₁, t₂⟩, t₃, -⟩ := hterm x (Option.mem_toList.mp hx)
      exact ⟨t₁, t₂, Nat.le_of_eq t₃⟩
  | call arguments isNested => exact Range.InLine.bounds h x hx
  | _ => cases hx

/-- A coordinate that counts bytes from `r.start` to `r.stop`, or lines from `first` to `last`. -/
def Within (r : Range) (first last : Nat) (x : Axis × Nat) : Prop :=
  x.1 = .byte ∧ r.start ≤ x.2 ∧ x.2 ≤ r.stop ∨ x.1 = .line ∧ first ≤ x.2 ∧ x.2 ≤ last

theorem Range.within {r q : Range} (h₁ : q.start ≤ r.start) (h₂ : r.start ≤ r.stop) (h₃ : r.stop ≤ q.stop)
    (first last : Nat) : ∀ x ∈ r.coordinates .byte, Within q first last x := by
  simp only [coordinates, List.forall_mem_cons]
  exact ⟨.inl ⟨rfl, h₁, Nat.le_trans h₂ h₃⟩, .inl ⟨rfl, Nat.le_trans h₁ h₂, h₃⟩, by simp⟩

theorem Symbol.Kind.coordinates_eq (k : Kind) : k.coordinates = k.ranges.flatMap (Range.coordinates .byte) := by
  cases k with
  | block block branches terminator =>
    rw [ranges, List.flatMap_append, List.flatMap_assoc]
    rfl
  | call arguments isNested =>
    rw [ranges, List.flatMap_map]
    rfl
  | _ => rfl

theorem Located.forall_coordinates_flatMap {α β : Type} [Located β] {Q : Axis × Nat → Prop} {f : α → List β} {as : List α} :
    (∀ x ∈ coordinates (as.flatMap f), Q x) ↔ ∀ a ∈ as, ∀ x ∈ coordinates (f a), Q x := by
  rw [forall_coordinates_list, List.forall_mem_flatMap]
  exact forall₂_congr fun a _ => forall_coordinates_list.symm

/-- What holds of two numbers on an axis holds between them. -/
def Convex (Q : Axis × Nat → Prop) : Prop :=
  ∀ i {l m n : Nat}, l ≤ m → m ≤ n → Q (i, l) → Q (i, n) → Q (i, m)

theorem convex_keeps (δ : Shift) : Convex fun x => x.1.Holds x.2 ∧ x.1.Holds (x.2 + δ x.1) := by
  rintro i l m n hl hn ⟨-, hlow, -⟩ ⟨⟨-, hhigh⟩, -, hhigh'⟩
  refine ⟨⟨Int.natCast_nonneg m, fun hi => ?_⟩, ?_, fun hi => ?_⟩
  · have := hhigh hi
    dsimp only at this ⊢
    omega
  · dsimp only at hlow ⊢
    omega
  · have := hhigh' hi
    dsimp only at this ⊢
    omega

namespace Piece

variable {lines : LineTable} {p : Piece} {Q : Axis × Nat → Prop}

theorem symbols_within (hp : p.Sound lines) (hs : p.Spans) :
    ∀ x ∈ coordinates p.symbols, Within p.range p.firstLine p.lastLine x := by
  rw [coordinates_list, List.forall_mem_flatMap]
  intro s hmem
  obtain ⟨hstart, hproper, hstop⟩ := InLine.walkAll_bounds _ hp.symbols s hmem
  refine List.forall_mem_append.mpr
    ⟨Range.within hstart hproper hstop _ _, List.forall_mem_append.mpr ⟨?_, ?_⟩⟩
  · show ∀ x ∈ s.kind.coordinates, _
    rw [Kind.coordinates_eq, List.forall_mem_flatMap]
    intro r hr
    obtain ⟨h₁, h₂, h₃⟩ := Kind.bounds_of_fits (hp.symbols.orderly s hmem).kind hr
    exact Range.within (Nat.le_trans hstart h₁) h₂ (Nat.le_trans h₃ hstop) _ _
  · exact List.forall_mem_map.mpr fun n hn => .inr ⟨rfl, hs s hmem n hn⟩

theorem faults_within (hp : p.Sound lines) :
    ∀ x ∈ coordinates p.faults, Within p.range p.firstLine p.lastLine x := by
  refine List.forall_mem_flatMap.mpr fun d hd => ?_
  obtain ⟨⟨h₁, h₂, h₃⟩, hrelated⟩ := hp.faults d hd
  refine List.forall_mem_append.mpr ⟨Range.within h₁ h₂ h₃ _ _, List.forall_mem_flatMap.mpr fun r hr => ?_⟩
  obtain ⟨h₁, h₂, h₃⟩ := hrelated r hr
  exact Range.within h₁ h₂ h₃ _ _

/-- Something holds of the ends of a piece. -/
structure Ends (Q : Axis × Nat → Prop) (p : Piece) : Prop where
  start : Q (.byte, p.range.start)
  stop : Q (.byte, p.range.stop)
  first : Q (.line, p.firstLine)
  last : Q (.line, p.lastLine)

theorem Ends.within (h : p.Ends Q) (hQ : Convex Q) {x : Axis × Nat} (hx : Within p.range p.firstLine p.lastLine x) :
    Q x := by
  obtain ⟨i, n⟩ := x
  rcases hx with ⟨rfl, hlow, hhigh⟩ | ⟨rfl, hlow, hhigh⟩
  · exact hQ .byte hlow hhigh h.start h.stop
  · exact hQ .line hlow hhigh h.first h.last

/-- What holds of the ends of a piece holds of its segment, if it does of the places that this names. -/
theorem Ends.segment (h : p.Ends Q) (hQ : Convex Q) (hp : p.Sound lines) {symbols faults : Nat}
    (hs : ∀ n, symbols ≤ n → Q (.symbol, n)) (hf : ∀ n, faults ≤ n → Q (.fault, n)) :
    ∀ x ∈ coordinates (p.segment symbols faults), Q x := by
  have hbytes := Range.within (Nat.le_refl _) (Nat.le_of_lt hp.proper) (Nat.le_refl _) p.firstLine p.lastLine
  refine List.forall_mem_cons.mpr ⟨h.first, List.forall_mem_cons.mpr ⟨h.last, List.forall_mem_append.mpr
    ⟨fun x hx => h.within hQ (hbytes x hx), ?_⟩⟩⟩
  simp only [Range.coordinates, List.forall_mem_append, List.forall_mem_cons]
  exact ⟨⟨hs _ (Nat.le_refl _), hs _ (Nat.le_add_right _ _), nofun⟩, hf _ (Nat.le_refl _), hf _ (Nat.le_add_right _ _),
    nofun⟩

theorem Ends.segments {ps : List Piece} (hsound : ∀ p ∈ ps, p.Sound lines) (hends : ∀ p ∈ ps, p.Ends Q) (hQ : Convex Q)
    {symbols faults : Nat} (hs : ∀ n, symbols ≤ n → Q (.symbol, n)) (hf : ∀ n, faults ≤ n → Q (.fault, n)) :
    ∀ x ∈ coordinates (segments symbols faults ps), Q x := by
  induction ps generalizing symbols faults with
  | nil => exact nofun
  | cons p ps ih =>
    obtain ⟨hp, hsound⟩ := List.forall_mem_cons.mp hsound
    obtain ⟨hpends, hends⟩ := List.forall_mem_cons.mp hends
    exact List.forall_mem_append.mpr ⟨hpends.segment hQ hp hs hf, ih hsound hends
      (fun n hn => hs n (Nat.le_of_add_right_le hn)) fun n hn => hf n (Nat.le_of_add_right_le hn)⟩

/-- What holds of the ends of pieces holds of all that they hold. -/
theorem Ends.partOf {ps : List Piece} (hsound : ∀ p ∈ ps, p.Sound lines) (hspans : ∀ p ∈ ps, p.Spans)
    (hends : ∀ p ∈ ps, p.Ends Q) (hQ : Convex Q) {symbols faults : Nat} (hs : ∀ n, symbols ≤ n → Q (.symbol, n))
    (hf : ∀ n, faults ≤ n → Q (.fault, n)) : ∀ x ∈ coordinates (Splice.partOf symbols faults ps), Q x := by
  refine List.forall_mem_append.mpr ⟨forall_coordinates_flatMap.mpr fun p hp x hx => ?_, List.forall_mem_append.mpr
    ⟨forall_coordinates_flatMap.mpr fun p hp x hx => ?_, segments hsound hends hQ hs hf⟩⟩
  · exact (hends p hp).within hQ (symbols_within (hsound p hp) (hspans p hp) x hx)
  · exact (hends p hp).within hQ (faults_within (hsound p hp) x hx)

end Piece

end Calculation
