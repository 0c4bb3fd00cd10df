import Calculation.Proofs.Document.Items
import Calculation.Proofs.Document.Lines
import Calculation.Proofs.Document.Pieces

namespace Calculation

namespace Tally

/-- No more was recovered from than was met; what waits to be recovered from counts as met. -/
def Bounded (t : Tally) : Prop :=
  t.recovered + t.pending ≤ t.total

theorem Bounded.followedBy {a b : Tally} (ha : a.Bounded) (hb : b.Bounded) : (a.followedBy b).Bounded := by
  unfold Bounded Tally.followedBy at *
  dsimp only
  split <;> omega

theorem ofEvent_bounded (e : Event) : (ofEvent e).Bounded := by
  cases e with
  | valid => exact Nat.le_refl _
  | fault d =>
    simp only [ofEvent]
    split
    · exact Nat.le_refl _
    · exact Nat.le_refl _

theorem foldl_bounded {ts : List Tally} {a : Tally} (ha : a.Bounded) (h : ∀ t ∈ ts, t.Bounded) :
    (ts.foldl followedBy a).Bounded := by
  induction ts generalizing a with
  | nil => exact ha
  | cons t ts ih => exact ih (ha.followedBy (h t (by simp))) fun u hu => h u (List.mem_cons_of_mem t hu)

theorem ofEvents_bounded (es : List Event) : (ofEvents es).Bounded := by
  have hfold : ofEvents es = (es.map ofEvent).foldl followedBy zero := by
    rw [ofEvents, List.foldl_map]
  rw [hfold]
  refine foldl_bounded (Nat.le_refl _) fun t ht => ?_
  obtain ⟨e, -, rfl⟩ := List.mem_map.mp ht
  exact ofEvent_bounded e

end Tally

namespace Run

variable {edge : Nat → Prop} {lines : LineTable} {lo hi : Nat}

/-- A run that is sound as an item and knows its lines. -/
structure Sound (edge : Nat → Prop) (lines : LineTable) (r : Run) : Prop where
  item : r.item.Sound edge
  lines : lines.linesOf r.item.range = (r.firstLine, r.lastLine)

theorem ofItem_sound {i : Item} (h : i.Sound edge) : (ofItem lines i).Sound edge lines :=
  ⟨h, rfl⟩

theorem cover_of_le {a b : Range} (ha : a.start < a.stop) (hb : b.start < b.stop) (h : a.stop ≤ b.start) :
    a.cover b = ⟨a.start, b.stop⟩ := by
  rw [Range.cover, Nat.min_eq_left (by omega), Nat.max_eq_right (by omega)]

theorem Sound.join {a b : Run} (ha : a.Sound edge lines) (hb : b.Sound edge lines)
    (h : a.item.range.stop ≤ b.item.range.start) : (a.join b).Sound edge lines := by
  have hpa := ha.item.proper
  have hpb := hb.item.proper
  have hcover := cover_of_le hpa hpb h
  have hstop : a.item.range.stop ≤ b.item.range.stop := by omega
  have hstart : a.item.range.start ≤ b.item.range.start := by omega
  refine ⟨?_, ?_⟩
  · unfold Run.join
    dsimp only
    rw [hcover]
    refine ⟨Nat.lt_of_lt_of_le hpa hstop, ⟨ha.item.edges.1, hb.item.edges.2⟩, ?_, ?_⟩
    · have hmid := hb.item.symbols.mono h (Nat.le_refl _)
      exact ha.item.symbols.append hmid (Nat.le_of_lt hpa) hstop
    · intro e he
      rcases List.mem_append.mp he with he | he
      · exact (ha.item.events e he).widen (Nat.le_refl _) hstop
      · exact (hb.item.events e he).widen hstart (Nat.le_refl _)
  · have hla := ha.lines
    have hlb := hb.lines
    have hmono := (lines.linesOf_mono hpa hpb h).2
    rw [hla, hlb] at hmono
    unfold Run.join
    dsimp only at hmono ⊢
    rw [hcover, Nat.max_eq_right hmono, LineTable.linesOf_proper lines
      (r := ⟨a.item.range.start, b.item.range.stop⟩) (Nat.lt_of_lt_of_le hpa hstop)]
    rw [LineTable.linesOf_proper lines hpa] at hla
    rw [LineTable.linesOf_proper lines hpb] at hlb
    simp only [Prod.mk.injEq] at hla hlb ⊢
    exact ⟨hla.1, hlb.2⟩

/-- Runs that are sound, lie between two offsets and share no lines. -/
structure InOrder (edge : Nat → Prop) (lines : LineTable) (lo hi : Nat) (rs : List Run) : Prop where
  sound : ∀ r ∈ rs, r.Sound edge lines
  bounds : ∀ r ∈ rs, lo ≤ r.item.range.start ∧ r.item.range.stop ≤ hi
  apart : rs.Pairwise fun a b => a.lastLine < b.firstLine

theorem gather_inOrder {before : Run} {rs : List Run} (hb : before.Sound edge lines)
    (hs : ∀ r ∈ rs, r.Sound edge lines) (hlo : lo ≤ before.item.range.start)
    (hhi : before.item.range.stop ≤ hi)
    (hin : Range.InLine before.item.range.stop hi (rs.map (·.item.range))) :
    InOrder edge lines lo hi (gather before rs) ∧
      ∀ r ∈ gather before rs, before.firstLine ≤ r.firstLine := by
  induction rs generalizing before with
  | nil =>
    rw [gather]
    exact ⟨⟨by simpa using hb, by simpa using ⟨hlo, hhi⟩, by simp⟩, by simp⟩
  | cons r rs ih =>
    obtain ⟨h₁, h₂, h₃, h₄⟩ := hin
    obtain ⟨hr, hrs⟩ := List.forall_mem_cons.mp hs
    rw [gather]
    split
    · have hj := hb.join hr h₁
      have hcover := cover_of_le hb.item.proper hr.item.proper h₁
      exact ih hj hrs (by simpa [join, hcover] using hlo) (by simpa [join, hcover] using h₃)
        (by simpa [join, hcover] using h₄)
    · rename_i hline
      have hafter := (LineTable.linesOf_mono lines hb.item.proper hr.item.proper h₁).1
      rw [hb.lines, hr.lines] at hafter
      obtain ⟨hord, hfirst⟩ := ih hr hrs
        (Nat.le_trans hlo (Nat.le_trans (Nat.le_of_lt hb.item.proper) h₁)) h₃ h₄
      refine ⟨⟨List.forall_mem_cons.mpr ⟨hb, hord.sound⟩, List.forall_mem_cons.mpr ⟨⟨hlo, hhi⟩, hord.bounds⟩,
        List.pairwise_cons.mpr ⟨fun x hx => ?_, hord.apart⟩⟩, ?_⟩
      · have := hfirst x hx
        omega
      · intro x hx
        rcases List.mem_cons.mp hx with rfl | hx
        · exact Nat.le_refl _
        · exact Nat.le_trans hafter (hfirst x hx)

theorem ofItems_inOrder (lines : LineTable) {is : List Item} (h : Item.InLine edge lo hi is) :
    InOrder edge lines lo hi (ofItems lines is) := by
  unfold ofItems
  cases is with
  | nil => exact ⟨by simp, by simp, by simp⟩
  | cons i is =>
    have hin := h.ranges
    obtain ⟨hi', his⟩ := List.forall_mem_cons.mp h.sound
    rw [List.map_cons, Range.inLine_cons] at hin
    obtain ⟨h₁, h₂, h₃, h₄⟩ := hin
    refine (gather_inOrder (ofItem_sound hi') ?_ h₁ h₃ ?_).1
    · intro r hr
      obtain ⟨j, hj, rfl⟩ := List.mem_map.mp hr
      exact ofItem_sound (his j hj)
    · rw [List.map_map]
      exact h₄

end Run

namespace Piece

variable {lines : LineTable} {lo hi : Nat}

/-- A piece whose symbols stand in line inside its range, whose faults point inside it, and that knows its
lines. -/
structure Sound (lines : LineTable) (p : Piece) : Prop where
  proper : p.range.start < p.range.stop
  lines : lines.linesOf p.range = (p.firstLine, p.lastLine)
  symbols : Symbol.InLine (fun _ => True) p.range.start p.range.stop p.symbols
  faults : ∀ d ∈ p.faults, d.Within p.range.start p.range.stop
  tally : p.tally.Bounded

theorem Sound.firstLine_eq {p : Piece} (h : p.Sound lines) : p.firstLine = lines.lineOf p.range.start := by
  have hl := h.lines
  rw [LineTable.linesOf_proper lines h.proper, Prod.mk.injEq] at hl
  exact hl.1.symm

theorem Sound.lastLine_eq {p : Piece} (h : p.Sound lines) : p.lastLine = lines.lineOf (p.range.stop - 1) := by
  have hl := h.lines
  rw [LineTable.linesOf_proper lines h.proper, Prod.mk.injEq] at hl
  exact hl.2.symm

theorem Sound.stop_le {p : Piece} {n : Nat} (h : p.Sound lines) (hn : p.lastLine < lines.lineOf n) :
    p.range.stop ≤ n := by
  refine lines.stop_le_of_line_lt h.proper ?_
  rw [h.lines]
  exact hn

theorem Sound.stop_le_start {p q : Piece} (hp : p.Sound lines) (hq : q.Sound lines)
    (h : p.lastLine < q.firstLine) : p.range.stop ≤ q.range.start :=
  hp.stop_le (hq.firstLine_eq ▸ h)

/-- Pieces that are sound, lie between two offsets and share no lines. -/
structure InOrder (lines : LineTable) (lo hi : Nat) (ps : List Piece) : Prop where
  sound : ∀ p ∈ ps, p.Sound lines
  bounds : ∀ p ∈ ps, lo ≤ p.range.start ∧ p.range.stop ≤ hi
  apart : ps.Pairwise fun a b => a.lastLine < b.firstLine

theorem ofRun_sound {edge : Nat → Prop} {r : Run} (h : r.Sound edge lines) : (ofRun r).Sound lines := by
  refine ⟨h.item.proper, h.lines, h.item.symbols.weaken fun _ _ => trivial, ?_, Tally.ofEvents_bounded _⟩
  intro d hd
  have hd' : d ∈ Event.faults r.item.events := (List.mem_mergeSort).mp hd
  obtain ⟨e, he, hed⟩ := List.mem_filterMap.mp hd'
  cases e with
  | valid => cases hed
  | fault d' =>
    cases hed
    exact h.item.events _ he

/-- The pieces of a stretch of a text are in order between its ends. -/
theorem pieces_inOrder (src : Source) {ts : List Token} (h : Item.TokensInLine lo hi ts) :
    InOrder src.lines lo hi (Reading.pieces src ts) := by
  have hr := Run.ofItems_inOrder src.lines (Item.ofTokens_inLine src h)
  refine ⟨?_, ?_, ?_⟩
  · intro p hp
    obtain ⟨r, hmem, rfl⟩ := List.mem_map.mp hp
    exact ofRun_sound (hr.sound r hmem)
  · intro p hp
    obtain ⟨r, hmem, rfl⟩ := List.mem_map.mp hp
    exact hr.bounds r hmem
  · exact List.pairwise_map.mpr hr.apart

theorem ofText_inOrder (options : Options) (cs : List Char) :
    InOrder (LineTable.ofText cs) 0 (Text.bytes cs)
      (Reading.pieces ⟨options, cs, LineTable.ofText cs⟩ (Token.lex 0 cs)) := by
  have h := pieces_inOrder ⟨options, cs, LineTable.ofText cs⟩ (Item.TokensInLine.lex 0 cs)
  rwa [Nat.zero_add] at h

theorem InOrder.inLine {ps : List Piece} (h : InOrder lines lo hi ps) :
    Range.InLine lo hi (ps.map (·.range)) := by
  induction ps generalizing lo with
  | nil => trivial
  | cons p ps ih =>
    obtain ⟨hp, hps⟩ := List.forall_mem_cons.mp h.sound
    obtain ⟨⟨h₁, h₂⟩, hbounds⟩ := List.forall_mem_cons.mp h.bounds
    obtain ⟨hfirst, hapart⟩ := List.pairwise_cons.mp h.apart
    refine ⟨h₁, Nat.le_of_lt hp.proper, h₂, ih ⟨hps, fun q hq => ⟨?_, (hbounds q hq).2⟩, hapart⟩⟩
    exact hp.stop_le_start (hps q hq) (hfirst q hq)

theorem InOrder.sublist {ps qs : List Piece} (h : InOrder lines lo hi qs) (hs : ps.Sublist qs) :
    InOrder lines lo hi ps :=
  ⟨fun p hp => h.sound p (hs.subset hp), fun p hp => h.bounds p (hs.subset hp), h.apart.sublist hs⟩

theorem InOrder.append {as bs : List Piece} (ha : InOrder lines lo hi as) (hb : InOrder lines lo hi bs)
    (h : ∀ a ∈ as, ∀ b ∈ bs, a.lastLine < b.firstLine) : InOrder lines lo hi (as ++ bs) :=
  ⟨fun p hp => (List.mem_append.mp hp).elim (ha.sound p) (hb.sound p),
    fun p hp => (List.mem_append.mp hp).elim (ha.bounds p) (hb.bounds p),
    List.pairwise_append.mpr ⟨ha.apart, hb.apart, h⟩⟩

theorem InOrder.widen {lo' : Nat} {ps : List Piece} (h : InOrder lines lo hi ps) (hl : lo' ≤ lo) :
    InOrder lines lo' hi ps :=
  ⟨h.sound, fun p hp => ⟨Nat.le_trans hl (h.bounds p hp).1, (h.bounds p hp).2⟩, h.apart⟩

/-- The symbols of pieces in order stand in line. -/
theorem InOrder.symbols {ps : List Piece} (h : InOrder lines lo hi ps) :
    Symbol.InLine (fun _ => True) lo hi (ps.flatMap (·.symbols)) :=
  .flatMap h.inLine fun p hp => (h.sound p hp).symbols

theorem InOrder.faults {ps : List Piece} (h : InOrder lines lo hi ps) :
    ∀ d ∈ ps.flatMap (·.faults), d.Within lo hi := by
  intro d hd
  obtain ⟨p, hp, hdp⟩ := List.mem_flatMap.mp hd
  have hw := (h.sound p hp).faults d hdp
  obtain ⟨h₁, h₂⟩ := h.bounds p hp
  exact Event.Within.widen (e := .fault d) hw h₁ h₂

end Piece

end Calculation
