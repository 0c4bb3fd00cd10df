import Calculation.Proofs.Document.Runs
import Calculation.Proofs.Document.Statements

namespace Calculation

/-- A range with something in it that lies between two offsets. -/
structure Range.Between (lo hi : Nat) (r : Range) : Prop where
  start : lo ≤ r.start
  proper : r.start < r.stop
  stop : r.stop ≤ hi

/-- A line starts at the offset: what stands in front of it is on earlier lines. -/
def LineTable.StartsLine (lines : LineTable) (w : Nat) : Prop :=
  ∀ n, n < w → lines.lineOf n < lines.lineOf w

namespace Item

variable {lines : LineTable} {lo w hi : Nat} {comment i : Item} {is js : List Item} {cs ds : List Token} {r : Range}

/-- Statements with the comments put between and into them. -/
def weave (lines : LineTable) (comments : List Token) (statements : List Item) : List Item :=
  (comments.map (ofComment lines)).foldl (fun is comment => attach comment is) statements

@[simp] theorem weave_nil (lines : LineTable) (is : List Item) : weave lines [] is = is := rfl

theorem weave_cons (lines : LineTable) (t : Token) (ts : List Token) (is : List Item) :
    weave lines (t :: ts) is = weave lines ts (attach (ofComment lines t) is) := rfl

@[simp] theorem ofComment_range (lines : LineTable) (t : Token) : (ofComment lines t).range = t.range := by
  unfold ofComment
  dsimp only
  split <;> rfl

/-- The items of a list after a comment has been put there: the comment, and those that were there, which stand where
they stood. -/
theorem mem_attach (h : i ∈ attach comment is) :
    i = comment ∨ ∃ j ∈ is, i.range = j.range ∧ i.isStatement = j.isStatement := by
  induction is with
  | nil =>
    rw [attach] at h
    exact .inl (List.mem_singleton.mp h)
  | cons j js ih =>
    rw [attach] at h
    split at h
    · rcases List.mem_cons.mp h with rfl | h
      · exact .inr ⟨_, List.mem_cons_self, rfl, rfl⟩
      · refine (ih h).imp id ?_
        rintro ⟨x, hx, he⟩
        exact ⟨x, List.mem_cons_of_mem _ hx, he⟩
    · split at h
      · rcases List.mem_cons.mp h with rfl | h
        · exact .inr ⟨j, List.mem_cons_self, rfl, rfl⟩
        · exact .inr ⟨i, List.mem_cons_of_mem _ h, rfl, rfl⟩
      · rcases List.mem_cons.mp h with rfl | h
        · exact .inl rfl
        · exact .inr ⟨i, h, rfl, rfl⟩

theorem range_of_attach (h : i ∈ attach comment is) : i.range = comment.range ∨ ∃ j ∈ is, i.range = j.range := by
  refine (mem_attach h).imp (congrArg Item.range) ?_
  rintro ⟨j, hj, he, -⟩
  exact ⟨j, hj, he⟩

/-- Woven items are comments, or stand where statements do. -/
theorem mem_weave (h : i ∈ weave lines cs is) : (∃ t ∈ cs, i.range = t.range ∧ i.isStatement = false) ∨
    ∃ j ∈ is, i.range = j.range ∧ i.isStatement = j.isStatement := by
  induction cs generalizing is with
  | nil => exact .inr ⟨i, h, rfl, rfl⟩
  | cons t cs ih =>
    rcases ih h with ⟨u, hu, he⟩ | ⟨j, hj, hrange, hkind⟩
    · exact .inl ⟨u, List.mem_cons_of_mem _ hu, he⟩
    · rcases mem_attach hj with rfl | ⟨x, hx, hrange', hkind'⟩
      · refine .inl ⟨t, List.mem_cons_self, hrange.trans (ofComment_range lines t), hkind.trans ?_⟩
        unfold ofComment
        dsimp only
        split <;> rfl
      · exact .inr ⟨x, hx, hrange.trans hrange', hkind.trans hkind'⟩

theorem attach_behind (h : ∀ i ∈ is, i.range.stop ≤ comment.range.start) :
    attach comment (is ++ js) = is ++ attach comment js := by
  induction is with
  | nil => rfl
  | cons i is ih =>
    obtain ⟨hi, his⟩ := List.forall_mem_cons.mp h
    rw [List.cons_append, attach, if_pos hi, ih his, List.cons_append]

theorem attach_before (hc : comment.range.Between lo w) (h : ∀ j ∈ js, j.range.Between w hi) :
    attach comment (is ++ js) = attach comment is ++ js := by
  induction is with
  | nil =>
    cases js with
    | nil => rfl
    | cons j js =>
      obtain ⟨hc₁, hc₂, hc₃⟩ := hc
      obtain ⟨hj₁, hj₂, -⟩ := (List.forall_mem_cons.mp h).1
      have hin : ¬j.range.contains comment.range = true := by
        simp only [Range.contains, Bool.and_eq_true, decide_eq_true_eq]
        omega
      show attach comment (j :: js) = comment :: j :: js
      rw [attach, if_neg (by omega), if_neg hin]
  | cons i is ih =>
    rw [List.cons_append, attach, attach]
    split
    · rw [ih, List.cons_append]
    · split <;> rfl

theorem weave_between (hi : ∀ i ∈ is, i.range.Between lo w) (hc : ∀ t ∈ cs, t.range.Between lo w) :
    ∀ i ∈ weave lines cs is, i.range.Between lo w := by
  induction cs generalizing is with
  | nil => exact hi
  | cons t cs ih =>
    obtain ⟨ht, hcs⟩ := List.forall_mem_cons.mp hc
    refine ih (fun i hmem => ?_) hcs
    rcases range_of_attach hmem with he | ⟨j, hj, he⟩
    · rw [he, ofComment_range]
      exact ht
    · rw [he]
      exact hi j hj

/-- Comments in front of a place are woven into the items in front of it, those behind it into those behind it. -/
theorem weave_append (hi₁ : ∀ i ∈ is, i.range.Between lo w) (hi₂ : ∀ j ∈ js, j.range.Between w hi)
    (hc₁ : ∀ t ∈ cs, t.range.Between lo w) (hc₂ : ∀ t ∈ ds, t.range.Between w hi) :
    weave lines (cs ++ ds) (is ++ js) = weave lines cs is ++ weave lines ds js := by
  induction cs generalizing is with
  | nil =>
    rw [List.nil_append, weave_nil]
    induction ds generalizing js with
    | nil => rfl
    | cons t ds ih =>
      obtain ⟨ht, hds⟩ := List.forall_mem_cons.mp hc₂
      have hfront : ∀ i ∈ is, i.range.stop ≤ (ofComment lines t).range.start := by
        intro i hmem
        rw [ofComment_range]
        exact Nat.le_trans (hi₁ i hmem).stop ht.start
      rw [weave_cons, weave_cons, attach_behind hfront]
      refine ih (fun j hj => ?_) hds
      rcases range_of_attach hj with he | ⟨x, hx, he⟩
      · rw [he, ofComment_range]
        exact ht
      · rw [he]
        exact hi₂ x hx
  | cons t cs ih =>
    obtain ⟨ht, hcs⟩ := List.forall_mem_cons.mp hc₁
    have hcomment : (ofComment lines t).range.Between lo w := by
      rw [ofComment_range]
      exact ht
    rw [List.cons_append, weave_cons, weave_cons, attach_before hcomment hi₂]
    refine ih (fun i hmem => ?_) hcs
    rcases range_of_attach hmem with he | ⟨j, hj, he⟩
    · rw [he]
      exact hcomment
    · rw [he]
      exact hi₁ j hj

/-- Some item holds all of the range. -/
def Cover (is : List Item) (r : Range) : Prop :=
  ∃ i ∈ is, i.range.start ≤ r.start ∧ r.stop ≤ i.range.stop

theorem Cover.of_mem (h : i ∈ is) : Cover is i.range :=
  ⟨i, h, Nat.le_refl _, Nat.le_refl _⟩

theorem Cover.cons (h : Cover is r) (i : Item) : Cover (i :: is) r := by
  obtain ⟨j, hj, hr⟩ := h
  exact ⟨j, List.mem_cons_of_mem i hj, hr⟩

theorem Cover.attach (h : Cover is r) (comment : Item) : Cover (attach comment is) r := by
  induction is with
  | nil => exact h.cons comment
  | cons i is ih =>
    rw [Item.attach]
    split
    · obtain ⟨j, hj, hr⟩ := h
      rcases List.mem_cons.mp hj with rfl | hj
      · exact ⟨_, List.mem_cons_self, hr⟩
      · exact (ih ⟨j, hj, hr⟩).cons i
    · split
      · obtain ⟨j, hj, hr⟩ := h
        rcases List.mem_cons.mp hj with rfl | hj
        · exact ⟨_, List.mem_cons_self, hr⟩
        · exact Cover.cons ⟨j, hj, hr⟩ _
      · exact h.cons comment

theorem cover_attach (comment : Item) (is : List Item) : Cover (attach comment is) comment.range := by
  induction is with
  | nil => exact .of_mem List.mem_cons_self
  | cons i is ih =>
    rw [attach]
    split
    · exact ih.cons i
    · split
      · rename_i hin
        simp only [Range.contains, Bool.and_eq_true, decide_eq_true_eq] at hin
        exact ⟨_, List.mem_cons_self, hin⟩
      · exact .of_mem List.mem_cons_self

theorem Cover.weave (h : Cover is r) (lines : LineTable) (cs : List Token) : Cover (weave lines cs is) r := by
  induction cs generalizing is with
  | nil => exact h
  | cons t cs ih => exact ih (h.attach (ofComment lines t))

theorem cover_weave {t : Token} (h : t ∈ cs) (lines : LineTable) (is : List Item) :
    Cover (weave lines cs is) t.range := by
  induction cs generalizing is with
  | nil => cases h
  | cons u cs ih =>
    rcases List.mem_cons.mp h with rfl | h
    · have hattach := cover_attach (ofComment lines t) is
      rw [ofComment_range] at hattach
      exact hattach.weave lines cs
    · exact ih h _

end Item

namespace Run

variable {lines : LineTable} {x y : Run} {xs ys : List Run} {is js : List Item}

theorem gather_append (h : ∀ a ∈ x :: xs, a.lastLine < y.firstLine) :
    gather x (xs ++ y :: ys) = gather x xs ++ gather y ys := by
  induction xs generalizing x with
  | nil =>
    have hline : ¬y.firstLine ≤ x.lastLine := Nat.not_le_of_lt (h x List.mem_cons_self)
    show gather x (y :: ys) = x :: gather y ys
    rw [gather, if_neg hline]
  | cons z xs ih =>
    obtain ⟨hx, hz, hxs⟩ : x.lastLine < y.firstLine ∧ z.lastLine < y.firstLine ∧
        ∀ a ∈ xs, a.lastLine < y.firstLine := by simpa using h
    rw [List.cons_append, gather, gather]
    split
    · refine ih (List.forall_mem_cons.mpr ⟨?_, hxs⟩)
      exact Nat.max_lt.mpr ⟨hx, hz⟩
    · rw [ih (List.forall_mem_cons.mpr ⟨hz, hxs⟩), List.cons_append]

theorem ofItems_append (h : ∀ i ∈ is, ∀ j ∈ js, (lines.linesOf i.range).2 < (lines.linesOf j.range).1) :
    ofItems lines (is ++ js) = ofItems lines is ++ ofItems lines js := by
  cases is with
  | nil => rfl
  | cons i is =>
    cases js with
    | nil => rw [List.append_nil]; exact (List.append_nil _).symm
    | cons j js =>
      simp only [ofItems, List.map_append, List.map_cons]
      refine gather_append (List.forall_mem_cons.mpr ⟨h i List.mem_cons_self j List.mem_cons_self, fun a ha => ?_⟩)
      obtain ⟨b, hb, rfl⟩ := List.mem_map.mp ha
      exact h b (List.mem_cons_of_mem i hb) j List.mem_cons_self

/-- What joining keeps holds of the runs that are gathered when it held before. -/
theorem gather_rule {P : Run → Prop} (hjoin : ∀ a b, P a → P b → P (a.join b)) (h : ∀ r ∈ x :: xs, P r) :
    ∀ r ∈ gather x xs, P r := by
  induction xs generalizing x with
  | nil => exact h
  | cons y ys ih =>
    obtain ⟨hx, hxs⟩ := List.forall_mem_cons.mp h
    obtain ⟨hy, hys⟩ := List.forall_mem_cons.mp hxs
    rw [gather]
    split
    · exact ih (List.forall_mem_cons.mpr ⟨hjoin x y hx hy, hys⟩)
    · exact List.forall_mem_cons.mpr ⟨hx, ih hxs⟩

theorem ofItems_rule {P : Run → Prop} (hjoin : ∀ a b, P a → P b → P (a.join b)) (h : ∀ i ∈ is, P (ofItem lines i)) :
    ∀ r ∈ ofItems lines is, P r := by
  cases is with
  | nil => exact fun r hr => absurd hr List.not_mem_nil
  | cons i is =>
    refine gather_rule hjoin fun r hr => ?_
    obtain ⟨j, hj, rfl⟩ : ∃ j ∈ i :: is, ofItem lines j = r := List.mem_map.mp hr
    exact h j hj

/-- Joining runs leaves their symbols and the order of them as they are. -/
theorem symbols_gather (x : Run) (xs : List Run) :
    (gather x xs).flatMap (·.item.symbols) = (x :: xs).flatMap (·.item.symbols) := by
  induction xs generalizing x with
  | nil => rfl
  | cons y ys ih =>
    rw [gather]
    split
    · rw [ih]
      simp [join]
    · rw [List.flatMap_cons, ih]
      rfl

theorem symbols_ofItems (lines : LineTable) (is : List Item) :
    (ofItems lines is).flatMap (·.item.symbols) = is.flatMap (·.symbols) := by
  cases is with
  | nil => rfl
  | cons i is =>
    rw [ofItems, List.map_cons, symbols_gather, ← List.map_cons, List.flatMap_map]
    rfl

theorem gather_covers {r : Range} (h : ∃ a ∈ x :: xs, a.item.range.start ≤ r.start ∧ r.stop ≤ a.item.range.stop) :
    ∃ a ∈ gather x xs, a.item.range.start ≤ r.start ∧ r.stop ≤ a.item.range.stop := by
  induction xs generalizing x with
  | nil => exact h
  | cons z xs ih =>
    obtain ⟨a, ha, hr⟩ := h
    rw [gather]
    split
    · apply ih
      rcases List.mem_cons.mp ha with rfl | ha
      · refine ⟨_, List.mem_cons_self, ?_⟩
        simp only [join, Range.cover]
        omega
      · rcases List.mem_cons.mp ha with rfl | ha
        · refine ⟨_, List.mem_cons_self, ?_⟩
          simp only [join, Range.cover]
          omega
        · exact ⟨a, List.mem_cons_of_mem _ ha, hr⟩
    · rcases List.mem_cons.mp ha with rfl | ha
      · exact ⟨_, List.mem_cons_self, hr⟩
      · obtain ⟨b, hb, hr'⟩ := ih ⟨a, ha, hr⟩
        exact ⟨b, List.mem_cons_of_mem x hb, hr'⟩

theorem ofItems_covers {r : Range} (h : Item.Cover is r) :
    ∃ a ∈ ofItems lines is, a.item.range.start ≤ r.start ∧ r.stop ≤ a.item.range.stop := by
  cases is with
  | nil =>
    obtain ⟨i, hi, -⟩ := h
    cases hi
  | cons i is =>
    apply gather_covers
    obtain ⟨j, hj, hr⟩ := h
    exact ⟨ofItem lines j, List.mem_map_of_mem (f := ofItem lines) hj, hr⟩

end Run

namespace Piece

variable {lines : LineTable} {lo w hi : Nat} {is js : List Item} {cs ds : List Token}

/-- The pieces of statements and comments. -/
def ofParts (lines : LineTable) (comments : List Token) (statements : List Item) : List Piece :=
  (Run.ofItems lines (Item.weave lines comments statements)).map ofRun

theorem pieces_eq_ofParts (src : Source) (ts : List Token) :
    Reading.pieces src ts = ofParts src.lines (ts.filter (·.kind.isComment))
      (Statement.readAll src (Lexeme.significant false ts)) := rfl

/-- The symbols of the pieces are those of what was woven. -/
theorem symbols_ofParts (lines : LineTable) (cs : List Token) (is : List Item) :
    (ofParts lines cs is).flatMap (·.symbols) = (Item.weave lines cs is).flatMap (·.symbols) := by
  rw [← Run.symbols_ofItems lines, ofParts, List.flatMap_map]
  rfl

/-- At the start of a line the pieces in front of it and those behind it are made apart. -/
theorem ofParts_append (hw : lines.StartsLine w) (hi₁ : ∀ i ∈ is, i.range.Between lo w)
    (hi₂ : ∀ j ∈ js, j.range.Between w hi) (hc₁ : ∀ t ∈ cs, t.range.Between lo w)
    (hc₂ : ∀ t ∈ ds, t.range.Between w hi) :
    ofParts lines (cs ++ ds) (is ++ js) = ofParts lines cs is ++ ofParts lines ds js := by
  unfold ofParts
  rw [Item.weave_append hi₁ hi₂ hc₁ hc₂, Run.ofItems_append, List.map_append]
  intro i hi j hj
  obtain ⟨-, hproper, hstop⟩ := Item.weave_between hi₁ hc₁ i hi
  obtain ⟨hstart, hproper', -⟩ := Item.weave_between hi₂ hc₂ j hj
  rw [lines.linesOf_proper hproper, lines.linesOf_proper hproper']
  exact Nat.lt_of_lt_of_le (hw _ (by omega)) (lines.lineOf_mono hstart)

/-- Every statement and every comment lies in a piece. -/
theorem ofParts_covers {r : Range} (h : (∃ i ∈ is, i.range = r) ∨ ∃ t ∈ cs, t.range = r) :
    ∃ p ∈ ofParts lines cs is, p.range.start ≤ r.start ∧ r.stop ≤ p.range.stop := by
  have hcover : Item.Cover (Item.weave lines cs is) r := by
    rcases h with ⟨i, hi, rfl⟩ | ⟨t, ht, rfl⟩
    · exact (Item.Cover.of_mem hi).weave lines cs
    · exact Item.cover_weave ht lines is
  obtain ⟨a, ha, hr⟩ := Run.ofItems_covers hcover
  exact ⟨ofRun a, List.mem_map_of_mem ha, hr⟩

end Piece

end Calculation
