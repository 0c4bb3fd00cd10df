import Calculation.Proofs.Document.Weaving

/-!
What pieces show of the statements and comments they are made of. Weaving and gathering add nothing and lose
nothing: what is met, and a property of symbols whatever stands below them, is shown by the pieces when a statement
or a comment shows it.
-/
namespace Calculation

namespace Symbol

/-- The property does not look below a symbol. -/
def Shallow (P : Symbol → Prop) : Prop :=
  ∀ s children, P { s with children := children } ↔ P s

/-- Some symbol of the trees has the property. -/
def Show (P : Symbol → Prop) (ss : List Symbol) : Prop :=
  ∃ s ∈ walkAll ss, P s

variable {P : Symbol → Prop} {comment : Symbol}

@[simp] theorem show_nil : Show P [] ↔ False := by
  simp [Show]

@[simp] theorem show_append (as bs : List Symbol) : Show P (as ++ bs) ↔ Show P as ∨ Show P bs := by
  simp only [Show, walkAll_append, List.mem_append, or_and_right, exists_or]

theorem show_cons (s : Symbol) (ss : List Symbol) :
    Show P (s :: ss) ↔ P s ∨ Show P s.children ∨ Show P ss := by
  simp only [Show, walkAll_cons, walk_eq, List.cons_append, List.mem_cons, List.mem_append, or_and_right,
    exists_or, exists_eq_left]

theorem show_flatMap {α : Type} (f : α → List Symbol) (as : List α) :
    Show P (as.flatMap f) ↔ ∃ a ∈ as, Show P (f a) := by
  induction as with
  | nil => simp
  | cons a as ih =>
    rw [List.flatMap_cons, show_append, ih]
    simp only [List.mem_cons, or_and_right, exists_or, exists_eq_left]

mutual

theorem show_withComment (hP : Shallow P) (hc : comment.children = []) : ∀ s : Symbol,
    P (withComment comment s) ∨ Show P (withComment comment s).children ↔
      P comment ∨ P s ∨ Show P s.children
  | ⟨n, k, r, cs, c, l⟩ => by
    have hsame : P ⟨n, k, r, insertComment comment cs, c, l⟩ ↔ P ⟨n, k, r, cs, c, l⟩ := hP ⟨n, k, r, cs, c, l⟩ _
    rw [withComment, hsame]
    dsimp only
    rw [show_insertComment hP hc cs, or_left_comm]

/-- A comment among symbols is shown besides them. -/
theorem show_insertComment (hP : Shallow P) (hc : comment.children = []) : ∀ ss : List Symbol,
    Show P (insertComment comment ss) ↔ P comment ∨ Show P ss
  | [] => by
    rw [insertComment, show_cons, hc]
    simp
  | s :: ss => by
    rw [insertComment]
    split
    · rw [show_cons, show_cons, show_insertComment hP hc ss, or_left_comm (a := Show P s.children), or_left_comm]
    · split
      · rw [show_cons, show_cons, ← or_assoc, show_withComment hP hc s, or_assoc, or_assoc]
      · rw [show_cons, hc]
        simp

end

end Symbol

namespace Item

variable {lines : LineTable} {comment : Item} {is : List Item} {cs : List Token} {Q : Item → Prop}

theorem exists_mem_cons {α : Type} {p : α → Prop} (a : α) (as : List α) :
    (∃ x ∈ a :: as, p x) ↔ p a ∨ ∃ x ∈ as, p x := by
  simp only [List.mem_cons, or_and_right, exists_or, exists_eq_left]

/-- A property of items that holds of two put together when it holds of one of them. -/
structure Additive (Q : Item → Prop) : Prop where
  comment : ∀ (i : Item) (lines : LineTable) (t : Token),
    Q (i.withComment (ofComment lines t)) ↔ Q (ofComment lines t) ∨ Q i
  join : ∀ a b : Run, Q (a.join b).item ↔ Q a.item ∨ Q b.item

theorem Additive.exists_attach (hQ : Additive Q) (lines : LineTable) (t : Token) (is : List Item) :
    (∃ i ∈ attach (ofComment lines t) is, Q i) ↔ Q (ofComment lines t) ∨ ∃ i ∈ is, Q i := by
  induction is with
  | nil => simp [attach]
  | cons i is ih =>
    rw [attach]
    split
    · simp only [exists_mem_cons, ih]
      rw [or_left_comm]
    · split
      · simp only [exists_mem_cons, hQ.comment]
        rw [or_assoc]
      · simp only [exists_mem_cons]

theorem Additive.exists_weave (hQ : Additive Q) (lines : LineTable) (cs : List Token) (is : List Item) :
    (∃ i ∈ weave lines cs is, Q i) ↔ (∃ t ∈ cs, Q (ofComment lines t)) ∨ ∃ i ∈ is, Q i := by
  induction cs generalizing is with
  | nil => simp
  | cons t cs ih =>
    rw [weave_cons, ih, hQ.exists_attach]
    simp only [exists_mem_cons]
    rw [or_left_comm, or_assoc]

theorem Additive.exists_gather (hQ : Additive Q) (x : Run) (xs : List Run) :
    (∃ r ∈ Run.gather x xs, Q r.item) ↔ Q x.item ∨ ∃ r ∈ xs, Q r.item := by
  induction xs generalizing x with
  | nil => simp [Run.gather]
  | cons y ys ih =>
    rw [Run.gather]
    split
    · rw [ih, hQ.join]
      simp only [exists_mem_cons]
      rw [or_assoc]
    · simp only [exists_mem_cons, ih]

/-- What the statements or the comments show is what the runs made of them show. -/
theorem Additive.exists_run (hQ : Additive Q) (lines : LineTable) (cs : List Token) (is : List Item) :
    (∃ r ∈ Run.ofItems lines (weave lines cs is), Q r.item) ↔
      (∃ t ∈ cs, Q (ofComment lines t)) ∨ ∃ i ∈ is, Q i := by
  rw [← hQ.exists_weave]
  cases weave lines cs is with
  | nil => simp [Run.ofItems]
  | cons i is =>
    have hmap : (∃ r ∈ is.map (Run.ofItem lines), Q r.item) ↔ ∃ i ∈ is, Q i := by
      constructor
      · rintro ⟨r, hr, hq⟩
        obtain ⟨i, hi, rfl⟩ := List.mem_map.mp hr
        exact ⟨i, hi, hq⟩
      · rintro ⟨i, hi, hq⟩
        exact ⟨_, List.mem_map_of_mem hi, hq⟩
    rw [Run.ofItems, List.map_cons, hQ.exists_gather, exists_mem_cons, hmap]
    rfl

theorem ofComment_symbol (lines : LineTable) (t : Token) : (ofComment lines t).symbols =
    [⟨.ofList (Text.trimEnd t.text.toList), .comment, t.range, [], !t.isOpen, lines.continuation t.range⟩] := by
  unfold ofComment
  dsimp only
  split <;> rfl

theorem ofComment_symbols (lines : LineTable) (t : Token) : ∃ s, (ofComment lines t).symbols = [s] ∧
    s.kind = .comment ∧ s.children = [] :=
  ⟨_, ofComment_symbol lines t, rfl, rfl⟩

theorem ofComment_events (lines : LineTable) (t : Token) :
    ∀ e ∈ (ofComment lines t).events, e = .fault (Cause.openComment.spanning (t.range.opening 2)) := by
  unfold ofComment
  dsimp only
  split
  · simp
  · simp

theorem additive_met (P : Event → Prop) : Additive fun i => ∃ e ∈ i.events, P e := by
  have happend : ∀ as bs : List Event, (∃ e ∈ as ++ bs, P e) ↔ (∃ e ∈ as, P e) ∨ ∃ e ∈ bs, P e := fun as bs => by
    simp only [List.mem_append, or_and_right, exists_or]
  refine ⟨fun i lines t => ?_, fun a b => happend _ _⟩
  rw [withComment, happend, or_comm]

theorem additive_show {P : Symbol → Prop} (hP : Symbol.Shallow P) : Additive fun i => Symbol.Show P i.symbols := by
  refine ⟨fun i lines t => ?_, fun a b => Symbol.show_append _ _⟩
  obtain ⟨s, hs, -, hc⟩ := ofComment_symbols lines t
  rw [withComment, hs, List.foldl_cons, List.foldl_nil, Symbol.show_insertComment hP hc, Symbol.show_cons, hc]
  simp

theorem Additive.or {Q R : Item → Prop} (hQ : Additive Q) (hR : Additive R) : Additive fun i => Q i ∨ R i := by
  refine ⟨fun i lines t => ?_, fun a b => ?_⟩
  · rw [hQ.comment, hR.comment, or_or_or_comm]
  · rw [hQ.join, hR.join, or_or_or_comm]

end Item

/-- What is seen of trees from left to right, where comments are not seen. -/
structure Symbol.Blind {α : Type} (g : List Symbol → List α) : Prop where
  append : ∀ as bs, g (as ++ bs) = g as ++ g bs
  insert : ∀ comment : Symbol, comment.kind = .comment → comment.children = [] →
    ∀ ss, g (insertComment comment ss) = g ss

namespace Symbol.Blind

variable {α : Type} {g : List Symbol → List α} {lines : LineTable} {is : List Item} {cs : List Token}

theorem nil (hg : Blind g) : g [] = [] :=
  List.self_eq_append_left.mp (hg.append [] [])

theorem comment (hg : Blind g) (lines : LineTable) (t : Token) : g (Item.ofComment lines t).symbols = [] := by
  obtain ⟨s, hs, hk, hc⟩ := Item.ofComment_symbols lines t
  have hone : g (insertComment s []) = g [] := hg.insert s hk hc []
  rw [hs, ← hg.nil, ← hone, insertComment]

theorem flatMap {β : Type} (hg : Blind g) (f : β → List Symbol) (bs : List β) :
    g (bs.flatMap f) = bs.flatMap fun b => g (f b) := by
  induction bs with
  | nil => exact hg.nil
  | cons b bs ih => rw [List.flatMap_cons, hg.append, ih, List.flatMap_cons]

theorem attach (hg : Blind g) (lines : LineTable) (t : Token) (is : List Item) :
    ((Item.attach (Item.ofComment lines t) is).flatMap fun i => g i.symbols) = is.flatMap fun i => g i.symbols := by
  obtain ⟨s, hs, hk, hc⟩ := Item.ofComment_symbols lines t
  induction is with
  | nil => simp [Item.attach, hg.comment]
  | cons i is ih =>
    rw [Item.attach]
    split
    · rw [List.flatMap_cons, List.flatMap_cons, ih]
    · split
      · rw [List.flatMap_cons, List.flatMap_cons, Item.withComment, hs]
        simp only [List.foldl_cons, List.foldl_nil, hg.insert s hk hc]
      · rw [List.flatMap_cons, hg.comment, List.nil_append]

theorem weave (hg : Blind g) (lines : LineTable) (cs : List Token) (is : List Item) :
    ((Item.weave lines cs is).flatMap fun i => g i.symbols) = is.flatMap fun i => g i.symbols := by
  induction cs generalizing is with
  | nil => rfl
  | cons t cs ih => rw [Item.weave_cons, ih, hg.attach]

/-- The pieces made of statements and comments show what the statements show, in the same order. -/
theorem ofParts (hg : Blind g) (lines : LineTable) (cs : List Token) (is : List Item) :
    g ((Piece.ofParts lines cs is).flatMap (·.symbols)) = g (is.flatMap (·.symbols)) := by
  rw [Piece.symbols_ofParts, hg.flatMap, hg.flatMap, hg.weave lines cs is]

end Symbol.Blind

/-- A view of symbols one by one: it does not look below a symbol, and comments show nothing in it. -/
structure Symbol.View {α : Type} (f : Symbol → List α) : Prop where
  shallow : ∀ s children, f { s with children := children } = f s
  comment : ∀ s : Symbol, s.kind = .comment → f s = []

namespace Symbol.View

variable {α : Type} {f : Symbol → List α} {comment : Symbol}

theorem flatMap_cons (f : Symbol → List α) (s : Symbol) (ss : List Symbol) :
    (walkAll (s :: ss)).flatMap f = f s ++ (walkAll s.children).flatMap f ++ (walkAll ss).flatMap f := by
  rw [walkAll_cons, walk_eq, List.flatMap_append, List.flatMap_cons]

mutual

theorem withComment (hf : View f) (hk : comment.kind = .comment) (hc : comment.children = []) : ∀ s : Symbol,
    f (withComment comment s) ++ (walkAll (withComment comment s).children).flatMap f =
      f s ++ (walkAll s.children).flatMap f
  | ⟨n, k, r, cs, c, l⟩ => by
    have hsame : f ⟨n, k, r, Symbol.insertComment comment cs, c, l⟩ = f ⟨n, k, r, cs, c, l⟩ :=
      hf.shallow ⟨n, k, r, cs, c, l⟩ _
    rw [Symbol.withComment, hsame]
    exact congrArg _ (insertComment hf hk hc cs)

/-- A comment among symbols is not seen. -/
theorem insertComment (hf : View f) (hk : comment.kind = .comment) (hc : comment.children = []) :
    ∀ ss : List Symbol, (walkAll (Symbol.insertComment comment ss)).flatMap f = (walkAll ss).flatMap f
  | [] => by
    rw [Symbol.insertComment, flatMap_cons, hf.comment comment hk, hc]
    simp
  | s :: ss => by
    rw [Symbol.insertComment]
    split
    · rw [flatMap_cons, flatMap_cons, insertComment hf hk hc ss]
    · split
      · rw [flatMap_cons, flatMap_cons, withComment hf hk hc s]
      · rw [flatMap_cons, hf.comment comment hk, hc]
        simp

end

theorem blind (hf : View f) : Blind fun ss => (walkAll ss).flatMap f :=
  ⟨fun as bs => by rw [walkAll_append, List.flatMap_append], fun _ hk hc ss => hf.insertComment hk hc ss⟩

end Symbol.View

namespace Piece

variable {lines : LineTable} {cs : List Token} {is : List Item} {d : Diagnostic}

/-- The faults of the pieces are those of the statements and of the comments. -/
theorem mem_faults_ofParts : d ∈ (ofParts lines cs is).flatMap (·.faults) ↔
    (∃ t ∈ cs, Event.fault d ∈ (Item.ofComment lines t).events) ∨ ∃ i ∈ is, Event.fault d ∈ i.events := by
  have hruns := (Item.additive_met (· = .fault d)).exists_run lines cs is
  simp only [exists_eq_right] at hruns
  rw [← hruns, List.mem_flatMap]
  constructor
  · rintro ⟨p, hp, hd⟩
    obtain ⟨r, hr, rfl⟩ := List.mem_map.mp hp
    obtain ⟨e, he, hed⟩ := List.mem_filterMap.mp (List.mem_mergeSort.mp hd)
    cases e with
    | valid => cases hed
    | fault d' =>
      cases hed
      exact ⟨r, hr, he⟩
  · rintro ⟨r, hr, hd⟩
    exact ⟨_, List.mem_map_of_mem hr, List.mem_mergeSort.mpr (List.mem_filterMap.mpr ⟨_, hd, rfl⟩)⟩

/-- What the pieces show is shown by the statements or by the comments. -/
theorem show_ofParts {P : Symbol → Prop} (hP : Symbol.Shallow P) :
    Symbol.Show P ((ofParts lines cs is).flatMap (·.symbols)) ↔
      (∃ t ∈ cs, Symbol.Show P (Item.ofComment lines t).symbols) ∨ Symbol.Show P (is.flatMap (·.symbols)) := by
  rw [Symbol.show_flatMap, Symbol.show_flatMap, ← (Item.additive_show hP).exists_run]
  constructor
  · rintro ⟨p, hp, hs⟩
    obtain ⟨r, hr, rfl⟩ := List.mem_map.mp hp
    exact ⟨r, hr, hs⟩
  · rintro ⟨r, hr, hs⟩
    exact ⟨_, List.mem_map_of_mem hr, hs⟩

end Piece

end Calculation
