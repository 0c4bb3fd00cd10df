import Calculation.Proofs.Document.Completeness
import Calculation.Proofs.Edit.Bisection
import Calculation.Proofs.Tree.Enclosing

/-!
Where comments land. Each comment is put into the trees once, at the place that the symbols leave for it. No comment is
put into another one, so that it becomes a child of the innermost symbol around it; and wherever the next one goes, the
symbols on every level stand one behind the other, so that its place can be found by halving.
-/
namespace Calculation

/-- Of ranges in line those that stop at an offset or in front of it come first. -/
theorem Range.InLine.leading {α : Type} {lo hi : Nat} {f : α → Range} {xs : List α} (h : InLine lo hi (xs.map f))
    (offset : Nat) : Leading (fun x => (f x).stop ≤ offset) xs := by
  refine (List.pairwise_map.mp h.pairwise).imp_of_mem fun {a b} _ hb hab hstop => ?_
  obtain ⟨-, hproper, -⟩ := h.bounds (f b) (List.mem_map_of_mem hb)
  have hstop := of_decide_eq_true hstop
  exact decide_eq_true (by omega)

namespace Symbol

variable {edge : Nat → Prop} {lo hi : Nat} {α : Type} {f : Symbol → List α} {comment : Symbol} {ss : List Symbol}
  {rs : List Range}

theorem walkAll_flatMap {β : Type} (g : β → List Symbol) (bs : List β) :
    walkAll (bs.flatMap g) = bs.flatMap fun b => walkAll (g b) := by
  induction bs with
  | nil => simp
  | cons b bs ih => rw [List.flatMap_cons, walkAll_append, ih, List.flatMap_cons]

mutual

theorem withComment_perm (hf : ∀ s children, f { s with children := children } = f s)
    (hc : comment.children = []) : ∀ s : Symbol,
    ((withComment comment s).walk.flatMap f).Perm (f comment ++ s.walk.flatMap f)
  | ⟨n, k, r, cs, c, l⟩ => by
    have hsame : f ⟨n, k, r, insertComment comment cs, c, l⟩ = f ⟨n, k, r, cs, c, l⟩ := hf ⟨n, k, r, cs, c, l⟩ _
    rw [withComment, walk_eq, walk_eq, List.flatMap_cons, List.flatMap_cons, hsame]
    exact ((insertComment_perm hf hc cs).append_left _).trans (List.perm_append_comm_assoc ..)

/-- Where symbols are seen one by one, a comment among them is seen once besides them. -/
theorem insertComment_perm (hf : ∀ s children, f { s with children := children } = f s)
    (hc : comment.children = []) : ∀ ss : List Symbol,
    ((walkAll (insertComment comment ss)).flatMap f).Perm (f comment ++ (walkAll ss).flatMap f)
  | [] => by
    rw [insertComment, walkAll_singleton, walk_eq, hc]
    simp
  | s :: ss => by
    rw [insertComment]
    split
    · rw [walkAll_cons, walkAll_cons, List.flatMap_append, List.flatMap_append]
      exact ((insertComment_perm hf hc ss).append_left _).trans (List.perm_append_comm_assoc ..)
    · split
      · rw [walkAll_cons, walkAll_cons, List.flatMap_append, List.flatMap_append, ← List.append_assoc]
        exact (withComment_perm hf hc s).append_right _
      · rw [walkAll_cons, walk_eq, hc]
        simp

end

/-- No comment holds anything, and none has one of the ranges inside. -/
def Bare (rs : List Range) (ss : List Symbol) : Prop :=
  ∀ x ∈ walkAll ss, x.isComment = true → x.children = [] ∧ ∀ r ∈ rs, x.range.contains r = false

theorem bare_nil (rs : List Range) : Bare rs [] := by
  simp [Bare]

theorem bare_cons {s : Symbol} : Bare rs (s :: ss) ↔
    (s.isComment = true → s.children = [] ∧ ∀ r ∈ rs, s.range.contains r = false) ∧
      Bare rs s.children ∧ Bare rs ss := by
  simp only [Bare, walkAll_cons, walk_eq, List.cons_append, List.forall_mem_cons, List.forall_mem_append]

theorem Bare.tail {r : Range} (h : Bare (r :: rs) ss) : Bare rs ss := fun x hx hk =>
  ⟨(h x hx hk).1, (List.forall_mem_cons.mp (h x hx hk).2).2⟩

theorem bare_comment (hc : comment.children = []) (hr : ∀ r ∈ rs, comment.range.contains r = false) :
    Bare rs [comment] :=
  bare_cons.mpr ⟨fun _ => ⟨hc, hr⟩, hc ▸ bare_nil rs, bare_nil rs⟩

mutual

theorem withComment_bare (hc : comment.children = []) (hr : ∀ r ∈ rs, comment.range.contains r = false) :
    ∀ s : Symbol, s.range.contains comment.range = true → Bare (comment.range :: rs) [s] →
    Bare rs [withComment comment s]
  | ⟨n, k, r, cs, c, l⟩, hin, h => by
    obtain ⟨hs, hcs, -⟩ := bare_cons.mp h
    rw [withComment]
    refine bare_cons.mpr ⟨fun hk => ?_, insertComment_bare hc hr cs hcs, bare_nil rs⟩
    -- The symbol has the comment inside, so it is no comment itself.
    have hout := (List.forall_mem_cons.mp (hs hk).2).1
    exact absurd hin (Bool.eq_false_iff.mp hout)

/-- A comment that no other one has inside is put into none. -/
theorem insertComment_bare (hc : comment.children = []) (hr : ∀ r ∈ rs, comment.range.contains r = false) :
    ∀ ss : List Symbol, Bare (comment.range :: rs) ss → Bare rs (insertComment comment ss)
  | [], _ => by
    rw [insertComment]
    exact bare_comment hc hr
  | s :: ss, h => by
    obtain ⟨hs, hcs, hss⟩ := bare_cons.mp h
    have hone : Bare (comment.range :: rs) [s] := bare_cons.mpr ⟨hs, hcs, bare_nil _⟩
    rw [insertComment]
    split
    · obtain ⟨hs', hcs', -⟩ := bare_cons.mp hone.tail
      exact bare_cons.mpr ⟨hs', hcs', insertComment_bare hc hr ss hss⟩
    · split
      · rename_i hin
        obtain ⟨hs', hcs', -⟩ := bare_cons.mp (withComment_bare hc hr s hin hone)
        exact bare_cons.mpr ⟨hs', hcs', hss.tail⟩
      · obtain ⟨hk, hcs', -⟩ := bare_cons.mp (bare_comment hc hr)
        exact bare_cons.mpr ⟨hk, hcs', h.tail⟩

end

/-- On every level of the trees the symbols stand one behind the other. -/
def Ranked (ss : List Symbol) : Prop :=
  (ss.Pairwise fun a b => a.range.stop ≤ b.range.start) ∧
    ∀ s ∈ walkAll ss, s.children.Pairwise fun a b => a.range.stop ≤ b.range.start

/-- Among symbols in line the place of a comment is found by halving. -/
theorem insertComment_eq_settle (h : Range.InLine lo hi (ss.map (·.range))) (comment : Symbol) :
    insertComment comment ss = settle (fun s => s.range.stop ≤ comment.range.start)
      (fun s => s.range.contains comment.range) (withComment comment) comment ss := by
  refine scan_eq_settle (by rw [insertComment]) (fun s ss => ?_) (h.leading comment.range.start)
  rw [insertComment]
  simp only [decide_eq_true_eq]

theorem InLine.ranked (h : InLine edge lo hi ss) : Ranked ss :=
  ⟨List.pairwise_map.mp h.ranges.pairwise, fun s hs => List.pairwise_map.mp (h.orderly s hs).children.pairwise⟩

end Symbol

namespace Item

variable {edge : Nat → Prop} {lo hi : Nat} {α : Type} {f : Symbol → List α} {lines : LineTable} {is : List Item}
  {t : Token} {ts cs : List Token}

/-- The symbols of items in line stand in line. -/
theorem InLine.symbols (h : InLine edge lo hi is) : Symbol.InLine edge lo hi (is.flatMap (·.symbols)) :=
  .flatMap h.ranges fun i hi => (h.sound i hi).symbols

/-- Among items in line the place of a comment is found by halving. -/
theorem attach_eq_settle (h : Range.InLine lo hi (is.map (·.range))) (comment : Item) :
    attach comment is = settle (fun i => i.range.stop ≤ comment.range.start)
      (fun i => i.range.contains comment.range) (·.withComment comment) comment is := by
  refine scan_eq_settle (by rw [attach]) (fun i is => ?_) (h.leading comment.range.start)
  rw [attach]
  simp only [decide_eq_true_eq]

theorem attach_perm (hf : ∀ s children, f { s with children := children } = f s) (lines : LineTable) (t : Token)
    (is : List Item) :
    ((Symbol.walkAll ((attach (ofComment lines t) is).flatMap (·.symbols))).flatMap f).Perm
      ((Symbol.walkAll (ofComment lines t).symbols).flatMap f ++
        (Symbol.walkAll (is.flatMap (·.symbols))).flatMap f) := by
  obtain ⟨s, hs, -, hc⟩ := ofComment_symbols lines t
  induction is with
  | nil => simp [attach]
  | cons i is ih =>
    rw [attach]
    split
    · simp only [List.flatMap_cons, Symbol.walkAll_append, List.flatMap_append]
      exact (ih.append_left _).trans (List.perm_append_comm_assoc ..)
    · split
      · have hone : (Symbol.walkAll (ofComment lines t).symbols).flatMap f = f s := by
          rw [hs, Symbol.walkAll_singleton, Symbol.walk_eq, hc]
          simp
        rw [hone]
        simp only [List.flatMap_cons, Symbol.walkAll_append, List.flatMap_append, withComment, hs, List.foldl_cons,
          List.foldl_nil]
        rw [← List.append_assoc]
        exact (Symbol.insertComment_perm hf hc i.symbols).append_right _
      · simp [Symbol.walkAll_append]

/-- What is seen of the symbols one by one is what the comments show and what the statements show. -/
theorem weave_perm (hf : ∀ s children, f { s with children := children } = f s) (lines : LineTable)
    (cs : List Token) (is : List Item) :
    ((Symbol.walkAll ((weave lines cs is).flatMap (·.symbols))).flatMap f).Perm
      ((cs.flatMap fun t => (Symbol.walkAll (ofComment lines t).symbols).flatMap f) ++
        (Symbol.walkAll (is.flatMap (·.symbols))).flatMap f) := by
  induction cs generalizing is with
  | nil => exact .refl _
  | cons t cs ih =>
    rw [weave_cons, List.flatMap_cons]
    refine (ih _).trans (((attach_perm hf lines t is).append_left _).trans ?_)
    rw [List.append_assoc]
    exact List.perm_append_comm_assoc ..

theorem attach_bare {rs : List Range} (hr : ∀ r ∈ rs, t.range.contains r = false)
    (h : ∀ i ∈ is, Symbol.Bare (t.range :: rs) i.symbols) :
    ∀ i ∈ attach (ofComment lines t) is, Symbol.Bare rs i.symbols := by
  have hs := ofComment_symbol lines t
  generalize hc : Symbol.mk _ _ _ [] _ _ = s at hs
  have hchildren : s.children = [] := hc ▸ rfl
  have hrange : s.range = t.range := hc ▸ rfl
  rw [← hrange] at hr h
  have hcomment : Symbol.Bare rs (ofComment lines t).symbols := hs ▸ Symbol.bare_comment hchildren hr
  induction is with
  | nil =>
    rw [attach]
    simpa using hcomment
  | cons i is ih =>
    obtain ⟨hi, his⟩ := List.forall_mem_cons.mp h
    have his' : ∀ x ∈ is, Symbol.Bare rs x.symbols := fun x hx => (his x hx).tail
    rw [attach]
    split
    · exact List.forall_mem_cons.mpr ⟨hi.tail, ih his⟩
    · split
      · refine List.forall_mem_cons.mpr ⟨?_, his'⟩
        simp only [withComment, hs, List.foldl_cons, List.foldl_nil]
        exact Symbol.insertComment_bare hchildren hr i.symbols hi
      · exact List.forall_mem_cons.mpr ⟨hcomment, List.forall_mem_cons.mpr ⟨hi.tail, his'⟩⟩

/-- Comments that stand apart hold nothing, wherever they are put. -/
theorem weave_bare (lines : LineTable) (hcs : cs.Pairwise fun t u => t.range.contains u.range = false)
    (h : ∀ i ∈ is, Symbol.Bare (cs.map (·.range)) i.symbols) :
    ∀ i ∈ weave lines cs is, Symbol.Bare [] i.symbols := by
  induction cs generalizing is with
  | nil => exact h
  | cons t cs ih =>
    obtain ⟨ht, hcs⟩ := List.pairwise_cons.mp hcs
    exact ih hcs (attach_bare (by simpa using ht) h)

end Item

/-- No symbol of a derivation is a comment. -/
theorem Reading.Derives.uncommented {behind : List Range} {ls : List Lexeme} {ss : List Symbol}
    {fs : List Diagnostic} (h : Derives behind ls ss fs) : ∀ s ∈ Symbol.walkAll ss, s.isComment = false := by
  induction h with
  | nothing | report | stray => simp
  | append _ _ iha ihb =>
    rw [Symbol.walkAll_append]
    exact List.forall_mem_append.mpr ⟨iha, ihb⟩
  | token _ _ ih => exact ih
  | operator _ hk hs _ _ ih =>
    rw [Symbol.walkAll_cons, Symbol.walk_eq, hs.children, Symbol.walkAll_nil]
    exact List.forall_mem_cons.mpr ⟨by rw [Symbol.isComment, hk]; rfl, ih⟩
  | literal _ hk hs | field _ hk hs | qualifiedField _ _ _ hk hs =>
    exact forall_walk_singleton (by rw [Symbol.isComment, hk]; rfl) (by simp [hs.children])
  | construct _ _ hs _ ih =>
    refine forall_walk_singleton ?_ ih
    cases hs with
    | call hk _ _ | block hk _ _ => rw [Symbol.isComment, hk]; rfl
  | tooDeep hs hc =>
    exact forall_walk_singleton (by rw [Symbol.isComment, hs.kind]; rfl) (by simp [hc])
  | skipped hs _ _ _ _ ih =>
    exact forall_walk_singleton (by rw [Symbol.isComment, hs.kind]; rfl) ih

namespace Outline
open Calculation.Symbol

variable {options : Options} {text : String}

/-- The symbols of a text once so many of its comments have been put between and into its statements. -/
def stage (options : Options) (text : String) (n : Nat) : List Symbol :=
  (Item.weave (.ofText text.toList) ((comments text).take n) (statements options text)).flatMap (·.symbols)

/-- The range and the name of a comment; other symbols are not seen. -/
def remark (s : Symbol) : List (Range × String) :=
  if s.isComment then [(s.range, s.name)] else []

theorem symbols_eq_stage (options : Options) (text : String) :
    (ofText options text).symbols = stage options text (comments text).length := by
  have hs : (ofText options text).symbols = _ := congrArg Reading.symbols (reading_eq_ofParts options text)
  rw [hs, stage, List.take_length]
  exact Piece.symbols_ofParts _ _ _

theorem weave_inLine (options : Options) (text : String) (n : Nat) :
    Item.InLine (Item.OutsideComments (tokenize text)) 0 (Text.bytes text.toList)
      (Item.weave (.ofText text.toList) ((comments text).take n) (statements options text)) := by
  have htokens := Item.TokensInLine.lex 0 text.toList
  rw [Nat.zero_add] at htokens
  refine Item.foldl_attach_inLine htokens _ (fun t ht => ?_) ?_
  · exact List.mem_filter.mp ((List.take_sublist _ _).subset ht)
  · exact Statement.statements_inLine _ _ (htokens.lexemes false)

theorem stage_inLine (options : Options) (text : String) (n : Nat) :
    InLine (Item.OutsideComments (tokenize text)) 0 (Text.bytes text.toList) (stage options text n) :=
  (weave_inLine options text n).symbols

/-- The place of each comment can be found by halving: among the items that there are once the comments in front of it
have theirs, and on every level of the symbols below. -/
theorem comments_searched (options : Options) (text : String) {n : Nat} {t : Token} (ht : (comments text)[n]? = some t) :
    Item.weave (.ofText text.toList) ((comments text).take (n + 1)) (statements options text) =
      settle (fun i => i.range.stop ≤ t.range.start) (fun i => i.range.contains t.range)
        (·.withComment (.ofComment (.ofText text.toList) t)) (.ofComment (.ofText text.toList) t)
        (Item.weave (.ofText text.toList) ((comments text).take n) (statements options text)) ∧
    ∀ i ∈ Item.weave (.ofText text.toList) ((comments text).take n) (statements options text), ∀ ss,
      ss = i.symbols ∨ (∃ s ∈ walkAll i.symbols, ss = s.children) → ∀ comment, insertComment comment ss =
        settle (fun s => s.range.stop ≤ comment.range.start) (fun s => s.range.contains comment.range)
          (withComment comment) comment ss := by
  have hline := weave_inLine options text n
  constructor
  · have hnext := Item.attach_eq_settle hline.ranges (.ofComment (.ofText text.toList) t)
    rw [Item.ofComment_range] at hnext
    rw [← hnext, List.take_add_one, ht, Item.weave, List.map_append, List.foldl_append]
    rfl
  · rintro i hi ss (rfl | ⟨s, hs, rfl⟩) comment
    · exact insertComment_eq_settle (hline.sound i hi).symbols.ranges comment
    · exact insertComment_eq_settle ((hline.sound i hi).symbols.orderly s hs).children comment

theorem statements_uncommented (options : Options) (text : String) :
    ∀ i ∈ statements options text, ∀ s ∈ walkAll i.symbols, s.isComment = false := by
  intro i hi s hs
  refine (statements_derives options text).uncommented s ?_
  rw [walkAll_flatMap]
  exact List.mem_flatMap.mpr ⟨i, hi, hs⟩

/-- No comment of a text holds anything. -/
theorem comment_bare (options : Options) (text : String) :
    ∀ s ∈ (ofText options text).walk, s.isComment = true → s.children = [] := by
  have hapart : (comments text).Pairwise fun t u => t.range.contains u.range = false := by
    obtain ⟨hline, hproper⟩ := Token.lex_inLine 0 text.toList
    have htokens := List.pairwise_map.mp hline.pairwise
    refine (htokens.imp_of_mem fun {t u} _ hu htu => ?_).filter _
    exact Range.not_contains (hproper u hu) (.inr htu)
  have hbare : ∀ i ∈ statements options text, Bare ((comments text).map (·.range)) i.symbols := by
    intro i hi s hs hk
    rw [statements_uncommented options text i hi s hs] at hk
    cases hk
  have hall := Item.weave_bare (.ofText text.toList) hapart hbare
  intro s hs hk
  rw [walk, symbols_eq_stage, stage, List.take_length, walkAll_flatMap] at hs
  obtain ⟨i, hi, hs⟩ := List.mem_flatMap.mp hs
  exact (hall i hi s hs hk).1

/-- The comments of a text are seen once each, and no others. -/
theorem remarks_perm (options : Options) (text : String) :
    ((ofText options text).walk.flatMap remark).Perm
      ((comments text).map fun t => (t.range, .ofList (Text.trimEnd t.text.toList))) := by
  have hperm := Item.weave_perm (f := remark) (fun _ _ => rfl) (.ofText text.toList) (comments text)
    (statements options text)
  have hstatements : (walkAll ((statements options text).flatMap (·.symbols))).flatMap remark = [] := by
    refine List.flatMap_eq_nil_iff.mpr fun s hs => ?_
    rw [remark, (statements_derives options text).uncommented s hs]
    rfl
  have hcomments : ((comments text).flatMap fun t =>
      (walkAll (Item.ofComment (.ofText text.toList) t).symbols).flatMap remark) =
      (comments text).map fun t => (t.range, .ofList (Text.trimEnd t.text.toList)) := by
    rw [List.map_eq_flatMap]
    refine List.flatMap_congr fun t _ => ?_
    rw [Item.ofComment_symbol, walkAll_singleton, walk_eq]
    rfl
  rw [walk, symbols_eq_stage, stage, List.take_length, ← hcomments]
  rwa [hstatements, List.append_nil] at hperm

/-- Every comment lands once. The comments of a text and the comments among its symbols are one to one, range for
range, each named by its text without the blanks behind. A comment is a root when no other symbol has it inside, and
otherwise a child of the innermost one that has; and however many comments have been put between and into the
statements, siblings stand one behind the other. -/
theorem comments_land (options : Options) (text : String) :
    ((ofText options text).walk.flatMap remark).Perm
      ((comments text).map fun t => (t.range, .ofList (Text.trimEnd t.text.toList))) ∧
    (∀ c ∈ (ofText options text).walk, c.isComment = true →
      (c ∈ (ofText options text).symbols ↔
        ∀ s ∈ (ofText options text).walk, s ≠ c → s.range.contains c.range = false) ∧
      ∀ p ∈ (ofText options text).walk, c ∈ p.children ↔ Innermost (ofText options text).symbols c.range p) ∧
    (∀ n, Ranked (stage options text n)) ∧
      stage options text (comments text).length = (ofText options text).symbols := by
  have hline := symbols_eq_stage options text ▸ stage_inLine options text (comments text).length
  have hperm := remarks_perm options text
  refine ⟨hperm, fun c hc hk => ?_, fun n => (stage_inLine options text n).ranked, (symbols_eq_stage _ _).symm⟩
  have hproper : c.range.start < c.range.stop := by
    have hseen : (c.range, c.name) ∈ (ofText options text).walk.flatMap remark :=
      List.mem_flatMap.mpr ⟨c, hc, by simp [remark, hk]⟩
    obtain ⟨t, ht, heq⟩ := List.mem_map.mp (hperm.mem_iff.mp hseen)
    rw [← (Prod.mk.inj heq).1]
    exact (Token.lex_inLine 0 text.toList).2 t (List.mem_filter.mp ht).1
  have hleaves := comment_bare options text
  exact ⟨hline.mem_roots_iff (hleaves c hc hk) hproper hc,
    fun p hp => hline.mem_children_iff hleaves hc hk hproper hp⟩

/-- For instance, a comment in front of an argument lands in the call, and in no field. -/
theorem comments_land_in_call : ∃ c ∈ (ofText .default "SUM(/* all */ [A]) // of them").walk,
    ∃ p ∈ (ofText .default "SUM(/* all */ [A]) // of them").walk, c.name = "/* all */" ∧ p.isCall = true ∧
      Innermost (ofText .default "SUM(/* all */ [A]) // of them").symbols c.range p := by
  have hmem : ∃ p ∈ (ofText .default "SUM(/* all */ [A]) // of them").walk, p.isCall = true ∧ ∃ c ∈ p.children,
      c ∈ (ofText .default "SUM(/* all */ [A]) // of them").walk ∧ c.isComment = true ∧ c.name = "/* all */" := by
    decide +kernel
  obtain ⟨p, hp, hcall, c, hchild, hc, hk, hname⟩ := hmem
  obtain ⟨-, hland, -⟩ := comments_land .default "SUM(/* all */ [A]) // of them"
  exact ⟨c, hc, p, hp, hname, hcall, ((hland c hc hk).2 p hp).mp hchild⟩

end Outline

end Calculation
