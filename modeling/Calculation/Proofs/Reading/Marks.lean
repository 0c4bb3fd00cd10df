import Mathlib.Data.List.Forall2
import Calculation.Proofs.Reading.Sites

namespace Calculation

namespace Symbol

/-- What a symbol shows of the lexemes it was made of. -/
inductive Mark where
  /-- A construct starts at the offset. -/
  | first (offset : Nat)
  /-- The second field of a reference that starts at one offset stops at the other. -/
  | second (start stop : Nat)
  /-- An operator starts at the offset. -/
  | word (offset : Nat)

/-- The lexeme leaves the mark. -/
def Mark.Left (l : Lexeme) : Mark → Prop
  | first n => l.token.kind.startsConstruct = true ∧ l.token.range.start = n
  | second start stop => l.token.kind = .field ∧ start < l.token.range.start ∧ l.token.range.stop = stop
  | word n => l.token.kind.isLogicalOperator = true ∧ l.token.range.start = n

/-- The marks of a symbol, apart from those below it. -/
def marks (s : Symbol) : List Mark :=
  match s.kind with
  | .skipped | .comment => []
  | .operator => [.word s.range.start]
  | .field (some _) => [.first s.range.start, .second s.range.start s.range.stop]
  | _ => [.first s.range.start]

/-- All marks of trees in reading order. -/
def marksAll (ss : List Symbol) : List Mark :=
  (walkAll ss).flatMap marks

@[simp] theorem marksAll_nil : marksAll [] = [] := by
  simp [marksAll]

@[simp] theorem marksAll_append (ss tt : List Symbol) : marksAll (ss ++ tt) = marksAll ss ++ marksAll tt := by
  simp [marksAll]

theorem marksAll_cons (s : Symbol) (ss : List Symbol) :
    marksAll (s :: ss) = s.marks ++ marksAll s.children ++ marksAll ss := by
  simp [marksAll, walkAll_cons, walk_eq]

theorem marksAll_plain {s : Symbol} (h : s.children = []) : marksAll [s] = s.marks := by
  simp [marksAll_cons, h]

end Symbol

namespace Reading
open Calculation.Symbol

variable {l : Lexeme} {ls as bs taken kept : List Lexeme} {behind : List Range} {s : Symbol} {ss tt : List Symbol}
  {fs gs : List Diagnostic} {d : Diagnostic}

/-- A fault for what is nested too deep lies around the lexeme. -/
def Buried (fs : List Diagnostic) (l : Lexeme) : Prop :=
  ∃ d ∈ fs, d.code = .tooDeep ∧ d.range.contains l.token.range = true

theorem Buried.append (fs gs : List Diagnostic) (l : Lexeme) : Buried (fs ++ gs) l ↔ Buried fs l ∨ Buried gs l := by
  simp [Buried, or_and_right, exists_or]

theorem not_buried (h : ∀ d ∈ fs, d.code.isSkip = false) (l : Lexeme) : ¬Buried fs l := by
  rintro ⟨d, hd, hc, -⟩
  have hs := h d hd
  rw [hc] at hs
  cases hs

/-- The marks are those of the kept lexemes, one of each. All that a construct starts with is kept, unless it is
buried, and what is buried is not kept. -/
structure Keeps (taken : List Lexeme) (ss : List Symbol) (fs : List Diagnostic) (kept : List Lexeme) : Prop where
  sublist : kept.Sublist taken
  marks : List.Forall₂ Mark.Left kept (marksAll ss)
  all : ∀ x ∈ taken, x.token.kind.startsConstruct = true → x ∈ kept ∨ Buried fs x
  apart : ∀ x ∈ kept, ¬Buried fs x

theorem exists_left {ms : List Mark} (h : List.Forall₂ Mark.Left kept ms) {m : Mark} (hm : m ∈ ms) :
    ∃ y ∈ kept, m.Left y := by
  induction h with
  | nil => cases hm
  | cons hleft _ ih =>
    rcases List.mem_cons.mp hm with rfl | hm
    · exact ⟨_, List.mem_cons_self, hleft⟩
    · obtain ⟨y, hy, hleft⟩ := ih hm
      exact ⟨y, List.mem_cons_of_mem _ hy, hleft⟩

/-- What is sited elsewhere buries no lexeme here. -/
theorem not_buried_of_apart (hl : Lined as) (hx : l ∈ as)
    (h : ∀ d ∈ fs, d.code = .tooDeep → ∃ cs, Sited cs d.range ∧
      ((∀ a ∈ as, ∀ c ∈ cs, a.token.range.stop ≤ c.token.range.start) ∨
        ∀ c ∈ cs, ∀ a ∈ as, c.token.range.stop ≤ a.token.range.start)) : ¬Buried fs l := by
  rintro ⟨d, hd, hc, hin⟩
  obtain ⟨cs, hs, hapart⟩ := h d hd hc
  have hone : Sited as l.token.range := .one (hl.proper l hx) hx
  have h₁ := hone.proper
  have h₂ := hs.proper
  simp only [Range.contains, Bool.and_eq_true, decide_eq_true_eq] at hin
  rcases hapart with hapart | hapart
  · have := hone.before hs hapart
    omega
  · have := hs.before hone hapart
    omega

theorem Keeps.append {kept kept' : List Lexeme} (hl : Lined (as ++ bs)) (ha : Derives behind as ss fs)
    (hb : Derives behind bs tt gs) (hka : Keeps as ss fs kept) (hkb : Keeps bs tt gs kept') :
    Keeps (as ++ bs) (ss ++ tt) (fs ++ gs) (kept ++ kept') := by
  have hbetween := hl.between
  refine ⟨hka.sublist.append hkb.sublist, ?_, ?_, ?_⟩
  · rw [marksAll_append]
    exact List.rel_append hka.marks hkb.marks
  · intro x hx hk
    rw [Buried.append, List.mem_append]
    rcases List.mem_append.mp hx with hx | hx
    · exact (hka.all x hx hk).imp .inl .inl
    · exact (hkb.all x hx hk).imp .inr .inr
  · intro x hx
    rw [Buried.append, not_or]
    rcases List.mem_append.mp hx with hx | hx
    · refine ⟨hka.apart x hx, not_buried_of_apart hl.left (hka.sublist.subset hx) fun d hd hc => ?_⟩
      exact ⟨bs, hb.skip_sited hl.right hd (by rw [hc]; rfl), .inl hbetween⟩
    · refine ⟨not_buried_of_apart hl.right (hkb.sublist.subset hx) fun d hd hc => ?_, hkb.apart x hx⟩
      exact ⟨as, ha.skip_sited hl.left hd (by rw [hc]; rfl), .inr hbetween⟩

/-- A lexeme in front of a derivation is not buried by it. -/
theorem not_buried_head {inner : List Range} (hl : Lined (l :: ls)) (h : Derives inner ls ss fs) : ¬Buried fs l := by
  have hone : Lined [l] := hl.sublist (by simp)
  refine not_buried_of_apart hone (List.mem_singleton_self l) fun d hd hc => ?_
  refine ⟨ls, h.skip_sited hl.tail hd (by rw [hc]; rfl), .inl ?_⟩
  simpa using hl.head_before

/-- A lexeme in front that leaves no mark. -/
theorem Keeps.unmarked (h : Keeps ls ss fs kept) (hk : l.token.kind.startsConstruct = false) :
    Keeps (l :: ls) ss fs kept := by
  refine ⟨h.sublist.cons l, h.marks, ?_, h.apart⟩
  intro x hx hx'
  rcases List.mem_cons.mp hx with rfl | hx
  · rw [hk] at hx'
    cases hx'
  · exact h.all x hx hx'

/-- A lexeme in front that leaves a mark. -/
theorem Keeps.marked {inner : List Range} {m : Mark} (hl : Lined (l :: ls)) (hd : Derives inner ls ss fs)
    (h : Keeps ls ss fs kept) (hm : m.Left l) (hall : marksAll tt = m :: marksAll ss) :
    Keeps (l :: ls) tt fs (l :: kept) := by
  refine ⟨h.sublist.cons_cons l, hall ▸ .cons hm h.marks, ?_, ?_⟩
  · intro x hx hk
    rcases List.mem_cons.mp hx with rfl | hx
    · exact .inl List.mem_cons_self
    · exact (h.all x hx hk).imp (List.mem_cons_of_mem l) id
  · exact List.forall_mem_cons.mpr ⟨not_buried_head hl hd, h.apart⟩

/-- A lexeme alone with a symbol that starts there. -/
theorem Keeps.one (hm : marksAll [s] = [.first l.token.range.start]) (hk : l.token.kind.startsConstruct = true)
    (hf : ∀ d ∈ fs, d.code.isSkip = false) : Keeps [l] [s] fs [l] :=
  ⟨List.Sublist.refl _, hm ▸ .cons ⟨hk, rfl⟩ .nil, fun _ hx _ => .inl hx, fun x _ => not_buried hf x⟩

/-- Every derivation keeps the lexemes that constructs start with, but for those that are buried. -/
theorem Derives.keeps (h : Derives behind taken ss fs) (hl : Lined taken) : ∃ kept, Keeps taken ss fs kept := by
  induction h with
  | nothing => exact ⟨[], .slnil, by simp, by simp, by simp⟩
  | append ha hb iha ihb =>
    obtain ⟨kept, hka⟩ := iha hl.left
    obtain ⟨kept', hkb⟩ := ihb hl.right
    exact ⟨_, .append hl ha hb hka hkb⟩
  | token hk _ ih =>
    obtain ⟨kept, h⟩ := ih hl.tail
    exact ⟨kept, h.unmarked hk⟩
  | @operator _ l _ o _ _ hop hk hs _ hd ih =>
    obtain ⟨kept, h⟩ := ih hl.tail
    refine ⟨_, h.marked hl hd (m := .word l.token.range.start) ⟨hop, rfl⟩ ?_⟩
    rw [marksAll_cons, Symbol.marks, hk, hs.children, hs.range]
    simp
  | report hr hd => exact ⟨[], .slnil, by simp, by simp, by simp⟩
  | stray hk _ _ =>
    refine ⟨[], List.nil_sublist _, by simp, fun x hx hx' => ?_, by simp⟩
    rw [hk x hx] at hx'
    cases hx'
  | literal hk hkind hs hf =>
    refine ⟨_, .one ?_ hk hf.not_skip⟩
    rw [marksAll_plain hs.children, Symbol.marks, hkind, hs.range]
  | field hk hkind hs hf =>
    refine ⟨_, .one ?_ hk hf.not_skip⟩
    rw [marksAll_plain hs.children, Symbol.marks, hkind, hs.range]
  | @qualifiedField _ l dot l' _ _ _ hk hdot hk' hkind hs hf =>
    refine ⟨[l, l'], ?_, ?_, ?_, fun x _ => not_buried hf.not_skip x⟩
    · exact .cons_cons l (.cons dot (List.Sublist.refl _))
    · rw [marksAll_plain hs.children, Symbol.marks, hkind, hs.range, cover_eq hl]
      have hbefore : l.token.range.start < l'.token.range.start :=
        Nat.lt_of_lt_of_le (hl.proper l (by simp)) (hl.head_before l' (by simp))
      exact .cons ⟨by rw [hk]; rfl, rfl⟩ (.cons ⟨hk', hbefore, rfl⟩ .nil)
    · intro x hx hx'
      refine .inl ?_
      simp only [List.mem_cons, List.not_mem_nil, or_false] at hx ⊢
      rcases hx with rfl | rfl | rfl
      · exact .inl rfl
      · rw [hdot] at hx'
        cases hx'
      · exact .inr rfl
  | @construct _ l _ s _ hk hr hs hd ih =>
    obtain ⟨kept, h⟩ := ih hl.tail
    refine ⟨_, h.marked hl hd (m := .first l.token.range.start) ⟨hk, rfl⟩ ?_⟩
    have hmarks : s.marks = [.first s.range.start] := by
      cases hs with
      | call hkind _ _ => rw [Symbol.marks, hkind]
      | block hkind _ _ => rw [Symbol.marks, hkind]
    rw [marksAll_cons, hmarks, hr]
    simp [Lexeme.span]
  | tooDeep hs hc hd hr =>
    refine ⟨[], List.nil_sublist _, ?_, fun x hx _ => .inr ⟨_, List.mem_singleton_self _, hd, ?_⟩, by simp⟩
    · rw [marksAll_plain hc, Symbol.marks, hs.kind]
      exact .nil
    · rw [hr]
      exact span_contains hl hx
  | @skipped _ l ls s d fs hs hd _ _ h ih =>
    obtain ⟨kept, hkeeps⟩ := ih hl
    have hburied : ∀ x, Buried (d :: fs) x ↔ Buried fs x := by simp [Buried, hd]
    refine ⟨kept, hkeeps.sublist, ?_, ?_, ?_⟩
    · rw [marksAll_cons, Symbol.marks, hs.kind]
      simpa using hkeeps.marks
    · intro x hx hk
      rw [hburied]
      exact hkeeps.all x hx hk
    · intro x hx
      rw [hburied]
      exact hkeeps.apart x hx

end Reading

end Calculation
