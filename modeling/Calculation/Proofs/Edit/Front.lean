import Calculation.Proofs.Document.Edges
import Calculation.Proofs.Document.Exchange
import Calculation.Proofs.Document.Whole

/-!
What a splice keeps in front of its window. The window starts with a whole segment above the change, which has a
statement in it. So the first lexeme there is the same before and after the edit, and the segments kept in front are
those of the new text; unless that lexeme is a dot and all that the segment has, and the edit puts a field behind it.
-/
namespace Calculation

open Statement

namespace Splice

variable {d : LineChange} {old new before removed added behind : List Char} {lo hi : Nat} {ps : List Piece}
variable {segments : List Segment} {s : Segment}

theorem backToStatement_counts {i : Nat} (hpos : backToStatement segments i ≠ 0)
    (hs : segments[backToStatement segments i]? = some s) : s.statements ≠ 0 := by
  induction i with
  | zero => exact absurd rfl hpos
  | succ i ih =>
    rw [backToStatement] at hpos hs
    split at hs
    · rename_i hnone
      rw [if_pos hnone] at hpos
      exact ih hpos hs
    · rename_i hcounts
      rw [hs] at hcounts
      simpa using hcounts

/-- The line of a piece that starts above the change is in both texts. -/
theorem split_above (h : d.Parts old new before removed added behind)
    (hps : Piece.InOrder (LineTable.ofText old) lo hi ps) {q : Piece} (hq : q ∈ ps) (hline : q.firstLine < d.firstLine) :
    ∃ u v, before = u ++ v ∧ (LineTable.ofText old).start? q.firstLine = some (Text.bytes u) ∧
      u.count '\n' = q.firstLine ∧ Text.EndsLine u := by
  obtain ⟨u, w, hold, hstart, hcount, hends⟩ := hps.split hq
  have hbefore : before <+: old := ⟨removed ++ behind, by rw [h.old, List.append_assoc]⟩
  obtain ⟨v, hv⟩ : u <+: before := by
    refine (List.prefix_or_prefix_of_prefix ⟨w, hold.symm⟩ hbefore).resolve_right fun hbu => ?_
    have hle := hbu.sublist.count_le '\n'
    rw [h.firstLine] at hline
    omega
  exact ⟨u, v, hv.symm, hstart, hcount, hends⟩

/-- Behind the first segment of the window another one starts above the change. -/
theorem exists_segments_above (hps : Piece.InOrder (LineTable.ofText old) lo hi ps)
    (hpos : firstAffected (Piece.segments 0 0 ps) d.firstLine ≠ 0) :
    ∃ q q', ps[firstAffected (Piece.segments 0 0 ps) d.firstLine]? = some q ∧ q.statements ≠ 0 ∧
      ps[firstAffected (Piece.segments 0 0 ps) d.firstLine + 1]? = some q' ∧ q.firstLine < q'.firstLine ∧
      q'.firstLine < d.firstLine := by
  have hlead := hps.leading (q := fun n => decide (n < d.firstLine)) (by simp only [decide_eq_true_eq]; omega)
  have hpoint := partitionPoint_eq hlead
  have hle := backToStatement_le (Piece.segments 0 0 ps)
    (partitionPoint (fun s : Segment => decide (s.firstLine < d.firstLine)) (Piece.segments 0 0 ps) - 1 - 1)
  obtain ⟨first, hfirst⟩ : ∃ first, first = firstAffected (Piece.segments 0 0 ps) d.firstLine := ⟨_, rfl⟩
  have habove : ∀ i ≤ first + 1, ∃ q, ps[i]? = some q ∧ q.firstLine < d.firstLine := by
    intro i hi
    have hlt : i < ((Piece.segments 0 0 ps).takeWhile fun s => decide (s.firstLine < d.firstLine)).length := by
      rw [hpoint] at hle
      rw [firstAffected, hpoint] at hfirst hpos
      omega
    have hany := (hlead.any_getElem? i).trans (decide_eq_true hlt)
    rw [Piece.segments_getElem?] at hany
    cases hq : ps[i]? with
    | none => simp [hq] at hany
    | some q =>
      rw [hq] at hany
      exact ⟨q, rfl, by simpa [Piece.segment] using hany⟩
  rw [← hfirst] at hpos ⊢
  obtain ⟨q, hq, -⟩ := habove first (Nat.le_succ _)
  obtain ⟨q', hq', hline'⟩ := habove (first + 1) (Nat.le_refl _)
  refine ⟨q, q', hq, ?_, hq', ?_, hline'⟩
  · have hseg : (Piece.segments 0 0 ps)[firstAffected (Piece.segments 0 0 ps) d.firstLine]? = _ :=
      Piece.segments_getElem? 0 0 _ ps
    rw [← hfirst, hq] at hseg
    rw [hfirst] at hpos hseg
    exact backToStatement_counts hpos hseg
  · have hmem : q ∈ ps.take (first + 1) := by
      rw [List.take_add_one, hq]
      exact List.mem_append_right _ List.mem_cons_self
    exact Nat.lt_of_le_of_lt (hps.sound q (List.mem_of_getElem? hq)).lines_le (hps.lastLine_lt hmem hq')

end Splice

namespace Outline

variable {options : Options} {u v z₁ z₂ : List Char} {k : Nat} {q q' : Piece}

/-- Behind the start of the line of a piece there is something, and no comment is open there. -/
theorem not_openComment_at
    (hq : (Reading.pieces (.ofText options (u ++ v)) (Token.lex 0 (u ++ v)))[k]? = some q)
    (hline : u.count '\n' = q.firstLine) (hends : Text.EndsLine u) : ¬Token.OpenComment (Token.lex 0 u) := by
  obtain ⟨havoids, hstart, -⟩ := exists_halves_at hq hline hends
  refine Reading.not_openComment (.inl hends) ?_ havoids
  rintro rfl
  obtain ⟨-, hproper, hstop⟩ := Reading.pieces_between _ 0 _ q (List.mem_of_getElem? hq)
  rw [List.append_nil] at hstop
  omega

/-- What stands between the lines of a piece with a statement and of the next one starts with a lexeme, whatever comes
behind it. -/
theorem exists_lexeme_ahead
    (hq : (Reading.pieces (.ofText options (u ++ (v ++ z₁))) (Token.lex 0 (u ++ (v ++ z₁))))[k]? = some q)
    (hcount : q.statements ≠ 0) (hline : u.count '\n' = q.firstLine) (hends : Text.EndsLine u)
    (hq' : (Reading.pieces (.ofText options (u ++ (v ++ z₁))) (Token.lex 0 (u ++ (v ++ z₁))))[k + 1]? = some q')
    (hline' : (u ++ v).count '\n' = q'.firstLine) (hends' : Text.EndsLine (u ++ v)) (z₂ : List Char) :
    Token.Cut 0 u (v ++ z₂) ∧ ∃ x ls₁ ls₂,
      Lexeme.significant false (Token.lex 0 (u ++ (v ++ z₁))) =
        Lexeme.significant false (Token.lex 0 u) ++ x :: ls₁ ∧
      Lexeme.significant false (Token.lex 0 (u ++ (v ++ z₂))) =
        Lexeme.significant false (Token.lex 0 u) ++ x :: ls₂ := by
  have hopen := not_openComment_at hq hline hends
  obtain ⟨-, hstart, -⟩ := exists_halves_at hq hline hends
  obtain ⟨l, hl, hlow, hhigh⟩ := Reading.exists_lexeme_of_statements (List.mem_of_getElem? hq) hcount
  rw [← List.append_assoc] at hl hq hq'
  have hopen' := not_openComment_at hq' hline' hends'
  -- The piece ends in front of the next one.
  have hstop : q.range.stop ≤ 0 + Text.bytes (u ++ v) := by
    obtain ⟨-, -, is, hhalves, hk⟩ := exists_halves_at hq' hline' hends'
    rw [hhalves.pieces (startsLine_second options z₁ hends'), List.getElem?_append_left (by omega)] at hq
    exact (Reading.firstHalf_between _ hhalves.between q (List.mem_of_getElem? hq)).stop
  obtain ⟨b, hb⟩ := (Token.AtLineFeed.cut 0 (y := v) (.inl hends) hopen).lexemes false
  have hcuts := fun z => (Token.AtLineFeed.cut 0 (y := z) (.inl hends') hopen').lexemes false
  obtain ⟨b₁, h₁⟩ := hcuts z₁
  obtain ⟨b₂, h₂⟩ := hcuts z₂
  rw [hb, List.append_assoc _ _ (Lexeme.significant _ _)] at h₁ h₂
  have hmem : l ∈ Lexeme.significant b (Token.lex (0 + Text.bytes u) v) := by
    rw [h₁] at hl
    rcases List.mem_append.mp hl with hl | hl
    · have hbetween := Reading.lexemes_between hl
      have := hbetween.stop
      omega
    · refine (List.mem_append.mp hl).resolve_right fun hl => ?_
      obtain ⟨h₃, h₄, -⟩ := Reading.lexemes_between hl
      omega
  obtain ⟨x, ls, hls⟩ := List.exists_cons_of_ne_nil (List.ne_nil_of_mem hmem)
  rw [hls, List.append_assoc u] at h₁ h₂
  exact ⟨Token.AtLineFeed.cut 0 (.inl hends) hopen, x, _, _, h₁, h₂⟩

/-- A field in front of the offset is a reference of its own in the old text; in the new one a dot and another field
come behind the offset, which make it a qualifier. -/
inductive Severed (options : Options) (old new : String) (w : Nat) : Prop
  | intro (pre behind behind' : List Lexeme) (field : Lexeme) (s : Symbol)
    (hold : lexemes old = pre ++ field :: behind) (hnew : lexemes new = pre ++ field :: behind')
    (hfront : field.token.range.stop ≤ w) (hbehind : ∀ l ∈ behind, w ≤ l.token.range.start)
    (hplain : Seam.qualifies behind = false) (hqualified : Seam.qualifies behind' = true)
    (hs : s ∈ (ofText options old).walk) (hkind : s.kind = .field none) (hcomplete : s.isComplete = true)
    (hrange : s.range = field.token.range)

variable {old new : String} {y : List Char} {is : List Item} {rest₁ rest₂ : List Lexeme} {src : Source} {s : Symbol}

theorem not_severed_zero : ¬Severed options old new 0 := by
  rintro ⟨pre, behind, behind', field, s, hold, -, hfront, -⟩
  have hproper := (lexemes_lined old).proper field (hold ▸ List.mem_append_right _ List.mem_cons_self)
  omega

theorem not_severed_of_undotted (h : ∀ t ∈ tokenize new, t.kind ≠ .dot) (w : Nat) : ¬Severed options old new w := by
  rintro ⟨pre, -, behind, field, -, -, hnew, -, -, -, hqualified, -⟩
  match behind with
  | [] => cases hqualified
  | [_] => cases hqualified
  | dot :: _ :: _ =>
    have hmem : dot ∈ lexemes new := by simp [hnew]
    rw [Seam.qualifies, Bool.and_eq_true, beq_iff_eq] at hqualified
    exact h dot.token (Reading.mem_lexemes hmem) hqualified.1

/-- The fields that end at a seam are those of the statements in front of it. -/
theorem exists_fieldAtEnd_iff (hhalves : Reading.Halves (.ofText options old.toList) 0 u y is)
    (hold : old.toList = u ++ y) (src : Source) (rest₁ rest₂ : List Lexeme) :
    (∃ s ∈ (ofText options old).walk,
        (Reading.frontSeam (.ofText options old.toList) src 0 u rest₁ rest₂).FieldAtEnd s) ↔
      ∃ i ∈ is, ∃ s ∈ Symbol.walkAll i.symbols,
        (Reading.frontSeam (.ofText options old.toList) src 0 u rest₁ rest₂).FieldAtEnd s := by
  obtain ⟨m, hm⟩ : ∃ m, m = Reading.frontSeam (.ofText options old.toList) src 0 u rest₁ rest₂ := ⟨_, rfl⟩
  rw [← hm]
  have hshallow : Symbol.Shallow m.FieldAtEnd := fun _ _ => Iff.rfl
  have hitems : statements options old = is ++ readAll (.ofText options old.toList)
      (Lexeme.significant false (Token.lex (0 + Text.bytes u) y)) := by
    have h := hhalves.items
    rw [← hold] at h
    exact h
  have hcomments : ¬∃ t ∈ comments old, Symbol.Show m.FieldAtEnd (Item.ofComment (.ofText old.toList) t).symbols := by
    rintro ⟨t, -, s, hs, hkind, -⟩
    rw [Item.ofComment_symbol, Symbol.walkAll_singleton, Symbol.walk_eq, Symbol.walkAll_nil,
      List.mem_singleton] at hs
    rw [hs] at hkind
    cases hkind
  refine (show_symbols hshallow options old).trans ((or_iff_right hcomments).trans ?_)
  rw [Symbol.show_flatMap, hitems]
  constructor
  · rintro ⟨i, hi, s, hs, hfield⟩
    refine ⟨i, (List.mem_append.mp hi).resolve_right fun hi' => ?_, s, hs, hfield⟩
    -- Behind the seam no symbol has a range in front of it.
    have hlow := (Reading.items_between _ _ _ i hi').start
    have hin := statements_inLine (.ofText options old.toList) (lexemes old).length
      ((Item.TokensInLine.lex 0 old.toList).lexemes false)
    have hstatement : i ∈ statements options old := by
      rw [hitems]
      exact hi
    have hsound := hin.sound i hstatement
    obtain ⟨hstart, -, -⟩ := Symbol.InLine.walkAll_bounds _ hsound.symbols s hs
    obtain ⟨-, -, pre, l, hbefore, hrange⟩ := hfield
    have hmem : l ∈ Lexeme.significant false (Token.lex 0 u) := by
      have h : m.before = Lexeme.significant false (Token.lex 0 u) := congrArg Seam.before hm
      rw [← h, hbefore]
      exact List.mem_append_right _ List.mem_cons_self
    obtain ⟨-, hproper, hstop⟩ := Reading.lexemes_between hmem
    rw [hrange] at hstart
    omega
  · rintro ⟨i, hi, hs⟩
    exact ⟨i, List.mem_append_left _ hi, hs⟩

/-- A front of a list that holds what is in front of an offset, when what comes next is behind it, is the only one. -/
theorem front_unique {as bs cs ds : List Lexeme} {w : Nat} (h : as ++ bs = cs ++ ds)
    (has : ∀ l ∈ as, l.token.range.stop ≤ w) (hbs : ∀ l ∈ bs, w < l.token.range.stop)
    (hcs : ∀ l ∈ cs, l.token.range.stop ≤ w) (hds : ∀ l ∈ ds, w < l.token.range.stop) : as = cs ∧ bs = ds := by
  have hfilter : ∀ {es fs : List Lexeme}, (∀ l ∈ es, l.token.range.stop ≤ w) → (∀ l ∈ fs, w < l.token.range.stop) →
      (es ++ fs).filter (fun l => decide (l.token.range.stop ≤ w)) = es := by
    intro es fs hes hfs
    rw [List.filter_append, List.filter_eq_self.mpr fun l hl => decide_eq_true (hes l hl),
      List.filter_eq_nil_iff.mpr fun l hl => by simpa using hfs l hl, List.append_nil]
  have hsame : as = cs := by
    rw [← hfilter has hbs, h, hfilter hcs hds]
  exact ⟨hsame, List.append_cancel_left (hsame ▸ h)⟩

/-- The seam at the start of a window shows a mark exactly where a field is severed there. -/
theorem severed_iff (hhalves : Reading.Halves (.ofText options old.toList) 0 u y is) (hold : old.toList = u ++ y)
    (h₁ : lexemes old = Lexeme.significant false (Token.lex 0 u) ++ rest₁)
    (h₂ : lexemes new = Lexeme.significant false (Token.lex 0 u) ++ rest₂)
    (hahead : (Reading.frontSeam (.ofText options old.toList) src 0 u rest₁ rest₂).OneAhead) :
    Severed options old new (Text.bytes u) ↔
      ∃ i ∈ is, (Reading.frontSeam (.ofText options old.toList) src 0 u rest₁ rest₂).MarksItem i := by
  have hbehind₁ : ∀ l ∈ rest₁, Text.bytes u ≤ l.token.range.start ∧ l.token.range.start < l.token.range.stop := by
    have hlexemes : Lexeme.significant false (Token.lex 0 (u ++ y)) =
        Lexeme.significant false (Token.lex 0 u) ++ rest₁ := by
      rw [← hold]
      exact h₁
    obtain ⟨b, rfl⟩ := Reading.exists_blank_of_cut hhalves.cut hlexemes
    intro l hl
    obtain ⟨hstart, hproper, -⟩ := Reading.lexemes_between hl
    exact ⟨Nat.zero_add (Text.bytes u) ▸ hstart, hproper⟩
  have hfields := exists_fieldAtEnd_iff hhalves hold src rest₁ rest₂
  have hmarks := fun i : Item => hahead.marksItem_iff (i := i)
  simp only [hmarks, exists_and_left, and_left_comm (b := Seam.QualifiesOnce _), ← hfields]
  constructor
  · rintro ⟨pre, behind, behind', field, s, hfield, hnew, hfront, hbehind, hplain, hqualified, hs, hkind, hcomplete,
      hrange⟩
    obtain ⟨hbefore, rfl⟩ : pre ++ [field] = Lexeme.significant false (Token.lex 0 u) ∧ behind = rest₁ := by
      have hlined := lexemes_lined old
      rw [hfield] at hlined
      refine front_unique (w := Text.bytes u) ?_ ?_ ?_ ?_ ?_
      · rw [List.append_assoc, ← h₁]
        exact hfield.symm
      · intro l hl
        rcases List.mem_append.mp hl with hl | hl
        · have hle := (List.pairwise_append.mp hlined.apart).2.2 l hl field List.mem_cons_self
          have hproper := hlined.proper field (List.mem_append_right _ List.mem_cons_self)
          omega
        · exact List.mem_singleton.mp hl ▸ hfront
      · intro l hl
        have hproper := hlined.proper l (List.mem_append_right _ (List.mem_cons_of_mem _ hl))
        have := hbehind l hl
        omega
      · intro l hl
        have hstop := (Reading.lexemes_between hl).stop
        omega
      · intro l hl
        obtain ⟨hstart, hproper⟩ := hbehind₁ l hl
        omega
    have hrest₂ : behind' = rest₂ := by
      rw [h₂, ← hbefore, List.append_assoc] at hnew
      exact (List.cons.inj (List.append_cancel_left hnew)).2.symm
    exact ⟨⟨hplain, hrest₂ ▸ hqualified⟩, s, hs, hkind, hcomplete, pre, field, hbefore.symm, hrange⟩
  · rintro ⟨⟨hplain, hqualified⟩, s, hs, hkind, hcomplete, pre, l, hbefore, hrange⟩
    have hbefore' : Lexeme.significant false (Token.lex 0 u) = pre ++ [l] := hbefore
    have hmem : l ∈ Lexeme.significant false (Token.lex 0 u) := hbefore' ▸ List.mem_append_right _ List.mem_cons_self
    have hstop := (Reading.lexemes_between hmem).stop
    rw [hbefore', List.append_assoc] at h₁ h₂
    exact ⟨pre, rest₁, rest₂, l, s, h₁, h₂, by omega, fun x hx => (hbehind₁ x hx).1, hplain, hqualified, hs, hkind,
      hcomplete, hrange⟩

/-- The pieces in front of a window are those of the old text, or a field is severed where the window starts and a piece
of the new text goes over this place. -/
theorem front_exchanged (hold : old.toList = u ++ (v ++ z₁)) (hnew : new.toList = u ++ (v ++ z₂))
    (hq : (Reading.pieces (.ofText options old.toList) (Token.lex 0 old.toList))[k]? = some q)
    (hcount : q.statements ≠ 0) (hline : u.count '\n' = q.firstLine) (hends : Text.EndsLine u)
    (hq' : (Reading.pieces (.ofText options old.toList) (Token.lex 0 old.toList))[k + 1]? = some q')
    (hline' : (u ++ v).count '\n' = q'.firstLine) (hends' : Text.EndsLine (u ++ v)) :
    (¬Severed options old new (Text.bytes u) ∧ Reading.pieces (.ofText options new.toList) (Token.lex 0 new.toList) =
        (Reading.pieces (.ofText options old.toList) (Token.lex 0 old.toList)).take k ++
          Reading.pieces (.ofText options new.toList) (Token.lex (Text.bytes u) (v ++ z₂))) ∨
      (Severed options old new (Text.bytes u) ∧
        ∃ p ∈ Reading.pieces (.ofText options new.toList) (Token.lex 0 new.toList), ¬p.range.Avoids (Text.bytes u)) := by
  rw [hold] at hq hq'
  obtain ⟨hcut, x, ls₁, ls₂, h₁, h₂⟩ := exists_lexeme_ahead hq hcount hline hends hq' hline' hends' z₂
  obtain ⟨havoids, -, is, hhalves, hk⟩ := exists_halves_at hq hline hends
  have hahead := Reading.oneAhead_frontSeam (.ofText options (u ++ (v ++ z₁))) (.ofText options (u ++ (v ++ z₂))) 0 u x
    ls₁ ls₂
  have hmoves := Source.moves_prefix options u (v ++ z₁) (v ++ z₂)
  rw [← Nat.zero_add (Text.bytes u)] at hmoves
  have hsevered : Severed options old new (Text.bytes u) ↔ ∃ i ∈ is, (Reading.frontSeam
      (.ofText options (u ++ (v ++ z₁))) (.ofText options (u ++ (v ++ z₂))) 0 u (x :: ls₁) (x :: ls₂)).MarksItem i := by
    rw [← hold] at hhalves h₁ hahead ⊢
    rw [← hnew] at h₂
    exact severed_iff hhalves hold h₁ h₂ hahead
  rw [hsevered, hold, hnew]
  rcases hhalves.exchange hmoves havoids hcut h₁ h₂ hahead with ⟨hkept, hcalm⟩ | ⟨hover, hmark⟩
  · refine .inl ⟨fun ⟨i, hi, hmark⟩ => hcalm i hi hmark, ?_⟩
    rw [hkept.pieces (startsLine_second options (v ++ z₂) hends), Reading.firstHalf_exchange hmoves hhalves.between,
      hhalves.pieces (startsLine_second options (v ++ z₁) hends), hk, List.take_left, Nat.zero_add]
  · rw [Nat.zero_add] at hover
    exact .inr ⟨hmark, hover⟩

end Outline

end Calculation
