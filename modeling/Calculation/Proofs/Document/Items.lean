import Calculation.Proofs.Reading.Nesting
import Calculation.Proofs.Token.Layout

namespace Calculation

/-- An item with its symbols in line inside its range, which is not empty, and all that it met inside too. -/
structure Item.Sound (edge : Nat → Prop) (i : Item) : Prop where
  proper : i.range.start < i.range.stop
  edges : edge i.range.start ∧ edge i.range.stop
  symbols : Symbol.InLine edge i.range.start i.range.stop i.symbols
  events : ∀ e ∈ i.events, e.Within i.range.start i.range.stop

/-- Sound items one behind the other. -/
structure Item.InLine (edge : Nat → Prop) (lo hi : Nat) (is : List Item) : Prop where
  ranges : Range.InLine lo hi (is.map (·.range))
  sound : ∀ i ∈ is, i.Sound edge

namespace Statement
open Cursor

variable {edge : Nat → Prop} {lo hi : Nat}

/-- Lexemes in line, none of them empty, that start and stop at edges. -/
structure LexemesInLine (edge : Nat → Prop) (lo hi : Nat) (ls : List Lexeme) : Prop where
  ranges : Range.InLine lo hi (ls.map (·.token.range))
  proper : ∀ l ∈ ls, l.token.range.start < l.token.range.stop
  edges : ∀ l ∈ ls, edge l.token.range.start ∧ edge l.token.range.stop

/-- The cursor at the start of a statement is placed there. -/
theorem LexemesInLine.placed {l : Lexeme} {ls : List Lexeme} (h : LexemesInLine edge lo hi (l :: ls)) :
    (Cursor.start (l :: ls)).Placed edge l.token.range.start hi := by
  have hin := h.ranges
  rw [List.map_cons, Range.inLine_cons] at hin
  obtain ⟨-, h₂, h₃, h₄⟩ := hin
  have hp : (Cursor.start (l :: ls)).pos l.token.range.start = l.token.range.start :=
    Nat.max_eq_left (Nat.zero_le _)
  refine ⟨?_, by omega, h.edges, ?_⟩
  · rw [hp]
    exact ⟨Nat.le_refl _, h₂, h₃, h₄⟩
  · rw [hp]
    exact (h.edges l (by simp)).1

theorem strayTokens_takes {c : Cursor} {l : Lexeme} {ls : List Lexeme} (hl : c.rest = l :: ls) :
    (strayTokens c).rest.length < c.rest.length := by
  unfold strayTokens
  rw [hl]
  dsimp only
  rw [Nat.add_comm]
  exact hl ▸ Nat.lt_of_le_of_lt (Onward.skip _ c.advance).length_le (length_advance hl)

/-- A statement takes at least its first lexeme. -/
theorem statement_takes (src : Source) {c : Cursor} {l : Lexeme} {ls : List Lexeme} (hl : c.rest = l :: ls) :
    (statement src c).2.rest.length < c.rest.length := by
  unfold statement
  split
  · rename_i hs
    exact (expression_steady src src.options.levels).takes .topLevel c hs
  · exact strayTokens_takes hl

theorem statement_onward (src : Source) : Steady (statement src) := by
  intro c
  unfold statement
  split
  · exact (expression_steady src src.options.levels).onward .topLevel c
  · exact strayTokens_onward c

theorem LexemesInLine.suffix {a b : List Lexeme} {m : Nat} (h : LexemesInLine edge lo hi (a ++ b))
    (hb : Range.InLine m hi (b.map (·.token.range))) : LexemesInLine edge m hi b :=
  ⟨hb, fun l hl => h.proper l (List.mem_append_right a hl), fun l hl => h.edges l (List.mem_append_right a hl)⟩

/-- What one statement gives, and what is left behind it. -/
theorem nextItem_sound (src : Source) {l : Lexeme} {ls : List Lexeme}
    (h : LexemesInLine edge lo hi (l :: ls)) :
    (nextItem src l ls).1.Sound edge ∧ (nextItem src l ls).1.range.start = l.token.range.start ∧
      (nextItem src l ls).1.range.stop ≤ hi ∧
      LexemesInLine edge (nextItem src l ls).1.range.stop hi (nextItem src l ls).2.rest := by
  have hc := h.placed
  obtain ⟨he, hs⟩ := statement_lays src _ hc
  obtain ⟨ht, -⟩ := hc.behind_head he.onward rfl (statement_takes src rfl)
  have hd := he.placed hc
  have hstart := h.proper l (by simp)
  have hpos : (Cursor.start (l :: ls)).pos l.token.range.start = l.token.range.start :=
    Nat.max_eq_left (Nat.zero_le _)
  rw [hpos] at hs
  have hstop : l.token.range.start < (statement src (.start (l :: ls))).2.pos l.token.range.start := by
    have := ht.pos_eq
    have := ht.stop
    omega
  obtain ⟨taken, htaken, -⟩ := he.onward.rest
  unfold nextItem
  dsimp only
  rw [ht.since_eq]
  refine ⟨⟨hstop, ⟨ht.edges.1, hd.pos_edge⟩, hs, ?_⟩, rfl, hd.pos_le, ?_⟩
  · intro e hmem
    obtain ⟨met, hmet, hw⟩ := he.met
    have hempty : (Cursor.start (l :: ls)).trail = [] := rfl
    rw [hempty, List.append_nil] at hmet
    exact hw e (hmet ▸ List.mem_reverse.mp hmem)
  · have htaken' : l :: ls = taken ++ (statement src (.start (l :: ls))).2.rest := htaken
    exact (htaken' ▸ h).suffix hd.rest

theorem statements_inLine (src : Source) (budget : Nat) {ls : List Lexeme} (h : LexemesInLine edge lo hi ls) :
    Item.InLine edge lo hi (statements src budget ls) := by
  induction budget generalizing lo ls with
  | zero =>
    rw [statements]
    · exact ⟨trivial, by simp⟩
    · simp
  | succ budget ih =>
    cases ls with
    | nil =>
      rw [statements]
      · exact ⟨trivial, by simp⟩
      · simp
    | cons l ls =>
      obtain ⟨hs, hstart, hstop, hrest⟩ := nextItem_sound src h
      obtain ⟨hin, hall⟩ := ih hrest
      have hlo : lo ≤ (nextItem src l ls).1.range.start := by
        rw [hstart]
        exact h.ranges.1
      rw [statements]
      exact ⟨⟨hlo, Nat.le_of_lt hs.proper, hstop, hin⟩, List.forall_mem_cons.mpr ⟨hs, hall⟩⟩

end Statement

namespace Symbol

variable {edge : Nat → Prop} {lo hi : Nat} {comment : Symbol}

theorem withComment_range (comment s : Symbol) : (withComment comment s).range = s.range := by
  cases s
  rw [withComment]

mutual

theorem withComment_inLine (hedge : ∀ n, edge n → comment.range.Avoids n) : ∀ (s : Symbol) {lo hi : Nat},
    InLine edge lo hi [s] → InLine edge s.range.start s.range.stop [comment] →
    InLine edge lo hi [withComment comment s]
  | ⟨n, k, r, cs, c, l⟩, lo, hi, h, hcomment => by
    obtain ⟨h₁, h₂, h₃, he, hk, hc, -⟩ := h.uncons
    rw [withComment]
    exact .one h₁ h₂ h₃ he hk (insertComment_inLine hedge cs hc hcomment)

/-- A comment finds its place in line when no symbol starts or stops inside it. -/
theorem insertComment_inLine (hedge : ∀ n, edge n → comment.range.Avoids n) : ∀ (ss : List Symbol) {lo hi : Nat},
    InLine edge lo hi ss → InLine edge lo hi [comment] → InLine edge lo hi (insertComment comment ss)
  | [], lo, hi, _, hcomment => by rwa [insertComment]
  | s :: ss, lo, hi, h, hcomment => by
    obtain ⟨h₁, h₂, h₃, he, hk, hc, hss⟩ := h.uncons
    obtain ⟨c₁, c₂, c₃, ce, ck, cc, -⟩ := hcomment.uncons
    have hs : InLine edge lo hi [s] := .one h₁ h₂ h₃ he hk hc
    rw [insertComment]
    split
    · rename_i hbehind
      exact hs.cons (insertComment_inLine hedge ss hss (.one hbehind c₂ c₃ ce ck cc))
    · rename_i hbehind
      split
      · rename_i hin
        simp only [Range.contains, Bool.and_eq_true, decide_eq_true_eq] at hin
        have hone : InLine edge s.range.start s.range.stop [comment] := .one hin.1 c₂ hin.2 ce ck cc
        refine (withComment_inLine hedge s hs hone).cons ?_
        rwa [withComment_range]
      · rename_i hin
        simp only [Range.contains, Bool.and_eq_true, decide_eq_true_eq] at hin
        have hstart := hedge _ he.1
        have hstop := hedge _ he.2
        unfold Range.Avoids at hstart hstop
        have hbefore : comment.range.stop ≤ s.range.start := by omega
        have hrest : InLine edge comment.range.stop hi (s :: ss) :=
          InLine.cons (.one hbefore h₂ h₃ he hk hc) hss
        exact hcomment.cons hrest

end

end Symbol

namespace Item

variable {edge : Nat → Prop} {lo hi : Nat} {i comment : Item}

/-- An item that holds one symbol, a comment over all of it. -/
structure IsComment (edge : Nat → Prop) (i : Item) : Prop where
  sound : i.Sound edge
  symbol : ∃ s, i.symbols = [s] ∧ s.range = i.range
  avoided : ∀ n, edge n → i.range.Avoids n

theorem Sound.withComment (hi : i.Sound edge) (hc : comment.IsComment edge)
    (hin : i.range.contains comment.range = true) : (i.withComment comment).Sound edge := by
  obtain ⟨s, hs, hr⟩ := hc.symbol
  simp only [Range.contains, Bool.and_eq_true, decide_eq_true_eq] at hin
  have hone : Symbol.InLine edge i.range.start i.range.stop [s] := hs ▸ hc.sound.symbols.mono hin.1 hin.2
  refine ⟨hi.proper, hi.edges, ?_, ?_⟩
  · simp only [Item.withComment, hs, List.foldl_cons, List.foldl_nil]
    exact Symbol.insertComment_inLine (hr ▸ hc.avoided) i.symbols hi.symbols hone
  · intro e he
    rcases List.mem_append.mp he with he | he
    · exact hi.events e he
    · exact (hc.sound.events e he).widen hin.1 hin.2

theorem attach_inLine (hc : comment.IsComment edge) {is : List Item} (h : InLine edge lo hi is)
    (hlo : lo ≤ comment.range.start) (hhi : comment.range.stop ≤ hi) :
    InLine edge lo hi (attach comment is) := by
  have hproper := hc.sound.proper
  induction is generalizing lo with
  | nil =>
    rw [attach]
    exact ⟨⟨hlo, Nat.le_of_lt hproper, hhi, trivial⟩, by simpa using hc.sound⟩
  | cons i is ih =>
    obtain ⟨h₁, h₂, h₃, h₄⟩ := h.ranges
    have hi := h.sound i (by simp)
    have his : ∀ x ∈ is, x.Sound edge := fun x hx => h.sound x (List.mem_cons_of_mem i hx)
    rw [attach]
    split
    · rename_i hbehind
      obtain ⟨hr, hs⟩ := ih ⟨h₄, his⟩ hbehind
      exact ⟨⟨h₁, h₂, h₃, hr⟩, List.forall_mem_cons.mpr ⟨hi, hs⟩⟩
    · rename_i hbehind
      split
      · rename_i hin
        exact ⟨⟨h₁, h₂, h₃, h₄⟩, List.forall_mem_cons.mpr ⟨hi.withComment hc hin, his⟩⟩
      · rename_i hin
        simp only [Range.contains, Bool.and_eq_true, decide_eq_true_eq] at hin
        have hstart := hc.avoided _ hi.edges.1
        have hstop := hc.avoided _ hi.edges.2
        unfold Range.Avoids at hstart hstop
        have hbefore : comment.range.stop ≤ i.range.start := by omega
        refine ⟨⟨hlo, Nat.le_of_lt hproper, hhi, hbefore, h₂, h₃, h₄⟩, ?_⟩
        exact List.forall_mem_cons.mpr ⟨hc.sound, List.forall_mem_cons.mpr ⟨hi, his⟩⟩

/-- Tokens in line, none of them empty. -/
structure TokensInLine (lo hi : Nat) (ts : List Token) : Prop where
  ranges : Range.InLine lo hi (ts.map (·.range))
  proper : ∀ t ∈ ts, t.range.start < t.range.stop

theorem TokensInLine.lex (offset : Nat) (cs : List Char) :
    TokensInLine offset (offset + Text.bytes cs) (Token.lex offset cs) :=
  ⟨(Token.lex_inLine offset cs).1, (Token.lex_inLine offset cs).2⟩

/-- An offset outside all comments. -/
def OutsideComments (ts : List Token) (n : Nat) : Prop :=
  ∀ t ∈ ts, t.kind.isComment = true → t.range.Avoids n

theorem TokensInLine.outsideComments {ts : List Token} (h : TokensInLine lo hi ts) {t : Token} (ht : t ∈ ts) :
    OutsideComments ts t.range.start ∧ OutsideComments ts t.range.stop :=
  ⟨fun _ hu _ => (h.ranges.avoids (List.mem_map_of_mem hu) (List.mem_map_of_mem ht)).1,
    fun _ hu _ => (h.ranges.avoids (List.mem_map_of_mem hu) (List.mem_map_of_mem ht)).2⟩

theorem TokensInLine.lexemes {ts : List Token} (h : TokensInLine lo hi ts) (blank : Bool) :
    Statement.LexemesInLine (OutsideComments ts) lo hi (Lexeme.significant blank ts) := by
  have hsub : ((Lexeme.significant blank ts).map (·.token)).Sublist ts := by
    rw [Lexeme.significant_tokens]
    exact List.filter_sublist
  have hmem : ∀ l ∈ Lexeme.significant blank ts, l.token ∈ ts :=
    fun l hl => hsub.subset (List.mem_map_of_mem hl)
  refine ⟨?_, fun l hl => h.proper _ (hmem l hl), fun l hl => h.outsideComments (hmem l hl)⟩
  have hr := h.ranges.sublist (hsub.map (·.range))
  rwa [List.map_map] at hr

theorem ofComment_isComment {ts : List Token} (h : TokensInLine lo hi ts) (lines : LineTable) {t : Token}
    (ht : t ∈ ts) (hc : t.kind.isComment = true) :
    (ofComment lines t).IsComment (OutsideComments ts) ∧ (ofComment lines t).range = t.range := by
  have hp := h.proper t ht
  have hedges := h.outsideComments ht
  have hs : Symbol.InLine (OutsideComments ts) t.range.start t.range.stop
      [⟨.ofList (Text.trimEnd t.text.toList), .comment, t.range, [], !t.isOpen, lines.continuation t.range⟩] :=
    .one (Nat.le_refl _) (Nat.le_of_lt hp) (Nat.le_refl _) hedges trivial .nil
  unfold ofComment
  dsimp only
  split
  · refine ⟨⟨⟨hp, hedges, hs, ?_⟩, ⟨_, rfl, rfl⟩, fun n hn => hn t ht hc⟩, rfl⟩
    intro e he
    cases List.mem_singleton.mp he
    have hopen : t.range.start ≤ (t.range.opening 2).stop ∧ (t.range.opening 2).stop ≤ t.range.stop := by
      simp only [Range.opening]
      omega
    exact ⟨⟨Nat.le_refl _, hopen.1, hopen.2⟩, by simp [Cause.spanning, Cause.related]⟩
  · exact ⟨⟨⟨hp, hedges, hs, by simp⟩, ⟨_, rfl, rfl⟩, fun n hn => hn t ht hc⟩, rfl⟩

/-- Whichever of the comments are put between and into items in line, the items stay in line. -/
theorem foldl_attach_inLine {ts cs : List Token} (h : TokensInLine lo hi ts) (lines : LineTable)
    (hcs : ∀ t ∈ cs, t ∈ ts ∧ t.kind.isComment = true) {is : List Item} (his : InLine (OutsideComments ts) lo hi is) :
    InLine (OutsideComments ts) lo hi
      ((cs.map (ofComment lines)).foldl (fun items comment => attach comment items) is) := by
  induction cs generalizing is with
  | nil => exact his
  | cons t cs ih =>
    obtain ⟨⟨ht, hc⟩, hcs⟩ := List.forall_mem_cons.mp hcs
    obtain ⟨hcomment, hrange⟩ := ofComment_isComment h lines ht hc
    obtain ⟨h₁, -, h₃⟩ := h.ranges.bounds t.range (List.mem_map_of_mem ht)
    exact ih hcs (attach_inLine hcomment his (hrange ▸ h₁) (hrange ▸ h₃))

/-- The items of a stretch of a text stand in line between its ends. -/
theorem ofTokens_inLine (src : Source) {ts : List Token} (h : TokensInLine lo hi ts) :
    InLine (OutsideComments ts) lo hi (ofTokens src ts) := by
  refine foldl_attach_inLine h src.lines ?_ (Statement.statements_inLine src _ (h.lexemes false))
  intro t ht
  exact List.mem_filter.mp ht

end Item

end Calculation
