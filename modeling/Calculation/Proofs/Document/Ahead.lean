import Calculation.Proofs.Document.Exchange
import Calculation.Proofs.Document.Whole

namespace Calculation

open Movable Statement

namespace Token

/-- A text is cut where one of its tokens ends. -/
theorem exists_cut {offset : Nat} {cs : List Char} {t : Token} (ht : t ∈ lex offset cs) :
    ∃ front rest, cs = front ++ rest ∧ t.range.stop = offset + Text.bytes front := by
  induction hn : cs.length using Nat.strongRecOn generalizing offset cs with
  | _ n ih =>
    cases cs with
    | nil =>
      rw [lex_nil] at ht
      cases ht
    | cons c cs =>
      obtain ⟨text, more, hne, happ, hlex⟩ := lex_cons offset c cs
      rw [hlex] at ht
      rcases List.mem_cons.mp ht with rfl | ht
      · exact ⟨text, more, happ.symm, rfl⟩
      · have hlen : more.length < n := by
          have hpos := List.length_pos_iff.mpr hne
          rw [← hn, ← happ, List.length_append]
          omega
        obtain ⟨front, rest, rfl, hstop⟩ := ih _ hlen ht rfl
        refine ⟨text ++ front, rest, by rw [← happ, List.append_assoc], ?_⟩
        rw [hstop, Text.bytes_append, Nat.add_assoc]

end Token

theorem Lexeme.significant_append (blank : Bool) (ts us : List Token) :
    ∃ b, significant blank (ts ++ us) = significant blank ts ++ significant b us := by
  induction ts generalizing blank with
  | nil => exact ⟨blank, rfl⟩
  | cons t ts ih =>
    simp only [List.cons_append, significant]
    split
    · exact ih _
    · split
      · exact ih _
      · obtain ⟨b, hb⟩ := ih false
        exact ⟨b, congrArg _ hb⟩

theorem Lexeme.length_significant (blank blank' : Bool) (ts : List Token) :
    (significant blank ts).length = (significant blank' ts).length := by
  have htokens := congrArg List.length ((significant_tokens blank ts).trans (significant_tokens blank' ts).symm)
  simpa using htokens

namespace Reading

variable {options : Options} {offset : Nat} {u v z : List Char} {is : List Item}

/-- The lexemes of a text that is cut off are those of the whole text up to there. -/
theorem lexemes_cut_off
    (htokens : ∀ t ∈ Token.lex offset (u ++ v ++ z), t.range.Avoids (offset + Text.bytes (u ++ v))) :
    ∃ b, Lexeme.significant false (Token.lex offset (u ++ (v ++ z))) =
      Lexeme.significant false (Token.lex offset (u ++ v)) ++
        Lexeme.significant b (Token.lex (offset + Text.bytes (u ++ v)) z) := by
  rw [← List.append_assoc, Token.lex_append offset (u ++ v) z htokens]
  exact Lexeme.significant_append false _ _

/-- What stands in the text between two cuts is read behind the first one when the text is cut off at the second. -/
theorem countP_between (hcut : Token.Cut 0 u v)
    (htokens : ∀ t ∈ Token.lex 0 (u ++ v ++ z), t.range.Avoids (0 + Text.bytes (u ++ v))) {p : Lexeme → Bool}
    (hp : ∀ x, p x = true → Text.bytes u ≤ x.token.range.start ∧ x.token.range.stop ≤ Text.bytes (u ++ v)) :
    (Lexeme.significant false (Token.lex 0 (u ++ (v ++ z)))).countP p ≤
      (Lexeme.significant false (Token.lex (0 + Text.bytes u) v)).length := by
  obtain ⟨b, hb⟩ := lexemes_cut_off htokens
  obtain ⟨b', hb'⟩ := hcut.lexemes false
  have hbefore : (Lexeme.significant false (Token.lex 0 u)).countP p = 0 := by
    refine List.countP_eq_zero.mpr fun x hx hpx => ?_
    obtain ⟨-, h₂, h₃⟩ := lexemes_between hx
    have := hp x hpx
    omega
  have hbehind : (Lexeme.significant b (Token.lex (0 + Text.bytes (u ++ v)) z)).countP p = 0 := by
    refine List.countP_eq_zero.mpr fun x hx hpx => ?_
    obtain ⟨h₁, h₂, -⟩ := lexemes_between hx
    have := hp x hpx
    omega
  rw [hb, hb', List.countP_append, List.countP_append, hbefore, hbehind, Nat.zero_add, Nat.add_zero,
    Lexeme.length_significant false b']
  exact List.countP_le_length

/-- Behind a place where a whole text and one that is cut off can be cut both have the same two lexemes, if two of
them stand in front of where it is cut off. -/
theorem exists_twoAhead (hcut : Token.Cut offset u v) (hcut' : Token.Cut offset u (v ++ z))
    (htokens : ∀ t ∈ Token.lex offset (u ++ v ++ z), t.range.Avoids (offset + Text.bytes (u ++ v)))
    (hahead : 2 ≤ (Lexeme.significant false (Token.lex (offset + Text.bytes u) v)).length) :
    ∃ x y short long, Lexeme.significant false (Token.lex offset (u ++ v)) =
        Lexeme.significant false (Token.lex offset u) ++ x :: y :: short ∧
      Lexeme.significant false (Token.lex offset (u ++ (v ++ z))) =
        Lexeme.significant false (Token.lex offset u) ++ x :: y :: long := by
  obtain ⟨b₁, h₁⟩ := hcut.lexemes false
  obtain ⟨b₂, h₂⟩ := hcut'.lexemes false
  obtain ⟨b, hb⟩ := lexemes_cut_off htokens
  rw [Lexeme.length_significant false b₁] at hahead
  match hls : Lexeme.significant b₁ (Token.lex (offset + Text.bytes u) v), hahead with
  | x :: y :: ls, _ =>
    rw [hls] at h₁
    exact ⟨x, y, ls, ls ++ Lexeme.significant b (Token.lex (offset + Text.bytes (u ++ v)) z), h₁, by
      rw [hb, h₁, List.append_assoc, List.cons_append, List.cons_append]⟩

/-- The items of a first half are those of it in the text that is cut off behind two more lexemes. -/
theorem halves_cut_off (hcut : Token.Cut 0 u v)
    (havoids : ∀ p ∈ pieces (.ofText options (u ++ (v ++ z))) (Token.lex 0 (u ++ (v ++ z))),
      p.range.Avoids (0 + Text.bytes u))
    (h : Halves (.ofText options (u ++ (v ++ z))) 0 u (v ++ z) is)
    (htokens : ∀ t ∈ Token.lex 0 (u ++ v ++ z), t.range.Avoids (0 + Text.bytes (u ++ v)))
    (hahead : 2 ≤ (Lexeme.significant false (Token.lex (0 + Text.bytes u) v)).length) :
    Halves (.ofText options (u ++ v)) 0 u v is := by
  obtain ⟨x, y, short, long, hshort, hlong⟩ := exists_twoAhead hcut h.cut htokens hahead
  have hmoves := Source.moves_prefix options u (v ++ z) v
  rw [← Nat.zero_add (Text.bytes u)] at hmoves
  have htwo := twoAhead_frontSeam (.ofText options (u ++ (v ++ z))) (.ofText options (u ++ v)) 0 u x y long short
  rcases h.exchange hmoves havoids hcut hlong hshort htwo.oneAhead with ⟨hhalves, -⟩ | ⟨-, i, -, hmark⟩
  · exact hhalves
  · exact absurd hmark (htwo.unmarked i)

end Reading

namespace Outline

variable {options : Options} {text : String} {k : Nat}

/-- Two lexemes of lookahead fix everything in front of a segment. Where a lexeme ends such that two of them stand
between the start of the segment and there, the text may be cut off: the segments before this one stay as they are,
with their symbols and faults. -/
theorem two_lexemes_fix_front {s : Segment} {l : Lexeme} (hs : (ofText options text).segments[k]? = some s)
    (hl : l ∈ lexemes text)
    (hahead : 2 ≤ (lexemes text).countP fun x =>
      s.range.start ≤ x.token.range.start && x.token.range.stop ≤ l.token.range.stop) :
    ∃ front rest : List Char, text.toList = front ++ rest ∧ Text.bytes front = l.token.range.stop ∧
      Splice.upTo (Splice.reading (ofText options (.ofList front))) k =
        Splice.upTo (Splice.reading (ofText options text)) k := by
  have hreading := reading_ofText options text
  have hsegs : (ofText options text).segments = Piece.segments 0 0 _ := congrArg Reading.segments hreading
  rw [hsegs, Piece.segments_getElem?] at hs
  obtain ⟨q, hq, rfl⟩ := Option.map_eq_some_iff.mp hs
  have hinOrder := Piece.ofText_inOrder options text.toList
  obtain ⟨u, w, htext, -, hlines, hends⟩ := hinOrder.split (List.mem_of_getElem? hq)
  obtain ⟨front, z, hfront, hstop⟩ := Token.exists_cut (token_of_lexeme hl).1
  rw [Nat.zero_add] at hstop
  have hinLine := Item.TokensInLine.lex 0 text.toList
  have htokens : ∀ t ∈ Token.lex 0 text.toList, t.range.Avoids l.token.range.stop := fun t ht =>
    (hinLine.ranges.avoids (List.mem_map_of_mem ht) (List.mem_map_of_mem (token_of_lexeme hl).1)).2
  have hq' := hq
  rw [htext] at hq'
  obtain ⟨havoids, hstart, is, hhalves, hk⟩ := exists_halves_at hq' hlines hends
  rw [Nat.zero_add] at hstart
  have hcounts : ∀ x : Lexeme, (q.range.start ≤ x.token.range.start && x.token.range.stop ≤ l.token.range.stop) = true →
      Text.bytes u ≤ x.token.range.start ∧ x.token.range.stop ≤ l.token.range.stop := fun x hx => by
    simp only [Bool.and_eq_true, decide_eq_true_eq] at hx
    exact ⟨Nat.le_trans hstart hx.1, hx.2⟩
  -- The cut is behind the start of the line where the segment starts.
  have hlt : Text.bytes u < Text.bytes front := by
    obtain ⟨x, hx, hpx⟩ := List.countP_pos_iff.mp (Nat.lt_of_lt_of_le Nat.two_pos hahead)
    obtain ⟨-, hproper, -⟩ : x.token.range.Between 0 (0 + Text.bytes text.toList) := Reading.lexemes_between hx
    have := hcounts x hpx
    omega
  obtain ⟨v, rfl, rfl⟩ : ∃ v, front = u ++ v ∧ w = v ++ z := by
    rcases List.append_eq_append_iff.mp (htext.symm.trans hfront) with ⟨v, hv, hw⟩ | ⟨v, rfl, -⟩
    · exact ⟨v, hv, hw⟩
    · rw [Text.bytes_append] at hlt
      omega
  have hcut : Token.Cut 0 u v := by
    refine Token.AtLineFeed.cut 0 (.inl hends) (Reading.not_openComment (.inl hends) ?_ havoids)
    rintro hnil
    rw [(List.append_eq_nil_iff.mp hnil).1, List.append_nil] at hlt
    exact Nat.lt_irrefl _ hlt
  have hcutoff : Reading.Halves (.ofText options (u ++ v)) 0 u v is := by
    rw [hstop, ← Nat.zero_add (Text.bytes (u ++ v)), htext, ← List.append_assoc] at htokens
    refine Reading.halves_cut_off hcut havoids hhalves htokens (Nat.le_trans ?_ (Reading.countP_between hcut htokens
      fun x hx => hstop ▸ hcounts x hx))
    exact htext ▸ hahead
  have hmoves := Source.moves_prefix options u (v ++ z) v
  rw [← Nat.zero_add (Text.bytes u)] at hmoves
  refine ⟨u ++ v, z, hfront, hstop.symm, ?_⟩
  rw [reading_ofText, hreading, Splice.upTo_ofPieces, Splice.upTo_ofPieces, String.toList_ofList, htext,
    hhalves.pieces (startsLine_second options (v ++ z) hends),
    hcutoff.pieces (startsLine_second options v hends), Reading.firstHalf_exchange hmoves hhalves.between,
    hk, List.take_left, List.take_left]

/-- For instance in front of the second line, when the text is cut off behind the plus there. -/
theorem open_call_fixed_by_two : ∃ front rest : List Char, "SUM(1\n\n[A] + 2".toList = front ++ rest ∧
    Text.bytes front = 12 ∧ Splice.upTo (Splice.reading (ofText .default (.ofList front))) 1 =
      Splice.upTo (Splice.reading (ofText .default "SUM(1\n\n[A] + 2")) 1 := by
  have hsegment : (ofText .default "SUM(1\n\n[A] + 2").segments[1]?.map (·.range.start) = some 7 := by decide +kernel
  have hplus : (lexemes "SUM(1\n\n[A] + 2")[4]?.map (·.token.range.stop) = some 12 := by decide +kernel
  obtain ⟨s, hs, hstart⟩ := Option.map_eq_some_iff.mp hsegment
  obtain ⟨l, hl, hstop⟩ := Option.map_eq_some_iff.mp hplus
  rw [← hstop]
  refine two_lexemes_fix_front hs (List.mem_of_getElem? hl) ?_
  rw [hstart, hstop]
  decide +kernel

end Outline

end Calculation
