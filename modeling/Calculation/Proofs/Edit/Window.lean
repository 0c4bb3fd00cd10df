import Calculation.Proofs.Document.Ahead
import Calculation.Proofs.Edit.Front

/-!
What a splice keeps behind its window. The window takes in the first segment that is kept behind and the next one with
a statement, so that two lexemes stand in it behind the cut. With them in sight the window reads up to the cut as the
whole text does; and from there on the text is the old one, moved.
-/
namespace Calculation

open Statement

theorem Token.avoids_shifted {cs : List Char} {m : Nat} (h : ∀ t ∈ lex 0 cs, t.range.Avoids m) (n : Nat) :
    ∀ t ∈ lex n cs, t.range.Avoids (n + m) := by
  intro t ht
  rw [← Nat.zero_add n, lex_shifted] at ht
  obtain ⟨x, hx, rfl⟩ := List.mem_map.mp ht
  have havoids := h x hx
  unfold Range.Avoids at havoids ⊢
  simp only [shifted, Range.shifted_nat]
  omega

theorem Lexeme.length_lex (blank : Bool) (n : Nat) (cs : List Char) :
    (significant blank (Token.lex n cs)).length = (significant false (Token.lex 0 cs)).length := by
  rw [length_significant blank false, ← Nat.zero_add n, Token.lex_shifted, significant_shifted, List.length_map]

theorem Source.Moves.refl (src : Source) (size : Nat) : Moves src src 0 0 size :=
  ⟨rfl, fun _ _ => rfl, fun r _ _ => congrArg src.trimmed (Range.shifted_zero r)⟩

namespace Reading

variable {src : Source} {offset i j : Nat} {w w₁ w₂ z : List Char} {p q : Piece}

/-- A text can be cut off where a piece ends, and when two pieces up to there count statements, so many lexemes are left
at least. -/
theorem two_le_lexemes (hq : (pieces src (Token.lex offset (w ++ z)))[i]? = some q) (hcount : q.statements ≠ 0)
    (hp : (pieces src (Token.lex offset (w ++ z)))[j]? = some p) (hcount' : p.statements ≠ 0) (hij : i < j)
    (hw : offset + Text.bytes w = p.range.stop) :
    (∀ t ∈ Token.lex offset (w ++ z), t.range.Avoids (offset + Text.bytes w)) ∧
      2 ≤ (Lexeme.significant false (Token.lex offset w)).length := by
  have hin := Item.TokensInLine.lex offset (w ++ z)
  have havoids : ∀ t ∈ Token.lex offset (w ++ z), t.range.Avoids (offset + Text.bytes w) := by
    obtain ⟨t₀, ht₀, hstop⟩ := exists_token_stop (List.mem_of_getElem? hp)
    intro t ht
    rw [hw, ← hstop]
    exact (hin.ranges.avoids (List.mem_map_of_mem ht) (List.mem_map_of_mem ht₀)).2
  refine ⟨havoids, ?_⟩
  obtain ⟨b, hb⟩ := Lexeme.significant_append false (Token.lex offset w) (Token.lex (offset + Text.bytes w) z)
  rw [← Token.lex_append offset w z havoids] at hb
  have hfront : ∀ l ∈ Lexeme.significant false (Token.lex offset (w ++ z)), l.token.range.stop ≤ p.range.stop →
      l ∈ Lexeme.significant false (Token.lex offset w) := by
    intro l hl hle
    rw [hb] at hl
    refine (List.mem_append.mp hl).resolve_right fun hl => ?_
    obtain ⟨h₁, h₂, -⟩ := lexemes_between hl
    omega
  obtain ⟨l, hl, -, hlast⟩ := exists_lexeme_of_statements (List.mem_of_getElem? hq) hcount
  obtain ⟨l', hl', hfirst', hlast'⟩ := exists_lexeme_of_statements (List.mem_of_getElem? hp) hcount'
  have hapart : q.range.stop ≤ p.range.start := by
    have hpairwise := List.pairwise_map.mp (Piece.pieces_inOrder src hin).inLine.pairwise
    obtain ⟨hi, rfl⟩ := List.getElem?_eq_some_iff.mp hq
    obtain ⟨hj, rfl⟩ := List.getElem?_eq_some_iff.mp hp
    exact List.pairwise_iff_getElem.mp hpairwise i j hi hj hij
  have hproper := (Piece.pieces_inOrder src hin).sound p (List.mem_of_getElem? hp) |>.proper
  have hmem := hfront l hl (by omega)
  have hmem' := hfront l' hl' hlast'
  match hls : Lexeme.significant false (Token.lex offset w) with
  | [] => simp [hls] at hmem
  | [x] =>
    rw [hls, List.mem_singleton] at hmem hmem'
    rw [hmem] at hlast
    rw [hmem'] at hfirst'
    omega
  | _ :: _ :: _ => simp

/-- Up to a piece that has two lexemes from the start of its line on, a text that is cut off reads as the whole one. -/
theorem pieces_cut_off (hx : (pieces src (Token.lex offset (w₁ ++ w₂)))[i]? = some p)
    (hline : src.lines.lineOf (offset + Text.bytes w₁) = p.firstLine)
    (hstarts : src.lines.StartsLine (offset + Text.bytes w₁)) (hends : Text.EndsLine w₁)
    (hahead : z = [] ∨ (∀ t ∈ Token.lex (offset + Text.bytes w₁) (w₂ ++ z),
        t.range.Avoids (offset + Text.bytes w₁ + Text.bytes w₂)) ∧
      2 ≤ (Lexeme.significant false (Token.lex (offset + Text.bytes w₁) w₂)).length) :
    pieces src (Token.lex offset (w₁ ++ (w₂ ++ z))) = (pieces src (Token.lex offset (w₁ ++ w₂))).take i ++
      pieces src (Token.lex (offset + Text.bytes w₁) (w₂ ++ z)) := by
  obtain ⟨havoids, -, is, hhalves, hi⟩ := exists_halves_at hx hline hstarts hends
  have hlong : Halves src offset w₁ (w₂ ++ z) is := by
    rcases hahead with rfl | ⟨htokens, htwo⟩
    · rw [List.append_nil]
      exact hhalves
    · have hne : w₂ ≠ [] := by
        rintro rfl
        rw [Token.lex_nil] at htwo
        exact absurd htwo (by simp [Lexeme.significant])
      have hcut : Token.Cut offset w₁ (w₂ ++ z) :=
        Token.AtLineFeed.cut offset (.inl hends) (not_openComment (.inl hends) hne havoids)
      have htokens' : ∀ t ∈ Token.lex offset (w₁ ++ w₂ ++ z), t.range.Avoids (offset + Text.bytes (w₁ ++ w₂)) := by
        have hpos := Token.bytes_pos hne
        rw [List.append_assoc, Text.bytes_append, ← Nat.add_assoc]
        exact hcut.avoids _ (by omega) htokens
      obtain ⟨x, y, short, long, hshort, hlong⟩ := exists_twoAhead hhalves.cut hcut htokens' htwo
      have hseam := twoAhead_frontSeam src src offset w₁ x y short long
      rcases hhalves.exchange (.refl src _) havoids hcut hshort hlong hseam.oneAhead with ⟨h, -⟩ | ⟨-, j, -, hmark⟩
      · exact h
      · exact absurd hmark (hseam.unmarked j)
  rw [hlong.pieces hstarts, hhalves.pieces hstarts, hi, List.take_left]

end Reading

/-- The two texts that an edit is between, with an end that they have in common and that starts a line in both. -/
structure LineChange.CommonEnd (d : LineChange) (old new front front' more : List Char) : Prop where
  old : old = front ++ more
  new : new = front' ++ more
  ends : Text.EndsLine front
  ends' : Text.EndsLine front'
  bytes : (Text.bytes front : Int) + d.byteDelta = Text.bytes front'
  lines : (front.count '\n' : Int) + d.lineDelta = front'.count '\n'

theorem Text.EndsLine.of_append {a b : List Char} (h : EndsLine (a ++ b)) : EndsLine b := by
  cases b with
  | nil => exact .inl rfl
  | cons c b =>
    rcases h with h | h
    · simp at h
    · rw [List.getLast?_append] at h
      exact .inr (by simpa [List.getLast?_cons] using h)

namespace Splice

variable {e : Edited} {d : LineChange} {old new before removed added behind u v : List Char} {lo hi : Nat}
variable {ps : List Piece} {q : Piece} {o : Outline} {tokens : List Token} {stop cut : Nat}

/-- The line of a piece that is kept behind starts behind the change, in both texts. -/
theorem split_behind (h : d.Parts old new before removed added behind)
    (hps : Piece.InOrder (LineTable.ofText old) lo (Text.bytes old) ps) (hq : q ∈ ps)
    (hlow : Text.bytes (before ++ removed) ≤ q.range.start) :
    ∃ b more, behind = b ++ more ∧ (before ++ removed ++ b).count '\n' = q.firstLine ∧
      d.CommonEnd old new (before ++ removed ++ b) (before ++ added ++ b) more := by
  obtain ⟨front, more, hold, -, hcount, hends⟩ := hps.split hq
  have hsound := hps.sound q hq
  obtain ⟨hendsOld, hendsNew⟩ := h.behind_starts.resolve_left fun hnil => by
    have hbytes := congrArg Text.bytes h.old
    have hproper := hsound.proper
    have hstop := (hps.bounds q hq).2
    rw [hnil, List.append_nil] at hbytes
    omega
  obtain ⟨b, rfl, rfl⟩ : ∃ b, front = before ++ removed ++ b ∧ behind = b ++ more := by
    rcases List.append_eq_append_iff.mp (h.old.symm.trans hold) with hb | ⟨m, hm, hmore⟩
    · exact hb
    · -- A line that started in front of the end of what was removed would have a smaller number.
      have hline := firstLine_ge hsound (congrArg LineTable.ofText h.old) hlow
      rw [hm] at hendsOld
      rcases hendsOld.of_append with rfl | hlast
      · exact ⟨[], by rw [hm, List.append_nil, List.append_nil], hmore.symm⟩
      · have hpos := List.count_pos_iff.mpr (List.mem_of_getLast? hlast)
        rw [hm, List.count_append] at hline
        omega
  refine ⟨b, more, rfl, hcount, hold, by rw [h.new, List.append_assoc _ b], hends, ?_, ?_, ?_⟩
  · cases b with
    | nil =>
      rw [List.append_nil]
      exact hendsNew
    | cons c b => exact .append hendsNew hends.of_append
  · unfold LineChange.byteDelta
    rw [h.oldStop, h.newStop, Text.bytes_append _ b, Text.bytes_append _ b]
    omega
  · rw [h.lineDelta, List.count_append, List.count_append, List.count_append, List.count_append]
    omega

/-- The piece that is kept first behind has a statement. -/
theorem Spliced.stop_counts (h : Spliced e old o stop tokens cut) (hprev : reading e.previous = .ofPieces ps)
    (hq : ps[stop]? = some q) : q.statements ≠ 0 := by
  have hs : e.previous.segments = Piece.segments 0 0 ps := congrArg Reading.segments hprev
  obtain ⟨i, -, hstop⟩ := h.stops
  have hseg := Piece.segments_getElem? 0 0 stop ps
  rw [hq, ← hs, hstop] at hseg
  exact nextStatement_counts hseg

/-- The pieces of the old text from a line of the common end on are those of the common end in the new one. -/
theorem pieces_commonEnd {options : Options} {front front' more : List Char} {k : Nat}
    (h : d.CommonEnd old new front front' more)
    (hq : (Reading.pieces (.ofText options old) (Token.lex 0 old))[k]? = some q)
    (hline : front.count '\n' = q.firstLine) :
    Reading.pieces (.ofText options new) (Token.lex (Text.bytes front') more) =
      ((Reading.pieces (.ofText options old) (Token.lex 0 old)).drop k).map (.shifted d.byteDelta d.lineDelta) := by
  obtain ⟨rfl, rfl, hends, -, hbytes, hlines⟩ := h
  have hzeroLines : 0 ≤ (front.count '\n' : Int) + d.lineDelta := by omega
  rw [Outline.pieces_restart hq hline hends,
    Reading.pieces_shifted (Source.moves_suffix options front' more (Text.bytes more)), List.map_map]
  refine List.map_congr_left fun p _ => ?_
  rw [Function.comp_apply, p.shifted_add hzeroLines, hbytes, hlines]

/-- A window that ends with the text takes in all that is behind its start. -/
theorem window_to_end {front w z : List Char} {n : Nat} (htext : e.text = front ++ (w ++ z))
    (hlines : e.lines = LineTable.ofText e.text) (hstop : e.windowStop stop = e.lines.size)
    (hw : Text.bytes front + Text.bytes w = max (e.windowStop stop) n) : z = [] := by
  have hsize : e.lines.size = Text.bytes e.text := by
    rw [hlines]
    rfl
  rw [hstop, hsize, htext, Text.bytes_append, Text.bytes_append] at hw
  refine Decidable.not_not.mp fun hz => ?_
  have hpos := Token.bytes_pos hz
  omega

/-- Of what stands behind the boundary the window takes in two lexemes at least, unless it takes in everything. -/
theorem window_ahead {front front' w z : List Char} (h : e.change.CommonEnd old e.text front front' (w ++ z))
    (hlines : e.lines = LineTable.ofText e.text)
    (hps : ps = Reading.pieces (.ofText e.options old) (Token.lex 0 old)) (hprev : reading e.previous = .ofPieces ps)
    (hexact : e.Lossless ps) (hq : ps[stop]? = some q) (hcount : q.statements ≠ 0) (hline : front.count '\n' = q.firstLine)
    (hu : Text.bytes u ≤ Text.bytes front')
    (hw : Text.bytes front' + Text.bytes w = max (e.windowStop stop) (Text.bytes u)) :
    z = [] ∨ (∀ t ∈ Token.lex 0 (w ++ z), t.range.Avoids (Text.bytes w)) ∧
      2 ≤ (Lexeme.significant false (Token.lex 0 w)).length := by
  rcases windowStop_cases stop hprev hexact with hstop | ⟨-, j, p, hj, hp, hcount', hstop⟩
  · exact .inl (window_to_end h.new hlines hstop hw)
  · -- Both pieces are pieces of the common end.
    obtain ⟨hold, -, hends, -, hbytes, -⟩ := h
    have hget : ∀ i, (ps.drop stop)[i]? = ps[stop + i]? := fun i => List.getElem?_drop
    rw [hps, hold] at hq hp hget
    have hdrop := Outline.pieces_restart hq hline hends
    rw [← Nat.add_zero stop, ← hget, hdrop, List.getElem?_map] at hq
    rw [← Nat.add_sub_of_le (Nat.le_of_lt hj), ← hget, hdrop, List.getElem?_map] at hp
    obtain ⟨q₀, hq₀, rfl⟩ := Option.map_eq_some_iff.mp hq
    obtain ⟨p₀, hp₀, rfl⟩ := Option.map_eq_some_iff.mp hp
    have hproper := Reading.pieces_between _ 0 _ p₀ (List.mem_of_getElem? hp₀)
    have hreach : 0 + Text.bytes w = p₀.range.stop := by
      rw [hstop] at hw
      simp only [Piece.shifted, Range.shifted, moved] at hw
      have := hproper.start
      have := hproper.proper
      omega
    have htwo := Reading.two_le_lexemes hq₀ hcount hp₀ hcount' (by omega) hreach
    rw [Nat.zero_add] at htwo
    exact .inr htwo

/-- The window takes in the front of the line where the cut is, and the line has the number of the piece there. -/
theorem window_over_cut {front front' more w w₁ z : List Char} {x : Piece}
    (h : e.change.CommonEnd old e.text front front' more) (hfront : front' = u ++ w₁) (hmore : w₁ ++ more = w ++ z)
    (hq : q ∈ Reading.pieces (.ofText e.options old) (Token.lex 0 old)) (hline : front.count '\n' = q.firstLine)
    (hlow : Text.bytes front ≤ q.range.start)
    (hx : x ∈ Reading.pieces (.ofText e.options e.text) (Token.lex (Text.bytes u) w))
    (hrange : x.range = q.range.shifted e.change.byteDelta) :
    (LineTable.ofText e.text).lineOf (Text.bytes front') = x.firstLine ∧ ∃ w₂, w = w₁ ++ w₂ ∧ more = w₂ ++ z := by
  obtain ⟨k, hk⟩ := Nat.exists_eq_add_of_le hlow
  have hstart : x.range.start = Text.bytes front' + k := by
    have hbytes := h.bytes
    rw [hrange, Range.shifted, hk]
    simp only [moved]
    omega
  refine ⟨?_, Text.exists_between hmore ?_⟩
  · -- No line feed stands between the start of the line and the piece.
    have hold := (Piece.ofText_inOrder e.options old).sound q hq
    have hnew := (Piece.pieces_inOrder (.ofText e.options e.text) (Item.TokensInLine.lex (Text.bytes u) w)).sound x hx
    have hfirst := hold.firstLine_eq
    rw [hk, h.old, LineTable.lineOf_suffix] at hfirst
    rw [hnew.firstLine_eq, Source.ofText, hstart, h.new, LineTable.lineOf_bytes, LineTable.lineOf_suffix]
    omega
  · obtain ⟨-, hproper, hstop⟩ := Reading.pieces_between _ _ _ x hx
    rw [hfront, Text.bytes_append] at hstart
    omega

/-- From the start of the window on the new text has the pieces of the window up to the cut, and behind them those that
are kept, moved. -/
theorem Spliced.reads_behind (h : Spliced e old o stop tokens cut)
    (hparts : e.change.Parts old e.text before removed added behind) (hlines : e.lines = LineTable.ofText e.text)
    (hps : ps = Reading.pieces (.ofText e.options old) (Token.lex 0 old)) (hprev : reading e.previous = .ofPieces ps)
    (hbefore : before = u ++ v) (hstart : e.windowStart = Text.bytes u) :
    Reading.pieces (.ofText e.options e.text) (Token.lex (Text.bytes u) (v ++ added ++ behind)) =
      (Reading.pieces (.ofText e.options e.text) tokens).take cut ++
        (ps.drop stop).map (.shifted e.change.byteDelta e.change.lineDelta) := by
  have htext : e.text = u ++ (v ++ added ++ behind) := by
    rw [hparts.new, hbefore, List.append_assoc, List.append_assoc, List.append_assoc]
  obtain ⟨w, z, hwindow, rfl, hreach⟩ := window_text h.reads htext hstart
  have hcut : e.cut? stop (.ofPieces (Reading.pieces (.ofText e.options e.text) (Token.lex (Text.bytes u) w))) =
      some cut := by
    rw [← Reading.ofTokens_eq, Source.ofText, ← hlines]
    exact h.cuts
  have hinOrder : Piece.InOrder (LineTable.ofText old) 0 (Text.bytes old) ps :=
    hps ▸ Piece.ofText_inOrder e.options old
  have hexact := h.lossless hparts hlines hinOrder
  cases hq : ps[stop]? with
  | none =>
    have hlength := List.getElem?_eq_none_iff.mp hq
    have hstop := (windowStop_cases stop hprev hexact).resolve_right fun hlater => by
      have := hlater.1
      omega
    obtain rfl : z = [] := window_to_end (hwindow ▸ htext) hlines hstop hreach
    rw [hwindow, List.append_nil, cut_at_end hprev hcut hq, List.take_length, List.drop_of_length_le hlength,
      List.map_nil, List.append_nil]
  | some q =>
    have hmem := List.mem_of_getElem? hq
    have hbehind := h.kept_behind hparts hprev hinOrder q (List.mem_of_mem_head? (List.head?_drop.trans hq))
    obtain ⟨b, more, rfl, hcount, hcommon⟩ := split_behind hparts hinOrder hmem hbehind
    obtain ⟨x, hx, hrange⟩ := cut_at hprev hexact hcut hq
    have hfront : before ++ added ++ b = u ++ (v ++ added ++ b) := by
      rw [hbefore, List.append_assoc, List.append_assoc, List.append_assoc]
    have hbytes : Text.bytes u + Text.bytes (v ++ added ++ b) = Text.bytes (before ++ added ++ b) := by
      rw [hfront, Text.bytes_append u]
    have hlow : Text.bytes (before ++ removed ++ b) ≤ q.range.start := by
      rw [hps, hcommon.old] at hq
      rw [← Nat.zero_add (Text.bytes _)]
      exact (Outline.exists_halves_at hq hcount hcommon.ends).2.1
    rw [← List.append_assoc] at hwindow
    obtain ⟨hline, w₂, rfl, rfl⟩ := window_over_cut hcommon hfront hwindow (hps ▸ hmem) hcount hlow
      (List.mem_of_getElem? hx) hrange
    have hstarts : (LineTable.ofText e.text).StartsLine (Text.bytes u + Text.bytes (v ++ added ++ b)) := by
      rw [hbytes, hcommon.new]
      exact LineTable.startsLine_bytes hcommon.ends'
    have hahead := window_ahead (u := u) hcommon hlines hps hprev hexact hq (h.stop_counts hprev hq) hcount (by omega) (by
      rw [← hreach, Text.bytes_append _ w₂]
      omega)
    have hcutoff := Reading.pieces_cut_off hx (hbytes ▸ hline) hstarts (hfront ▸ hcommon.ends').of_append
      (hahead.imp_right fun htwo =>
        ⟨Token.avoids_shifted htwo.1 _, (Lexeme.length_lex false _ w₂).symm ▸ htwo.2⟩)
    rw [← List.append_assoc _ b, hcutoff, hbytes, pieces_commonEnd hcommon (hps ▸ hq) hcount, ← hps]

end Splice

end Calculation
