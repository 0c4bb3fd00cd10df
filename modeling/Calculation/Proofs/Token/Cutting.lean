import Calculation.Proofs.Edit.Change
import Calculation.Proofs.Token.Stable

/-!
Cutting a text. Where no token goes over the cut the tokens are those of the two parts; and at a line feed that is
not in a block comment, what the parts give on their own is what they give together, but for the blanks around
the cut.
-/
namespace Calculation.Token

variable {y z cs : List Char} {c : Char}

theorem longest_congr {as bs : List Char} {best : Option (Kind × Match)} {rules : List Rule}
    (h : ∀ r ∈ rules, r.scan as = r.scan bs) : longest as best rules = longest bs best rules := by
  induction rules generalizing best with
  | nil => rfl
  | cons r rules ih =>
    obtain ⟨hr, hrules⟩ := List.forall_mem_cons.mp h
    simp only [longest, hr]
    split <;> exact ih hrules

/-- The longest match so far, or zero. -/
def reach (best : Option (Kind × Match)) : Nat :=
  (best.map (·.2.size)).getD 0

theorem reach_longest (cs : List Char) (best : Option (Kind × Match)) (rules : List Rule) :
    reach best ≤ reach (longest cs best rules) ∧
      ∀ r ∈ rules, ∀ m, r.scan cs = some m → m.size ≤ reach (longest cs best rules) := by
  induction rules generalizing best with
  | nil => exact ⟨Nat.le_refl _, by simp⟩
  | cons r rules ih =>
    simp only [longest]
    split
    · rename_i hr
      obtain ⟨h₁, h₂⟩ := ih _
      refine ⟨h₁, List.forall_mem_cons.mpr ⟨fun m hm => ?_, h₂⟩⟩
      rw [hr] at hm
      cases hm
    · rename_i found hr
      obtain ⟨h₁, h₂⟩ := ih (some (r.kind, found))
      refine ⟨Nat.zero_le _, List.forall_mem_cons.mpr ⟨fun m hm => ?_, h₂⟩⟩
      obtain rfl := Option.some.inj (hr.symm.trans hm)
      exact h₁
    · rename_i found kind old hr
      obtain ⟨h₁, h₂⟩ := ih (some (if old.size < found.size then (r.kind, found) else (kind, old)))
      have hmax : old.size ≤ reach (some (if old.size < found.size then (r.kind, found) else (kind, old))) ∧
          found.size ≤ reach (some (if old.size < found.size then (r.kind, found) else (kind, old))) := by
        split
        · exact ⟨Nat.le_of_lt ‹_›, Nat.le_refl _⟩
        · exact ⟨Nat.le_refl _, Nat.le_of_not_lt ‹_›⟩
      refine ⟨Nat.le_trans hmax.1 h₁, List.forall_mem_cons.mpr ⟨fun m hm => ?_, h₂⟩⟩
      obtain rfl := Option.some.inj (hr.symm.trans hm)
      exact Nat.le_trans hmax.2 h₁

theorem longest_source {cs : List Char} {best : Option (Kind × Match)} {rules : List Rule} {found : Kind × Match}
    (h : longest cs best rules = some found) :
    best = some found ∨ ∃ r ∈ rules, r.kind = found.1 ∧ r.scan cs = some found.2 := by
  induction rules generalizing best with
  | nil => exact .inl h
  | cons r rules ih =>
    simp only [longest] at h
    split at h
    · exact (ih h).imp id fun ⟨x, hx, hp⟩ => ⟨x, List.mem_cons_of_mem r hx, hp⟩
    · rename_i m hr
      rcases ih h with hb | ⟨x, hx, hp⟩
      · cases hb
        exact .inr ⟨r, List.mem_cons_self, rfl, hr⟩
      · exact .inr ⟨x, List.mem_cons_of_mem r hx, hp⟩
    · rename_i m kind old hr
      rcases ih h with hb | ⟨x, hx, hp⟩
      · split at hb
        · cases hb
          exact .inr ⟨r, List.mem_cons_self, rfl, hr⟩
        · exact .inl hb
      · exact .inr ⟨x, List.mem_cons_of_mem r hx, hp⟩

/-- No rule matches more than the first token takes. -/
theorem size_le_first (cs : List Char) : ∀ r ∈ Rule.all, ∀ m, r.scan cs = some m → m.size ≤ (first cs).2.size := by
  intro r hr m hm
  have hle := (reach_longest cs none Rule.all).2 r hr m hm
  unfold first
  cases hl : longest cs none Rule.all with
  | none =>
    rw [hl] at hle
    exact Nat.le_trans hle (Nat.zero_le _)
  | some found =>
    rw [hl] at hle
    exact hle

/-- A first token that ends in the first part of a text is the one of that part. -/
theorem first_stable (h : (first (y ++ z)).2.size ≤ y.length) : first y = first (y ++ z) := by
  unfold first
  rw [longest_congr fun r hr => ?_]
  cases hs : r.scan (y ++ z) with
  | none => exact (Rule.stable r hr).missed hs
  | some m => exact (Rule.stable r hr).found hs (Nat.le_trans (size_le_first (y ++ z) r hr m hs) h)

theorem longest_keeps {cs : List Char} {kind : Kind} {m : Match} {rules : List Rule}
    (h : ∀ r ∈ rules, ∀ m', r.scan cs = some m' → m'.size ≤ m.size) :
    longest cs (some (kind, m)) rules = some (kind, m) := by
  induction rules with
  | nil => rfl
  | cons r rules ih =>
    obtain ⟨hr, hrules⟩ := List.forall_mem_cons.mp h
    cases hs : r.scan cs with
    | none =>
      simp only [longest, hs]
      exact ih hrules
    | some found =>
      simp only [longest, hs, if_neg (Nat.not_lt.mpr (hr found hs))]
      exact ih hrules

theorem spaces_mem : ⟨.whitespace, Scan.spaces⟩ ∈ Rule.all :=
  List.mem_cons_self

theorem blockComment_mem : ⟨.blockComment, Scan.blockComment⟩ ∈ Rule.all :=
  List.mem_cons_of_mem _ (List.mem_cons_of_mem _ List.mem_cons_self)

theorem spaces_cons (h : Scan.isSpace c = true) (cs : List Char) :
    Scan.spaces (c :: cs) = some ⟨((c :: cs).takeWhile Scan.isSpace).length, false⟩ := by
  unfold Scan.spaces Match.whole?
  rw [if_neg (by simp [h])]

/-- Blanks are one token, all of them. -/
theorem first_of_space (h : Scan.isSpace c = true) (cs : List Char) :
    first (c :: cs) = (.whitespace, ⟨((c :: cs).takeWhile Scan.isSpace).length, false⟩) := by
  have hall : Rule.all = ⟨.whitespace, Scan.spaces⟩ :: Rule.all.tail := rfl
  have hkeep : longest (c :: cs) (some (.whitespace, ⟨((c :: cs).takeWhile Scan.isSpace).length, false⟩))
      Rule.all.tail = some (.whitespace, ⟨((c :: cs).takeWhile Scan.isSpace).length, false⟩) := by
    refine longest_keeps fun r hr m hm => ?_
    have hmem : r ∈ Rule.all := List.mem_of_mem_tail hr
    rcases Rule.none_of_space h cs r hmem with hk | hn
    · rw [(Rule.of_kind r hmem).1 hk, spaces_cons h] at hm
      cases hm
      exact Nat.le_refl _
    · rw [hn] at hm
      cases hm
  have hlongest : longest (c :: cs) none Rule.all =
      some (.whitespace, ⟨((c :: cs).takeWhile Scan.isSpace).length, false⟩) := by
    rw [hall]
    simp only [longest, spaces_cons h cs]
    exact hkeep
  rw [first, hlongest]
  rfl

/-- What a first token is that goes over a line feed. -/
theorem first_over_line (hmem : '\n' ∈ cs.take (first cs).2.size) :
    ((first cs).1 = .whitespace ∧ Scan.spaces cs = some (first cs).2) ∨
      ((first cs).1 = .blockComment ∧ Scan.blockComment cs = some (first cs).2) := by
  unfold first at hmem ⊢
  cases hl : longest cs none Rule.all with
  | none =>
    -- A line feed is a blank, so that some rule matches it.
    exfalso
    rw [hl] at hmem
    cases cs with
    | nil => cases hmem
    | cons c cs =>
      obtain rfl : '\n' = c := by simpa using hmem
      have hle := (reach_longest ('\n' :: cs) none Rule.all).2 _ spaces_mem
        ⟨(('\n' :: cs).takeWhile Scan.isSpace).length, false⟩ (spaces_cons (c := '\n') (by decide) cs)
      rw [hl, List.takeWhile_cons, if_pos (by rfl)] at hle
      exact absurd hle (Nat.not_succ_le_zero _)
  | some found =>
    rw [hl] at hmem
    dsimp only [Option.getD] at hmem ⊢
    rcases longest_source hl with h | ⟨r, hr, hk, hs⟩
    · cases h
    · obtain ⟨hw, hb⟩ := Rule.of_kind r hr
      rcases Rule.oneLine r hr with h | h | h
      · exact .inl ⟨hk ▸ h, hw h ▸ hs⟩
      · exact .inr ⟨hk ▸ h, hb h ▸ hs⟩
      · exact absurd hmem (h hs)

/-- The first token is what some rule found, unless no rule accepts what stands there. -/
theorem first_source {cs : List Char} (h : (first cs).1 ≠ .invalid) :
    ∃ r ∈ Rule.all, r.kind = (first cs).1 ∧ r.scan cs = some (first cs).2 := by
  unfold first at h ⊢
  cases hl : longest cs none Rule.all with
  | none =>
    rw [hl] at h
    exact absurd rfl h
  | some found => exact (longest_source hl).resolve_left nofun

theorem first_blockComment {cs : List Char} (h : (first cs).1 = .blockComment) :
    Scan.blockComment cs = some (first cs).2 := by
  obtain ⟨r, hr, hk, hs⟩ := first_source (show (first cs).1 ≠ .invalid by simp [h])
  exact (Rule.of_kind r hr).2 (hk.trans h) ▸ hs

theorem first_lineComment {cs : List Char} (h : (first cs).1 = .lineComment) :
    Scan.lineComment cs = some (first cs).2 := by
  obtain ⟨r, hr, hk, hs⟩ := first_source (show (first cs).1 ≠ .invalid by simp [h])
  have hmem : r ∈ Rule.all.filter (·.kind == .lineComment) :=
    List.mem_filter.mpr ⟨hr, beq_iff_eq.mpr (hk.trans h)⟩
  obtain rfl : r = ⟨.lineComment, Scan.lineComment⟩ := List.mem_singleton.mp hmem
  exact hs

theorem lineComment_closed {cs : List Char} (h : (first cs).1 = .lineComment) : (first cs).2.isOpen = false := by
  have hs := first_lineComment h
  unfold Scan.lineComment at hs
  split at hs
  · rw [← Option.some.inj hs]
  · cases hs

/-- An open comment takes all that is left of the text. -/
theorem open_size {cs : List Char} (hk : (first cs).1.isComment = true) (ho : (first cs).2.isOpen = true) :
    (first cs).2.size = cs.length := by
  cases hkind : (first cs).1 with
  | lineComment =>
    rw [lineComment_closed hkind] at ho
    cases ho
  | blockComment =>
    have hs := first_blockComment hkind
    unfold Scan.blockComment at hs
    split at hs
    · rename_i u
      rw [← Option.some.inj hs] at ho ⊢
      have hsize := Scan.throughStarSlash_open u ho
      simp only [Match.after, List.length_cons]
      omega
    · cases hs
  | _ =>
    rw [hkind] at hk
    cases hk

/-- A token of blanks has nothing else in it. -/
theorem first_whitespace {c : Char} {cs : List Char} (h : (first (c :: cs)).1 = .whitespace) :
    c :: cs.take ((first (c :: cs)).2.size - 1) = (c :: cs).takeWhile Scan.isSpace := by
  obtain ⟨r, hr, hk, hs⟩ := first_source (show (first (c :: cs)).1 ≠ .invalid by simp [h])
  rw [(Rule.of_kind r hr).1 (hk.trans h)] at hs
  obtain ⟨hsize, hpos⟩ := Scan.whole?_eq_some hs
  obtain ⟨n, hn⟩ : ∃ n, ((c :: cs).takeWhile Scan.isSpace).length = n + 1 :=
    Nat.exists_eq_add_one_of_ne_zero hpos
  have htake := Scan.take_takeWhile Scan.isSpace (c :: cs)
  rw [hsize, hn]
  rwa [hn, List.take_succ_cons] at htake

/-- Where a block comment starts it is the first token. -/
theorem first_of_slashStar (cs : List Char) :
    first ('/' :: '*' :: cs) = (.blockComment, (Scan.throughStarSlash cs).after 2) := by
  have hsize := size_le_first ('/' :: '*' :: cs) _ blockComment_mem _ rfl
  have htwo : 2 ≤ ((Scan.throughStarSlash cs).after 2).size := Nat.le_add_right _ _
  unfold first at hsize ⊢
  cases hl : longest ('/' :: '*' :: cs) none Rule.all with
  | none =>
    rw [hl] at hsize
    have hone : ((Scan.throughStarSlash cs).after 2).size ≤ 1 := hsize
    omega
  | some found =>
    rw [hl] at hsize
    rcases longest_source hl with h | ⟨r, hr, hk, hs⟩
    · cases h
    · rcases Rule.of_slashStar cs r hr with h | h
      · have hm : found.2 = (Scan.throughStarSlash cs).after 2 := by
          rw [(Rule.of_kind r hr).2 h] at hs
          exact (Option.some.inj hs).symm
        exact Prod.ext (hk.symm.trans h) hm
      · have hle := h _ hs
        have hone : ((Scan.throughStarSlash cs).after 2).size ≤ found.2.size := hsize
        omega

/-- The token that takes `text` from an offset on. -/
def taking (offset : Nat) (found : Kind × Match) (text : List Char) : Token :=
  ⟨found.1, .ofList text, ⟨offset, offset + Text.bytes text⟩, found.2.isOpen⟩

theorem lex_taking (offset : Nat) (c : Char) (cs : List Char) :
    lex offset (c :: cs) = taking offset (first (c :: cs)) (c :: cs.take ((first (c :: cs)).2.size - 1)) ::
      lex (offset + Text.bytes (c :: cs.take ((first (c :: cs)).2.size - 1)))
        (cs.drop ((first (c :: cs)).2.size - 1)) := by
  rw [lex]
  rfl

/-- A first token that ends in the first part is the same for both, and what follows starts at the same place. -/
theorem lex_step (offset : Nat) (hy : y ≠ []) (h : (first (y ++ z)).2.size ≤ y.length) : ∃ text rest, text ≠ [] ∧
    y = text ++ rest ∧
    lex offset (y ++ z) = taking offset (first y) text :: lex (offset + Text.bytes text) (rest ++ z) ∧
      lex offset y = taking offset (first y) text :: lex (offset + Text.bytes text) rest := by
  obtain ⟨c, y, rfl⟩ := List.exists_cons_of_ne_nil hy
  have hsame := first_stable h
  rw [← hsame, List.length_cons] at h
  have hle : (first (c :: y)).2.size - 1 ≤ y.length := by omega
  refine ⟨c :: y.take ((first (c :: y)).2.size - 1), y.drop ((first (c :: y)).2.size - 1), by simp, ?_, ?_, ?_⟩
  · rw [List.cons_append, List.take_append_drop]
  · have hstep := lex_taking offset c (y ++ z)
    rw [← List.cons_append, ← hsame, List.take_append_of_le_length hle, List.drop_append_of_le_length hle] at hstep
    exact hstep
  · exact lex_taking offset c y

/-- Where no token goes over the cut the tokens are those of the parts. -/
theorem lex_append (offset : Nat) (y z : List Char)
    (h : ∀ t ∈ lex offset (y ++ z), t.range.Avoids (offset + Text.bytes y)) :
    lex offset (y ++ z) = lex offset y ++ lex (offset + Text.bytes y) z := by
  induction hn : y.length using Nat.strongRecOn generalizing y offset with
  | _ n ih =>
    cases y with
    | nil => rw [lex_nil]; rfl
    | cons c y =>
      by_cases hsize : (first (c :: y ++ z)).2.size ≤ (c :: y).length
      · obtain ⟨text, rest, hne, happ, hboth, hone⟩ := lex_step offset (List.cons_ne_nil c y) hsize
        have hlen : rest.length < n := by
          have hpos := List.length_pos_iff.mpr hne
          rw [← hn, happ, List.length_append]
          omega
        have hoffset : offset + Text.bytes text + Text.bytes rest = offset + Text.bytes (c :: y) := by
          rw [happ, Text.bytes_append, Nat.add_assoc]
        have hrest : ∀ t ∈ lex (offset + Text.bytes text) (rest ++ z),
            t.range.Avoids (offset + Text.bytes text + Text.bytes rest) := by
          intro t ht
          rw [hoffset]
          exact h t (hboth ▸ List.mem_cons_of_mem _ ht)
        rw [hboth, hone, ih rest.length hlen _ rest hrest rfl, hoffset, List.cons_append]
      · -- The first token reaches at least to the cut; so it ends there, and nothing is behind.
        have hstep := lex_taking offset c (y ++ z)
        have hfirst := h _ (hstep ▸ List.mem_cons_self)
        have hfront : (c :: (y ++ z).take ((first (c :: (y ++ z))).2.size - 1)) =
            c :: y ++ z.take ((first (c :: (y ++ z))).2.size - 1 - y.length) := by
          rw [List.take_append, List.take_of_length_le]
          · rfl
          · simp only [List.cons_append, List.length_cons] at hsize
            omega
        have hpos : 0 < Text.bytes (c :: y) := bytes_pos (List.cons_ne_nil c y)
        rw [hfront] at hfirst
        simp only [taking, Range.Avoids, Text.bytes_append] at hfirst
        have hempty : Text.bytes (z.take ((first (c :: (y ++ z))).2.size - 1 - y.length)) = 0 := by omega
        have hz : z = [] := by
          cases z with
          | nil => rfl
          | cons d z =>
            exfalso
            obtain ⟨n, hn⟩ : ∃ n, (first (c :: (y ++ d :: z))).2.size - 1 - y.length = n + 1 := by
              simp only [List.cons_append, List.length_cons] at hsize
              exact ⟨(first (c :: (y ++ d :: z))).2.size - 1 - y.length - 1, by omega⟩
            rw [hn, List.take_succ_cons, Text.bytes_cons] at hempty
            have := d.utf8Size_pos
            omega
        rw [hz, List.append_nil, lex_nil, List.append_nil]

/-- A comment is still open at the end of the tokens. -/
def OpenComment (ts : List Token) : Prop :=
  ∃ t ∈ ts, t.kind = .blockComment ∧ t.isOpen = true

/-- A line feed stands right before or right behind the cut, or the cut is where the text starts. -/
def AtLineFeed (x y : List Char) : Prop :=
  Text.EndsLine x ∨ y.head? = some '\n'

theorem AtLineFeed.behind {text rest y : List Char} (h : AtLineFeed (text ++ rest) y) : AtLineFeed rest y := by
  refine h.imp (fun hx => ?_) id
  cases rest with
  | nil => exact .inl rfl
  | cons c rest =>
    rcases hx with hx | hx
    · simp at hx
    · exact .inr (by rw [List.getLast?_append] at hx; simpa using hx)

theorem AtLineFeed.mem {x y : List Char} (h : AtLineFeed x y) (hx : x ≠ []) {n : Nat} (hn : x.length < n) :
    '\n' ∈ (x ++ y).take n := by
  rcases h with (h | h) | h
  · exact absurd h hx
  · rw [List.take_append, List.take_of_length_le (Nat.le_of_lt hn)]
    exact List.mem_append_left _ (List.mem_of_getLast? h)
  · obtain ⟨y, rfl⟩ := List.head?_eq_some_iff.mp h
    obtain ⟨k, hk⟩ : ∃ k, n - x.length = k + 1 := ⟨n - x.length - 1, by omega⟩
    rw [List.take_append, hk, List.take_succ_cons]
    exact List.mem_append_right _ List.mem_cons_self

/-- Blanks that nothing blank follows are one token. -/
def blanks (offset : Nat) (cs : List Char) : Token :=
  taking offset (.whitespace, ⟨cs.length, false⟩) cs

theorem lex_blanks (offset : Nat) {cs z : List Char} (hne : cs ≠ []) (hcs : ∀ c ∈ cs, Scan.isSpace c = true)
    (hz : z.takeWhile Scan.isSpace = []) :
    lex offset (cs ++ z) = blanks offset cs :: lex (offset + Text.bytes cs) z := by
  obtain ⟨c, cs, rfl⟩ := List.exists_cons_of_ne_nil hne
  have htake : (c :: cs ++ z).takeWhile Scan.isSpace = c :: cs := by
    rw [List.takeWhile_append_of_pos hcs, hz, List.append_nil]
  have hstep := lex_taking offset c (cs ++ z)
  have hfirst := first_of_space (hcs c List.mem_cons_self) (cs ++ z)
  rw [← List.cons_append, htake] at hfirst
  rw [← List.cons_append, hfirst] at hstep
  simp only [List.length_cons, Nat.add_sub_cancel, List.take_left, List.drop_left] at hstep
  exact hstep

/-- What the first token can be where a line feed stands at the cut. -/
inductive Edge (x y : List Char) : Prop
  | inside (h : (first (x ++ y)).2.size ≤ x.length)
  | blank (c : Char) (cs : List Char) (hx : x.all Scan.isSpace = true) (hy : y = c :: cs)
    (hc : Scan.isSpace c = true)
  | comment (u : List Char) (hx : x = '/' :: '*' :: u) (hopen : (Scan.throughStarSlash u).isOpen = true)

theorem AtLineFeed.edge {x y : List Char} (h : AtLineFeed x y) (hx : x ≠ []) : Edge x y := by
  by_cases hsize : (first (x ++ y)).2.size ≤ x.length
  · exact .inside hsize
  · have hlt := Nat.lt_of_not_le hsize
    rcases first_over_line (h.mem hx hlt) with ⟨-, hs⟩ | ⟨-, hs⟩
    · obtain ⟨hm, -⟩ := Scan.whole?_eq_some hs
      rw [hm, List.takeWhile_append] at hlt
      split at hlt
      · rename_i hall
        have hxs : x.takeWhile Scan.isSpace = x := (List.takeWhile_prefix _).eq_of_length hall
        have hxall : x.all Scan.isSpace = true := hxs ▸ List.all_takeWhile
        rw [List.length_append] at hlt
        cases y with
        | nil => simp at hlt
        | cons c cs =>
          by_cases hc : Scan.isSpace c = true
          · exact .blank c cs hxall rfl hc
          · rw [List.takeWhile_cons, if_neg hc] at hlt
            simp at hlt
      · have hle := (List.takeWhile_prefix (l := x) Scan.isSpace).length_le
        exact absurd hlt (Nat.not_lt.mpr hle)
    · unfold Scan.blockComment at hs
      split at hs
      · rename_i cs heq
        have hm := Option.some.inj hs
        match x, hx, h, heq, hlt with
        | ['/'], _, h, heq, _ =>
          exfalso
          rcases h with (h | h) | h
          · cases h
          · cases h
          · have hy : y = '*' :: cs := (List.cons.inj heq).2
            rw [hy] at h
            cases h
        | a :: b :: u, _, _, heq, hlt =>
          obtain ⟨rfl, rfl, rfl⟩ : a = '/' ∧ b = '*' ∧ u ++ y = cs := by simpa using heq
          refine .comment u rfl ?_
          by_cases hopen : (Scan.throughStarSlash u).isOpen = true
          · exact hopen
          · obtain ⟨hsame, hle⟩ := Scan.throughStarSlash_closed u y (Bool.eq_false_iff.mpr hopen)
            rw [← hm, hsame] at hlt
            simp only [Match.after, List.length_cons] at hlt
            omega
      · cases hs

/-- Two parts of a text that give together what they give on their own: the same comments, and the same lexemes but
for a blank line in front of the first one behind the cut. Behind it, tokens end where they end in the second part. -/
structure Cut (offset : Nat) (x y : List Char) : Prop where
  lexemes : ∀ blank, ∃ blank', Lexeme.significant blank (lex offset (x ++ y)) =
    Lexeme.significant blank (lex offset x) ++ Lexeme.significant blank' (lex (offset + Text.bytes x) y)
  comments : (lex offset (x ++ y)).filter (·.kind.isComment) =
    (lex offset x).filter (·.kind.isComment) ++ (lex (offset + Text.bytes x) y).filter (·.kind.isComment)
  avoids : ∀ e, offset + Text.bytes x < e → (∀ t ∈ lex (offset + Text.bytes x) y, t.range.Avoids e) →
    ∀ t ∈ lex offset (x ++ y), t.range.Avoids e

theorem significant_cons_cut {t : Token} {ts us vs : List Token}
    (h : ∀ blank, ∃ blank', Lexeme.significant blank ts =
      Lexeme.significant blank us ++ Lexeme.significant blank' vs) (blank : Bool) :
    ∃ blank', Lexeme.significant blank (t :: ts) =
      Lexeme.significant blank (t :: us) ++ Lexeme.significant blank' vs := by
  simp only [Lexeme.significant]
  split
  · exact h _
  · split
    · exact h _
    · obtain ⟨b, hb⟩ := h false
      exact ⟨b, congrArg _ hb⟩

theorem isBlankLine_blanks (offset : Nat) (cs : List Char) :
    Lexeme.isBlankLine (blanks offset cs) = decide (2 ≤ cs.count '\n') := by
  simp [Lexeme.isBlankLine, blanks, taking]

theorem significant_blanks (blank : Bool) (offset : Nat) (cs : List Char) (ts : List Token) :
    Lexeme.significant blank (blanks offset cs :: ts) =
      Lexeme.significant (blank || decide (2 ≤ cs.count '\n')) ts := by
  rw [Lexeme.significant, isBlankLine_blanks]
  rfl

/-- Blanks around the cut become one token. -/
theorem cut_of_blanks (offset : Nat) {x y z : List Char} (hx : ∀ c ∈ x, Scan.isSpace c = true) (hxne : x ≠ [])
    (hy : ∀ c ∈ y, Scan.isSpace c = true) (hyne : y ≠ []) (hz : z.takeWhile Scan.isSpace = []) :
    Cut offset x (y ++ z) := by
  have hone := lex_blanks offset (z := []) hxne hx rfl
  have htwo := lex_blanks (offset + Text.bytes x) hyne hy hz
  have hboth := lex_blanks offset (show x ++ y ≠ [] by simp [hxne])
    (fun c hc => (List.mem_append.mp hc).elim (hx c) (hy c)) hz
  rw [List.append_nil, lex_nil] at hone
  rw [List.append_assoc, Text.bytes_append, ← Nat.add_assoc] at hboth
  refine ⟨fun blank => ?_, ?_, fun e he h => ?_⟩
  · refine ⟨blank || decide (2 ≤ (x ++ y).count '\n'), ?_⟩
    have hmono : decide (2 ≤ y.count '\n') = true → decide (2 ≤ (x ++ y).count '\n') = true := by
      simp only [decide_eq_true_eq, List.count_append]
      omega
    rw [hboth, hone, htwo, significant_blanks, significant_blanks, significant_blanks]
    cases hb : decide (2 ≤ y.count '\n') with
    | false => rw [Bool.or_false]; rfl
    | true => rw [hmono hb, Bool.or_true]; rfl
  · rw [hboth, hone, htwo]
    rfl
  · rw [htwo] at h
    obtain ⟨hblanks, hrest⟩ := List.forall_mem_cons.mp h
    rw [hboth]
    refine List.forall_mem_cons.mpr ⟨?_, hrest⟩
    simp only [blanks, taking, Range.Avoids, Text.bytes_append] at hblanks ⊢
    omega

theorem Cut.step {offset : Nat} {x y text rest : List Char} {t : Token} (hx : x = text ++ rest)
    (hstop : t.range.stop = offset + Text.bytes text)
    (hboth : lex offset (x ++ y) = t :: lex (offset + Text.bytes text) (rest ++ y))
    (hone : lex offset x = t :: lex (offset + Text.bytes text) rest)
    (h : Cut (offset + Text.bytes text) rest y) : Cut offset x y := by
  have hoffset : offset + Text.bytes text + Text.bytes rest = offset + Text.bytes x := by
    rw [hx, Text.bytes_append, Nat.add_assoc]
  obtain ⟨hlexemes, hcomments, havoids⟩ := h
  rw [hoffset] at hlexemes hcomments havoids
  refine ⟨fun blank => ?_, ?_, fun e he hall => ?_⟩
  · rw [hboth, hone]
    exact significant_cons_cut hlexemes blank
  · rw [hboth, hone, List.filter_cons, List.filter_cons, hcomments]
    split <;> rfl
  · rw [hboth]
    refine List.forall_mem_cons.mpr ⟨.inr ?_, havoids e he hall⟩
    rw [hstop]
    rw [← hoffset] at he
    omega

theorem takeWhile_dropWhile (cs : List Char) :
    (cs.dropWhile Scan.isSpace).takeWhile Scan.isSpace = [] := by
  have hhead := List.head?_dropWhile_not Scan.isSpace cs
  cases hd : cs.dropWhile Scan.isSpace with
  | nil => rfl
  | cons c cs =>
    rw [hd] at hhead
    rw [List.takeWhile_cons, if_neg (by simpa using hhead)]

theorem openComment_of_slashStar (offset : Nat) {u : List Char} (h : (Scan.throughStarSlash u).isOpen = true) :
    OpenComment (lex offset ('/' :: '*' :: u)) := by
  have hstep := lex_taking offset '/' ('*' :: u)
  rw [first_of_slashStar] at hstep
  exact ⟨_, hstep ▸ List.mem_cons_self, rfl, h⟩

/-- An open comment goes on into what is put behind it. -/
theorem throughStarSlash_goes_on {u y : List Char} (h : (Scan.throughStarSlash u).isOpen = true) (hy : y ≠ []) :
    u.length < (Scan.throughStarSlash (u ++ y)).size := by
  refine Nat.lt_of_not_le fun hle => ?_
  have hsame := Scan.throughStarSlash_stable u y hle
  have hsize := Scan.throughStarSlash_open (u ++ y) (hsame ▸ h)
  have hpos := List.length_pos_iff.mpr hy
  rw [List.length_append] at hsize
  omega

/-- At a line feed outside of block comments a text can be cut. -/
theorem AtLineFeed.cut (offset : Nat) {x y : List Char} (h : AtLineFeed x y) (hopen : ¬OpenComment (lex offset x)) :
    Cut offset x y := by
  induction hn : x.length using Nat.strongRecOn generalizing x offset with
  | _ n ih =>
    by_cases hx : x = []
    · subst hx
      refine ⟨fun blank => ⟨blank, ?_⟩, ?_, fun e _ hall => ?_⟩
      · rw [lex_nil]
        rfl
      · rw [lex_nil]
        rfl
      · exact hall
    · cases h.edge hx with
      | inside hsize =>
        obtain ⟨text, rest, hne, happ, hboth, hone⟩ := lex_step offset hx hsize
        have hlen : rest.length < n := by
          have hpos := List.length_pos_iff.mpr hne
          rw [← hn, happ, List.length_append]
          omega
        have hrest : ¬OpenComment (lex (offset + Text.bytes text) rest) := by
          rintro ⟨t, ht, hk⟩
          exact hopen ⟨t, hone ▸ List.mem_cons_of_mem _ ht, hk⟩
        exact .step happ rfl hboth hone (ih rest.length hlen _ (AtLineFeed.behind (happ ▸ h)) hrest rfl)
      | blank c cs hall hy hc =>
        subst hy
        rw [← List.takeWhile_append_dropWhile (p := Scan.isSpace) (l := c :: cs)]
        refine cut_of_blanks offset (List.all_eq_true.mp hall) hx (fun d hd => Scan.mem_takeWhile hd) ?_ ?_
        · rw [List.takeWhile_cons, if_pos hc]
          simp
        · exact takeWhile_dropWhile (c :: cs)
      | comment u hu hcomment =>
        subst hu
        exact absurd (openComment_of_slashStar offset hcomment) hopen

/-- Where a comment is open at the cut a comment goes over it. -/
theorem AtLineFeed.straddles (offset : Nat) {x y : List Char} (h : AtLineFeed x y)
    (hopen : OpenComment (lex offset x)) (hy : y ≠ []) : ∃ t ∈ lex offset (x ++ y), t.kind.isComment = true ∧
      t.range.start < offset + Text.bytes x ∧ offset + Text.bytes x < t.range.stop := by
  induction hn : x.length using Nat.strongRecOn generalizing x offset with
  | _ n ih =>
    by_cases hx : x = []
    · subst hx
      obtain ⟨t, ht, -⟩ := hopen
      rw [lex_nil] at ht
      cases ht
    · cases h.edge hx with
      | inside hsize =>
        obtain ⟨text, rest, hne, happ, hboth, hone⟩ := lex_step offset hx hsize
        obtain ⟨t, ht, hk, ho⟩ := hopen
        rw [hone] at ht
        rcases List.mem_cons.mp ht with rfl | ht
        · have hsame := first_stable hsize
          have hall : (first (x ++ y)).2.size = (x ++ y).length :=
            open_size (hsame ▸ congrArg Kind.isComment hk) (hsame ▸ ho)
          have hpos := List.length_pos_iff.mpr hy
          rw [hall, List.length_append] at hsize
          omega
        · have hlen : rest.length < n := by
            have hpos := List.length_pos_iff.mpr hne
            rw [← hn, happ, List.length_append]
            omega
          have hoffset : offset + Text.bytes text + Text.bytes rest = offset + Text.bytes x := by
            rw [happ, Text.bytes_append, Nat.add_assoc]
          obtain ⟨u, hu, hcomment, hstart, hstop⟩ :=
            ih rest.length hlen _ (AtLineFeed.behind (happ ▸ h)) ⟨t, ht, hk, ho⟩ rfl
          rw [hoffset] at hstart hstop
          exact ⟨u, hboth ▸ List.mem_cons_of_mem _ hu, hcomment, hstart, hstop⟩
      | blank c cs hall hy hc =>
        obtain ⟨t, ht, hk, -⟩ := hopen
        have hone := lex_blanks offset (z := []) hx (List.all_eq_true.mp hall) rfl
        rw [List.append_nil, lex_nil] at hone
        rw [hone] at ht
        cases List.mem_singleton.mp ht
        cases hk
      | comment u hu hcomment =>
        subst hu
        have hstep := lex_taking offset '/' ('*' :: (u ++ y))
        have hlt := throughStarSlash_goes_on hcomment hy
        rw [first_of_slashStar] at hstep
        refine ⟨_, hstep ▸ List.mem_cons_self, rfl, ?_, ?_⟩
        · have hpos := bytes_pos (List.cons_ne_nil '/' ('*' :: u))
          simp only [taking]
          omega
        · obtain ⟨k, hk⟩ : ∃ k, (Scan.throughStarSlash (u ++ y)).size = u.length + (k + 1) :=
            ⟨(Scan.throughStarSlash (u ++ y)).size - u.length - 1, by omega⟩
          have htext : '/' :: ('*' :: (u ++ y)).take (((Scan.throughStarSlash (u ++ y)).after 2).size - 1) =
              ('/' :: '*' :: u) ++ y.take (k + 1) := by
            have hsize : ((Scan.throughStarSlash (u ++ y)).after 2).size - 1 = u.length + (k + 1) + 1 := by
              simp only [Match.after, hk]
              omega
            rw [hsize, List.take_succ_cons, List.take_length_add_append]
            rfl
          have hpos : 0 < Text.bytes (y.take (k + 1)) := by
            apply bytes_pos
            obtain ⟨c, y, rfl⟩ := List.exists_cons_of_ne_nil hy
            simp
          simp only [taking]
          rw [htext, Text.bytes_append]
          omega

/-- Every token is the first one of some text. -/
theorem exists_first {offset : Nat} {cs : List Char} {t : Token} (ht : t ∈ lex offset cs) :
    ∃ n c xs, t = taking n (first (c :: xs)) (c :: xs.take ((first (c :: xs)).2.size - 1)) := by
  induction hn : cs.length using Nat.strongRecOn generalizing offset cs with
  | _ n ih =>
    cases cs with
    | nil =>
      rw [lex_nil] at ht
      cases ht
    | cons c cs =>
      rw [lex_taking] at ht
      rcases List.mem_cons.mp ht with rfl | ht
      · exact ⟨offset, c, cs, rfl⟩
      · rw [List.length_cons] at hn
        exact ih _ (by rw [List.length_drop]; omega) ht rfl

theorem openComment_of_mem {offset : Nat} {cs : List Char} {t : Token} (ht : t ∈ lex offset cs)
    (hk : t.kind.isComment = true) (ho : t.isOpen = true) : OpenComment (lex offset cs) := by
  obtain ⟨n, c, xs, hfirst⟩ := exists_first ht
  have hkind : t.kind = (first (c :: xs)).1 := hfirst ▸ rfl
  have hopen : t.isOpen = (first (c :: xs)).2.isOpen := hfirst ▸ rfl
  refine ⟨t, ht, ?_, ho⟩
  cases hk' : t.kind with
  | blockComment => rfl
  | lineComment =>
    rw [hopen, lineComment_closed (hkind.symm.trans hk')] at ho
    cases ho
  | _ =>
    rw [hk'] at hk
    cases hk

/-- Behind an open comment there is nothing. -/
theorem stop_of_open {offset : Nat} {cs : List Char} {t : Token} (ht : t ∈ lex offset cs)
    (hk : t.kind.isComment = true) (ho : t.isOpen = true) : t.range.stop = offset + Text.bytes cs := by
  induction hn : cs.length using Nat.strongRecOn generalizing offset cs with
  | _ n ih =>
    cases cs with
    | nil =>
      rw [lex_nil] at ht
      cases ht
    | cons c cs =>
      rw [lex_taking] at ht
      rcases List.mem_cons.mp ht with rfl | ht
      · have hsize : (first (c :: cs)).2.size = (c :: cs).length := open_size hk ho
        rw [List.length_cons] at hsize
        simp only [taking, hsize, Nat.add_sub_cancel, List.take_length]
      · rw [List.length_cons] at hn
        have hstop := ih _ (by rw [List.length_drop]; omega) ht rfl
        rw [hstop, Nat.add_assoc, ← Text.bytes_append, List.cons_append, List.take_append_drop]

end Calculation.Token
