import Calculation.Proofs.Document.Joined

/-!
Blank lines between statements. A blank line is meant to end whatever is unfinished in front of it. It does not end
a run that is nested too deep and has brackets or blocks open. Apart from three places that look ahead and do not
ask for blank lines, this is the only way in which a text changes what is read behind a blank line.
-/
namespace Calculation.Outline

open Movable Statement

/-- The joined text reads as the first text followed by the second one, moved. -/
def Isolates (options : Options) (a b : String) : Prop :=
  Splice.reading (ofText options (joined a b)) =
    Splice.follow (Splice.reading (ofText options a)) (Splice.reading (ofText options b)) (joinBytes a)
      (joinLines a) 0 0

instance (options : Options) (a b : String) : Decidable (Isolates options a b) :=
  inferInstanceAs (Decidable (_ = _))

/-- A property of the kind of the first lexeme of a text. -/
def startsWith (p : Token.Kind → Bool) (text : String) : Bool :=
  (lexemes text).head?.any fun l => p l.token.kind

/-- Brackets and blocks that a run nested too deep has to close before it ends. -/
def opensRun : Token.Kind → Bool
  | .leftParen | .leftBrace | .if_ | .case_ => true
  | _ => false

/-- How many brackets and blocks are open behind lexemes of a run; nothing when the run ends among them. -/
def openBehind? (balance : Nat) : List Lexeme → Option Nat
  | [] => some balance
  | l :: ls =>
    match balanceBehind? balance l.token.kind with
    | none => none
    | some b => if b = 0 ∧ l.afterBlank then none else openBehind? b ls

/-- A run that is nested too deep goes on to the end of the text and leaves so many brackets and blocks open. -/
def EndsInRun (options : Options) (text : String) (n : Nat) : Prop :=
  ∃ pre first more d, lexemes text = pre ++ first :: more ∧
    openBehind? ((balanceBehind? 0 first.token.kind).getD 0) more = some n ∧
      d ∈ (ofText options text).faults ∧ d.code = .tooDeep ∧ d.range.start = first.token.range.start

/-- The places that look at what comes next and do not ask whether a blank line is in between. -/
inductive Oversight (options : Options) (a b : String) : Prop
  /-- A word at the end takes a parenthesis for that of its call. -/
  | call (pre : List Lexeme) (word : Lexeme) (ha : lexemes a = pre ++ [word])
    (hword : word.token.kind = .identifier) (hb : startsWith (· == .leftParen) b = true)
  /-- A field with a dot behind it takes a field for the one that it qualifies. -/
  | reference (pre : List Lexeme) (field dot : Lexeme) (s : Symbol) (ha : lexemes a = pre ++ [field, dot])
    (hdot : dot.token.kind = .dot) (hs : s ∈ (ofText options a).walk) (hkind : s.kind = .field none)
    (hcomplete : s.isComplete = true) (hrange : s.range = field.token.range)
    (hb : startsWith (· == .field) b = true)
  /-- A run with nothing open goes on when it is a bracket or a block that starts behind the blank line. -/
  | run (ha : EndsInRun options a 0) (hb : startsWith opensRun b = true)

variable {options : Options} {a b : String} {l : Lexeme} {ls more rest : List Lexeme} {balance n : Nat}

theorem runLength_append (h : openBehind? balance more = some n) (rest : List Lexeme) :
    runLength balance (more ++ rest) = more.length + runLength n rest := by
  induction more generalizing balance with
  | nil =>
    cases h
    exact (Nat.zero_add _).symm
  | cons l ls ih =>
    rw [openBehind?] at h
    rw [List.cons_append, runLength]
    cases hb : balanceBehind? balance l.token.kind with
    | none => simp [hb] at h
    | some k =>
      rw [hb] at h
      dsimp only at h ⊢
      split at h
      · cases h
      · rename_i hend
        rw [if_neg hend, ih h, List.length_cons]
        omega

/-- A run that takes all lexemes ends with some number of brackets and blocks open. -/
theorem exists_openBehind (h : runLength balance more = more.length) : ∃ n, openBehind? balance more = some n := by
  induction more generalizing balance with
  | nil => exact ⟨balance, rfl⟩
  | cons l ls ih =>
    rw [runLength] at h
    rw [openBehind?]
    cases hb : balanceBehind? balance l.token.kind with
    | none => simp [hb] at h
    | some k =>
      rw [hb] at h
      dsimp only at h ⊢
      split at h
      · simp at h
      · rename_i hend
        rw [if_neg hend]
        rw [List.length_cons] at h
        exact ih (by omega)

theorem balanceBehind?_of_starts {kind : Token.Kind} (h : kind.startsExpression = true) (n : Nat) :
    balanceBehind? n kind = some (if opensRun kind then n + 1 else n) := by
  cases kind <;> first | rfl | cases h

/-- Over a blank line a run goes on when something is open, or opened right there. -/
theorem runLength_pos (n : Nat) (ls : List Lexeme) (hblank : l.afterBlank = true)
    (hstarts : l.token.kind.startsExpression = true) :
    0 < runLength n (l :: ls) ↔ 0 < n ∨ opensRun l.token.kind = true := by
  rw [runLength, balanceBehind?_of_starts hstarts]
  dsimp only
  cases ho : opensRun l.token.kind with
  | true =>
    rw [if_pos rfl, if_neg fun h => Nat.succ_ne_zero n h.1]
    exact iff_of_true (Nat.add_pos_left Nat.one_pos _) (.inr rfl)
  | false =>
    rw [if_neg Bool.false_ne_true]
    by_cases hn : n = 0
    · rw [if_pos ⟨hn, hblank⟩, hn]
      simp
    · rw [if_neg fun h => hn h.1]
      exact iff_of_true (Nat.add_pos_left Nat.one_pos _) (.inl (Nat.pos_of_ne_zero hn))

/-- The lexemes of the first text alone, and in front of those of the second one. -/
def blankSeam (options : Options) (a b : String) : Seam :=
  ⟨.ofText options a.toList, joinedSource options a b, 0, 0, lexemes a, [],
    (lexemesBehindBlank b).map (·.shifted (joinBytes a)), Text.bytes a.toList⟩

theorem blankSeam_sound (options : Options) (a : String) (hb : lexemes b = l :: ls)
    (hstarts : l.token.kind.startsExpression = true) :
    (blankSeam options a b).Sound := by
  have hin := (Item.TokensInLine.lex 0 a.toList).lexemes false
  rw [Nat.zero_add] at hin
  have hrest : (lexemesBehindBlank b).map (·.shifted (joinBytes a)) =
      Lexeme.shifted (joinBytes a) { l with afterBlank := true } :: ls.map (·.shifted (joinBytes a)) := by
    rw [lexemesBehindBlank_of_cons hb]
    rfl
  exact Seam.sound_of_moves (first_moves options a b) hin (.blank _ _ rfl hrest rfl hstarts)

theorem blankSeam_shifted (options : Options) (a b : String) (v : List Lexeme) :
    (blankSeam options a b).shifted v = v :=
  Lexeme.map_shifted_zero v

/-- What was read of the first text shows where the joined one goes over the blank line. -/
def Leaks (options : Options) (a b : String) : Prop :=
  (blankSeam options a b).OpenCall ∨ (blankSeam options a b).MarksReading (Splice.reading (ofText options a))

theorem not_openCall_of_nil (h : lexemes a = []) : ¬(blankSeam options a b).OpenCall := by
  rintro ⟨⟨pre, l, hbefore, -⟩, -⟩
  have hnil : pre ++ [l] = [] := hbefore.symm.trans h
  exact absurd hnil (by simp)

/-- The marks of the statements are those of the outline. -/
theorem marksReading_iff (m : Seam) (options : Options) (text : String) :
    m.MarksReading (Splice.reading (ofText options text)) ↔ ∃ i ∈ statements options text, m.MarksItem i := by
  rw [reading_eq_ofParts]
  exact m.marksReading_ofParts _ _ _

/-- The statements fall apart at the blank line, or one of them goes over it. -/
theorem statements_joined (hopen : ¬Token.OpenComment (tokenize a)) (hb : lexemes b = l :: ls)
    (hstarts : l.token.kind.startsExpression = true) :
    (statements options (joined a b) = (statements options a).map (Item.shifted 0 0) ++
        (statements options b).map (Item.shifted (joinBytes a) (joinLines a)) ∧ ¬Leaks options a b) ∨
      (Straddles (joinedSource options a b) (lexemes a) ((lexemesBehindBlank b).map (·.shifted (joinBytes a))) ∧
        Leaks options a b) := by
  have hsound := blankSeam_sound options a hb hstarts
  have hlexemes := lexemes_joined hopen b
  have hin₁ : Range.InLine 0 (Text.bytes a.toList) ((lexemes a ++ []).map fun l : Lexeme => l.token.range) := by
    rw [List.append_nil]
    exact hsound.ranges
  have hin₂ : Range.InLine 0 (0 + Text.bytes (joined a b).toList)
      (((blankSeam options a b).shifted (lexemes a) ++ (blankSeam options a b).rest₂).map (·.token.range)) := by
    rw [blankSeam_shifted]
    exact hlexemes ▸ Reading.lexemes_inLine false 0 (joined a b).toList
  unfold Leaks
  rw [marksReading_iff]
  rcases Seam.readAll_sim hsound ⟨[], rfl⟩ hin₁ hin₂ with ⟨-, -, -, x, hx, -⟩ | ⟨is, his, -, hparts⟩
  · cases hx
  have hitems : statements options a = is := by
    change readAll (.ofText options a.toList) (lexemes a ++ []) = is ++ readAll _ [] at his
    rwa [List.append_nil, readAll_nil, List.append_nil] at his
  rw [hitems]
  rcases hparts with ⟨hsame, hcalm, hcall⟩ | ⟨hover, hmark⟩
  · refine .inl ⟨?_, not_or.mpr ⟨?_, fun ⟨i, hi, hmark⟩ => hcalm i hi hmark⟩⟩
    · have hsecond := readAll_second options a b
      rw [blankSeam_shifted] at hsame
      rw [← hsecond]
      exact (congrArg (readAll (joinedSource options a b)) hlexemes).trans hsame
    · by_cases hnil : lexemes a = []
      · exact not_openCall_of_nil hnil
      · exact hcall hnil
  · refine .inr ⟨?_, hmark⟩
    rw [blankSeam_shifted] at hover
    exact hover

/-- The pieces of the two texts when they are read apart. -/
def piecesApart (options : Options) (a b : String) : List Piece :=
  Reading.pieces (.ofText options a.toList) (tokenize a) ++
    (Reading.pieces (.ofText options b.toList) (tokenize b)).map (.shifted (joinBytes a) (joinLines a))

theorem isolates_iff_pieces : Isolates options a b ↔
    Splice.reading (ofText options (joined a b)) = .ofPieces (piecesApart options a b) := by
  have hfollow := Splice.follow_pieces (joinBytes a) (joinLines a) 0 0
    (Reading.pieces (.ofText options a.toList) (tokenize a)) (Reading.pieces (.ofText options b.toList) (tokenize b))
  unfold Isolates piecesApart
  rw [reading_ofText options a, reading_ofText options b, ← hfollow]
  rfl

theorem piecesApart_avoid : ∀ p ∈ piecesApart options a b, p.range.Avoids (Text.bytes a.toList) := by
  intro p hp
  rcases List.mem_append.mp hp with hp | hp
  · have hstop := (Reading.pieces_between _ 0 a.toList p hp).stop
    rw [Nat.zero_add] at hstop
    exact .inr hstop
  · obtain ⟨q, -, rfl⟩ := List.mem_map.mp hp
    left
    simp only [Piece.shifted, Range.shifted_nat, joinBytes]
    omega

/-- No statement goes over the blank line when the texts are read apart. -/
theorem not_isolates (hopen : ¬Token.OpenComment (tokenize a))
    (h : Straddles (joinedSource options a b) (lexemes a) ((lexemesBehindBlank b).map (·.shifted (joinBytes a)))) :
    ¬Isolates options a b := by
  intro hisolates
  -- A piece goes over the end of the first text.
  have hpiece : ∃ p ∈ Reading.pieces (joinedSource options a b) (tokenize (joined a b)),
      ¬p.range.Avoids (Text.bytes a.toList) := by
    obtain ⟨i, hi, ⟨l, hl, hstart⟩, x, hx, hstop⟩ := h
    obtain ⟨y, hy, rfl⟩ := List.mem_map.mp hx
    rw [← lexemes_joined hopen b] at hi
    obtain ⟨-, h₂, h₃⟩ : l.token.range.Between 0 (0 + Text.bytes a.toList) := Reading.lexemes_between hl
    obtain ⟨h₄, h₅, -⟩ : y.token.range.Between 0 (0 + Text.bytes b.toList) := Reading.lexemes_between hy
    refine Reading.exists_over (r := i.range) ⟨by omega, ?_⟩ (.inl ⟨i, hi, rfl⟩)
    have hshifted : (y.shifted (joinBytes a)).token.range.stop = y.token.range.stop + joinBytes a := by
      simp [Lexeme.shifted, Token.shifted, Range.shifted_nat]
    rw [hshifted, joinBytes] at hstop
    omega
  obtain ⟨p, hp, hover⟩ := hpiece
  apply hover
  -- Read apart, the pieces lie in front of the blank line or behind it.
  rw [isolates_iff_pieces, reading_ofText] at hisolates
  have hranges := congrArg (fun r : Reading => r.segments.map (·.range)) hisolates
  simp only [Reading.segments_ranges] at hranges
  have hmem : p.range ∈ (piecesApart options a b).map (·.range) := hranges ▸ List.mem_map_of_mem hp
  obtain ⟨q, hq, hrange⟩ := List.mem_map.mp hmem
  rw [← hrange]
  exact piecesApart_avoid q hq

theorem isolates_iff_not_leaks (hopen : ¬Token.OpenComment (tokenize a)) (hb : lexemes b = l :: ls)
    (hstarts : l.token.kind.startsExpression = true) : Isolates options a b ↔ ¬Leaks options a b := by
  rcases statements_joined hopen hb hstarts with ⟨hapart, hcalm⟩ | ⟨hover, hleaks⟩
  · refine iff_of_true (isolates_iff_pieces.mpr ?_) hcalm
    rw [reading_ofText]
    exact congrArg _ (pieces_joined hopen hapart)
  · exact iff_of_false (not_isolates hopen hover) (not_not_intro hleaks)

theorem startsWith_of_cons (hb : lexemes b = l :: ls) (p : Token.Kind → Bool) : startsWith p b = p l.token.kind := by
  simp [startsWith, hb]

/-- What the second reading sees behind the seam. -/
theorem blankSeam_rest (options : Options) (a : String) (hb : lexemes b = l :: ls) :
    ∃ x xs, (blankSeam options a b).rest₂ = x :: xs ∧
    x.token.kind = l.token.kind ∧ x.afterBlank = true := by
  refine ⟨Lexeme.shifted (joinBytes a) { l with afterBlank := true }, ls.map (·.shifted (joinBytes a)), ?_, rfl, rfl⟩
  unfold blankSeam
  rw [lexemesBehindBlank_of_cons hb]
  rfl

theorem openCall_iff (hb : lexemes b = l :: ls) : (blankSeam options a b).OpenCall ↔
    ∃ pre word, lexemes a = pre ++ [word] ∧ word.token.kind = .identifier ∧ startsWith (· == .leftParen) b = true := by
  obtain ⟨x, xs, hrest, hkind, -⟩ := blankSeam_rest options a hb
  unfold Seam.OpenCall
  rw [hrest, startsWith_of_cons hb, ← hkind]
  constructor
  · rintro ⟨⟨pre, word, ha, hword⟩, -, hparen⟩
    exact ⟨pre, word, ha, hword, by simpa [Seam.startsWith] using hparen⟩
  · rintro ⟨pre, word, ha, hword, hparen⟩
    exact ⟨⟨pre, word, ha, hword⟩, rfl, by simpa [Seam.startsWith] using hparen⟩

theorem openReference_iff (hb : lexemes b = l :: ls) (hstarts : l.token.kind.startsExpression = true)
    (v : List Lexeme) : (blankSeam options a b).OpenReference v ↔
      ∃ dot, v = [dot] ∧ dot.token.kind = .dot ∧ startsWith (· == .field) b = true := by
  obtain ⟨x, xs, hrest, hkind, -⟩ := blankSeam_rest options a hb
  have hdot : x.token.kind ≠ .dot := by
    rintro hdot
    rw [← hkind, hdot] at hstarts
    cases hstarts
  unfold Seam.OpenReference
  rw [blankSeam_shifted, hrest, startsWith_of_cons hb, ← hkind]
  constructor
  · rintro ⟨hone, hboth⟩
    match v, hone, hboth with
    | [], _, hboth =>
      cases xs <;> simp [Seam.qualifies, hdot] at hboth
    | [dot], _, hboth => exact ⟨dot, rfl, by simpa [Seam.qualifies] using hboth⟩
    | dot :: field :: v, hone, hboth =>
      exact absurd (hone.symm.trans hboth) (by simp)
  · rintro ⟨dot, rfl, hk, hfield⟩
    exact ⟨rfl, by simpa [Seam.qualifies, hk] using hfield⟩

theorem openRun_iff (hb : lexemes b = l :: ls) (hstarts : l.token.kind.startsExpression = true) (first : Lexeme)
    (more : List Lexeme) : (blankSeam options a b).OpenRun first more ↔
      ∃ n, openBehind? ((balanceBehind? 0 first.token.kind).getD 0) more = some n ∧
        (0 < n ∨ startsWith opensRun b = true) := by
  obtain ⟨x, xs, hrest, hkind, hblank⟩ := blankSeam_rest options a hb
  have hpos := fun n => runLength_pos n xs hblank (hkind ▸ hstarts)
  unfold Seam.OpenRun
  rw [blankSeam_shifted, hrest, startsWith_of_cons hb, ← hkind]
  change runLength _ (more ++ []) = _ ∧ _ ↔ _
  rw [List.append_nil]
  constructor
  · rintro ⟨hone, hboth⟩
    obtain ⟨n, hn⟩ := exists_openBehind hone
    rw [runLength_append hn] at hboth
    exact ⟨n, hn, (hpos n).mp (by omega)⟩
  · rintro ⟨n, hn, hgoes⟩
    have hone := runLength_append hn []
    rw [List.append_nil, runLength, Nat.add_zero] at hone
    have hlt := (hpos n).mpr hgoes
    rw [runLength_append hn]
    exact ⟨hone, by omega⟩

/-- A text leaks over a blank line through a run that is nested too deep or through an oversight. -/
theorem leaks_iff (hb : lexemes b = l :: ls) (hstarts : l.token.kind.startsExpression = true) :
    Leaks options a b ↔ (∃ n, 0 < n ∧ EndsInRun options a n) ∨ Oversight options a b := by
  unfold Leaks
  rw [openCall_iff hb]
  constructor
  · rintro (⟨pre, word, ha, hword, hparen⟩ | ⟨d, hd, e, pre, first, more, he, hcode, ha, hstart, hrun⟩ |
      ⟨s, hs, hkind, hcomplete, pre, field, v, ha, hrange, hreference⟩)
    · exact .inr (.call pre word ha hword hparen)
    · cases he
      obtain ⟨n, hn, hgoes⟩ := (openRun_iff hb hstarts first more).mp hrun
      have hends : EndsInRun options a n := ⟨pre, first, more, d, ha, hn, hd, hcode, hstart⟩
      rcases Nat.eq_zero_or_pos n with rfl | hpos
      · exact .inr (.run hends (hgoes.resolve_left (Nat.lt_irrefl 0)))
      · exact .inl ⟨n, hpos, hends⟩
    · obtain ⟨dot, rfl, hdot, hfield⟩ := (openReference_iff hb hstarts v).mp hreference
      exact .inr (.reference pre field dot s ha hdot hs hkind hcomplete hrange hfield)
  · have hmarks : ∀ n, EndsInRun options a n → (0 < n ∨ startsWith opensRun b = true) →
        ∃ d ∈ (ofText options a).faults, (blankSeam options a b).MarksEvent (.fault d) := by
      rintro n ⟨pre, first, more, d, ha, hn, hd, hcode, hstart⟩ hgoes
      exact ⟨d, hd, d, pre, first, more, rfl, hcode, ha, hstart, (openRun_iff hb hstarts first more).mpr ⟨n, hn, hgoes⟩⟩
    rintro (⟨n, hpos, hends⟩ | hoversight)
    · exact .inr (.inl (hmarks n hends (.inl hpos)))
    · cases hoversight with
      | call pre word ha hword hparen => exact .inl ⟨pre, word, ha, hword, hparen⟩
      | reference pre field dot s ha hdot hs hkind hcomplete hrange hfield =>
        refine .inr (.inr ⟨s, hs, hkind, hcomplete, pre, field, [dot], ha, hrange, ?_⟩)
        exact (openReference_iff hb hstarts [dot]).mpr ⟨dot, rfl, hdot, hfield⟩
      | run hends hgoes => exact .inr (.inl (hmarks 0 hends (.inr hgoes)))

/-- A blank line isolates what stands in front of it from a statement behind it, unless a run that is nested too
deep ends with brackets or blocks open: such a run goes on over the blank line. -/
theorem blank_line_isolates (hopen : ¬Token.OpenComment (tokenize a))
    (hstarts : startsWith Token.Kind.startsExpression b = true) (hoversight : ¬Oversight options a b) :
    Isolates options a b ↔ ¬∃ n, 0 < n ∧ EndsInRun options a n := by
  obtain ⟨l, hl, hkind⟩ : ∃ l, (lexemes b).head? = some l ∧ l.token.kind.startsExpression = true := by
    simpa [startsWith, Option.any_eq_true] using hstarts
  obtain ⟨ls, hb⟩ := List.head?_eq_some_iff.mp hl
  rw [isolates_iff_not_leaks hopen hb hkind, leaks_iff hb hkind, or_iff_left hoversight]

/-- For instance a call that is not closed leaves the statement behind the blank line alone. -/
theorem open_call_isolated : Isolates .default "SUM([A]" "1 + 2" := by
  have hopen : ¬Token.OpenComment (tokenize "SUM([A]") := by
    unfold Token.OpenComment
    decide +kernel
  have hparen : startsWith (· == .leftParen) "1 + 2" = false := by decide +kernel
  have hfield : startsWith (· == .field) "1 + 2" = false := by decide +kernel
  have hopens : startsWith opensRun "1 + 2" = false := by decide +kernel
  have hoversight : ¬Oversight .default "SUM([A]" "1 + 2" := by
    intro h
    cases h with
    | call _ _ _ _ hb => simp [hparen] at hb
    | reference _ _ _ _ _ _ _ _ _ _ hb => simp [hfield] at hb
    | run _ hb => simp [hopens] at hb
  have hshallow : ∀ d ∈ (ofText .default "SUM([A]").faults, d.code ≠ .tooDeep := by decide +kernel
  refine (blank_line_isolates hopen (by decide +kernel) hoversight).mpr ?_
  rintro ⟨n, -, -, -, -, d, -, -, hd, hcode, -⟩
  exact hshallow d hd hcode

/-- One level of nesting is too little for the parentheses, and the run that starts with the second one takes the
field behind the blank line. -/
theorem open_run_not_isolated : ¬Token.OpenComment (tokenize "((1") ∧
    startsWith Token.Kind.startsExpression "[B]" = true ∧ ¬Isolates ⟨.builtin, 1⟩ "((1" "[B]" := by
  refine ⟨?_, by decide +kernel, by decide +kernel⟩
  unfold Token.OpenComment
  decide +kernel

end Calculation.Outline
