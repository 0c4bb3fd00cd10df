import Mathlib.Data.List.Basic
import Mathlib.Data.List.Infix
import Calculation.Proofs.Token.Cutting

namespace Calculation.Token

/-- The inside of delimited text: characters of the line, and closing delimiters in pairs. -/
inductive Doubled (close : Char) : List Char → Prop
  | nil : Doubled close []
  | other {c : Char} {cs : List Char} (hc : c ≠ close) (hline : Scan.isLineEnd c = false) (h : Doubled close cs) :
    Doubled close (c :: cs)
  | pair {cs : List Char} (h : Doubled close cs) : Doubled close (close :: close :: cs)

/-- What is left starts with the end of the line, or nothing is left. -/
def EndsLine (rest : List Char) : Prop :=
  ∀ c ∈ rest.head?, Scan.isLineEnd c = true

def IsDigits (ds : List Char) : Prop :=
  ds ≠ [] ∧ ∀ c ∈ ds, c.isDigit = true

inductive IsFraction : List Char → Prop
  | absent : IsFraction []
  | point {ds : List Char} (h : IsDigits ds) : IsFraction ('.' :: ds)

inductive IsExponent : List Char → Prop
  | absent : IsExponent []
  | mark {e : Char} {sign ds : List Char} (he : e = 'e' ∨ e = 'E') (hsign : sign = [] ∨ sign = ['+'] ∨ sign = ['-'])
    (h : IsDigits ds) : IsExponent (e :: (sign ++ ds))

inductive IsMantissa : List Char → Prop
  | whole {ds fs : List Char} (hd : IsDigits ds) (hf : IsFraction fs) : IsMantissa (ds ++ fs)
  | point {ds : List Char} (h : IsDigits ds) : IsMantissa ('.' :: ds)

inductive IsNumber : List Char → Prop
  | intro {ms es : List Char} (hm : IsMantissa ms) (he : IsExponent es) : IsNumber (ms ++ es)

/-- The delimiters of a kind of token. -/
inductive Delimits : Kind → Char → Char → Prop
  | double : Delimits .string '"' '"'
  | single : Delimits .string '\'' '\''
  | bracket : Delimits .field '[' ']'

/-- An operator is called by its own text in quotes; two of the words can be written as signs too. -/
inductive IsOperator : Kind → List Char → Prop
  | sign {k : Kind} {text : List Char} (h : k.displayName.toList = '\'' :: (text ++ ['\''])) : IsOperator k text
  | and : IsOperator .and_ ['&', '&']
  | or : IsOperator .or_ ['|', '|']

/-- A keyword is called by its own letters. -/
structure IsKeyword (k : Kind) (text : List Char) : Prop where
  kind : k.isKeyword = true
  spelt : text.map Scan.fold = k.displayName.toList.map Char.toLower

/-- `Takes k text rest isOpen` says that `text` is a spelling of a token of kind `k` in front of `rest`; it is open
when its closing delimiter is missing. -/
inductive Takes : Kind → List Char → List Char → Bool → Prop
  | whitespace {text rest : List Char} (hne : text ≠ []) (h : ∀ c ∈ text, Scan.isSpace c = true) :
    Takes .whitespace text rest false
  | lineComment {body rest : List Char} (h : '\n' ∉ body) : Takes .lineComment ('/' :: '/' :: body) rest false
  | blockComment {body rest : List Char} (h : ¬['*', '/'] <:+: body ++ ['*']) :
    Takes .blockComment ('/' :: '*' :: (body ++ ['*', '/'])) rest false
  | openComment {body : List Char} (h : ¬['*', '/'] <:+: body) : Takes .blockComment ('/' :: '*' :: body) [] true
  | delimited {k : Kind} {opener close : Char} {body rest : List Char} (hd : Delimits k opener close)
    (h : Doubled close body) (hrest : rest.head? ≠ some close) : Takes k (opener :: (body ++ [close])) rest false
  | openDelimited {k : Kind} {opener close : Char} {body rest : List Char} (hd : Delimits k opener close)
    (h : Doubled close body) (hrest : EndsLine rest) : Takes k (opener :: body) rest true
  | date {body rest : List Char} (h : ∀ c ∈ body, c ≠ '#' ∧ Scan.isLineEnd c = false) :
    Takes .date ('#' :: (body ++ ['#'])) rest false
  | openDate {body rest : List Char} (h : ∀ c ∈ body, c ≠ '#' ∧ Scan.isLineEnd c = false) (hrest : EndsLine rest) :
    Takes .date ('#' :: body) rest true
  | identifier {c : Char} {cs rest : List Char} (hc : Scan.isNameStart c = true)
    (h : ∀ d ∈ cs, Scan.isNameRest d = true) : Takes .identifier (c :: cs) rest false
  | number {text rest : List Char} (h : IsNumber text) : Takes .number text rest false
  | keyword {k : Kind} {text rest : List Char} (h : IsKeyword k text) : Takes k text rest false
  | operator {k : Kind} {text rest : List Char} (h : IsOperator k text) : Takes k text rest false

variable {k : Kind} {text rest body : List Char} {close : Char} {isOpen : Bool}

/-- A run of characters is taken whole, and what follows may go on with it. -/
theorem length_takeWhile_append {p : Char → Bool} (h : ∀ c ∈ text, p c = true) (rest : List Char) :
    ((text ++ rest).takeWhile p).length = text.length + (rest.takeWhile p).length := by
  rw [List.takeWhile_append_of_pos h, List.length_append]

theorem exists_takeWhile (p : Char → Bool) (cs : List Char) : ∃ text rest, cs = text ++ rest ∧
    text.length = (cs.takeWhile p).length ∧ ∀ c ∈ text, p c = true :=
  ⟨_, _, (List.takeWhile_append_dropWhile (p := p)).symm, rfl, fun _ => Scan.mem_takeWhile⟩

theorem throughStarSlash_append (h : ¬['*', '/'] <:+: body ++ ['*']) (rest : List Char) :
    Scan.throughStarSlash (body ++ '*' :: '/' :: rest) = ⟨body.length + 2, false⟩ := by
  induction body with
  | nil => rfl
  | cons c body ih =>
    rw [List.cons_append, List.infix_cons_iff, not_or] at h
    have hstep := ih h.2
    cases body with
    | nil =>
      simp only [List.cons_append, List.nil_append] at hstep ⊢
      rw [Scan.throughStarSlash, if_neg (by simp), hstep]
      rfl
    | cons d body =>
      have hno : ¬(c = '*' ∧ d = '/') := by
        rintro ⟨rfl, rfl⟩
        exact h.1 ⟨body ++ ['*'], rfl⟩
      simp only [List.cons_append] at hstep ⊢
      rw [Scan.throughStarSlash, if_neg hno, hstep]
      simp only [Match.after, List.length_cons, Match.mk.injEq, and_true]
      omega

theorem throughStarSlash_eq_open (h : ¬['*', '/'] <:+: body) : Scan.throughStarSlash body = ⟨body.length, true⟩ := by
  induction body with
  | nil => rfl
  | cons c body ih =>
    rw [List.infix_cons_iff, not_or] at h
    have hstep := ih h.2
    cases body with
    | nil => rfl
    | cons d body =>
      have hno : ¬(c = '*' ∧ d = '/') := by
        rintro ⟨rfl, rfl⟩
        exact h.1 ⟨body, rfl⟩
      rw [Scan.throughStarSlash, if_neg hno, hstep]
      simp [Match.after, Nat.add_comm]

/-- A comment ends behind the first star that a slash follows, or nowhere. -/
theorem throughStarSlash_cases (cs : List Char) : ¬['*', '/'] <:+: cs ∨
    ∃ body rest, cs = body ++ '*' :: '/' :: rest ∧ ¬['*', '/'] <:+: body ++ ['*'] := by
  induction cs with
  | nil => exact .inl (by simp)
  | cons c cs ih =>
    by_cases hhere : ['*', '/'] <+: c :: cs
    · obtain ⟨rest, hrest⟩ := hhere
      exact .inr ⟨[], rest, hrest.symm, by decide⟩
    · rcases ih with hno | ⟨body, rest, rfl, hno⟩
      · exact .inl fun h => (List.infix_cons_iff.mp h).elim hhere hno
      · refine .inr ⟨c :: body, rest, rfl, fun h => ?_⟩
        rw [List.cons_append, List.infix_cons_iff] at h
        refine h.elim (fun hp => hhere ?_) hno
        refine hp.trans ?_
        rw [List.cons_prefix_cons]
        exact ⟨rfl, ⟨'/' :: rest, by simp⟩⟩

theorem throughClose_append (hclose : Scan.isLineEnd close = false) (h : Doubled close body)
    (hrest : rest.head? ≠ some close) :
    Scan.throughClose close (body ++ close :: rest) = ⟨body.length + 1, false⟩ := by
  induction h with
  | nil =>
    cases rest with
    | nil => simp [Scan.throughClose, hclose]
    | cons d rest =>
      have hd : d ≠ close := fun heq => hrest (by rw [heq]; rfl)
      simp [Scan.throughClose, hclose, hd]
  | @other c cs hc hline _ ih =>
    obtain ⟨d, ds, hds⟩ := List.exists_cons_of_ne_nil (show cs ++ close :: rest ≠ [] by simp)
    rw [List.cons_append, hds, Scan.throughClose, if_neg (by simp [hline]), if_neg hc, ← hds, ih]
    simp [Match.after, Nat.add_comm]
  | @pair cs _ ih =>
    rw [List.cons_append, List.cons_append, Scan.throughClose, if_neg (by simp [hclose]), if_pos rfl, if_pos rfl, ih]
    simp only [Match.after, List.length_cons, Match.mk.injEq, and_true]
    omega

theorem throughClose_eq_open (hclose : Scan.isLineEnd close = false) (h : Doubled close body)
    (hrest : EndsLine rest) : Scan.throughClose close (body ++ rest) = ⟨body.length, true⟩ := by
  induction h with
  | nil =>
    match rest, hrest with
    | [], _ => rfl
    | [c], hrest => simp [Scan.throughClose, hrest c rfl]
    | c :: d :: rest, hrest => simp [Scan.throughClose, hrest c rfl]
  | @other c cs hc hline _ ih =>
    cases hds : cs ++ rest with
    | nil =>
      obtain ⟨rfl, rfl⟩ := List.append_eq_nil_iff.mp hds
      simp [Scan.throughClose, hline, hc]
    | cons d ds =>
      rw [List.cons_append, hds, Scan.throughClose, if_neg (by simp [hline]), if_neg hc, ← hds, ih]
      simp [Match.after, Nat.add_comm]
  | @pair cs _ ih =>
    rw [List.cons_append, List.cons_append, Scan.throughClose, if_neg (by simp [hclose]), if_pos rfl, if_pos rfl, ih]
    simp only [Match.after, List.length_cons, Match.mk.injEq, and_true]
    omega

/-- Behind an opening delimiter the closing one comes first, or the end of the line. -/
theorem throughClose_cases (close : Char) (cs : List Char) : ∃ body rest, Doubled close body ∧
    (cs = body ++ rest ∧ EndsLine rest ∨ cs = body ++ close :: rest ∧ rest.head? ≠ some close) := by
  induction hn : cs.length using Nat.strongRecOn generalizing cs with
  | _ n ih =>
    match cs, hn with
    | [], _ => exact ⟨[], [], .nil, .inl ⟨rfl, by simp [EndsLine]⟩⟩
    | c :: cs, hn =>
      have hlen : cs.length < n := by rw [← hn, List.length_cons]; omega
      by_cases hline : Scan.isLineEnd c = true
      · exact ⟨[], c :: cs, .nil, .inl ⟨rfl, by simpa [EndsLine] using hline⟩⟩
      · by_cases hc : c = close
        · subst hc
          by_cases hdouble : cs.head? = some c
          · obtain ⟨ds, rfl⟩ := List.head?_eq_some_iff.mp hdouble
            obtain ⟨body, rest, hbody, h⟩ := ih ds.length (by rw [List.length_cons] at hlen; omega) ds rfl
            refine ⟨c :: c :: body, rest, .pair hbody, h.imp ?_ ?_⟩
            · exact fun ⟨hds, hrest⟩ => ⟨by rw [hds]; rfl, hrest⟩
            · exact fun ⟨hds, hrest⟩ => ⟨by rw [hds]; rfl, hrest⟩
          · exact ⟨[], cs, .nil, .inr ⟨rfl, hdouble⟩⟩
        · obtain ⟨body, rest, hbody, h⟩ := ih cs.length hlen cs rfl
          refine ⟨c :: body, rest, .other hc (Bool.eq_false_iff.mpr hline) hbody, h.imp ?_ ?_⟩
          · exact fun ⟨hds, hrest⟩ => ⟨by rw [hds]; rfl, hrest⟩
          · exact fun ⟨hds, hrest⟩ => ⟨by rw [hds]; rfl, hrest⟩

theorem throughNumberSign_append (h : ∀ c ∈ body, c ≠ '#' ∧ Scan.isLineEnd c = false) (rest : List Char) :
    Scan.throughNumberSign (body ++ '#' :: rest) = ⟨body.length + 1, false⟩ := by
  induction body with
  | nil => rfl
  | cons c body ih =>
    obtain ⟨⟨hc, hline⟩, hbody⟩ := List.forall_mem_cons.mp h
    rw [List.cons_append, Scan.throughNumberSign, if_neg (by simp [hline]), if_neg hc, ih hbody]
    simp [Match.after, Nat.add_comm]

theorem throughNumberSign_eq_open (h : ∀ c ∈ body, c ≠ '#' ∧ Scan.isLineEnd c = false) (hrest : EndsLine rest) :
    Scan.throughNumberSign (body ++ rest) = ⟨body.length, true⟩ := by
  induction body with
  | nil =>
    cases rest with
    | nil => rfl
    | cons c rest => simp [Scan.throughNumberSign, hrest c rfl]
  | cons c body ih =>
    obtain ⟨⟨hc, hline⟩, hbody⟩ := List.forall_mem_cons.mp h
    rw [List.cons_append, Scan.throughNumberSign, if_neg (by simp [hline]), if_neg hc, ih hbody]
    simp [Match.after, Nat.add_comm]

theorem throughNumberSign_cases (cs : List Char) : ∃ body rest, (∀ c ∈ body, c ≠ '#' ∧ Scan.isLineEnd c = false) ∧
    (cs = body ++ rest ∧ EndsLine rest ∨ cs = body ++ '#' :: rest) := by
  induction cs with
  | nil => exact ⟨[], [], by simp, .inl ⟨rfl, by simp [EndsLine]⟩⟩
  | cons c cs ih =>
    by_cases hline : Scan.isLineEnd c = true
    · exact ⟨[], c :: cs, by simp, .inl ⟨rfl, by simpa [EndsLine] using hline⟩⟩
    · by_cases hc : c = '#'
      · exact ⟨[], cs, by simp, .inr (by rw [hc]; rfl)⟩
      · obtain ⟨body, rest, hbody, h⟩ := ih
        refine ⟨c :: body, rest, List.forall_mem_cons.mpr ⟨⟨hc, Bool.eq_false_iff.mpr hline⟩, hbody⟩, h.imp ?_ ?_⟩
        · exact fun ⟨hcs, hrest⟩ => ⟨by rw [hcs]; rfl, hrest⟩
        · exact fun hcs => by rw [hcs]; rfl

theorem IsDigits.digits_append {ds : List Char} (h : IsDigits ds) (rest : List Char) :
    Scan.digits (ds ++ rest) = ds.length + Scan.digits rest ∧ Scan.digits (ds ++ rest) ≠ 0 := by
  have hlen : Scan.digits (ds ++ rest) = ds.length + Scan.digits rest := length_takeWhile_append h.2 rest
  have hpos := List.length_pos_iff.mpr h.1
  exact ⟨hlen, by omega⟩

theorem fraction_point {ds : List Char} (h : IsDigits ds) (rest : List Char) :
    Scan.fraction ('.' :: ds ++ rest) = ('.' :: ds).length + Scan.digits rest := by
  obtain ⟨hlen, hne⟩ := h.digits_append rest
  rw [List.cons_append, Scan.fraction, if_neg hne, hlen, List.length_cons]
  omega

theorem digits_point (cs : List Char) : Scan.digits ('.' :: cs) = 0 := rfl

theorem IsMantissa.length_le (h : IsMantissa text) (rest : List Char) :
    text.length ≤ Scan.mantissa (text ++ rest) := by
  cases h with
  | @whole ds fs hd hf =>
    have hdigits := (hd.digits_append (fs ++ rest)).1
    cases hf with
    | absent =>
      simp only [List.append_nil, List.nil_append, Scan.mantissa] at hdigits ⊢
      omega
    | @point gs hg =>
      rw [List.append_assoc, Scan.mantissa, hdigits, List.cons_append, digits_point, Nat.add_zero, List.drop_left,
        ← List.cons_append, fraction_point hg, List.length_append]
      omega
  | point hd =>
    rw [Scan.mantissa, List.cons_append, digits_point, List.drop_zero, ← List.cons_append, fraction_point hd]
    omega

/-- Where neither digits nor a fraction go on, the mantissa ends. -/
theorem IsMantissa.mantissa_append (h : IsMantissa text) (hdigits : Scan.digits rest = 0)
    (hfraction : Scan.fraction rest = 0) : Scan.mantissa (text ++ rest) = text.length := by
  cases h with
  | @whole ds fs hd hf =>
    cases hf with
    | absent =>
      rw [List.append_nil, Scan.mantissa, (hd.digits_append rest).1, hdigits, Nat.add_zero, List.drop_left, hfraction,
        Nat.add_zero]
    | @point gs hg =>
      rw [List.append_assoc, Scan.mantissa, (hd.digits_append _).1, List.cons_append, digits_point, Nat.add_zero,
        List.drop_left, ← List.cons_append, fraction_point hg, hdigits, List.length_append, Nat.add_zero]
  | point hd =>
    rw [Scan.mantissa, List.cons_append, digits_point, List.drop_zero, ← List.cons_append, fraction_point hd, hdigits,
      Nat.zero_add, Nat.add_zero]

theorem signLength_append {sign ds : List Char} (hsign : sign = [] ∨ sign = ['+'] ∨ sign = ['-']) (h : IsDigits ds)
    (rest : List Char) : Scan.signLength (sign ++ ds ++ rest) = sign.length := by
  rcases hsign with rfl | rfl | rfl
  · obtain ⟨d, ds, rfl⟩ := List.exists_cons_of_ne_nil h.1
    have hd := h.2 d List.mem_cons_self
    have hplus : d ≠ '+' := fun heq => absurd (heq ▸ hd) (by decide)
    have hminus : d ≠ '-' := fun heq => absurd (heq ▸ hd) (by decide)
    simp [Scan.signLength, hplus, hminus]
  · rfl
  · rfl

theorem IsExponent.length_le (h : IsExponent text) (rest : List Char) :
    text.length ≤ Scan.exponent (text ++ rest) := by
  cases h with
  | absent => exact Nat.zero_le _
  | @mark e sign ds he hsign hd =>
    obtain ⟨hlen, hne⟩ := hd.digits_append rest
    rw [List.cons_append, Scan.exponent_cons, if_pos he, signLength_append hsign hd, List.append_assoc,
      List.drop_left, if_neg hne, hlen, List.length_cons, List.length_append]
    omega

/-- An exponent is nothing that digits or a fraction could go on with. -/
theorem IsExponent.stops (h : IsExponent text) (hne : text ≠ []) (rest : List Char) :
    Scan.digits (text ++ rest) = 0 ∧ Scan.fraction (text ++ rest) = 0 := by
  cases h with
  | absent => exact absurd rfl hne
  | mark he => rcases he with rfl | rfl <;> exact ⟨rfl, rfl⟩

theorem IsNumber.found (h : IsNumber text) (rest : List Char) :
    ∃ m, Scan.number (text ++ rest) = some m ∧ text.length ≤ m.size := by
  obtain ⟨hm, he⟩ := h
  rename_i ms es
  have hpos : ms.length ≠ 0 := by
    cases hm with
    | whole hd =>
      have := List.length_pos_iff.mpr hd.1
      rw [List.length_append]
      omega
    | point => simp
  have hle := hm.length_le (es ++ rest)
  rw [List.append_assoc, Scan.number_eq, if_neg (by omega)]
  refine ⟨_, rfl, ?_⟩
  by_cases hes : es = []
  · subst hes
    rw [List.append_nil]
    exact Nat.le_trans hle (Nat.le_add_right _ _)
  · obtain ⟨hdigits, hfraction⟩ := he.stops hes rest
    rw [hm.mantissa_append hdigits hfraction, List.drop_left, List.length_append]
    exact Nat.add_le_add_left (he.length_le rest) _

theorem exists_fraction (cs : List Char) : ∃ fs rest, cs = fs ++ rest ∧ fs.length = Scan.fraction cs ∧
    IsFraction fs := by
  unfold Scan.fraction
  split
  · rename_i cs
    obtain ⟨ds, rest, hcs, hlen, hds⟩ := exists_takeWhile Char.isDigit cs
    split
    · exact ⟨[], '.' :: cs, rfl, rfl, .absent⟩
    · rename_i hne
      have hdigits : ds ≠ [] := List.length_pos_iff.mp (hlen ▸ Nat.pos_of_ne_zero hne)
      refine ⟨'.' :: ds, rest, by rw [List.cons_append, ← hcs], ?_, .point ⟨hdigits, hds⟩⟩
      rw [List.length_cons, hlen, Nat.add_comm]
      rfl
  · exact ⟨[], cs, rfl, rfl, .absent⟩

theorem exists_mantissa {cs : List Char} (h : Scan.mantissa cs ≠ 0) : ∃ ms rest, cs = ms ++ rest ∧
    ms.length = Scan.mantissa cs ∧ IsMantissa ms := by
  obtain ⟨ds, rest, rfl, hlen, hds⟩ := exists_takeWhile Char.isDigit cs
  change ds.length = Scan.digits (ds ++ rest) at hlen
  obtain ⟨fs, rest, rfl, hfraction, hfs⟩ := exists_fraction rest
  refine ⟨ds ++ fs, rest, (List.append_assoc _ _ _).symm, ?_, ?_⟩
  · rw [Scan.mantissa, ← hlen, List.drop_left, ← hfraction, List.length_append]
  · rw [Scan.mantissa, ← hlen, List.drop_left, ← hfraction] at h
    cases ds with
    | nil =>
      cases hfs with
      | absent => exact absurd rfl h
      | point hg => exact .point hg
    | cons d ds => exact .whole ⟨List.cons_ne_nil d ds, hds⟩ hfs

theorem exists_exponent (cs : List Char) : ∃ es rest, cs = es ++ rest ∧ es.length = Scan.exponent cs ∧
    IsExponent es := by
  cases cs with
  | nil => exact ⟨[], [], rfl, rfl, .absent⟩
  | cons e cs =>
    rw [Scan.exponent_cons]
    split
    · rename_i he
      split
      · exact ⟨[], e :: cs, rfl, rfl, .absent⟩
      · rename_i hne
        obtain ⟨sign, behind, rfl, hsign⟩ : ∃ sign behind, cs = sign ++ behind ∧ sign.length = Scan.signLength cs ∧
            (sign = [] ∨ sign = ['+'] ∨ sign = ['-']) := by
          cases cs with
          | nil => exact ⟨[], [], rfl, rfl, .inl rfl⟩
          | cons s cs =>
            by_cases hs : s = '+' ∨ s = '-'
            · refine ⟨[s], cs, rfl, ?_, ?_⟩
              · rcases hs with rfl | rfl <;> rfl
              · rcases hs with rfl | rfl <;> simp
            · rw [not_or] at hs
              exact ⟨[], s :: cs, rfl, by simp [Scan.signLength, hs.1, hs.2], .inl rfl⟩
        rw [← hsign.1, List.drop_left] at hne ⊢
        obtain ⟨ds, rest, rfl, hlen, hds⟩ := exists_takeWhile Char.isDigit behind
        change ds.length = Scan.digits (ds ++ rest) at hlen
        have hdigits : ds ≠ [] := List.length_pos_iff.mp (hlen ▸ Nat.pos_of_ne_zero hne)
        refine ⟨e :: (sign ++ ds), rest, by simp, ?_, .mark he hsign.2 ⟨hdigits, hds⟩⟩
        rw [List.length_cons, List.length_append, hlen]
        omega
    · exact ⟨[], e :: cs, rfl, rfl, .absent⟩

theorem isNumber_of_number {cs : List Char} {m : Match} (h : Scan.number cs = some m) : ∃ text rest,
    cs = text ++ rest ∧ text.length = m.size ∧ m.isOpen = false ∧ IsNumber text := by
  rw [Scan.number_eq] at h
  split at h
  · cases h
  · rename_i hne
    cases h
    obtain ⟨ms, rest, rfl, hlen, hm⟩ := exists_mantissa hne
    obtain ⟨es, rest, rfl, hexponent, he⟩ := exists_exponent rest
    refine ⟨ms ++ es, rest, (List.append_assoc _ _ _).symm, ?_, rfl, .intro hm he⟩
    rw [← hlen, List.drop_left, ← hexponent, List.length_append]

section Word

variable {word : String} {g : List Char → List Char} {m : Match}

/-- A rule for a word takes what `g` turns into the word. -/
theorem word_found (hg : ∀ cs, (g cs).length = cs.length) (hne : text ≠ []) (h : g text = word.toList)
    (rest : List Char) :
    (if g ((text ++ rest).take word.length) = word.toList then Match.whole? word.length else none) =
      some ⟨text.length, false⟩ := by
  have hlen : word.length = text.length := by rw [← String.length_toList, ← h, hg]
  have hpos : text.length ≠ 0 := fun hz => hne (List.length_eq_zero_iff.mp hz)
  rw [hlen, List.take_left, if_pos h, Match.whole?, if_neg hpos]

theorem exists_word {cs : List Char} (hg : ∀ cs, (g cs).length = cs.length)
    (h : (if g (cs.take word.length) = word.toList then Match.whole? word.length else none) = some m) :
    ∃ text rest, cs = text ++ rest ∧ text.length = m.size ∧ m.isOpen = false ∧ g text = word.toList := by
  split at h
  · rename_i hword
    obtain ⟨rfl, -⟩ := Scan.whole?_eq_some h
    refine ⟨_, _, (List.take_append_drop word.length cs).symm, ?_, rfl, hword⟩
    rw [← hg, hword, String.length_toList]
  · cases h

end Word

theorem mem_keywords (h : k.isKeyword = true) :
    ⟨k, Scan.keyword (.ofList (k.displayName.toList.map Char.toLower))⟩ ∈ Rule.keywords := by
  refine List.mem_map.mpr ⟨(.ofList (k.displayName.toList.map Char.toLower), k), ?_, rfl⟩
  revert h
  cases k <;> decide

theorem exists_keyword {r : Rule} (hr : r ∈ Rule.keywords) : r.kind.isKeyword = true ∧
    r.scan = Scan.keyword (.ofList (r.kind.displayName.toList.map Char.toLower)) := by
  obtain ⟨⟨w, k⟩, hmem, rfl⟩ := List.mem_map.mp hr
  have hnamed := (List.all_eq_true (p := fun p : String × Kind =>
    p.2.isKeyword && p.1 == .ofList (p.2.displayName.toList.map Char.toLower))).mp (by decide) _ hmem
  rw [Bool.and_eq_true, beq_iff_eq] at hnamed
  exact ⟨hnamed.1, congrArg Scan.keyword hnamed.2⟩

/-- The text of a sign is what its kind is called by, without the quotes. -/
@[elab_as_elim]
theorem sign_rule {P : Kind → List Char → Prop} {k : Kind} {text : List Char}
    (hall : ∀ k, k.displayName.toList.head? = some '\'' → P k k.displayName.toList.tail.dropLast)
    (h : k.displayName.toList = '\'' :: (text ++ ['\''])) : P k text := by
  obtain rfl : text = k.displayName.toList.tail.dropLast := by rw [h]; simp
  exact hall k (by rw [h]; rfl)

theorem mem_operators (h : IsOperator k text) : ⟨k, Scan.exactly (.ofList text)⟩ ∈ Rule.operators := by
  refine List.mem_map.mpr ⟨(.ofList text, k), ?_, rfl⟩
  cases h with
  | sign h =>
    refine sign_rule (fun k => ?_) h
    cases k <;> decide
  | and => decide
  | or => decide

theorem exists_operator {r : Rule} (hr : r ∈ Rule.operators) :
    ∃ word : String, r.scan = Scan.exactly word ∧ IsOperator r.kind word.toList := by
  obtain ⟨⟨w, k⟩, hmem, rfl⟩ := List.mem_map.mp hr
  refine ⟨w, rfl, ?_⟩
  have hnamed := (List.all_eq_true (p := fun p : String × Kind =>
    p.2.displayName.toList == '\'' :: (p.1.toList ++ ['\'']) || p == ("&&", .and_) || p == ("||", .or_))).mp
      (by decide) _ hmem
  simp only [Bool.or_eq_true, beq_iff_eq] at hnamed
  rcases hnamed with (h | h) | h
  · exact .sign h
  · cases h
    exact .and
  · cases h
    exact .or

theorem IsKeyword.ne_nil (h : IsKeyword k text) : text ≠ [] := by
  rintro rfl
  obtain ⟨hkind, hspelt⟩ := h
  revert hkind hspelt
  cases k <;> decide

theorem IsOperator.ne_nil (h : IsOperator k text) : text ≠ [] := by
  rintro rfl
  cases h with
  | sign h => cases k <;> cases h

theorem Takes.ne_nil (h : Takes k text rest isOpen) : text ≠ [] := by
  cases h with
  | whitespace hne _ => exact hne
  | number h =>
    obtain ⟨hm, _⟩ := h
    cases hm with
    | whole hd => simp [hd.1]
    | point => simp
  | keyword h => exact h.ne_nil
  | operator h => exact h.ne_nil
  | _ => exact List.cons_ne_nil _ _

theorem Delimits.mem {opener : Char} (h : Delimits k opener close) : ⟨k, Scan.delimited opener close⟩ ∈ Rule.all := by
  cases h <;> simp [Rule.all]

theorem Delimits.not_isLineEnd {opener : Char} (h : Delimits k opener close) : Scan.isLineEnd close = false := by
  cases h <;> rfl

theorem keyword_mem {r : Rule} (h : r ∈ Rule.keywords) : r ∈ Rule.all :=
  List.mem_append_left _ (List.mem_append_left _ (List.mem_append_right _ h))

theorem operator_mem {r : Rule} (h : r ∈ Rule.operators) : r ∈ Rule.all :=
  List.mem_append_right _ h

theorem IsKeyword.found (h : IsKeyword k text) (rest : List Char) : ∃ r ∈ Rule.keywords, r.kind = k ∧
    r.scan (text ++ rest) = some ⟨text.length, false⟩ := by
  have hword : Scan.keyword (.ofList (k.displayName.toList.map Char.toLower)) (text ++ rest) =
      some ⟨text.length, false⟩ :=
    word_found (g := List.map Scan.fold) (fun _ => List.length_map _) h.ne_nil
      (by rw [String.toList_ofList]; exact h.spelt) rest
  have hmem := mem_keywords h.kind
  generalize Scan.keyword (.ofList (k.displayName.toList.map Char.toLower)) = scan at hword hmem
  exact ⟨_, hmem, rfl, hword⟩

/-- Where a spelling stands, a rule of its kind matches, and takes no less. -/
theorem Takes.found (h : Takes k text rest isOpen) : ∃ r ∈ Rule.all, r.kind = k ∧
    ∃ m, r.scan (text ++ rest) = some m ∧ text.length ≤ m.size := by
  cases h with
  | whitespace hne h =>
    have hlen := length_takeWhile_append h rest
    have hpos := List.length_pos_iff.mpr hne
    refine ⟨_, spaces_mem, rfl, ⟨_, false⟩, if_neg (by omega), ?_⟩
    simp only [hlen]
    omega
  | @lineComment body rest h =>
    have hbody : ∀ c ∈ body, decide (c ≠ '\n') = true := fun c hc => decide_eq_true fun heq => h (heq ▸ hc)
    have hlen := length_takeWhile_append hbody rest
    refine ⟨⟨.lineComment, Scan.lineComment⟩, by simp [Rule.all], rfl,
      ⟨2 + ((body ++ rest).takeWhile (· ≠ '\n')).length, false⟩, rfl, ?_⟩
    simp only [List.length_cons, hlen]
    omega
  | @blockComment body rest h =>
    refine ⟨_, blockComment_mem, rfl, (Scan.throughStarSlash (body ++ ['*', '/'] ++ rest)).after 2, rfl, ?_⟩
    rw [List.append_assoc, List.cons_append, List.cons_append, List.nil_append, throughStarSlash_append h]
    simp only [Match.after, List.length_cons, List.length_append, List.length_nil]
    omega
  | @openComment body h =>
    refine ⟨_, blockComment_mem, rfl, (Scan.throughStarSlash (body ++ [])).after 2, rfl, ?_⟩
    rw [List.append_nil, throughStarSlash_eq_open h]
    simp only [Match.after, List.length_cons]
    omega
  | @delimited k opener close body rest hd h hrest =>
    refine ⟨_, hd.mem, rfl, (Scan.throughClose close (body ++ [close] ++ rest)).after 1, if_pos rfl, ?_⟩
    rw [List.append_assoc, List.cons_append, List.nil_append, throughClose_append hd.not_isLineEnd h hrest]
    simp only [Match.after, List.length_cons, List.length_append, List.length_nil]
    omega
  | @openDelimited k opener close body rest hd h hrest =>
    refine ⟨_, hd.mem, rfl, (Scan.throughClose close (body ++ rest)).after 1, if_pos rfl, ?_⟩
    rw [throughClose_eq_open hd.not_isLineEnd h hrest]
    simp only [Match.after, List.length_cons]
    omega
  | @date body rest h =>
    refine ⟨⟨.date, Scan.date⟩, by simp [Rule.all], rfl,
      (Scan.throughNumberSign (body ++ ['#'] ++ rest)).after 1, rfl, ?_⟩
    rw [List.append_assoc, List.cons_append, List.nil_append, throughNumberSign_append h]
    simp only [Match.after, List.length_cons, List.length_append, List.length_nil]
    omega
  | @openDate body rest h hrest =>
    refine ⟨⟨.date, Scan.date⟩, by simp [Rule.all], rfl, (Scan.throughNumberSign (body ++ rest)).after 1, rfl, ?_⟩
    rw [throughNumberSign_eq_open h hrest]
    simp only [Match.after, List.length_cons]
    omega
  | @identifier c cs rest hc h =>
    have hlen := length_takeWhile_append h rest
    refine ⟨⟨.identifier, Scan.identifier⟩, by simp [Rule.all], rfl,
      ⟨1 + ((cs ++ rest).takeWhile Scan.isNameRest).length, false⟩, if_pos hc, ?_⟩
    simp only [List.length_cons, hlen]
    omega
  | number h => exact ⟨⟨.number, Scan.number⟩, by simp [Rule.all], rfl, h.found rest⟩
  | keyword h =>
    obtain ⟨r, hr, hkind, hscan⟩ := h.found rest
    exact ⟨r, keyword_mem hr, hkind, _, hscan, Nat.le_refl _⟩
  | operator h =>
    have hword : Scan.exactly (.ofList text) (text ++ rest) = some ⟨text.length, false⟩ :=
      word_found (g := id) (fun _ => rfl) h.ne_nil (by rw [String.toList_ofList]; rfl) rest
    exact ⟨⟨k, _⟩, operator_mem (mem_operators h), rfl, ⟨text.length, false⟩, hword, Nat.le_refl _⟩

theorem takes_spaces {cs : List Char} {m : Match} (h : Scan.spaces cs = some m) :
    ∃ text rest, cs = text ++ rest ∧ text.length = m.size ∧ Takes .whitespace text rest m.isOpen := by
  obtain ⟨text, rest, rfl, hlen, hspace⟩ := exists_takeWhile Scan.isSpace cs
  obtain ⟨rfl, hne⟩ := Scan.whole?_eq_some h
  rw [← hlen] at hne
  exact ⟨text, rest, rfl, hlen, .whitespace (List.length_pos_iff.mp (Nat.pos_of_ne_zero hne)) hspace⟩

theorem takes_lineComment {cs : List Char} {m : Match} (h : Scan.lineComment cs = some m) :
    ∃ text rest, cs = text ++ rest ∧ text.length = m.size ∧ Takes .lineComment text rest m.isOpen := by
  unfold Scan.lineComment at h
  split at h
  · rename_i cs
    cases h
    obtain ⟨body, rest, hcs, hlen, hbody⟩ := exists_takeWhile (fun c => decide (c ≠ '\n')) cs
    refine ⟨'/' :: '/' :: body, rest, by rw [hcs]; rfl, ?_, .lineComment fun hmem => ?_⟩
    · simp only [List.length_cons, hlen]
      omega
    · exact of_decide_eq_true (hbody _ hmem) rfl
  · cases h

theorem takes_blockComment {cs : List Char} {m : Match} (h : Scan.blockComment cs = some m) :
    ∃ text rest, cs = text ++ rest ∧ text.length = m.size ∧ Takes .blockComment text rest m.isOpen := by
  unfold Scan.blockComment at h
  split at h
  · rename_i cs
    cases h
    rcases throughStarSlash_cases cs with hno | ⟨body, rest, rfl, hno⟩
    · rw [throughStarSlash_eq_open hno]
      refine ⟨'/' :: '*' :: cs, [], (List.append_nil _).symm, ?_, .openComment hno⟩
      simp only [Match.after, List.length_cons]
      omega
    · rw [throughStarSlash_append hno]
      refine ⟨'/' :: '*' :: (body ++ ['*', '/']), rest, by simp, ?_, .blockComment hno⟩
      simp only [Match.after, List.length_cons, List.length_append, List.length_nil]
      omega
  · cases h

theorem takes_delimited {opener : Char} (hd : Delimits k opener close) {cs : List Char} {m : Match}
    (h : Scan.delimited opener close cs = some m) :
    ∃ text rest, cs = text ++ rest ∧ text.length = m.size ∧ Takes k text rest m.isOpen := by
  cases cs with
  | nil => cases h
  | cons c cs =>
    simp only [Scan.delimited] at h
    split at h
    · rename_i hc
      subst hc
      cases h
      obtain ⟨body, rest, hbody, ⟨rfl, hrest⟩ | ⟨rfl, hrest⟩⟩ := throughClose_cases close cs
      · rw [throughClose_eq_open hd.not_isLineEnd hbody hrest]
        refine ⟨c :: body, rest, rfl, ?_, .openDelimited hd hbody hrest⟩
        simp only [Match.after, List.length_cons]
        omega
      · rw [throughClose_append hd.not_isLineEnd hbody hrest]
        refine ⟨c :: (body ++ [close]), rest, by simp, ?_, .delimited hd hbody hrest⟩
        simp only [Match.after, List.length_cons, List.length_append, List.length_nil]
        omega
    · cases h

theorem takes_date {cs : List Char} {m : Match} (h : Scan.date cs = some m) :
    ∃ text rest, cs = text ++ rest ∧ text.length = m.size ∧ Takes .date text rest m.isOpen := by
  unfold Scan.date at h
  split at h
  · rename_i cs
    cases h
    obtain ⟨body, rest, hbody, ⟨rfl, hrest⟩ | rfl⟩ := throughNumberSign_cases cs
    · rw [throughNumberSign_eq_open hbody hrest]
      refine ⟨'#' :: body, rest, rfl, ?_, .openDate hbody hrest⟩
      simp only [Match.after, List.length_cons]
      omega
    · rw [throughNumberSign_append hbody]
      refine ⟨'#' :: (body ++ ['#']), rest, by simp, ?_, .date hbody⟩
      simp only [Match.after, List.length_cons, List.length_append, List.length_nil]
      omega
  · cases h

theorem takes_identifier {cs : List Char} {m : Match} (h : Scan.identifier cs = some m) :
    ∃ text rest, cs = text ++ rest ∧ text.length = m.size ∧ Takes .identifier text rest m.isOpen := by
  cases cs with
  | nil => cases h
  | cons c cs =>
    simp only [Scan.identifier] at h
    split at h
    · rename_i hc
      cases h
      obtain ⟨text, rest, hcs, hlen, hname⟩ := exists_takeWhile Scan.isNameRest cs
      refine ⟨c :: text, rest, by rw [hcs]; rfl, ?_, .identifier hc hname⟩
      simp only [List.length_cons, hlen]
      omega
    · cases h

/-- A rule takes a spelling of its kind. -/
theorem Rule.takes : ∀ r ∈ Rule.all, ∀ {cs : List Char} {m : Match}, r.scan cs = some m →
    ∃ text rest, cs = text ++ rest ∧ text.length = m.size ∧ Takes r.kind text rest m.isOpen := by
  refine Rule.forall_all takes_spaces takes_lineComment takes_blockComment (takes_delimited .double)
    (takes_delimited .single) (takes_delimited .bracket) takes_date ?keyword takes_identifier ?number ?operator
  case keyword =>
    intro r hr cs m h
    obtain ⟨hkind, hscan⟩ := exists_keyword hr
    rw [hscan, Scan.keyword] at h
    obtain ⟨text, rest, rfl, hlen, hopen, hword⟩ := exists_word (g := List.map Scan.fold) (fun _ => List.length_map _) h
    rw [String.toList_ofList] at hword
    exact ⟨text, rest, rfl, hlen, hopen ▸ .keyword ⟨hkind, hword⟩⟩
  case number =>
    intro cs m h
    obtain ⟨text, rest, rfl, hlen, hopen, hnumber⟩ := isNumber_of_number h
    exact ⟨text, rest, rfl, hlen, hopen ▸ .number hnumber⟩
  case operator =>
    intro r hr cs m h
    obtain ⟨word, hscan, hword⟩ := exists_operator hr
    rw [hscan, Scan.exactly] at h
    obtain ⟨text, rest, rfl, hlen, hopen, htext⟩ := exists_word (g := id) (fun _ => rfl) h
    rw [← htext] at hword
    exact ⟨text, rest, rfl, hlen, hopen ▸ .operator hword⟩

end Calculation.Token
