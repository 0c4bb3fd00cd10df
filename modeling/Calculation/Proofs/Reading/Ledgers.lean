import Mathlib.Data.List.Nodup
import Calculation.Proofs.Reading.ChargesBlock

/-!
Two accounts of the faults of a reading. By lexemes: each fault starts with a lexeme that was taken, and no lexeme has
two faults with one code. By symbols: the faults for what is lacking are those that the symbols show, each symbol its
own. Both are kept by one step at a time, so they hold of every reading.
-/
namespace Calculation

/-- The code of a fault and where it starts. -/
def Diagnostic.site (d : Diagnostic) : Code × Nat :=
  (d.code, d.range.start)

/-- Tokens, each with the codes that it is charged with. -/
abbrev Ledger := List (Token × List Code)

namespace Ledger

variable {g : Ledger} {t : Token} {ks ls : List Code} {taken taken' : List Lexeme} {met met' : List Event}

/-- The codes of a ledger, each with the start of its token. -/
def sites (g : Ledger) : List (Code × Nat) :=
  g.flatMap fun p => p.2.map (·, p.1.range.start)

@[simp] theorem sites_append (g h : Ledger) : sites (g ++ h) = g.sites ++ h.sites :=
  List.flatMap_append

theorem sites_cons (p : Token × List Code) (g : Ledger) :
    sites (p :: g) = p.2.map (·, p.1.range.start) ++ g.sites :=
  List.flatMap_cons

/-- Where no token is charged twice with one code, and no two start together, no site has two faults. -/
theorem nodup_sites (hcodes : ∀ p ∈ g, p.2.Nodup)
    (hapart : (g.map (·.1)).Pairwise fun t u => t.range.start ≠ u.range.start) : g.sites.Nodup := by
  refine List.nodup_flatMap.mpr ⟨fun p hp => ?_, (List.pairwise_map.mp hapart).imp fun {p q} hpq => ?_⟩
  · exact (hcodes p hp).map fun a b hab => (Prod.mk.inj hab).1
  · refine List.disjoint_left.mpr fun x hx hx' => ?_
    obtain ⟨k, -, rfl⟩ := List.mem_map.mp hx
    obtain ⟨k', -, hk'⟩ := List.mem_map.mp hx'
    exact hpq (Prod.mk.inj hk').2.symm

/-- A ledger of what was met while some lexemes were taken. The token before them may be charged with some of the
codes `ks`. -/
def Kept (t : Token) (ks : List Code) (taken : List Lexeme) (met : List Event) : Prop :=
  ∃ (own : List Code) (g : Ledger), own.Sublist ks ∧ g.map (·.1) = taken.map (·.token) ∧ (∀ p ∈ g, p.2.Nodup) ∧
    ((Event.faults met).map Diagnostic.site).Perm (sites ((t, own) :: g))

theorem Kept.nothing (t : Token) : Kept t [] [] [] :=
  ⟨[], [], .refl _, rfl, by simp, .refl _⟩

theorem Kept.permit (h : Kept t ks taken met) (hk : ks.Sublist ls) : Kept t ls taken met := by
  obtain ⟨own, g, hown, hrest⟩ := h
  exact ⟨own, g, hown.trans hk, hrest⟩

/-- What was met later stands in front. -/
theorem Kept.next (h : Kept t ks taken met) (h' : Kept t ls taken' met') :
    Kept t (ks ++ ls) (taken ++ taken') (met' ++ met) := by
  obtain ⟨own, g, hown, htokens, hcodes, hsites⟩ := h
  obtain ⟨own', g', hown', htokens', hcodes', hsites'⟩ := h'
  refine ⟨own ++ own', g ++ g', hown.append hown', by simp [htokens, htokens'], ?_, ?_⟩
  · exact List.forall_mem_append.mpr ⟨hcodes, hcodes'⟩
  · have hmet : (Event.faults (met' ++ met)).map Diagnostic.site =
        (Event.faults met').map Diagnostic.site ++ (Event.faults met).map Diagnostic.site := by
      rw [Event.faults, List.filterMap_append, List.map_append]
      rfl
    rw [hmet]
    refine List.perm_append_comm.trans ((hsites.append hsites').trans ?_)
    simp only [sites_cons, sites_append, List.map_append, List.append_assoc]
    refine List.Perm.append_left _ ?_
    simp only [← List.append_assoc]
    exact List.perm_append_comm.append_right _

/-- Once a lexeme has been taken, what it was charged with is in the ledger. -/
theorem Kept.take {l : Lexeme} (h : Kept l.token ks taken met) (hk : ks.Nodup) (t : Token) :
    Kept t [] (l :: taken) met := by
  obtain ⟨own, g, hown, htokens, hcodes, hsites⟩ := h
  refine ⟨[], (l.token, own) :: g, .refl _, by simp [htokens], ?_, ?_⟩
  · exact List.forall_mem_cons.mpr ⟨hown.nodup hk, hcodes⟩
  · rwa [sites_cons, List.map_nil, List.nil_append]

end Ledger

namespace Cursor

variable {src : Source} {c d : Cursor} {ss : List Symbol} {t : Token} {ks : List Code} {due : List Charge}

theorem finish_rest (src : Source) (s : Symbol) (c : Cursor) : (c.finish src s).2.rest = c.rest := by
  unfold finish noteValid
  split
  · split <;> rfl
  · rfl

/-- Whatever is read, a ledger of it can be kept. -/
theorem Charges.ledger (h : Charges src t ks c ss due d) : ∃ taken met, c.rest = taken ++ d.rest ∧
    d.trail = met ++ c.trail ∧ Ledger.Kept t ks taken met := by
  induction h with
  | stay t c => exact ⟨[], [], rfl, rfl, .nothing t⟩
  | next _ _ ihcd ihde =>
    obtain ⟨taken, met, hrest, htrail, hkept⟩ := ihcd
    obtain ⟨taken', met', hrest', htrail', hkept'⟩ := ihde
    refine ⟨taken ++ taken', met' ++ met, ?_, ?_, hkept.next hkept'⟩
    · rw [hrest, hrest', List.append_assoc]
    · rw [htrail', htrail, List.append_assoc]
  | permit hk _ ih =>
    obtain ⟨taken, met, hrest, htrail, hkept⟩ := ih
    exact ⟨taken, met, hrest, htrail, hkept.permit hk⟩
  | @fault t c cause r hr =>
    refine ⟨[], [.fault (cause.spanning r)], rfl, rfl, [cause.code], [], .refl _, rfl, by simp, .of_eq ?_⟩
    exact congrArg (fun n => [(cause.code, n)]) hr
  | @take t ks c d l ls ss due hl hk _ ih =>
    obtain ⟨taken, met, hrest, htrail, hkept⟩ := ih
    have hls : c.advance.rest = ls := by simp [advance, hl]
    refine ⟨l :: taken, met, ?_, advance_trail c ▸ htrail, hkept.take hk t⟩
    rw [hl, ← hls, hrest, List.cons_append]
  | around _ ih => exact ih
  | recording _ ih =>
    obtain ⟨taken, met, hrest, htrail, hkept⟩ := ih
    have hmet : _ = met := htrail.trans (List.append_nil met)
    exact ⟨taken, _, hrest, rfl, hmet ▸ hkept⟩
  | @finish t ks c d s due hs _ ih =>
    obtain ⟨taken, met, hrest, htrail, hkept⟩ := ih
    rw [finish_trail, finish_rest]
    split
    · exact ⟨taken, .valid :: met, hrest, by rw [htrail, List.cons_append], hkept⟩
    · exact ⟨taken, met, hrest, htrail, hkept⟩

end Cursor

/-- Kind and range of a symbol that is no comment. -/
def Symbol.face (s : Symbol) : List (Symbol.Kind × Range) :=
  if s.isComment then [] else [(s.kind, s.range)]

/-- The faults of a symbol with this kind and range, which starts with one of the tokens, are those for what it lacks. -/
def Symbol.Kind.Owes (tokens : List Token) (k : Symbol.Kind) (r : Range) (fs : List Charge) : Prop :=
  match k with
  | .block b branches terminator =>
    ∃ t ∈ tokens, t.kind = b.openerKind ∧ t.range.start = r.start ∧ t.range.stop ≤ r.stop ∧
      ∃ scope, fs = b.lacks t.range scope branches terminator ∧ (b.lacksColon branches = true → r.contains scope = true)
  | .field _ =>
    ∃ t ∈ tokens, t.range.start = r.start ∧
      ((t.kind = .field ∧ fs = []) ∨ (t.kind = .identifier ∧ t.range = r ∧ fs = [(.bareIdentifier, r)]))
  | _ => fs = []

/-- The faults that tell of something that a symbol lacks. -/
def Event.defects (met : List Event) : List Charge :=
  ((faults met).map Diagnostic.charge).filter (·.1.isDefect)

theorem Event.defects_fault (cause : Cause) (r : Range) :
    Event.defects [.fault (cause.spanning r)] = cause.code.defect r := by
  unfold Code.defect
  cases h : cause.code.isDefect
  all_goals simp [Event.defects, Event.faults, Event.fault?, Diagnostic.charge, Cause.spanning, h]

/-- The faults are those for what the symbols lack, each by itself, besides those that are due. -/
def Symbol.Accounted (tokens : List Token) (ss : List Symbol) (due fs : List Charge) : Prop :=
  ∃ ps : List ((Symbol.Kind × Range) × List Charge), ps.map (·.1) = (walkAll ss).flatMap face ∧
    (∀ p ∈ ps, p.1.1.Owes tokens p.1.2 p.2) ∧ fs.Perm (due ++ ps.flatMap (·.2))

namespace Symbol

variable {tokens : List Token} {s s' : Symbol} {as bs : List Symbol} {due due' fs fs' : List Charge}

theorem Accounted.nothing (tokens : List Token) (due : List Charge) : Accounted tokens [] due due :=
  ⟨[], by simp, by simp, by simp⟩

/-- What was met later stands in front. -/
theorem Accounted.next (h : Accounted tokens as due fs) (h' : Accounted tokens bs due' fs') :
    Accounted tokens (as ++ bs) (due ++ due') (fs' ++ fs) := by
  obtain ⟨ps, hfaces, howes, hperm⟩ := h
  obtain ⟨ps', hfaces', howes', hperm'⟩ := h'
  refine ⟨ps ++ ps', by simp [hfaces, hfaces'], List.forall_mem_append.mpr ⟨howes, howes'⟩, ?_⟩
  refine List.perm_append_comm.trans ((hperm.append hperm').trans ?_)
  simp only [List.flatMap_append, List.append_assoc]
  refine List.Perm.append_left _ ?_
  simp only [← List.append_assoc]
  exact List.perm_append_comm.append_right _

theorem Accounted.perm (h : Accounted tokens as due fs) (hp : fs'.Perm fs) : Accounted tokens as due fs' := by
  obtain ⟨ps, hfaces, howes, hperm⟩ := h
  exact ⟨ps, hfaces, howes, hp.trans hperm⟩

/-- All symbols but comments are those that account for the faults. -/
theorem Accounted.owed (h : Accounted tokens as due fs) (hs : s ∈ walkAll as) (hcomment : s.isComment = false) :
    ∃ own, s.kind.Owes tokens s.range own := by
  obtain ⟨ps, hfaces, howes, -⟩ := h
  have hface : (s.kind, s.range) ∈ ps.map (·.1) := hfaces ▸ List.mem_flatMap.mpr ⟨s, hs, by simp [face, hcomment]⟩
  obtain ⟨p, hp, hps⟩ := List.mem_map.mp hface
  have hown := howes p hp
  rw [hps] at hown
  exact ⟨p.2, hown⟩

/-- A symbol accounts for what was due when it was finished. -/
theorem Accounted.one (h : Accounted tokens s.children due fs) (howes : s'.kind.Owes tokens s'.range due)
    (hc : s'.children = s.children) : Accounted tokens [s'] [] fs := by
  obtain ⟨ps, hfaces, hps, hperm⟩ := h
  rw [Accounted, walkAll_singleton, walk_eq, hc, List.flatMap_cons, face]
  split
  · rename_i hcomment
    have hk : s'.kind = .comment := eq_of_beq hcomment
    have hdue : due = [] := by simpa [Kind.Owes, hk] using howes
    exact ⟨ps, hfaces, hps, hdue ▸ hperm⟩
  · exact ⟨((s'.kind, s'.range), due) :: ps, by simp [hfaces], List.forall_mem_cons.mpr ⟨howes, hps⟩, hperm⟩

end Symbol

namespace Cursor

variable {src : Source} {c d : Cursor} {ss : List Symbol} {s : Symbol} {t : Token} {ks : List Code}
  {due : List Charge} {hi : Nat} {tokens : List Token}

/-- Where the lexemes stand in line, a symbol holds what it is reported for. -/
theorem Lacks.owes (h : Lacks t c d s due) (ht : t ∈ tokens) (hc : c.Placed (fun _ => True) 0 hi)
    (hbehind : Behind (fun _ => True) 0 t c) (hd : Onward c d) : s.kind.Owes tokens s.range due := by
  have hproper := hbehind.proper
  have hstop := hbehind.stop
  have hpos : c.lastEnd ≤ c.pos 0 := Nat.le_max_right ..
  unfold Lacks at h
  cases hk : s.kind with
  | block b branches terminator =>
    rw [hk] at h
    obtain ⟨hopener, hr, scope, hdue, hscope⟩ := h
    have hend : t.range.stop ≤ s.range.stop := by
      rw [hr]
      exact Nat.le_trans (hbehind.onward hc hd).stop (Nat.le_max_left ..)
    refine ⟨t, ht, hopener, by rw [hr]; rfl, hend, scope, hdue, fun hlacks => ?_⟩
    obtain ⟨l, ls, hl, rfl, hlen⟩ := hscope hlacks
    obtain ⟨hl, hstart⟩ := hc.behind_head hd hl hlen
    have hend := hl.stop
    simp only [hr, Cursor.since, Range.contains, Bool.and_eq_true, decide_eq_true_eq]
    omega
  | field =>
    rw [hk] at h
    rcases h with ⟨hfield, hdue, hr⟩ | ⟨hidentifier, hdue, hr⟩
    · refine ⟨t, ht, ?_, .inl ⟨hfield, hdue⟩⟩
      rcases hr with hr | ⟨l, hl, hr⟩
      · rw [hr]
      · have hbounds := hc.rest.bounds l.token.range (List.mem_map_of_mem hl)
        rw [hr]
        exact (Nat.min_eq_left (by omega)).symm
    · exact ⟨t, ht, by rw [hr], .inr ⟨hidentifier, hr.symm, hr ▸ hdue⟩⟩
  | _ =>
    rw [hk] at h
    exact h

/-- Whatever is read, its symbols account for the faults. -/
theorem Charges.accounted (h : Charges src t ks c ss due d) (ht : t ∈ tokens) (hrest : ∀ l ∈ c.rest, l.token ∈ tokens)
    (hc : c.Placed (fun _ => True) 0 hi) (hbehind : Behind (fun _ => True) 0 t c) :
    ∃ met, d.trail = met ++ c.trail ∧ Symbol.Accounted tokens ss due (Event.defects met) := by
  induction h with
  | stay t c => exact ⟨[], rfl, .nothing tokens []⟩
  | next hcd hde ihcd ihde =>
    obtain ⟨met, htrail, haccounted⟩ := ihcd ht hrest hc hbehind
    obtain ⟨met', htrail', haccounted'⟩ := ihde ht (fun l hl => hrest l (hcd.onward.rest_subset hl))
      (hc.onward hcd.onward) (hbehind.onward hc hcd.onward)
    refine ⟨met' ++ met, by rw [htrail', htrail, List.append_assoc], ?_⟩
    have hmet : Event.defects (met' ++ met) = Event.defects met' ++ Event.defects met := by
      simp [Event.defects, Event.faults]
    exact hmet ▸ haccounted.next haccounted'
  | permit _ _ ih => exact ih ht hrest hc hbehind
  | @fault t c cause r hr =>
    exact ⟨[.fault (cause.spanning r)], rfl, Event.defects_fault cause r ▸ .nothing tokens _⟩
  | @take t ks c d l ls ss due hl hk h ih =>
    have hadvance := Onward.advance c
    have hahead := (hc.behind_head hadvance hl (length_advance hl)).1
    exact advance_trail c ▸ ih (hrest l (by simp [hl])) (fun x hx => hrest x (hadvance.rest_subset hx))
      (hc.onward hadvance) hahead
  | around _ ih => exact ih ht hrest (hc.of_same rfl rfl) (hbehind.of_same rfl)
  | recording _ ih =>
    obtain ⟨met, htrail, haccounted⟩ := ih ht hrest (hc.of_same rfl rfl) (hbehind.of_same rfl)
    have hmet : _ = met := htrail.trans (List.append_nil met)
    exact ⟨_, rfl, hmet ▸ haccounted⟩
  | @finish t ks c d s due hs h ih =>
    obtain ⟨met, htrail, haccounted⟩ := ih ht hrest hc hbehind
    have hone : Symbol.Accounted tokens [(d.finish src s).1] [] (Event.defects met) :=
      haccounted.one (hs.owes ht hc hbehind h.onward) rfl
    rw [finish_trail]
    split
    · exact ⟨.valid :: met, by rw [htrail, List.cons_append], hone⟩
    · exact ⟨met, htrail, hone⟩

end Cursor

end Calculation
