import Calculation.Proofs.Diagnostic.Distinct
import Calculation.Proofs.Document.Events
import Calculation.Proofs.Reading.Ledgers

/-!
No fault is lost. The faults of a whole text can be charged to its tokens, the statements to those that they take and
open comments to themselves, so that no token is charged twice with one code. So no two faults are the same one, and
the canonical list keeps them all.
-/
namespace Calculation

namespace Diagnostic

variable {ts us : List Token} {as bs ds : List Diagnostic}

/-- The faults can be charged to the tokens so that no token is charged twice with one code. -/
def ChargedTo (ts : List Token) (ds : List Diagnostic) : Prop :=
  ∃ g : Ledger, g.map (·.1) = ts ∧ (∀ p ∈ g, p.2.Nodup) ∧ (ds.map site).Perm g.sites

theorem ChargedTo.append (h : ChargedTo ts as) (h' : ChargedTo us bs) : ChargedTo (ts ++ us) (as ++ bs) := by
  obtain ⟨g, htokens, hcodes, hsites⟩ := h
  obtain ⟨g', htokens', hcodes', hsites'⟩ := h'
  refine ⟨g ++ g', by simp [htokens, htokens'], List.forall_mem_append.mpr ⟨hcodes, hcodes'⟩, ?_⟩
  rw [List.map_append, Ledger.sites_append]
  exact hsites.append hsites'

theorem ChargedTo.perm (h : ChargedTo ts as) (hp : bs.Perm as) : ChargedTo ts bs := by
  obtain ⟨g, htokens, hcodes, hsites⟩ := h
  exact ⟨g, htokens, hcodes, (hp.map site).trans hsites⟩

/-- Where no two tokens start together, no two faults have both code and start in common. -/
theorem ChargedTo.apart (h : ChargedTo ts ds) (hts : ts.Pairwise fun t u => t.range.start ≠ u.range.start) :
    ds.Pairwise fun a b => a.site ≠ b.site := by
  obtain ⟨g, rfl, hcodes, hsites⟩ := h
  exact List.pairwise_map.mp (hsites.nodup_iff.mpr (Ledger.nodup_sites hcodes hts))

end Diagnostic

namespace Statement
open Cursor Diagnostic

/-- The first statement charges the lexemes that it takes. -/
theorem nextItem_chargedTo (src : Source) (l : Lexeme) (ls : List Lexeme) :
    ∃ taken, l :: ls = taken ++ (nextItem src l ls).2.rest ∧
      ChargedTo (taken.map (·.token)) (Event.faults (nextItem src l ls).1.events) := by
  obtain ⟨ks, hk, h⟩ := statement_charges src (c := .start (l :: ls)) rfl
  obtain ⟨taken, met, hrest, htrail, own, g, hown, htokens, hcodes, hsites⟩ :=
    (Charges.take (t := l.token) (c := .start (l :: ls)) rfl hk h).ledger
  have htrail : (statement src (.start (l :: ls))).2.trail = met := htrail.trans (List.append_nil met)
  obtain rfl := List.sublist_nil.mp hown
  refine ⟨taken, hrest, g, htokens, hcodes, ?_⟩
  unfold nextItem
  dsimp only
  rw [htrail, Event.faults, List.filterMap_reverse, List.map_reverse]
  exact (List.reverse_perm _).trans hsites

/-- All statements charge the lexemes that they are read from. -/
theorem readAll_chargedTo (src : Source) (ls : List Lexeme) :
    ChargedTo (ls.map (·.token)) ((readAll src ls).flatMap fun i => Event.faults i.events) := by
  refine readAll_rule (P := fun ls is => ChargedTo (ls.map (·.token)) (is.flatMap fun i => Event.faults i.events))
    ⟨[], rfl, by simp, .refl _⟩ ?_ ls
  intro l ls is ih
  obtain ⟨taken, htaken, hcharged⟩ := nextItem_chargedTo src l ls
  rw [htaken, List.map_append, List.flatMap_cons]
  exact hcharged.append ih

end Statement

namespace Outline
open Diagnostic

variable {options : Options} {text : String}

/-- A token is told by where it starts. -/
theorem token_unique {t u : Token} (ht : t ∈ tokenize text) (hu : u ∈ tokenize text)
    (h : t.range.start = u.range.start) : t = u := by
  have hproper := (Token.lex_inLine 0 text.toList).2
  have := hproper t ht
  have := hproper u hu
  rcases tokens_apart ht hu with he | hline | hline
  · exact he
  · omega
  · omega

theorem starts_apart (text : String) : (tokenize text).Pairwise fun t u => t.range.start ≠ u.range.start := by
  obtain ⟨hline, hproper⟩ := Token.lex_inLine 0 text.toList
  refine (List.pairwise_map.mp hline.pairwise).imp_of_mem fun {t u} ht _ htu => ?_
  have := hproper t ht
  omega

/-- Only an open comment is a fault, at its first two bytes. -/
theorem comments_chargedTo (lines : LineTable) (ts : List Token) :
    ChargedTo ts (ts.flatMap fun t => Event.faults (Item.ofComment lines t).events) := by
  induction ts with
  | nil => exact ⟨[], rfl, by simp, .refl _⟩
  | cons t ts ih =>
    have hone : ChargedTo [t] (Event.faults (Item.ofComment lines t).events) := by
      cases ho : t.isOpen with
      | false => exact ⟨[(t, [])], rfl, by simp, by simp [Item.ofComment_closed ho, Event.faults, Ledger.sites]⟩
      | true =>
        exact ⟨[(t, [.openComment])], rfl, by simp, by simp [Item.ofComment, ho, Event.faults, Ledger.sites,
          Event.fault?, site, Cause.spanning, Cause.code, Range.opening]⟩
    exact hone.append ih

/-- The faults of a text are charged to its tokens. -/
theorem faults_chargedTo (options : Options) (text : String) :
    ChargedTo ((lexemes text).map (·.token) ++ comments text) (ofText options text).faults := by
  refine ChargedTo.perm ?_ (faults_perm options text)
  have hfaults : Event.faults (events options text) =
      ((statements options text).flatMap fun i => Event.faults i.events) ++
        (comments text).flatMap fun t => Event.faults (Item.ofComment (.ofText text.toList) t).events := by
    simp only [events, Event.faults, List.filterMap_append, List.filterMap_flatMap]
  rw [hfaults]
  exact (Statement.readAll_chargedTo _ _).append (comments_chargedTo _ _)

/-- No two faults of a text have both their code and their start in common. -/
theorem faults_apart (options : Options) (text : String) :
    (ofText options text).faults.Pairwise fun a b => a.site ≠ b.site := by
  refine (faults_chargedTo options text).apart ?_
  have happart := starts_apart text
  rw [lexemes, Lexeme.significant_tokens]
  refine List.pairwise_append.mpr ⟨happart.filter _, happart.filter _, fun t ht u hu hstart => ?_⟩
  obtain ⟨ht, hlexeme⟩ := List.mem_filter.mp ht
  obtain ⟨hu, hcomment⟩ := List.mem_filter.mp hu
  obtain rfl := token_unique ht hu hstart
  simp [Token.Kind.isTrivia, hcomment] at hlexeme

/-- No two faults of a text share both range and code. So the diagnostics are the faults, one for one, in the order of
severity, start, end and code. -/
theorem no_fault_lost (options : Options) (text : String) :
    ((ofText options text).faults.Pairwise fun a b => ¬(a.range = b.range ∧ a.code = b.code)) ∧
      (ofText options text).diagnostics.Perm (ofText options text).faults ∧
      (ofText options text).diagnostics.Pairwise fun a b => keyLe a.sortKey b.sortKey = true := by
  have happart : (ofText options text).faults.Pairwise fun a b => ¬(a.range = b.range ∧ a.code = b.code) :=
    (faults_apart options text).imp fun h hab => h (by rw [site, site, hab.1, hab.2])
  have hdistinct : Distinct (ofText options text).faults :=
    happart.imp fun h => Bool.eq_false_iff.mpr fun hsame => h (sameFault_iff.mp hsame)
  have hdiagnostics : (ofText options text).diagnostics = canonical (ofText options text).faults := rfl
  rw [hdiagnostics, canonical, keepFirst_eq_self hdistinct]
  refine ⟨happart, List.mergeSort_perm _ _, ?_⟩
  apply List.pairwise_mergeSort
  · exact fun _ _ _ => keyLe_trans
  · exact fun _ _ => keyLe_total _ _

end Outline

end Calculation
