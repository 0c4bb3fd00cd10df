import Calculation.Proofs.Document.Charged

/-!
Faults and what symbols lack. What a block lacks of its parts and what a name lacks of its brackets is seen in the tree
and told by a fault, wherever the symbol stands: in another block, among arguments or in a skipped stretch. The two are
one to one, so that no defect of the tree goes untold and none is told twice.
-/
namespace Calculation

/-- The first ones and the second ones can be paired off. -/
def OneToOne {α β : Type} (R : α → β → Prop) (as : List α) (bs : List β) : Prop :=
  ∃ cs, cs.Perm bs ∧ List.Forall₂ R as cs

/-- Where each one of a sort gives one, and no other gives any. -/
theorem forall₂_filter_flatMap {α β : Type} {R : α → β → Prop} {q : α → Bool} {f : α → List β} {as : List α}
    (h : ∀ a ∈ as, if q a then ∃ b, f a = [b] ∧ R a b else f a = []) :
    List.Forall₂ R (as.filter q) (as.flatMap f) := by
  induction as with
  | nil => exact .nil
  | cons a as ih =>
    obtain ⟨ha, has⟩ := List.forall_mem_cons.mp h
    rw [List.filter_cons, List.flatMap_cons]
    split
    · rename_i hq
      rw [if_pos hq] at ha
      obtain ⟨b, hb, hR⟩ := ha
      rw [hb]
      exact .cons hR (ih has)
    · rename_i hq
      rw [if_neg hq] at ha
      rw [ha]
      exact ih has

/-- Those of the sort are one to one with what they give, in whatever order. -/
theorem OneToOne.of_filterMap {α β : Type} {R : α → β → Prop} {q : α → Bool} {f : α → Option β} {as : List α}
    {bs : List β} (hperm : bs.Perm (as.filterMap f))
    (h : ∀ a ∈ as, if q a then ∃ b, f a = some b ∧ R a b else f a = none) : OneToOne R (as.filter q) bs := by
  refine ⟨_, hperm.symm, List.filterMap_eq_flatMap_toList .. ▸ forall₂_filter_flatMap fun a ha => ?_⟩
  have hgives := h a ha
  split
  · rename_i hq
    rw [if_pos hq] at hgives
    obtain ⟨b, hb, hR⟩ := hgives
    exact ⟨b, by rw [hb]; rfl, hR⟩
  · rename_i hq
    rw [if_neg hq] at hgives
    rw [hgives]
    rfl

/-- What holds of the first ones just when it holds of their partners holds of as many. -/
theorem OneToOne.countP_eq {α β : Type} {R : α → β → Prop} {as : List α} {bs : List β} {p : α → Bool} {q : β → Bool}
    (h : OneToOne R as bs) (hpq : ∀ a b, R a b → (p a ↔ q b)) : as.countP p = bs.countP q := by
  obtain ⟨cs, hperm, hall⟩ := h
  have hfiltered := List.rel_filter (fun {a b} hab => hpq a b hab) hall
  rw [← hperm.countP_eq, List.countP_eq_length_filter, List.countP_eq_length_filter, hfiltered.length_eq]

/-- The ranges that are charged with a code. -/
def Charge.rangesOf (k : Code) (fs : List Charge) : List Range :=
  (fs.filter (·.1 == k)).map (·.2)

namespace Charge
open Branch

variable {k k' : Code} {p : Prop} [Decidable p] {r opener scope : Range} {fs gs : List Charge} {b : BlockKind}
  {branches : List Branch} {stop : Option Range}

@[simp] theorem rangesOf_append : rangesOf k (fs ++ gs) = rangesOf k fs ++ rangesOf k gs := by
  simp [rangesOf]

theorem rangesOf_flatMap {α : Type} (f : α → List Charge) (as : List α) :
    rangesOf k (as.flatMap f) = as.flatMap fun a => rangesOf k (f a) := by
  simp [rangesOf, List.filter_flatMap, List.map_flatMap]

@[simp] theorem rangesOf_one : rangesOf k [(k', r)] = if k' = k then [r] else [] := by
  by_cases h : k' = k <;> simp [rangesOf, h]

@[simp] theorem rangesOf_if : rangesOf k (if p then fs else []) = if p then rangesOf k fs else [] := by
  split <;> rfl

@[simp] theorem rangesOf_thenCharges :
    rangesOf k (thenCharges branches) = if k = .missingThen then (unfollowed branches).map (·.keyword) else [] := by
  unfold rangesOf thenCharges
  rw [List.filter_map, List.map_map]
  split
  · rename_i h
    rw [List.filter_eq_self.mpr fun b _ => by simp [h]]
    rfl
  · rename_i h
    rw [List.filter_eq_nil_iff.mpr fun b _ => by simp [Ne.symm h]]
    rfl

/-- What a block lacks, by the code it is charged with. -/
theorem rangesOf_lacks (k : Code) (b : BlockKind) (opener scope : Range) (branches : List Branch)
    (stop : Option Range) : rangesOf k (b.lacks opener scope branches stop) =
      match k with
      | .missingThen => (unfollowed branches).map (·.keyword)
      | .missingWhen => if b.lacksWhen branches then [opener] else []
      | .missingColon => if b.lacksColon branches then [scope] else []
      | .missingEnd => if b.isConditional && stop.isNone then [opener] else []
      | .openBrace => if !b.isConditional && stop.isNone then [opener] else []
      | _ => [] := by
  have hcode : b.openCause.code = if b.isConditional then .missingEnd else .openBrace := by
    cases b <;> rfl
  simp only [BlockKind.lacks, rangesOf_append, rangesOf_if, rangesOf_one, rangesOf_thenCharges, hcode]
  cases b.isConditional <;> cases k <;> simp

end Charge

namespace Symbol

/-- A block of which `p` holds, by its kind, its branches and its terminator. -/
def Kind.isBlockWith (p : BlockKind → List Branch → Option Range → Bool) : Kind → Bool
  | .block b branches terminator => p b branches terminator
  | _ => false

def Kind.branches : Kind → List Branch
  | .block _ branches _ => branches
  | _ => []

/-- A reference to a field at the range of an identifier, which is a name without its brackets. -/
def Kind.isBare (tokens : List Token) (k : Kind) (r : Range) : Bool :=
  match k with
  | .field _ => tokens.any fun t => t.kind == .identifier && t.range == r
  | _ => false

/-- The keyword or brace that a block starts with is a token with this range. -/
def Kind.OpensWith (tokens : List Token) (k : Kind) (start : Nat) (r : Range) : Prop :=
  match k with
  | .block b _ _ => ∃ t ∈ tokens, t.kind = b.openerKind ∧ t.range.start = start ∧ t.range = r
  | _ => False

variable {tokens : List Token} {ss : List Symbol} {fs : List Charge} {k : Code} {kind : Kind} {r : Range}
  {p : BlockKind → List Branch → Option Range → Bool}

/-- A symbol that one thing is lacking from answers for it by one report, any other by none. -/
def Answers (tokens : List Token) (k : Code) (lacks : Kind → Range → Bool) (R : Kind → Range → Range → Prop) : Prop :=
  ∀ kind r fs, kind.Owes tokens r fs →
    if lacks kind r then ∃ at_, Charge.rangesOf k fs = [at_] ∧ R kind r at_ else Charge.rangesOf k fs = []

theorem forall₂_of_answers {lacks : Kind → Range → Bool} {R : Kind → Range → Range → Prop}
    (h : Answers tokens k lacks R) {ps : List ((Kind × Range) × List Charge)}
    (hps : ∀ p ∈ ps, p.1.1.Owes tokens p.1.2 p.2) :
    List.Forall₂ (fun x r => R x.1 x.2 r) ((ps.map (·.1)).filter fun x => lacks x.1 x.2)
      (ps.flatMap fun p => Charge.rangesOf k p.2) := by
  rw [List.filter_map, List.forall₂_map_left_iff]
  exact forall₂_filter_flatMap fun p hp => h p.1.1 p.1.2 p.2 (hps p hp)

/-- The faces of symbols of one sort are those of the symbols of this sort. -/
theorem filter_faces {lacks : Kind → Range → Bool} (h : ∀ r, lacks .comment r = false) (ss : List Symbol) :
    (ss.flatMap face).filter (fun x => lacks x.1 x.2) =
      (ss.filter fun s => lacks s.kind s.range).map fun s => (s.kind, s.range) := by
  induction ss with
  | nil => rfl
  | cons s ss ih =>
    rw [List.flatMap_cons, List.filter_append, ih, List.filter_cons, face]
    split
    · rename_i hcomment
      have hk : s.kind = .comment := eq_of_beq hcomment
      simp [hk, h]
    · cases hlacks : lacks s.kind s.range <;> simp [hlacks]

/-- Reports of one code and the symbols that answer for them are one to one. -/
theorem Accounted.oneToOne {lacks : Kind → Range → Bool} {R : Kind → Range → Range → Prop}
    (h : Accounted tokens ss [] fs) (hanswers : Answers tokens k lacks R) (hcomment : ∀ r, lacks .comment r = false) :
    OneToOne (fun s r => R s.kind s.range r) ((walkAll ss).filter fun s => lacks s.kind s.range)
      (Charge.rangesOf k fs) := by
  obtain ⟨ps, hfaces, howes, hperm⟩ := h
  refine ⟨_, ((hperm.filter _).map _).symm, ?_⟩
  have hall := forall₂_of_answers hanswers howes
  rwa [hfaces, filter_faces hcomment, List.forall₂_map_left_iff, ← Charge.rangesOf_flatMap] at hall

/-- What is no block answers only for a name without its brackets. -/
theorem Kind.Owes.plain (h : kind.Owes tokens r fs) (hblock : ∀ b branches stop, kind ≠ .block b branches stop)
    (hk : k ≠ .bareIdentifier) : Charge.rangesOf k fs = [] := by
  cases kind with
  | block b branches stop => exact absurd rfl (hblock b branches stop)
  | field =>
    obtain ⟨t, -, -, ⟨-, rfl⟩ | ⟨-, -, rfl⟩⟩ := h
    · rfl
    · simp [hk.symm]
  | _ => exact (congrArg _ h).trans rfl

/-- What is charged to the token that opens a block. -/
theorem answers_opener (k : Code) (hk : k ≠ .bareIdentifier) (h : ∀ b opener scope branches stop,
      Charge.rangesOf k (BlockKind.lacks b opener scope branches stop) = if p b branches stop then [opener] else []) :
    Answers tokens k (fun kind _ => kind.isBlockWith p) fun kind r => kind.OpensWith tokens r.start := by
  intro kind r fs howes
  cases kind with
  | block b branches stop =>
    obtain ⟨t, ht, hopener, hstart, -, scope, rfl, -⟩ := howes
    rw [h]
    dsimp only [Kind.isBlockWith]
    split
    · exact ⟨t.range, rfl, t, ht, hopener, hstart, rfl⟩
    · rfl
  | _ => exact howes.plain nofun hk

/-- A missing colon is reported inside the block. -/
theorem answers_colon (tokens : List Token) :
    Answers tokens .missingColon (fun kind _ => kind.isBlockWith fun b branches _ => b.lacksColon branches)
      fun _ r inner => r.contains inner = true := by
  intro kind r fs howes
  cases kind with
  | block b branches stop =>
    obtain ⟨t, ht, hopener, hstart, -, scope, rfl, hscope⟩ := howes
    rw [Charge.rangesOf_lacks]
    dsimp only [Kind.isBlockWith]
    split
    · rename_i hlacks
      exact ⟨scope, rfl, hscope hlacks⟩
    · rfl
  | _ => exact howes.plain nofun nofun

/-- A name without its brackets is reported where it stands. -/
theorem answers_bare (hunique : ∀ t ∈ tokens, ∀ u ∈ tokens, t.range.start = u.range.start → t = u) :
    Answers tokens .bareIdentifier (Kind.isBare tokens) fun _ r word => word = r := by
  intro kind r fs howes
  cases kind with
  | block b branches stop =>
    obtain ⟨t, -, -, -, -, scope, rfl, -⟩ := howes
    rw [Charge.rangesOf_lacks]
    rfl
  | field qualifier =>
    obtain ⟨t, ht, hstart, ⟨hk, rfl⟩ | ⟨hk, rfl, rfl⟩⟩ := howes
    · have hnone : Kind.isBare tokens (.field qualifier) r = false := by
        refine List.any_eq_false.mpr fun u hu hword => ?_
        obtain ⟨hkind, hr⟩ := Bool.and_eq_true_iff.mp hword
        obtain rfl := hunique t ht u hu (hstart.trans (congrArg Range.start (eq_of_beq hr).symm))
        exact absurd (hk.symm.trans (eq_of_beq hkind)) nofun
      rw [if_neg (hnone ▸ Bool.false_ne_true)]
      rfl
    · have hsome : Kind.isBare tokens (.field qualifier) t.range = true := List.any_eq_true.mpr ⟨t, ht, by simp [hk]⟩
      rw [if_pos hsome]
      exact ⟨t.range, by simp, rfl⟩
  | _ => exact (congrArg _ howes).trans rfl

/-- A condition without THEN is reported at its keyword. -/
theorem Accounted.unfollowed (h : Accounted tokens ss [] fs) :
    (Charge.rangesOf .missingThen fs).Perm
      ((walkAll ss).flatMap fun s => (Branch.unfollowed s.kind.branches).map (·.keyword)) := by
  obtain ⟨ps, hfaces, howes, hperm⟩ := h
  have howed : ∀ p ∈ ps, Charge.rangesOf .missingThen p.2 = (Branch.unfollowed p.1.1.branches).map (·.keyword) := by
    intro p hp
    have hone := howes p hp
    cases hk : p.1.1 with
    | block b branches stop =>
      rw [hk] at hone
      obtain ⟨t, -, -, -, -, scope, hfs, -⟩ := hone
      rw [hfs, Charge.rangesOf_lacks]
      rfl
    | _ => exact hone.plain (by simp [hk]) nofun
  have hsame : (ps.map (·.1)).flatMap (fun x => (Branch.unfollowed x.1.branches).map (·.keyword)) =
      (walkAll ss).flatMap fun s => (Branch.unfollowed s.kind.branches).map (·.keyword) := by
    rw [hfaces, List.flatMap_assoc]
    refine List.flatMap_congr fun s _ => ?_
    unfold face
    split
    · rename_i hcomment
      have hk : s.kind = .comment := eq_of_beq hcomment
      rw [hk]
      rfl
    · simp
  refine ((hperm.filter _).map _).trans (.of_eq ?_)
  rw [← hsame, List.flatMap_map]
  exact (Charge.rangesOf_flatMap _ _).trans (List.flatMap_congr howed)

end Symbol

namespace Statement
open Cursor Calculation.Symbol

variable {lo hi : Nat} {l : Lexeme} {ls : List Lexeme} {tokens : List Token}

theorem nextItem_accounted (src : Source) (hin : Range.InLine lo hi ((l :: ls).map (·.token.range)))
    (hsub : ∀ x ∈ l :: ls, x.token ∈ tokens) :
    Accounted tokens (nextItem src l ls).1.symbols [] (Event.defects (nextItem src l ls).1.events) := by
  let c := Cursor.start (l :: ls)
  have hplaced : c.Placed (fun _ => True) 0 hi :=
    ⟨hin.mono (Nat.zero_le lo) (Nat.le_refl hi), Nat.zero_le hi, fun _ _ => ⟨trivial, trivial⟩, trivial⟩
  have hadvance := Onward.advance c
  have hbehind := (hplaced.behind_head hadvance rfl (length_advance rfl)).1
  obtain ⟨ks, -, h⟩ := statement_charges src (c := c) rfl
  obtain ⟨met, htrail, haccounted⟩ := h.accounted (hsub l List.mem_cons_self)
    (fun x hx => hsub x (hadvance.rest_subset hx)) (hplaced.onward hadvance) hbehind
  have hmet : (statement src c).2.trail = met := htrail.trans (List.append_nil met)
  refine haccounted.perm ?_
  have hevents : (nextItem src l ls).1.events = met.reverse := congrArg List.reverse hmet
  rw [hevents, Event.defects, Event.faults, List.filterMap_reverse, List.map_reverse, List.filter_reverse]
  exact List.reverse_perm _

/-- All statements account for their faults. -/
theorem readAll_accounted (src : Source) (ls : List Lexeme) (hin : Range.InLine lo hi (ls.map (·.token.range)))
    (hsub : ∀ x ∈ ls, x.token ∈ tokens) :
    Accounted tokens ((readAll src ls).flatMap (·.symbols)) []
      ((readAll src ls).flatMap fun i => Event.defects i.events) := by
  revert hin hsub
  refine readAll_rule (P := fun ls is => Range.InLine lo hi (ls.map (·.token.range)) → (∀ x ∈ ls, x.token ∈ tokens) →
    Accounted tokens (is.flatMap (·.symbols)) [] (is.flatMap fun i => Event.defects i.events))
    (fun _ _ => .nothing tokens []) ?_ ls
  intro l ls is ih hin hsub
  have hsuffix := nextItem_sublist src l ls
  have hrest := ih (hin.sublist (hsuffix.map _)) fun x hx => hsub x (hsuffix.subset hx)
  rw [List.flatMap_cons, List.flatMap_cons]
  exact ((nextItem_accounted src hin hsub).next hrest).perm List.perm_append_comm

end Statement

namespace Outline
open Calculation.Symbol

variable {options : Options} {text : String}

/-- The ranges of the faults with a code. -/
def reported (o : Outline) (k : Code) : List Range :=
  (o.faults.filter (·.code == k)).map (·.range)

theorem view_face : View face :=
  ⟨fun _ _ => rfl, fun s hs => by simp [face, isComment, hs]⟩

/-- The symbols of an outline account for its faults. -/
theorem faults_accounted (options : Options) (text : String) :
    Accounted (tokenize text) (ofText options text).symbols []
      (((ofText options text).faults.map Diagnostic.charge).filter (·.1.isDefect)) := by
  have hstatements : Accounted (tokenize text) ((statements options text).flatMap (·.symbols)) []
      ((statements options text).flatMap fun i => Event.defects i.events) :=
    Statement.readAll_accounted _ _ (lexemes_inLine text) fun _ hx => (token_of_lexeme hx).1
  have hcomments : ((comments text).flatMap fun t =>
      Event.defects (Item.ofComment (.ofText text.toList) t).events) = [] := by
    refine List.flatMap_eq_nil_iff.mpr fun t _ => ?_
    cases ho : t.isOpen with
    | false => simp [Item.ofComment_closed ho, Event.defects, Event.faults]
    | true => simp [Item.ofComment, ho, Event.defects_fault, Code.defect, Code.isDefect, Cause.code]
  have hevents : Event.defects (events options text) =
      (statements options text).flatMap fun i => Event.defects i.events := by
    rw [← List.append_nil (List.flatMap _ _), ← hcomments]
    simp only [events, Event.defects, Event.faults, List.filterMap_append, List.filterMap_flatMap, List.map_append,
      List.map_flatMap, List.filter_append, List.filter_flatMap]
  obtain ⟨ps, hfaces, howes, hperm⟩ := hstatements.perm (.of_eq hevents)
  refine ⟨ps, hfaces.trans (blind_symbols view_face.blind options text).symm, howes, ?_⟩
  exact (((faults_perm options text).map _).filter _).trans hperm

theorem rangesOf_faults {k : Code} (hk : k.isDefect = true) (o : Outline) :
    Charge.rangesOf k ((o.faults.map Diagnostic.charge).filter (·.1.isDefect)) = o.reported k := by
  rw [Charge.rangesOf, List.filter_filter, List.filter_map, List.map_map, reported]
  congr 1
  refine List.filter_congr fun d _ => ?_
  by_cases hcode : d.code = k
  · simp [Diagnostic.charge, hcode, hk]
  · simp [Diagnostic.charge, hcode]

/-- The faults with one code are one to one with the symbols that answer for them. -/
theorem reported_oneToOne (options : Options) (text : String) {k : Code} {lacks : Symbol.Kind → Range → Bool}
    {R : Symbol.Kind → Range → Range → Prop} (hk : k.isDefect = true) (hanswers : Answers (tokenize text) k lacks R)
    (hcomment : ∀ r, lacks .comment r = false) :
    OneToOne (fun s r => R s.kind s.range r) ((ofText options text).walk.filter fun s => lacks s.kind s.range)
      ((ofText options text).reported k) :=
  rangesOf_faults hk _ ▸ (faults_accounted options text).oneToOne hanswers hcomment

/-- Structural faults and defects of the tree are one to one. There is a fault at the keyword of each IF or CASE block
without its terminator, at the brace of each LOD block without one, at the keyword of each condition that no THEN
follows at once, at the keyword of each CASE block without a WHEN, inside each LOD block that has a keyword but no
aggregate, and at each identifier that was read as a reference to a field; and there are no others of these codes. -/
theorem defects_reported (options : Options) (text : String) :
    OneToOne (fun s r => s.kind.OpensWith (tokenize text) s.range.start r)
        ((ofText options text).walk.filter fun s =>
          s.kind.isBlockWith fun b _ terminator => b.isConditional && terminator.isNone)
        ((ofText options text).reported .missingEnd) ∧
      OneToOne (fun s r => s.kind.OpensWith (tokenize text) s.range.start r)
        ((ofText options text).walk.filter fun s =>
          s.kind.isBlockWith fun b _ terminator => !b.isConditional && terminator.isNone)
        ((ofText options text).reported .openBrace) ∧
      ((ofText options text).reported .missingThen).Perm
        ((ofText options text).walk.flatMap fun s => (Branch.unfollowed s.kind.branches).map (·.keyword)) ∧
      OneToOne (fun s r => s.kind.OpensWith (tokenize text) s.range.start r)
        ((ofText options text).walk.filter fun s => s.kind.isBlockWith fun b branches _ => b.lacksWhen branches)
        ((ofText options text).reported .missingWhen) ∧
      OneToOne (fun s r => s.range.contains r = true)
        ((ofText options text).walk.filter fun s => s.kind.isBlockWith fun b branches _ => b.lacksColon branches)
        ((ofText options text).reported .missingColon) ∧
      OneToOne (fun s r => r = s.range)
        ((ofText options text).walk.filter fun s => s.kind.isBare (tokenize text) s.range)
        ((ofText options text).reported .bareIdentifier) := by
  refine ⟨?_, ?_, ?_, ?_, ?_, ?_⟩
  · exact reported_oneToOne options text rfl (answers_opener .missingEnd nofun (Charge.rangesOf_lacks _)) fun _ => rfl
  · exact reported_oneToOne options text rfl (answers_opener .openBrace nofun (Charge.rangesOf_lacks _)) fun _ => rfl
  · exact rangesOf_faults (k := .missingThen) rfl _ ▸ (faults_accounted options text).unfollowed
  · exact reported_oneToOne options text rfl (answers_opener .missingWhen nofun (Charge.rangesOf_lacks _)) fun _ => rfl
  · exact reported_oneToOne options text rfl (answers_colon _) fun _ => rfl
  · exact reported_oneToOne options text rfl (answers_bare fun t ht u hu => token_unique ht hu) fun _ => rfl

end Outline

end Calculation
