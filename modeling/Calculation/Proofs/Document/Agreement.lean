import Calculation.Proofs.Document.Conservation
import Calculation.Proofs.Document.Events
import Calculation.Proofs.Document.Findings

namespace Calculation.Outline
open Calculation.Symbol Reading Diagnostic

variable {options : Options} {text : String} {s x m : Symbol} {d : Diagnostic} {t : SignatureTable}

/-- Two symbols that start at different places if both are constructs. -/
def StartApart (a b : Symbol) : Prop :=
  a.isConstruct = true → b.isConstruct = true → a.range.start ≠ b.range.start

theorem startApart_symm {a b : Symbol} (h : StartApart a b) : StartApart b a :=
  fun hb ha => (h ha hb).symm

theorem isConstruct_of_isCall (h : s.isCall = true) : s.isConstruct = true := by
  unfold isCall at h
  unfold isConstruct isSkipped isComment
  split at h
  · rename_i hk
    simp [hk]
  · cases h

theorem isConstruct_of_block {b : BlockKind} {branches : List Branch} {terminator : Option Range}
    (h : s.kind = .block b branches terminator) : s.isConstruct = true := by
  simp [isConstruct, isSkipped, isComment, h]

/-- Constructs start at different places. -/
theorem walk_startApart (options : Options) (text : String) : (ofText options text).walk.Pairwise StartApart := by
  obtain ⟨kept, fs, hkept, -, hmarks⟩ := exists_keeps options text
  have hstarts := first?_pairwise hkept.marks ((lexemes_lined text).sublist hkept.sublist)
  rw [← hmarks] at hstarts
  have hfirst : ((ofText options text).walk.flatMap marks).filterMap Mark.first? = _ :=
    filterMap_first? (ofText options text).symbols
  rw [hfirst, List.pairwise_map, List.pairwise_filter] at hstarts
  exact hstarts.imp fun h ha hb => Nat.ne_of_lt (h ha hb)

/-- So do those that are finished outside of skipped stretches, and those that are hidden by one. -/
theorem parts_startApart (options : Options) (text : String) :
    (finishedAll (ofText options text).symbols ++ hiddenAll (ofText options text).symbols).Pairwise StartApart :=
  ((finishedAll_hiddenAll _).pairwise_iff startApart_symm).mpr (walk_startApart options text)

/-- The name of a call is a token of the text. -/
theorem exists_name (hs : s ∈ (ofText options text).walk) (hcall : s.isCall = true) :
    ∃ x ∈ tokenize text, x.kind = .identifier ∧ x.text = s.name ∧ x.range = s.nameRange := by
  obtain ⟨l, hl, hkind, hname, hrange⟩ := (walk_begins options text s hs).call hcall
  exact ⟨l.token, (token_of_lexeme hl).1, hkind, hname, hrange⟩

theorem signatureFault?_eq_some (h : s.signatureFault? t = some d) : s.isCall = true ∧ d.range = s.nameRange ∧
    d.isSignature = true := by
  cases hc : s.isCall with
  | false =>
    rw [signatureFault?_of_not_call hc] at h
    cases h
  | true =>
    unfold signatureFault? at h
    split at h
    · split at h
      · cases h
        exact ⟨rfl, rfl, rfl⟩
      · split at h
        · cases h
          exact ⟨rfl, rfl, rfl⟩
        · cases h
    · cases h

/-- What is wrong with two calls that start at different places are two faults. -/
theorem signatureFault?_apart {e : Diagnostic} (h : StartApart s x) (hd : s.signatureFault? t = some d)
    (he : x.signatureFault? t = some e) : d.range ≠ e.range := by
  obtain ⟨hs, hds, -⟩ := signatureFault?_eq_some hd
  obtain ⟨hx, hex, -⟩ := signatureFault?_eq_some he
  intro heq
  refine h (isConstruct_of_isCall hs) (isConstruct_of_isCall hx) ?_
  rw [hds, hex] at heq
  have hstart : s.nameRange.start = x.nameRange.start := congrArg Range.start heq
  exact hstart

/-- What is wrong with the calls outside of skipped stretches. -/
def signatureFaults (t : SignatureTable) (o : Outline) : List Diagnostic :=
  (finishedAll o.symbols).filterMap (signatureFault? t)

theorem signatureFaults_distinct (options : Options) (text : String) (t : SignatureTable) :
    Distinct (signatureFaults t (ofText options text)) := by
  have hapart := (List.pairwise_append.mp (parts_startApart options text)).1
  refine List.pairwise_filterMap.mpr (hapart.imp fun h d hd e he => ?_)
  exact Bool.eq_false_iff.mpr fun hsame => signatureFault?_apart h hd he (sameFault_iff.mp hsame).1

/-- What reading tells about signatures at the end of a symbol is what is wrong with it, if it is complete. -/
theorem faults_ending (t : SignatureTable) (s : Symbol) : (Event.faults (s.ending t)).filter (·.isSignature) =
    if s.isComplete then (s.signatureFault? t).toList else [] := by
  cases hd : s.signatureFault? t with
  | none => simp [ending, hd, Event.faults, Event.fault?, apply_ite]
  | some d =>
    obtain ⟨hcall, -, hsignature⟩ := signatureFault?_eq_some hd
    have hcomment : s.isComment = false := beq_eq_false_iff_ne.mpr fun hk => by simp [isCall, hk] at hcall
    cases hc : s.isComplete <;> simp [ending, hd, hc, hcomment, Event.faults, Event.fault?, hsignature]

theorem isSignature_not_structural (h : d.isSignature = true) : d.isStructural = false := by
  unfold isSignature at h
  rcases Bool.or_eq_true_iff.mp h with h | h
  · rw [isStructural, beq_iff_eq.mp h]
    rfl
  · rw [isStructural, beq_iff_eq.mp h]
    rfl

/-- Faults that are not structural are found among the events that are told. -/
theorem faults_unstructural {p : Diagnostic → Bool} (hp : ∀ d, p d = true → d.isStructural = false) (es : List Event) :
    (Event.faults es).filter p = (Event.faults (es.filter (!·.isStructural))).filter p := by
  induction es with
  | nil => rfl
  | cons e es ih =>
    cases e with
    | valid => exact ih
    | fault d =>
      have hfaults : Event.faults (.fault d :: es) = d :: Event.faults es := rfl
      have hstructural : (Event.fault d).isStructural = d.isStructural := rfl
      cases hd : d.isStructural with
      | true =>
        have hother : p d = false := by
          refine Bool.eq_false_iff.mpr fun hpd => ?_
          rw [hp d hpd] at hd
          cases hd
        rw [hfaults, List.filter_cons, hother, List.filter_cons, hstructural, hd]
        exact ih
      | false =>
        have hkept : Event.faults ((Event.fault d :: es).filter (!·.isStructural)) =
            d :: Event.faults (es.filter (!·.isStructural)) := by
          rw [List.filter_cons, hstructural, hd]
          rfl
        rw [hkept, hfaults, List.filter_cons, List.filter_cons, ih]

/-- Faults that are not structural are reported at the ends of symbols outside of skipped stretches. -/
theorem faults_perm_told {p : Diagnostic → Bool} (hp : ∀ d, p d = true → d.isStructural = false) (options : Options)
    (text : String) : ((ofText options text).faults.filter p).Perm
      ((finishedAll (ofText options text).symbols).flatMap fun s =>
        (Event.faults (s.ending options.signatures)).filter p) := by
  refine ((faults_perm options text).filter p).trans (.of_eq ?_)
  rw [faults_unstructural hp, events_told, Event.faults, List.filterMap_flatMap, List.filter_flatMap]
  rfl

/-- Reading reports what is wrong with the complete calls outside of skipped stretches. -/
theorem faults_perm_signatures (options : Options) (text : String) :
    ((ofText options text).faults.filter (·.isSignature)).Perm
      (((finishedAll (ofText options text).symbols).filter (·.isComplete)).filterMap
        (signatureFault? options.signatures)) := by
  refine (faults_perm_told (fun _ => isSignature_not_structural) options text).trans (.of_eq ?_)
  rw [List.filterMap_filter, List.filterMap_eq_flatMap_toList]
  refine List.flatMap_congr fun s _ => (faults_ending options.signatures s).trans ?_
  cases s.isComplete <;> rfl

/-- The canonical diagnostics report what is wrong with the calls outside of skipped stretches, complete or not. -/
theorem validate_perm_signatures (options : Options) (text : String) (v : ValidationOptions) :
    ((validate (ofText options text) options.signatures v).filter (·.isSignature)).Perm
      (signatureFaults options.signatures (ofText options text)) := by
  have hsame : ∀ a b : Diagnostic, a.sameFault b = true → a.isSignature = b.isSignature := fun a b hab => by
    rw [isSignature, isSignature, (sameFault_iff.mp hab).2]
  refine (canonical_filter hsame _).trans (keepFirst_perm (signatureFaults_distinct options text _) fun d => ?_)
  have hfound := Validation.findingsAll_signature options.signatures v (ofText options text).symbols .outside
  have hread : ∀ d ∈ (ofText options text).faults.filter (·.isSignature),
      d ∈ signatureFaults options.signatures (ofText options text) := fun d hd => by
    obtain ⟨s, hs, hsd⟩ := List.mem_filterMap.mp ((faults_perm_signatures options text).mem_iff.mp hd)
    exact List.mem_filterMap.mpr ⟨s, (List.mem_filter.mp hs).1, hsd⟩
  rw [List.filter_append, List.mem_append, hfound.mem_iff]
  exact ⟨fun hd => hd.elim (hread d) id, .inr⟩

/-- Reading and validation agree on signatures. Reading reports once, at the name of the call, what is wrong with each
complete call that no skipped stretch hides: an unknown function, or a number of arguments that the function does not
take. The diagnostics have just these reports, unchanged, and besides them those of unknown functions in calls that are
not complete. No two calls stand at one name, and the name of a call is the range of its first token; so nothing of
this is reported of a call below a skipped stretch. -/
theorem signatures_agree (options : Options) (v : ValidationOptions) (text : String) :
    ((analyze options v text).faults.filter (·.isSignature)).Perm
      (((finishedAll (analyze options v text).symbols).filter (·.isComplete)).filterMap
        (signatureFault? options.signatures)) ∧
    ((analyze options v text).diagnostics.filter (·.isSignature)).Perm
      ((finishedAll (analyze options v text).symbols).filterMap (signatureFault? options.signatures)) ∧
    (∀ d ∈ (analyze options v text).faults, d.isSignature = true → d ∈ (analyze options v text).diagnostics) ∧
    (((analyze options v text).walk.filter (·.isCall)).map (·.nameRange)).Nodup ∧
    (∀ s ∈ (analyze options v text).walk, s.isCall = true → ∃ x ∈ tokenize text,
      x.kind = .identifier ∧ x.text = s.name ∧ x.range = s.nameRange) ∧
    ∀ m ∈ (analyze options v text).walk, m.isSkipped = true → ∀ s ∈ walkAll m.children, s.isCall = true →
      ∀ d ∈ (analyze options v text).faults ++ (analyze options v text).diagnostics, d.isSignature = true →
        d.range ≠ s.nameRange := by
  have hfaults := faults_perm_signatures options text
  have hdiagnostics := validate_perm_signatures options text v
  have hread : ∀ d ∈ (ofText options text).faults, d.isSignature = true →
      d ∈ signatureFaults options.signatures (ofText options text) := fun d hd hs => by
    obtain ⟨s, hs, hsd⟩ := List.mem_filterMap.mp (hfaults.mem_iff.mp (List.mem_filter.mpr ⟨hd, hs⟩))
    exact List.mem_filterMap.mpr ⟨s, (List.mem_filter.mp hs).1, hsd⟩
  refine ⟨hfaults, hdiagnostics, fun d hd hs => ?_, ?_, fun s hs hcall => ?_, fun m hm hk s hs hcall d hd hsig => ?_⟩
  · exact (List.mem_filter.mp (hdiagnostics.mem_iff.mpr (hread d hd hs))).1
  · refine List.pairwise_map.mpr (List.pairwise_filter.mpr ((walk_startApart options text).imp ?_))
    intro a b h ha hb heq
    have hstart : a.nameRange.start = b.nameRange.start := congrArg Range.start heq
    exact h (isConstruct_of_isCall ha) (isConstruct_of_isCall hb) hstart
  · exact exists_name hs hcall
  · have hmem : d ∈ signatureFaults options.signatures (ofText options text) := by
      rcases List.mem_append.mp hd with hd | hd
      · exact hread d hd hsig
      · exact hdiagnostics.mem_iff.mp (List.mem_filter.mpr ⟨hd, hsig⟩)
    obtain ⟨x, hx, hxd⟩ := List.mem_filterMap.mp hmem
    obtain ⟨hxcall, hxrange, -⟩ := signatureFault?_eq_some hxd
    have hhidden : s ∈ hiddenAll (ofText options text).symbols :=
      mem_hiddenAll _ hm (beq_iff_eq.mp hk) (walk_eq m ▸ List.mem_cons_of_mem m hs)
    have hapart := (List.pairwise_append.mp (parts_startApart options text)).2.2 x hx s hhidden
    intro heq
    have hstart : x.nameRange.start = s.nameRange.start := congrArg Range.start (hxrange.symm.trans heq)
    exact hapart (isConstruct_of_isCall hxcall) (isConstruct_of_isCall hcall) hstart

/-- For instance two unknown functions in a block, the second in a skipped stretch. -/
theorem signatures_agree_below_skipped :
    ((analyze ⟨.empty, 4⟩ .default "\x7bF() G()\x7d").diagnostics.filter (·.isSignature)).length = 1 ∧
      ∃ m ∈ (analyze ⟨.empty, 4⟩ .default "\x7bF() G()\x7d").walk, m.isSkipped = true ∧
        ∃ s ∈ walkAll m.children, s.isCall = true ∧
          ∀ d ∈ (analyze ⟨.empty, 4⟩ .default "\x7bF() G()\x7d").diagnostics, d.isSignature = true →
            d.range ≠ s.nameRange := by
  have hskipped : ∃ m ∈ (analyze ⟨.empty, 4⟩ .default "\x7bF() G()\x7d").walk, m.isSkipped = true ∧
      ∃ s ∈ walkAll m.children, s.isCall = true := by
    decide +kernel
  obtain ⟨m, hm, hk, s, hs, hcall⟩ := hskipped
  obtain ⟨-, hdiagnostics, -, -, -, hbelow⟩ := signatures_agree ⟨.empty, 4⟩ .default "\x7bF() G()\x7d"
  refine ⟨hdiagnostics.length_eq.trans (by decide +kernel), m, hm, hk, s, hs, hcall, fun d hd => ?_⟩
  exact hbelow m hm hk s hs hcall d (List.mem_append_right _ hd)

theorem openFault?_eq_some (h : s.openFault? = some d) : s.isConstruct = true ∧ d.range.start = s.range.start ∧
    d.code.opensBlock = true := by
  unfold openFault? at h
  split at h
  · rename_i hk
    cases h
    exact ⟨isConstruct_of_block hk, rfl, BlockKind.openCause_opensBlock _⟩
  · cases h

theorem openFaults_distinct (options : Options) (text : String) :
    Distinct (openFaults (ofText options text).symbols) := by
  refine List.pairwise_filterMap.mpr ((walk_startApart options text).imp fun h d hd e he => ?_)
  obtain ⟨hs, hds, -⟩ := openFault?_eq_some hd
  obtain ⟨hx, hex, -⟩ := openFault?_eq_some he
  refine Bool.eq_false_iff.mpr fun hsame => h hs hx ?_
  rw [← hds, ← hex, (sameFault_iff.mp hsame).1]

/-- Only CASE has a spelling that is longer than its letters. -/
theorem opensWhole (hcase : ∀ x ∈ tokenize text, x.kind = .case_ → x.text.utf8ByteSize = 4) {l : Lexeme}
    (hl : l ∈ lexemes text) : l.token.OpensWhole := by
  have ht := (token_of_lexeme hl).1
  intro b hk
  rw [Token.lex_sized ht]
  cases b with
  | if_ => rw [Token.size_of_if ht hk]; rfl
  | case_ => rw [hcase _ ht hk]; rfl
  | lod => rw [Token.size_of_leftBrace ht hk]; rfl

theorem faults_opened (es : List Event) : (Event.faults es).filter (·.code.opensBlock) =
    Event.faults (es.filter Event.opensBlock) := by
  rw [Event.faults, Event.faults, List.filter_filterMap, List.filterMap_filter]
  refine congrArg (List.filterMap · es) (funext fun e => ?_)
  cases e with
  | valid => rfl
  | fault d => exact Option.filter_some ..

theorem faults_perm_opened (options : Options)
    (hcase : ∀ x ∈ tokenize text, x.kind = .case_ → x.text.utf8ByteSize = 4) :
    ((ofText options text).faults.filter (·.code.opensBlock)).Perm (openFaults (ofText options text).symbols) := by
  refine ((faults_perm options text).filter _).trans ?_
  rw [faults_opened]
  refine ((events_opened options fun _ => opensWhole hcase).filterMap Event.fault?).trans (.of_eq ?_)
  rw [List.filterMap_map]
  exact List.filterMap_some

/-- A block without its end is reported once, at the token that opens it, when CASE is spelt in letters of one byte. The
reports of open blocks are those of reading, one for each such block: validation finds them a second time, and for the
same place. -/
theorem open_blocks_reported (options : Options) (v : ValidationOptions) (t : SignatureTable) (text : String)
    (hcase : ∀ x ∈ tokenize text, x.kind = .case_ → x.text.utf8ByteSize = 4) :
    ((validate (ofText options text) t v).filter (·.code.opensBlock)).Perm
      (openFaults (ofText options text).symbols) ∧
    ∀ s ∈ (ofText options text).walk, ∀ b branches, s.kind = .block b branches none →
      ∃ x ∈ tokenize text, x.kind = b.openerKind ∧ x.range.start = s.range.start ∧
        (validate (ofText options text) t v).countP (fun d =>
          d.code == b.openCause.code && d.range == x.range) = 1 := by
  have hsame : ∀ a b : Diagnostic, a.sameFault b = true → a.code.opensBlock = b.code.opensBlock := fun a b hab => by
    rw [(sameFault_iff.mp hab).2]
  have hread := faults_perm_opened options hcase
  have hdistinct := (openFaults_distinct options text).perm hread.symm
  have hfound : ∀ b ∈ (Validation.findingsAll t v .outside (ofText options text).symbols).filter (·.code.opensBlock),
      ∃ a ∈ (ofText options text).faults.filter (·.code.opensBlock), a.sameFault b = true := fun b hb => by
    obtain ⟨hb, ho⟩ := List.mem_filter.mp hb
    obtain ⟨x, hx, around, hcheck⟩ := Validation.mem_findingsAll _ _ hb
    obtain ⟨e, he, heb⟩ := Validation.check_opens hcheck ho
    exact ⟨e, hread.mem_iff.mpr (List.mem_filterMap.mpr ⟨x, hx, he⟩), heb⟩
  have hall : ((validate (ofText options text) t v).filter (·.code.opensBlock)).Perm
      (openFaults (ofText options text).symbols) := by
    refine (canonical_filter hsame _).trans ?_
    rw [List.filter_append, keepFirst_append_repeated hdistinct hfound]
    exact hread
  refine ⟨hall, fun s hs b branches hk => ?_⟩
  obtain ⟨l, hl, hkind, hstart, hrange⟩ := (walk_begins options text s hs).openBlock hk
  refine ⟨l.token, (token_of_lexeme hl).1, hkind, hstart, ?_⟩
  have hfault : s.openFault? = some (b.openCause.spanning l.token.range) := by
    rw [hrange (opensWhole hcase hl)]
    simp [openFault?, hk]
  have hone := (openFaults_distinct options text).countP_sameFault (List.mem_filterMap.mpr ⟨s, hs, hfault⟩)
  rw [← hall.countP_eq, List.countP_filter] at hone
  refine (List.countP_congr fun d _ => ?_).trans hone
  rw [Bool.and_eq_true_iff, Bool.and_eq_true_iff, sameFault_iff, beq_iff_eq, beq_iff_eq]
  constructor
  · rintro ⟨hc, hr⟩
    exact ⟨⟨hr.symm, hc.symm⟩, hc ▸ BlockKind.openCause_opensBlock b⟩
  · rintro ⟨⟨hr, hc⟩, -⟩
    exact ⟨hc.symm, hr.symm⟩

/-- For instance a block that is open in another one. -/
theorem open_blocks_reported_nested :
    (validate (ofText .default "CASE [A] WHEN 1 THEN \x7bSUM([B])") .builtin .default).countP
      (·.code.opensBlock) = 2 := by
  have hcase : ∀ x ∈ tokenize "CASE [A] WHEN 1 THEN \x7bSUM([B])", x.kind = .case_ → x.text.utf8ByteSize = 4 := by
    decide +kernel
  rw [List.countP_eq_length_filter, (open_blocks_reported .default .default .builtin _ hcase).1.length_eq]
  decide +kernel

/-- CASE with a long s: the two reports of the block stand at different ranges, of five bytes and of four. -/
theorem open_block_reported_twice :
    (openFaults (ofText .default "caſe 1 when 2 then 3").symbols).length = 1 ∧
      ((analyze .default .default "caſe 1 when 2 then 3").diagnostics.map (·.range)).Perm [⟨0, 5⟩, ⟨0, 4⟩] := by
  have hkept : (keepFirst ((ofText .default "caſe 1 when 2 then 3").faults ++ Validation.findingsAll .builtin .default
      .outside (ofText .default "caſe 1 when 2 then 3").symbols)).map (·.range) = [⟨0, 5⟩, ⟨0, 4⟩] := by
    decide +kernel
  exact ⟨by decide +kernel, hkept ▸ (List.mergeSort_perm _ _).map _⟩

end Calculation.Outline
