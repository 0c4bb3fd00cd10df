import Mathlib.Data.List.Induction
import Calculation.Proofs.Document.Events
import Calculation.Proofs.Document.Index

/-!
What a document was recovered from. A tally counts the structural faults of a stretch, those recovered from and those
that wait; what waits are the faults behind the last complete symbol. So the tallies of a document add up to what its
events say, whatever stretches they were taken of.
-/
namespace Calculation

namespace Tally

/-- Every fault was recovered from or waits. -/
def Balanced (t : Tally) : Prop :=
  t.recovered + t.pending = t.total

theorem Balanced.followedBy {a b : Tally} (ha : a.Balanced) (hb : b.Balanced) : (a.followedBy b).Balanced := by
  unfold Balanced Tally.followedBy at *
  dsimp only
  split <;> omega

theorem ofEvents_concat (es : List Event) (e : Event) :
    ofEvents (es ++ [e]) = (ofEvents es).followedBy (ofEvent e) := by
  have hone : ofEvents [e] = ofEvent e := zero_followedBy _
  rw [ofEvents_append, hone]

theorem ofEvents_balanced (es : List Event) : (ofEvents es).Balanced := by
  induction es using List.reverseRecOn with
  | nil => rfl
  | append_singleton es e ih =>
    rw [ofEvents_concat]
    refine ih.followedBy ?_
    cases e with
    | valid => rfl
    | fault d =>
      rw [ofEvent]
      split <;> rfl

theorem total_ofEvents (es : List Event) : (ofEvents es).total = es.countP Event.isStructural := by
  induction es using List.reverseRecOn with
  | nil => rfl
  | append_singleton es e ih =>
    rw [ofEvents_concat, List.countP_append, ← ih]
    cases e with
    | valid => rfl
    | fault d => cases hd : d.isStructural <;> simp [ofEvent, hd, Tally.followedBy, oneFault, zero, Event.isStructural]

/-- The faults that wait are those behind the last complete symbol. -/
theorem pending_ofEvents (es : List Event) :
    (ofEvents es).pending = (es.reverse.takeWhile (· != .valid)).countP Event.isStructural := by
  induction es using List.reverseRecOn with
  | nil => rfl
  | append_singleton es e ih =>
    rw [ofEvents_concat, List.reverse_concat]
    cases e with
    | valid => rfl
    | fault d =>
      rw [List.takeWhile_cons_of_pos (by rfl), List.countP_cons, ← ih]
      cases hd : d.isStructural <;> simp [ofEvent, hd, Tally.followedBy, oneFault, zero, Event.isStructural]

/-- The tally of stretches in a row is that of their tallies in a row. -/
theorem ofEvents_flatMap {α : Type} (f : α → List Event) (as : List α) :
    ofEvents (as.flatMap f) = (as.map fun a => ofEvents (f a)).foldl followedBy zero := by
  induction as using List.reverseRecOn with
  | nil => rfl
  | append_singleton as a ih =>
    rw [List.flatMap_append, List.flatMap_singleton, ofEvents_append, ih, List.map_append, List.foldl_append]
    rfl

end Tally

theorem Event.countP_faults (es : List Event) :
    (Event.faults es).countP (·.isStructural) = es.countP Event.isStructural := by
  induction es with
  | nil => rfl
  | cons e es ih =>
    cases e with
    | valid => exact ih
    | fault d =>
      rw [List.countP_cons, ← ih]
      exact List.countP_cons

/-- What a document was recovered from is told by the events of its stretches, whatever stretches they are. -/
theorem Recovery.ofTallies_map {α : Type} (f : α → List Event) (as : List α) :
    Recovery.ofTallies (as.map fun a => .ofEvents (f a)) =
      ⟨(Tally.ofEvents (as.flatMap f)).total, (Tally.ofEvents (as.flatMap f)).recovered⟩ := by
  rw [Recovery.ofTallies, Tally.ofEvents_flatMap]

namespace Outline
open Calculation.Symbol

variable {options : Options} {text : String}

theorem recovery_eq (options : Options) (text : String) : (ofText options text).recovery =
    ⟨(Tally.ofEvents (events options text)).total, (Tally.ofEvents (events options text)).recovered⟩ := by
  have hpieces : (ofText options text).recovery = .ofTallies ((ofText options text).segments.map (·.tally)) := rfl
  have hsegments : (ofText options text).segments = _ := congrArg Reading.segments (reading_eq_ofParts options text)
  have hevents := (Run.events_ofItems (.ofText text.toList) (items options text)).trans (events_items options text)
  rw [hpieces, hsegments, ← hevents, ← Recovery.ofTallies_map]
  refine congrArg Recovery.ofTallies ((Piece.map_segments (fun _ _ _ => rfl) 0 0 _).trans ?_)
  exact List.map_map ..

/-- The tally of a segment is that of some events, of which the segment has the faults. -/
theorem exists_events {g : Segment} (hg : g ∈ (ofText options text).segments) : ∃ es, g.tally = .ofEvents es ∧
    ((ofText options text).faults.extract g.faults.start g.faults.stop).Perm (Event.faults es) := by
  have hsegments : (ofText options text).segments = _ := congrArg Reading.segments (reading_eq_ofParts options text)
  have hfaults : (ofText options text).faults = _ := congrArg Reading.faults (reading_eq_ofParts options text)
  rw [hsegments] at hg
  obtain ⟨i, p, hp, rfl⟩ := Piece.exists_at hg
  obtain ⟨r, -, rfl⟩ := List.mem_map.mp (List.mem_of_getElem? hp)
  refine ⟨r.item.events, rfl, ?_⟩
  rw [hfaults]
  refine (List.Perm.of_eq (Piece.extract_flatMap _ hp)).trans ?_
  exact List.mergeSort_perm _ _

/-- What a document was recovered from is accounted for exactly, however it is cut into stretches. In each segment the
structural faults are counted, and every one was recovered from or waits; in the document they are counted too. What
was not recovered from are the structural faults behind the last complete symbol: the events of the text are the faults
of the outline and, in the order in which they are finished, the ends of its complete symbols, but for comments and for
what is in skipped stretches. Tallies are joined in any grouping, an empty one changing nothing, so that the statements
and comments of a text may be taken together in any way that keeps their order. -/
theorem recovery_accounted (options : Options) (text : String) :
    (∀ g ∈ (ofText options text).segments,
      g.tally.total = ((ofText options text).faults.extract g.faults.start g.faults.stop).countP (·.isStructural) ∧
        g.tally.recovered + g.tally.pending = g.tally.total) ∧
    (ofText options text).recovery.total = (ofText options text).faults.countP (·.isStructural) ∧
    (ofText options text).recovery.total - (ofText options text).recovery.recovered =
      ((events options text).reverse.takeWhile (· != .valid)).countP Event.isStructural ∧
    (ofText options text).faults.Perm (Event.faults (events options text)) ∧
    (events options text).filter (!·.isStructural) =
      (finishedAll (ofText options text).symbols).flatMap (ending options.signatures) ∧
    (∀ a b c : Tally, (a.followedBy b).followedBy c = a.followedBy (b.followedBy c)) ∧
    (∀ a : Tally, Tally.zero.followedBy a = a ∧ a.followedBy .zero = a) ∧
    ∀ groups : List (List Item), groups.flatten = items options text →
      (ofText options text).recovery = .ofTallies (groups.map fun g => .ofEvents (g.flatMap (·.events))) := by
  have hperm := faults_perm options text
  refine ⟨fun g hg => ?_, ?_, ?_, hperm, events_told options text, Tally.followedBy_assoc,
    fun a => ⟨Tally.zero_followedBy a, Tally.followedBy_zero a⟩, fun groups hgroups => ?_⟩
  · obtain ⟨es, htally, hfaults⟩ := exists_events hg
    rw [htally, hfaults.countP_eq, Event.countP_faults]
    exact ⟨Tally.total_ofEvents es, Tally.ofEvents_balanced es⟩
  · rw [recovery_eq, hperm.countP_eq, Event.countP_faults]
    exact Tally.total_ofEvents _
  · have hbalanced : _ + _ = _ := Tally.ofEvents_balanced (events options text)
    rw [recovery_eq, ← Tally.pending_ofEvents, ← hbalanced]
    exact Nat.add_sub_cancel_left ..
  · rw [recovery_eq, Recovery.ofTallies_map, ← events_items, ← hgroups, ← List.flatMap_id, List.flatMap_assoc]
    rfl

/-- For instance two segments taken together: the fault of the first is recovered from in the second. -/
theorem recovery_accounted_together :
    (ofText .default "([A]\n\n[B]").segments.map (·.tally.pending) = [1, 0] ∧
      (⟨1, 1⟩ : Recovery) = .ofTallies [.ofEvents ((items .default "([A]\n\n[B]").flatMap (·.events))] := by
  have hrecovery : (ofText .default "([A]\n\n[B]").recovery = ⟨1, 1⟩ := by decide +kernel
  obtain ⟨-, -, -, -, -, -, -, htogether⟩ := recovery_accounted .default "([A]\n\n[B]"
  exact ⟨by decide +kernel, hrecovery ▸ htogether [items .default "([A]\n\n[B]"] (by simp)⟩

end Outline

end Calculation
