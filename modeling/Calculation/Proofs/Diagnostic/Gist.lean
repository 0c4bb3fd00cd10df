import Calculation.Diagnostic.Canonical

namespace Calculation.Diagnostic

/-- What is wrong, how bad it is and where. -/
def gist (d : Diagnostic) : Code × Severity × Range :=
  (d.code, d.severity, d.range)

variable {ds es : List Diagnostic}

theorem inPlaceOrder_gist (h : es.map gist = ds.map gist) : (inPlaceOrder es).map gist = (inPlaceOrder ds).map gist := by
  have hsort : ∀ ds : List Diagnostic, (inPlaceOrder ds).map gist = (ds.map gist).mergeSort fun a b =>
      keyLe [a.2.2.start, a.2.2.stop, a.1.number] [b.2.2.start, b.2.2.stop, b.1.number] :=
    fun ds => List.map_mergeSort fun _ _ _ _ => rfl
  rw [hsort, hsort, h]

theorem keepFirst_gist (h : es.map gist = ds.map gist) : (keepFirst es).map gist = (keepFirst ds).map gist := by
  have hfilter : ∀ (d : Diagnostic) (ds : List Diagnostic), (ds.filter fun e => !d.sameFault e).map gist =
      (ds.map gist).filter fun e => !(d.gist.2.2 == e.2.2 && d.gist.1 == e.1) := by
    intro d ds
    rw [List.filter_map]
    rfl
  induction ds generalizing es with
  | nil => rw [List.map_eq_nil_iff.mp h]
  | cons d ds ih =>
    obtain ⟨e, es, rfl, hd, hds⟩ := List.map_eq_cons_iff.mp h
    rw [keepFirst, keepFirst, List.map_cons, List.map_cons, hfilter, hfilter, hd, ih hds]

theorem canonical_gist (h : es.map gist = ds.map gist) : (canonical es).map gist = (canonical ds).map gist := by
  have hsort : ∀ ds : List Diagnostic, (canonical ds).map gist = ((keepFirst ds).map gist).mergeSort fun a b =>
      keyLe [a.2.1.rank, a.2.2.start, a.2.2.stop, a.1.number] [b.2.1.rank, b.2.2.start, b.2.2.stop, b.1.number] :=
    fun ds => List.map_mergeSort fun _ _ _ _ => rfl
  rw [hsort, hsort, keepFirst_gist h]

end Calculation.Diagnostic
