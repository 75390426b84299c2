import Microrev.Log.Reading

/-! # The Log of the Producer and Consumer Benchmark

    A flush prints no record, and the next header is taken for one. A
    producer and consumer run prints four records, both counters when its
    call returns and both again at the end, and the parser takes the first
    of them. So the consumer's values are always lost, and the log of the
    benchmark is read completely only when there is nothing to read.
-/

namespace Pcnt

open Text Decimal Grouping

/-- The names and values of all counters with events: the counts, and the
    time that was measured. -/
def TestRun.measured (papi : Papi) (r : TestRun) : List (Text × Text) :=
  (r.counters.filter fun pc => pc.cset ≠ []).flatMap fun pc => pc.lastRecord papi

/-- The parser gets through, and the results have every measured value once,
    under the key of its run and its name. -/
def EveryValueOnce (papi : Papi) (dump : Text) (runs : List TestRun) : Prop :=
  ∃ res, parse_log dump = some res ∧ ∀ key name,
    ((listAt res key name).map some).Perm
      ((valuesAt (entriesOf (runs.map fun r => (r.key, r.measured papi)) key) name).map int_float)

section
variable {papi : Papi} {cores : Finset Int} {cfg : CoreConfig} {w : World} {r : TestRun}
variable {runs : List TestRun}

theorem TestRun.Outcome.measured_flush (h : r.Outcome papi) (ht : r.test = .flush) :
    r.measured papi = [] ∧ r.firstRecord papi = [] := by
  obtain ⟨hfilter, hrecords⟩ := h.of_flush ht
  unfold TestRun.measured TestRun.firstRecord
  rw [hfilter, hrecords]
  exact ⟨rfl, rfl⟩

/-- Twice as many values are measured as the parser gets to see. -/
theorem TestRun.Outcome.length_measured (h : r.Outcome papi)
    (ht : r.test = .flush ∨ r.test = .producer_consumer) (hcnt : r.cnt_vec ≠ [])
    (hnames : papi.Names r.cnt_vec) (name : Text) :
    (valuesAt (r.measured papi) name).length =
      2 * (valuesAt (r.firstRecord papi) name).length := by
  rcases ht with ht | ht
  · obtain ⟨hmeasured, hfirst⟩ := h.measured_flush ht
    simp [hmeasured, hfirst, valuesAt]
  · obtain ⟨p, q, hcounters, hp, hq, hrecords⟩ := h.of_producer_consumer ht
    have hmeasured : r.measured papi = p.lastRecord papi ++ q.lastRecord papi := by
      unfold TestRun.measured
      rw [hcounters]
      simp [hp.cset_ne hcnt, hq.cset_ne hcnt]
    have hfirst : r.firstRecord papi = p.lastRecord papi := by
      unfold TestRun.firstRecord
      rw [hrecords]
      rfl
    -- both counters have the same names
    have hsame : (q.lastRecord papi).map Prod.fst = (p.lastRecord papi).map Prod.fst := by
      unfold PAPILLCounter.lastRecord
      rw [List.map_append, List.map_append, hp.samples_names hnames, hq.samples_names hnames]
      rfl
    rw [hmeasured, hfirst, valuesAt_append, List.length_append,
      valuesAt_length_congr hsame name]
    omega

/-- The parser loses values as soon as there is a producer and consumer run. -/
theorem Session.loses (h : Session papi cores cfg w runs)
    (hruns : ∀ r ∈ runs, (r.test = .flush ∨ r.test = .producer_consumer) ∧ r.cnt_vec ≠ [])
    (hnames : ∀ r ∈ runs, papi.Names r.cnt_vec) (hr : r ∈ runs)
    (ht : r.test = .producer_consumer) : ¬ EveryValueOnce papi w.dump runs := by
  have hcnt : ∀ r ∈ runs, r.cnt_vec ≠ [] := fun r hr => (hruns r hr).2
  obtain ⟨hout, -⟩ := h.log hcnt
  rintro ⟨res, hres, hperm⟩
  have hflush : FlushLast runs := by
    by_contra hnot
    rw [h.raises hcnt hnames hnot] at hres
    contradiction
  obtain ⟨res', hres', hcol⟩ := h.parses hcnt hnames hflush
  obtain rfl : res' = res := Option.some.inj (hres'.symm.trans hres)
  -- compare how many cycles there are for the run
  have hlen := (hperm r.key "Cycles".toList).length_eq
  rw [h.values hcnt hnames hcol, List.length_map, List.length_map, valuesAt_entriesOf_length,
    valuesAt_entriesOf_length] at hlen
  simp only [List.filter_map, List.map_map, Function.comp_def] at hlen
  have htwice : ((runs.filter fun x => x.key = r.key).map fun x =>
      (valuesAt (x.measured papi) "Cycles".toList).length) =
      (runs.filter fun x => x.key = r.key).map fun x =>
        2 * (valuesAt (x.firstRecord papi) "Cycles".toList).length := by
    apply List.map_congr_left
    intro x hx
    have hx := List.mem_of_mem_filter hx
    exact (hout x hx).length_measured (hruns x hx).1 (hcnt x hx) (hnames x hx) _
  rw [htwice, List.sum_map_mul_left] at hlen
  have hzero : ((runs.filter fun x => x.key = r.key).map fun x =>
      (valuesAt (x.firstRecord papi) "Cycles".toList).length).sum = 0 := by omega
  have hnil := List.sum_eq_zero_iff_forall_eq_nat.mp hzero _ (List.mem_map_of_mem
    (List.mem_filter.mpr ⟨hr, decide_eq_true rfl⟩))
  rw [List.length_eq_zero_iff, valuesAt_eq_nil_iff,
    (hout r hr).firstRecord_names (hcnt r hr) (hnames r hr) (by simp [ht])] at hnil
  exact hnil (by simp)

/-- **Incomplete logs**: every measured value is in the results once exactly
    when nothing was measured, and nothing follows a flush. -/
theorem every_value_once_iff (h : Session papi cores cfg w runs)
    (hruns : ∀ r ∈ runs, (r.test = .flush ∨ r.test = .producer_consumer) ∧ r.cnt_vec ≠ [])
    (hnames : ∀ r ∈ runs, papi.Names r.cnt_vec) :
    EveryValueOnce papi w.dump runs ↔ (∀ r ∈ runs, r.test = .flush) ∧ runs.length ≤ 1 := by
  have hcnt : ∀ r ∈ runs, r.cnt_vec ≠ [] := fun r hr => (hruns r hr).2
  obtain ⟨hout, -⟩ := h.log hcnt
  constructor
  · intro honce
    have hall : ∀ r ∈ runs, r.test = .flush := by
      intro r hr
      rcases (hruns r hr).1 with ht | ht
      · exact ht
      · exact absurd honce (h.loses hruns hnames hr ht)
    refine ⟨hall, ?_⟩
    by_contra hlong
    -- then the first of several flushes raises
    have hnot : ¬ FlushLast runs := by
      intro hflush
      have hpos : 0 < runs.dropLast.length := by
        rw [List.length_dropLast]
        omega
      obtain ⟨r, hr⟩ := List.exists_mem_of_length_pos hpos
      exact hflush r hr (hall r (List.dropLast_subset runs hr))
    obtain ⟨res, hres, -⟩ := honce
    rw [h.raises hcnt hnames hnot] at hres
    contradiction
  · rintro ⟨hall, hlen⟩
    have hflush : FlushLast runs := by
      intro r hr
      have hnil : runs.dropLast = [] := List.eq_nil_of_length_eq_zero (by simp; omega)
      simp [hnil] at hr
    obtain ⟨res, hres, hcol⟩ := h.parses hcnt hnames hflush
    refine ⟨res, hres, ?_⟩
    intro key name
    have hsame : (runs.map fun r => (r.key, r.firstRecord papi)) =
        runs.map fun r => (r.key, r.measured papi) := by
      apply List.map_congr_left
      intro r hr
      obtain ⟨hmeasured, hfirst⟩ := (hout r hr).measured_flush (hall r hr)
      rw [hmeasured, hfirst]
    rw [h.values hcnt hnames hcol, hsame]

end

/-- A flush, on one core. -/
theorem every_value_once_one_flush :
    ∃ (g : Shared) (w : World) (r : TestRun),
      pr_co_setup (fun _ _ => 0) 100 4096 64 64 oneLine = some g ∧ r.test = .flush ∧
        RunTest plainPapi {0} ⟨0, 0, 0, 0, 0⟩ (coldStart g) r w ∧
        EveryValueOnce plainPapi w.dump [r] := by
  obtain ⟨g, hsetup, -⟩ := pr_co_setup_one_line
  obtain ⟨counters, w, hrun⟩ := run_test_returns plainPapi {0} ⟨0, 0, 0, 0, 0⟩ (coldStart g)
    .flush .local_ ["x".toList]
  have hiff := every_value_once_iff ((Session.start rfl).run rfl hrun) (by simp)
    (by simpa using plainPapi_names)
  exact ⟨g, w, _, hsetup, rfl, hrun, hiff.mpr (by simp)⟩

/-- A single producer and consumer run, on two cores, loses values. -/
theorem one_run_loses_values :
    ∃ (g : Shared) (w : World) (r : TestRun),
      pr_co_setup (fun _ _ => 0) 100 4096 64 64 oneLine = some g ∧ r.test = .producer_consumer ∧
        RunTest plainPapi {0, 1} ⟨0, 1, 1, 1, 1⟩ (coldStart g) r w ∧
        ¬ EveryValueOnce plainPapi w.dump [r] := by
  obtain ⟨g, hsetup, -⟩ := pr_co_setup_one_line
  obtain ⟨counters, w, hrun⟩ := run_test_returns plainPapi {0, 1} ⟨0, 1, 1, 1, 1⟩ (coldStart g)
    .producer_consumer .socket ["x".toList]
  have hsession := (Session.start rfl).run rfl hrun
  exact ⟨g, w, _, hsetup, rfl, hrun, hsession.loses (by simp) (by simpa using plainPapi_names)
    (List.mem_singleton.mpr rfl) rfl⟩

end Pcnt
