import Microrev.Log.Reading

/-! # The Log of the Protocols Benchmark

    A protocol test prints one record, that of its last schedule. So the
    parser gets back all that was printed: for every key and name the values
    of the runs with that key, in the order of the runs.
-/

namespace Pcnt

open Text Decimal Grouping

/-- The record printed for the last schedule entry. -/
def TestRun.measuredRecord (papi : Papi) (r : TestRun) : List (Text × Text) :=
  match r.counters.getLast? with
  | some pc => pc.record papi
  | none => []

/-- The results are what was measured. -/
structure RoundTrip (papi : Papi) (runs : List TestRun) (res : TestRes) : Prop where
  /-- The keys are those of the runs. -/
  keys : ∀ key, key ∈ res ↔ ∃ r ∈ runs, r.key = key
  /-- Each dictionary has the names of the events of its runs, and `Cycles`. -/
  names : ∀ key d name, res.lookup key = some d →
    (name ∈ d ↔ ∃ r ∈ runs, r.key = key ∧ name ∈ r.cnt_vec ++ ["Cycles".toList])
  /-- Each list is `int(float(text))` of the texts printed, run by run. -/
  values : ∀ key name, (listAt res key name).map some =
    (valuesAt (entriesOf (runs.map fun r => (r.key, r.measuredRecord papi)) key) name).map int_float

section
variable {papi : Papi} {cores : Finset Int} {cfg : CoreConfig} {w : World} {r : TestRun}
variable {runs : List TestRun}

theorem TestRun.Outcome.firstRecord_eq (h : r.Outcome papi) (ht : r.test.protocol = true)
    (hcnt : r.cnt_vec ≠ []) : r.firstRecord papi = r.measuredRecord papi := by
  obtain ⟨pc, hlast, -, -, hrecords⟩ := h.of_protocol ht hcnt
  unfold TestRun.firstRecord TestRun.measuredRecord
  rw [hrecords, hlast]
  rfl

/-- **Log round trip**: the parser gets through the log of a session of
    protocol tests, and gets back what was printed. -/
theorem log_round_trip (h : Session papi cores cfg w runs)
    (hruns : ∀ r ∈ runs, r.test.protocol = true ∧ r.cnt_vec ≠ [])
    (hnames : ∀ r ∈ runs, papi.Names r.cnt_vec) :
    ∃ res, parse_log w.dump = some res ∧ RoundTrip papi runs res := by
  have hcnt : ∀ r ∈ runs, r.cnt_vec ≠ [] := fun r hr => (hruns r hr).2
  have hnf : ∀ r ∈ runs, r.test ≠ .flush := fun r hr heq => by
    simpa [heq, MesiType.protocol] using (hruns r hr).1
  obtain ⟨hout, -⟩ := h.log hcnt
  obtain ⟨res, hres, hcol⟩ := h.parses hcnt hnames
    fun r hr => hnf r (List.dropLast_subset runs hr)
  refine ⟨res, hres, ?_, ?_, ?_⟩
  · intro key
    rw [hcol.mem_iff]
    simp [TestRun.reading]
  · intro key d name hd
    have hrun : ∀ r ∈ runs, (r.reading papi).2.map Prod.fst = r.cnt_vec ++ ["Cycles".toList] := by
      intro r hr
      rw [← (hout r hr).firstRecord_names (hcnt r hr) (hnames r hr) (hnf r hr)]
      simp [TestRun.reading, readEntry]
    rw [hcol.mem_dict_iff hd, List.mem_map]
    constructor
    · rintro ⟨e, he, rfl⟩
      obtain ⟨x, hx, hkey, he⟩ := mem_entriesOf.mp he
      obtain ⟨r, hr, rfl⟩ := List.mem_map.mp hx
      exact ⟨r, hr, hkey, by rw [← hrun r hr]; exact List.mem_map_of_mem he⟩
    · rintro ⟨r, hr, hkey, hname⟩
      rw [← hrun r hr] at hname
      obtain ⟨e, he, rfl⟩ := List.mem_map.mp hname
      exact ⟨e, mem_entriesOf.mpr ⟨_, List.mem_map_of_mem hr, hkey, he⟩, rfl⟩
  · intro key name
    rw [h.values hcnt hnames hcol]
    have hrecords : (runs.map fun r => (r.key, r.firstRecord papi)) =
        runs.map fun r => (r.key, r.measuredRecord papi) := by
      apply List.map_congr_left
      intro r hr
      rw [(hout r hr).firstRecord_eq (hruns r hr).1 (hcnt r hr)]
    rw [hrecords]

end

/-- Two tests under one name and a third under another, each after a new
    setup of four lines. -/
theorem log_round_trip_three_runs :
    ∃ (g : Shared) (w1 w2 w3 : World) (r1 r2 r3 : TestRun) (res : TestRes),
      setup (fun _ _ => 0) 5 4096 256 64 fourLines = some g ∧
      RunTest plainPapi {0, 1} ⟨0, 1, 1, 1, 1⟩ (coldStart g) r1 w1 ∧
      RunTest plainPapi {0, 1} ⟨0, 1, 1, 1, 1⟩ { w1 with shared := g } r2 w2 ∧
      RunTest plainPapi {0, 1} ⟨0, 1, 1, 1, 1⟩ { w2 with shared := g } r3 w3 ∧
      r1.key = r2.key ∧ r1.key ≠ r3.key ∧
      parse_log w3.dump = some res ∧ RoundTrip plainPapi [r1, r2, r3] res := by
  obtain ⟨g, hsetup, -⟩ := setup_four_lines
  have hsize : g.shared_data_size = 256 := SetUp.data_size (.setup hsetup)
  obtain ⟨counters1, w1, hrun1⟩ := run_test_returns plainPapi {0, 1} ⟨0, 1, 1, 1, 1⟩ (coldStart g)
    .load_from_modified .local_ ["x".toList]
  obtain ⟨counters2, w2, hrun2⟩ := run_test_returns plainPapi {0, 1} ⟨0, 1, 1, 1, 1⟩
    { w1 with shared := g } .load_from_modified .local_ ["x".toList]
  obtain ⟨counters3, w3, hrun3⟩ := run_test_returns plainPapi {0, 1} ⟨0, 1, 1, 1, 1⟩
    { w2 with shared := g } .load_from_invalid .local_ ["x".toList]
  have hkept : ∀ w : World, ({ w with shared := g } : World).dump = w.dump := fun _ => rfl
  have hsession := (((Session.start rfl).run rfl hrun1).run (hkept w1) hrun2).run (hkept w2) hrun3
  obtain ⟨res, hres, htrip⟩ := log_round_trip hsession (by simp [MesiType.protocol])
    (by simpa using plainPapi_names)
  refine ⟨g, w1, w2, w3, _, _, _, res, hsetup, hrun1, hrun2, hrun3, rfl, ?_, hres, htrip⟩
  show TestRun.key ⟨_, _, g.shared_data_size, _, _⟩ ≠ TestRun.key ⟨_, _, g.shared_data_size, _, _⟩
  rw [hsize]
  simp only [TestRun.key]
  decide

end Pcnt
