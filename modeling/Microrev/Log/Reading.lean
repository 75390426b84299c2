import Microrev.Log.RunTest

/-! # Reading a Session

    What the parser makes of the log of a session. It gets through unless a
    flush is followed by another run, and of every run it takes the first
    record, whatever was printed after that.
-/

namespace Pcnt

open Lts Text Decimal Grouping

/-! ### Runs -/

/-- What the parser takes from a run: the first record that was printed. -/
def TestRun.firstRecord (papi : Papi) (r : TestRun) : List (Text × Text) :=
  (r.records papi).headD []

/-- No flush but the last run. -/
def FlushLast (runs : List TestRun) : Prop := ∀ r ∈ runs.dropLast, r.test ≠ .flush

section
variable {papi : Papi} {cores : Finset Int} {cfg : CoreConfig} {w w' : World} {r : TestRun}
variable {runs : List TestRun}

/-! ### The Blocks of a Session -/

theorem TestRun.Outcome.readable (h : r.Outcome papi) (hcnt : r.cnt_vec ≠ [])
    (hnames : papi.Names r.cnt_vec) : ∀ es ∈ r.records papi, ∀ e ∈ es, Readable e := by
  rcases r.test.kinds with ht | ht | ht
  · obtain ⟨p, q, -, hp, hq, hrecords⟩ := h.of_producer_consumer ht
    rw [hrecords]
    simp only [List.forall_mem_cons]
    exact ⟨hp.lastRecord_readable hnames, hq.lastRecord_readable hnames,
      hp.record_readable hnames, hq.record_readable hnames, by simp⟩
  · rw [(h.of_flush ht).2]
    simp
  · obtain ⟨pc, -, hpc, -, hrecords⟩ := h.of_protocol ht hcnt
    rw [hrecords]
    simp only [List.forall_mem_cons]
    exact ⟨hpc.record_readable hnames, by simp⟩

/-- Only a flush has no record. -/
theorem TestRun.Outcome.records_ne (h : r.Outcome papi) (hcnt : r.cnt_vec ≠ [])
    (ht : r.test ≠ .flush) : r.records papi ≠ [] := by
  rcases r.test.kinds with hk | hk | hk
  · obtain ⟨p, q, -, -, -, hrecords⟩ := h.of_producer_consumer hk
    simp [hrecords]
  · contradiction
  · obtain ⟨pc, -, -, -, hrecords⟩ := h.of_protocol hk hcnt
    simp [hrecords]

/-- The names that the parser gets to see: nothing of a flush, and of every
    other run each event once. -/
theorem TestRun.Outcome.firstRecord_names (h : r.Outcome papi) (hcnt : r.cnt_vec ≠ [])
    (hnames : papi.Names r.cnt_vec) (ht : r.test ≠ .flush) :
    (r.firstRecord papi).map Prod.fst = r.cnt_vec ++ ["Cycles".toList] := by
  unfold TestRun.firstRecord
  rcases r.test.kinds with hk | hk | hk
  · obtain ⟨p, q, -, hp, -, hrecords⟩ := h.of_producer_consumer hk
    rw [hrecords, List.headD_cons, PAPILLCounter.lastRecord, List.map_append,
      hp.samples_names hnames]
    rfl
  · contradiction
  · obtain ⟨pc, -, hpc, -, hrecords⟩ := h.of_protocol hk hcnt
    rw [hrecords, List.headD_cons, record_eq, List.map_append, hpc.samples_names hnames]
    rfl

theorem Session.wellFormed (h : Session papi cores cfg w runs) (hcnt : ∀ r ∈ runs, r.cnt_vec ≠ [])
    (hnames : ∀ r ∈ runs, papi.Names r.cnt_vec) :
    ∀ b ∈ runs.map fun r => r.block papi cfg, b.WellFormed := by
  intro b hb
  obtain ⟨r, hr, rfl⟩ := List.mem_map.mp hb
  exact r.block_wellFormed cfg (((h.log hcnt).1 r hr).readable (hcnt r hr) (hnames r hr))

/-- What the parser collects from the runs. -/
def TestRun.reading (papi : Papi) (r : TestRun) : Text × List (Text × Int) :=
  (r.key, (r.firstRecord papi).map readEntry)

/-- **A session that can be read**: with flushes at the end only, the parser
    collects the first record of every run. -/
theorem Session.parses (h : Session papi cores cfg w runs) (hcnt : ∀ r ∈ runs, r.cnt_vec ≠ [])
    (hnames : ∀ r ∈ runs, papi.Names r.cnt_vec) (hflush : FlushLast runs) :
    ∃ res, parse_log w.dump = some res ∧ Collected res (runs.map fun r => r.reading papi) := by
  obtain ⟨hout, hlog⟩ := h.log hcnt
  have hmem : ∀ r ∈ runs.dropLast, r ∈ runs := fun r hr => List.dropLast_subset runs hr
  obtain ⟨res, hres, hcol⟩ := parse_log_collects (h.wellFormed hcnt hnames) (by
    rw [← List.map_dropLast]
    intro b hb
    obtain ⟨r, hr, rfl⟩ := List.mem_map.mp hb
    exact (hout r (hmem r hr)).records_ne (hcnt r (hmem r hr)) (hflush r hr))
  refine ⟨res, by rw [hlog, hres], ?_⟩
  rw [List.map_map] at hcol
  exact hcol

/-- **A session that cannot be read**: a flush with another run behind it
    makes the parser raise. -/
theorem Session.raises (h : Session papi cores cfg w runs) (hcnt : ∀ r ∈ runs, r.cnt_vec ≠ [])
    (hnames : ∀ r ∈ runs, papi.Names r.cnt_vec) (hflush : ¬ FlushLast runs) :
    parse_log w.dump = none := by
  obtain ⟨hout, hlog⟩ := h.log hcnt
  unfold FlushLast at hflush
  push Not at hflush
  obtain ⟨r, hr, ht⟩ := hflush
  rw [hlog]
  refine parse_log_raises (h.wellFormed hcnt hnames) ⟨r.block papi cfg, ?_, ?_⟩
  · rw [← List.map_dropLast]
    exact List.mem_map_of_mem hr
  · exact ((hout r (List.dropLast_subset runs hr)).of_flush ht).2

theorem TestRun.Outcome.firstRecord_readable (h : r.Outcome papi) (hcnt : r.cnt_vec ≠ [])
    (hnames : papi.Names r.cnt_vec) : ∀ e ∈ r.firstRecord papi, Readable e := by
  have hall := h.readable hcnt hnames
  unfold TestRun.firstRecord
  cases hrecords : r.records papi with
  | nil => simp
  | cons es rest => exact hall es (by simp [hrecords])

/-- What was collected from runs are the values of their first records. -/
theorem collected_runs (hout : ∀ r ∈ runs, r.Outcome papi) (hcnt : ∀ r ∈ runs, r.cnt_vec ≠ [])
    (hnames : ∀ r ∈ runs, papi.Names r.cnt_vec) {res : TestRes}
    (hcol : Collected res (runs.map fun r => r.reading papi)) (key name : Text) :
    (listAt res key name).map some = (valuesAt
      (entriesOf (runs.map fun r => (r.key, r.firstRecord papi)) key) name).map int_float := by
  have hreading : (runs.map fun r => r.reading papi) =
      (runs.map fun r => (r.key, r.firstRecord papi)).map
        fun x => (x.1, x.2.map readEntry) := by
    rw [List.map_map]
    rfl
  rw [hreading] at hcol
  apply collected_readable hcol
  intro x hx e he
  obtain ⟨r, hr, rfl⟩ := List.mem_map.mp hx
  exact (hout r hr).firstRecord_readable (hcnt r hr) (hnames r hr) e he

/-- The collected values are those of the first records. -/
theorem Session.values (h : Session papi cores cfg w runs) (hcnt : ∀ r ∈ runs, r.cnt_vec ≠ [])
    (hnames : ∀ r ∈ runs, papi.Names r.cnt_vec) {res : TestRes}
    (hcol : Collected res (runs.map fun r => r.reading papi)) (key name : Text) :
    (listAt res key name).map some = (valuesAt
      (entriesOf (runs.map fun r => (r.key, r.firstRecord papi)) key) name).map int_float :=
  collected_runs (h.log hcnt).1 hcnt hnames hcol key name

end

theorem plainPapi_names : plainPapi.Names ["x".toList] := by
  intro e he
  obtain rfl := List.mem_singleton.mp he
  decide

end Pcnt
