import Microrev.Log.OneFile
import Microrev.Programs.Measurement
import Microrev.Programs.Protocols

/-! # Two Programs, One Log

    `protocols.cpp` logs blocks for `parser.py`, `a_measurement.cpp` labelled
    counters for `a_parser.py`, and both append to `dump.dat`. If the file is
    kept between them, in whichever order they are run, each script finds what
    it would find without the other program.
-/

namespace Pcnt

open Lts Text Decimal Grouping Frames Script

namespace SharedLog

section
variable {papi : Papi} {cores cores' : Finset Int} {cfg : CoreConfig} {arch : ArchConfig}
variable {w w1 w2 w1' : World} {es : List Entry} {as : List Stmt} {runs : List TestRun}
variable {ms : List Measurement.Stmt} {os : List (List PAPILLCounter)}
variable {s : State World PAPILLCounter (List Text)} {log : Text}

/-! ### Entries of the Programs -/

/-- A script goes on with any log. -/
theorem exec_written (h : Written papi w es) (hdump : w1.dump = w.dump)
    (hexec : Exec (BenchStep papi cores cfg) as w1 runs w2) :
    ∃ w', w'.dump = w2.dump ∧ Written papi w' (es ++ runs.map (Entry.run cfg)) := by
  induction hexec generalizing w es with
  | nil => exact ⟨w, hdump.symm, by simpa using h⟩
  | cons hstep hrest ih =>
    cases hstep with
    | setup _ _ => exact ih h hdump
    | pr_co_setup _ _ => exact ih h hdump
    | run_test _ hrun =>
      obtain ⟨w', hw', hwritten⟩ := ih (h.run hdump hrun) rfl
      exact ⟨w', hw', by simpa using hwritten⟩

/-- And so do the calls of `stats`. -/
theorem stats_written (h : Written papi w es) (pcs : List PAPILLCounter) :
    ∃ w', w'.dump = w.dump ++ unlines (pcs.flatMap fun pc => pc.lines papi) ∧
      Written papi w' (es ++ pcs.map Entry.stats) := by
  induction pcs generalizing w es with
  | nil => exact ⟨w, by simp, by simpa using h⟩
  | cons pc pcs ih =>
    obtain ⟨w', hw', hwritten⟩ := ih (h.stats rfl)
    refine ⟨w', ?_, by simpa using hwritten⟩
    rw [hw', List.flatMap_cons, unlines_append, ← List.append_assoc, ← stats_to_stream_lines]
    rfl

theorem measurement_written (h : Written papi w es) (hdump : w2.dump = w.dump)
    (hmain : Measurement.main arch = some ms)
    (hexec : Exec (ReuseStep (papiApi papi)) (ms.map (Measurement.Stmt.meaning papi cores' arch))
      (initial [] w2) os s) (hnames : papi.Names Measurement.event_sets.flatten) :
    ∃ w', w'.dump = s.world.dump ∧ Written papi w' (es ++ os.flatten.map Entry.stats) := by
  obtain ⟨w', hw', hwritten⟩ := stats_written h os.flatten
  refine ⟨w', ?_, hwritten⟩
  rw [hw', (Measurement.main_passes hmain hexec hnames).2, hdump]

/-! ### Both Scripts -/

theorem filterMap_runs (cfg : CoreConfig) (runs : List TestRun) :
    (runs.map (Entry.run cfg)).filterMap Entry.run? = runs ∧
      (runs.map (Entry.run cfg)).filterMap Entry.counter? = [] := by
  simp [List.filterMap_map, Function.comp_def, Entry.run?, Entry.counter?]

theorem filterMap_stats (pcs : List PAPILLCounter) :
    (pcs.map Entry.stats).filterMap Entry.run? = [] ∧
      (pcs.map Entry.stats).filterMap Entry.counter? = pcs := by
  simp [List.filterMap_map, Function.comp_def, Entry.run?, Entry.counter?]

/-- A file with the entries of two programs. -/
def Shared (papi : Papi) (runs : List TestRun) (pcs : List PAPILLCounter) (log : Text) : Prop :=
  ∃ w es, Written papi w es ∧ w.dump = log ∧ es.filterMap Entry.run? = runs ∧
    es.filterMap Entry.counter? = pcs

/-- One program after the other, on the same file. -/
def EitherOrder (w1 w1' w2 w2' : World) (log : Text) : Prop :=
  (w1.dump = [] ∧ w2.dump = w1'.dump ∧ log = w2'.dump) ∨
    (w2.dump = [] ∧ w1.dump = w2'.dump ∧ log = w1'.dump)

theorem EitherOrder.shared (hlog : EitherOrder w1 w1' w2 s.world log)
    (h1 : Exec (BenchStep papi cores cfg) as w1 runs w1')
    (hmain : Measurement.main arch = some ms)
    (h2 : Exec (ReuseStep (papiApi papi)) (ms.map (Measurement.Stmt.meaning papi cores' arch))
      (initial [] w2) os s) (hnames : papi.Names Measurement.event_sets.flatten) :
    Shared papi runs os.flatten log := by
  obtain ⟨hruns, hnone⟩ := filterMap_runs cfg runs
  obtain ⟨hnone', hpcs⟩ := filterMap_stats os.flatten
  rcases hlog with ⟨hempty, hnext, rfl⟩ | ⟨hempty, hnext, rfl⟩
  · obtain ⟨w, hw, hfirst⟩ := exec_written (.start hempty) rfl h1
    obtain ⟨w', hw', hboth⟩ := measurement_written hfirst (hnext.trans hw.symm) hmain h2 hnames
    refine ⟨w', _, hboth, hw', ?_, ?_⟩
    · rw [List.nil_append, List.filterMap_append, hruns, hnone', List.append_nil]
    · rw [List.nil_append, List.filterMap_append, hnone, hpcs, List.nil_append]
  · obtain ⟨w, hw, hfirst⟩ := measurement_written (.start hempty) rfl hmain h2 hnames
    obtain ⟨w', hw', hboth⟩ := exec_written hfirst (hnext.trans hw.symm) h1
    refine ⟨w', _, hboth, hw', ?_, ?_⟩
    · rw [List.nil_append, List.filterMap_append, hruns, hnone', List.nil_append]
    · rw [List.nil_append, List.filterMap_append, hnone, hpcs, List.append_nil]

variable {pcs : List PAPILLCounter}

/-- Both scripts get through. -/
theorem Shared.collected (h : Shared papi runs pcs log)
    (hruns : ∀ r ∈ runs, r.cnt_vec ≠ [] ∧ papi.Names r.cnt_vec ∧
      (∀ e ∈ r.cnt_vec, e ≠ [] ∧ ¬ "~~".toList <+: e) ∧ r.test ≠ .flush)
    (hpcs : ∀ pc ∈ pcs, Printable papi pc) :
    (∀ r ∈ runs, r.Outcome papi) ∧
    (∃ res, parse_log log = some res ∧ Collected res (runs.map fun r => r.reading papi)) ∧
    (∃ res, AParser.parse_log log = some res ∧
      Collected res ((pcs.filter fun pc => pc.Labelled).map fun pc => pc.reading papi)) := by
  obtain ⟨w, es, hwritten, rfl, rfl, rfl⟩ := h
  have hfit : ∀ e ∈ es, e.Fit papi := by
    intro e he
    cases e with
    | run cfg r =>
      obtain ⟨hcnt, hnames, hun, -⟩ := hruns r (mem_runs.mpr ⟨cfg, he⟩)
      exact ⟨hcnt, hnames, hun⟩
    | stats pc => exact hpcs pc (mem_counters.mpr he)
  refine ⟨?_, hwritten.parses hfit ?_, hwritten.parses_labels hfit⟩
  · intro r hr
    obtain ⟨cfg, he⟩ := mem_runs.mp hr
    exact (hwritten.log hfit).1 cfg r he
  · exact fun cfg r he => (hruns r (mem_runs.mpr ⟨cfg, he⟩)).2.2.2

/-- **Two programs, one log**: in either order, each script finds all results
    of its own program, and makes its tables of them. -/
theorem both_found {F : Type} {pd : Pandas F} (hpd : Lawful pd)
    (hlog : EitherOrder w1 w1' w2 s.world log)
    (h1 : Exec (BenchStep papi cores cfg) Protocols.main w1 runs w1')
    (hmain : Measurement.main arch = some ms)
    (h2 : Exec (ReuseStep (papiApi papi)) (ms.map (Measurement.Stmt.meaning papi cores' arch))
      (initial [] w2) os s)
    (hcounters : papi.Names Protocols.counters)
    (hevents : papi.Names Measurement.event_sets.flatten) :
    (∃ res, parse_log log = some res ∧ Protocols.Measurements papi runs res ∧
      ∀ items, Items res items →
        ∃ r : Results, r.test_res = items ∧ r.runs.length = 384 ∧ DropsNothing pd r) ∧
    (∃ res, AParser.parse_log log = some res ∧
      Measurement.Results papi (Measurement.halvings (4194304 / arch.cache_size)) os res ∧
      ∀ items, Items res items →
        (AParser.RowForEach pd items ↔ arch.cache_size ≤ 4194304)) := by
  have hunmarked : ∀ e ∈ Protocols.counters, e ≠ [] ∧ ¬ "~~".toList <+: e := by decide
  have hruns : ∀ r ∈ runs, r.cnt_vec ≠ [] ∧ papi.Names r.cnt_vec ∧
      (∀ e ∈ r.cnt_vec, e ≠ [] ∧ ¬ "~~".toList <+: e) ∧ r.test ≠ .flush := by
    intro r hr
    obtain ⟨hcnt, hnames⟩ := Protocols.main_cnt_vec h1 hcounters r hr
    refine ⟨hcnt, hnames, ?_, ?_⟩
    · rw [(Protocols.main_mem h1 hr).1]
      exact hunmarked
    · intro heq
      have hp := Protocols.main_protocol h1 r hr
      rw [heq] at hp
      contradiction
  obtain ⟨hpasses, -⟩ := Measurement.main_passes hmain h2 hevents
  have hlabelled : os.flatten.filter (fun pc => pc.Labelled) = os.flatten :=
    List.filter_eq_self.mpr fun pc hpc => decide_eq_true (hpasses.printable pc hpc).2
  obtain ⟨hout, ⟨res, hres, hcol⟩, res', hres', hcol'⟩ :=
    (hlog.shared h1 hmain h2 hevents).collected hruns fun pc hpc => (hpasses.printable pc hpc).1
  have hlogged : Protocols.Logged papi runs res := .of_collected h1 hout hcounters hcol
  rw [hlabelled, Measurement.records_reading hpasses] at hcol'
  constructor
  · exact ⟨res, hres, hlogged.measurements hcounters,
      fun items hitems => hlogged.tables hpd hcounters hitems⟩
  · exact ⟨res', hres', hpasses.results (Measurement.halvings_nodup _) hcol',
      fun items hitems => hpasses.rows hpd (Measurement.main_some hmain).1 hcol' hitems⟩

/-! ### An Execution of Both -/

end

/-- PAPI with the events of both programs. -/
def bothPapi : Papi := listPapi (Protocols.counters ++ Measurement.event_sets.flatten)

theorem bothPapi_names : bothPapi.Names (Protocols.counters ++ Measurement.event_sets.flatten) :=
  listPapi_names (by decide)

theorem both_found_two_cores : ∃ (runs : List TestRun) (w : World) (os : List (List PAPILLCounter))
    (s : State World PAPILLCounter (List Text)) (res res' : TestRes),
    Exec (BenchStep bothPapi {0, 1} twoCores) Protocols.main (coldStart oneLine) runs w ∧
    parse_log s.world.dump = some res ∧ Protocols.Measurements bothPapi runs res ∧
    AParser.parse_log s.world.dump = some res' ∧ Measurement.Results bothPapi
      (Measurement.halvings (4194304 / Measurement.libraryCfg.cache_size)) os res' := by
  obtain ⟨runs, w, h1⟩ := Protocols.main_can (w := coldStart oneLine) bothPapi {0, 1} twoCores
    (by decide)
  obtain ⟨ms, hmain⟩ := Measurement.library_main
  obtain ⟨os, s, h2⟩ := Measurement.main_can bothPapi {1} hmain (by decide) (by decide) w
  obtain ⟨⟨res, hres, hm, -⟩, res', hres', hresults, -⟩ := both_found plainPandas_lawful
    (.inl ⟨rfl, rfl, rfl⟩) h1 hmain h2
    (fun e he => bothPapi_names e (List.mem_append_left _ he))
    (fun e he => bothPapi_names e (List.mem_append_right _ he))
  exact ⟨runs, w, os, s, res, res', h1, hres, hm, hres', hresults⟩

end SharedLog

end Pcnt
