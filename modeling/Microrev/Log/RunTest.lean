import Microrev.Harness.Serial
import Microrev.Bench.InitState
import Microrev.Log.Blocks

/-! # Writing the Log (`run_test`)

    One call of `run_test` writes four header lines, runs its schedules on a
    new `CounterBenchmark` object, and prints the counters that have events.
    `counters_with_schedule` has printed its counters before, so a producer
    and consumer run appears twice in the log. The theorems here say what a
    call appends to the log, for every interleaving of its threads.
-/

namespace Pcnt

open Lts Text Decimal

/-! ### The Source Function -/

/-- `mesi_type_t`. -/
inductive MesiType where
  | producer_consumer
  | store_on_modified
  | store_on_exclusive
  | store_on_shared_or_forward
  | store_on_invalid
  | load_from_modified
  | load_from_exclusive
  | load_from_shared_or_forward
  | load_from_invalid
  | flush
  deriving DecidableEq

/-- `core_placement_t`. -/
inductive CorePlacement where
  /-- Same core. -/
  | local_
  /-- Same socket. -/
  | socket
  /-- Across sockets. -/
  | global
  deriving DecidableEq

def mesi_type_des : MesiType → Text
  | .producer_consumer => "PRODUCER_CONSUMER".toList
  | .store_on_modified => "STORE_ON_MODIFIED".toList
  | .store_on_exclusive => "STORE_ON_EXCLUSIVE".toList
  | .store_on_shared_or_forward => "STORE_ON_SHARED_OR_FORWARD".toList
  | .store_on_invalid => "STORE_ON_INVALID".toList
  | .load_from_modified => "LOAD_FROM_MODIFIED".toList
  | .load_from_exclusive => "LOAD_FROM_EXCLUSIVE".toList
  | .load_from_shared_or_forward => "LOAD_FROM_SHARED_OR_FORWARD".toList
  | .load_from_invalid => "LOAD_FROM_INVALID".toList
  | .flush => "FLUSH".toList

def core_placement_des : CorePlacement → Text
  | .local_ => "LOCAL".toList
  | .socket => "SOCKET".toList
  | .global => "GLOBAL".toList

/-- The globals that `parse_cfg` reads for the placements. -/
structure CoreConfig where
  core_src : Int
  core_socket0 : Int
  core_socket1 : Int
  core_global0 : Int
  core_global1 : Int

def CoreConfig.core_b (cfg : CoreConfig) : CorePlacement → Int
  | .local_ => cfg.core_socket0
  | .socket => cfg.core_socket0
  | .global => cfg.core_global0

def CoreConfig.core_c (cfg : CoreConfig) : CorePlacement → Int
  | .local_ => cfg.core_src
  | .socket => cfg.core_socket1
  | .global => cfg.core_global1

/-- The schedule vector of `run_test( t, c, cnt_vec )`. -/
def run_test_vec (cores : Finset Int) (cfg : CoreConfig) (t : MesiType) (c : CorePlacement)
    (cnt_vec : List Text) : List Sched :=
  let core_a := cfg.core_src
  let core_b := cfg.core_b c
  let core_c := cfg.core_c c
  let vec := [sched core_a (flusher cores) [], sched core_b (flusher cores) [],
    sched core_c (flusher cores) []]
  match t with
  | .producer_consumer =>
    [sched core_a (producer cores) cnt_vec, sched core_c (consumer cores) cnt_vec]
  | .store_on_modified =>
    init_state cores vec M_STATE core_a core_b [] ++ [sched core_c (writer cores) cnt_vec]
  | .store_on_exclusive =>
    init_state cores vec E_STATE core_a core_b [] ++ [sched core_c (writer cores) cnt_vec]
  | .store_on_shared_or_forward =>
    init_state cores vec S_STATE core_a core_b [] ++ [sched core_c (writer cores) cnt_vec]
  | .store_on_invalid =>
    init_state cores vec I_STATE core_a core_b [] ++ [sched core_c (writer cores) cnt_vec]
  | .load_from_modified =>
    init_state cores vec M_STATE core_a core_b [] ++ [sched core_c (reader cores) cnt_vec]
  | .load_from_exclusive =>
    init_state cores vec E_STATE core_a core_b [] ++ [sched core_c (reader cores) cnt_vec]
  | .load_from_shared_or_forward =>
    init_state cores vec S_STATE core_a core_b [] ++ [sched core_c (reader cores) cnt_vec]
  | .load_from_invalid =>
    init_state cores vec I_STATE core_a core_b [] ++ [sched core_c (reader cores) cnt_vec]
  | .flush => vec ++ [sched core_a (flusher cores) []]

/-- The call on the benchmark object, without warm-up either way. -/
def run_test_call (cores : Finset Int) (cfg : CoreConfig) (t : MesiType) (c : CorePlacement)
    (cnt_vec : List Text) : Call World PAPILLCounter (List Text) where
  kind := if t = .producer_consumer then .schedule else .priority
  svec := run_test_vec cores cfg t c cnt_vec
  warmup := 0

/-- The header lines. -/
def run_test_header (cfg : CoreConfig) (t : MesiType) (c : CorePlacement)
    (shared_data_size : BitVec 64) : Text :=
  "TEST RUN\n".toList ++
    ("Working Set Size: ".toList ++ showInt shared_data_size.toNat ++ "\n".toList) ++
    (mesi_type_des t ++ "\n".toList) ++
    ("Core setting: ".toList ++ core_placement_des c ++ " ".toList ++ showInt cfg.core_src ++
      " ".toList ++ showInt (cfg.core_b c) ++ " ".toList ++ showInt (cfg.core_c c) ++ "\n".toList)

/-- Append to `dump.dat`. -/
def World.append (t : Text) (w : World) : World := { w with dump := w.dump ++ t }

/-- The loop at the end: counters without events are not printed. -/
def print_counters (papi : Papi) (w : World) (counters : List PAPILLCounter) : World :=
  counters.foldl (fun w cnt =>
    if cnt.cset.length = 0 then w else (PAPILLCounter.stats papi (w, cnt)).1) w

/-- A call of `run_test`, with the size it found and the counters that the
    benchmark object returned. -/
structure TestRun where
  test : MesiType
  placement : CorePlacement
  size : BitVec 64
  cnt_vec : List Text
  counters : List PAPILLCounter

/-- `run_test` takes the process from `w` to `w'`, with some interleaving of
    the threads. -/
structure RunTest (papi : Papi) (cores : Finset Int) (cfg : CoreConfig) (w : World)
    (r : TestRun) (w' : World) : Prop where
  size : r.size = w.shared.shared_data_size
  run : ∃ s, Reachable (harness (papiApi papi)
      [run_test_call cores cfg r.test r.placement r.cnt_vec]
      (w.append (run_test_header cfg r.test r.placement r.size))) s ∧
    s.pc = .idle ∧ s.todo = [] ∧ s.returned = [r.counters] ∧
    w' = print_counters papi s.world r.counters

/-- Calls of `run_test` one after the other. Before a call anything but the
    log may change. -/
inductive Session (papi : Papi) (cores : Finset Int) (cfg : CoreConfig) :
    World → List TestRun → Prop where
  | start {w : World} : w.dump = [] → Session papi cores cfg w []
  | run {w w1 w2 : World} {runs : List TestRun} {r : TestRun} :
      Session papi cores cfg w runs → w1.dump = w.dump →
      RunTest papi cores cfg w1 r w2 → Session papi cores cfg w2 (runs ++ [r])

/-- The name of the run in the results. -/
def TestRun.key (r : TestRun) : Text :=
  mesi_type_des r.test ++ " ".toList ++ core_placement_des r.placement ++ " ".toList ++
    showInt r.size.toNat

/-- One of the tests of the protocols benchmark. -/
def MesiType.protocol : MesiType → Bool
  | .producer_consumer | .flush => false
  | _ => true

/-! ### Counters that are Printed -/

/-- The names and counts of the events. -/
def PAPILLCounter.samples (papi : Papi) (pc : PAPILLCounter) : List (Text × Text) :=
  (pc.cset.zip pc.measured).map fun e => (papi.event_code_to_name e.1, showInt e.2.toInt)

/-- The record that was printed when the counter got its present cycles. -/
def PAPILLCounter.lastRecord (papi : Papi) (pc : PAPILLCounter) : List (Text × Text) :=
  pc.samples papi ++ [("Cycles".toList, showDouble pc.cycles_measured)]

/-- A counter with one count for each event, one time, and a sum of cycles
    that is far from overflow. -/
structure Counted (papi : Papi) (events : List Text) (pc : PAPILLCounter) : Prop where
  cset : pc.cset = events.map papi.event_name_to_code
  label : pc.label = ""
  measured : pc.measured.length = events.length
  vec : ∃ v, pc.vec_cycles_measured = [v]
  cycles : |pc.cycles_measured| < 10 ^ 30

/-- PAPI gives the names of these events back, and they have no white space. -/
def Papi.Names (papi : Papi) (events : List Text) : Prop :=
  ∀ e ∈ events, papi.event_code_to_name (papi.event_name_to_code e) = e ∧ Solid e

section
variable {papi : Papi} {events : List Text} {pc : PAPILLCounter}

theorem record_eq (papi : Papi) (pc : PAPILLCounter) :
    pc.record papi = pc.samples papi ++ [("Cycles".toList, showDouble pc.cycles)] := rfl

/-- The samples have the names of the events. -/
theorem Counted.samples_names (h : Counted papi events pc) (hnames : papi.Names events) :
    (pc.samples papi).map Prod.fst = events := by
  have hlen : events.length ≤ pc.measured.length := h.measured.ge
  have hcodes : (pc.samples papi).map Prod.fst =
      ((events.map papi.event_name_to_code).zip pc.measured).unzip.1.map
        papi.event_code_to_name := by
    rw [List.unzip_eq_map, ← h.cset]
    simp [PAPILLCounter.samples]
  rw [hcodes, List.unzip_zip_left (by simpa using hlen), List.map_map]
  calc events.map (papi.event_code_to_name ∘ papi.event_name_to_code)
      = events.map id := List.map_congr_left fun e he => (hnames e he).1
    _ = events := List.map_id _

theorem roundDouble_one : roundDouble 1 = 1 := by
  have hulp : ulpExponent 1 = -52 := by
    unfold ulpExponent
    rw [abs_one, Int.log_one_right]
    decide
  unfold roundDouble
  rw [hulp]
  have hexact : (1 : ℚ) / 2 ^ (-52 : ℤ) = ((2 ^ 52 : ℤ) : ℚ) := by norm_num
  rw [hexact]
  unfold roundHalfEven
  norm_num

/-- One printing adds at most what a time stamp can be. -/
theorem cycles_abs_le {v : BitVec 64} (hvec : pc.vec_cycles_measured = [v]) :
    |pc.cycles| ≤ 2 * |pc.cycles_measured| + 10 ^ 21 := by
  have hv : |((v.toInt : ℤ) : ℚ)| ≤ 2 ^ 63 := by
    have h1 := BitVec.le_toInt v
    have h2 := BitVec.toInt_lt (x := v)
    rw [abs_le]
    constructor
    · exact_mod_cast h1
    · exact_mod_cast h2.le
  -- with a single time stamp the division by their number is exact
  have hcycles : pc.cycles = roundDouble (pc.cycles_measured +
      roundDouble (roundDouble v.toInt)) := by
    simp [PAPILLCounter.cycles, hvec, roundDouble_one]
  rw [hcycles]
  have h1 := abs_roundDouble_le (pc.cycles_measured + roundDouble (roundDouble v.toInt))
  have h2 := abs_roundDouble_le (roundDouble v.toInt)
  have h3 := abs_roundDouble_le (v.toInt : ℚ)
  have h4 := abs_add_le pc.cycles_measured (roundDouble (roundDouble v.toInt))
  linarith

theorem readable_number (name : Text) (hname : Solid name) {n : Numeral}
    (hn : |n.value| < 10 ^ 200) : Readable (name, n.text) where
  name := hname
  value := n.solid_text
  value_ne := n.text_ne
  number := by rw [int_float_text n hn]; rfl

theorem readable_cycles {x : ℚ} (hx : |x| < 10 ^ 100) :
    Readable ("Cycles".toList, showDouble x) :=
  readable_number _ (by decide) (doubleNumeral_abs_lt hx)

theorem natAbs_toInt_lt (v : BitVec 64) : v.toInt.natAbs < 10 ^ 20 := by
  have h1 := BitVec.le_toInt v
  have h2 := BitVec.toInt_lt (x := v)
  omega

theorem Counted.samples_readable (h : Counted papi events pc) (hnames : papi.Names events) :
    ∀ e ∈ pc.samples papi, Readable e := by
  intro e he
  have hmem : e.1 ∈ events := by
    rw [← h.samples_names hnames]
    exact List.mem_map_of_mem he
  obtain ⟨q, -, rfl⟩ := List.mem_map.mp he
  exact readable_number _ (hnames _ hmem).2 (intNumeral_abs_lt (natAbs_toInt_lt q.2))

theorem Counted.record_readable (h : Counted papi events pc) (hnames : papi.Names events) :
    ∀ e ∈ pc.record papi, Readable e := by
  intro e he
  rw [record_eq] at he
  rcases List.mem_append.mp he with he | he
  · exact h.samples_readable hnames e he
  · obtain ⟨v, hv⟩ := h.vec
    have hle := cycles_abs_le hv
    have hlt := h.cycles
    rw [List.mem_singleton.mp he]
    exact readable_cycles (by linarith)

/-- All values of the record are numerals of a moderate size. -/
theorem Counted.record_numeral (h : Counted papi events pc) :
    ∀ e ∈ pc.record papi, ∃ n : Numeral, n.text = e.2 ∧ |n.value| < 10 ^ 200 := by
  intro e he
  rw [record_eq] at he
  rcases List.mem_append.mp he with he | he
  · obtain ⟨q, -, rfl⟩ := List.mem_map.mp he
    exact ⟨_, rfl, intNumeral_abs_lt (natAbs_toInt_lt q.2)⟩
  · obtain ⟨v, hv⟩ := h.vec
    have hle := cycles_abs_le hv
    have hlt := h.cycles
    rw [List.mem_singleton.mp he]
    exact ⟨_, rfl, doubleNumeral_abs_lt (by linarith)⟩

theorem Counted.lastRecord_readable (h : Counted papi events pc) (hnames : papi.Names events) :
    ∀ e ∈ pc.lastRecord papi, Readable e := by
  intro e he
  rcases List.mem_append.mp he with he | he
  · exact h.samples_readable hnames e he
  · have hlt := h.cycles
    rw [List.mem_singleton.mp he]
    exact readable_cycles (by linarith)

/-- A counter that a thread has finished, before it is printed. -/
theorem Sampled.counted {sch : Sched} (h : Sampled papi sch pc) (hlabel : sch.label = "") :
    Counted papi sch.events pc where
  cset := h.cset
  label := h.label.trans hlabel
  measured := h.measured
  vec := h.vec
  cycles := by rw [h.cycles]; norm_num

/-- Printing it once leaves it in range. -/
theorem Sampled.counted_printed {sch : Sched} (h : Sampled papi sch pc) (hlabel : sch.label = "") :
    Counted papi sch.events { pc with cycles_measured := pc.cycles } where
  cset := h.cset
  label := h.label.trans hlabel
  measured := h.measured
  vec := h.vec
  cycles := by
    obtain ⟨v, hv⟩ := h.vec
    have hle := cycles_abs_le hv
    rw [h.cycles] at hle
    show |pc.cycles| < 10 ^ 30
    norm_num at hle
    linarith

/-- What is printed for it. -/
theorem Counted.stats_text (h : Counted papi events pc) (hev : events ≠ []) :
    (pc.stats_to_stream papi).1 = unlines (recordLines (pc.record papi)) :=
  stats_to_stream_text papi h.label (by rw [h.cset]; simpa using hev)

theorem Counted.stats_after (h : Counted papi events pc) (hev : events ≠ []) :
    (pc.stats_to_stream papi).2 = { pc with cycles_measured := pc.cycles } := by
  have hset : pc.cset ≠ [] := by
    rw [h.cset]
    simpa using hev
  unfold PAPILLCounter.stats_to_stream
  rw [if_neg (by simp [hset])]

end

/-! ### What the Threads Leave -/

/-- A schedule of `run_test`: no label, and whoever counts takes a sample. -/
structure Plain (sch : Sched) : Prop where
  label : sch.label = ""
  keeps : Keeps sch.benchmark
  measures : sch.events ≠ [] → Measures sch.benchmark

section
variable (papi : Papi) {sch : Sched} {vec : List Sched} {w : World}

theorem Plain.sampled (h : Plain sch) (hev : sch.events ≠ []) (warmup : Nat) (w : World) :
    Sampled papi sch (counter_thread_fn (papiApi papi) warmup sch
      (w, freshCounter (papiApi papi) sch)).2 :=
  thread_sampled papi (h.measures hev) hev warmup w

/-- Schedules without events, in series: nothing is printed, and there will
    be nothing to print. -/
theorem series_quiet (h : ∀ sch ∈ vec, Plain sch ∧ sch.events = []) (warmup : Nat) (w : World) :
    (series (papiApi papi) warmup vec w).1.dump = w.dump ∧
      ∀ pc ∈ (series (papiApi papi) warmup vec w).2, pc.cset = [] := by
  induction vec generalizing w with
  | nil => exact ⟨rfl, by simp [series]⟩
  | cons sch vec ih =>
    obtain ⟨hplain, hev⟩ := h sch (by simp)
    obtain ⟨hdump, hall⟩ := ih (fun x hx => h x (by simp [hx]))
      (counter_thread_fn (papiApi papi) warmup sch (w, freshCounter (papiApi papi) sch)).1
    refine ⟨hdump.trans (thread_dump papi hplain.keeps warmup _), ?_⟩
    intro pc hpc
    rcases List.mem_cons.mp hpc with rfl | hpc
    · rw [(thread_finished papi hplain.keeps warmup w).cset, hev]
      rfl
    · exact hall pc hpc

/-- Threads that come one after the other in some order: nothing is printed
    either, and those that have not come yet have their fresh counters. -/
theorem serial_sampled {c : Call World PAPILLCounter (List Text)}
    (h : ∀ sch ∈ c.svec, Plain sch) {order : List Nat} (hnodup : order.Nodup) (w : World) :
    (serial (papiApi papi) c order w).1.dump = w.dump ∧
      (serial (papiApi papi) c order w).2.length = c.svec.length ∧
      ∀ i sch, c.svec[i]? = some sch → ∃ pc, (serial (papiApi papi) c order w).2[i]? = some pc ∧
        (i ∈ order → sch.events ≠ [] → Sampled papi sch pc) ∧
        (i ∉ order → pc = freshCounter (papiApi papi) sch) := by
  induction order using List.reverseRecOn with
  | nil =>
    refine ⟨rfl, by simp [serial], fun i sch hi => ⟨freshCounter (papiApi papi) sch, ?_⟩⟩
    simp [serial, hi]
  | append_singleton order j ih =>
    obtain ⟨hnodup', -, hdisj⟩ := List.nodup_append.mp hnodup
    obtain ⟨hdump, hlen, hall⟩ := ih hnodup'
    have hj : j ∉ order := fun hmem => hdisj j hmem j (by simp) rfl
    rw [serial_snoc]
    generalize serial (papiApi papi) c order w = wc at *
    unfold threadOp
    cases hsch : c.svec[j]? with
    | none =>
      refine ⟨hdump, hlen, ?_⟩
      intro i sch hi
      obtain ⟨pc, hpc, hin, hout⟩ := hall i sch hi
      have hne : i ≠ j := by
        rintro rfl
        rw [hsch] at hi
        contradiction
      exact ⟨pc, hpc, by simpa [hne] using hin, by simpa [hne] using hout⟩
    | some sch =>
      obtain ⟨pc, hpc, -, hout⟩ := hall j sch hsch
      obtain rfl := hout hj
      have hplain := h sch (List.mem_of_getElem? hsch)
      unfold applyAt
      simp only [hpc]
      refine ⟨(thread_dump papi hplain.keeps c.warmup _).trans hdump, by simpa using hlen,
        fun i sch' hi => ?_⟩
      by_cases hij : i = j
      · subst hij
        obtain rfl := Option.some.inj (hi.symm.trans hsch)
        obtain ⟨hlt, -⟩ := List.getElem?_eq_some_iff.mp hpc
        refine ⟨_, List.getElem?_set_self hlt, fun _ hev => hplain.sampled papi hev c.warmup wc.1,
          by simp⟩
      · obtain ⟨pc, hpc', hin, hout'⟩ := hall i sch' hi
        refine ⟨pc, by rw [List.getElem?_set_ne (Ne.symm hij)]; exact hpc', ?_, ?_⟩
        · simpa [hij] using hin
        · simpa [hij] using hout'

/-- `stats()` of all counters. -/
theorem statsUpTo_text (cs : List PAPILLCounter) (w : World) :
    statsUpTo (papiApi papi) cs.length (w, cs) =
      (w.append (cs.flatMap fun pc => (pc.stats_to_stream papi).1),
        cs.map fun pc => (pc.stats_to_stream papi).2) := by
  have hprefix : ∀ k ≤ cs.length, statsUpTo (papiApi papi) k (w, cs) =
      (w.append ((cs.take k).flatMap fun pc => (pc.stats_to_stream papi).1),
        ((cs.take k).map fun pc => (pc.stats_to_stream papi).2) ++ cs.drop k) := by
    intro k hk
    induction k with
    | zero => simp [statsUpTo, World.append]
    | succ k ih =>
      have hlt : k < cs.length := hk
      have hlen : ((cs.take k).map fun pc => (pc.stats_to_stream papi).2).length = k := by
        simp [hlt.le]
      have hmiddle := applyAt_middle (papiApi papi).stats
        (w.append ((cs.take k).flatMap fun pc => (pc.stats_to_stream papi).1))
        ((cs.take k).map fun pc => (pc.stats_to_stream papi).2) (cs.drop (k + 1)) cs[k]
      rw [hlen] at hmiddle
      rw [statsUpTo_succ, ih hlt.le, List.drop_eq_getElem_cons hlt, hmiddle,
        List.take_succ_eq_append_getElem hlt, List.flatMap_append, List.map_append,
        List.append_assoc]
      simp only [papiApi, PAPILLCounter.stats, World.append, List.append_assoc,
        List.flatMap_singleton, List.map_singleton, List.singleton_append]
  simpa using hprefix cs.length le_rfl

/-- The loop at the end of `run_test`. -/
theorem print_counters_eq (w : World) (counters : List PAPILLCounter) :
    print_counters papi w counters =
      w.append ((counters.filter fun pc => pc.cset ≠ []).flatMap fun pc =>
        (pc.stats_to_stream papi).1) := by
  induction counters generalizing w with
  | nil => simp [print_counters, World.append]
  | cons pc counters ih =>
    have hcons : print_counters papi w (pc :: counters) = print_counters papi
        (if pc.cset.length = 0 then w else (PAPILLCounter.stats papi (w, pc)).1) counters := rfl
    rw [hcons, ih]
    by_cases hset : pc.cset = []
    · simp [hset]
    · simp [hset, PAPILLCounter.stats, World.append]

end

/-! ### The Schedules of `run_test` -/

section
variable {cores : Finset Int} {core core_a core_b : Int} {cnt_vec : List Text}
variable {body : Int → Op World PAPILLCounter}

theorem plain_quiet (h : Keeps (body core)) : Plain (sched core body []) :=
  ⟨rfl, h, fun hne => absurd rfl hne⟩

theorem plain_measuring (h : Measures (body core)) (events : List Text) :
    Plain (sched core body events) :=
  ⟨rfl, h.toKeeps, fun _ => h⟩

/-- The preparation counts nothing. -/
theorem init_state_quiet {vec : List Sched} (hvec : ∀ sch ∈ vec, Plain sch ∧ sch.events = [])
    (cc_state : Nat) :
    ∀ sch ∈ init_state cores vec cc_state core_a core_b [], Plain sch ∧ sch.events = [] := by
  have hwriter : ∀ core, Plain (sched core (writer cores) []) := fun core =>
    plain_quiet measures_writer.toKeeps
  have hreader : ∀ core, Plain (sched core (reader cores) []) := fun core =>
    plain_quiet measures_reader.toKeeps
  have hflusher : ∀ core, Plain (sched core (flusher cores) []) := fun core =>
    plain_quiet keeps_flusher
  have hevents : ∀ core body, (sched core body []).events = [] := fun _ _ => rfl
  rw [init_state_append]
  refine List.forall_mem_append.mpr ⟨hvec, ?_⟩
  unfold init_state
  split <;> simp [hwriter, hreader, hflusher, hevents]

theorem flushers_quiet (cores : Finset Int) (l : List Int) :
    ∀ sch ∈ l.map fun core => sched core (flusher cores) [], Plain sch ∧ sch.events = [] := by
  intro sch hsch
  obtain ⟨core, -, rfl⟩ := List.mem_map.mp hsch
  exact ⟨plain_quiet keeps_flusher, rfl⟩

/-- A protocol test counts in its last schedule only. -/
theorem run_test_vec_protocol {t : MesiType} (ht : t.protocol = true) (cores : Finset Int)
    (cfg : CoreConfig) (c : CorePlacement) (cnt_vec : List Text) :
    ∃ prep sch, run_test_vec cores cfg t c cnt_vec = prep ++ [sch] ∧
      (∀ x ∈ prep, Plain x ∧ x.events = []) ∧ Plain sch ∧ sch.events = cnt_vec := by
  have hprep : ∀ cc_state, ∀ x ∈ init_state cores _ cc_state cfg.core_src (cfg.core_b c) [],
      Plain x ∧ x.events = [] :=
    init_state_quiet (flushers_quiet cores [cfg.core_src, cfg.core_b c, cfg.core_c c])
  have hwriter : Plain (sched (cfg.core_c c) (writer cores) cnt_vec) :=
    plain_measuring measures_writer cnt_vec
  have hreader : Plain (sched (cfg.core_c c) (reader cores) cnt_vec) :=
    plain_measuring measures_reader cnt_vec
  cases t with
  | producer_consumer => simp [MesiType.protocol] at ht
  | flush => simp [MesiType.protocol] at ht
  | store_on_modified | store_on_exclusive | store_on_shared_or_forward | store_on_invalid =>
    exact ⟨_, _, rfl, hprep _, hwriter, rfl⟩
  | load_from_modified | load_from_exclusive | load_from_shared_or_forward | load_from_invalid =>
    exact ⟨_, _, rfl, hprep _, hreader, rfl⟩

theorem run_test_vec_flush (cores : Finset Int) (cfg : CoreConfig) (c : CorePlacement)
    (cnt_vec : List Text) :
    ∀ sch ∈ run_test_vec cores cfg .flush c cnt_vec, Plain sch ∧ sch.events = [] :=
  flushers_quiet cores [cfg.core_src, cfg.core_b c, cfg.core_c c, cfg.core_src]

theorem run_test_vec_producer_consumer (cores : Finset Int) (cfg : CoreConfig)
    (c : CorePlacement) (cnt_vec : List Text) :
    ∀ sch ∈ run_test_vec cores cfg .producer_consumer c cnt_vec,
      Plain sch ∧ sch.events = cnt_vec := by
  intro sch hsch
  simp only [run_test_vec, List.mem_cons, List.not_mem_nil, or_false] at hsch
  rcases hsch with rfl | rfl
  · exact ⟨plain_measuring measures_producer cnt_vec, rfl⟩
  · exact ⟨plain_measuring measures_consumer cnt_vec, rfl⟩

end

/-! ### What a Call Appends -/

/-- The records of a call. In a producer and consumer run the benchmark
    object has printed all of them once already. -/
def TestRun.records (papi : Papi) (r : TestRun) : List (List (Text × Text)) :=
  match r.test with
  | .producer_consumer =>
    r.counters.map (fun pc => pc.lastRecord papi) ++ r.counters.map (fun pc => pc.record papi)
  | _ => (r.counters.filter fun pc => pc.cset ≠ []).map (fun pc => pc.record papi)

/-- The block that a call appends to the log. -/
def TestRun.block (papi : Papi) (cfg : CoreConfig) (r : TestRun) : Block where
  test := mesi_type_des r.test
  place := core_placement_des r.placement
  size := showInt r.size.toNat
  cores := (showInt cfg.core_src, showInt (cfg.core_b r.placement),
    showInt (cfg.core_c r.placement))
  records := r.records papi

/-- What the benchmark object returned: which counters have events, and that
    these have counted them. -/
def TestRun.Outcome (papi : Papi) (r : TestRun) : Prop :=
  match r.test with
  | .producer_consumer => ∃ p q, r.counters = [p, q] ∧
      Counted papi r.cnt_vec p ∧ Counted papi r.cnt_vec q
  | .flush => ∀ pc ∈ r.counters, pc.cset = []
  | _ => ∃ prep pc, r.counters = prep ++ [pc] ∧ (∀ x ∈ prep, x.cset = []) ∧
      Counted papi r.cnt_vec pc

section
variable {papi : Papi} {cores : Finset Int} {cfg : CoreConfig} {w w' : World} {r : TestRun}

theorem TestRun.header_text (papi : Papi) (cfg : CoreConfig) (r : TestRun) :
    run_test_header cfg r.test r.placement r.size = unlines (r.block papi cfg).header := by
  have hend : "\n".toList = ['\n'] := rfl
  have hstart : "TEST RUN\n".toList = "TEST RUN".toList ++ ['\n'] := rfl
  unfold run_test_header TestRun.block Block.header Block.coreLine
  simp only [hend, hstart, unlines_cons, unlines_nil, List.append_assoc,
    List.cons_append, List.nil_append]

theorem unlines_records (rs : List (List (Text × Text))) :
    unlines (rs.flatMap recordLines) = rs.flatMap fun es => unlines (recordLines es) := by
  induction rs with
  | nil => rfl
  | cons es rs ih => rw [List.flatMap_cons, unlines_append, ih, List.flatMap_cons]

/-- The text of the block of a call. -/
theorem TestRun.lines_text (papi : Papi) (cfg : CoreConfig) (r : TestRun) :
    unlines (r.block papi cfg).lines = run_test_header cfg r.test r.placement r.size ++
      (r.records papi).flatMap fun es => unlines (recordLines es) := by
  rw [Block.lines, unlines_append, unlines_records, r.header_text papi cfg]
  rfl

theorem Counted.cset_ne {events : List Text} {pc : PAPILLCounter} (h : Counted papi events pc)
    (hev : events ≠ []) : pc.cset ≠ [] := by
  rw [h.cset]
  simpa using hev

theorem MesiType.kinds (t : MesiType) :
    t = .producer_consumer ∨ t = .flush ∨ t.protocol = true := by
  cases t <;> decide

theorem TestRun.Outcome.of_producer_consumer (h : r.Outcome papi)
    (ht : r.test = .producer_consumer) :
    ∃ p q, r.counters = [p, q] ∧ Counted papi r.cnt_vec p ∧ Counted papi r.cnt_vec q ∧
      r.records papi = [p.lastRecord papi, q.lastRecord papi, p.record papi, q.record papi] := by
  simp only [TestRun.Outcome, ht] at h
  obtain ⟨p, q, hcounters, hp, hq⟩ := h
  refine ⟨p, q, hcounters, hp, hq, ?_⟩
  simp only [TestRun.records, ht, hcounters]
  rfl

theorem TestRun.Outcome.of_flush (h : r.Outcome papi) (ht : r.test = .flush) :
    (r.counters.filter fun pc => pc.cset ≠ []) = [] ∧ r.records papi = [] := by
  simp only [TestRun.Outcome, ht] at h
  have hfilter : (r.counters.filter fun pc => pc.cset ≠ []) = [] := by
    simpa using h
  refine ⟨hfilter, ?_⟩
  simp only [TestRun.records, ht, hfilter]
  rfl

theorem TestRun.Outcome.of_protocol (h : r.Outcome papi) (ht : r.test.protocol = true)
    (hcnt : r.cnt_vec ≠ []) :
    ∃ pc, r.counters.getLast? = some pc ∧ Counted papi r.cnt_vec pc ∧
      (r.counters.filter fun pc => pc.cset ≠ []) = [pc] ∧ r.records papi = [pc.record papi] := by
  have hout : ∃ prep pc, r.counters = prep ++ [pc] ∧ (∀ x ∈ prep, x.cset = []) ∧
      Counted papi r.cnt_vec pc := by
    unfold TestRun.Outcome at h
    split at h
    · next heq => simp [heq, MesiType.protocol] at ht
    · next heq => simp [heq, MesiType.protocol] at ht
    · exact h
  obtain ⟨prep, pc, hcounters, hprep, hpc⟩ := hout
  have hset := hpc.cset_ne hcnt
  have hfilter : (r.counters.filter fun pc => pc.cset ≠ []) = [pc] := by
    rw [hcounters, List.filter_append]
    simpa [hset] using hprep
  refine ⟨pc, by simp [hcounters], hpc, hfilter, ?_⟩
  unfold TestRun.records
  split
  · next heq => simp [heq, MesiType.protocol] at ht
  · rw [hfilter]
    rfl

/-- A priority call: the series, and then the loop at the end. -/
theorem RunTest.priority (h : RunTest papi cores cfg w r w') (ht : r.test ≠ .producer_consumer) :
    ∃ w1, series (papiApi papi) 0 (run_test_vec cores cfg r.test r.placement r.cnt_vec)
        (w.append (run_test_header cfg r.test r.placement r.size)) = (w1, r.counters) ∧
      w' = print_counters papi w1 r.counters := by
  obtain ⟨s, hs, hidle, htodo, hret, hw'⟩ := h.run
  have hk : (run_test_call cores cfg r.test r.placement r.cnt_vec).kind = .priority := if_neg ht
  obtain ⟨hworld, hreturned⟩ := series_called hk hs hidle htodo
  have hcounters : _ = r.counters := (List.cons.inj (hreturned.symm.trans hret)).1
  exact ⟨s.world, Prod.ext hworld hcounters, hw'⟩

/-- A protocol test prints the counter of its last schedule. -/
theorem RunTest.protocol (h : RunTest papi cores cfg w r w') (ht : r.test.protocol = true)
    (hcnt : r.cnt_vec ≠ []) :
    r.Outcome papi ∧ w'.dump = w.dump ++ unlines (r.block papi cfg).lines := by
  have hne : r.test ≠ .producer_consumer := by
    intro heq
    simp [heq, MesiType.protocol] at ht
  have hnf : r.test ≠ .flush := by
    intro heq
    simp [heq, MesiType.protocol] at ht
  obtain ⟨w1, hseries, rfl⟩ := h.priority hne
  obtain ⟨prep, sch, hvec, hprep, hplain, hev⟩ :=
    run_test_vec_protocol ht cores cfg r.placement r.cnt_vec
  rw [hvec, series_snoc] at hseries
  obtain ⟨hworld, hcounters⟩ := Prod.mk.inj hseries
  obtain ⟨hdump, hquiet⟩ := series_quiet papi hprep 0
    (w.append (run_test_header cfg r.test r.placement r.size))
  -- only the last schedule has events, so only its counter is printed
  have hsampled := hplain.sampled papi (by rwa [hev]) 0
    (series (papiApi papi) 0 prep (w.append (run_test_header cfg r.test r.placement r.size))).1
  have hlast := hsampled.counted hplain.label
  have hdump' : w1.dump = w.dump ++ run_test_header cfg r.test r.placement r.size := by
    rw [← hworld]
    exact (thread_dump papi hplain.keeps 0 _).trans hdump
  generalize (counter_thread_fn _ _ _ _).2 = pc at hcounters hlast
  generalize (series _ _ _ _).2 = pcs at hcounters hquiet
  rw [hev] at hlast
  have hout : r.Outcome papi := by
    unfold TestRun.Outcome
    split
    · contradiction
    · contradiction
    · exact ⟨pcs, pc, hcounters.symm, hquiet, hlast⟩
  obtain ⟨pc', hget, -, hfilter, hrecords⟩ := hout.of_protocol ht hcnt
  obtain rfl : pc = pc' := by simpa [← hcounters] using hget
  refine ⟨hout, ?_⟩
  rw [print_counters_eq, hfilter, r.lines_text, hrecords]
  simp only [World.append, List.flatMap_cons, List.flatMap_nil, List.append_nil,
    hlast.stats_text hcnt, hdump', List.append_assoc]

/-- A flush prints no record. -/
theorem RunTest.flush (h : RunTest papi cores cfg w r w') (ht : r.test = .flush) :
    r.Outcome papi ∧ w'.dump = w.dump ++ unlines (r.block papi cfg).lines := by
  obtain ⟨w1, hseries, rfl⟩ := h.priority (by simp [ht])
  obtain ⟨hdump, hquiet⟩ := series_quiet papi
    (run_test_vec_flush cores cfg r.placement r.cnt_vec) 0
    (w.append (run_test_header cfg r.test r.placement r.size))
  rw [← ht, hseries] at hdump hquiet
  have hout : r.Outcome papi := by
    simp only [TestRun.Outcome, ht]
    exact hquiet
  obtain ⟨hfilter, hrecords⟩ := hout.of_flush ht
  refine ⟨hout, ?_⟩
  rw [print_counters_eq, hfilter, r.lines_text, hrecords]
  simp only [World.append, List.flatMap_nil, List.append_nil]
  exact hdump

/-- A producer and consumer run. -/
theorem RunTest.schedule (h : RunTest papi cores cfg w r w') (ht : r.test = .producer_consumer)
    (hcnt : r.cnt_vec ≠ []) :
    r.Outcome papi ∧ w'.dump = w.dump ++ unlines (r.block papi cfg).lines := by
  obtain ⟨s, hs, hidle, htodo, hret, rfl⟩ := h.run
  have hk : (run_test_call cores cfg r.test r.placement r.cnt_vec).kind = .schedule := if_pos ht
  obtain ⟨cs, order, hcs, hperm, hvalue⟩ := serial_execution hk hs hidle htodo
  rw [hret] at hcs
  obtain rfl : r.counters = cs := (List.cons.inj hcs).1
  have hall : ∀ sch ∈ (run_test_call cores cfg r.test r.placement r.cnt_vec).svec,
      Plain sch ∧ sch.events = r.cnt_vec := by
    show ∀ sch ∈ run_test_vec cores cfg r.test r.placement r.cnt_vec, _
    rw [ht]
    exact run_test_vec_producer_consumer cores cfg r.placement r.cnt_vec
  have hsvec : (run_test_call cores cfg r.test r.placement r.cnt_vec).svec =
      [sched cfg.core_src (producer cores) r.cnt_vec,
        sched (cfg.core_c r.placement) (consumer cores) r.cnt_vec] := by
    show run_test_vec cores cfg r.test r.placement r.cnt_vec = _
    rw [ht]
    rfl
  obtain ⟨hdump, hlen, hcounters⟩ := serial_sampled papi (fun sch hsch => (hall sch hsch).1)
    (hperm.nodup_iff.mpr List.nodup_range)
    (w.append (run_test_header cfg r.test r.placement r.size))
  have horder : ∀ i < 2, i ∈ order := fun i hi => by
    rw [hperm.mem_iff, hsvec]
    simpa using hi
  obtain ⟨p, hp, hdone, -⟩ := hcounters 0 _ (by rw [hsvec]; rfl)
  obtain ⟨q, hq, hdone', -⟩ := hcounters 1 _ (by rw [hsvec]; rfl)
  have hsp := hdone (horder 0 (by decide)) hcnt
  have hsq := hdone' (horder 1 (by decide)) hcnt
  generalize serial (papiApi papi) _ order _ = wc at hdump hlen hp hq hvalue
  obtain ⟨w1, cs⟩ := wc
  rw [← hlen, statsUpTo_text] at hvalue
  obtain ⟨a, b, rfl⟩ := List.length_eq_two.mp (hlen.trans (congrArg List.length hsvec))
  obtain rfl : a = p := Option.some.inj hp
  obtain rfl : b = q := Option.some.inj hq
  obtain ⟨hworld, hreturned⟩ := Prod.mk.inj hvalue
  -- the two counters, before and after they are printed for the first time
  have hca := hsp.counted rfl
  have hcb := hsq.counted rfl
  have hca' := hsp.counted_printed rfl
  have hcb' := hsq.counted_printed rfl
  simp only [List.map_cons, List.map_nil, hca.stats_after hcnt, hcb.stats_after hcnt] at hreturned
  have hout : r.Outcome papi := by
    simp only [TestRun.Outcome, ht]
    exact ⟨_, _, hreturned, hca', hcb'⟩
  -- both counters have events, so the loop at the end prints them again
  have hfilter : (r.counters.filter fun pc => pc.cset ≠ []) = r.counters := by
    rw [hreturned]
    simp [hca.cset_ne hcnt, hcb.cset_ne hcnt]
  have hrecords : r.records papi = [a.record papi, b.record papi] ++
      r.counters.map fun pc => pc.record papi := by
    simp only [TestRun.records, ht, hreturned]
    rfl
  have hstart : w1.dump = w.dump ++ run_test_header cfg r.test r.placement r.size := hdump
  refine ⟨hout, ?_⟩
  rw [print_counters_eq, hfilter, hworld, r.lines_text, hrecords, hreturned]
  simp only [World.append, List.flatMap_cons, List.flatMap_nil, List.map_cons, List.map_nil,
    List.cons_append, List.nil_append, hca.stats_text hcnt, hcb.stats_text hcnt,
    hca'.stats_text hcnt, hcb'.stats_text hcnt, hstart, List.append_assoc, List.append_nil]

/-- **One call**: what the benchmark object returned, and the block that was
    appended to the log. -/
theorem RunTest.appends (h : RunTest papi cores cfg w r w') (hcnt : r.cnt_vec ≠ []) :
    r.Outcome papi ∧ w'.dump = w.dump ++ unlines (r.block papi cfg).lines := by
  cases ht : r.test with
  | producer_consumer => exact h.schedule ht hcnt
  | flush => exact h.flush ht
  | store_on_modified | store_on_exclusive | store_on_shared_or_forward | store_on_invalid
  | load_from_modified | load_from_exclusive | load_from_shared_or_forward
  | load_from_invalid => exact h.protocol (by rw [ht]; rfl) hcnt

/-- **A session**: the log consists of the blocks of the calls. -/
theorem Session.log {runs : List TestRun} (h : Session papi cores cfg w runs)
    (hcnt : ∀ r ∈ runs, r.cnt_vec ≠ []) :
    (∀ r ∈ runs, r.Outcome papi) ∧
      w.dump = unlines ((runs.map fun r => r.block papi cfg).flatMap Block.lines) := by
  induction h with
  | start hempty => exact ⟨by simp, by simp [hempty]⟩
  | @run w w1 w2 runs r _ hdump hrun ih =>
    obtain ⟨hout, hlog⟩ := ih fun x hx => hcnt x (by simp [hx])
    obtain ⟨hout', happ⟩ := hrun.appends (hcnt r (by simp))
    constructor
    · intro x hx
      rcases List.mem_append.mp hx with hx | hx
      · exact hout x hx
      · rw [List.mem_singleton.mp hx]
        exact hout'
    · rw [happ, hdump, hlog]
      simp

theorem solid_showInt (i : Int) : Solid (showInt i) := (intNumeral i).solid_text

/-- The header of a block consists of words. -/
theorem TestRun.block_wellFormed (cfg : CoreConfig) {r : TestRun}
    (hrecords : ∀ es ∈ r.records papi, ∀ e ∈ es, Readable e) :
    (r.block papi cfg).WellFormed where
  test := by
    show Solid (mesi_type_des r.test) ∧ mesi_type_des r.test ≠ []
    cases r.test <;> decide
  place := by
    show Solid (core_placement_des r.placement)
    cases r.placement <;> decide
  size := ⟨solid_showInt _, (intNumeral _).text_ne⟩
  core_a := solid_showInt _
  core_b := solid_showInt _
  core_c := ⟨solid_showInt _, (intNumeral _).text_ne⟩
  records := hrecords

/-- **A call can return**, from any state of the process. -/
theorem run_test_returns (papi : Papi) (cores : Finset Int) (cfg : CoreConfig) (w : World)
    (t : MesiType) (c : CorePlacement) (cnt_vec : List Text) :
    ∃ counters w', RunTest papi cores cfg w
      ⟨t, c, w.shared.shared_data_size, cnt_vec, counters⟩ w' := by
  -- a single call on a new benchmark object always can finish
  have hcan : CanReach (harness (papiApi papi) [run_test_call cores cfg t c cnt_vec]
      (w.append (run_test_header cfg t c w.shared.shared_data_size))) (initial _ _)
      fun s => s.pc = .idle ∧ s.todo = [] := can_finish (List.pairwise_singleton _ _)
  obtain ⟨s, hs, hidle, htodo⟩ := (Reachable.init rfl).can hcan
  have hret : ∃ counters, s.returned = [counters] := by
    by_cases ht : t = .producer_consumer
    · obtain ⟨cs, -, hcs, -⟩ := serial_execution (if_pos ht) hs hidle htodo
      exact ⟨cs, hcs⟩
    · have hk : (run_test_call cores cfg t c cnt_vec).kind = .priority := if_neg ht
      exact ⟨_, (series_called hk hs hidle htodo).2⟩
  obtain ⟨counters, hret⟩ := hret
  exact ⟨counters, print_counters papi s.world counters, rfl, s, hs, hidle, htodo, hret, rfl⟩

end

end Pcnt
