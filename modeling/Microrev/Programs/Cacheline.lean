import Microrev.Bench.InitState
import Microrev.Programs.Benchmarks
import Microrev.Ring.Sequential

/-! # The Cache Line Benchmark (`cacheline.cpp`)

    Eight strides through 32 KB, each on an array of its own, with three
    warm-up calls. There are no events, so `reset` does not clear what the
    warm-up has measured: whatever the threads do, each printed time is an
    average over four chases. And each chase goes round one word more than
    the array has.
-/

namespace Pcnt

open Lts Text Decimal Loop

namespace Cacheline

/-! ### The Program -/

/-- What `init_stride` does to the process. `malloc` gives an address that
    depends on the process; there is fuel for all rounds. -/
def init_ring (cores : Finset Int) (core : Int) (malloc : World → BitVec 64)
    (size stride : BitVec 64) (w : World) : Chase :=
  match init_stride (nodeCount size stride + 1) ⟨w.shared.mem, []⟩ (malloc w) size stride with
  | some (heap, iter) =>
    ⟨iter, { w.access cores core (heap.stored.flatMap fun p => (wordLines p).map .store) with
      shared := { w.shared with mem := heap.mem } }⟩
  | none => ⟨malloc w, w⟩

/-- `accesses`, each of them `HUNDRED`. -/
def loads : Nat := 10000000 * 100

/-- The chase from `iter` with `n` loads, and how long it takes. -/
def chase (cores : Finset Int) (core : Int) (n : Nat) (iter : BitVec 64) (w : World) :
    World × BitVec 64 :=
  let start := w.rdtsc
  let s := upTo (fun _ => Chase.advance cores core) n ⟨iter, start.2⟩
  let finish := s.world.rdtsc
  (finish.2, finish.1 - start.1)

def time_rd_latency (cores : Finset Int) (core : Int) (malloc : World → BitVec 64)
    (size stride : BitVec 64) : Op World PAPILLCounter := fun wc =>
  let r := init_ring cores core malloc size stride wc.1
  sample (chase cores core loads r.iter) (r.world, wc.2)

/-- `test8` to `test1024`, with their labels. -/
def tests : List (BitVec 64 × String) := [(8, "8B"), (16, "16B"), (32, "32B"), (64, "64B"),
  (128, "128B"), (256, "256B"), (512, "512B"), (1024, "1KB")]

def vec (cores : Finset Int) (malloc : World → BitVec 64) : List Sched :=
  tests.map fun t => ⟨1, time_rd_latency cores 1 malloc 32768 t.1, [], t.2⟩

/-- `cbench.counters_with_priority_schedule( vec, 3 )`. -/
def call (cores : Finset Int) (malloc : World → BitVec 64) :
    Call World PAPILLCounter (List Text) where
  kind := .priority
  svec := vec cores malloc
  warmup := 3

/-- `print_stats` for each counter. -/
def output (papi : Papi) (counters : List PAPILLCounter) : Text :=
  counters.flatMap fun c => (c.stats_to_stream papi).1

/-! ### Times -/

/-- The time between two readings of the clock, for every other reading. -/
def interval (clock : Nat → BitVec 64) (k : Nat) : BitVec 64 := clock (2 * k + 1) - clock (2 * k)

/-- Without events the body takes the time once, and does nothing else to its
    counter. -/
structure Timed (op : Op World PAPILLCounter) : Prop where
  counter : ∀ wc, wc.2.cset = [] → (op wc).2 = wc.2.push_cycles (interval wc.1.clock 0)
  clock : ∀ wc, wc.2.cset = [] → (op wc).1.clock = fun k => wc.1.clock (2 + k)
  dump : ∀ wc, (op wc).1.dump = wc.1.dump

section
variable {papi : Papi} {cores : Finset Int} {core : Int} {malloc : World → BitVec 64}
variable {size stride : BitVec 64} {w : World}

theorem init_ring_clock :
    (init_ring cores core malloc size stride w).world.clock = w.clock := by
  unfold init_ring
  split <;> rfl

theorem init_ring_dump : (init_ring cores core malloc size stride w).world.dump = w.dump := by
  unfold init_ring
  split <;> rfl

/-- What any number of loads does. -/
theorem advances (cores : Finset Int) (core : Int) (n : Nat) (s : Chase) :
    (upTo (fun _ => Chase.advance cores core) n s).iter = s.world.shared.mem.load^[n] s.iter ∧
      (upTo (fun _ => Chase.advance cores core) n s).world.shared = s.world.shared ∧
      (upTo (fun _ => Chase.advance cores core) n s).world.clock = s.world.clock ∧
      (upTo (fun _ => Chase.advance cores core) n s).world.dump = s.world.dump := by
  induction n with
  | zero => exact ⟨rfl, rfl, rfl, rfl⟩
  | succ n ih =>
    obtain ⟨hiter, hshared, hclock, hdump⟩ := ih
    refine ⟨?_, hshared, hclock, hdump⟩
    rw [Function.iterate_succ_apply', ← hiter]
    show (upTo _ n s).world.shared.mem.load _ = _
    rw [hshared]

/-- Without events only the time is taken. -/
theorem sample_quiet (f : World → World × BitVec 64) (w : World) {pc : PAPILLCounter}
    (hset : pc.cset = []) : sample f (w, pc) = ((f w).1, pc.push_cycles (f w).2) := by
  have hread : PAPILLCounter.read ((f w).1, pc) = ((f w).1, pc) := by
    unfold PAPILLCounter.read
    rw [if_neg (by simp [hset])]
  show ((PAPILLCounter.read ((f w).1, pc)).1,
    (PAPILLCounter.read ((f w).1, pc)).2.push_cycles (f w).2) = _
  rw [hread]

theorem chase_times (n : Nat) (iter : BitVec 64) (w : World) :
    (chase cores core n iter w).2 = interval w.clock 0 ∧
      (chase cores core n iter w).1.clock = (fun k => w.clock (2 + k)) ∧
      (chase cores core n iter w).1.dump = w.dump := by
  obtain ⟨-, -, hclock, hdump⟩ := advances cores core n ⟨iter, w.rdtsc.2⟩
  unfold chase World.rdtsc at *
  simp only at *
  rw [hclock, hdump]
  refine ⟨rfl, ?_, rfl⟩
  funext k
  rw [Nat.add_comm 2 k]

theorem timed_time_rd_latency : Timed (time_rd_latency cores core malloc size stride) where
  counter wc hset := by
    unfold time_rd_latency
    simp only [sample_quiet _ _ hset, (chase_times _ _ _).1, init_ring_clock]
  clock wc hset := by
    unfold time_rd_latency
    simp only [sample_quiet _ _ hset, (chase_times _ _ _).2.1, init_ring_clock]
  dump wc := by
    have hmeasures : Measures (sample (chase cores core loads
        (init_ring cores core malloc size stride wc.1).iter)) :=
      measures_sample fun w => (chase_times _ _ w).2.2
    exact (hmeasures.dump _).trans init_ring_dump

/-! ### Warm-Up -/

/-- The times of `warmup` calls and of the measured one, for the schedule with
    index `i`. -/
def times (clock : Nat → BitVec 64) (warmup i : Nat) : List (BitVec 64) :=
  (List.range (warmup + 1)).map fun k => interval clock ((warmup + 1) * i + k)

/-- The counter of a schedule without events. -/
def counterAt (clock : Nat → BitVec 64) (warmup i : Nat) (sch : Sched) : PAPILLCounter where
  measured := []
  cset := []
  cycles_measured := 0
  vec_cycles_measured := times clock warmup i
  core_id := sch.core_id
  label := sch.label

theorem interval_shift (clock : Nat → BitVec 64) (m k : Nat) :
    interval (fun j => clock (2 * m + j)) k = interval clock (m + k) := by
  unfold interval
  rw [Nat.mul_add, Nat.add_assoc]

theorem Timed.iterate {op : Op World PAPILLCounter} (h : Timed op) (m : Nat)
    (wc : World × PAPILLCounter) (hset : wc.2.cset = []) :
    (op^[m] wc).2 = { wc.2 with
        vec_cycles_measured :=
          wc.2.vec_cycles_measured ++ (List.range m).map (interval wc.1.clock) } ∧
      (op^[m] wc).1.clock = (fun k => wc.1.clock (2 * m + k)) ∧
      (op^[m] wc).1.dump = wc.1.dump := by
  induction m with
  | zero => simp
  | succ m ih =>
    obtain ⟨hcounter, hclock, hdump⟩ := ih
    have hset' : (op^[m] wc).2.cset = [] := by rw [hcounter, hset]
    rw [Function.iterate_succ_apply']
    refine ⟨?_, ?_, (h.dump _).trans hdump⟩
    · rw [h.counter _ hset', hcounter, hclock, interval_shift, List.range_succ, List.map_append,
        ← List.append_assoc]
      rfl
    · rw [h.clock _ hset', hclock]
      funext k
      show wc.1.clock (2 * m + (2 + k)) = _
      rw [← Nat.add_assoc, Nat.mul_succ]

/-- A thread without events: `reset` changes nothing, so all calls count. -/
theorem Timed.thread (papi : Papi) {sch : Sched} (h : Timed sch.benchmark) (hev : sch.events = [])
    (warmup : Nat) (w : World) :
    let r := counter_thread_fn (papiApi papi) warmup sch (w, freshCounter (papiApi papi) sch)
    r.2 = counterAt w.clock warmup 0 sch ∧
      r.1.clock = (fun k => w.clock (2 * (warmup + 1) + k)) ∧ r.1.dump = w.dump := by
  generalize hwc : addEvents (papiApi papi) sch (w, freshCounter (papiApi papi) sch) = wc
  have hworld : wc.1 = w := by rw [← hwc]; rfl
  have hcounter : wc.2 = { PAPILLCounter.make with
      core_id := sch.core_id, label := sch.label } := by
    rw [← hwc]
    simp [addEvents, papiApi, freshCounter, PAPILLCounter.add, PAPILLCounter.make, hev]
  have hset : wc.2.cset = [] := by rw [hcounter]; rfl
  have hreset : PAPILLCounter.reset (sch.benchmark^[warmup] wc) = sch.benchmark^[warmup] wc := by
    unfold PAPILLCounter.reset
    rw [if_neg (by rw [(h.iterate warmup wc hset).1, hset]; decide)]
  have hthread : counter_thread_fn (papiApi papi) warmup sch
      (w, freshCounter (papiApi papi) sch) = sch.benchmark^[warmup + 1] wc := by
    rw [Function.iterate_succ_apply', ← hreset, ← hwc]
    rfl
  obtain ⟨hlast, hclock, hdump⟩ := h.iterate (warmup + 1) wc hset
  rw [hworld] at hlast hclock hdump
  simp only [hthread, hclock, hdump, and_self, and_true]
  rw [hlast, hcounter]
  simp [counterAt, times, PAPILLCounter.make]

theorem series_timed (papi : Papi) {svec : List Sched}
    (h : ∀ sch ∈ svec, Timed sch.benchmark ∧ sch.events = []) (warmup : Nat) (w : World) :
    (series (papiApi papi) warmup svec w).2 = svec.mapIdx (counterAt w.clock warmup) ∧
      (series (papiApi papi) warmup svec w).1.dump = w.dump := by
  induction svec generalizing w with
  | nil => exact ⟨rfl, rfl⟩
  | cons sch svec ih =>
    obtain ⟨⟨htimed, hev⟩, hrest⟩ := List.forall_mem_cons.mp h
    obtain ⟨hcounter, hclock, hdump⟩ := htimed.thread papi hev warmup w
    obtain ⟨hcounters, hdumps⟩ := ih hrest (counter_thread_fn (papiApi papi) warmup sch
      (w, freshCounter (papiApi papi) sch)).1
    refine ⟨?_, hdumps.trans hdump⟩
    have hnext : ∀ i, counterAt (fun k => w.clock (2 * (warmup + 1) + k)) warmup i =
        counterAt w.clock warmup (i + 1) := by
      intro i
      funext sch
      have htimes : times (fun k => w.clock (2 * (warmup + 1) + k)) warmup i =
          times w.clock warmup (i + 1) := by
        unfold times
        apply List.map_congr_left
        intro k _
        rw [interval_shift, Nat.mul_succ, ← Nat.add_assoc, Nat.add_comm (warmup + 1)]
      unfold counterAt
      rw [htimes]
    rw [List.mapIdx_cons, series]
    simp only [hcounter, hcounters, hclock]
    congr 2
    funext i
    exact hnext i

/-! ### The Output -/

/-- A record without events. -/
def record (label : String) (samples : List (BitVec 64)) : Text :=
  "~~".toList ++ label.toList ++ "~~\n".toList ++
    ("Cycles: ".toList ++
      showDouble { PAPILLCounter.make with vec_cycles_measured := samples }.cycles ++
      "\n".toList) ++ "\n".toList

theorem counterAt_text {sch : Sched} (hlabel : sch.label ≠ "") (clock : Nat → BitVec 64)
    (warmup i : Nat) : ((counterAt clock warmup i sch).stats_to_stream papi).1 =
      record sch.label (times clock warmup i) := by
  have hsome : ¬ ((counterAt clock warmup i sch).cset.length = 0 ∧
      (counterAt clock warmup i sch).vec_cycles_measured.length = 0) := by
    simp [counterAt, times]
  unfold PAPILLCounter.stats_to_stream
  rw [if_neg hsome]
  have hnone : ¬ (counterAt clock warmup i sch).label = "" := hlabel
  rw [if_neg hnone]
  simp [counterAt, record, PAPILLCounter.cycles, PAPILLCounter.make]

variable {s : State World PAPILLCounter (List Text)} {counters : List PAPILLCounter}

/-- **The output**: in every interleaving, the record of a stride has the
    average over four calls, of which three are the warm-up. The log is left
    alone. -/
theorem main_prints (h : Reachable (harness (papiApi papi) [call cores malloc] w) s)
    (hidle : s.pc = .idle) (htodo : s.todo = []) (hret : s.returned = [counters]) :
    s.world.dump = w.dump ∧ output papi counters =
      (tests.mapIdx fun i t => record t.2 (times w.clock 3 i)).flatten := by
  obtain ⟨hworld, hreturned⟩ := series_called rfl h hidle htodo
  have htimed : ∀ sch ∈ vec cores malloc, Timed sch.benchmark ∧ sch.events = [] := by
    intro sch hsch
    obtain ⟨t, -, rfl⟩ := List.mem_map.mp hsch
    exact ⟨timed_time_rd_latency, rfl⟩
  obtain ⟨hcounters, hdump⟩ := series_timed papi htimed 3 w
  have hmine : (series (papiApi papi) 3 (vec cores malloc) w).2 = counters :=
    (List.cons.inj (hreturned.symm.trans hret)).1
  rw [hmine] at hcounters
  refine ⟨hworld ▸ hdump, ?_⟩
  have hlabel : ∀ t ∈ tests, t.2 ≠ "" := by decide
  unfold output
  rw [hcounters, List.flatMap_def]
  apply congrArg List.flatten
  apply List.ext_getElem
  · simp [vec]
  · intro i hi _
    simp only [List.getElem_map, List.getElem_mapIdx, vec]
    exact counterAt_text (hlabel _ (List.getElem_mem _)) _ _ _

/-! ### The Loads -/

/-- `time_rd_latency` after `k` loads. -/
def chaseAt (cores : Finset Int) (core : Int) (malloc : World → BitVec 64)
    (size stride : BitVec 64) (k : Nat) (w : World) : Chase :=
  upTo (fun _ => Chase.advance cores core) k ⟨(init_ring cores core malloc size stride w).iter,
    (init_ring cores core malloc size stride w).world.rdtsc.2⟩

theorem chase_rounds (n : Nat) (w : World) :
    chase cores core n (init_ring cores core malloc size stride w).iter
        (init_ring cores core malloc size stride w).world =
      let finish := (chaseAt cores core malloc size stride n w).world.rdtsc
      (finish.2, finish.1 - (init_ring cores core malloc size stride w).world.rdtsc.1) := rfl

theorem time_rd_latency_rounds (wc : World × PAPILLCounter) :
    time_rd_latency cores core malloc size stride wc =
      sample (fun _ =>
        let finish := (chaseAt cores core malloc size stride loads wc.1).world.rdtsc
        (finish.2, finish.1 - (init_ring cores core malloc size stride wc.1).world.rdtsc.1))
      ((init_ring cores core malloc size stride wc.1).world, wc.2) := by
  unfold time_rd_latency sample
  simp only [PAPILLCounter.start, id_eq, chase_rounds]

/-- All loads of a call: they go to the nodes of its array and to the word
    behind it, to each equally often, give or take one. -/
structure Rounds (cores : Finset Int) (core : Int) (malloc : World → BitVec 64)
    (size stride : BitVec 64) (w : World) : Prop where
  nodes : ∀ k, ∃ j ≤ size.toNat / stride.toNat,
    (chaseAt cores core malloc size stride k w).iter = node (malloc w) stride j
  balanced : ∀ j ≤ size.toNat / stride.toNat,
    ((List.range loads).map fun k => (chaseAt cores core malloc size stride k w).iter).count
        (node (malloc w) stride j) = loads / (size.toNat / stride.toNat + 1) ∨
      ((List.range loads).map fun k => (chaseAt cores core malloc size stride k w).iter).count
        (node (malloc w) stride j) =
          (loads + size.toNat / stride.toNat) / (size.toNat / stride.toNat + 1)
  behind : node (malloc w) stride (size.toNat / stride.toNat) = malloc w + size

theorem rounds_of_strided (hs : Strided size stride) (hwhole : stride.toNat ∣ size.toNat)
    (w : World) : Rounds cores core malloc size stride w := by
  have hcount := nodeCount_eq_div hs.stride_pos hwhole
  obtain ⟨heap, hrun, hcircuit, -⟩ := init_stride_spec hs ⟨w.shared.mem, []⟩ (malloc w)
    (Nat.lt_succ_self (nodeCount size stride))
  rw [hcount] at hrun hcircuit
  have hwalk : ∀ k, (chaseAt cores core malloc size stride k w).iter =
      heap.mem.load^[k] (node (malloc w) stride (size.toNat / stride.toNat)) := by
    intro k
    unfold chaseAt
    rw [(advances cores core k _).1]
    unfold init_ring
    rw [hcount, hrun]
    rfl
  have hfirst := hcircuit.rotate (size.toNat / stride.toNat)
  have hhead : (((List.range (size.toNat / stride.toNat + 1)).map
      (node (malloc w) stride)).rotate (size.toNat / stride.toNat))[0]? =
        some (node (malloc w) stride (size.toNat / stride.toNat)) := by
    rw [List.getElem?_rotate (by simp), List.length_map, List.length_range, Nat.zero_add,
      Nat.mod_eq_of_lt (Nat.lt_succ_self _), List.getElem?_map,
      List.getElem?_range (Nat.lt_succ_self _)]
    rfl
  constructor
  · intro k
    have hmem := hfirst.stays hhead k
    rw [List.mem_rotate, List.mem_map] at hmem
    obtain ⟨j, hj, heq⟩ := hmem
    exact ⟨j, Nat.lt_succ_iff.mp (List.mem_range.mp hj), (hwalk k).trans heq.symm⟩
  · intro j hj
    have hmem : node (malloc w) stride j ∈ ((List.range (size.toNat / stride.toNat + 1)).map
        (node (malloc w) stride)).rotate (size.toNat / stride.toNat) := by
      rw [List.mem_rotate]
      exact List.mem_map_of_mem (List.mem_range.mpr (Nat.lt_succ_of_le hj))
    have hbalanced := hfirst.balanced hhead hmem loads
    simp only [List.length_rotate, List.length_map, List.length_range] at hbalanced
    simp only [hwalk]
    exact hbalanced
  · unfold node Memory.slot
    rw [Nat.div_mul_cancel hwhole, BitVec.ofNat_toNat, BitVec.setWidth_eq]

/-- **The loads of `main`**: in every call of every test, warm-up or not, the
    measured chase leaves the array once in each round. -/
theorem main_chases {t : BitVec 64 × String} (ht : t ∈ tests) (w : World) :
    Rounds cores 1 malloc 32768 t.1 w := by
  have hstrides : ∀ t ∈ tests, 0 < t.1.toNat ∧ t.1.toNat % 8 = 0 ∧
      t.1.toNat ∣ (32768 : BitVec 64).toNat := by decide
  obtain ⟨hpos, hdvd, hwhole⟩ := hstrides t ht
  exact rounds_of_strided (strided_of_dvd hpos hdvd hwhole) hwhole w

end

/-! ### An Execution -/

theorem main_prints_at_4096 : ∃ s counters,
    Reachable (harness (papiApi plainPapi) [call {1} fun _ => 4096] (coldStart oneLine)) s ∧
      s.returned = [counters] ∧ s.world.dump = [] ∧ output plainPapi counters =
        (tests.mapIdx fun i t => record t.2 (times (coldStart oneLine).clock 3 i)).flatten := by
  obtain ⟨s, hs, hidle, htodo, hret⟩ := series_returns (papiApi plainPapi)
    (show (call {1} fun _ => 4096).kind = .priority from rfl) (coldStart oneLine)
  obtain ⟨hdump, houtput⟩ := main_prints hs hidle htodo hret
  exact ⟨s, _, hs, hret, hdump, houtput⟩

theorem main_chases_64 : Rounds {1} 1 (fun _ => 4096) 32768 64 (coldStart oneLine) :=
  main_chases (t := (64, "64B")) (by decide) _

end Cacheline

end Pcnt
