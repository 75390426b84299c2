import Microrev.Programs.Benchmarks
import Microrev.Bench.Average

/-! # The Flush Benchmark (`flush.cpp`)

    Does a flush on one socket flush on the others? Two sweeps over the sizes
    measure reads, one after flushes on both sockets and one after a flush of
    shared lines on one of them. In the textbook protocol there is nothing to
    tell them apart: in every interleaving of every test, the measured core
    finds the lines nowhere. Each printed average is over 200 such reads.
-/

namespace Pcnt

open Lts Text Decimal Coherence Script

namespace Flush

/-! ### The Program -/

/-- `INIT_ARCH_CFG( 2, 4, 6, 7, 9, _32KB, _64B, data_size )`: the cores. -/
def arch_cfg : CoreConfig := ⟨2, 4, 6, 7, 9⟩

/-- The shared data after it. -/
def INIT_ARCH_CFG (data_size : BitVec 64) (g : Shared) : Shared :=
  { g with cache_line_size := 64, shared_data_size := data_size }

/-- The two functions that measure. -/
inductive Test where
  | read_from_invalid_test
  | flusher_test
  deriving DecidableEq

def read_from_invalid_vec (cores : Finset Int) (counters : List Text) : List Sched :=
  let core_a := arch_cfg.core_src
  let core_b := arch_cfg.core_global1
  [sched core_a (flusher cores) [], sched core_b (flusher cores) [],
    sched core_b (reader cores) counters]

def flusher_vec (cores : Finset Int) (counters : List Text) : List Sched :=
  let core_a := arch_cfg.core_src
  let core_b := arch_cfg.core_global0
  let core_c := arch_cfg.core_global1
  let vec := [sched core_a (flusher cores) [], sched core_b (flusher cores) [],
    sched core_c (flusher cores) []]
  init_state cores vec S_STATE core_a core_b [] ++
    [sched core_a (flusher cores) [], sched core_c (reader cores) counters]

def Test.vec (cores : Finset Int) (counters : List Text) : Test → List Sched
  | .read_from_invalid_test => read_from_invalid_vec cores counters
  | .flusher_test => flusher_vec cores counters

/-- `cbench.counters_with_priority_schedule( vec )` on a new object. -/
def Test.call (cores : Finset Int) (counters : List Text) (t : Test) :
    Call World PAPILLCounter (List Text) where
  kind := .priority
  svec := t.vec cores counters
  warmup := 0

/-- The loop at the end of both; `none` if there is no element 0. -/
def push_results (measured : List PAPILLCounter) (results : List (BitVec 64)) :
    Option (List (BitVec 64)) :=
  measured.foldlM (fun results m =>
    if m.cset.length ≠ 0 then (m.vec_cycles_measured[0]?).map fun c => results ++ [c]
    else some results) results

/-- The process, with `invalid_cycles` and `flush_cycles`. -/
structure Process where
  world : World
  cycles : Test → List (BitVec 64)

/-- A line of the output, with the cycles of which it has the average. -/
structure Line where
  size : BitVec 64
  cycles : List (BitVec 64)

/-- `size << "," << avg_no_overflow( cycles ) << '\n'`. -/
def Line.text (l : Line) : Text :=
  showInt l.size.toNat ++ ",".toList ++ showInt (avg_no_overflow l.cycles).toNat ++ "\n".toList

inductive Stmt where
  /-- `INIT_ARCH_CFG( .., size ) setup( shared_data_size );` -/
  | setup (size : BitVec 64)
  /-- A call with its vector. -/
  | test (t : Test)
  /-- Print the line, and clear the vector. -/
  | print (t : Test) (size : BitVec 64)

def counters : List Text :=
  ["perf::L1-DCACHE-LOAD-MISSES".toList, "perf::L1-DCACHE-LOADS".toList]

inductive Step (papi : Papi) (cores : Finset Int) :
    Stmt → Process → List Line → Process → Prop where
  | setup {p : Process} {size addr : BitVec 64} {draws : Draws} {fuel : Nat} {g : Shared} :
      addr.toNat % 16 = 0 →
      Pcnt.setup draws fuel addr size 64 (INIT_ARCH_CFG size p.world.shared) = some g →
      Step papi cores (.setup size) p [] { p with world := { p.world with shared := g } }
  | test {p : Process} {t : Test} {s : State World PAPILLCounter (List Text)}
      {measured : List PAPILLCounter} {results : List (BitVec 64)} :
      Reachable (harness (papiApi papi) [t.call cores counters] p.world) s →
      s.pc = .idle → s.todo = [] → s.returned = [measured] →
      push_results measured (p.cycles t) = some results →
      Step papi cores (.test t) p [] ⟨s.world, Function.update p.cycles t results⟩
  | print {p : Process} {t : Test} {size : BitVec 64} :
      Step papi cores (.print t size) p [⟨size, p.cycles t⟩]
        { p with cycles := Function.update p.cycles t [] }

def shared_sizes : List (BitVec 64) := [1024, 2048, 4096, 8192, 16384, 32768, 65536, 131072, 262144,
  524288, 1048576, 2097152]

/-- One of the two loops of `main`. -/
def sweep (t : Test) : List Stmt :=
  shared_sizes.flatMap fun size => .setup size :: (List.replicate 200 (.test t) ++ [.print t size])

def main : List Stmt := sweep .read_from_invalid_test ++ sweep .flusher_test

section
variable {papi : Papi} {cores : Finset Int} {p p' : Process} {t : Test} {w : World}
variable {lines : List Line}

/-! ### One Test -/

/-- Both vectors: something that keeps the ring, a flush, and the reader. -/
theorem Test.vec_eq (cores : Finset Int) (t : Test) : ∃ prep core,
    t.vec cores counters = (prep ++ [sched core (flusher cores) []]) ++
      [sched arch_cfg.core_global1 (reader cores) counters] ∧
    (∀ sch ∈ prep, KeepsRing sch.benchmark) ∧
    ∀ sch ∈ prep ++ [sched core (flusher cores) []], Plain sch ∧ sch.events = [] := by
  have hflushers := flushers_quiet cores
  cases t with
  | read_from_invalid_test =>
    refine ⟨[sched arch_cfg.core_src (flusher cores) []], arch_cfg.core_global1, rfl, ?_,
      hflushers [arch_cfg.core_src, arch_cfg.core_global1]⟩
    simp only [List.forall_mem_cons]
    exact ⟨keepsRing_flusher _, by simp⟩
  | flusher_test =>
    refine ⟨init_state cores [sched arch_cfg.core_src (flusher cores) [],
      sched arch_cfg.core_global0 (flusher cores) [],
      sched arch_cfg.core_global1 (flusher cores) []] S_STATE arch_cfg.core_src
      arch_cfg.core_global0 [], arch_cfg.core_src, ?_, ?_, ?_⟩
    · show flusher_vec cores counters = _
      unfold flusher_vec
      simp
    · rw [init_state_append]
      simp only [List.forall_mem_append, List.forall_mem_cons]
      exact ⟨⟨keepsRing_flusher _, keepsRing_flusher _, keepsRing_flusher _, by simp⟩,
        init_state_keepsRing⟩
    · rw [List.forall_mem_append]
      exact ⟨init_state_quiet (hflushers [arch_cfg.core_src, arch_cfg.core_global0,
        arch_cfg.core_global1]) S_STATE, hflushers [arch_cfg.core_src]⟩

theorem push_results_quiet {measured : List PAPILLCounter} (h : ∀ m ∈ measured, m.cset = [])
    (rest : List PAPILLCounter) (results : List (BitVec 64)) :
    push_results (measured ++ rest) results = push_results rest results := by
  induction measured with
  | nil => rfl
  | cons m measured ih =>
    have hm := h m (by simp)
    have hrest := ih fun x hx => h x (by simp [hx])
    unfold push_results at hrest ⊢
    rw [List.cons_append, List.foldlM_cons, if_neg (by simp [hm])]
    exact hrest

theorem push_results_one {m : PAPILLCounter} (hset : m.cset ≠ []) {v : BitVec 64}
    (hv : m.vec_cycles_measured = [v]) (results : List (BitVec 64)) :
    push_results [m] results = some (results ++ [v]) := by
  simp [push_results, hset, hv]

/-- **A test pushes one result**: that of the reader. There always is one. -/
theorem test_pushes {s : State World PAPILLCounter (List Text)} {measured : List PAPILLCounter}
    (h : Reachable (harness (papiApi papi) [t.call cores counters] w) s) (hidle : s.pc = .idle)
    (htodo : s.todo = []) (hret : s.returned = [measured]) (results : List (BitVec 64)) :
    ∃ v, push_results measured results = some (results ++ [v]) := by
  obtain ⟨prep, core, hvec, -, hquiet⟩ := t.vec_eq cores
  obtain ⟨-, hreturned⟩ := series_called rfl h hidle htodo
  have hmeasured : (series (papiApi papi) 0 (t.vec cores counters) w).2 = measured :=
    (List.cons.inj (hreturned.symm.trans hret)).1
  rw [hvec, series_snoc] at hmeasured
  have hcsets := (series_quiet papi hquiet 0 w).2
  have hplain : Plain (sched arch_cfg.core_global1 (reader cores) counters) :=
    plain_measuring measures_reader counters
  have hsampled := hplain.sampled papi (show counters ≠ [] by decide) 0
    (series (papiApi papi) 0 (prep ++ [sched core (flusher cores) []]) w).1
  obtain ⟨v, hv⟩ := hsampled.vec
  refine ⟨v, ?_⟩
  rw [← hmeasured]
  show push_results (_ ++ [_]) results = _
  rw [push_results_quiet hcsets]
  refine push_results_one ?_ hv results
  rw [hsampled.cset]
  simp [sched, counters]

/-- What a test does to the process. -/
theorem step_test (h : Step papi cores (.test t) p lines p') :
    lines = [] ∧ ∃ v, p'.cycles = Function.update p.cycles t (p.cycles t ++ [v]) := by
  cases h with
  | test hs hidle htodo hret hpush =>
    obtain ⟨v, hv⟩ := test_pushes hs hidle htodo hret (p.cycles t)
    obtain rfl := Option.some.inj (hpush.symm.trans hv)
    exact ⟨rfl, v, rfl⟩

/-- The ring survives it. -/
theorem step_test_kept (h : Step papi cores (.test t) p lines p') :
    Intact p.world.shared p'.world.shared := by
  cases h with
  | @test _ _ s measured _ hs hidle htodo hret _ =>
    obtain ⟨prep, core, hvec, hring, -⟩ := t.vec_eq cores
    have hworld : (series (papiApi papi) 0 (t.vec cores counters) p.world).1 = s.world :=
      (series_called rfl hs hidle htodo).1
    rw [← hworld]
    refine series_keepsRing papi ?_ 0 p.world
    rw [hvec]
    simp only [List.forall_mem_append, List.forall_mem_cons]
    exact ⟨⟨hring, keepsRing_flusher _, by simp⟩, keepsRing_reader _, by simp⟩

/-! ### The Output -/

/-- Repetitions of a test fill its vector. -/
theorem repeat_test {k : Nat} (h : Exec (Step papi cores) (List.replicate k (.test t)) p lines p') :
    lines = [] ∧
      ∃ vs, vs.length = k ∧ p'.cycles = Function.update p.cycles t (p.cycles t ++ vs) := by
  induction k generalizing p lines with
  | zero =>
    cases h
    exact ⟨rfl, [], rfl, by simp⟩
  | succ k ih =>
    rw [List.replicate_succ] at h
    obtain ⟨os1, p1, os2, hstep, hrest, rfl⟩ := exec_cons_iff.mp h
    obtain ⟨rfl, v, hv⟩ := step_test hstep
    obtain ⟨rfl, vs, hlen, hvs⟩ := ih hrest
    refine ⟨rfl, v :: vs, by simp [hlen], ?_⟩
    rw [hvs, hv]
    simp

/-- Both vectors are empty. -/
def Cleared (p : Process) : Prop := ∀ t, p.cycles t = []

/-- A sweep prints a line for each size, with 200 values in the average. -/
theorem sweep_output (h : Exec (Step papi cores) (sweep t) p lines p') (hp : Cleared p) :
    Cleared p' ∧ lines.map (fun l => (l.size, l.cycles.length)) =
      shared_sizes.flatMap fun size => [(size, 200)] := by
  refine h.loop Cleared ?_ hp
  intro size _ p1 lines p2 hp1 hbody
  obtain ⟨os1, p3, os2, hsetup, hrest, rfl⟩ := exec_cons_iff.mp hbody
  obtain ⟨os3, p4, os4, htests, hprint, rfl⟩ := exec_append_iff.mp hrest
  obtain ⟨rfl, vs, hlen, hvs⟩ := repeat_test htests
  cases hsetup with
  | setup _ _ =>
    cases exec_singleton_iff.mp hprint with
    | print =>
      have hcycles : p4.cycles t = vs := by
        rw [hvs]
        simp [hp1 t]
      refine ⟨?_, by simp [hcycles, hlen]⟩
      intro u
      by_cases hu : u = t
      · simp [hu]
      · simp [hu, hvs, hp1 u]

/-- **The output**: two sweeps, and every average is of 200 values. -/
theorem main_output (h : Exec (Step papi cores) main p lines p') (hp : Cleared p) :
    lines.map (fun l => (l.size, l.cycles.length)) =
      (shared_sizes ++ shared_sizes).map fun size => (size, 200) := by
  obtain ⟨os1, p1, os2, h1, h2, rfl⟩ := exec_append_iff.mp h
  obtain ⟨hp1, hos1⟩ := sweep_output h1 hp
  obtain ⟨-, hos2⟩ := sweep_output h2 hp1
  rw [List.map_append, hos1, hos2, List.map_append, List.map_eq_flatMap]

/-! ### The Measured Reads -/

/-- On a ring, the reader finds the lines nowhere. -/
theorem test_finds {n : Nat} {stop : Nat → Nat} (hwalk : Walk w.shared n stop) :
    WhenMeasuring papi (t.call cores counters) w
      (LoadsFind cores arch_cfg.core_global1 n fun st => ∀ c, st c = .invalid) := by
  obtain ⟨prep, core, hvec, hring, -⟩ := t.vec_eq cores
  have hsvec : (t.call cores counters).svec = _ := hvec
  refine whenMeasuring rfl rfl (by simp [hsvec]) ?_
  rw [hsvec, List.dropLast_concat, series_append]
  have hkept := series_keepsRing papi hring 0 w
  have hlines : LinesAre _ n stop (fun _ => nowhere) (series (papiApi papi) 0
      [sched core (flusher cores) []] (series (papiApi papi) 0 prep w).1).1 :=
    .series_cons papi (fun pc => (LinesAre.start (hkept.walk n stop hwalk)).flusher cores core pc)
      fun _ h => h
  exact hlines.loadsFind fun i _ _ c => rfl

theorem setup_rings {size addr : BitVec 64} {draws : Draws} {fuel : Nat} {g : Shared}
    (hsize : size ∈ shared_sizes) (haddr : addr.toNat % 16 = 0)
    (h : Pcnt.setup draws fuel addr size 64 (INIT_ARCH_CFG size w.shared) = some g) :
    Ringed size { w with shared := g } := by
  have hwhole : ∀ size ∈ shared_sizes, Whole size := by simp [shared_sizes, Whole]
  exact setup_ringed (w := { w with shared := { w.shared with cache_line_size := 64 } })
    (hwhole size hsize) rfl haddr h

theorem mem_main {a : Stmt} (ha : a ∈ main) :
    (∃ size ∈ shared_sizes, a = .setup size) ∨ (∃ t, a = .test t) ∨
      ∃ t size, a = .print t size := by
  have hsweep : ∀ t, a ∈ sweep t →
      (∃ size ∈ shared_sizes, a = .setup size) ∨ a = .test t ∨ ∃ size, a = .print t size := by
    intro t hmem
    simp only [sweep, List.mem_flatMap, List.mem_cons, List.mem_append, List.mem_replicate,
      List.not_mem_nil, or_false] at hmem
    obtain ⟨size, hsize, rfl | ⟨-, rfl⟩ | rfl⟩ := hmem
    · exact .inl ⟨size, hsize, rfl⟩
    · exact .inr (.inl rfl)
    · exact .inr (.inr ⟨size, rfl⟩)
  rcases List.mem_append.mp ha with h | h
  · exact (hsweep _ h).imp_right (Or.imp (fun h => ⟨_, h⟩) fun h => ⟨_, h⟩)
  · exact (hsweep _ h).imp_right (Or.imp (fun h => ⟨_, h⟩) fun h => ⟨_, h⟩)

theorem main_starts : ∃ rest, main = .setup 1024 :: rest := by
  unfold main sweep shared_sizes
  rw [List.flatMap_cons, List.cons_append, List.cons_append]
  exact ⟨_, rfl⟩

/-- **Nothing to tell apart**: whichever test of `main` is run, in every
    interleaving each of its reads from a node finds the line in no cache. -/
theorem main_reads_invalid {pre post : List Stmt} (hmain : main = pre ++ .test t :: post)
    (h : Exec (Step papi cores) pre p lines p') :
    ∃ size ∈ shared_sizes, p'.world.shared.shared_data_size = size ∧
      WhenMeasuring papi (t.call cores counters) p'.world
        (LoadsFind cores arch_cfg.core_global1 (size.toNat / 64)
          fun st => ∀ c, st c = .invalid) := by
  have hring : ∃ size ∈ shared_sizes, Ringed size p'.world := by
    obtain ⟨rest, hstart⟩ := main_starts
    cases pre with
    | nil => simp [hstart] at hmain
    | cons a pre =>
      obtain rfl : a = .setup 1024 := (List.cons.inj (hmain.symm.trans hstart)).1
      obtain ⟨os1, p1, os2, hsetup, hrest, rfl⟩ := exec_cons_iff.mp h
      have hfirst : ∃ size ∈ shared_sizes, Ringed size p1.world := by
        cases hsetup with
        | setup haddr hsetup => exact ⟨1024, by decide, setup_rings (by decide) haddr hsetup⟩
      refine hrest.invariant (fun p => ∃ size ∈ shared_sizes, Ringed size p.world) ?_ hfirst
      rintro b hb q os q' ⟨size, hsize, hdata, stop, hwalk⟩ hstep
      have hmem : b ∈ main := by
        rw [hmain]
        exact List.mem_append_left _ (List.mem_cons_of_mem _ hb)
      obtain ⟨size', hsize', rfl⟩ | ⟨t, rfl⟩ | ⟨t, _, rfl⟩ := mem_main hmem
      · cases hstep with
        | setup haddr hsetup => exact ⟨size', hsize', setup_rings hsize' haddr hsetup⟩
      · have hkept := step_test_kept hstep
        exact ⟨size, hsize, hkept.size.trans hdata, stop, hkept.walk _ _ hwalk⟩
      · cases hstep with
        | print => exact ⟨size, hsize, hdata, stop, hwalk⟩
  obtain ⟨size, hsize, hdata, stop, hwalk⟩ := hring
  exact ⟨size, hsize, hdata, test_finds hwalk⟩

/-! ### Executions -/

theorem step_can (papi : Papi) (cores : Finset Int) {a : Stmt} (ha : a ∈ main) (p : Process) :
    ∃ lines p', Step papi cores a p lines p' := by
  have hsizes : ∀ size ∈ shared_sizes, Whole size ∧ size.toNat < 2 ^ 31 := by
    simp [shared_sizes, Whole]
  obtain ⟨size, hsize, rfl⟩ | ⟨t, rfl⟩ | ⟨t, size, rfl⟩ := mem_main ha
  · obtain ⟨hwhole, hfew⟩ := hsizes size hsize
    obtain ⟨mem, path, hsetup, -⟩ := setup_spec (fun _ _ => 0) (hwhole.fits hfew) 4096
      (INIT_ARCH_CFG size p.world.shared) (Nat.lt_succ_self _)
    exact ⟨[], _, .setup (by decide) hsetup⟩
  · have hprio : (t.call cores counters).kind = .priority := rfl
    obtain ⟨s, hs, hidle, htodo, hret⟩ := series_returns (papiApi papi) hprio p.world
    obtain ⟨v, hv⟩ := test_pushes hs hidle htodo hret (p.cycles t)
    exact ⟨[], _, .test hs hidle htodo hret hv⟩
  · exact ⟨_, _, .print⟩

theorem main_can (papi : Papi) (cores : Finset Int) (p : Process) :
    ∃ lines p', Exec (Step papi cores) main p lines p' :=
  exec_can_anywhere (fun _ ha => step_can papi cores ha) p

end

/-- Before `main`. -/
def atStart : Process := ⟨coldStart oneLine, fun _ => []⟩

theorem main_output_at_start : ∃ lines p', Exec (Step plainPapi {2, 7, 9}) main atStart lines p' ∧
    lines.map (fun l => (l.size, l.cycles.length)) =
      (shared_sizes ++ shared_sizes).map fun size => (size, 200) := by
  obtain ⟨lines, p', hexec⟩ := main_can plainPapi {2, 7, 9} atStart
  exact ⟨lines, p', hexec, main_output hexec fun _ => rfl⟩

theorem main_reads_invalid_at_start : ∃ pre post lines p',
    main = pre ++ .test .flusher_test :: post ∧
      Exec (Step plainPapi {2, 7, 9}) pre atStart lines p' ∧
      ∃ size ∈ shared_sizes, WhenMeasuring plainPapi (Test.flusher_test.call {2, 7, 9} counters)
        p'.world (LoadsFind {2, 7, 9} 9 (size.toNat / 64) fun st => ∀ c, st c = .invalid) := by
  have hmem : Stmt.test .flusher_test ∈ main := by
    unfold main sweep
    simp only [List.mem_append, List.mem_flatMap, List.mem_cons, List.mem_replicate]
    exact .inr ⟨1024, by decide, .inr (.inl ⟨by decide, trivial⟩)⟩
  obtain ⟨pre, post, hmain⟩ := List.append_of_mem hmem
  obtain ⟨lines, p', hexec⟩ := exec_can_anywhere (fun a ha => step_can plainPapi {2, 7, 9}
    (hmain ▸ List.mem_append_left _ ha)) atStart
  obtain ⟨size, hsize, -, hfinds⟩ := main_reads_invalid hmain hexec
  exact ⟨pre, post, lines, p', hmain, hexec, size, hsize, hfinds⟩

end Flush

end Pcnt
