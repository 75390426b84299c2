import Microrev.Programs.Benchmarks
import Microrev.Log.Reading

/-! # The Producer and Consumer Benchmark (`producer_consumer.cpp`)

    Every repetition flushes, and then runs a producer and a consumer. The
    flush prints no record, so the parser raises on the log of any execution
    with two tests. The two threads of a test run one after the other, in
    either order; the flags are equal afterwards, and never drift.
-/

namespace Pcnt

open Lts Text Loop Script

namespace ProducerConsumer

/-! ### The Program -/

def size_vec : List (BitVec 64) := [4096, 8192, 16384, 32768, 65536, 131072, 262144, 524288,
  1048576, 2097152]

def counters : List Text := ["perf::L1-DCACHE-LOAD-MISSES".toList]

/-- `(core_placement_t)i` for `i < 3`. -/
def placements : List CorePlacement := [.local_, .socket, .global]

def main : List Stmt :=
  size_vec.flatMap fun s => .pr_co_setup s ::
    placements.flatMap fun i =>
      (List.range 100).flatMap fun _ =>
        [.run_test .flush i counters, .run_test .producer_consumer i counters]

theorem whole_sizes : ∀ size ∈ size_vec, Whole size ∧ size.toNat < 2 ^ 31 := by
  simp [size_vec, Whole]

theorem mem_main {a : Stmt} (ha : a ∈ main) : (∃ s ∈ size_vec, a = .pr_co_setup s) ∨
    ∃ t i, (t = .flush ∨ t = .producer_consumer) ∧ a = .run_test t i counters := by
  unfold main at ha
  simp only [List.mem_flatMap, List.mem_cons, List.not_mem_nil, or_false] at ha
  obtain ⟨s, hs, rfl | ⟨i, -, -, -, rfl | rfl⟩⟩ := ha
  · exact .inl ⟨s, hs, rfl⟩
  · exact .inr ⟨_, i, .inl rfl, rfl⟩
  · exact .inr ⟨_, i, .inr rfl, rfl⟩

/-- How it starts. -/
theorem main_starts : ∃ rest, main = .pr_co_setup 4096 :: .run_test .flush .local_ counters ::
    .run_test .producer_consumer .local_ counters :: rest := by
  unfold main size_vec placements
  rw [List.flatMap_cons, List.flatMap_cons, List.range_succ_eq_map, List.flatMap_cons]
  exact ⟨_, rfl⟩

section
variable {papi : Papi} {cores : Finset Int} {cfg : CoreConfig} {w w' : World}
variable {pre post : List Stmt} {runs : List TestRun}

/-! ### The Log -/

theorem prefix_runs (hmain : main = pre ++ post)
    (h : Exec (BenchStep papi cores cfg) pre w runs w') :
    (∀ r ∈ runs, r.cnt_vec = counters) ∧ (FlushLast runs ↔ runs.length ≤ 1) := by
  have hcalls := exec_calls h
  constructor
  · intro r hr
    have hmem : (r.test, r.placement, r.cnt_vec) ∈ pre.filterMap Stmt.call :=
      hcalls ▸ List.mem_map_of_mem (f := fun r => (r.test, r.placement, r.cnt_vec)) hr
    obtain ⟨a, ha, hcall⟩ := List.mem_filterMap.mp hmem
    obtain ⟨s, -, rfl⟩ | ⟨t, i, -, rfl⟩ := mem_main (hmain ▸ List.mem_append_left post ha)
    · simp [Stmt.call] at hcall
    · exact ((Prod.mk.inj (Prod.mk.inj (Option.some.inj hcall)).2).2).symm
  · constructor
    · intro hflush
      by_contra hmany
      obtain ⟨r, r', rest, rfl⟩ : ∃ r r' rest, runs = r :: r' :: rest := by
        match runs, hmany with
        | r :: r' :: rest, _ => exact ⟨r, r', rest, rfl⟩
        | [_], hmany => simp at hmany
        | [], hmany => simp at hmany
      -- the first test is a flush
      obtain ⟨rest', hstart⟩ := main_starts
      have hfirst : (r.test, r.placement, r.cnt_vec) = (.flush, .local_, counters) := by
        have hhead : (main.filterMap Stmt.call).head? =
            some (r.test, r.placement, r.cnt_vec) := by
          rw [hmain, List.filterMap_append, ← hcalls]
          rfl
        rw [hstart] at hhead
        exact (Option.some.inj hhead).symm
      exact hflush r (by simp) (congrArg Prod.fst hfirst)
    · intro hlen r hr
      have hpos := List.length_pos_of_mem hr
      rw [List.length_dropLast] at hpos
      omega

/-- **The log cannot be read**: after any statement of any execution, the
    parser gets through exactly while at most one test has been logged. -/
theorem main_log (hmain : main = pre ++ post) (h : Exec (BenchStep papi cores cfg) pre w runs w')
    (hempty : w.dump = []) (hnames : papi.Names counters) :
    (parse_log w'.dump).isSome ↔ runs.length ≤ 1 := by
  obtain ⟨hcnt, hflush⟩ := prefix_runs hmain h
  obtain ⟨w1, hdump, hsession⟩ := exec_session h hempty
  have hne : ∀ r ∈ runs, r.cnt_vec ≠ [] := fun r hr => by
    rw [hcnt r hr]
    decide
  have hnames' : ∀ r ∈ runs, papi.Names r.cnt_vec := fun r hr => by
    rw [hcnt r hr]
    exact hnames
  rw [← hdump, ← hflush]
  constructor
  · intro hsome
    by_contra hnot
    rw [hsession.raises hne hnames' hnot] at hsome
    simp at hsome
  · intro hlast
    obtain ⟨res, hres, -⟩ := hsession.parses hne hnames' hlast
    rw [hres]
    rfl

/-! ### The Flags -/

/-- Every line has its flag, and all of them are `f`. -/
structure Flags (size : BitVec 64) (f : Int) (w : World) : Prop where
  shared_data_size : w.shared.shared_data_size = size
  cache_line_size : w.shared.cache_line_size = 64
  wrflag : w.shared.wrflag = List.replicate (size / 64).toNat f

/-- The first `k` of `n` flags have changed. -/
def changed (n : Nat) (f f' : Int) (k : Nat) : List Int :=
  List.replicate k f' ++ List.replicate (n - k) f

theorem changed_getElem? {n k : Nat} (f f' : Int) (hk : k < n) :
    (changed n f f' k)[k]? = some f := by
  obtain ⟨m, hm⟩ := Nat.exists_eq_add_one_of_ne_zero (Nat.sub_ne_zero_of_lt hk)
  simp [changed, hm]

theorem changed_set {n k : Nat} (f f' : Int) (hk : k < n) :
    (changed n f f' k).set k f' = changed n f f' (k + 1) := by
  obtain ⟨m, hm⟩ := Nat.exists_eq_add_one_of_ne_zero (Nat.sub_ne_zero_of_lt hk)
  have hrest : n - (k + 1) = m := by omega
  unfold changed
  rw [hm, hrest, List.replicate_succ, List.set_append_right _ _ (by simp), List.replicate_succ']
  simp

/-- A loop that changes one flag after the other. -/
theorem upTo_flags (n : Nat) (f f' : Int) {body : Nat → Chase → Chase} (s : Chase)
    (hs : s.world.shared.wrflag = List.replicate n f)
    (hbody : ∀ k t, k < n → t.world.shared.wrflag[k]? = some f →
      (body k t).world.shared.shared_data_size = t.world.shared.shared_data_size ∧
      (body k t).world.shared.cache_line_size = t.world.shared.cache_line_size ∧
      (body k t).world.shared.wrflag = t.world.shared.wrflag.set k f') :
    (upTo body n s).world.shared.shared_data_size = s.world.shared.shared_data_size ∧
      (upTo body n s).world.shared.cache_line_size = s.world.shared.cache_line_size ∧
      (upTo body n s).world.shared.wrflag = List.replicate n f' := by
  have hend : changed n f f' n = List.replicate n f' := by simp [changed]
  rw [← hend]
  refine upTo_spec (fun k (t : Chase) =>
    t.world.shared.shared_data_size = s.world.shared.shared_data_size ∧
      t.world.shared.cache_line_size = s.world.shared.cache_line_size ∧
      t.world.shared.wrflag = changed n f f' k) ?_ ⟨rfl, rfl, by simp [changed, hs]⟩
  rintro k t hk ⟨hsize, hline, hflags⟩
  obtain ⟨hsize', hline', hflags'⟩ := hbody k t hk (by rw [hflags, changed_getElem? f f' hk])
  refine ⟨hsize'.trans hsize, hline'.trans hline, ?_⟩
  rw [hflags', hflags, changed_set f f' hk]

variable {size : BitVec 64} {f : Int} {core : Int}

theorem Flags.line_cnt (h : Flags size f w) (stride : BitVec 64) :
    w.shared.line_cnt stride = (size / stride).toNat := by
  rw [Shared.line_cnt, h.shared_data_size]

/-- The producer decrements every flag. -/
theorem Flags.producer (h : Flags size f w) (pc : PAPILLCounter) :
    Flags size (f - 1) (producer cores core (w, pc)).1 := by
  have hshared : (Pcnt.producer cores core (w, pc)).1.shared =
      (upTo (producer_round cores core) (size / 64).toNat (.begin w.rdtsc.2)).world.shared := by
    unfold Pcnt.producer producer_
    rw [sample_world.1, h.cache_line_size]
    simp only [h.line_cnt]
  obtain ⟨hsize, hline, hflags⟩ := upTo_flags (size / 64).toNat f (f - 1) (.begin w.rdtsc.2)
    h.wrflag fun k t _ hflag => by
      have hround : (producer_round cores core k t).world =
          decrementFlag k ((t.mark cores core).advance cores core).world := rfl
      have hsame : ((t.mark cores core).advance cores core).world.shared.wrflag =
          t.world.shared.wrflag := rfl
      rw [hround, decrementFlag, hsame, hflag]
      exact ⟨rfl, rfl, rfl⟩
  rw [← hshared] at hsize hline hflags
  exact ⟨hsize.trans h.shared_data_size, hline.trans h.cache_line_size, hflags⟩

/-- The consumer sets every flag. -/
theorem Flags.consumer (h : Flags size f w) (pc : PAPILLCounter) :
    Flags size 1 (consumer cores core (w, pc)).1 := by
  have hshared : (Pcnt.consumer cores core (w, pc)).1.shared =
      (upTo (consumer_round cores core) (size / 64).toNat (.begin w)).world.shared := by
    unfold Pcnt.consumer consumer_
    rw [sample_world.1, h.cache_line_size]
    simp only [h.line_cnt]
    rfl
  obtain ⟨hsize, hline, hflags⟩ := upTo_flags (size / 64).toNat f 1 (.begin w) h.wrflag
    fun k t _ hflag => by
      obtain ⟨hlt, -⟩ := List.getElem?_eq_some_iff.mp hflag
      have hround : (consumer_round cores core k t).world.shared =
          ((spin k 2 t.world).getD t.world).shared := rfl
      rw [hround, spin_ends hlt 0]
      exact ⟨rfl, rfl, rfl⟩
  rw [← hshared] at hsize hline hflags
  exact ⟨hsize.trans h.shared_data_size, hline.trans h.cache_line_size, hflags⟩

theorem Flags.of_shared (h : Flags size f w) (hshared : w'.shared = w.shared) :
    Flags size f w' := by
  constructor
  · rw [hshared, h.shared_data_size]
  · rw [hshared, h.cache_line_size]
  · rw [hshared, h.wrflag]

theorem Flags.of_kept (h : Flags size f w) (hkept : Intact w.shared w'.shared) :
    Flags size f w' where
  shared_data_size := hkept.size.trans h.shared_data_size
  cache_line_size := hkept.line.trans h.cache_line_size
  wrflag := hkept.flags.trans h.wrflag

/-! ### The Threads of a Test -/

/-- Without warm-up a thread executes its benchmark once. -/
theorem threadOp_world (papi : Papi) {c : Call World PAPILLCounter (List Text)} {i : Nat}
    {sch : Sched} (hwarm : c.warmup = 0) (hsch : c.svec[i]? = some sch)
    {wc : World × List PAPILLCounter} (hi : i < wc.2.length) :
    (∃ pc, (threadOp (papiApi papi) c wc i).1 = (sch.benchmark (wc.1, pc)).1) ∧
      (threadOp (papiApi papi) c wc i).2.length = wc.2.length := by
  unfold threadOp applyAt
  simp only [hsch, List.getElem?_eq_getElem hi, hwarm, List.length_set, and_true]
  have hreset := reset_world (addEvents (papiApi papi) sch (wc.1, wc.2[i]))
  refine ⟨(PAPILLCounter.reset (addEvents (papiApi papi) sch (wc.1, wc.2[i]))).2, ?_⟩
  exact congrArg (fun x => (sch.benchmark x).1) (Prod.ext hreset rfl)

theorem statsUpTo_shared (papi : Papi) (k : Nat) (wc : World × List PAPILLCounter) :
    (statsUpTo (papiApi papi) k wc).1.shared = wc.1.shared := by
  induction k with
  | zero => rfl
  | succ k ih =>
    rw [statsUpTo_succ, ← ih]
    unfold applyAt
    split <;> rfl

/-- The two threads, in either order. -/
theorem serial_flags (papi : Papi) {c : Call World PAPILLCounter (List Text)} {core_a core_c : Int}
    {cnt_vec : List Text} (hwarm : c.warmup = 0)
    (hsvec : c.svec =
      [sched core_a (producer cores) cnt_vec, sched core_c (consumer cores) cnt_vec])
    {order : List Nat} (hperm : order.Perm (List.range 2)) (hf : Flags size f w) :
    Flags size 0 (serial (papiApi papi) c order w).1 ∨
      Flags size 1 (serial (papiApi papi) c order w).1 := by
  have horder : order = [0, 1] ∨ order = [1, 0] := by
    obtain ⟨a, b, rfl⟩ := List.length_eq_two.mp hperm.length_eq
    have ha : a < 2 := List.mem_range.mp (hperm.mem_iff.mp (by simp))
    have hb : b < 2 := List.mem_range.mp (hperm.mem_iff.mp (by simp))
    have hne : a ≠ b := by simpa using hperm.nodup_iff.mpr List.nodup_range
    simp only [List.cons.injEq, and_true]
    omega
  have hfirst : ∀ i < 2, i < (w, c.svec.map (freshCounter (papiApi papi))).2.length := by
    rw [hsvec]
    exact fun i hi => hi
  have hproducer : c.svec[0]? = some (sched core_a (producer cores) cnt_vec) := by rw [hsvec]; rfl
  have hconsumer : c.svec[1]? = some (sched core_c (consumer cores) cnt_vec) := by rw [hsvec]; rfl
  rcases horder with rfl | rfl
  · obtain ⟨⟨p, hp⟩, hlen⟩ := threadOp_world papi hwarm hproducer (hfirst 0 (by decide))
    obtain ⟨⟨q, hq⟩, -⟩ := threadOp_world papi hwarm hconsumer (hlen ▸ hfirst 1 (by decide))
    right
    show Flags size 1 (threadOp _ _ (threadOp _ _ _ 0) 1).1
    rw [hq, hp]
    exact (hf.producer p).consumer q
  · obtain ⟨⟨q, hq⟩, hlen⟩ := threadOp_world papi hwarm hconsumer (hfirst 1 (by decide))
    obtain ⟨⟨p, hp⟩, -⟩ := threadOp_world papi hwarm hproducer (hlen ▸ hfirst 0 (by decide))
    left
    show Flags size 0 (threadOp _ _ (threadOp _ _ _ 1) 0).1
    rw [hp, hq]
    exact (hf.consumer q).producer p

/-- **One test**: afterwards all flags are 1 if the consumer was last, and 0
    if the producer was. -/
theorem run_flags {r : TestRun} (h : RunTest papi cores cfg w r w')
    (ht : r.test = .producer_consumer) (hf : Flags size f w) :
    Flags size 0 w' ∨ Flags size 1 w' := by
  obtain ⟨s, hs, hidle, htodo, -, rfl⟩ := h.run
  obtain ⟨cs, order, -, hperm, hvalue⟩ := serial_execution (if_pos ht) hs hidle htodo
  have hsvec : (run_test_call cores cfg r.test r.placement r.cnt_vec).svec =
      [sched cfg.core_src (producer cores) r.cnt_vec,
        sched (cfg.core_c r.placement) (consumer cores) r.cnt_vec] := by
    show run_test_vec cores cfg r.test r.placement r.cnt_vec = _
    rw [ht]
    rfl
  rw [hsvec] at hperm
  have hstart : Flags size f (w.append (run_test_header cfg r.test r.placement r.size)) :=
    hf.of_shared rfl
  -- printing does not change the flags
  have hshared : (print_counters papi s.world r.counters).shared =
      (serial (papiApi papi) (run_test_call cores cfg r.test r.placement r.cnt_vec) order
        (w.append (run_test_header cfg r.test r.placement r.size))).1.shared := by
    rw [print_counters_eq, ← statsUpTo_shared papi _ (serial _ _ _ _), ← hvalue]
    rfl
  exact Or.imp (fun h => h.of_shared hshared) (fun h => h.of_shared hshared)
    (serial_flags papi rfl hsvec hperm hstart)

/-! ### The Benchmark -/

/-- All flags are 0, or all are 1. -/
def Settled (w : World) : Prop :=
  ∃ size ∈ size_vec, ∃ f, (f = 0 ∨ f = 1) ∧ Flags size f w

theorem setup_settled {draws : Draws} {fuel : Nat} {addr : BitVec 64} {g : Shared}
    (hsize : size ∈ size_vec) (hline : w.shared.cache_line_size = 64)
    (h : pr_co_setup draws fuel addr size 64 { w.shared with shared_data_size := size } = some g) :
    Settled { w with shared := g } := by
  obtain ⟨hflags, hdata⟩ := pr_co_setup_flags h
  have hsame : g.cache_line_size = w.shared.cache_line_size := by
    unfold pr_co_setup at h
    split at h
    · contradiction
    · obtain ⟨r, -, rfl⟩ := Option.map_eq_some_iff.mp h
      rfl
  exact ⟨size, hsize, 1, .inr rfl, hdata, hsame.trans hline, hflags⟩

theorem step_settled {a : Stmt} (ha : a ∈ main) (hstep : BenchStep papi cores cfg a w runs w')
    (h : Settled w) : Settled w' := by
  obtain ⟨size, hsize, f, hf, hflags⟩ := h
  cases hstep with
  | pr_co_setup _ hsetup =>
    obtain ⟨s, hs, heq⟩ | ⟨_, _, _, heq⟩ := mem_main ha
    · exact setup_settled (Stmt.pr_co_setup.inj heq ▸ hs) hflags.cache_line_size hsetup
    · contradiction
  | setup _ _ =>
    obtain ⟨s, -, heq⟩ | ⟨_, _, _, heq⟩ := mem_main ha <;> contradiction
  | @run_test _ _ r _ hrun =>
    by_cases ht : r.test = .producer_consumer
    · rcases run_flags hrun ht hflags with h0 | h1
      · exact ⟨size, hsize, 0, .inl rfl, h0⟩
      · exact ⟨size, hsize, 1, .inr rfl, h1⟩
    · exact ⟨size, hsize, f, hf, hflags.of_kept (hrun.kept ht)⟩

/-- **The flags never drift**: after any statement of any execution, from the
    first setup on, there is a flag for each line of 64 bytes, and all of them
    are 0 or all of them are 1. -/
theorem main_flags (hmain : main = pre ++ post) (hne : pre ≠ [])
    (h : Exec (BenchStep papi cores cfg) pre w runs w') (hline : w.shared.cache_line_size = 64) :
    Settled w' := by
  obtain ⟨rest, hstart⟩ := main_starts
  cases pre with
  | nil => contradiction
  | cons a pre =>
    obtain rfl : a = .pr_co_setup 4096 := (List.cons.inj (hmain.symm.trans hstart)).1
    obtain ⟨os1, w1, os2, hsetup, hrest, rfl⟩ := exec_cons_iff.mp h
    have hfirst : Settled w1 := by
      cases hsetup with
      | pr_co_setup _ hsetup => exact setup_settled (by decide) hline hsetup
    refine hrest.invariant Settled ?_ hfirst
    intro b hb w1 os w2 hw1 hstep
    have hmem : b ∈ main := by
      rw [hmain]
      exact List.mem_append_left _ (List.mem_cons_of_mem _ hb)
    exact step_settled hmem hstep hw1

/-! ### An Execution on Two Cores -/

/-- There is a flag for each line. -/
theorem Settled.defined (h : Settled w) (t : MesiType) : t.Defined w.shared := by
  obtain ⟨size, hsize, f, -, hflags⟩ := h
  have hlines : w.shared.line_cnt w.shared.cache_line_size ≤ w.shared.wrflag.length := by
    rw [Shared.line_cnt, hflags.cache_line_size, hflags.shared_data_size, hflags.wrflag,
      List.length_replicate]
  refine ⟨fun _ => ?_, fun _ => hlines⟩
  rw [hflags.cache_line_size]
  decide

theorem main_can (papi : Papi) (cores : Finset Int) (cfg : CoreConfig)
    (hline : w.shared.cache_line_size = 64) :
    ∃ runs w', Exec (BenchStep papi cores cfg) main w runs w' := by
  have hsized : ∀ a ∈ main, a.Sized size_vec := by
    intro a ha
    obtain ⟨s, hs, rfl⟩ | ⟨t, i, -, rfl⟩ := mem_main ha
    · exact hs
    · trivial
  have hafter : ∀ a ∈ main, ∀ w, Settled w →
      ∃ runs w', BenchStep papi cores cfg a w runs w' ∧ Settled w' := by
    intro a ha w hw
    have hdef : a.Defined w.shared := by
      cases a with
      | setup _ => trivial
      | pr_co_setup _ => trivial
      | run_test t _ _ => exact hw.defined t
    obtain ⟨runs, w', hstep⟩ := BenchStep.can papi cores cfg whole_sizes (hsized a ha) hdef
    exact ⟨runs, w', hstep, step_settled ha hstep hw⟩
  -- the flags are there from the first statement on
  obtain ⟨rest, hstart⟩ := main_starts
  rw [hstart] at hsized hafter ⊢
  obtain ⟨os, w1, hsetup⟩ := BenchStep.can papi cores cfg (w := w) whole_sizes
    (hsized _ List.mem_cons_self) trivial
  have hsettled : Settled w1 := by
    cases hsetup with
    | pr_co_setup _ hsetup => exact setup_settled (by decide) hline hsetup
  obtain ⟨runs, w', hexec⟩ := exec_can Settled (List.forall_mem_cons.mp hafter).2 hsettled
  exact ⟨_, w', .cons hsetup hexec⟩

end

/-- The parser raises on the whole log. -/
theorem main_log_two_cores : ∃ runs w',
    Exec (BenchStep (listPapi counters) {0, 1} twoCores) main (coldStart oneLine) runs w' ∧
      parse_log w'.dump = none := by
  obtain ⟨runs, w', hexec⟩ := main_can (w := coldStart oneLine) (listPapi counters) {0, 1} twoCores
    rfl
  have hiff := main_log (List.append_nil main).symm hexec rfl (listPapi_names (by decide))
  have hmany : 2 ≤ runs.length := by
    obtain ⟨rest, hstart⟩ := main_starts
    have hcalls := congrArg List.length (exec_calls hexec)
    rw [hstart, List.length_map] at hcalls
    rw [hcalls]
    exact Nat.le_add_left 2 _
  exact ⟨runs, w', hexec, Option.not_isSome_iff_eq_none.mp fun h => by
    have := hiff.mp h
    omega⟩

theorem main_flags_two_cores : ∃ runs w',
    Exec (BenchStep (listPapi counters) {0, 1} twoCores) main (coldStart oneLine) runs w' ∧
      Settled w' := by
  obtain ⟨runs, w', hexec⟩ := main_can (w := coldStart oneLine) (listPapi counters) {0, 1} twoCores
    rfl
  have hne : main ≠ [] := by
    obtain ⟨rest, hstart⟩ := main_starts
    simp [hstart]
  exact ⟨runs, w', hexec, main_flags (List.append_nil main).symm hne hexec rfl⟩

end ProducerConsumer

end Pcnt
