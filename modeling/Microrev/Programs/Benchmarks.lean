import Microrev.Lib.Script
import Microrev.Programs.Measured

/-! # Benchmark Programs

    The benchmarks that log with `run_test` are scripts of three kinds of
    statements: the two `setup` functions, each with the size that is assigned
    to `shared_data_size` before, and `run_test` itself. What such a script
    logs is a session. The ring that a `setup` has built is still there at
    every protocol test that follows.
-/

namespace Pcnt

open Lts Text Loop Coherence Script

/-! ### Statements -/

inductive Stmt where
  /-- `shared_data_size = size; setup( shared_data_size );` -/
  | setup (size : BitVec 64)
  /-- `shared_data_size = size; pr_co_setup( shared_data_size );` -/
  | pr_co_setup (size : BitVec 64)
  /-- `run_test( t, c, cnt_vec );` -/
  | run_test (t : MesiType) (c : CorePlacement) (cnt_vec : List Text)

/-- A test that the process survives: all but `flusher_` divide by the line
    size, and `producer_` and `consumer_` need a flag for each line. -/
def MesiType.Defined (t : MesiType) (g : Shared) : Prop :=
  (t ≠ .flush → g.cache_line_size ≠ 0) ∧
    (t = .producer_consumer → g.line_cnt g.cache_line_size ≤ g.wrflag.length)

/-- What a statement can do. `malloc` gives any address with its alignment,
    and `run_test` any interleaving of its threads. -/
inductive BenchStep (papi : Papi) (cores : Finset Int) (cfg : CoreConfig) :
    Stmt → World → List TestRun → World → Prop where
  | setup {w : World} {size addr : BitVec 64} {draws : Draws} {fuel : Nat} {g : Shared} :
      addr.toNat % 16 = 0 →
      setup draws fuel addr size 64 { w.shared with shared_data_size := size } = some g →
      BenchStep papi cores cfg (.setup size) w [] { w with shared := g }
  | pr_co_setup {w : World} {size addr : BitVec 64} {draws : Draws} {fuel : Nat} {g : Shared} :
      addr.toNat % 16 = 0 →
      pr_co_setup draws fuel addr size 64 { w.shared with shared_data_size := size } = some g →
      BenchStep papi cores cfg (.pr_co_setup size) w [] { w with shared := g }
  | run_test {w w' : World} {r : TestRun} : r.test.Defined w.shared →
      RunTest papi cores cfg w r w' →
      BenchStep papi cores cfg (.run_test r.test r.placement r.cnt_vec) w [r] w'

section
variable {papi : Papi} {cores : Finset Int} {cfg : CoreConfig} {w w' : World}
variable {as : List Stmt} {runs : List TestRun}

/-! ### The Log -/

theorem Session.relog (h : Session papi cores cfg w runs) (hdump : w'.dump = w.dump)
    {runs' : List TestRun} {w2 : World} (hexec : Exec (BenchStep papi cores cfg) as w' runs' w2) :
    ∃ w1, w1.dump = w2.dump ∧ Session papi cores cfg w1 (runs ++ runs') := by
  induction hexec generalizing w runs with
  | nil => exact ⟨w, hdump.symm, by simpa using h⟩
  | cons hstep hrest ih =>
    cases hstep with
    | setup _ _ => exact ih h hdump
    | pr_co_setup _ _ => exact ih h hdump
    | run_test _ hrun =>
      obtain ⟨w3, hw3, hsession⟩ := ih (h.run hdump hrun) rfl
      exact ⟨w3, hw3, by simpa using hsession⟩

/-- **Scripts log sessions.** -/
theorem exec_session (hexec : Exec (BenchStep papi cores cfg) as w runs w')
    (hempty : w.dump = []) : ∃ w1, w1.dump = w'.dump ∧ Session papi cores cfg w1 runs :=
  Session.relog (Session.start hempty) rfl hexec

/-! ### The Ring -/

/-- The shared data have the same size and flags, and a ring that was there is
    there. -/
structure Intact (g g' : Shared) : Prop where
  size : g'.shared_data_size = g.shared_data_size
  line : g'.cache_line_size = g.cache_line_size
  flags : g'.wrflag = g.wrflag
  walk : ∀ n stop, Walk g n stop → Walk g' n stop

theorem Intact.refl (g : Shared) : Intact g g := ⟨rfl, rfl, rfl, fun _ _ h => h⟩

theorem Intact.trans {g g' g'' : Shared} (h : Intact g g') (h' : Intact g' g'') : Intact g g'' where
  size := h'.size.trans h.size
  line := h'.line.trans h.line
  flags := h'.flags.trans h.flags
  walk n stop hwalk := h'.walk n stop (h.walk n stop hwalk)

/-- A body that keeps the ring. -/
def KeepsRing (op : Op World PAPILLCounter) : Prop := ∀ wc, Intact wc.1.shared (op wc).1.shared

/-- `reader` stores nothing. -/
theorem reader_shared (core : Int) (wc : World × PAPILLCounter) :
    (reader cores core wc).1.shared = wc.1.shared := by
  unfold reader reader_
  rw [sample_world.1]
  exact upTo_spec (fun _ (s : Chase) => s.world.shared = wc.1.shared) (fun _ _ _ h => h) rfl

theorem keepsRing_reader (core : Int) : KeepsRing (reader cores core) := by
  intro wc
  rw [reader_shared]
  exact .refl _

theorem keepsRing_flusher (core : Int) : KeepsRing (flusher cores core) := by
  intro wc
  have hshared : (flusher cores core wc).1.shared = wc.1.shared :=
    upTo_spec (fun _ (w : World) => w.shared = wc.1.shared) (fun _ _ _ h => h) rfl
  rw [hshared]
  exact .refl _

/-- `writer` stores payloads only. -/
theorem keepsRing_writer (core : Int) : KeepsRing (writer cores core) := by
  intro wc
  have hfields : (writer cores core wc).1.shared.shared_data_size = wc.1.shared.shared_data_size ∧
      (writer cores core wc).1.shared.cache_line_size = wc.1.shared.cache_line_size ∧
      (writer cores core wc).1.shared.wrflag = wc.1.shared.wrflag := by
    unfold writer writer_
    rw [sample_world.1]
    exact upTo_spec (fun _ (s : Chase) =>
      s.world.shared.shared_data_size = wc.1.shared.shared_data_size ∧
        s.world.shared.cache_line_size = wc.1.shared.cache_line_size ∧
        s.world.shared.wrflag = wc.1.shared.wrflag) (fun _ _ _ h => h) ⟨rfl, rfl, rfl⟩
  refine ⟨hfields.1, hfields.2.1, hfields.2.2, ?_⟩
  intro n stop hwalk
  obtain ⟨mem, hshared, hmem, -⟩ := writer_world cores core wc.2 hwalk
  rw [hshared]
  exact hwalk.store fun i _ => hmem i

theorem KeepsRing.thread (papi : Papi) {sch : Sched} (h : KeepsRing sch.benchmark) (warmup : Nat)
    (wc : World × PAPILLCounter) :
    Intact wc.1.shared (counter_thread_fn (papiApi papi) warmup sch wc).1.shared := by
  have hwarm : ∀ k, Intact wc.1.shared
      (sch.benchmark^[k] (addEvents (papiApi papi) sch wc)).1.shared := by
    intro k
    induction k with
    | zero => exact .refl _
    | succ k ih =>
      rw [Function.iterate_succ_apply']
      exact ih.trans (h _)
  have hlast := h (PAPILLCounter.reset (sch.benchmark^[warmup] (addEvents (papiApi papi) sch wc)))
  rw [reset_world] at hlast
  exact (hwarm warmup).trans hlast

theorem series_keepsRing (papi : Papi) {vec : List Sched}
    (h : ∀ sch ∈ vec, KeepsRing sch.benchmark) (warmup : Nat) (w : World) :
    Intact w.shared (series (papiApi papi) warmup vec w).1.shared := by
  induction vec generalizing w with
  | nil => exact .refl _
  | cons sch vec ih =>
    have hfirst := (h sch (by simp)).thread papi warmup (w, freshCounter (papiApi papi) sch)
    exact hfirst.trans (ih (fun x hx => h x (by simp [hx])) _)

theorem init_state_keepsRing {core_a core_b : Int} {cc_state : Nat} {cnt_vec : List Text} :
    ∀ sch ∈ init_state cores [] cc_state core_a core_b cnt_vec, KeepsRing sch.benchmark := by
  have hwriter : ∀ core events, KeepsRing (sched core (writer cores) events).benchmark :=
    fun core _ => keepsRing_writer core
  have hreader : ∀ core events, KeepsRing (sched core (reader cores) events).benchmark :=
    fun core _ => keepsRing_reader core
  have hflusher : ∀ core events, KeepsRing (sched core (flusher cores) events).benchmark :=
    fun core _ => keepsRing_flusher core
  unfold init_state
  split <;> simp [hwriter, hreader, hflusher]

theorem run_test_vec_keepsRing {t : MesiType} (ht : t ≠ .producer_consumer) (c : CorePlacement)
    (cnt_vec : List Text) :
    ∀ sch ∈ run_test_vec cores cfg t c cnt_vec, KeepsRing sch.benchmark := by
  have hwriter : ∀ core events, KeepsRing (sched core (writer cores) events).benchmark :=
    fun core _ => keepsRing_writer core
  have hreader : ∀ core events, KeepsRing (sched core (reader cores) events).benchmark :=
    fun core _ => keepsRing_reader core
  have hflusher : ∀ core events, KeepsRing (sched core (flusher cores) events).benchmark :=
    fun core _ => keepsRing_flusher core
  unfold run_test_vec
  cases t with
  | producer_consumer => contradiction
  | flush => simp [hflusher]
  | store_on_modified | store_on_exclusive | store_on_shared_or_forward | store_on_invalid
  | load_from_modified | load_from_exclusive | load_from_shared_or_forward
  | load_from_invalid =>
    dsimp only
    rw [init_state_append]
    simp only [List.forall_mem_append, List.forall_mem_cons]
    exact ⟨⟨⟨hflusher _ _, hflusher _ _, hflusher _ _, by simp⟩, init_state_keepsRing⟩,
      by simp [hwriter, hreader]⟩

/-- **The ring survives a test.** -/
theorem RunTest.kept {r : TestRun} (h : RunTest papi cores cfg w r w')
    (ht : r.test ≠ .producer_consumer) : Intact w.shared w'.shared := by
  obtain ⟨w1, hseries, rfl⟩ := h.priority ht
  have hvec : ∀ sch ∈ run_test_vec cores cfg r.test r.placement r.cnt_vec,
      KeepsRing sch.benchmark := run_test_vec_keepsRing ht r.placement r.cnt_vec
  have hkept := series_keepsRing papi hvec 0
    (w.append (run_test_header cfg r.test r.placement r.size))
  rw [hseries] at hkept
  rw [print_counters_eq]
  exact hkept

/-! ### Sizes -/

/-- A positive multiple of the line size. -/
def Whole (size : BitVec 64) : Prop := 0 < size.toNat ∧ size.toNat % 64 = 0

instance (size : BitVec 64) : Decidable (Whole size) := inferInstanceAs (Decidable (_ ∧ _))

/-- The shared data are a ring of at least one node, of `size` bytes. -/
def Ringed (size : BitVec 64) (w : World) : Prop :=
  w.shared.shared_data_size = size ∧ ∃ stop, Walk w.shared (size.toNat / 64) stop

theorem setup_config {draws : Draws} {fuel : Nat} {addr size stride : BitVec 64} {g g' : Shared}
    (h : setup draws fuel addr size stride g = some g') :
    g'.shared_data_size = g.shared_data_size ∧ g'.cache_line_size = g.cache_line_size := by
  obtain ⟨r, -, rfl⟩ := Option.map_eq_some_iff.mp h
  exact ⟨rfl, rfl⟩

theorem setup_ringed {draws : Draws} {fuel : Nat} {addr size : BitVec 64} {g : Shared}
    (hsize : Whole size) (hline : w.shared.cache_line_size = 64) (haddr : addr.toNat % 16 = 0)
    (h : setup draws fuel addr size 64 { w.shared with shared_data_size := size } = some g) :
    Ringed size { w with shared := g } := by
  obtain ⟨hpos, hmul⟩ := hsize
  refine ⟨(setup_config h).1, ?_⟩
  exact setup_walk (g := { w.shared with shared_data_size := size }) (by omega)
    (show size.toNat = 64 * (size.toNat / 64) by omega) hline (by omega) h

theorem RunTest.ringed {r : TestRun} {size : BitVec 64} (h : RunTest papi cores cfg w r w')
    (ht : r.test ≠ .producer_consumer) (hring : Ringed size w) : Ringed size w' := by
  obtain ⟨hsize, stop, hwalk⟩ := hring
  have hkept := h.kept ht
  exact ⟨hkept.size.trans hsize, stop, hkept.walk _ _ hwalk⟩

/-! ### Executions -/

/-- The sizes that are set up are from the list. -/
def Stmt.Sized (sizes : List (BitVec 64)) : Stmt → Prop
  | .setup size => size ∈ sizes
  | .pr_co_setup size => size ∈ sizes
  | .run_test _ _ _ => True

/-- A statement of a benchmark without producers and consumers. -/
def Stmt.RingOnly : Stmt → Prop
  | .setup _ => True
  | .pr_co_setup _ => False
  | .run_test t _ _ => t ≠ .producer_consumer

theorem Whole.fits {size : BitVec 64} (h : Whole size) (hfew : size.toNat < 2 ^ 31) :
    Fits size 64 := by
  obtain ⟨hpos, hmul⟩ := h
  have hroom : Room size 64 := .of_sixteen hpos (by decide) (Nat.dvd_of_mod_eq_zero hmul)
  refine hroom.fits ?_
  rw [hroom.count_eq]
  exact (Nat.div_le_self _ _).trans_lt hfew

/-- A statement that the process survives. -/
def Stmt.Defined (g : Shared) : Stmt → Prop
  | .setup _ => True
  | .pr_co_setup _ => True
  | .run_test t _ _ => t.Defined g

/-- Every such statement can be executed. -/
theorem BenchStep.can (papi : Papi) (cores : Finset Int) (cfg : CoreConfig) {a : Stmt}
    {sizes : List (BitVec 64)} (hsizes : ∀ size ∈ sizes, Whole size ∧ size.toNat < 2 ^ 31)
    (ha : a.Sized sizes) (hdef : a.Defined w.shared) :
    ∃ runs w', BenchStep papi cores cfg a w runs w' := by
  cases a with
  | setup size =>
    obtain ⟨hwhole, hfew⟩ := hsizes size ha
    obtain ⟨mem, path, hsetup, -⟩ := setup_spec (fun _ _ => 0) (hwhole.fits hfew) 4096
      { w.shared with shared_data_size := size } (Nat.lt_succ_self _)
    exact ⟨[], _, .setup (by decide) hsetup⟩
  | pr_co_setup size =>
    obtain ⟨hwhole, hfew⟩ := hsizes size ha
    -- fuel for both loops
    obtain ⟨mem, path, hsetup, -⟩ := pr_co_setup_spec (fun _ _ => 0) (hwhole.fits hfew) 4096
      { w.shared with shared_data_size := size }
      (Nat.lt_succ_of_le (Nat.le_add_right size.toNat (nodeCount size 64)))
      (Nat.lt_succ_of_le (Nat.le_add_left _ _))
    exact ⟨[], _, .pr_co_setup (by decide) hsetup⟩
  | run_test t c cnt_vec =>
    obtain ⟨counters, w', hrun⟩ := run_test_returns papi cores cfg w t c cnt_vec
    refine ⟨_, w', .run_test ?_ hrun⟩
    exact hdef

theorem BenchStep.line {a : Stmt} (h : BenchStep papi cores cfg a w runs w') (ha : a.RingOnly) :
    w'.shared.cache_line_size = w.shared.cache_line_size := by
  cases h with
  | setup _ hsetup => exact (setup_config hsetup).2
  | pr_co_setup _ _ => exact ha.elim
  | run_test _ hrun => exact (hrun.kept ha).line

/-- Without producers and consumers there has to be a line size only. -/
theorem Stmt.RingOnly.defined {a : Stmt} {g : Shared} (ha : a.RingOnly)
    (hline : g.cache_line_size ≠ 0) : a.Defined g := by
  cases a with
  | setup _ => trivial
  | pr_co_setup _ => exact ha.elim
  | run_test t _ _ => exact ⟨fun _ => hline, fun heq => absurd heq ha⟩

/-- **Such scripts can be executed.** -/
theorem exec_can_ring (papi : Papi) (cores : Finset Int) (cfg : CoreConfig)
    {sizes : List (BitVec 64)} (hsizes : ∀ size ∈ sizes, Whole size ∧ size.toNat < 2 ^ 31)
    (hsized : ∀ a ∈ as, a.Sized sizes) (hring : ∀ a ∈ as, a.RingOnly)
    (hline : w.shared.cache_line_size ≠ 0) :
    ∃ runs w', Exec (BenchStep papi cores cfg) as w runs w' := by
  refine exec_can (fun w => w.shared.cache_line_size ≠ 0) ?_ hline
  intro a ha w hw
  obtain ⟨runs, w', hstep⟩ := BenchStep.can papi cores cfg hsizes (hsized a ha)
    ((hring a ha).defined hw)
  exact ⟨runs, w', hstep, hstep.line (hring a ha) ▸ hw⟩

/-- The size that a statement sets up. -/
def Stmt.size : Stmt → Option (BitVec 64)
  | .setup size => some size
  | .pr_co_setup size => some size
  | .run_test _ _ _ => none

/-- **The ring is always there**: once a script has built one, every later
    test finds a ring of the size of the last `setup`. -/
theorem exec_ringed {sizes : List (BitVec 64)} (hsizes : ∀ size ∈ sizes, Whole size)
    (hsized : ∀ a ∈ as, a.Sized sizes) (hring : ∀ a ∈ as, a.RingOnly)
    (h : Exec (BenchStep papi cores cfg) as w runs w') (hline : w.shared.cache_line_size = 64)
    {size : BitVec 64} (hmem : size ∈ sizes) (hstart : Ringed size w) :
    (as.filterMap Stmt.size).getLastD size ∈ sizes ∧
      Ringed ((as.filterMap Stmt.size).getLastD size) w' := by
  induction h generalizing size with
  | nil => exact ⟨hmem, hstart⟩
  | cons hstep _ ih =>
    obtain ⟨hone, hrest⟩ := List.forall_mem_cons.mp hsized
    obtain ⟨hring1, hrings⟩ := List.forall_mem_cons.mp hring
    cases hstep with
    | @setup _ size' _ _ _ _ haddr hsetup =>
      have hlast := ih hrest hrings ((setup_config hsetup).2.trans hline) hone
        (setup_ringed (hsizes size' hone) hline haddr hsetup)
      rwa [← List.getLastD_cons] at hlast
    | pr_co_setup _ _ => exact hring1.elim
    | run_test _ hrun =>
      exact ih hrest hrings ((hrun.kept hring1).line.trans hline) hmem (hrun.ringed hring1 hstart)

/-! ### The Tests of a Script -/

/-- Test, placement and events of a call of `run_test`. -/
def Stmt.call : Stmt → Option (MesiType × CorePlacement × List Text)
  | .run_test t c cnt_vec => some (t, c, cnt_vec)
  | _ => none

/-- The runs are those that the script asks for. -/
theorem exec_calls (h : Exec (BenchStep papi cores cfg) as w runs w') :
    runs.map (fun r => (r.test, r.placement, r.cnt_vec)) = as.filterMap Stmt.call := by
  induction h with
  | nil => rfl
  | cons hstep _ ih =>
    cases hstep with
    | setup _ _ => exact ih
    | pr_co_setup _ _ => exact ih
    | run_test _ _ => exact congrArg _ ih

/-! ### Measured States -/

/-- What a test finds that is run from `w`. -/
def TestFinds (papi : Papi) (cores : Finset Int) (cfg : CoreConfig) (t : MesiType)
    (c : CorePlacement) (cnt_vec : List Text) (w : World) (Finds : World → Prop) : Prop :=
  WhenMeasuring papi (run_test_call cores cfg t c cnt_vec)
    (w.append (run_test_header cfg t c w.shared.shared_data_size)) Finds

variable {t : MesiType} {c : CorePlacement} {cnt_vec : List Text} {size : BitVec 64}

theorem Ringed.finds {Finds : World → Prop} (ht : t.protocol = true)
    (ha : cfg.core_src ∈ cores) (hne : cfg.core_src ≠ cfg.core_b c) (hring : Ringed size w)
    (hfinds : ∀ stop w', Walk w.shared (size.toNat / 64) stop →
      LinesAre w.shared.shared_data (size.toNat / 64) stop
        (prepared t.state cfg.core_src (cfg.core_b c) (stop (size.toNat / 64))) w' → Finds w') :
    TestFinds papi cores cfg t c cnt_vec w Finds := by
  obtain ⟨-, stop, hwalk⟩ := hring
  -- the header has changed the log only
  have hheader : Walk (w.append (run_test_header cfg t c w.shared.shared_data_size)).shared
      (size.toNat / 64) stop := hwalk
  exact (measuring_lines ht ha hne hheader).mono fun w' hlines => hfinds stop w' hwalk hlines

/-- **Load tests**: on any ring. -/
theorem Ringed.loads (ht : t.loads = true) (ha : cfg.core_src ∈ cores)
    (hne : cfg.core_src ≠ cfg.core_b c) (hring : Ringed size w) :
    TestFinds papi cores cfg t c cnt_vec w (LoadsFind cores (cfg.core_c c) (size.toNat / 64)
      (InState t.state cfg.core_src (cfg.core_b c))) := by
  have hp : t.protocol = true := by cases t <;> first | rfl | simp [MesiType.loads] at ht
  refine hring.finds hp ha hne ?_
  intro stop w' _ hlines
  exact hlines.loadsFind fun i _ hi => (prepared_inState t.state_mem _ _).mpr (.inl hi)

/-- **Store tests**: on any ring. -/
theorem Ringed.stores (ht : t.stores = true) (ha : cfg.core_src ∈ cores)
    (hne : cfg.core_src ≠ cfg.core_b c) (hring : Ringed size w) :
    TestFinds papi cores cfg t c cnt_vec w (StoresFind cores (cfg.core_c c) (size.toNat / 64)
      (InState t.state cfg.core_src (cfg.core_b c)) (t.state = M_STATE ∨ t.state = I_STATE)) := by
  have hp : t.protocol = true := by cases t <;> first | rfl | simp [MesiType.stores] at ht
  refine hring.finds hp ha hne ?_
  intro stop w' _ hlines
  exact hlines.storesFind fun i _ => prepared_inState t.state_mem _ _

end

/-! ### Two Cores -/

/-- PAPI with the positions in a list for codes. -/
def listPapi (names : List Text) : Papi where
  event_name_to_code := fun name => names.idxOf name
  event_code_to_name := fun code => names.getD code.toNat []

theorem listPapi_names {names : List Text} (h : ∀ e ∈ names, Solid e) :
    (listPapi names).Names names := by
  intro e he
  refine ⟨?_, h e he⟩
  have hlt : names.idxOf e < names.length := List.idxOf_lt_length_iff.mpr he
  show names.getD (names.idxOf e) [] = e
  rw [List.getD_eq_getElem _ _ hlt, List.getElem_idxOf hlt]

/-- The last core is on the other socket. -/
def twoCores : CoreConfig := ⟨0, 1, 1, 1, 1⟩

end Pcnt
