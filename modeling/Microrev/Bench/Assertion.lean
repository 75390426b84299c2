import Microrev.Harness.Custody
import Microrev.Bench.Bodies

/-! # The Assertion of `stats_to_stream`

    `stats_to_stream` asserts that there is a measured value for every event.
    `add` breaks this, `read` restores it if it is called, and `reset` always
    does. The harness calls `reset` after `add` and before the measured call,
    so the assertion holds whatever the benchmark does with its counter.
-/

namespace Pcnt

open Lts

/-- What a benchmark may do: start and read its counter, in any order and any
    number of times, and anything that leaves events and values alone. -/
inductive StartsAndReads : World × PAPILLCounter → World × PAPILLCounter → Prop where
  | done {p} : StartsAndReads p p
  | start {p q} : StartsAndReads (PAPILLCounter.start p) q → StartsAndReads p q
  | read {p q} : StartsAndReads (PAPILLCounter.read p) q → StartsAndReads p q
  | other {p q} (r) : r.2.cset = p.2.cset → r.2.measured = p.2.measured →
      StartsAndReads r q → StartsAndReads p q

namespace PAPILLCounter

/-- `assert( cset.size() == measured.size() )`. -/
def Sized (pc : PAPILLCounter) : Prop := pc.cset.length = pc.measured.length

/-- No events have been added yet. -/
def Unused (pc : PAPILLCounter) : Prop := pc.cset = [] ∧ pc.measured = []

/-- After `add`. -/
def InUse (pc : PAPILLCounter) : Prop := pc.cset = [] → pc.measured = []

/-- What goes to `std::cout`, and the counter afterwards. -/
def print_stats (papi : Papi) (pc : PAPILLCounter) : Text × PAPILLCounter :=
  pc.stats_to_stream papi

/-- `pc` after any number of calls of `stats` and `print_stats`. -/
inductive Printed (papi : Papi) (pc : PAPILLCounter) : PAPILLCounter → Prop where
  | not_yet : Printed papi pc pc
  | stats {pc'} (w : World) : Printed papi pc pc' →
      Printed papi pc (PAPILLCounter.stats papi (w, pc')).2
  | print_stats {pc'} : Printed papi pc pc' → Printed papi pc (pc'.print_stats papi).2

end PAPILLCounter

section
variable {papi : Papi}

open PAPILLCounter

/-! ### Operations on a Counter -/

theorem stats_to_stream_sizes (papi : Papi) (pc : PAPILLCounter) :
    (pc.stats_to_stream papi).2.cset = pc.cset ∧
      (pc.stats_to_stream papi).2.measured = pc.measured := by
  unfold stats_to_stream
  split
  · exact ⟨rfl, rfl⟩
  · exact ⟨rfl, rfl⟩

theorem Sized.printed {pc pc' : PAPILLCounter} (h : pc.Sized) (hp : Printed papi pc pc') :
    pc'.Sized := by
  induction hp with
  | not_yet => exact h
  | @stats pc' w _ ih | @print_stats pc' _ ih =>
    obtain ⟨hcset, hmeasured⟩ := stats_to_stream_sizes papi pc'
    unfold Sized at ih ⊢
    rw [← hcset, ← hmeasured] at ih
    exact ih

theorem read_sized {wc : World × PAPILLCounter} (h : wc.2.Sized) :
    (PAPILLCounter.read wc).2.Sized := by
  unfold PAPILLCounter.read
  split
  · simp [Sized]
  · exact h

theorem read_inUse {wc : World × PAPILLCounter} (h : wc.2.InUse) :
    (PAPILLCounter.read wc).2.InUse := by
  unfold PAPILLCounter.read
  split
  · next hpos =>
    intro hempty
    simp [show wc.2.cset = [] from hempty] at hpos
  · exact h

theorem StartsAndReads.keepsStage {op : Op World PAPILLCounter}
    (h : ∀ wc, StartsAndReads wc (op wc)) : KeepsStage InUse Sized op := by
  have hkeep : ∀ {wc wc' : World × PAPILLCounter}, StartsAndReads wc wc' →
      (wc.2.InUse → wc'.2.InUse) ∧ (wc.2.Sized → wc'.2.Sized) := by
    intro wc wc' hrun
    induction hrun with
    | done => exact ⟨id, id⟩
    | start _ ih => exact ih
    | read _ ih => exact ⟨fun h => ih.1 (read_inUse h), fun h => ih.2 (read_sized h)⟩
    | other _ hcset hmeasured _ ih =>
      unfold InUse Sized at ih ⊢
      rw [← hcset, ← hmeasured]
      exact ih
  exact ⟨fun wc => (hkeep (h wc)).1, fun wc => (hkeep (h wc)).2⟩

/-- The operations of the harness on a counter. -/
theorem papi_stages (papi : Papi) : Stages (papiApi papi) Unused InUse Sized where
  make := ⟨rfl, rfl⟩
  set_label _ _ h := h
  add _ _ _ _ h := fun _ => h.2
  reset wc h := by
    show (PAPILLCounter.reset wc).2.Sized
    unfold PAPILLCounter.reset
    split
    · simp [Sized]
    · next hempty =>
      have hcset : wc.2.cset = [] := List.length_eq_zero_iff.mp (Nat.eq_zero_of_not_pos hempty)
      simp [Sized, hcset, h hcset]
  end_ _ h := h
  stats wc h := Sized.printed h (.stats wc.1 .not_yet)

/-! ### Benchmarks -/

/-- The bodies that measure start and read once. -/
theorem sample_startsAndReads (f : World → World × BitVec 64) (wc : World × PAPILLCounter) :
    StartsAndReads wc (sample f wc) := by
  apply StartsAndReads.start
  apply StartsAndReads.other (p := wc) ((f wc.1).1, wc.2) rfl rfl
  apply StartsAndReads.read
  exact StartsAndReads.other (sample f wc) rfl rfl .done

/-- `flusher_` leaves its counter alone. -/
theorem flusher_startsAndReads (cores : Finset Int) (core : Int) (wc : World × PAPILLCounter) :
    StartsAndReads wc (flusher_ cores core wc) :=
  .other (p := wc) (flusher_ cores core wc) rfl rfl .done

/-! ### In the Harness -/

variable {calls : List (Call World PAPILLCounter (List Text))} {world : World}
variable {s : State World PAPILLCounter (List Text)}

/-- **The assertion holds** for every counter that is printed by the harness or
    returned by it, however often it is printed. -/
theorem sizes_agree
    (hbench : ∀ c ∈ calls, ∀ sch ∈ c.svec, ∀ wc, StartsAndReads wc (sch.benchmark wc))
    (h : Reachable (harness (papiApi papi) calls world) s) :
    (∀ c k, s.pc = .running c (.stats k) → k < c.svec.length →
      ∃ pc, s.counters[k]? = some pc ∧ ∀ pc', Printed papi pc pc' →
        pc'.cset.length = pc'.measured.length) ∧
    ∀ counters ∈ s.returned, ∀ pc ∈ counters, ∀ pc', Printed papi pc pc' →
      pc'.cset.length = pc'.measured.length := by
  have hkeeps : ∀ c ∈ calls, ∀ sch ∈ c.svec, KeepsStage InUse Sized sch.benchmark :=
    fun c hc sch hsch => StartsAndReads.keepsStage (hbench c hc sch hsch)
  constructor
  · intro c k hp hk
    obtain ⟨pc, hpc, hsized⟩ := stats_ready (papi_stages papi) hkeeps h hp hk
    exact ⟨pc, hpc, fun pc' hprinted => Sized.printed hsized hprinted⟩
  · intro counters hcounters pc hpc pc' hprinted
    have hinv := custody_inv (papi_stages papi) hkeeps h
    exact Sized.printed (hinv.returned counters hcounters pc hpc) hprinted

end

/-- A benchmark that does nothing to its counter, for one event. -/
def idleSchedule : Schedule World PAPILLCounter (List Text) where
  core_id := 0
  benchmark := id
  events := ["A".toList]
  label := ""

/-- The process before that, with PAPI knowing one code. -/
def quietWorld : World where
  shared := oneLine
  cache := fun _ _ => .invalid
  dump := []
  clock := fun _ => 0
  counts := fun _ => 0

/-- One priority call with that benchmark. -/
theorem sizes_agree_idle :
    ∃ s pc, Reachable (harness (papiApi ⟨fun _ => 1, fun _ => "A".toList⟩)
        [⟨.priority, [idleSchedule], 5⟩] quietWorld) s ∧
      s.returned = [[pc]] ∧ pc.cset.length = pc.measured.length := by
  have hprio : (⟨.priority, [idleSchedule], 5⟩ : Call World PAPILLCounter (List Text)).kind =
      .priority := rfl
  obtain ⟨s, hs, -, -, hreturned⟩ := series_returns (papiApi ⟨fun _ => 1, fun _ => "A".toList⟩)
    hprio quietWorld
  have hret : s.returned = [[_]] := hreturned
  refine ⟨s, _, hs, hret, ?_⟩
  have hbench : ∀ c ∈ [(⟨.priority, [idleSchedule], 5⟩ : Call World PAPILLCounter (List Text))],
      ∀ sch ∈ c.svec, ∀ wc, StartsAndReads wc (sch.benchmark wc) := by
    intro c hc sch hsch wc
    obtain rfl := List.mem_singleton.mp hc
    obtain rfl := List.mem_singleton.mp hsch
    exact .done
  exact (sizes_agree hbench hs).2 _ (hret ▸ List.mem_singleton_self _) _ (List.mem_singleton_self _)
    _ .not_yet

end Pcnt
