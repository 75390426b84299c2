import Microrev.Bench.InitState

/-! # Samples

    `vec_cycles_measured` collects the samples of a counter: benchmarks push
    to it, `reset` clears it, and printing adds the mean of its entries to
    `cycles_measured`, which nothing ever clears. This file works out which
    samples are left when `counter_thread_fn` returns, and in which histories
    all that is printed as `Cycles` is the mean of the current samples.
-/

namespace Pcnt

open Decimal

/-! ### Warm-Up -/

/-- The benchmark pushes one sample and leaves the events alone. -/
structure PushesOne (op : Op World PAPILLCounter) : Prop where
  vec : ∀ wc, ∃ v, (op wc).2.vec_cycles_measured = wc.2.vec_cycles_measured ++ [v]
  cset : ∀ wc, (op wc).2.cset = wc.2.cset

theorem Measures.pushesOne {op : Op World PAPILLCounter} (h : Measures op) : PushesOne op :=
  ⟨h.vec, h.cset⟩

/-- The process and the counter when `counter_thread_fn` makes its last call,
    after the warm-up and `reset`. -/
def beforeMeasured (papi : Papi) (warmup : Nat) (sch : Schedule World PAPILLCounter (List Text))
    (wc : World × PAPILLCounter) : World × PAPILLCounter :=
  PAPILLCounter.reset (sch.benchmark^[warmup] (addEvents (papiApi papi) sch wc))

/-- The samples of the counter are those that the last call of
    `counter_thread_fn` has pushed, and this is one sample. -/
def OnlyMeasured (papi : Papi) (warmup : Nat) (sch : Schedule World PAPILLCounter (List Text))
    (wc : World × PAPILLCounter) : Prop :=
  ∃ v, (sch.benchmark (beforeMeasured papi warmup sch wc)).2.vec_cycles_measured =
      (beforeMeasured papi warmup sch wc).2.vec_cycles_measured ++ [v] ∧
    (counter_thread_fn (papiApi papi) warmup sch wc).2.vec_cycles_measured = [v]

section
variable {papi : Papi} {sch : Schedule World PAPILLCounter (List Text)}

theorem PushesOne.iterate {op : Op World PAPILLCounter} (h : PushesOne op) (k : Nat)
    (wc : World × PAPILLCounter) :
    (op^[k] wc).2.vec_cycles_measured.length = wc.2.vec_cycles_measured.length + k ∧
      (op^[k] wc).2.cset = wc.2.cset := by
  induction k with
  | zero => exact ⟨rfl, rfl⟩
  | succ k ih =>
    obtain ⟨hlen, hset⟩ := ih
    obtain ⟨v, hv⟩ := h.vec (op^[k] wc)
    rw [Function.iterate_succ_apply']
    refine ⟨?_, (h.cset _).trans hset⟩
    rw [hv, List.length_append, hlen]
    rfl

/-- `reset` does nothing to a counter without events. -/
theorem reset_vec (wc : World × PAPILLCounter) :
    (PAPILLCounter.reset wc).2.vec_cycles_measured =
      if wc.2.cset = [] then wc.2.vec_cycles_measured else [] := by
  unfold PAPILLCounter.reset
  by_cases hset : wc.2.cset = []
  · simp [hset]
  · rw [if_pos (List.length_pos_of_ne_nil hset), if_neg hset]

/-- How many warm-up samples there are before the last call. -/
theorem beforeMeasured_length (h : PushesOne sch.benchmark) (warmup : Nat) (w : World) :
    (beforeMeasured papi warmup sch
      (w, freshCounter (papiApi papi) sch)).2.vec_cycles_measured.length =
      if sch.events = [] then warmup else 0 := by
  obtain ⟨hlen, hset⟩ := h.iterate warmup
    (addEvents (papiApi papi) sch (w, freshCounter (papiApi papi) sch))
  have hcodes : (addEvents (papiApi papi) sch (w, freshCounter (papiApi papi) sch)).2.cset =
      sch.events.map papi.event_name_to_code := rfl
  have hnone : (addEvents (papiApi papi) sch
      (w, freshCounter (papiApi papi) sch)).2.vec_cycles_measured = [] := rfl
  unfold beforeMeasured
  rw [reset_vec]
  simp only [hset, hcodes, List.map_eq_nil_iff]
  split
  · rw [hlen, hnone]
    exact Nat.zero_add warmup
  · rfl

/-- The last call of `counter_thread_fn` pushes one sample to what is left of
    the warm-up. -/
theorem onlyMeasured_iff_nil (h : PushesOne sch.benchmark) (warmup : Nat)
    (wc : World × PAPILLCounter) : OnlyMeasured papi warmup sch wc ↔
      (beforeMeasured papi warmup sch wc).2.vec_cycles_measured = [] := by
  have hfinal : (counter_thread_fn (papiApi papi) warmup sch wc).2.vec_cycles_measured =
      (sch.benchmark (beforeMeasured papi warmup sch wc)).2.vec_cycles_measured := rfl
  obtain ⟨v, hv⟩ := h.vec (beforeMeasured papi warmup sch wc)
  unfold OnlyMeasured
  rw [hfinal, hv]
  constructor
  · rintro ⟨u, -, hu⟩
    have hlen := congrArg List.length hu
    rw [List.length_append, List.length_singleton, List.length_singleton] at hlen
    exact List.length_eq_zero_iff.mp (by omega)
  · intro hnil
    rw [hnil]
    exact ⟨v, rfl, rfl⟩

/-- **Warm-up**: the warm-up samples of a fresh counter are gone in the end
    exactly when there are events or there was no warm-up. -/
theorem onlyMeasured_iff (h : PushesOne sch.benchmark) (warmup : Nat) (w : World) :
    OnlyMeasured papi warmup sch (w, freshCounter (papiApi papi) sch) ↔
      sch.events ≠ [] ∨ warmup = 0 := by
  rw [onlyMeasured_iff_nil h, ← List.length_eq_zero_iff, beforeMeasured_length h]
  by_cases hev : sch.events = []
  · simp [hev]
  · simp [hev]

end

/-- Three warm-up calls, and an event. -/
theorem onlyMeasured_three_calls : OnlyMeasured plainPapi 3 (sched 0 (reader {0}) ["x".toList])
    (coldStart oneLine, freshCounter (papiApi plainPapi) (sched 0 (reader {0}) ["x".toList])) := by
  have hpush : PushesOne (sched 0 (reader {0}) ["x".toList]).benchmark :=
    measures_reader.pushesOne
  exact (onlyMeasured_iff hpush 3 (coldStart oneLine)).mpr (.inl (by simp [sched]))

/-- Three warm-up calls and no events. -/
theorem warmup_samples_stay : ¬ OnlyMeasured plainPapi 3 (sched 0 (reader {0}) [])
    (coldStart oneLine, freshCounter (papiApi plainPapi) (sched 0 (reader {0}) [])) := by
  have hpush : PushesOne (sched 0 (reader {0}) []).benchmark :=
    measures_reader.pushesOne
  rw [onlyMeasured_iff_nil hpush, ← List.length_eq_zero_iff, beforeMeasured_length hpush]
  decide

/-! ### Printing -/

/-- What the callers of a counter do with it after `add`. -/
inductive CounterOp where
  /-- `vec_cycles_measured.push_back( v )`. -/
  | push (v : BitVec 64)
  | start
  | read
  | reset
  /-- To `dump.dat`. -/
  | stats
  /-- To the standard output. -/
  | print_stats

/-- `cycles_measured` after `stats_to_stream`, with doubles that are rounded
    by `round`. -/
def PAPILLCounter.cycles_by (round : ℚ → ℚ) (pc : PAPILLCounter) : ℚ :=
  pc.vec_cycles_measured.foldl (fun acc c =>
    round (acc + round (round c.toInt / round pc.vec_cycles_measured.length))) pc.cycles_measured

/-- `stats_to_stream` leaves its sum in `cycles_measured`, unless there is
    nothing to print. -/
def PAPILLCounter.printed_by (round : ℚ → ℚ) (pc : PAPILLCounter) : PAPILLCounter :=
  if pc.cset.length = 0 ∧ pc.vec_cycles_measured.length = 0 then pc
  else { pc with cycles_measured := pc.cycles_by round }

/-- With rounding to double this is what `stats` does to the counter. -/
theorem PAPILLCounter.printed_by_double (papi : Papi) (wc : World × PAPILLCounter) :
    wc.2.printed_by roundDouble = (PAPILLCounter.stats papi wc).2 := by
  unfold PAPILLCounter.printed_by PAPILLCounter.stats PAPILLCounter.stats_to_stream
  split <;> rfl

/-- One operation. What is printed is not part of the process here. -/
def CounterOp.run (round : ℚ → ℚ) : CounterOp → Op World PAPILLCounter
  | .push v => fun wc => (wc.1, wc.2.push_cycles v)
  | .start => PAPILLCounter.start
  | .read => PAPILLCounter.read
  | .reset => PAPILLCounter.reset
  | .stats | .print_stats => fun wc => (wc.1, wc.2.printed_by round)

/-- A record that was printed: the value after `Cycles: `, and the samples
    that the counter had. -/
structure Print where
  cycles : ℚ
  samples : List (BitVec 64)

/-- The record an operation prints. -/
def CounterOp.print (round : ℚ → ℚ) (pc : PAPILLCounter) : CounterOp → List Print
  | .stats | .print_stats =>
    if pc.cset.length = 0 ∧ pc.vec_cycles_measured.length = 0 then []
    else [{ cycles := pc.cycles_by round, samples := pc.vec_cycles_measured }]
  | _ => []

/-- All records that a sequence of operations prints. -/
def prints (round : ℚ → ℚ) : List CounterOp → World × PAPILLCounter → List Print
  | [], _ => []
  | op :: ops, wc => op.print round wc.2 ++ prints round ops (op.run round wc)

/-- A new counter after one `add` and the first `reset`. -/
def addedAndReset (papi : Papi) (events : List Text) (wc : World × PAPILLCounter) :
    World × PAPILLCounter :=
  PAPILLCounter.reset (PAPILLCounter.add papi events wc)

/-- The arithmetic mean. -/
def mean (samples : List (BitVec 64)) : ℚ :=
  ((samples.map BitVec.toInt).sum : ℚ) / samples.length

/-- With exact doubles, all that is printed of samples is their mean. -/
def PrintsMeans (ops : List CounterOp) (wc : World × PAPILLCounter) : Prop :=
  ∀ p ∈ prints id ops wc, p.samples ≠ [] → p.cycles = mean p.samples

/-- The samples that the printing operations find, by the operations alone:
    all pushes since the last `reset`. -/
def printedSamples : List CounterOp → List (BitVec 64) → List (List (BitVec 64))
  | [], _ => []
  | .push v :: ops, samples => printedSamples ops (samples ++ [v])
  | .reset :: ops, _ => printedSamples ops []
  | .stats :: ops, samples | .print_stats :: ops, samples =>
    if samples = [] then printedSamples ops samples else samples :: printedSamples ops samples
  | .start :: ops, samples | .read :: ops, samples => printedSamples ops samples

/-- Nothing has been added up when samples are printed first, and all samples
    that are printed before the last ones sum up to 0. -/
def FromZero (cycles : ℚ) (printed : List (List (BitVec 64))) : Prop :=
  (printed ≠ [] → cycles = 0) ∧
    ∀ samples ∈ printed.dropLast, (samples.map BitVec.toInt).sum = 0

section
variable {wc : World × PAPILLCounter} {ops : List CounterOp}

/-- Printing adds the mean of the samples. -/
theorem cycles_by_id (pc : PAPILLCounter) :
    pc.cycles_by id = pc.cycles_measured + mean pc.vec_cycles_measured := by
  have hsum : ∀ (n acc : ℚ) (xs : List (BitVec 64)),
      xs.foldl (fun acc c => acc + (c.toInt : ℚ) / n) acc =
        acc + ((xs.map BitVec.toInt).sum : ℚ) / n := by
    intro n acc xs
    induction xs generalizing acc with
    | nil => simp
    | cons x xs ih =>
      rw [List.foldl_cons, ih, List.map_cons, List.sum_cons]
      push_cast
      ring
  exact hsum _ _ _

theorem mean_eq_zero_iff {samples : List (BitVec 64)} (h : samples ≠ []) :
    mean samples = 0 ↔ (samples.map BitVec.toInt).sum = 0 := by
  have hlen : (samples.length : ℚ) ≠ 0 := by simpa using h
  unfold mean
  rw [div_eq_zero_iff, or_iff_left hlen]
  exact_mod_cast Iff.rfl

theorem printsMeans_cons (op : CounterOp) :
    PrintsMeans (op :: ops) wc ↔
      (∀ p ∈ op.print id wc.2, p.samples ≠ [] → p.cycles = mean p.samples) ∧
        PrintsMeans ops (op.run id wc) := by
  unfold PrintsMeans
  rw [prints, List.forall_mem_append]

/-- An operation that prints nothing. -/
theorem printsMeans_silent {op : CounterOp} (h : op.print id wc.2 = []) :
    PrintsMeans (op :: ops) wc ↔ PrintsMeans ops (op.run id wc) := by
  rw [printsMeans_cons, h]
  simp

/-- Each print needs an empty sum to start from, and leaves one behind if its
    own samples sum up to 0. -/
theorem fromZero_cons {cycles : ℚ} {samples : List (BitVec 64)} (h : samples ≠ [])
    (printed : List (List (BitVec 64))) :
    FromZero cycles (samples :: printed) ↔
      cycles = 0 ∧ FromZero (cycles + mean samples) printed := by
  unfold FromZero
  cases printed with
  | nil => simp
  | cons next rest =>
    rw [List.dropLast_cons_cons, List.forall_mem_cons, ← mean_eq_zero_iff h]
    constructor
    · rintro ⟨hzero, hmean, hrest⟩
      have hzero := hzero (by simp)
      exact ⟨hzero, fun _ => by rw [hzero, hmean, add_zero], hrest⟩
    · rintro ⟨hzero, hnext, hrest⟩
      have hnext := hnext (by simp)
      rw [hzero, zero_add] at hnext
      exact ⟨fun _ => hzero, hnext, hrest⟩

/-- Printing with events. -/
theorem printsMeans_print {op : CounterOp} (hset : wc.2.cset ≠ [])
    (hop : op = .stats ∨ op = .print_stats)
    (ih : ∀ wc' : World × PAPILLCounter, wc'.2.cset ≠ [] → (PrintsMeans ops wc' ↔
      FromZero wc'.2.cycles_measured (printedSamples ops wc'.2.vec_cycles_measured))) :
    PrintsMeans (op :: ops) wc ↔
      FromZero wc.2.cycles_measured (printedSamples (op :: ops) wc.2.vec_cycles_measured) := by
  have hguard : ¬ (wc.2.cset.length = 0 ∧ wc.2.vec_cycles_measured.length = 0) := by simp [hset]
  have hprint : op.print id wc.2 = [⟨wc.2.cycles_by id, wc.2.vec_cycles_measured⟩] := by
    rcases hop with rfl | rfl <;> exact if_neg hguard
  have hafter : (op.run id wc).2 = wc.2.printed_by id := by
    rcases hop with rfl | rfl <;> rfl
  rw [PAPILLCounter.printed_by, if_neg hguard] at hafter
  have hset' : (op.run id wc).2.cset ≠ [] := by rwa [hafter]
  have hrest := ih (op.run id wc) hset'
  rw [hafter] at hrest
  simp only [cycles_by_id] at hrest
  have hprinted : printedSamples (op :: ops) wc.2.vec_cycles_measured =
      if wc.2.vec_cycles_measured = [] then printedSamples ops wc.2.vec_cycles_measured
      else wc.2.vec_cycles_measured :: printedSamples ops wc.2.vec_cycles_measured := by
    rcases hop with rfl | rfl <;> rfl
  rw [printsMeans_cons, hprint, List.forall_mem_singleton, hrest, hprinted, cycles_by_id]
  by_cases hvec : wc.2.vec_cycles_measured = []
  · have hmean : mean [] = 0 := by simp [mean]
    simp only [hvec, hmean, ne_eq, not_true_eq_false, false_imp_iff, true_and, if_true, add_zero]
  · rw [if_neg hvec, fromZero_cons hvec]
    simp only [ne_eq, hvec, not_false_eq_true, forall_const, add_eq_right]

/-- By induction on the operations, from any state with events. -/
theorem printsMeans_from (hset : wc.2.cset ≠ []) : PrintsMeans ops wc ↔
    FromZero wc.2.cycles_measured (printedSamples ops wc.2.vec_cycles_measured) := by
  induction ops generalizing wc with
  | nil => simp [PrintsMeans, prints, FromZero, printedSamples]
  | cons op ops ih =>
    cases op with
    | push v =>
      have hset' : (CounterOp.run id (.push v) wc).2.cset ≠ [] := hset
      rw [printsMeans_silent rfl, ih hset']
      rfl
    | start =>
      have hset' : (CounterOp.run id .start wc).2.cset ≠ [] := hset
      rw [printsMeans_silent rfl, ih hset']
      rfl
    | read =>
      have hset' : (CounterOp.run id .read wc).2.cset ≠ [] := by
        show (PAPILLCounter.read wc).2.cset ≠ []
        rwa [keeps_read.cset]
      rw [printsMeans_silent rfl, ih hset']
      show FromZero (PAPILLCounter.read wc).2.cycles_measured
        (printedSamples ops (PAPILLCounter.read wc).2.vec_cycles_measured) ↔ _
      rw [keeps_read.cycles, read_vec]
      rfl
    | reset =>
      have hset' : (CounterOp.run id .reset wc).2.cset ≠ [] := by
        show (PAPILLCounter.reset wc).2.cset ≠ []
        rwa [keeps_reset.cset]
      rw [printsMeans_silent rfl, ih hset']
      show FromZero (PAPILLCounter.reset wc).2.cycles_measured
        (printedSamples ops (PAPILLCounter.reset wc).2.vec_cycles_measured) ↔ _
      rw [keeps_reset.cycles, reset_vec, if_neg hset]
      rfl
    | stats => exact printsMeans_print hset (.inl rfl) fun _ h => ih h
    | print_stats => exact printsMeans_print hset (.inr rfl) fun _ h => ih h

end

section
variable (papi : Papi) {events : List Text}

theorem addedAndReset_cset (hev : events ≠ []) (wc : World × PAPILLCounter) :
    (addedAndReset papi events wc).2.cset ≠ [] := by
  show (PAPILLCounter.reset (PAPILLCounter.add papi events wc)).2.cset ≠ []
  rw [keeps_reset.cset]
  simp [PAPILLCounter.add, hev]

theorem addedAndReset_vec (hev : events ≠ []) (wc : World × PAPILLCounter) :
    (addedAndReset papi events wc).2.vec_cycles_measured = [] := by
  show (PAPILLCounter.reset (PAPILLCounter.add papi events wc)).2.vec_cycles_measured = []
  rw [reset_vec, if_neg (by simp [PAPILLCounter.add, hev])]

theorem addedAndReset_cycles (events : List Text) (wc : World × PAPILLCounter) :
    (addedAndReset papi events wc).2.cycles_measured = wc.2.cycles_measured :=
  keeps_reset.cycles _

/-- **Means**: on any counter to which events are added, all that a sequence
    of operations prints of samples is their mean exactly when
    `cycles_measured` was 0 before (`set_cycles_measured` can make it
    something else, no operation does) and the samples printed before the last
    ones sum up to 0. -/
theorem printsMeans_iff (hev : events ≠ []) (ops : List CounterOp) (wc : World × PAPILLCounter) :
    PrintsMeans ops (addedAndReset papi events wc) ↔
      FromZero wc.2.cycles_measured (printedSamples ops []) := by
  rw [printsMeans_from (addedAndReset_cset papi hev wc), addedAndReset_vec papi hev,
    addedAndReset_cycles]

end

/-- Two samples that cancel out, and then, after `reset`, one that does not. -/
theorem printsMeans_twice :
    PrintsMeans [.start, .read, .push 5, .push (-5), .stats, .reset, .push 7, .print_stats]
      (addedAndReset plainPapi ["x".toList] (coldStart oneLine, PAPILLCounter.make)) := by
  refine (printsMeans_iff plainPapi (by decide) _ _).mpr ⟨fun _ => rfl, ?_⟩
  decide

/-- The second print of the same sample doubles it. -/
theorem second_print_doubles : ¬ PrintsMeans [.push 7, .stats, .print_stats]
    (addedAndReset plainPapi ["x".toList] (coldStart oneLine, PAPILLCounter.make)) := by
  rw [printsMeans_from (addedAndReset_cset plainPapi (by decide) _),
    addedAndReset_vec plainPapi (by decide), addedAndReset_cycles]
  simp [FromZero, printedSamples]

end Pcnt
