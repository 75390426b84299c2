import Microrev.Lib.Decimal
import Microrev.Lib.Coherence
import Microrev.Ring.LinkedList
import Microrev.Harness.Series

/-! # PAPI Counters (`counter.cpp`)

    `PAPILLCounter`, as the harness and the benchmark bodies use it, and the
    process around it: shared data, caches, the clock, the counts that PAPI
    will deliver, and the contents of `dump.dat`. Calls into PAPI succeed;
    a failing one ends the process. The handle `event_set` and the check
    against `max_hw_cntrs` are left to `EventSet`.
-/

namespace Pcnt

open Decimal

/-- The process, as far as counters and benchmark bodies see it. -/
structure World where
  shared : Shared
  /-- The caches, by line number and core. -/
  cache : Cache (BitVec 64) Int
  /-- The contents of `dump.dat`. -/
  dump : Text
  /-- What the time stamp counter will read, one reading after the other. -/
  clock : Nat → BitVec 64
  /-- What `PAPI_stop` will deliver, one count after the other. -/
  counts : Nat → BitVec 64

/-- `PAPILLCounter` with the members it inherits from `Counter`. -/
structure PAPILLCounter where
  measured : List (BitVec 64)
  cset : List Int
  cycles_measured : ℚ
  vec_cycles_measured : List (BitVec 64)
  core_id : Int
  label : String

/-- The names that PAPI knows. -/
structure Papi where
  event_name_to_code : Text → Int
  event_code_to_name : Int → Text

/-- `rdtsc()`. -/
def World.rdtsc (w : World) : BitVec 64 × World :=
  (w.clock 0, { w with clock := fun k => w.clock (k + 1) })

namespace PAPILLCounter

/-! ### Member Functions -/

/-- The default constructor. -/
def make : PAPILLCounter where
  measured := []
  cset := []
  cycles_measured := 0
  vec_cycles_measured := []
  core_id := 0
  label := ""

def add (papi : Papi) (events : List Text) : Op World PAPILLCounter := fun wc =>
  (wc.1, { wc.2 with cset := wc.2.cset ++ events.map papi.event_name_to_code })

def read : Op World PAPILLCounter := fun wc =>
  if 0 < wc.2.cset.length then
    ({ wc.1 with counts := fun k => wc.1.counts (wc.2.cset.length + k) },
      { wc.2 with measured := (List.range wc.2.cset.length).map wc.1.counts })
  else wc

def reset : Op World PAPILLCounter := fun wc =>
  if 0 < wc.2.cset.length then
    (wc.1, { wc.2 with
      measured := List.replicate wc.2.cset.length 0
      vec_cycles_measured := [] })
  else wc

/-- `PAPI_start`. -/
def start : Op World PAPILLCounter := id

/-- Cleaning up in PAPI. -/
def end_ : Op World PAPILLCounter := id

/-- `vec_cycles_measured.push_back( v )`. -/
def push_cycles (v : BitVec 64) (pc : PAPILLCounter) : PAPILLCounter :=
  { pc with vec_cycles_measured := pc.vec_cycles_measured ++ [v] }

/-- `cycles_measured` after `(double)c / vec_cycles_measured.size()` was added
    for every entry `c`. -/
def cycles (pc : PAPILLCounter) : ℚ :=
  pc.vec_cycles_measured.foldl (fun acc c =>
    roundDouble (acc + roundDouble
      (roundDouble c.toInt / roundDouble pc.vec_cycles_measured.length))) pc.cycles_measured

/-- What is printed, and the counter afterwards. -/
def stats_to_stream (papi : Papi) (pc : PAPILLCounter) : Text × PAPILLCounter :=
  if pc.cset.length = 0 ∧ pc.vec_cycles_measured.length = 0 then ([], pc)
  else
    ((if pc.label = "" then [] else "~~".toList ++ pc.label.toList ++ "~~\n".toList) ++
      ((pc.cset.zip pc.measured).flatMap fun e =>
        papi.event_code_to_name e.1 ++ ": ".toList ++ showInt e.2.toInt ++ "\n".toList) ++
      ("Cycles: ".toList ++ showDouble pc.cycles ++ "\n".toList) ++ "\n".toList,
      { pc with cycles_measured := pc.cycles })

/-- Append to `dump.dat`. -/
def stats (papi : Papi) : Op World PAPILLCounter := fun wc =>
  ({ wc.1 with dump := wc.1.dump ++ (wc.2.stats_to_stream papi).1 },
    (wc.2.stats_to_stream papi).2)

end PAPILLCounter

/-- What the harness uses of `PAPILLCounter`. -/
def papiApi (papi : Papi) : CounterApi World PAPILLCounter (List Text) where
  make := PAPILLCounter.make
  set_label l pc := { pc with label := l }
  set_core_id c pc := { pc with core_id := c }
  add := PAPILLCounter.add papi
  reset := PAPILLCounter.reset
  end_ := PAPILLCounter.end_
  stats := PAPILLCounter.stats papi

/-! ### The Printed Record -/

/-- The names and values of a record, in the order they are printed. -/
def PAPILLCounter.record (papi : Papi) (pc : PAPILLCounter) : List (Text × Text) :=
  (pc.cset.zip pc.measured).map (fun e => (papi.event_code_to_name e.1, showInt e.2.toInt)) ++
    [("Cycles".toList, showDouble pc.cycles)]

/-- One line of a record. -/
def recordLine (e : Text × Text) : Text := e.1 ++ ": ".toList ++ e.2

/-- A counter without a label that has something to print prints one line
    for each entry of its record, and a blank line. -/
theorem stats_to_stream_text (papi : Papi) {pc : PAPILLCounter} (hlabel : pc.label = "")
    (hset : pc.cset ≠ []) :
    (pc.stats_to_stream papi).1 = Text.unlines ((pc.record papi).map recordLine ++ [[]]) := by
  have hlen : ¬ (pc.cset.length = 0 ∧ pc.vec_cycles_measured.length = 0) := by simp [hset]
  unfold PAPILLCounter.stats_to_stream PAPILLCounter.record
  rw [if_neg hlen]
  simp [hlabel, Text.unlines, recordLine, List.flatMap_map]

/-! ### What Operations Keep -/

/-- The operation prints nothing and leaves the counter's events, label and
    cycles alone. -/
structure Keeps (op : Op World PAPILLCounter) : Prop where
  dump : ∀ wc, (op wc).1.dump = wc.1.dump
  cset : ∀ wc, (op wc).2.cset = wc.2.cset
  label : ∀ wc, (op wc).2.label = wc.2.label
  cycles : ∀ wc, (op wc).2.cycles_measured = wc.2.cycles_measured

/-- A measuring body: it takes one time and, if there are events, one count
    for each of them. -/
structure Measures (op : Op World PAPILLCounter) : Prop extends Keeps op where
  vec : ∀ wc, ∃ v, (op wc).2.vec_cycles_measured = wc.2.vec_cycles_measured ++ [v]
  measured : ∀ wc, wc.2.cset ≠ [] → (op wc).2.measured.length = wc.2.cset.length

theorem keeps_id : Keeps id := ⟨fun _ => rfl, fun _ => rfl, fun _ => rfl, fun _ => rfl⟩

theorem Keeps.comp {f g : Op World PAPILLCounter} (hf : Keeps f) (hg : Keeps g) :
    Keeps (f ∘ g) where
  dump wc := (hf.dump _).trans (hg.dump wc)
  cset wc := (hf.cset _).trans (hg.cset wc)
  label wc := (hf.label _).trans (hg.label wc)
  cycles wc := (hf.cycles _).trans (hg.cycles wc)

theorem Keeps.iterate {f : Op World PAPILLCounter} (hf : Keeps f) (k : Nat) : Keeps f^[k] := by
  induction k with
  | zero => exact keeps_id
  | succ k ih => exact ih.comp hf

theorem keeps_reset : Keeps PAPILLCounter.reset := by
  constructor <;> intro wc <;> unfold PAPILLCounter.reset <;> split <;> rfl

theorem keeps_read : Keeps PAPILLCounter.read := by
  constructor <;> intro wc <;> unfold PAPILLCounter.read <;> split <;> rfl

/-- The counter of a finished schedule. -/
structure CounterFor (papi : Papi) (sch : Schedule World PAPILLCounter (List Text))
    (pc : PAPILLCounter) : Prop where
  cset : pc.cset = sch.events.map papi.event_name_to_code
  label : pc.label = sch.label
  cycles : pc.cycles_measured = 0

/-- If it had events, and a measuring body. -/
structure Sampled (papi : Papi) (sch : Schedule World PAPILLCounter (List Text))
    (pc : PAPILLCounter) : Prop extends CounterFor papi sch pc where
  measured : pc.measured.length = sch.events.length
  vec : ∃ v, pc.vec_cycles_measured = [v]

section
variable (papi : Papi) {sch : Schedule World PAPILLCounter (List Text)}

/-- A thread prints nothing itself. -/
theorem thread_dump (h : Keeps sch.benchmark) (warmup : Nat) (wc : World × PAPILLCounter) :
    (counter_thread_fn (papiApi papi) warmup sch wc).1.dump = wc.1.dump := by
  show (sch.benchmark (PAPILLCounter.reset _)).1.dump = wc.1.dump
  rw [h.dump, keeps_reset.dump, (h.iterate warmup).dump]
  rfl

theorem thread_finished (h : Keeps sch.benchmark) (warmup : Nat) (w : World) :
    CounterFor papi sch (counter_thread_fn (papiApi papi) warmup sch
      (w, freshCounter (papiApi papi) sch)).2 := by
  constructor
  · show (sch.benchmark (PAPILLCounter.reset _)).2.cset = _
    rw [h.cset, keeps_reset.cset, (h.iterate warmup).cset]
    rfl
  · show (sch.benchmark (PAPILLCounter.reset _)).2.label = _
    rw [h.label, keeps_reset.label, (h.iterate warmup).label]
    rfl
  · show (sch.benchmark (PAPILLCounter.reset _)).2.cycles_measured = _
    rw [h.cycles, keeps_reset.cycles, (h.iterate warmup).cycles]
    rfl

theorem thread_sampled (h : Measures sch.benchmark) (hev : sch.events ≠ []) (warmup : Nat)
    (w : World) :
    Sampled papi sch (counter_thread_fn (papiApi papi) warmup sch
      (w, freshCounter (papiApi papi) sch)).2 := by
  have hfin := thread_finished papi h.toKeeps warmup w
  generalize hwc : sch.benchmark^[warmup] (addEvents (papiApi papi) sch
    (w, freshCounter (papiApi papi) sch)) = wc
  have hbody : (counter_thread_fn (papiApi papi) warmup sch
      (w, freshCounter (papiApi papi) sch)) = sch.benchmark (PAPILLCounter.reset wc) := by
    rw [← hwc]
    rfl
  rw [hbody] at hfin ⊢
  have hset : (PAPILLCounter.reset wc).2.cset = sch.events.map papi.event_name_to_code := by
    rw [← h.cset, hfin.cset]
  have hne : wc.2.cset ≠ [] := by
    rw [← keeps_reset.cset, hset]
    simpa using hev
  refine ⟨hfin, ?_, ?_⟩
  · rw [h.measured _ (by rw [hset]; simpa using hev), hset, List.length_map]
  · -- `reset` has cleared the cycles of the warm-up calls
    have hclear : (PAPILLCounter.reset wc).2.vec_cycles_measured = [] := by
      unfold PAPILLCounter.reset
      rw [if_pos (List.length_pos_of_ne_nil hne)]
    obtain ⟨v, hv⟩ := h.vec (PAPILLCounter.reset wc)
    exact ⟨v, by rw [hv, hclear]; rfl⟩

/-- Measuring schedules, one after the other. -/
theorem series_sampled {vec : List (Schedule World PAPILLCounter (List Text))}
    (h : ∀ sch ∈ vec, Measures sch.benchmark ∧ sch.events ≠ []) (warmup : Nat) (w : World) :
    (series (papiApi papi) warmup vec w).1.dump = w.dump ∧
      List.Forall₂ (Sampled papi) vec (series (papiApi papi) warmup vec w).2 := by
  induction vec generalizing w with
  | nil => exact ⟨rfl, .nil⟩
  | cons sch vec ih =>
    obtain ⟨⟨hmeasures, hev⟩, hrest⟩ := List.forall_mem_cons.mp h
    obtain ⟨hdump, hall⟩ := ih hrest
      (counter_thread_fn (papiApi papi) warmup sch (w, freshCounter (papiApi papi) sch)).1
    exact ⟨hdump.trans (thread_dump papi hmeasures.toKeeps warmup _),
      .cons (thread_sampled papi hmeasures hev warmup w) hall⟩

end

end Pcnt
