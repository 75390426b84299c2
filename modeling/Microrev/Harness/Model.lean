import Microrev.Lib.Transition
import Microrev.Lib.Monitor

/-! # The Benchmark Harness (`thread_utils.h`)

    One `CounterBenchmark` object, the scheduler thread that calls
    `counters_with_schedule` and `counters_with_priority_schedule` on it, and
    the worker threads that these calls spawn. Every mutex operation, every
    access to `pause`, `ready` or `threads`, and every benchmark call is a
    step of its own, so runs contain all interleavings.

    The counter type, the event type and what the benchmarks do to the rest
    of the process (`World`) are parameters, as they are template parameters
    in the source. Calls into the counter library are taken to succeed; a
    failing one ends the process.
-/

namespace Pcnt

open Lts

/-- An operation on one counter object and the rest of the process. -/
abbrev Op (World Cnt : Type) := World × Cnt → World × Cnt

/-- `Schedule`: a benchmark, the core to run it on, and the events to count. -/
structure Schedule (World Cnt Ev : Type) where
  core_id : Int
  benchmark : Op World Cnt
  events : Ev
  label : String

/-- What the harness uses of the counter type `CntTyp`. -/
structure CounterApi (World Cnt Ev : Type) where
  /-- The default constructor. -/
  make : Cnt
  set_label : String → Cnt → Cnt
  set_core_id : Int → Cnt → Cnt
  add : Ev → Op World Cnt
  reset : Op World Cnt
  end_ : Op World Cnt
  stats : Op World Cnt

/-- Which of the two member functions is called. -/
inductive CallKind where
  /-- `counters_with_schedule`. -/
  | schedule
  /-- `counters_with_priority_schedule`. -/
  | priority
  deriving DecidableEq

/-- One call on the benchmark object. -/
structure Call (World Cnt Ev : Type) where
  kind : CallKind
  svec : List (Schedule World Cnt Ev)
  warmup : Nat

/-- The threads that use the mutex and the condition variable. -/
inductive Actor where
  | scheduler
  /-- The `t`-th thread spawned on this object. -/
  | worker (t : Nat)
  deriving DecidableEq

/-! ### Worker Threads -/

/-- Where a worker is in `counter_thread_fn`. -/
inductive WorkerPc where
  /-- Before `std::unique_lock lck( mtx )`. -/
  | start
  /-- Evaluating `not_paused` with the lock held. -/
  | check
  /-- Inside `cv.wait`, in the wait set or about to take the lock again. -/
  | asleep
  /-- `counter.core_id = core_id; counter.add( events )`. -/
  | add
  /-- Head of the warm-up loop, `j` calls made. -/
  | warmup (j : Nat)
  /-- Inside the `j`-th warm-up call, counted from 0. -/
  | in_warmup (j : Nat)
  /-- `counter.reset()`. -/
  | reset
  /-- Before the measured call. -/
  | measure
  /-- Inside the measured call. -/
  | in_measure
  /-- `counter.end()`. -/
  | end_
  /-- `ready = true`. -/
  | set_ready
  /-- `lck.unlock()`. -/
  | unlock
  /-- `cv.notify_one()`. -/
  | notify
  | done
  deriving DecidableEq

/-- The worker owns `mtx` there. -/
def WorkerPc.holdsLock : WorkerPc → Bool
  | .start | .asleep | .notify | .done => false
  | _ => true

/-- The worker is executing its benchmark. -/
def WorkerPc.inBenchmark : WorkerPc → Bool
  | .in_warmup _ | .in_measure => true
  | _ => false

/-- A worker thread: what its lambda captured, and where it is. -/
structure Worker (World Cnt Ev : Type) where
  /-- The call that spawned it. -/
  call : Nat
  /-- The loop index `i`: the thread works on `counters[i]`. -/
  idx : Nat
  /-- `svec[i]`. -/
  sched : Schedule World Cnt Ev
  warmup : Nat
  pc : WorkerPc
  /-- History: some `join()` on this thread has returned. -/
  joined : Bool

/-! ### The Scheduler Thread -/

/-- Where the scheduler is in a call; `i` is the loop index. -/
inductive CallPc where
  /-- Head of the loop over `svec`. -/
  | spawn (i : Nat)
  /-- `pin_to_core( .., svec[i].core_id )`. -/
  | pin (i : Nat)
  /-- `lock_guard lck( mtx )` before the release of the workers. -/
  | lock (i : Nat)
  /-- `pause = false` under the lock. -/
  | set_pause (i : Nat)
  /-- End of the `lock_guard` block. -/
  | unlock (i : Nat)
  /-- `cv.notify_all()`, or `cv.notify_one()` in the priority call. -/
  | notify (i : Nat)
  /-- `unique_lock lck( mtx )` before waiting for `ready`. -/
  | lock_ready (i : Nat)
  /-- Evaluating `wakeup` with the lock held. -/
  | check_ready (i : Nat)
  /-- Inside `cv.wait`, in the wait set or about to take the lock again. -/
  | asleep (i : Nat)
  /-- End of the `unique_lock` block. -/
  | unlock_ready (i : Nat)
  /-- `threads[k].join()`. -/
  | join (i k : Nat)
  /-- `threads.clear()`. -/
  | clear (i : Nat)
  /-- `counters[k].stats()`. -/
  | stats (k : Nat)
  /-- The final `ready = false`. -/
  | reset_ready
  /-- The final `pause = false`, and return. -/
  | reset_pause
  deriving DecidableEq

/-- The scheduler owns `mtx` there. -/
def CallPc.holdsLock : CallPc → Bool
  | .set_pause _ | .unlock _ | .check_ready _ | .unlock_ready _ => true
  | _ => false

/-- The scheduler thread. -/
inductive SchedPc (World Cnt Ev : Type) where
  /-- Between two calls. -/
  | idle
  | running (c : Call World Cnt Ev) (pc : CallPc)
  /-- Pinning or joining a `std::thread` that has no thread any more: the
      native handle is invalid, `join` throws. Nothing in the program
      handles it. -/
  | dead

/-! ### States -/

/-- The `CounterBenchmark` object and everything that runs on it. -/
structure State (World Cnt Ev : Type) where
  /-- `mtx` and `cv`. -/
  mon : Monitor Actor
  /-- The member `threads`: which thread each `std::thread` stands for, none
      once it is joined. -/
  threads : List (Option Nat)
  pause : Bool
  ready : Bool
  /-- All threads ever spawned, in order. -/
  workers : List (Worker World Cnt Ev)
  /-- The core each thread is pinned to, if any. -/
  affinity : Nat → Option Int
  /-- The local vector of the running call. -/
  counters : List Cnt
  world : World
  pc : SchedPc World Cnt Ev
  /-- The calls still to be made. -/
  todo : List (Call World Cnt Ev)
  /-- The vectors returned so far, one for each finished call. -/
  returned : List (List Cnt)
  /-- History: how many threads existed when the running call started. -/
  base : Nat
  /-- History: call number and entry of every benchmark call entered. -/
  log : List (Nat × Nat)

section
variable {World Cnt Ev : Type}

/-- The number of the running call, or of the next one. -/
def State.callNo (s : State World Cnt Ev) : Nat := s.returned.length

/-- Run `op` on `counters[i]`. -/
def applyAt (i : Nat) (op : Op World Cnt) (wc : World × List Cnt) : World × List Cnt :=
  match wc.2[i]? with
  | some c => ((op (wc.1, c)).1, wc.2.set i (op (wc.1, c)).2)
  | none => wc

def State.onCounter (s : State World Cnt Ev) (i : Nat) (op : Op World Cnt) :
    State World Cnt Ev :=
  { s with world := (applyAt i op (s.world, s.counters)).1
           counters := (applyAt i op (s.world, s.counters)).2 }

/-- The scheduler moves on inside the running call. -/
def State.goto (s : State World Cnt Ev) (c : Call World Cnt Ev) (pc : CallPc) :
    State World Cnt Ev :=
  { s with pc := .running c pc }

/-- Worker `t`, so far `w`, moves on. -/
def State.move (s : State World Cnt Ev) (t : Nat) (w : Worker World Cnt Ev) (pc : WorkerPc) :
    State World Cnt Ev :=
  { s with workers := s.workers.set t { w with pc := pc } }

/-- `counters[i].label = svec[i].label; threads.push_back( std::thread( .. ) )`. -/
def State.spawn (api : CounterApi World Cnt Ev) (s : State World Cnt Ev)
    (c : Call World Cnt Ev) (i : Nat) (sch : Schedule World Cnt Ev) : State World Cnt Ev :=
  { s with
    counters := s.counters.modify i (api.set_label sch.label)
    threads := s.threads ++ [some s.workers.length]
    workers := s.workers ++
      [{ call := s.callNo, idx := i, sched := sch, warmup := c.warmup
         pc := .start, joined := false }] }

/-- `pthread_setaffinity_np` on thread `t`. -/
def setAffinity (f : Nat → Option Int) (t : Nat) (core : Int) : Nat → Option Int :=
  fun u => if u = t then some core else f u

@[simp] theorem setAffinity_self (f : Nat → Option Int) (t : Nat) (core : Int) :
    setAffinity f t core t = some core := by
  simp [setAffinity]

@[simp] theorem setAffinity_ne (f : Nat → Option Int) (t u : Nat) (core : Int) (h : u ≠ t) :
    setAffinity f t core u = f u := by
  simp [setAffinity, h]

/-- The index that `pin_to_core` is given: `i`, or always 0. -/
def Call.pinIdx (c : Call World Cnt Ev) (i : Nat) : Nat :=
  match c.kind with
  | .schedule => i
  | .priority => 0

/-- After pinning, the next loop round or, in the priority call, the release. -/
def Call.afterPin (c : Call World Cnt Ev) (i : Nat) : CallPc :=
  match c.kind with
  | .schedule => .spawn (i + 1)
  | .priority => .lock i

/-- After the loop over `svec`. -/
def Call.afterLoop (c : Call World Cnt Ev) (i : Nat) : CallPc :=
  match c.kind with
  | .schedule => .lock i
  | .priority => .reset_ready

/-- After the loop over `threads`. -/
def Call.afterJoin (c : Call World Cnt Ev) (i : Nat) : CallPc :=
  match c.kind with
  | .schedule => .stats 0
  | .priority => .clear i

/-! ### Steps -/

/-- One step of worker `t`, line by line through `counter_thread_fn`. -/
inductive WorkerStep (api : CounterApi World Cnt Ev) (t : Nat) :
    State World Cnt Ev → State World Cnt Ev → Prop where
  | lock {s w} : s.workers[t]? = some w → w.pc = .start → s.mon.owner = none →
      WorkerStep api t s (({ s with mon := s.mon.acquire (.worker t) }).move t w .check)
  | check_true {s w} : s.workers[t]? = some w → w.pc = .check → s.pause = false →
      WorkerStep api t s (s.move t w .add)
  | check_false {s w} : s.workers[t]? = some w → w.pc = .check → s.pause = true →
      WorkerStep api t s (({ s with mon := s.mon.wait (.worker t) }).move t w .asleep)
  | relock {s w} : s.workers[t]? = some w → w.pc = .asleep →
      .worker t ∉ s.mon.waiting → s.mon.owner = none →
      WorkerStep api t s (({ s with mon := s.mon.acquire (.worker t) }).move t w .check)
  | add {s w} : s.workers[t]? = some w → w.pc = .add →
      WorkerStep api t s
        ((s.onCounter w.idx (fun wc =>
            api.add w.sched.events (wc.1, api.set_core_id w.sched.core_id wc.2))).move
          t w (.warmup 0))
  | warmup_call {s w j} : s.workers[t]? = some w → w.pc = .warmup j → j < w.warmup →
      WorkerStep api t s
        (({ s with log := s.log ++ [(w.call, w.idx)] }).move t w (.in_warmup j))
  | warmup_return {s w j} : s.workers[t]? = some w → w.pc = .in_warmup j →
      WorkerStep api t s ((s.onCounter w.idx w.sched.benchmark).move t w (.warmup (j + 1)))
  | warmup_end {s w j} : s.workers[t]? = some w → w.pc = .warmup j → w.warmup ≤ j →
      WorkerStep api t s (s.move t w .reset)
  | reset {s w} : s.workers[t]? = some w → w.pc = .reset →
      WorkerStep api t s ((s.onCounter w.idx api.reset).move t w .measure)
  | measure_call {s w} : s.workers[t]? = some w → w.pc = .measure →
      WorkerStep api t s (({ s with log := s.log ++ [(w.call, w.idx)] }).move t w .in_measure)
  | measure_return {s w} : s.workers[t]? = some w → w.pc = .in_measure →
      WorkerStep api t s ((s.onCounter w.idx w.sched.benchmark).move t w .end_)
  | end_ {s w} : s.workers[t]? = some w → w.pc = .end_ →
      WorkerStep api t s ((s.onCounter w.idx api.end_).move t w .set_ready)
  | set_ready {s w} : s.workers[t]? = some w → w.pc = .set_ready →
      WorkerStep api t s (({ s with ready := true }).move t w .unlock)
  | unlock {s w} : s.workers[t]? = some w → w.pc = .unlock →
      WorkerStep api t s (({ s with mon := s.mon.release }).move t w .notify)
  | notify {s w m} : s.workers[t]? = some w → w.pc = .notify → s.mon.NotifyOne m →
      WorkerStep api t s (({ s with mon := m }).move t w .done)

/-- One step of the scheduler, line by line through the two member functions. -/
inductive SchedulerStep (api : CounterApi World Cnt Ev) :
    State World Cnt Ev → State World Cnt Ev → Prop where
  | start_call {s c rest} : s.pc = .idle → s.todo = c :: rest →
      SchedulerStep api s
        (({ s with todo := rest
                   base := s.workers.length
                   counters := List.replicate c.svec.length api.make }).goto c (.spawn 0))
  | spawn {s c i sch} : s.pc = .running c (.spawn i) → c.svec[i]? = some sch →
      SchedulerStep api s ((s.spawn api c i sch).goto c (.pin i))
  | pin {s c i sch t} : s.pc = .running c (.pin i) → c.svec[i]? = some sch →
      s.threads[c.pinIdx i]? = some (some t) →
      SchedulerStep api s
        (({ s with affinity := setAffinity s.affinity t sch.core_id }).goto c (c.afterPin i))
  | pin_stale {s c i} : s.pc = .running c (.pin i) → s.threads[c.pinIdx i]? = some none →
      SchedulerStep api s { s with pc := .dead }
  | loop_end {s c i} : s.pc = .running c (.spawn i) → c.svec.length ≤ i →
      SchedulerStep api s (s.goto c (c.afterLoop i))
  | lock {s c i} : s.pc = .running c (.lock i) → s.mon.owner = none →
      SchedulerStep api s (({ s with mon := s.mon.acquire .scheduler }).goto c (.set_pause i))
  | set_pause {s c i} : s.pc = .running c (.set_pause i) →
      SchedulerStep api s (({ s with pause := false }).goto c (.unlock i))
  | unlock {s c i} : s.pc = .running c (.unlock i) →
      SchedulerStep api s (({ s with mon := s.mon.release }).goto c (.notify i))
  | notify_all {s c i} : s.pc = .running c (.notify i) → c.kind = .schedule →
      SchedulerStep api s (({ s with mon := s.mon.notifyAll }).goto c (.join i 0))
  | notify_one {s c i m} : s.pc = .running c (.notify i) → c.kind = .priority →
      s.mon.NotifyOne m →
      SchedulerStep api s (({ s with mon := m }).goto c (.lock_ready i))
  | lock_ready {s c i} : s.pc = .running c (.lock_ready i) → s.mon.owner = none →
      SchedulerStep api s (({ s with mon := s.mon.acquire .scheduler }).goto c (.check_ready i))
  | check_ready_true {s c i} : s.pc = .running c (.check_ready i) → s.ready = true →
      SchedulerStep api s (s.goto c (.unlock_ready i))
  | check_ready_false {s c i} : s.pc = .running c (.check_ready i) → s.ready = false →
      SchedulerStep api s (({ s with mon := s.mon.wait .scheduler }).goto c (.asleep i))
  | relock {s c i} : s.pc = .running c (.asleep i) → .scheduler ∉ s.mon.waiting →
      s.mon.owner = none →
      SchedulerStep api s (({ s with mon := s.mon.acquire .scheduler }).goto c (.check_ready i))
  | unlock_ready {s c i} : s.pc = .running c (.unlock_ready i) →
      SchedulerStep api s (({ s with mon := s.mon.release }).goto c (.join i 0))
  | join {s c i k t w} : s.pc = .running c (.join i k) → s.threads[k]? = some (some t) →
      s.workers[t]? = some w → w.pc = .done →
      SchedulerStep api s
        (({ s with threads := s.threads.set k none
                   workers := s.workers.set t { w with joined := true } }).goto
          c (.join i (k + 1)))
  | join_stale {s c i k} : s.pc = .running c (.join i k) → s.threads[k]? = some none →
      SchedulerStep api s { s with pc := .dead }
  | join_end {s c i k} : s.pc = .running c (.join i k) → s.threads.length ≤ k →
      SchedulerStep api s (s.goto c (c.afterJoin i))
  | clear {s c i} : s.pc = .running c (.clear i) →
      SchedulerStep api s (({ s with threads := [] }).goto c (.spawn (i + 1)))
  | stats {s c k} : s.pc = .running c (.stats k) → k < c.svec.length →
      SchedulerStep api s ((s.onCounter k api.stats).goto c (.stats (k + 1)))
  | stats_end {s c k} : s.pc = .running c (.stats k) → c.svec.length ≤ k →
      SchedulerStep api s (s.goto c .reset_ready)
  | reset_ready {s c} : s.pc = .running c .reset_ready →
      SchedulerStep api s (({ s with ready := false }).goto c .reset_pause)
  | reset_pause {s c} : s.pc = .running c .reset_pause →
      SchedulerStep api s
        { s with pause := false, pc := .idle, returned := s.returned ++ [s.counters] }

/-- Who takes the step. -/
inductive Action where
  | scheduler
  | worker (t : Nat)
  /-- `a` leaves the wait set without a notification. -/
  | spurious (a : Actor)
  deriving DecidableEq

inductive Step (api : CounterApi World Cnt Ev) :
    State World Cnt Ev → Action → State World Cnt Ev → Prop where
  | scheduler {s s'} : SchedulerStep api s s' → Step api s .scheduler s'
  | worker {s s' t} : WorkerStep api t s s' → Step api s (.worker t) s'
  | spurious {s a} : a ∈ s.mon.waiting → Step api s (.spurious a) { s with mon := s.mon.wake a }

/-- A freshly constructed `CounterBenchmark` with the given calls ahead. -/
def initial (calls : List (Call World Cnt Ev)) (world : World) : State World Cnt Ev where
  mon := Monitor.fresh
  threads := []
  pause := true
  ready := false
  workers := []
  affinity := fun _ => none
  counters := []
  world := world
  pc := .idle
  todo := calls
  returned := []
  base := 0
  log := []

/-- The harness as a labelled transition system. -/
def harness (api : CounterApi World Cnt Ev) (calls : List (Call World Cnt Ev)) (world : World) :
    System (State World Cnt Ev) Action where
  init := fun s => s = initial calls world
  step := Step api

end

/-! ### A Harness that Measures Nothing -/

def nullApi : CounterApi Unit Unit Unit where
  make := ()
  set_label _ _ := ()
  set_core_id _ _ := ()
  add _ := id
  reset := id
  end_ := id
  stats := id

/-- A benchmark that returns at once, to be run on the given core. -/
def nullSchedule (core : Int) : Schedule Unit Unit Unit where
  core_id := core
  benchmark := id
  events := ()
  label := ""

end Pcnt
