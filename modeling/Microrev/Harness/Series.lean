import Mathlib.Logic.Function.Iterate
import Microrev.Harness.Signals

/-! # Series Execution

    The abstract view of `counters_with_priority_schedule`: the schedules run
    one after the other, each on its own counter, as if `counter_thread_fn`
    were called in a loop. The threaded code refines this view in every
    interleaving, for every sequence of such calls, although `ready` and
    `pause` are never re-armed.
-/

namespace Pcnt

open Lts

section
variable {World Cnt Ev : Type} {api : CounterApi World Cnt Ev}
variable {s s' : State World Cnt Ev} {c : Call World Cnt Ev} {t : Nat}
variable {calls : List (Call World Cnt Ev)} {world : World}

/-! ### The Sequential Specification -/

/-- `counter.core_id = core_id; counter.add( events )`. -/
def addEvents (api : CounterApi World Cnt Ev) (sch : Schedule World Cnt Ev) : Op World Cnt :=
  fun wc => api.add sch.events (wc.1, api.set_core_id sch.core_id wc.2)

/-- `counter_thread_fn` as a plain function of the process and the counter. -/
def counter_thread_fn (api : CounterApi World Cnt Ev) (warmup : Nat)
    (sch : Schedule World Cnt Ev) : Op World Cnt := fun wc =>
  api.end_ (sch.benchmark (api.reset (sch.benchmark^[warmup] (addEvents api sch wc))))

/-- The counter a schedule starts from: fresh, with the schedule's label. -/
def freshCounter (api : CounterApi World Cnt Ev) (sch : Schedule World Cnt Ev) : Cnt :=
  api.set_label sch.label api.make

/-- The schedules in list order, each on a fresh counter. -/
def series (api : CounterApi World Cnt Ev) (warmup : Nat) :
    List (Schedule World Cnt Ev) → World → World × List Cnt
  | [], w => (w, [])
  | sch :: rest, w =>
    let r := counter_thread_fn api warmup sch (w, freshCounter api sch)
    let q := series api warmup rest r.1
    (q.1, r.2 :: q.2)

/-- Priority calls one after the other. -/
def seriesCalls (api : CounterApi World Cnt Ev) :
    List (Call World Cnt Ev) → World → World × List (List Cnt)
  | [], w => (w, [])
  | c :: rest, w =>
    let r := series api c.warmup c.svec w
    let q := seriesCalls api rest r.1
    (q.1, r.2 :: q.2)

/-- The benchmark calls of the first `i` entries of call number `no`:
    `warmup + 1` for each, in list order. -/
def entryLog (c : Call World Cnt Ev) (no i : Nat) : List (Nat × Nat) :=
  (List.range i).flatMap fun k => List.replicate (c.warmup + 1) (no, k)

/-- The benchmark calls of whole calls, numbered from `no`. -/
def callsLog : List (Call World Cnt Ev) → Nat → List (Nat × Nat)
  | [], _ => []
  | c :: rest, no => entryLog c no c.svec.length ++ callsLog rest (no + 1)

theorem series_snoc (warmup : Nat) (l : List (Schedule World Cnt Ev))
    (sch : Schedule World Cnt Ev) (w : World) :
    series api warmup (l ++ [sch]) w =
      let q := series api warmup l w
      let r := counter_thread_fn api warmup sch (q.1, freshCounter api sch)
      (r.1, q.2 ++ [r.2]) := by
  induction l generalizing w with
  | nil => rfl
  | cons a l ih => simp [series, ih]

theorem series_append (warmup : Nat) (l l' : List (Schedule World Cnt Ev)) (w : World) :
    (series api warmup (l ++ l') w).1 = (series api warmup l' (series api warmup l w).1).1 := by
  induction l generalizing w with
  | nil => rfl
  | cons a l ih => simp [series, ih]

theorem series_length (warmup : Nat) (l : List (Schedule World Cnt Ev)) (w : World) :
    (series api warmup l w).2.length = l.length := by
  induction l generalizing w with
  | nil => rfl
  | cons a l ih => simp [series, ih]

theorem seriesCalls_snoc (l : List (Call World Cnt Ev)) (c : Call World Cnt Ev) (w : World) :
    seriesCalls api (l ++ [c]) w =
      let q := seriesCalls api l w
      let r := series api c.warmup c.svec q.1
      (r.1, q.2 ++ [r.2]) := by
  induction l generalizing w with
  | nil => rfl
  | cons a l ih => simp [seriesCalls, ih]

theorem entryLog_succ (c : Call World Cnt Ev) (no i : Nat) :
    entryLog c no (i + 1) = entryLog c no i ++ List.replicate (c.warmup + 1) (no, i) := by
  simp [entryLog, List.range_succ]

theorem callsLog_snoc (l : List (Call World Cnt Ev)) (c : Call World Cnt Ev) (no : Nat) :
    callsLog (l ++ [c]) no = callsLog l no ++ entryLog c (no + l.length) c.svec.length := by
  induction l generalizing no with
  | nil => simp [callsLog]
  | cons a l ih => simp [callsLog, ih, Nat.add_assoc, Nat.add_comm 1]

/-! ### A Worker in the Middle of its Work -/

/-- What the worker has done to its counter so far. -/
def WorkerPc.progress (api : CounterApi World Cnt Ev) (warmup : Nat)
    (sch : Schedule World Cnt Ev) : WorkerPc → Op World Cnt
  | .start | .check | .asleep | .add => id
  | .warmup j | .in_warmup j => fun wc => sch.benchmark^[j] (addEvents api sch wc)
  | .reset => fun wc => sch.benchmark^[warmup] (addEvents api sch wc)
  | .measure | .in_measure => fun wc =>
    api.reset (sch.benchmark^[warmup] (addEvents api sch wc))
  | .end_ => fun wc =>
    sch.benchmark (api.reset (sch.benchmark^[warmup] (addEvents api sch wc)))
  | .set_ready | .unlock | .notify | .done => counter_thread_fn api warmup sch

/-- How many benchmark calls the worker has entered so far. -/
def WorkerPc.entered (warmup : Nat) : WorkerPc → Nat
  | .start | .check | .asleep | .add => 0
  | .warmup j => j
  | .in_warmup j => j + 1
  | .reset | .measure => warmup
  | .in_measure | .end_ | .set_ready | .unlock | .notify | .done => warmup + 1

/-- The bounds of the warm-up loop. -/
def WorkerPc.inLoop (warmup : Nat) : WorkerPc → Prop
  | .warmup j => j ≤ warmup
  | .in_warmup j => j < warmup
  | _ => True

theorem WorkerPc.entered_le {warmup : Nat} {pc : WorkerPc} (h : pc.inLoop warmup) :
    pc.entered warmup ≤ warmup + 1 := by
  cases pc <;> simp_all [WorkerPc.entered, WorkerPc.inLoop] <;> omega

@[simp] theorem applyAt_id (i : Nat) (wc : World × List Cnt) :
    applyAt i (fun p => p) wc = wc := by
  unfold applyAt
  split
  · next c hc =>
    obtain ⟨hlt, rfl⟩ := List.getElem?_eq_some_iff.mp hc
    simp
  · rfl

/-- Running an operation on the counter that stands between `csi` and `rest`. -/
theorem applyAt_middle (op : Op World Cnt) (w : World) (csi rest : List Cnt) (cnt : Cnt) :
    applyAt csi.length op (w, csi ++ cnt :: rest) =
      ((op (w, cnt)).1, csi ++ (op (w, cnt)).2 :: rest) := by
  simp [applyAt]

theorem modify_middle (f : Cnt → Cnt) (csi rest : List Cnt) (cnt : Cnt) :
    (csi ++ cnt :: rest).modify csi.length f = csi ++ f cnt :: rest := by
  induction csi with
  | nil => rfl
  | cons a csi ih => simp [ih]

/-- What a worker step does to the counters, to the rest of the process and
    to the log, in terms of the progress made: it moves from `pc` to `pc'`. -/
structure Progress (api : CounterApi World Cnt Ev) (w : Worker World Cnt Ev) (pc' : WorkerPc)
    (s s' : State World Cnt Ev) (op : Op World Cnt) : Prop where
  inLoop : pc'.inLoop w.warmup
  advance : ∀ wc, pc'.progress api w.warmup w.sched wc =
    op (w.pc.progress api w.warmup w.sched wc)
  effect : (s'.world, s'.counters) = applyAt w.idx op (s.world, s.counters)
  entered_le : w.pc.entered w.warmup ≤ pc'.entered w.warmup
  log : s'.log = s.log ++
    List.replicate (pc'.entered w.warmup - w.pc.entered w.warmup) (w.call, w.idx)

theorem WorkerStep.progress (h : WorkerStep api t s s') :
    ∃ w pc', s.workers[t]? = some w ∧ w.pc ≠ .done ∧
      s'.workers = s.workers.set t { w with pc := pc' } ∧
      (w.pc.inLoop w.warmup → ∃ op, Progress api w pc' s s' op) := by
  cases h with
  -- no work: the operation on the counter is the identity
  | @lock w hw hp _ | @check_true w hw hp _ | @check_false w hw hp _ | @relock w hw hp _ _
  | @set_ready w hw hp | @unlock w hw hp | @notify w _ hw hp _ =>
    refine ⟨w, _, hw, by simp [hp], rfl, fun _ => ⟨fun p => p, ?_, ?_, ?_, ?_, ?_⟩⟩
    all_goals simp [hp, State.move, WorkerPc.inLoop, WorkerPc.progress, WorkerPc.entered]
  -- entering a call is logged, what it does shows when it returns
  | @warmup_call w j hw hp hlt =>
    refine ⟨w, _, hw, by simp [hp], rfl, fun _ => ⟨fun p => p, ?_, ?_, ?_, ?_, ?_⟩⟩
    all_goals simp [hp, hlt, State.move, WorkerPc.inLoop, WorkerPc.progress, WorkerPc.entered]
  | @measure_call w hw hp =>
    refine ⟨w, _, hw, by simp [hp], rfl, fun _ => ⟨fun p => p, ?_, ?_, ?_, ?_, ?_⟩⟩
    all_goals simp [hp, State.move, WorkerPc.inLoop, WorkerPc.progress, WorkerPc.entered]
  | @warmup_end w j hw hp hle =>
    refine ⟨w, _, hw, by simp [hp], rfl, fun hin => ⟨fun p => p, ?_⟩⟩
    -- the loop invariant pins down the number of warm-up calls
    have hj : j = w.warmup := by
      simp only [hp, WorkerPc.inLoop] at hin
      omega
    subst hj
    refine ⟨?_, ?_, ?_, ?_, ?_⟩
    all_goals simp [hp, State.move, WorkerPc.inLoop, WorkerPc.progress, WorkerPc.entered]
  -- from here on the steps apply the next operation of `counter_thread_fn`
  | @add w hw hp =>
    refine ⟨w, _, hw, by simp [hp], rfl, fun _ => ⟨addEvents api w.sched, ?_, ?_, rfl, ?_, ?_⟩⟩
    all_goals simp [hp, State.move, State.onCounter, WorkerPc.inLoop, WorkerPc.progress,
      WorkerPc.entered]
  | @warmup_return w j hw hp =>
    refine ⟨w, _, hw, by simp [hp], rfl, fun hin => ⟨w.sched.benchmark, ?_, ?_, rfl, ?_, ?_⟩⟩
    · simp only [hp, WorkerPc.inLoop] at hin ⊢
      omega
    · simp [hp, WorkerPc.progress, Function.iterate_succ_apply']
    all_goals simp [hp, State.move, State.onCounter, WorkerPc.entered]
  | @reset w hw hp =>
    refine ⟨w, _, hw, by simp [hp], rfl, fun _ => ⟨api.reset, ?_, ?_, rfl, ?_, ?_⟩⟩
    all_goals simp [hp, State.move, State.onCounter, WorkerPc.inLoop, WorkerPc.progress,
      WorkerPc.entered]
  | @measure_return w hw hp =>
    refine ⟨w, _, hw, by simp [hp], rfl, fun _ => ⟨w.sched.benchmark, ?_, ?_, rfl, ?_, ?_⟩⟩
    all_goals simp [hp, State.move, State.onCounter, WorkerPc.inLoop, WorkerPc.progress,
      WorkerPc.entered]
  | @end_ w hw hp =>
    refine ⟨w, _, hw, by simp [hp], rfl, fun _ => ⟨api.end_, ?_, ?_, rfl, ?_, ?_⟩⟩
    all_goals simp [hp, State.move, State.onCounter, WorkerPc.inLoop, WorkerPc.progress,
      WorkerPc.entered, counter_thread_fn]

/-! ### The Invariant -/

theorem seriesCalls_length (api : CounterApi World Cnt Ev) (l : List (Call World Cnt Ev))
    (w : World) : (seriesCalls api l w).2.length = l.length := by
  induction l generalizing w with
  | nil => rfl
  | cons a l ih => simp [seriesCalls, ih]

/-- In the middle of a priority call that started in the process `w1` and
    with the log `before`: the first `i` entries are behind us, and if entry
    `i` has a thread, everything else that happened is the progress of that
    thread on its own counter. -/
structure Round (api : CounterApi World Cnt Ev) (c : Call World Cnt Ev) (w1 : World)
    (before : List (Nat × Nat)) (p : Profile) (s : State World Cnt Ev) : Prop where
  quiet : p.born = p.first →
    s.world = (series api c.warmup (c.svec.take p.first) w1).1 ∧
    s.counters = (series api c.warmup (c.svec.take p.first) w1).2 ++
      List.replicate (c.svec.length - p.first) api.make ∧
    s.log = before ++ entryLog c s.callNo p.first
  live : p.born = p.first + 1 → ∀ w, s.workers[s.base + p.first]? = some w →
    let q := series api c.warmup (c.svec.take p.first) w1
    let r := w.pc.progress api w.warmup w.sched (q.1, freshCounter api w.sched)
    w.pc.inLoop w.warmup ∧ s.world = r.1 ∧
    s.counters = q.2 ++ r.2 :: List.replicate (c.svec.length - p.first - 1) api.make ∧
    s.log = before ++ entryLog c s.callNo p.first ++
      List.replicate (w.pc.entered w.warmup) (s.callNo, p.first)

/-- The threaded run is where the sequential one is. -/
structure SeriesInv (api : CounterApi World Cnt Ev) (calls : List (Call World Cnt Ev))
    (world : World) (s : State World Cnt Ev) : Prop where
  idle : s.pc = .idle → ∃ past, calls = past ++ s.todo ∧
    seriesCalls api past world = (s.world, s.returned) ∧ s.log = callsLog past 0
  running : ∀ c pc, s.pc = .running c pc → ∃ past w1, calls = past ++ c :: s.todo ∧
    seriesCalls api past world = (w1, s.returned) ∧
    Round api c w1 (callsLog past 0) (c.profile pc) s

theorem series_inv_initial : SeriesInv api calls world (initial calls world) where
  idle _ := ⟨[], rfl, rfl, rfl⟩
  running := by simp [initial]

/-- In a priority call at most one thread is not joined. -/
theorem priorityProfile_cases {n : Nat} {pc : CallPc} (h : priorityPc n pc) :
    let p := priorityProfile n pc
    (p.born = p.first ∧ p.joined = p.first ∧ p.first ≤ n) ∨
      (p.born = p.first + 1 ∧ p.first ≤ p.joined ∧ p.first < n) := by
  cases pc <;> simp_all [priorityPc, priorityProfile]

theorem series_take_length (api : CounterApi World Cnt Ev) {i : Nat} (h : i ≤ c.svec.length)
    (w : World) : (series api c.warmup (c.svec.take i) w).2.length = i := by
  rw [series_length, List.length_take, Nat.min_eq_left h]

theorem series_inv_worker (hprio : ∀ c ∈ calls, c.kind = .priority) (hthr : ThreadInv s)
    (hinv : SeriesInv api calls world s) (h : WorkerStep api t s s') :
    SeriesInv api calls world s' := by
  obtain ⟨-, -, -, -, hpc, -, -, htodo, hret, hbase, -⟩ := h.frame
  obtain ⟨w, pc', hw, hnd, hs, hprog⟩ := h.progress
  refine ⟨fun hidle => ?_, fun c pc hrun => ?_⟩
  -- between two calls all threads are joined and done
  · exact absurd (hthr.joined_done t w hw ((hthr.idle (hpc ▸ hidle)).1 t w hw)) hnd
  rw [hpc] at hrun
  obtain ⟨past, w1, hcalls, hseries, hround⟩ := hinv.running c pc hrun
  refine ⟨past, w1, by rw [htodo]; exact hcalls, by rw [hret]; exact hseries, ?_⟩
  have hk : c.kind = .priority := hprio c (by simp [hcalls])
  obtain ⟨hcrew, hok, -⟩ := hthr.running c pc hrun
  have ht := hthr.undone hrun hw hnd
  simp only [Call.profile, Call.pcOk, hk] at hcrew hok ht hround ⊢
  generalize hp : priorityProfile c.svec.length pc = p at hcrew ht hround ⊢
  rcases hp ▸ priorityProfile_cases hok with ⟨hborn, hjoined, -⟩ | ⟨hborn, hjoined, hi⟩
  · -- all threads are joined: nobody could have moved
    omega
  · obtain rfl : t = s.base + p.first := by omega
    -- the thread that moved is the one of entry `p.first`
    obtain ⟨w', hw', hcall, hidx, -, -, -⟩ := hcrew.mine p.first (by omega)
    obtain rfl := Option.some.inj (hw.symm.trans hw')
    obtain ⟨hin, hworld, hcnt, hlog⟩ := hround.live hborn w hw
    obtain ⟨op, hin', hadv, heff, hle, hlog'⟩ := hprog hin
    refine ⟨fun hb => by omega, ?_⟩
    intro _ v hv
    rw [hbase, hs, getElem?_moved hw, if_pos rfl] at hv
    obtain rfl := Option.some.inj hv
    have hlen := series_take_length api hi.le w1
    -- its operation acts on the counter behind the finished ones
    have happ := applyAt_middle op s.world
      (series api c.warmup (c.svec.take p.first) w1).2
      (List.replicate (c.svec.length - p.first - 1) api.make)
      (w.pc.progress api w.warmup w.sched
        ((series api c.warmup (c.svec.take p.first) w1).1, freshCounter api w.sched)).2
    rw [hlen, ← hcnt, hworld, Prod.mk.eta, ← hadv] at happ
    rw [hidx, hworld, happ] at heff
    obtain ⟨hworld', hcnt'⟩ := Prod.mk.inj heff
    refine ⟨hin', hworld', hcnt', ?_⟩
    rw [hlog', hlog, hidx, hcall, State.callNo, State.callNo, hret, List.append_assoc,
      List.replicate_append_replicate, Nat.add_sub_cancel' hle]

/-- A scheduler step that leaves the counters, the process, the log and the
    threads alone, up to the history of joins. -/
theorem Round.same {w1 : World} {before : List (Nat × Nat)} {p p' : Profile}
    (h : Round api c w1 before p s) (hfirst : p'.first = p.first) (hborn : p'.born = p.born)
    (hworld : s'.world = s.world) (hcnt : s'.counters = s.counters) (hlog : s'.log = s.log)
    (hret : s'.returned = s.returned) (hbase : s'.base = s.base)
    (hw : ∀ (u : Nat) (v : Worker World Cnt Ev), s'.workers[u]? = some v →
      ∃ v', s.workers[u]? = some v' ∧ v'.pc = v.pc ∧ v'.sched = v.sched ∧
        v'.warmup = v.warmup) : Round api c w1 before p' s' where
  quiet := by
    rw [hborn, hfirst, hworld, hcnt, hlog, State.callNo, hret]
    exact h.quiet
  live := by
    rw [hborn, hfirst, hworld, hcnt, hlog, State.callNo, hret, hbase]
    intro hb v hv
    obtain ⟨v', hv', hpc, hsch, hwarm⟩ := hw _ v hv
    have := h.live hb v' hv'
    rw [hpc, hsch, hwarm] at this
    exact this

theorem SeriesInv.same {pc pc' : CallPc} (hinv : SeriesInv api calls world s)
    (hp : s.pc = .running c pc) (hp' : s'.pc = .running c pc')
    (htodo : s'.todo = s.todo) (hret : s'.returned = s.returned)
    (hround : ∀ past w1, calls = past ++ c :: s.todo → s.returned.length = past.length →
      Round api c w1 (callsLog past 0) (c.profile pc) s →
      Round api c w1 (callsLog past 0) (c.profile pc') s') :
    SeriesInv api calls world s' where
  idle := by simp [hp']
  running := by
    intro d pcd hrun
    rw [hp'] at hrun
    obtain ⟨rfl, rfl⟩ := SchedPc.running.inj hrun
    obtain ⟨past, w1, hcalls, hseries, hr⟩ := hinv.running _ _ hp
    have hlen : s.returned.length = past.length := by
      rw [← seriesCalls_length api past world, hseries]
    rw [htodo, hret]
    exact ⟨past, w1, hcalls, hseries, hround past w1 hcalls hlen hr⟩

/-- A scheduler step of a priority call that leaves counters, process and log
    alone and does not change which entries have a thread. -/
theorem SeriesInv.stay {pc pc' : CallPc} (hprio : ∀ c ∈ calls, c.kind = .priority)
    (hthr : ThreadInv s) (hinv : SeriesInv api calls world s)
    (hp : s.pc = .running c pc) (hp' : s'.pc = .running c pc')
    (htodo : s'.todo = s.todo) (hret : s'.returned = s.returned) (hworld : s'.world = s.world)
    (hcnt : s'.counters = s.counters) (hlog : s'.log = s.log) (hbase : s'.base = s.base)
    (hw : s'.workers = s.workers)
    (hsame : priorityPc c.svec.length pc →
      (priorityProfile c.svec.length pc').first = (priorityProfile c.svec.length pc).first ∧
      (priorityProfile c.svec.length pc').born = (priorityProfile c.svec.length pc).born) :
    SeriesInv api calls world s' := by
  apply hinv.same hp hp' htodo hret
  intro past w1 hcalls _ hround
  have hk : c.kind = .priority := hprio c (by simp [hcalls])
  obtain ⟨-, hok, -⟩ := hthr.running c pc hp
  simp only [Call.profile, Call.pcOk, hk] at hok hround ⊢
  exact hround.same (hsame hok).1 (hsame hok).2 hworld hcnt hlog hret hbase
    fun u v hv => ⟨v, hw ▸ hv, rfl, rfl, rfl⟩

theorem series_inv_scheduler (hprio : ∀ c ∈ calls, c.kind = .priority) (hthr : ThreadInv s)
    (hinv : SeriesInv api calls world s) (h : SchedulerStep api s s') :
    SeriesInv api calls world s' := by
  have hpriority : ∀ c pc, s.pc = .running c pc → c.kind = .priority := by
    intro c pc hp
    obtain ⟨past, w1, hcalls, -⟩ := hinv.running c pc hp
    exact hprio c (by simp [hcalls])
  cases h with
  | @start_call c rest hp htodo =>
    obtain ⟨past, hcalls, hseries, hlog⟩ := hinv.idle hp
    have hk : c.kind = .priority := hprio c (by simp [hcalls, htodo])
    refine ⟨by simp [State.goto], ?_⟩
    intro d pcd hrun
    obtain ⟨rfl, rfl⟩ := SchedPc.running.inj hrun
    refine ⟨past, s.world, by rw [hcalls, htodo]; rfl, hseries, ⟨?_, ?_⟩⟩
    · intro _
      simp [Call.profile, priorityProfile, hk, series, State.goto, hlog, entryLog]
    · simp [Call.profile, priorityProfile, hk]
  | @spawn c i sch hp hsch =>
    -- a thread that has just been spawned has made no progress
    have hk := hpriority c _ hp
    obtain ⟨hcrew, -⟩ := hthr.running c _ hp
    refine hinv.same hp rfl rfl rfl ?_
    intro past w1 _ _ hround
    obtain ⟨hlt, rfl⟩ := List.getElem?_eq_some_iff.mp hsch
    simp only [Call.profile, priorityProfile, hk] at hcrew hround ⊢
    obtain ⟨hworld, hcnt, hlog⟩ := hround.quiet rfl
    have hlen := series_take_length api hlt.le w1
    have hwk : s.base + i = s.workers.length := hcrew.length.symm
    refine ⟨by simp, ?_⟩
    intro _ w hw
    simp only [State.goto, State.spawn, hwk, List.getElem?_concat_length] at hw
    obtain rfl := Option.some.inj hw
    refine ⟨trivial, hworld, ?_, ?_⟩
    · have hmod := modify_middle (api.set_label c.svec[i].label)
        (series api c.warmup (c.svec.take i) w1).2
        (List.replicate (c.svec.length - i - 1) api.make) api.make
      rw [hlen, ← List.replicate_succ, show c.svec.length - i - 1 + 1 = c.svec.length - i by omega,
        ← hcnt] at hmod
      exact hmod
    · simpa [State.goto, State.spawn, WorkerPc.entered, State.callNo] using hlog
  | @join c i k t w hp ht hw hd =>
    -- `join` changes the history of joins only
    have hk := hpriority c _ hp
    refine hinv.same hp rfl rfl rfl ?_
    intro past w1 _ _ hround
    simp only [Call.profile, priorityProfile, hk] at hround ⊢
    refine hround.same rfl rfl rfl rfl rfl rfl rfl ?_
    intro u v hv
    simp only [State.goto, getElem?_moved hw] at hv
    split at hv
    · next hu =>
      obtain rfl := Option.some.inj hv
      exact ⟨w, hu ▸ hw, rfl, rfl, rfl⟩
    · exact ⟨v, hv, rfl, rfl, rfl⟩
  | @clear c i hp =>
    -- the thread is done, so its progress is the whole `counter_thread_fn`
    have hk := hpriority c _ hp
    obtain ⟨hcrew, hok, -⟩ := hthr.running c _ hp
    refine hinv.same hp rfl rfl rfl ?_
    intro past w1 _ _ hround
    simp only [Call.profile, Call.pcOk, priorityPc, priorityProfile, hk] at hcrew hok hround ⊢
    obtain ⟨w, hw, -, -, hsch, hwarm, hj⟩ := hcrew.mine i (Nat.lt_succ_self i)
    have hd : w.pc = .done := hthr.joined_done _ w hw (by simp [hj])
    obtain ⟨hlt, heq⟩ := List.getElem?_eq_some_iff.mp hsch
    have htake : c.svec.take (i + 1) = c.svec.take i ++ [w.sched] := by
      rw [List.take_succ_eq_append_getElem hlt, heq]
    obtain ⟨-, hworld, hcnt, hlog⟩ := hround.live rfl w hw
    simp only [hd, WorkerPc.progress, WorkerPc.entered, hwarm] at hworld hcnt hlog
    refine ⟨?_, by simp⟩
    intro _
    rw [htake, series_snoc]
    refine ⟨hworld, ?_, ?_⟩
    · simpa [State.goto, Nat.sub_sub] using hcnt
    · simpa [State.goto, State.callNo, entryLog_succ] using hlog
  | @reset_pause c hp =>
    obtain ⟨past, w1, hcalls, hseries, hround⟩ := hinv.running c _ hp
    have hk := hpriority c _ hp
    simp only [Call.profile, priorityProfile, hk] at hround
    obtain ⟨hworld, hcnt, hlog⟩ := hround.quiet rfl
    have hlen : s.returned.length = past.length := by
      rw [← seriesCalls_length api past world, hseries]
    rw [List.take_length] at hworld hcnt
    refine ⟨fun _ => ⟨past ++ [c], by simp [hcalls], ?_, ?_⟩, by simp⟩
    · rw [seriesCalls_snoc, hseries]
      simp [hworld, hcnt]
    · rw [callsLog_snoc, hlog]
      simp [State.callNo, hlen]
  | @stats c k hp _ | @stats_end c k hp _ =>
    have hk := hpriority c _ hp
    obtain ⟨-, hok, -⟩ := hthr.running c _ hp
    simp [Call.pcOk, priorityPc, hk] at hok
  | @notify_all c i hp hk =>
    have := hpriority c _ hp
    simp [hk] at this
  | @pin_stale c i hp _ | @join_stale c i k hp _ =>
    exact ⟨by simp, by simp⟩
  | @pin c i sch t hp _ _ =>
    have hk := hpriority c _ hp
    exact hinv.stay hprio hthr hp rfl rfl rfl rfl rfl rfl rfl rfl
      (by simp [Call.afterPin, hk, priorityProfile])
  | @loop_end c i hp hi =>
    have hk := hpriority c _ hp
    refine hinv.stay hprio hthr hp rfl rfl rfl rfl rfl rfl rfl rfl ?_
    simp only [Call.afterLoop, hk, priorityProfile, priorityPc]
    omega
  | @join_end c i k hp _ =>
    have hk := hpriority c _ hp
    exact hinv.stay hprio hthr hp rfl rfl rfl rfl rfl rfl rfl rfl
      (by simp [Call.afterJoin, hk, priorityProfile])
  | @lock c i hp _ | @set_pause c i hp | @unlock c i hp | @notify_one c i _ hp _ _
  | @lock_ready c i hp _ | @check_ready_true c i hp _ | @check_ready_false c i hp _
  | @relock c i hp _ _ | @unlock_ready c i hp | @reset_ready c hp =>
    exact hinv.stay hprio hthr hp rfl rfl rfl rfl rfl rfl rfl rfl (by simp [priorityProfile])

theorem series_inv (hprio : ∀ c ∈ calls, c.kind = .priority)
    (h : Reachable (harness api calls world) s) : SeriesInv api calls world s := by
  refine h.invariant_of (fun s hr => thread_inv (reusable_of_priority hprio) hr)
    (fun s h0 => h0 ▸ series_inv_initial) ?_
  intro s a s' hthr hinv hstep
  cases hstep with
  | scheduler h => exact series_inv_scheduler hprio hthr hinv h
  | worker h => exact series_inv_worker hprio hthr hinv h
  | spurious _ =>
    refine ⟨hinv.idle, ?_⟩
    intro c pc hp
    obtain ⟨past, w1, hcalls, hseries, hround⟩ := hinv.running c pc hp
    exact ⟨past, w1, hcalls, hseries, hround.same rfl rfl rfl rfl rfl rfl rfl
      fun u v hv => ⟨v, hv, rfl, rfl, rfl⟩⟩

/-- Between two calls the process and the vectors are those of the
    sequential specification. -/
theorem series_returned (hprio : ∀ c ∈ calls, c.kind = .priority)
    (h : Reachable (harness api calls world) s) (hidle : s.pc = .idle) :
    ∃ past, calls = past ++ s.todo ∧ seriesCalls api past world = (s.world, s.returned) := by
  obtain ⟨past, hcalls, hseries, -⟩ := (series_inv hprio h).idle hidle
  exact ⟨past, hcalls, hseries⟩

/-- A single call that has returned. -/
theorem series_called (hk : c.kind = .priority) (h : Reachable (harness api [c] world) s)
    (hidle : s.pc = .idle) (htodo : s.todo = []) :
    (series api c.warmup c.svec world).1 = s.world ∧
      s.returned = [(series api c.warmup c.svec world).2] := by
  obtain ⟨past, hpast, hseries⟩ := series_returned (by simpa using hk) h hidle
  rw [htodo, List.append_nil] at hpast
  rw [← hpast, seriesCalls] at hseries
  obtain ⟨hworld, hreturned⟩ := Prod.mk.inj hseries
  exact ⟨hworld, hreturned.symm⟩

/-- A single call can return. -/
theorem series_returns (api : CounterApi World Cnt Ev) (hk : c.kind = .priority) (world : World) :
    ∃ s, Reachable (harness api [c] world) s ∧ s.pc = .idle ∧ s.todo = [] ∧
      s.returned = [(series api c.warmup c.svec world).2] := by
  have hcan : CanReach (harness api [c] world) (initial [c] world)
      fun s => s.pc = .idle ∧ s.todo = [] := can_finish (List.pairwise_singleton _ _)
  obtain ⟨s, hs, hidle, htodo⟩ := (Reachable.init rfl).can hcan
  exact ⟨s, hs, hidle, htodo, (series_called hk hs hidle htodo).2⟩

/-- While a thread is inside its measured call, the process is as the finished
    calls, the entries in front of its own and its own warm-up have left it. -/
theorem series_measuring {w : Worker World Cnt Ev} (hprio : ∀ c ∈ calls, c.kind = .priority)
    (h : Reachable (harness api calls world) s) (hw : s.workers[t]? = some w)
    (hpc : w.pc = .in_measure) :
    ∃ past c, calls = past ++ c :: s.todo ∧ c.svec[w.idx]? = some w.sched ∧
      let w1 := (seriesCalls api past world).1
      let q := series api c.warmup (c.svec.take w.idx) w1
      s.world = (api.reset (w.sched.benchmark^[c.warmup]
        (addEvents api w.sched (q.1, freshCounter api w.sched)))).1 := by
  have hthr := thread_inv (reusable_of_priority hprio) h
  have hinv := series_inv hprio h
  have hnd : w.pc ≠ .done := by simp [hpc]
  cases hp : s.pc with
  | dead => exact absurd hp hthr.alive
  | idle => exact absurd (hthr.joined_done t w hw ((hthr.idle hp).1 t w hw)) hnd
  | running c pc =>
    obtain ⟨past, w1, hcalls, hseries, hround⟩ := hinv.running c pc hp
    have hk : c.kind = .priority := hprio c (by simp [hcalls])
    obtain ⟨hcrew, hok, -⟩ := hthr.running c pc hp
    have ht := hthr.undone hp hw hnd
    simp only [Call.profile, Call.pcOk, hk] at hcrew hok ht hround
    generalize hprof : priorityProfile c.svec.length pc = p at hcrew ht hround
    rcases hprof ▸ priorityProfile_cases hok with ⟨hborn, hjoined, -⟩ | ⟨hborn, hjoined, -⟩
    · omega
    · -- only the thread of entry `p.first` is not joined
      obtain rfl : t = s.base + p.first := by omega
      obtain ⟨w', hw', -, hidx, hsch, hwarm, -⟩ := hcrew.mine p.first (by omega)
      obtain rfl := Option.some.inj (hw.symm.trans hw')
      obtain ⟨-, hworld, -⟩ := hround.live hborn w hw
      refine ⟨past, c, hcalls, by rw [hidx]; exact hsch, ?_⟩
      rw [hidx, hseries, hworld, hpc, ← hwarm]
      rfl

/-- **Every entry gets its turn**: some run of a priority call comes to the
    measured call of entry `i`. -/
theorem reaches_measure (hk : c.kind = .priority) {i : Nat} (hi : i < c.svec.length)
    (world : World) :
    ∃ s, Reachable (harness api [c] world) s ∧ ∃ (u : Nat) (v : Worker World Cnt Ev),
      s.workers[u]? = some v ∧ v.pc = .in_measure ∧ v.idx = i := by
  have hrest : AtRest [] [c] (initial [c] world) := ⟨rfl, rfl, rfl, rfl⟩
  have hcan : CanReach (harness api [c] world) (initial [c] world) fun s =>
      s.pc = .running c (.lock_ready i) ∧ ∃ (u : Nat) (v : Worker World Cnt Ev),
        s.workers[u]? = some v ∧ v.pc = .in_measure := by
    refine hrest.enters.bind fun s1 h1 => ?_
    refine (CanReach.loop (InRound c []) (fun j s hj h => h.next hk (hj.trans hi))
      (Nat.zero_le i) h1).bind fun s2 h2 => ?_
    refine (h2.released hk hi).bind fun s3 ⟨t, h3⟩ => ?_
    obtain ⟨w, hw, hp⟩ := h3.start
    refine (enters_benchmark hw hp h3.pause h3.mon).bind fun s4 h4 => ?_
    exact .here ⟨h4.sched.trans h3.pc, t, _, h4.get, rfl⟩
  obtain ⟨s, hs, hpc, u, v, hv, hm⟩ := (Reachable.init rfl).can hcan
  refine ⟨s, hs, u, v, hv, hm, ?_⟩
  -- the only thread that is not joined belongs to entry i
  have hthr := thread_inv (reusable_of_priority (by simpa using hk)) hs
  obtain ⟨hcrew, -, -⟩ := hthr.running c _ hpc
  have hu := hthr.undone hpc hv (by simp [hm])
  simp only [Call.profile, priorityProfile, hk] at hcrew hu
  obtain rfl : u = s.base + i := by omega
  obtain ⟨v', hv', -, hidx, -⟩ := hcrew.mine i (Nat.lt_succ_self i)
  obtain rfl := Option.some.inj (hv.symm.trans hv')
  exact hidx

/-! ### Series Execution -/

theorem entryLog_append (c : Call World Cnt Ev) (no i j : Nat) :
    entryLog c no i <+: entryLog c no (i + j) := by
  induction j with
  | zero => exact List.prefix_refl _
  | succ j ih =>
    rw [← Nat.add_assoc, entryLog_succ]
    exact ih.trans (List.prefix_append _ _)

/-- The calls made so far on entry `i` complete the log up to there. -/
theorem entryLog_partial {no i k : Nat} (hi : i < c.svec.length) (hk : k ≤ c.warmup + 1) :
    entryLog c no i ++ List.replicate k (no, i) <+: entryLog c no c.svec.length := by
  obtain ⟨j, hj⟩ := Nat.exists_eq_add_of_le (Nat.succ_le_of_lt hi)
  have hrep : List.replicate k (no, i) <+: List.replicate (c.warmup + 1) (no, i) := by
    obtain ⟨m, hm⟩ := Nat.exists_eq_add_of_le hk
    exact ⟨List.replicate m (no, i), by rw [List.replicate_append_replicate, ← hm]⟩
  have hstep : entryLog c no i ++ List.replicate k (no, i) <+: entryLog c no (i + 1) := by
    rw [entryLog_succ]
    exact (List.prefix_append_right_inj _).mpr hrep
  rw [hj]
  exact hstep.trans (entryLog_append c no (i + 1) j)

/-- Series execution, as far as a run has come. -/
structure SeriesExecution (api : CounterApi World Cnt Ev) (calls : List (Call World Cnt Ev))
    (world : World) (s : State World Cnt Ev) : Prop where
  /-- No two workers are inside a benchmark at the same time. -/
  one_at_a_time : ∀ t u, s.inBenchmark t → s.inBenchmark u → t = u
  /-- The log has the benchmark calls of the finished calls, each entry
      `warmup + 1` times and in list order, and then the beginning of those
      of the running call. -/
  in_order : ∀ c pc, s.pc = .running c pc →
    ∃ past part, calls = past ++ c :: s.todo ∧ past.length = s.callNo ∧
      s.log = callsLog past 0 ++ part ∧ part <+: entryLog c s.callNo c.svec.length
  /-- The benchmark that is executing is the one logged last: entry `idx` of
      the running call. -/
  logged : ∀ (t : Nat) (w : Worker World Cnt Ev), s.workers[t]? = some w →
    w.pc.inBenchmark = true → s.log.getLast? = some (s.callNo, w.idx)
  /-- A thread runs its own schedule, and acts on its own counter only. -/
  own_counter : ∀ t s', WorkerStep api t s s' →
    ∃ c pc w, s.pc = .running c pc ∧ s.workers[t]? = some w ∧ c.svec[w.idx]? = some w.sched ∧
      w.warmup = c.warmup ∧ ∀ j, j ≠ w.idx → s'.counters[j]? = s.counters[j]?
  /-- When the calls so far have returned, all their benchmark calls have
      been made and all their threads have finished. -/
  returned : s.pc = .idle → ∃ past, calls = past ++ s.todo ∧ s.log = callsLog past 0 ∧
    seriesCalls api past world = (s.world, s.returned) ∧
    ∀ (t : Nat) (w : Worker World Cnt Ev), s.workers[t]? = some w → w.pc = .done

theorem applyAt_getElem?_ne {i j : Nat} (h : j ≠ i) (op : Op World Cnt)
    (wc : World × List Cnt) : (applyAt i op wc).2[j]? = wc.2[j]? := by
  unfold applyAt
  split
  · exact List.getElem?_set_ne h.symm
  · rfl

/-- The round of a priority call, seen from a thread that is not done. -/
theorem SeriesInv.active {w : Worker World Cnt Ev} (hprio : ∀ c ∈ calls, c.kind = .priority)
    (hthr : ThreadInv s) (hinv : SeriesInv api calls world s) (hw : s.workers[t]? = some w)
    (hnd : w.pc ≠ .done) :
    ∃ c pc past w1, s.pc = .running c pc ∧ c.svec[w.idx]? = some w.sched ∧
      w.warmup = c.warmup ∧ w.call = s.callNo ∧ w.pc.inLoop w.warmup ∧
      s.log = callsLog past 0 ++ entryLog c s.callNo w.idx ++
        List.replicate (w.pc.entered w.warmup) (s.callNo, w.idx) ∧
      s.counters.length = c.svec.length ∧ calls = past ++ c :: s.todo ∧
      seriesCalls api past world = (w1, s.returned) := by
  cases hpc : s.pc with
  | dead => exact absurd hpc hthr.alive
  | idle => exact absurd (hthr.joined_done t w hw ((hthr.idle hpc).1 t w hw)) hnd
  | running c pc =>
    obtain ⟨past, w1, hcalls, hseries, hround⟩ := hinv.running c pc hpc
    have hk : c.kind = .priority := hprio c (by simp [hcalls])
    obtain ⟨hcrew, hok, -⟩ := hthr.running c pc hpc
    have ht := hthr.undone hpc hw hnd
    simp only [Call.profile, Call.pcOk, hk] at hcrew hok ht hround
    generalize hp : priorityProfile c.svec.length pc = p at hcrew ht hround
    rcases hp ▸ priorityProfile_cases hok with ⟨hborn, hjoined, -⟩ | ⟨hborn, hjoined, hi⟩
    · omega
    · obtain rfl : t = s.base + p.first := by omega
      obtain ⟨w', hw', hcall, hidx, hsch, hwarm, -⟩ := hcrew.mine p.first (by omega)
      obtain rfl := Option.some.inj (hw.symm.trans hw')
      obtain ⟨hin, -, hcnt, hlog⟩ := hround.live hborn w hw
      refine ⟨c, pc, past, w1, rfl, by rw [hidx]; exact hsch, hwarm, hcall, hin, ?_, ?_,
        hcalls, hseries⟩
      · rw [hidx]
        exact hlog
      · rw [hcnt, List.length_append, series_take_length api hi.le]
        simp
        omega

/-- **Series execution**: in every interleaving of priority calls, the
    benchmarks run one after the other in list order. -/
theorem series_execution (hprio : ∀ c ∈ calls, c.kind = .priority)
    (h : Reachable (harness api calls world) s) : SeriesExecution api calls world s := by
  have hthr := thread_inv (reusable_of_priority hprio) h
  have hinv := series_inv hprio h
  refine ⟨fun t u ht hu => inBenchmark_unique h ht hu, fun c pc hp => ?_, fun t w hw hb => ?_,
    fun t s' hstep => ?_, fun hidle => ?_⟩
  · obtain ⟨past, w1, hcalls, hseries, hround⟩ := hinv.running c pc hp
    have hk : c.kind = .priority := hprio c (by simp [hcalls])
    have hlen : past.length = s.callNo := by
      rw [State.callNo, ← seriesCalls_length api past world, hseries]
    obtain ⟨hcrew, hok, -⟩ := hthr.running c pc hp
    simp only [Call.profile, Call.pcOk, hk] at hcrew hok hround
    generalize hprof : priorityProfile c.svec.length pc = p at hcrew hround
    rcases hprof ▸ priorityProfile_cases hok with ⟨hborn, -, hi⟩ | ⟨hborn, -, hi⟩
    · obtain ⟨j, hj⟩ := Nat.exists_eq_add_of_le hi
      refine ⟨past, _, hcalls, hlen, (hround.quiet hborn).2.2, ?_⟩
      rw [hj]
      exact entryLog_append c _ _ j
    · obtain ⟨w, hw, -, -, -, hwarm, -⟩ := hcrew.mine p.first (by omega)
      obtain ⟨hin, -, -, hlog⟩ := hround.live hborn w hw
      refine ⟨past, _, hcalls, hlen, by rw [hlog, List.append_assoc], ?_⟩
      exact entryLog_partial hi (hwarm ▸ WorkerPc.entered_le hin)
  · have hnd : w.pc ≠ .done := by
      intro hd
      simp [hd, WorkerPc.inBenchmark] at hb
    obtain ⟨c, pc, past, w1, -, -, -, -, -, hlog, -⟩ := hinv.active hprio hthr hw hnd
    have hpos : 0 < w.pc.entered w.warmup := by
      cases hpc : w.pc <;> simp_all [WorkerPc.inBenchmark, WorkerPc.entered]
    obtain ⟨k, hk⟩ := Nat.exists_eq_add_of_lt hpos
    rw [hlog, hk]
    simp [List.replicate_succ']
  · obtain ⟨w, pc', hw, hnd, hs, hprog⟩ := hstep.progress
    obtain ⟨c, pc, past, w1, hp, hsch, hwarm, -, hin, -⟩ := hinv.active hprio hthr hw hnd
    obtain ⟨op, -, -, heff, -⟩ := hprog hin
    refine ⟨c, pc, w, hp, hw, hsch, hwarm, ?_⟩
    intro j hj
    have hcnt : s'.counters = (applyAt w.idx op (s.world, s.counters)).2 := by rw [← heff]
    rw [hcnt]
    exact applyAt_getElem?_ne hj op _
  · obtain ⟨past, hcalls, hseries, hlog⟩ := hinv.idle hidle
    exact ⟨past, hcalls, hlog, hseries,
      fun t w hw => hthr.joined_done t w hw ((hthr.idle hidle).1 t w hw)⟩

end

/-- A finished run of two priority calls. -/
theorem series_execution_two :
    ∃ s, s.pc = .idle ∧ s.todo = [] ∧
      SeriesExecution nullApi [⟨.priority, [nullSchedule 0, nullSchedule 1], 0⟩,
        ⟨.priority, [nullSchedule 2], 5⟩] () s := by
  have hprio : ∀ c ∈ [(⟨.priority, [nullSchedule 0, nullSchedule 1], 0⟩ : Call Unit Unit Unit),
      ⟨.priority, [nullSchedule 2], 5⟩], c.kind = .priority := by simp
  obtain ⟨s, hs, hidle, htodo⟩ := (Reachable.init rfl).can (can_finish
    (reusable_of_priority hprio))
  exact ⟨s, hidle, htodo, series_execution hprio hs⟩

end Pcnt
