import Mathlib.Data.List.Forall2
import Microrev.Lib.Script
import Microrev.Harness.Series

/-! # One Object for a Whole Program

    A program may keep its `CounterBenchmark` and do other work between two
    calls, as `a_measurement.cpp` does. From the second call on the object is
    not a fresh one: `pause` is false from the start, so a new thread does not
    wait for the scheduler, and the counters of earlier calls are unrelated to
    the process as it is now. Priority calls nevertheless return exactly what
    fresh objects would.
-/

namespace Pcnt

open Lts Script

section
variable {World Cnt Ev : Type} {api : CounterApi World Cnt Ev}
variable {s s' : State World Cnt Ev} {c : Call World Cnt Ev}
variable {calls : List (Call World Cnt Ev)} {world w w' : World}

/-! ### Replaying Earlier Calls -/

/-- A schedule that gives the known result at once. -/
def Schedule.replay (w : World) (sch : Schedule World Cnt Ev) (cnt : Cnt) :
    Schedule World Cnt Ev :=
  { sch with benchmark := fun _ => (w, cnt) }

def Call.replay (w : World) (c : Call World Cnt Ev) (cnts : List Cnt) : Call World Cnt Ev :=
  { c with svec := List.zipWith (Schedule.replay w) c.svec cnts }

theorem series_replay (hend : api.end_ = id) (warmup : Nat) (w : World)
    {svec : List (Schedule World Cnt Ev)} {cnts : List Cnt} (hlen : cnts.length = svec.length) :
    series api warmup (List.zipWith (Schedule.replay w) svec cnts) w = (w, cnts) := by
  induction svec generalizing cnts with
  | nil =>
    obtain rfl := List.length_eq_zero_iff.mp hlen
    rfl
  | cons sch svec ih =>
    obtain ⟨cnt, cnts, rfl⟩ := List.exists_cons_of_length_eq_add_one hlen
    have hone : counter_thread_fn api warmup (sch.replay w cnt)
        (w, freshCounter api (sch.replay w cnt)) = (w, cnt) := congrFun hend (w, cnt)
    have hrest := ih (Nat.succ.inj hlen)
    rw [List.zipWith_cons_cons, series]
    simp only [hone, hrest]

/-- Every call so far has returned a counter for each schedule. -/
theorem seriesCalls_lengths (api : CounterApi World Cnt Ev) (calls : List (Call World Cnt Ev))
    (world : World) : List.Forall₂ (fun c cnts => cnts.length = c.svec.length) calls
      (seriesCalls api calls world).2 := by
  induction calls generalizing world with
  | nil => exact .nil
  | cons c calls ih => exact .cons (series_length _ _ _) (ih _)

section
variable {returned : List (List Cnt)}

theorem seriesCalls_replay (hend : api.end_ = id) (w : World)
    (hlen : List.Forall₂ (fun c cnts => cnts.length = c.svec.length) calls returned) :
    seriesCalls api (List.zipWith (Call.replay w) calls returned) w = (w, returned) := by
  induction hlen with
  | nil => rfl
  | @cons c cnts calls returned hone _ ih =>
    have hc : series api (c.replay w cnts).warmup (c.replay w cnts).svec w = (w, cnts) :=
      series_replay hend c.warmup w hone
    rw [List.zipWith_cons_cons, seriesCalls]
    simp only [hc, ih]

theorem callsLog_replay (w : World)
    (hlen : List.Forall₂ (fun c cnts => cnts.length = c.svec.length) calls returned) (no : Nat) :
    callsLog (List.zipWith (Call.replay w) calls returned) no = callsLog calls no := by
  induction hlen generalizing no with
  | nil => rfl
  | @cons c cnts calls returned hone _ ih =>
    have hsvec : (c.replay w cnts).svec.length = c.svec.length := by
      show (List.zipWith _ c.svec cnts).length = _
      rw [List.length_zipWith, hone, min_self]
    rw [List.zipWith_cons_cons, callsLog, callsLog, ih, hsvec]
    rfl

theorem replay_priority (w : World)
    (hlen : List.Forall₂ (fun c cnts => cnts.length = c.svec.length) calls returned)
    (hprio : ∀ c ∈ calls, c.kind = .priority) :
    ∀ c ∈ List.zipWith (Call.replay w) calls returned, c.kind = .priority := by
  induction hlen with
  | nil => simp
  | cons _ _ ih =>
    obtain ⟨hc, hcalls⟩ := List.forall_mem_cons.mp hprio
    rw [List.zipWith_cons_cons, List.forall_mem_cons]
    exact ⟨hc, ih hcalls⟩

end

/-! ### The Invariant -/

/-- What holds at any point of a sequence of priority calls that starts with
    an empty `threads`. -/
structure RestInv (api : CounterApi World Cnt Ev) (calls : List (Call World Cnt Ev))
    (world : World) (s : State World Cnt Ev) : Prop where
  lock : LockInv s
  wait : WaitInv s
  crew : ThreadInv s
  series : SeriesInv api calls world s
  idle : s.pc = .idle → s.threads = []
  running : ∀ c pc, s.pc = .running c pc → c.usesThreads ∨ s.threads = []

/-- A scheduler step leaves `threads` empty between calls, and in calls that
    do not use it. -/
theorem SchedulerStep.empty (h : SchedulerStep api s s') (hcrew : ThreadInv s)
    (hprio : ∀ c pc, s.pc = .running c pc → c.kind = .priority)
    (hidle : s.pc = .idle → s.threads = [])
    (hrunning : ∀ c pc, s.pc = .running c pc → c.usesThreads ∨ s.threads = []) :
    (s'.pc = .idle → s'.threads = []) ∧
      ∀ c pc, s'.pc = .running c pc → c.usesThreads ∨ s'.threads = [] := by
  -- enough for a step inside a call
  have hinside : ∀ c pc, s'.pc = .running c pc → (c.usesThreads ∨ s'.threads = []) →
      (s'.pc = .idle → s'.threads = []) ∧
        ∀ c pc, s'.pc = .running c pc → c.usesThreads ∨ s'.threads = [] := by
    intro c pc hp hc
    rw [hp]
    refine ⟨by simp, ?_⟩
    intro d pcd hd
    obtain ⟨rfl, -⟩ := SchedPc.running.inj hd
    exact hc
  cases h with
  | start_call hp _ => exact hinside _ _ rfl (.inr (hidle hp))
  | spawn _ hsch =>
    exact hinside _ _ rfl (.inl (usesThreads_of_lt (List.getElem?_eq_some_iff.mp hsch).1))
  | join hp ht _ _ =>
    rcases hrunning _ _ hp with huses | hnil
    · exact hinside _ _ rfl (.inl huses)
    · simp [hnil] at ht
  | clear hp => exact hinside _ _ rfl (.inr rfl)
  | @reset_pause c hp =>
    refine ⟨fun _ => ?_, by simp⟩
    rcases hrunning _ _ hp with huses | hnil
    · obtain ⟨hc, -⟩ := hcrew.running _ _ hp
      have hslots := hc.slots huses
      simpa [Call.profile, priorityProfile, hprio _ _ hp, Profile.slots] using hslots
    · exact hnil
  | pin_stale _ _ | join_stale _ _ => exact ⟨by simp, by simp⟩
  | pin hp _ _ | loop_end hp _ | lock hp _ | set_pause hp | unlock hp | notify_all hp _
  | notify_one hp _ _ | lock_ready hp _ | check_ready_true hp _ | check_ready_false hp _
  | relock hp _ _ | unlock_ready hp | join_end hp _ | stats hp _ | stats_end hp _
  | reset_ready hp =>
    exact hinside _ _ rfl (hrunning _ _ hp)

theorem rest_inv_step {a : Action} (hprio : ∀ c ∈ calls, c.kind = .priority)
    (h : RestInv api calls world s) (hstep : Step api s a s') : RestInv api calls world s' := by
  have hrun : ∀ c pc, s.pc = .running c pc → c.kind = .priority := by
    intro c pc hp
    obtain ⟨past, w1, hcalls, -⟩ := h.series.running c pc hp
    exact hprio c (by simp [hcalls])
  cases hstep with
  | scheduler hsched =>
    obtain ⟨hidle, hrunning⟩ := hsched.empty h.crew hrun h.idle h.running
    exact ⟨lock_inv_scheduler h.lock hsched, wait_inv_scheduler h.wait hsched,
      thread_inv_scheduler h.crew hsched, series_inv_scheduler hprio h.crew h.series hsched,
      hidle, hrunning⟩
  | worker hwork =>
    obtain ⟨_, _, -, -, hpc, hthreads, -⟩ := hwork.frame
    refine ⟨lock_inv_worker h.lock hwork, wait_inv_worker h.wait hwork,
      thread_inv_worker h.crew hwork, series_inv_worker hprio h.crew h.series hwork, ?_, ?_⟩
    · rw [hpc, hthreads]
      exact h.idle
    · rw [hpc, hthreads]
      exact h.running
  | spurious _ =>
    refine ⟨h.lock, fun b hb => h.wait b (Finset.mem_of_mem_erase hb), ?_, ?_, h.idle, h.running⟩
    · exact ⟨h.crew.alive, h.crew.joined_done, h.crew.idle, fun c pc hp =>
        ⟨(h.crew.running c pc hp).1.congr rfl rfl rfl rfl, (h.crew.running c pc hp).2⟩⟩
    · refine ⟨h.series.idle, ?_⟩
      intro c pc hp
      obtain ⟨past, w1, hcalls, hseries, hround⟩ := h.series.running c pc hp
      exact ⟨past, w1, hcalls, hseries, hround.same rfl rfl rfl rfl rfl rfl rfl
        fun u v hv => ⟨v, hv, rfl, rfl, rfl⟩⟩

theorem rest_inv_run {no : List (Call World Cnt Ev)} (hprio : ∀ c ∈ calls, c.kind = .priority)
    (h : RestInv api calls world s) (hrun : Reaches (harness api no w) s s') :
    RestInv api calls world s' := by
  induction hrun with
  | refl => exact h
  | tail _ hstep ih =>
    obtain ⟨a, hstep⟩ := hstep
    exact rest_inv_step hprio ih hstep

/-! ### Between Two Calls -/

/-- The object between two priority calls. -/
structure Rested (api : CounterApi World Cnt Ev) (s : State World Cnt Ev) : Prop where
  pc : s.pc = .idle
  todo : s.todo = []
  inv : ∃ calls world, (∀ c ∈ calls, c.kind = .priority) ∧ RestInv api calls world s

theorem rested_initial (w : World) : Rested api (initial [] w) := by
  refine ⟨rfl, rfl, [], w, by simp, lock_inv_initial [] w, ?_, ?_, series_inv_initial,
    fun _ => rfl, by simp [initial]⟩
  · intro a ha
    simp [initial] at ha
  · exact thread_inv_initial List.Pairwise.nil w

/-- Nobody holds the mutex or waits. -/
theorem Rested.mon (h : Rested api s) : s.mon = Monitor.fresh := by
  obtain ⟨calls, world, -, hinv⟩ := h.inv
  have hdone : ∀ (t : Nat) (v : Worker World Cnt Ev), s.workers[t]? = some v → v.pc = .done :=
    fun t v hv => hinv.crew.joined_done t v hv ((hinv.crew.idle h.pc).1 t v hv)
  have howner : s.mon.owner = none := by
    by_contra hne
    obtain ⟨a, ha⟩ := Option.ne_none_iff_exists'.mp hne
    have hholds := (hinv.lock a).mp ha
    cases a with
    | scheduler => simp [State.holds, h.pc, SchedPc.holdsLock] at hholds
    | worker t =>
      obtain ⟨v, hv, hheld⟩ := hholds
      simp [hdone t v hv, WorkerPc.holdsLock] at hheld
  have hwaiting : s.mon.waiting = ∅ := by
    rw [Finset.eq_empty_iff_forall_notMem]
    intro a ha
    have hasleep := hinv.wait a ha
    cases a with
    | scheduler => simp [State.asleep, h.pc] at hasleep
    | worker t =>
      obtain ⟨v, hv, hpc⟩ := hasleep
      simp [hdone t v hv] at hpc
  show (⟨s.mon.owner, s.mon.waiting⟩ : Monitor Actor) = ⟨none, ∅⟩
  rw [howner, hwaiting]

/-- Other work may change the process: the calls so far might as well have
    left it like that. -/
theorem Rested.change (hend : api.end_ = id) (h : Rested api s) (w : World) :
    Rested api { s with world := w } := by
  obtain ⟨calls, world, hprio, hinv⟩ := h.inv
  obtain ⟨past, hcalls, hseries, hlog⟩ := hinv.series.idle h.pc
  rw [h.todo, List.append_nil] at hcalls
  subst hcalls
  have hlen := seriesCalls_lengths api calls world
  rw [hseries] at hlen
  refine ⟨h.pc, h.todo, List.zipWith (Call.replay w) calls s.returned, w,
    replay_priority w hlen hprio, ?_⟩
  refine ⟨hinv.lock, hinv.wait, ⟨hinv.crew.alive, hinv.crew.joined_done, hinv.crew.idle, ?_⟩,
    ⟨fun _ => ?_, ?_⟩, hinv.idle, hinv.running⟩
  · intro c pc hp
    exact absurd (h.pc.symm.trans hp) (by simp)
  · refine ⟨_, ?_, seriesCalls_replay hend w hlen, hlog.trans (callsLog_replay w hlen 0).symm⟩
    simp [h.todo]
  · intro c pc hp
    exact absurd (h.pc.symm.trans hp) (by simp)

/-- The next call. -/
theorem Rested.call (h : Rested api s) (c : Call World Cnt Ev) :
    ∃ calls world, (∀ d ∈ calls, d.kind = .priority) ∧
      seriesCalls api calls world = (s.world, s.returned) ∧
      RestInv api (calls ++ [c]) world { s with todo := [c] } := by
  obtain ⟨calls, world, hprio, hinv⟩ := h.inv
  obtain ⟨past, hcalls, hseries, hlog⟩ := hinv.series.idle h.pc
  rw [h.todo, List.append_nil] at hcalls
  subst hcalls
  refine ⟨calls, world, hprio, hseries, hinv.lock, hinv.wait, ⟨hinv.crew.alive,
    hinv.crew.joined_done, fun _ => ⟨(hinv.crew.idle h.pc).1, List.pairwise_singleton _ c,
      .inl (hinv.idle h.pc)⟩, ?_⟩, ⟨fun _ => ⟨calls, rfl, hseries, hlog⟩, ?_⟩, hinv.idle,
    hinv.running⟩
  · intro d pc hp
    exact absurd (h.pc.symm.trans hp) (by simp)
  · intro d pc hp
    exact absurd (h.pc.symm.trans hp) (by simp)

/-- **A call on a used object**: it returns what a fresh one would, and leaves
    the object ready for the next call. -/
theorem Rested.returns (h : Rested api s) (hk : c.kind = .priority)
    (hrun : Reaches (harness api [c] s.world) { s with todo := [c] } s') (hidle : s'.pc = .idle)
    (htodo : s'.todo = []) :
    Rested api s' ∧ s'.world = (series api c.warmup c.svec s.world).1 ∧
      s'.returned = s.returned ++ [(series api c.warmup c.svec s.world).2] := by
  obtain ⟨calls, world, hprio, hseries, hinv⟩ := h.call c
  have hprio' : ∀ d ∈ calls ++ [c], d.kind = .priority := by
    simp only [List.forall_mem_append, List.forall_mem_singleton]
    exact ⟨hprio, hk⟩
  have hinv' := rest_inv_run hprio' hinv hrun
  obtain ⟨past, hcalls, hseries', -⟩ := hinv'.series.idle hidle
  rw [htodo, List.append_nil] at hcalls
  rw [← hcalls, seriesCalls_snoc, hseries] at hseries'
  obtain ⟨hworld, hret⟩ := Prod.mk.inj hseries'
  exact ⟨⟨hidle, htodo, _, _, hprio', hinv'⟩, hworld.symm, hret.symm⟩

/-- Some run of the call returns. -/
theorem Rested.can_return (h : Rested api s) (hk : c.kind = .priority) :
    CanReach (harness api [c] s.world) { s with todo := [c] } fun s' =>
      s'.pc = .idle ∧ s'.todo = [] := by
  obtain ⟨calls, world, -, hinv⟩ := h.inv
  have hrest : AtRest [] [c] { s with todo := [c] } := ⟨h.pc, h.mon, hinv.idle h.pc, rfl⟩
  exact (priority_returns hk hrest).bind fun s' ⟨hs', _⟩ => .here ⟨hs'.pc, hs'.todo⟩

/-! ### Inside a Call -/

/-- No operation of the call leaves `P`. -/
structure OpsKeep (api : CounterApi World Cnt Ev) (c : Call World Cnt Ev) (P : World → Prop) :
    Prop where
  add : ∀ ev wc, P wc.1 → P (api.add ev wc).1
  reset : ∀ wc, P wc.1 → P (api.reset wc).1
  end_ : ∀ wc, P wc.1 → P (api.end_ wc).1
  stats : ∀ wc, P wc.1 → P (api.stats wc).1
  benchmark : ∀ sch ∈ c.svec, ∀ wc, P wc.1 → P (sch.benchmark wc).1

/-- `P` holds, and the threads that are not done are threads of the call. -/
structure KeptInv (c : Call World Cnt Ev) (P : World → Prop) (s : State World Cnt Ev) : Prop where
  world : P s.world
  todo : ∀ d ∈ s.todo, d = c
  running : ∀ d pc, s.pc = .running d pc → d = c
  scheds : ∀ (t : Nat) (v : Worker World Cnt Ev), s.workers[t]? = some v → v.pc ≠ .done →
    v.sched ∈ c.svec

theorem applyAt_keeps {P : World → Prop} {op : Op World Cnt} (hop : ∀ wc, P wc.1 → P (op wc).1)
    (i : Nat) (wc : World × List Cnt) (h : P wc.1) : P (applyAt i op wc).1 := by
  unfold applyAt
  split
  · exact hop _ h
  · exact h

theorem kept_inv_worker {P : World → Prop} {t : Nat} (hops : OpsKeep api c P)
    (h : KeptInv c P s) (hstep : WorkerStep api t s s') : KeptInv c P s' := by
  constructor
  case world =>
    cases hstep with
    | lock _ _ _ | check_true _ _ _ | check_false _ _ _ | relock _ _ _ _ | warmup_call _ _ _
    | warmup_end _ _ _ | measure_call _ _ | set_ready _ _ | unlock _ _ | notify _ _ _ =>
      exact h.world
    | @add v _ _ =>
      have hadd : ∀ wc : World × Cnt, P wc.1 →
          P (api.add v.sched.events (wc.1, api.set_core_id v.sched.core_id wc.2)).1 :=
        fun wc hwc => hops.add _ (wc.1, _) hwc
      exact applyAt_keeps hadd _ (s.world, s.counters) h.world
    | warmup_return hv hp | measure_return hv hp =>
      exact applyAt_keeps (hops.benchmark _ (h.scheds t _ hv (by simp [hp]))) _ _ h.world
    | reset _ _ => exact applyAt_keeps hops.reset _ _ h.world
    | end_ _ _ => exact applyAt_keeps hops.end_ _ _ h.world
  all_goals
    obtain ⟨v, pc', hv, hnd, hworkers, -⟩ := hstep.progress
    obtain ⟨_, _, -, -, hpc, -, -, htodo, -⟩ := hstep.frame
  case todo => exact htodo ▸ h.todo
  case running => exact hpc ▸ h.running
  case scheds =>
    intro u x hx hxnd
    rw [hworkers, getElem?_moved hv] at hx
    split at hx
    · obtain rfl := Option.some.inj hx
      exact h.scheds t v hv hnd
    · exact h.scheds u x hx hxnd

theorem kept_inv_scheduler {P : World → Prop} (hops : OpsKeep api c P) (h : KeptInv c P s)
    (hstep : SchedulerStep api s s') : KeptInv c P s' := by
  -- the scheduler stays inside the call
  have hinside : ∀ d pc pc', s.pc = .running d pc →
      ∀ e pce, SchedPc.running d pc' = .running e pce → e = c := by
    intro d pc pc' hp e pce heq
    obtain ⟨rfl, -⟩ := SchedPc.running.inj heq
    exact h.running d pc hp
  cases hstep with
  | @start_call d rest hp htodo =>
    have hd : d = c := h.todo d (by simp [htodo])
    have hrest : ∀ e ∈ rest, e = c := fun e he => h.todo e (by simp [htodo, he])
    refine ⟨h.world, hrest, ?_, h.scheds⟩
    intro e pce heq
    obtain ⟨rfl, -⟩ := SchedPc.running.inj heq
    exact hd
  | @spawn d i sch hp hsch =>
    refine ⟨h.world, h.todo, hinside _ _ _ hp, ?_⟩
    intro u x hx hxnd
    have hx' : (s.workers ++ [_])[u]? = some x := hx
    rw [List.getElem?_append] at hx'
    split at hx'
    · exact h.scheds u x hx' hxnd
    · -- the new thread has the schedule of its entry
      have hnew := List.mem_of_getElem? hx'
      obtain rfl := List.mem_singleton.mp hnew
      obtain rfl := h.running d _ hp
      exact List.mem_of_getElem? hsch
  | @join d i k u x hp hthread hx hdone =>
    refine ⟨h.world, h.todo, hinside _ _ _ hp, ?_⟩
    intro t v hv hvnd
    have hv' : (s.workers.set u { x with joined := true })[t]? = some v := hv
    rw [getElem?_moved hx] at hv'
    split at hv'
    · obtain rfl := Option.some.inj hv'
      exact absurd hdone hvnd
    · exact h.scheds t v hv' hvnd
  | stats hp _ =>
    exact ⟨applyAt_keeps hops.stats _ _ h.world, h.todo, hinside _ _ _ hp, h.scheds⟩
  | pin_stale _ _ | join_stale _ _ | reset_pause _ =>
    exact ⟨h.world, h.todo, by simp, h.scheds⟩
  | pin hp _ _ | loop_end hp _ | lock hp _ | set_pause hp | unlock hp | notify_all hp _
  | notify_one hp _ _ | lock_ready hp _ | check_ready_true hp _ | check_ready_false hp _
  | relock hp _ _ | unlock_ready hp | join_end hp _ | clear hp | stats_end hp _
  | reset_ready hp =>
    exact ⟨h.world, h.todo, hinside _ _ _ hp, h.scheds⟩

/-- **What all operations of a call keep** holds at every moment of it. -/
theorem Rested.during {P : World → Prop} (hops : OpsKeep api c P) (h : Rested api s)
    (hP : P s.world) (hrun : Reaches (harness api [c] s.world) { s with todo := [c] } s') :
    P s'.world := by
  obtain ⟨calls, world, -, hinv⟩ := h.inv
  have hstart : KeptInv c P { s with todo := [c] } := by
    refine ⟨hP, by simp, fun d pc hp => absurd (h.pc.symm.trans hp) (by simp), ?_⟩
    intro t v hv hnd
    exact absurd (hinv.crew.joined_done t v hv ((hinv.crew.idle h.pc).1 t v hv)) hnd
  have hend : KeptInv c P s' := by
    induction hrun with
    | refl => exact hstart
    | tail _ hstep ih =>
      obtain ⟨a, hstep⟩ := hstep
      cases hstep with
      | scheduler hsched => exact kept_inv_scheduler hops ih hsched
      | worker hwork => exact kept_inv_worker hops ih hwork
      | spurious _ => exact ⟨ih.world, ih.todo, ih.running, ih.scheds⟩
  exact hend.world

/-! ### Programs with One Object -/

/-- What a program does with its object. -/
inductive ObjStmt (World Cnt Ev : Type) where
  /-- Other work. -/
  | work (change : World → World → Prop)
  /-- A call, and what is done with the counters that it returns. -/
  | call (c : Call World Cnt Ev) (use : List Cnt → World → World)

/-- All calls are priority calls. -/
def ObjStmt.Priority : ObjStmt World Cnt Ev → Prop
  | .work _ => True
  | .call c _ => c.kind = .priority

/-- On the object, with all interleavings of its threads. -/
inductive ReuseStep (api : CounterApi World Cnt Ev) : ObjStmt World Cnt Ev → State World Cnt Ev →
    List (List Cnt) → State World Cnt Ev → Prop where
  | work {s : State World Cnt Ev} {change : World → World → Prop} {w : World} :
      change s.world w → ReuseStep api (.work change) s [] { s with world := w }
  | call {s s' : State World Cnt Ev} {c : Call World Cnt Ev} {use : List Cnt → World → World}
      {counters : List Cnt} :
      Reaches (harness api [c] s.world) { s with todo := [c] } s' → s'.pc = .idle → s'.todo = [] →
      s'.returned = s.returned ++ [counters] →
      ReuseStep api (.call c use) s [counters] { s' with world := use counters s'.world }

/-- Without threads: the schedules of a call are executed one after the other. -/
inductive SeriesStep (api : CounterApi World Cnt Ev) : ObjStmt World Cnt Ev → World →
    List (List Cnt) → World → Prop where
  | work {change : World → World → Prop} {w w' : World} :
      change w w' → SeriesStep api (.work change) w [] w'
  | call {c : Call World Cnt Ev} {use : List Cnt → World → World} {w : World} :
      SeriesStep api (.call c use) w [(series api c.warmup c.svec w).2]
        (use (series api c.warmup c.svec w).2 (series api c.warmup c.svec w).1)

variable {a : ObjStmt World Cnt Ev} {as : List (ObjStmt World Cnt Ev)} {os : List (List Cnt)}

theorem SeriesStep.of_work {change : World → World → Prop} {w w' : World}
    (h : SeriesStep api (.work change) w os w') : os = [] ∧ change w w' := by
  cases h with
  | work hchange => exact ⟨rfl, hchange⟩

theorem SeriesStep.of_call {use : List Cnt → World → World} {w w' : World}
    (h : SeriesStep api (.call c use) w os w') :
    os = [(series api c.warmup c.svec w).2] ∧
      w' = use (series api c.warmup c.svec w).2 (series api c.warmup c.svec w).1 := by
  cases h with
  | call => exact ⟨rfl, rfl⟩

theorem ReuseStep.series (hend : api.end_ = id) (ha : a.Priority) (h : ReuseStep api a s os s')
    (hrest : Rested api s) : Rested api s' ∧ SeriesStep api a s.world os s'.world := by
  cases h with
  | work hchange => exact ⟨hrest.change hend _, .work hchange⟩
  | @call _ s1 c use counters hrun hidle htodo hret =>
    obtain ⟨hrest', hworld, hreturned⟩ := hrest.returns ha hrun hidle htodo
    obtain rfl : counters = (Pcnt.series api c.warmup c.svec s.world).2 := by
      have hsame := hret.symm.trans hreturned
      exact (List.cons.inj (List.append_cancel_left hsame)).1
    refine ⟨hrest'.change hend _, ?_⟩
    show SeriesStep api _ s.world _ (use _ s1.world)
    rw [hworld]
    exact .call

theorem exec_rested (hend : api.end_ = id) (hprio : ∀ a ∈ as, a.Priority)
    (h : Exec (ReuseStep api) as s os s') (hrest : Rested api s) : Rested api s' :=
  h.invariant (Rested api) (fun a ha _ _ _ hs hstep => (hstep.series hend (hprio a ha) hs).1) hrest

theorem SeriesStep.reuse (ha : a.Priority) (h : SeriesStep api a s.world os w')
    (hrest : Rested api s) :
    ∃ s', ReuseStep api a s os s' ∧ s'.world = w' := by
  cases h with
  | work hchange => exact ⟨_, .work hchange, rfl⟩
  | @call c use =>
    obtain ⟨s1, hrun, hidle, htodo⟩ := hrest.can_return ha
    obtain ⟨-, hworld, hreturned⟩ := hrest.returns ha hrun hidle htodo
    exact ⟨_, .call hrun hidle htodo hreturned, congrArg (use _) hworld⟩

/-- **One object is as good as many**: what a program gets from priority calls
    on a single object, with anything done between them, is exactly what it
    gets from schedules that are executed one after the other. -/
theorem exec_reuse_iff (hend : api.end_ = id) (hprio : ∀ a ∈ as, a.Priority)
    (hrest : Rested api s) :
    (∃ s', Exec (ReuseStep api) as s os s' ∧ s'.world = w') ↔
      Exec (SeriesStep api) as s.world os w' := by
  induction as generalizing s os with
  | nil =>
    constructor
    · rintro ⟨s', hexec, rfl⟩
      cases hexec
      exact .nil
    · intro hexec
      cases hexec
      exact ⟨s, .nil, rfl⟩
  | cons a as ih =>
    obtain ⟨ha, has⟩ := List.forall_mem_cons.mp hprio
    constructor
    · rintro ⟨s', hexec, hworld⟩
      obtain ⟨os1, s1, os2, hstep, hexec', rfl⟩ := exec_cons_iff.mp hexec
      obtain ⟨hrest1, hseries⟩ := hstep.series hend ha hrest
      exact .cons hseries ((ih has hrest1).mp ⟨s', hexec', hworld⟩)
    · intro hexec
      obtain ⟨os1, w1, os2, hstep, hexec', rfl⟩ := exec_cons_iff.mp hexec
      obtain ⟨s1, hreuse, rfl⟩ := hstep.reuse ha hrest
      obtain ⟨hrest1, -⟩ := hreuse.series hend ha hrest
      obtain ⟨s', hexec'', hworld⟩ := (ih has hrest1).mpr hexec'
      exact ⟨s', .cons hreuse hexec'', hworld⟩

/-- **A program and its only object**: from the constructor on. -/
theorem object_reused_iff (hend : api.end_ = id) (hprio : ∀ a ∈ as, a.Priority) (w : World) :
    (∃ s', Exec (ReuseStep api) as (initial [] w) os s' ∧ s'.world = w') ↔
      Exec (SeriesStep api) as w os w' :=
  exec_reuse_iff hend hprio (rested_initial w)

end

/-! ### Numbers in Order -/

/-- A counter keeps the numbers that it has drawn, and `reset` forgets them. -/
def drawApi : CounterApi Nat (List Nat) Unit where
  make := []
  set_label _ drawn := drawn
  set_core_id _ drawn := drawn
  add _ := id
  reset wc := (wc.1, [])
  end_ := id
  stats := id

/-- A benchmark that draws the next number of the process. -/
def drawNext (core : Int) : Schedule Nat (List Nat) Unit where
  core_id := core
  benchmark wc := (wc.1 + 1, wc.2 ++ [wc.1])
  events := ()
  label := ""

/-- Two calls, and other work between them. -/
def twoCalls : List (ObjStmt Nat (List Nat) Unit) :=
  [.call ⟨.priority, [drawNext 0], 1⟩ fun counters w => w + counters.length,
    .work fun w w' => w' = w + 10,
    .call ⟨.priority, [drawNext 1, drawNext 0], 2⟩ fun _ => id]

/-- After a warm-up the first counter draws 1, and the last two, each after two
    of its own, 15 and 18. -/
theorem object_reused_two_calls :
    ∃ s', Exec (ReuseStep drawApi) twoCalls (initial [] 0) [[[1]], [[15], [18]]] s' ∧
      s'.world = 19 := by
  have hwork : SeriesStep drawApi (.work fun w w' => w' = w + 10) 3 [] 13 := .work rfl
  have hseries : Exec (SeriesStep drawApi) twoCalls 0 [[[1]], [[15], [18]]] 19 :=
    .cons SeriesStep.call (.cons hwork (.cons SeriesStep.call .nil))
  exact (object_reused_iff rfl (by simp [twoCalls, ObjStmt.Priority]) 0).mpr hseries

end Pcnt
