import Microrev.Harness.Series

/-! # Who Has a Counter

    Every counter of a call is in the hands of one thread: it is fresh until
    the thread adds the events, and in use until the thread is done. When the
    scheduler looks at the counters, it has joined all threads, so all of them
    have been reset. This holds for every sequence of calls; one that meets
    left-over entries in `threads` ends the process before it looks.
-/

namespace Pcnt

open Lts

section
variable {World Cnt Ev : Type} {api : CounterApi World Cnt Ev}
variable {s s' : State World Cnt Ev} {c : Call World Cnt Ev} {t : Nat}
variable {calls : List (Call World Cnt Ev)} {world : World}

/-! ### Threads that are Not Done -/

/-- No thread is working there. -/
def SchedPc.settled : SchedPc World Cnt Ev → Prop
  | .idle | .running _ (.clear _) | .running _ (.stats _) | .running _ .reset_ready
  | .running _ .reset_pause => True
  | .running c (.spawn _) => c.kind = .priority
  | _ => False

/-- The threads that are not done can be joined. -/
structure RollInv (s : State World Cnt Ev) : Prop where
  listed : ∀ (t : Nat) (w : Worker World Cnt Ev), s.workers[t]? = some w → w.pc ≠ .done →
    some t ∈ s.threads
  emptied : ∀ c i k, s.pc = .running c (.join i k) → ∀ j < k, ∀ t, s.threads[j]? ≠ some (some t)
  settled : s.pc.settled → ∀ (t : Nat) (w : Worker World Cnt Ev), s.workers[t]? = some w →
    w.pc = .done

theorem roll_inv_initial : RollInv (initial calls world) where
  listed := by simp [initial]
  emptied := by simp [initial]
  settled := by simp [initial]

/-- A thread that is done makes no step. -/
theorem WorkerStep.undone (h : WorkerStep api t s s') :
    ∃ w pc, s.workers[t]? = some w ∧ w.pc ≠ .done ∧
      s'.workers = s.workers.set t { w with pc := pc } := by
  obtain ⟨w, pc, hw, hnd, hs, -⟩ := h.progress
  exact ⟨w, pc, hw, hnd, hs⟩

theorem roll_inv_worker (hinv : RollInv s) (h : WorkerStep api t s s') : RollInv s' := by
  obtain ⟨-, -, -, -, hpc, ht, -⟩ := h.frame
  obtain ⟨w, pc, hw, hnd, hs⟩ := h.undone
  refine ⟨?_, ?_, ?_⟩
  · intro u v hv hvd
    rw [ht]
    rw [hs, getElem?_moved hw] at hv
    split at hv
    · next hu => exact hu ▸ hinv.listed t w hw hnd
    · exact hinv.listed u v hv hvd
  · rw [hpc, ht]
    exact hinv.emptied
  · intro hset
    exact absurd (hinv.settled (hpc ▸ hset) t w hw) hnd

/-- A scheduler step that neither spawns nor joins. -/
theorem RollInv.same (hinv : RollInv s) (hw : s'.workers = s.workers)
    (ht : s'.threads = s.threads) (hjoin : ∀ c i k, s'.pc = .running c (.join i k) → k = 0)
    (hset : s'.pc.settled → s.pc.settled) : RollInv s' where
  listed := by
    rw [hw, ht]
    exact hinv.listed
  emptied c i k hp j hj := absurd hj (by simp [hjoin c i k hp])
  settled h := by
    rw [hw]
    exact hinv.settled (hset h)

/-- What the join loop has been through is all there is. -/
theorem RollInv.joined {i k : Nat} (hinv : RollInv s) (hp : s.pc = .running c (.join i k))
    (hk : s.threads.length ≤ k) (t : Nat) (w : Worker World Cnt Ev)
    (hw : s.workers[t]? = some w) : w.pc = .done := by
  by_contra hnd
  obtain ⟨j, hj, heq⟩ := List.getElem_of_mem (hinv.listed t w hw hnd)
  apply hinv.emptied c i k hp j (by omega) t
  rw [List.getElem?_eq_getElem hj, heq]

theorem roll_inv_scheduler (hinv : RollInv s) (h : SchedulerStep api s s') : RollInv s' := by
  cases h with
  | @start_call c rest hp htodo =>
    exact hinv.same rfl rfl (by simp [State.goto]) fun _ => by simp [hp, SchedPc.settled]
  | @spawn c i sch hp hsch =>
    refine ⟨?_, by simp [State.goto], by simp [State.goto, SchedPc.settled]⟩
    intro u v hv hvd
    simp only [State.goto, State.spawn, List.mem_append, List.mem_singleton,
      List.getElem?_append] at hv ⊢
    split at hv
    · exact .inl (hinv.listed u v hv hvd)
    · -- the new thread, whose entry is the new one
      have hlt := (List.getElem?_eq_some_iff.mp hv).1
      simp only [List.length_singleton] at hlt
      exact .inr (congrArg some (by omega))
  | @join c i k t w hp ht hw hd =>
    refine ⟨?_, ?_, by simp [State.goto, SchedPc.settled]⟩
    · intro u v hv hvd
      simp only [State.goto, getElem?_moved hw] at hv ⊢
      split at hv
      · obtain rfl := Option.some.inj hv
        exact absurd hd hvd
      · next hut =>
        -- the entry that is emptied is not the one of `u`
        obtain ⟨j, hj, heq⟩ := List.getElem_of_mem (hinv.listed u v hv hvd)
        have hjk : k ≠ j := by
          rintro rfl
          rw [List.getElem?_eq_getElem hj, heq] at ht
          exact hut (Option.some.inj (Option.some.inj ht))
        apply List.mem_of_getElem? (i := j)
        rw [List.getElem?_set_ne hjk, List.getElem?_eq_getElem hj, heq]
    · intro c' i' k' hrun j hj u
      obtain ⟨rfl, hpc⟩ := SchedPc.running.inj hrun
      obtain ⟨rfl, rfl⟩ := CallPc.join.inj hpc
      have hlt := (List.getElem?_eq_some_iff.mp ht).1
      simp only [State.goto]
      rcases Nat.lt_succ_iff_lt_or_eq.mp hj with hjk | rfl
      · rw [List.getElem?_set_ne (by omega)]
        exact hinv.emptied c i k hp j hjk u
      · simp [hlt]
  | @join_end c i k hp hk =>
    refine ⟨hinv.listed, ?_, fun _ => hinv.joined hp hk⟩
    cases hkind : c.kind <;> simp [State.goto, Call.afterJoin, hkind]
  | @clear c i hp =>
    have hall := hinv.settled (by simp [hp, SchedPc.settled])
    exact ⟨fun u v hv hvd => absurd (hall u v hv) hvd, by simp [State.goto], fun _ => hall⟩
  | @pin c i sch t hp _ _ =>
    refine hinv.same rfl rfl ?_ ?_
    all_goals cases hk : c.kind <;> simp [State.goto, Call.afterPin, SchedPc.settled, hk]
  | @loop_end c i hp _ =>
    refine hinv.same rfl rfl ?_ ?_
    all_goals cases hk : c.kind <;> simp [hp, State.goto, Call.afterLoop, SchedPc.settled, hk]
  | @pin_stale c i hp _ | @join_stale c i k hp _ =>
    exact hinv.same rfl rfl (by simp) (by simp [SchedPc.settled])
  | @notify_all c i hp _ | @unlock_ready c i hp =>
    refine hinv.same rfl rfl ?_ (by simp [State.goto, SchedPc.settled])
    intro c' i' k' hrun
    obtain ⟨rfl, hpc⟩ := SchedPc.running.inj hrun
    exact (CallPc.join.inj hpc).2.symm
  | @lock c i hp _ | @set_pause c i hp | @unlock c i hp | @notify_one c i _ hp _ _
  | @lock_ready c i hp _ | @check_ready_true c i hp _ | @check_ready_false c i hp _
  | @relock c i hp _ _ | @stats c k hp _ | @stats_end c k hp _ | @reset_ready c hp
  | @reset_pause c hp =>
    exact hinv.same rfl rfl (by simp [State.goto]) (by simp [hp, State.goto, SchedPc.settled])

theorem roll_inv (h : Reachable (harness api calls world) s) : RollInv s := by
  apply h.invariant (fun s h0 => h0 ▸ roll_inv_initial)
  intro s a s' hinv hstep
  cases hstep with
  | scheduler h => exact roll_inv_scheduler hinv h
  | worker h => exact roll_inv_worker hinv h
  | spurious _ => exact ⟨hinv.listed, hinv.emptied, hinv.settled⟩

/-! ### Stages of a Counter -/

/-- The operations take a counter from one stage to the next. -/
structure Stages (api : CounterApi World Cnt Ev) (fresh added ready : Cnt → Prop) : Prop where
  make : fresh api.make
  set_label : ∀ l cnt, fresh cnt → fresh (api.set_label l cnt)
  add : ∀ ev core w cnt, fresh cnt → added (api.add ev (w, api.set_core_id core cnt)).2
  reset : ∀ wc, added wc.2 → ready (api.reset wc).2
  end_ : ∀ wc, ready wc.2 → ready (api.end_ wc).2
  stats : ∀ wc, ready wc.2 → ready (api.stats wc).2

/-- A benchmark leaves a counter in the stage it is in. -/
structure KeepsStage (added ready : Cnt → Prop) (op : Op World Cnt) : Prop where
  added : ∀ wc, added wc.2 → added (op wc).2
  ready : ∀ wc, ready wc.2 → ready (op wc).2

/-- The stage of the counter of a thread. -/
def WorkerPc.stage (fresh added ready : Cnt → Prop) : WorkerPc → Cnt → Prop
  | .start | .check | .asleep | .add => fresh
  | .warmup _ | .in_warmup _ | .reset => added
  | .measure | .in_measure | .end_ | .set_ready | .unlock | .notify | .done => ready

/-- How many threads the running call has spawned; `n` is the number of threads
    on this object. -/
def Call.spawned (c : Call World Cnt Ev) (base n : Nat) : CallPc → Prop
  | .spawn i => n = base + i
  | .pin i | .clear i => n = base + i + 1
  | .lock i | .set_pause i | .unlock i | .notify i | .lock_ready i | .check_ready i | .asleep i
  | .unlock_ready i | .join i _ =>
    match c.kind with
    | .schedule => base + c.svec.length ≤ n
    | .priority => n = base + i + 1
  | .stats _ | .reset_ready | .reset_pause => base + c.svec.length ≤ n

variable {fresh added ready : Cnt → Prop}

/-- **Custody**: thread `base + i` has counter `i`, which is fresh before the
    thread exists. -/
structure CustodyInv (fresh added ready : Cnt → Prop) (s : State World Cnt Ev) : Prop where
  base_le : s.base ≤ s.workers.length
  old : ∀ t < s.base, ∀ w, s.workers[t]? = some w → w.pc = .done
  mine : ∀ (i : Nat) (w : Worker World Cnt Ev), s.workers[s.base + i]? = some w → w.idx = i
  unborn : ∀ (i : Nat) (cnt : Cnt), s.counters[i]? = some cnt → s.workers[s.base + i]? = none →
    fresh cnt
  born : ∀ (i : Nat) (cnt : Cnt) (w : Worker World Cnt Ev), s.counters[i]? = some cnt →
    s.workers[s.base + i]? = some w → w.pc.stage fresh added ready cnt
  keeps : ∀ (t : Nat) (w : Worker World Cnt Ev), s.workers[t]? = some w →
    KeepsStage added ready w.sched.benchmark
  todo : ∀ c ∈ s.todo, ∀ sch ∈ c.svec, KeepsStage added ready sch.benchmark
  running : ∀ c pc, s.pc = .running c pc → s.counters.length = c.svec.length ∧
    c.spawned s.base s.workers.length pc ∧ ∀ sch ∈ c.svec, KeepsStage added ready sch.benchmark
  returned : ∀ v ∈ s.returned, ∀ cnt ∈ v, ready cnt

theorem custody_inv_initial
    (hkeeps : ∀ c ∈ calls, ∀ sch ∈ c.svec, KeepsStage added ready sch.benchmark) :
    CustodyInv fresh added ready (initial calls world) where
  base_le := le_rfl
  old := by simp [initial]
  mine := by simp [initial]
  unborn := by simp [initial]
  born := by simp [initial]
  keeps := by simp [initial]
  todo := hkeeps
  running := by simp [initial]
  returned := by simp [initial]

/-- What a thread does to its counter takes it to the stage where the thread
    is afterwards. -/
theorem WorkerStep.stage (hstages : Stages api fresh added ready) (h : WorkerStep api t s s')
    (hkeeps : ∀ w, s.workers[t]? = some w → KeepsStage added ready w.sched.benchmark) :
    ∃ w pc op, s.workers[t]? = some w ∧ w.pc ≠ .done ∧
      s'.workers = s.workers.set t { w with pc := pc } ∧
      s'.counters = (applyAt w.idx op (s.world, s.counters)).2 ∧
      ∀ wc, w.pc.stage fresh added ready wc.2 → pc.stage fresh added ready (op wc).2 := by
  cases h with
  -- the counter is not touched
  | @lock w hw hp _ | @check_true w hw hp _ | @check_false w hw hp _ | @relock w hw hp _ _
  | @set_ready w hw hp | @unlock w hw hp | @notify w _ hw hp _ | @warmup_call w j hw hp _
  | @measure_call w hw hp | @warmup_end w j hw hp _ =>
    refine ⟨w, _, fun p => p, hw, by simp [hp], rfl, by simp [State.move], ?_⟩
    intro wc hwc
    rw [hp] at hwc
    exact hwc
  | @add w hw hp =>
    refine ⟨w, _, addEvents api w.sched, hw, by simp [hp], rfl, rfl, ?_⟩
    intro wc hwc
    rw [hp] at hwc
    exact hstages.add _ _ _ _ hwc
  | @warmup_return w j hw hp =>
    refine ⟨w, _, w.sched.benchmark, hw, by simp [hp], rfl, rfl, ?_⟩
    intro wc hwc
    rw [hp] at hwc
    exact (hkeeps w hw).added wc hwc
  | @reset w hw hp =>
    refine ⟨w, _, api.reset, hw, by simp [hp], rfl, rfl, ?_⟩
    intro wc hwc
    rw [hp] at hwc
    exact hstages.reset wc hwc
  | @measure_return w hw hp =>
    refine ⟨w, _, w.sched.benchmark, hw, by simp [hp], rfl, rfl, ?_⟩
    intro wc hwc
    rw [hp] at hwc
    exact (hkeeps w hw).ready wc hwc
  | @end_ w hw hp =>
    refine ⟨w, _, api.end_, hw, by simp [hp], rfl, rfl, ?_⟩
    intro wc hwc
    rw [hp] at hwc
    exact hstages.end_ wc hwc

/-- The entry that `applyAt` changes. -/
theorem applyAt_some {i j : Nat} {op : Op World Cnt} {wc : World × List Cnt} {cnt' : Cnt}
    (h : (applyAt i op wc).2[j]? = some cnt') :
    ∃ cnt, wc.2[j]? = some cnt ∧ cnt' = if j = i then (op (wc.1, cnt)).2 else cnt := by
  by_cases hji : j = i
  · subst hji
    unfold applyAt at h
    cases hat : wc.2[j]? with
    | none => simp [hat] at h
    | some cnt =>
      simp only [hat, List.getElem?_set_self (List.getElem?_eq_some_iff.mp hat).1] at h
      exact ⟨cnt, rfl, by rw [if_pos rfl, Option.some.inj h]⟩
  · rw [applyAt_getElem?_ne hji] at h
    exact ⟨cnt', h, by rw [if_neg hji]⟩

theorem applyAt_length (i : Nat) (op : Op World Cnt) (wc : World × List Cnt) :
    (applyAt i op wc).2.length = wc.2.length := by
  unfold applyAt
  split
  · exact List.length_set
  · rfl

theorem custody_inv_worker (hstages : Stages api fresh added ready)
    (hinv : CustodyInv fresh added ready s) (h : WorkerStep api t s s') :
    CustodyInv fresh added ready s' := by
  obtain ⟨-, -, -, -, hpc, -, -, htodo, hret, hb, -⟩ := h.frame
  obtain ⟨w, pc, op, hw, hnd, hs, hcnt, hstage⟩ := h.stage hstages (hinv.keeps t)
  have hlen : s'.workers.length = s.workers.length := by rw [hs, List.length_set]
  -- it is a thread of this call
  obtain ⟨i, rfl⟩ : ∃ i, t = s.base + i := by
    apply Nat.exists_eq_add_of_le
    by_contra hold
    exact hnd (hinv.old t (by omega) w hw)
  have hidx := hinv.mine i w hw
  refine ⟨by rw [hb, hlen]; exact hinv.base_le, ?_, ?_, ?_, ?_, ?_, htodo ▸ hinv.todo, ?_,
    hret ▸ hinv.returned⟩
  · intro u hu v hv
    rw [hb] at hu
    rw [hs, getElem?_moved hw, if_neg (by omega)] at hv
    exact hinv.old u hu v hv
  · intro j v hv
    rw [hb, hs, getElem?_moved hw] at hv
    split at hv
    · next hji =>
      obtain rfl := Option.some.inj hv
      exact hidx.trans (by omega)
    · exact hinv.mine j v hv
  · intro j cnt' hc hnone
    rw [hcnt] at hc
    rw [hb, hs, getElem?_moved hw] at hnone
    obtain ⟨cnt, hold, rfl⟩ := applyAt_some hc
    split at hnone
    · simp at hnone
    · next hji =>
      rw [if_neg (by omega)]
      exact hinv.unborn j cnt hold hnone
  · intro j cnt' v hc hv
    rw [hcnt] at hc
    rw [hb, hs, getElem?_moved hw] at hv
    obtain ⟨cnt, hold, rfl⟩ := applyAt_some hc
    split at hv
    · next hji =>
      obtain rfl := Option.some.inj hv
      obtain rfl : j = i := by omega
      rw [if_pos hidx.symm]
      exact hstage _ (hinv.born j cnt w hold hw)
    · next hji =>
      rw [if_neg (by omega)]
      exact hinv.born j cnt v hold hv
  · intro u v hv
    rw [hs, getElem?_moved hw] at hv
    split at hv
    · obtain rfl := Option.some.inj hv
      exact hinv.keeps _ w hw
    · exact hinv.keeps u v hv
  · intro c pc' hrun
    obtain ⟨hclen, hspawned, hkeeps⟩ := hinv.running c pc' (hpc ▸ hrun)
    rw [hcnt, applyAt_length, hb, hlen]
    exact ⟨hclen, hspawned, hkeeps⟩

/-- A scheduler step that touches neither threads nor counters. -/
theorem CustodyInv.same {pc pc' : CallPc} (hinv : CustodyInv fresh added ready s)
    (hp : s.pc = .running c pc) (hp' : s'.pc = .running c pc') (hw : s'.workers = s.workers)
    (hcnt : s'.counters = s.counters) (hb : s'.base = s.base) (hret : s'.returned = s.returned)
    (htodo : s'.todo = s.todo)
    (hspawned : c.spawned s.base s.workers.length pc → c.spawned s.base s.workers.length pc') :
    CustodyInv fresh added ready s' where
  base_le := by rw [hb, hw]; exact hinv.base_le
  old := by rw [hb, hw]; exact hinv.old
  mine := by rw [hb, hw]; exact hinv.mine
  unborn := by rw [hb, hw, hcnt]; exact hinv.unborn
  born := by rw [hb, hw, hcnt]; exact hinv.born
  keeps := by rw [hw]; exact hinv.keeps
  todo := by rw [htodo]; exact hinv.todo
  running := by
    intro d pcd hrun
    rw [hp'] at hrun
    obtain ⟨rfl, rfl⟩ := SchedPc.running.inj hrun
    obtain ⟨hclen, hspawn, hkeeps⟩ := hinv.running _ _ hp
    rw [hcnt, hb, hw]
    exact ⟨hclen, hspawned hspawn, hkeeps⟩
  returned := by rw [hret]; exact hinv.returned

/-- Once everything is spawned and done, all counters are ready. -/
theorem CustodyInv.all_ready {pc : CallPc} (hinv : CustodyInv fresh added ready s)
    (hp : s.pc = .running c pc) (hall : s.base + c.svec.length ≤ s.workers.length)
    (hdone : ∀ (t : Nat) (w : Worker World Cnt Ev), s.workers[t]? = some w → w.pc = .done)
    (i : Nat) (cnt : Cnt) (hcnt : s.counters[i]? = some cnt) : ready cnt := by
  have hlt := (List.getElem?_eq_some_iff.mp hcnt).1
  rw [(hinv.running c pc hp).1] at hlt
  obtain ⟨w, hw⟩ : ∃ w, s.workers[s.base + i]? = some w :=
    ⟨_, List.getElem?_eq_getElem (by omega)⟩
  have hstage := hinv.born i cnt w hcnt hw
  rw [hdone _ w hw] at hstage
  exact hstage

/-- A new call has fresh counters and no threads. -/
theorem custody_inv_start {rest : List (Call World Cnt Ev)}
    (hstages : Stages api fresh added ready) (hroll : RollInv s)
    (hinv : CustodyInv fresh added ready s) (hp : s.pc = .idle) (htodo : s.todo = c :: rest) :
    CustodyInv fresh added ready
      ({ s with
        todo := rest
        base := s.workers.length
        counters := List.replicate c.svec.length api.make }.goto c (.spawn 0)) where
  base_le := le_rfl
  old u _ w hw := hroll.settled (by simp [hp, SchedPc.settled]) u w hw
  mine i w hw := absurd (List.getElem?_eq_some_iff.mp hw).1 (by simp [State.goto])
  unborn i cnt hcnt _ := by
    simp only [State.goto] at hcnt
    rw [(List.mem_replicate.mp (List.mem_of_getElem? hcnt)).2]
    exact hstages.make
  born i cnt w _ hw := absurd (List.getElem?_eq_some_iff.mp hw).1 (by simp [State.goto])
  keeps := hinv.keeps
  todo d hd := hinv.todo d (htodo ▸ List.mem_cons_of_mem c hd)
  running d pcd hrun := by
    obtain ⟨rfl, rfl⟩ := SchedPc.running.inj hrun
    refine ⟨List.length_replicate, rfl, ?_⟩
    exact hinv.todo _ (htodo ▸ List.mem_cons_self)
  returned := hinv.returned

/-- The new thread gets a counter that is fresh. -/
theorem custody_inv_spawn {i : Nat} {sch : Schedule World Cnt Ev}
    (hstages : Stages api fresh added ready) (hinv : CustodyInv fresh added ready s)
    (hp : s.pc = .running c (.spawn i)) (hsch : c.svec[i]? = some sch) :
    CustodyInv fresh added ready ((s.spawn api c i sch).goto c (.pin i)) := by
  obtain ⟨hclen, hspawned, hkeeps⟩ := hinv.running c _ hp
  have hnum : s.workers.length = s.base + i := hspawned
  have hcnt : ∀ (j : Nat) (cnt : Cnt), (s.counters.modify i (api.set_label sch.label))[j]? =
      some cnt → ∃ old, s.counters[j]? = some old ∧
        cnt = if j = i then api.set_label sch.label old else old := by
    intro j cnt h
    rw [List.getElem?_modify] at h
    obtain ⟨old, hold, heq⟩ := Option.map_eq_some_iff.mp h
    refine ⟨old, hold, ?_⟩
    rw [← heq]
    by_cases hji : i = j
    · simp [hji]
    · simp [hji, Ne.symm hji]
  refine ⟨?_, ?_, ?_, ?_, ?_, ?_, hinv.todo, ?_, hinv.returned⟩
  · simp only [State.goto, State.spawn, List.length_append, List.length_singleton]
    omega
  · intro u hu w hw
    simp only [State.goto, State.spawn] at hu hw
    rw [List.getElem?_append_left (by omega)] at hw
    exact hinv.old u hu w hw
  · intro j w hw
    simp only [State.goto, State.spawn, List.getElem?_append] at hw
    split at hw
    · exact hinv.mine j w hw
    · have hlt := (List.getElem?_eq_some_iff.mp hw).1
      obtain rfl := List.mem_singleton.mp (List.mem_of_getElem? hw)
      simp only [List.length_singleton] at hlt ⊢
      omega
  · intro j cnt h hnone
    simp only [State.goto, State.spawn] at h hnone
    rw [List.getElem?_eq_none_iff, List.length_append, List.length_singleton] at hnone
    obtain ⟨old, hold, rfl⟩ := hcnt j cnt h
    rw [if_neg (by omega)]
    exact hinv.unborn j old hold (List.getElem?_eq_none (by omega))
  · intro j cnt w h hw
    simp only [State.goto, State.spawn] at h hw
    obtain ⟨old, hold, rfl⟩ := hcnt j cnt h
    rw [List.getElem?_append] at hw
    split at hw
    · rw [if_neg (by omega)]
      exact hinv.born j old w hold hw
    · -- the new thread has not started
      have hlt := (List.getElem?_eq_some_iff.mp hw).1
      obtain rfl := List.mem_singleton.mp (List.mem_of_getElem? hw)
      simp only [List.length_singleton] at hlt
      rw [if_pos (by omega)]
      exact hstages.set_label _ _ (hinv.unborn j old hold (List.getElem?_eq_none (by omega)))
  · intro u w hw
    simp only [State.goto, State.spawn, List.getElem?_append] at hw
    split at hw
    · exact hinv.keeps u w hw
    · obtain rfl := List.mem_singleton.mp (List.mem_of_getElem? hw)
      exact hkeeps sch (List.mem_of_getElem? hsch)
  · intro d pcd hrun
    obtain ⟨rfl, rfl⟩ := SchedPc.running.inj hrun
    refine ⟨?_, ?_, hkeeps⟩
    · simpa [State.goto, State.spawn] using hclen
    · simp only [Call.spawned, State.goto, State.spawn, List.length_append,
        List.length_singleton]
      omega

theorem custody_inv_scheduler (hstages : Stages api fresh added ready) (hroll : RollInv s)
    (hinv : CustodyInv fresh added ready s) (h : SchedulerStep api s s') :
    CustodyInv fresh added ready s' := by
  cases h with
  | start_call hp htodo => exact custody_inv_start hstages hroll hinv hp htodo
  | spawn hp hsch => exact custody_inv_spawn hstages hinv hp hsch
  | @join c i k t w hp ht hw hd =>
    -- joining changes no program counter
    have hsame : ∀ (u : Nat) (v : Worker World Cnt Ev),
        (s.workers.set t { w with joined := true })[u]? = some v →
        ∃ v', s.workers[u]? = some v' ∧ v'.pc = v.pc ∧ v'.idx = v.idx ∧ v'.sched = v.sched := by
      intro u v hv
      rw [getElem?_moved hw] at hv
      split at hv
      · next hu =>
        obtain rfl := Option.some.inj hv
        exact ⟨w, hu ▸ hw, rfl, rfl, rfl⟩
      · exact ⟨v, hv, rfl, rfl, rfl⟩
    have hlen : (s.workers.set t { w with joined := true }).length = s.workers.length :=
      List.length_set
    refine ⟨hlen ▸ hinv.base_le, ?_, ?_, ?_, ?_, ?_, hinv.todo, ?_, hinv.returned⟩
    · intro u hu v hv
      obtain ⟨v', hv', hpc, -⟩ := hsame u v hv
      exact hpc ▸ hinv.old u hu v' hv'
    · intro j v hv
      obtain ⟨v', hv', -, hidx, -⟩ := hsame _ v hv
      exact hidx ▸ hinv.mine j v' hv'
    · intro j cnt hcnt hnone
      apply hinv.unborn j cnt hcnt
      rw [List.getElem?_eq_none_iff] at hnone ⊢
      exact hlen ▸ hnone
    · intro j cnt v hcnt hv
      obtain ⟨v', hv', hpc, -⟩ := hsame _ v hv
      exact hpc ▸ hinv.born j cnt v' hcnt hv'
    · intro u v hv
      obtain ⟨v', hv', -, -, hsch⟩ := hsame u v hv
      exact hsch ▸ hinv.keeps u v' hv'
    · intro d pcd hrun
      obtain ⟨rfl, rfl⟩ := SchedPc.running.inj hrun
      obtain ⟨hclen, hspawned, hkeeps⟩ := hinv.running _ _ hp
      simp only [State.goto, hlen]
      exact ⟨hclen, hspawned, hkeeps⟩
  | @stats c k hp hk =>
    -- all threads are done, so the counter is ready
    have hdone := hroll.settled (by simp [hp, SchedPc.settled])
    obtain ⟨hclen, hspawned, hkeeps⟩ := hinv.running c _ hp
    refine ⟨hinv.base_le, hinv.old, hinv.mine, ?_, ?_, hinv.keeps, hinv.todo, ?_, hinv.returned⟩
    · intro j cnt' hcnt hnone
      obtain ⟨cnt, hold, -⟩ := applyAt_some hcnt
      have hlt := (List.getElem?_eq_some_iff.mp hold).1
      have hall : s.base + c.svec.length ≤ s.workers.length := hspawned
      rw [List.getElem?_eq_none_iff] at hnone
      simp only [State.goto, State.onCounter] at hlt hnone
      omega
    · intro j cnt' w hcnt hw
      obtain ⟨cnt, hold, rfl⟩ := applyAt_some hcnt
      have hready := hinv.all_ready hp hspawned hdone j cnt hold
      have hpc := hdone _ w hw
      rw [hpc]
      split
      · exact hstages.stats _ hready
      · exact hready
    · intro d pcd hrun
      obtain ⟨rfl, rfl⟩ := SchedPc.running.inj hrun
      exact ⟨(applyAt_length _ _ _).trans hclen, hspawned, hkeeps⟩
  | @reset_pause c hp =>
    have hdone := hroll.settled (by simp [hp, SchedPc.settled])
    obtain ⟨-, hspawned, -⟩ := hinv.running c _ hp
    refine ⟨hinv.base_le, hinv.old, hinv.mine, hinv.unborn, hinv.born, hinv.keeps, hinv.todo,
      by simp, ?_⟩
    intro v hv cnt hcnt
    simp only [List.mem_append, List.mem_singleton] at hv
    rcases hv with hv | rfl
    · exact hinv.returned v hv cnt hcnt
    · obtain ⟨i, hi, heq⟩ := List.getElem_of_mem hcnt
      apply hinv.all_ready hp hspawned hdone i
      rw [List.getElem?_eq_getElem hi, heq]
  | pin_stale hp _ | join_stale hp _ =>
    exact ⟨hinv.base_le, hinv.old, hinv.mine, hinv.unborn, hinv.born, hinv.keeps, hinv.todo,
      by simp, hinv.returned⟩
  | @pin c i sch t hp _ _ =>
    refine hinv.same hp rfl rfl rfl rfl rfl rfl ?_
    cases hk : c.kind with
    | schedule =>
      simp only [Call.spawned, Call.afterPin, hk]
      omega
    | priority =>
      simp only [Call.spawned, Call.afterPin, hk]
      omega
  | @loop_end c i hp _ =>
    refine hinv.same hp rfl rfl rfl rfl rfl rfl ?_
    cases hk : c.kind with
    | schedule =>
      simp only [Call.spawned, Call.afterLoop, hk]
      omega
    | priority =>
      simp only [Call.spawned, Call.afterLoop, hk]
      omega
  | @join_end c i k hp _ =>
    refine hinv.same hp rfl rfl rfl rfl rfl rfl ?_
    cases hk : c.kind <;> simp [Call.spawned, Call.afterJoin, hk]
  | clear hp =>
    exact hinv.same hp rfl rfl rfl rfl rfl rfl fun h => h.trans (by omega)
  | notify_all hp _ | notify_one hp _ _ | lock hp _ | set_pause hp | unlock hp | lock_ready hp _
  | check_ready_true hp _ | check_ready_false hp _ | relock hp _ _ | unlock_ready hp
  | stats_end hp _ | reset_ready hp =>
    exact hinv.same hp rfl rfl rfl rfl rfl rfl id

theorem custody_inv (hstages : Stages api fresh added ready)
    (hkeeps : ∀ c ∈ calls, ∀ sch ∈ c.svec, KeepsStage added ready sch.benchmark)
    (h : Reachable (harness api calls world) s) : CustodyInv fresh added ready s := by
  refine h.invariant_of (fun s hr => roll_inv hr) (fun s h0 => h0 ▸ custody_inv_initial hkeeps) ?_
  intro s a s' hroll hinv hstep
  cases hstep with
  | scheduler h => exact custody_inv_scheduler hstages hroll hinv h
  | worker h => exact custody_inv_worker hstages hinv h
  | spurious _ =>
    exact ⟨hinv.base_le, hinv.old, hinv.mine, hinv.unborn, hinv.born, hinv.keeps, hinv.todo,
      hinv.running, hinv.returned⟩

/-- **Ready to be printed**: a counter that is handed to `stats`. -/
theorem stats_ready (hstages : Stages api fresh added ready)
    (hkeeps : ∀ c ∈ calls, ∀ sch ∈ c.svec, KeepsStage added ready sch.benchmark)
    (h : Reachable (harness api calls world) s) {k : Nat} (hp : s.pc = .running c (.stats k))
    (hk : k < c.svec.length) : ∃ cnt, s.counters[k]? = some cnt ∧ ready cnt := by
  have hinv := custody_inv hstages hkeeps h
  obtain ⟨hlen, hspawned, -⟩ := hinv.running c _ hp
  obtain ⟨cnt, hcnt⟩ : ∃ cnt, s.counters[k]? = some cnt :=
    ⟨_, List.getElem?_eq_getElem (by omega)⟩
  refine ⟨cnt, hcnt, hinv.all_ready hp hspawned ?_ k cnt hcnt⟩
  exact (roll_inv h).settled (by simp [hp, SchedPc.settled])

end

end Pcnt
