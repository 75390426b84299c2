import Microrev.Harness.Series

/-! # Serialised Execution

    What `counters_with_schedule` computes on a fresh object: the mutex that
    a worker holds from its release to the end of its benchmark makes every
    run equal to a sequential one, in which the workers run in some order and
    the counters are printed afterwards in list order. Which order is up to
    the lock.
-/

namespace Pcnt

open Lts

section
variable {World Cnt Ev : Type} {api : CounterApi World Cnt Ev}
variable {s s' : State World Cnt Ev} {c : Call World Cnt Ev} {t : Nat} {world : World}

/-! ### The Sequential Specification -/

/-- `counter_thread_fn` on entry `i` and its counter. -/
def threadOp (api : CounterApi World Cnt Ev) (c : Call World Cnt Ev) (wc : World × List Cnt)
    (i : Nat) : World × List Cnt :=
  match c.svec[i]? with
  | some sch => applyAt i (counter_thread_fn api c.warmup sch) wc
  | none => wc

/-- The entries in the given order. -/
def serial (api : CounterApi World Cnt Ev) (c : Call World Cnt Ev) (order : List Nat)
    (world : World) : World × List Cnt :=
  order.foldl (threadOp api c) (world, c.svec.map (freshCounter api))

/-- `stats()` of the first `k` counters. -/
def statsUpTo (api : CounterApi World Cnt Ev) (k : Nat) (wc : World × List Cnt) :
    World × List Cnt :=
  (List.range k).foldl (fun wc i => applyAt i api.stats wc) wc

theorem serial_snoc (order : List Nat) (i : Nat) :
    serial api c (order ++ [i]) world = threadOp api c (serial api c order world) i :=
  List.foldl_append

theorem statsUpTo_succ (k : Nat) (wc : World × List Cnt) :
    statsUpTo api (k + 1) wc = applyAt k api.stats (statsUpTo api k wc) := by
  unfold statsUpTo
  rw [List.range_succ, List.foldl_append]
  rfl

theorem applyAt_applyAt (i : Nat) (f g : Op World Cnt) (wc : World × List Cnt) :
    applyAt i g (applyAt i f wc) = applyAt i (g ∘ f) wc := by
  unfold applyAt
  cases h : wc.2[i]? with
  | none => simp [h]
  | some x =>
    obtain ⟨hlt, -⟩ := List.getElem?_eq_some_iff.mp h
    simp [hlt]

/-! ### Phases of a Worker -/

/-- Before, in and after its work on the counter. -/
inductive Phase where
  | waiting
  | active
  | finished
  deriving DecidableEq

def WorkerPc.phase : WorkerPc → Phase
  | .start | .check | .asleep | .add => .waiting
  | .warmup _ | .in_warmup _ | .reset | .measure | .in_measure | .end_ => .active
  | .set_ready | .unlock | .notify | .done => .finished

/-- It has not seen `pause = false`. -/
def WorkerPc.gated : WorkerPc → Bool
  | .start | .check | .asleep => true
  | _ => false

theorem active_holdsLock {pc : WorkerPc} (h : pc.phase = .active) : pc.holdsLock = true := by
  cases pc <;> simp_all [WorkerPc.phase, WorkerPc.holdsLock]

theorem gated_waiting {pc : WorkerPc} (h : pc.gated = true) : pc.phase = .waiting := by
  cases pc <;> simp_all [WorkerPc.phase, WorkerPc.gated]

/-- What a worker step means for the phase: it stays in a phase without work,
    and nothing changes, or it works, with the mutex. -/
theorem WorkerStep.phase_step (h : WorkerStep api t s s') :
    ∃ w pc', s.workers[t]? = some w ∧ s'.workers = s.workers.set t { w with pc := pc' } ∧
      w.pc ≠ .done ∧
      ((pc'.phase = w.pc.phase ∧ w.pc.phase ≠ .active ∧ s'.world = s.world ∧
          s'.counters = s.counters ∧ (w.pc.gated = true → s.pause = true → pc'.gated = true)) ∨
        (w.pc.gated = false ∧ w.pc.holdsLock = true ∧ w.pc.phase ≠ .finished ∧
          pc'.phase ≠ .waiting ∧
          (w.pc.inLoop w.warmup → ∃ op, Progress api w pc' s s' op))) := by
  obtain ⟨v, pc', hv, hnd, hset, hprog⟩ := h.progress
  -- the step lemma for progress speaks of the same worker and place
  have hsame : ∀ w pc, s.workers[t]? = some w → s'.workers = s.workers.set t { w with pc := pc } →
      w = v ∧ pc = pc' := by
    intro w pc hw hs
    obtain rfl := Option.some.inj (hw.symm.trans hv)
    have hget := congrArg (fun l => l[t]?) (hs.symm.trans hset)
    simp only [getElem?_moved hw, if_true, Option.some.injEq, Worker.mk.injEq] at hget
    exact ⟨rfl, hget.2.2.2.2.1⟩
  refine ⟨v, pc', hv, hset, hnd, ?_⟩
  cases h with
  -- a step without work keeps the phase; passing the gate needs `pause = false`
  | @check_true w hw hp hpause =>
    obtain ⟨rfl, rfl⟩ := hsame w _ hw rfl
    left
    simp [hp, hpause, WorkerPc.phase, State.move]
  | @lock w hw hp _ | @check_false w hw hp _ | @relock w hw hp _ _
  | @set_ready w hw hp | @unlock w hw hp | @notify w _ hw hp _ =>
    obtain ⟨rfl, rfl⟩ := hsame w _ hw rfl
    left
    simp [hp, WorkerPc.phase, WorkerPc.gated, State.move]
  -- a step with work is made with the mutex held
  | @add w hw hp | @warmup_call w j hw hp _ | @warmup_return w j hw hp | @warmup_end w j hw hp _
  | @reset w hw hp | @measure_call w hw hp | @measure_return w hw hp | @end_ w hw hp =>
    obtain ⟨rfl, rfl⟩ := hsame w _ hw rfl
    refine .inr ⟨?_, ?_, ?_, ?_, hprog⟩ <;>
      simp [hp, WorkerPc.gated, WorkerPc.holdsLock, WorkerPc.phase]

/-! ### The Invariant -/

/-- The workers are not released yet. -/
def CallPc.closed : CallPc → Bool
  | .spawn _ | .pin _ | .lock _ | .set_pause _ => true
  | _ => false

/-- How many of `n` counters are printed. -/
def CallPc.printed (n : Nat) : CallPc → Nat
  | .stats k => k
  | .reset_ready | .reset_pause => n
  | _ => 0

/-- Before the release nothing has happened, except that the counters of the
    spawned threads have their labels. -/
structure Unreleased (api : CounterApi World Cnt Ev) (c : Call World Cnt Ev) (world : World)
    (born : Nat) (s : State World Cnt Ev) : Prop where
  world : s.world = world
  counters : s.counters = (c.svec.take born).map (freshCounter api) ++
    List.replicate (c.svec.length - born) api.make
  gated : ∀ (t : Nat) (w : Worker World Cnt Ev), s.workers[t]? = some w → w.pc.gated = true

/-- After the release the finished workers have run in some order, and at
    most one more is at work. -/
structure Serialised (api : CounterApi World Cnt Ev) (c : Call World Cnt Ev) (world : World)
    (k : Nat) (order : List Nat) (s : State World Cnt Ev) : Prop where
  nodup : order.Nodup
  mem : ∀ i, i ∈ order ↔ ∃ w, s.workers[i]? = some w ∧ w.pc.phase = .finished
  quiet : (∀ (t : Nat) (w : Worker World Cnt Ev),
      s.workers[t]? = some w → w.pc.phase ≠ .active) →
    (s.world, s.counters) = statsUpTo api k (serial api c order world)
  active : ∀ (t : Nat) (w : Worker World Cnt Ev),
    s.workers[t]? = some w → w.pc.phase = .active →
    w.pc.inLoop w.warmup ∧ (s.world, s.counters) =
      applyAt t (w.pc.progress api w.warmup w.sched) (serial api c order world)

/-- The run of a single parallel call is where a sequential one is. -/
structure SerialInv (api : CounterApi World Cnt Ev) (c : Call World Cnt Ev) (world : World)
    (s : State World Cnt Ev) : Prop where
  start : s.todo ≠ [] → s.pc = .idle ∧ s.todo = [c] ∧ s.world = world ∧ s.pause = true ∧
    s.workers = [] ∧ s.returned = []
  running : ∀ d pc, s.pc = .running d pc → d = c ∧ s.todo = [] ∧ s.returned = [] ∧ s.base = 0 ∧
    s.pause = pc.closed ∧
    (pc.closed = true → Unreleased api c world (c.profile pc).born s) ∧
    (pc.closed = false → ∃ order, Serialised api c world (pc.printed c.svec.length) order s)
  returned : s.pc = .idle → s.todo = [] → ∃ cs order, s.returned = [cs] ∧
    order.Perm (List.range c.svec.length) ∧
    (s.world, cs) = statsUpTo api c.svec.length (serial api c order world)

theorem waiting_progress {pc : WorkerPc} (h : pc.phase = .waiting) (warmup : Nat)
    (sch : Schedule World Cnt Ev) :
    pc.progress api warmup sch = (fun wc => wc) ∧ pc.inLoop warmup := by
  cases pc <;> first | exact ⟨rfl, trivial⟩ | simp [WorkerPc.phase] at h

theorem finished_progress {pc : WorkerPc} (h : pc.phase = .finished) (warmup : Nat)
    (sch : Schedule World Cnt Ev) :
    pc.progress api warmup sch = counter_thread_fn api warmup sch := by
  cases pc <;> first | rfl | simp [WorkerPc.phase] at h

/-- Where a worker is and what it works on. -/
def Worker.view (w : Worker World Cnt Ev) : WorkerPc × Schedule World Cnt Ev × Nat :=
  (w.pc, w.sched, w.warmup)

/-- Workers of the same phases, the active ones at the same work. -/
theorem Serialised.of_phases {k : Nat} {order : List Nat} (h : Serialised api c world k order s)
    (hget : ∀ (u : Nat) (v : Worker World Cnt Ev), s'.workers[u]? = some v →
      ∃ v', s.workers[u]? = some v' ∧ v'.pc.phase = v.pc.phase ∧
        (v.pc.phase = .active → v'.view = v.view))
    (hput : ∀ (u : Nat) (v : Worker World Cnt Ev), s.workers[u]? = some v →
      ∃ v', s'.workers[u]? = some v' ∧ v'.pc.phase = v.pc.phase)
    (hworld : s'.world = s.world) (hcnt : s'.counters = s.counters) :
    Serialised api c world k order s' := by
  refine ⟨h.nodup, ?_, ?_, ?_⟩
  · intro i
    rw [h.mem]
    constructor
    · rintro ⟨v, hv, hf⟩
      obtain ⟨v', hv', hp⟩ := hput i v hv
      exact ⟨v', hv', hp.trans hf⟩
    · rintro ⟨v, hv, hf⟩
      obtain ⟨v', hv', hp, -⟩ := hget i v hv
      exact ⟨v', hv', hp.trans hf⟩
  · intro hq
    rw [hworld, hcnt]
    apply h.quiet
    intro u v hv
    obtain ⟨v', hv', hp⟩ := hput u v hv
    rw [← hp]
    exact hq u v' hv'
  · intro u v hv ha
    obtain ⟨v', hv', hp, hview⟩ := hget u v hv
    have hsame := hview ha
    simp only [Worker.view, Prod.mk.injEq] at hsame
    obtain ⟨hpc, hsch, hwarm⟩ := hsame
    rw [hworld, hcnt, ← hpc, ← hsch, ← hwarm]
    exact h.active u v' hv' (hp.trans ha)

/-- A worker that moves without working. -/
theorem Serialised.stay {k : Nat} {order : List Nat} {w : Worker World Cnt Ev} {pc' : WorkerPc}
    (h : Serialised api c world k order s) (hw : s.workers[t]? = some w)
    (hs : s'.workers = s.workers.set t { w with pc := pc' }) (hphase : pc'.phase = w.pc.phase)
    (hna : w.pc.phase ≠ .active) (hworld : s'.world = s.world)
    (hcnt : s'.counters = s.counters) : Serialised api c world k order s' := by
  refine h.of_phases ?_ ?_ hworld hcnt
  · intro u v hv
    rw [hs, getElem?_moved hw] at hv
    split at hv
    · next hu =>
      obtain rfl := Option.some.inj hv
      exact ⟨w, hu ▸ hw, hphase.symm, fun ha => absurd (hphase ▸ ha) hna⟩
    · exact ⟨v, hv, rfl, fun _ => rfl⟩
  · intro u v hv
    rw [hs, getElem?_moved hw]
    by_cases hu : u = t
    · obtain rfl := Option.some.inj ((hu ▸ hv).symm.trans hw)
      exact ⟨_, if_pos hu, hphase⟩
    · exact ⟨v, by rw [if_neg hu, hv], rfl⟩

/-- A worker that works, alone. -/
theorem Serialised.work {order : List Nat} {w : Worker World Cnt Ev} {pc' : WorkerPc}
    (h : Serialised api c world 0 order s) (hw : s.workers[t]? = some w)
    (hs : s'.workers = s.workers.set t { w with pc := pc' })
    (halone : ∀ (u : Nat) (v : Worker World Cnt Ev),
      s.workers[u]? = some v → v.pc.phase = .active → u = t)
    (hnf : w.pc.phase ≠ .finished) (hnw : pc'.phase ≠ .waiting) (hidx : w.idx = t)
    (hsch : c.svec[t]? = some w.sched) (hwarm : w.warmup = c.warmup)
    (hprog : w.pc.inLoop w.warmup → ∃ op, Progress api w pc' s s' op) :
    ∃ order', Serialised api c world 0 order' s' := by
  -- where the worker is before the step, waiting or active
  have hbefore : w.pc.inLoop w.warmup ∧ (s.world, s.counters) =
      applyAt t (w.pc.progress api w.warmup w.sched) (serial api c order world) := by
    cases hp : w.pc.phase with
    | waiting =>
      obtain ⟨hid, hin⟩ := waiting_progress hp w.warmup w.sched
      refine ⟨hin, ?_⟩
      rw [hid, applyAt_id]
      apply h.quiet
      intro u v hv ha
      obtain rfl := halone u v hv ha
      obtain rfl := Option.some.inj (hv.symm.trans hw)
      rw [hp] at ha
      contradiction
    | active => exact h.active t w hw hp
    | finished => exact absurd hp hnf
  -- the step applies one more operation to the counter
  obtain ⟨hin, hvalue⟩ := hbefore
  obtain ⟨op, hin', hadv, heff, -, -⟩ := hprog hin
  have hvalue' : (s'.world, s'.counters) =
      applyAt t (pc'.progress api w.warmup w.sched) (serial api c order world) := by
    rw [heff, hidx, hvalue, applyAt_applyAt]
    congr 1
    funext wc
    exact (hadv wc).symm
  have hself : s'.workers[t]? = some { w with pc := pc' } := by
    rw [hs, getElem?_moved hw, if_pos rfl]
  have hothers : ∀ u, u ≠ t → s'.workers[u]? = s.workers[u]? := by
    intro u hu
    rw [hs, getElem?_moved hw, if_neg hu]
  have hnt : t ∉ order := by
    intro hmem
    obtain ⟨v, hv, hf⟩ := (h.mem t).mp hmem
    obtain rfl := Option.some.inj (hv.symm.trans hw)
    exact hnf hf
  have hmem : ∀ i, i ≠ t → (i ∈ order ↔ ∃ v, s'.workers[i]? = some v ∧
      v.pc.phase = .finished) := by
    intro i hi
    rw [h.mem, hothers i hi]
  cases hp : pc'.phase with
  | waiting => exact absurd hp hnw
  | active =>
    -- still at work: the order does not change
    refine ⟨order, h.nodup, ?_, fun hq => absurd hp (hq t _ hself), ?_⟩
    · intro i
      by_cases hi : i = t
      · subst hi
        simp [hnt, hself, hp]
      · exact hmem i hi
    · intro u v hv ha
      by_cases hu : u = t
      · subst hu
        obtain rfl := Option.some.inj (hv.symm.trans hself)
        exact ⟨hin', hvalue'⟩
      · exact absurd (halone u v (hothers u hu ▸ hv) ha) hu
  | finished =>
    -- it has finished: it is the next one in the order
    refine ⟨order ++ [t], ?_, ?_, ?_, ?_⟩
    · exact List.nodup_append.mpr ⟨h.nodup, List.nodup_singleton t,
        fun a ha b hb hab => hnt (List.mem_singleton.mp hb ▸ hab ▸ ha)⟩
    · intro i
      by_cases hi : i = t
      · subst hi
        simp [hself, hp]
      · rw [List.mem_append, hmem i hi]
        simp [hi]
    · intro _
      rw [hvalue', finished_progress hp, serial_snoc, threadOp, hsch, hwarm]
      rfl
    · intro u v hv ha
      by_cases hu : u = t
      · subst hu
        obtain rfl := Option.some.inj (hv.symm.trans hself)
        rw [hp] at ha
        contradiction
      · exact absurd (halone u v (hothers u hu ▸ hv) ha) hu

theorem serial_inv_worker (hk : c.kind = .schedule) (hthr : ThreadInv s) (hlock : LockInv s)
    (hinv : SerialInv api c world s) (h : WorkerStep api t s s') : SerialInv api c world s' := by
  obtain ⟨-, -, -, -, hpc, -, -, htodo, hret, hbase, hpause⟩ := h.frame
  obtain ⟨w, pc', hw, hs, hnd, hstep⟩ := h.phase_step
  refine ⟨?_, ?_, ?_⟩
  · intro hne
    -- there are no workers before the call
    obtain ⟨-, -, -, -, hworkers, -⟩ := hinv.start (htodo ▸ hne)
    simp [hworkers] at hw
  · intro d pc hrun
    rw [hpc] at hrun
    obtain ⟨rfl, ht, hr, hb, hp, hclosed, hopen⟩ := hinv.running d pc hrun
    refine ⟨rfl, htodo.trans ht, hret.trans hr, hbase.trans hb, hpause.trans hp,
      fun hc => ?_, fun hc => ?_⟩
    · obtain ⟨hworld, hcnt, hgated⟩ := hclosed hc
      rcases hstep with ⟨-, -, hw', hc', hg⟩ | ⟨hng, -⟩
      · refine ⟨hw'.trans hworld, hc'.trans hcnt, ?_⟩
        intro u v hv
        rw [hs, getElem?_moved hw] at hv
        split at hv
        · obtain rfl := Option.some.inj hv
          exact hg (hgated t w hw) (hp.trans hc)
        · exact hgated u v hv
      · rw [hgated t w hw] at hng
        contradiction
    · obtain ⟨order, hser⟩ := hopen hc
      rcases hstep with ⟨hphase, hna, hw', hc', -⟩ | ⟨-, hholds, hnf, hnw, hprog⟩
      · exact ⟨order, hser.stay hw hs hphase hna hw' hc'⟩
      · -- a worker that still works is not joined, so nothing is printed yet
        obtain ⟨hcrew, -⟩ := hthr.running d pc hrun
        have hundone := hthr.undone hrun hw hnd
        rw [hb, Nat.zero_add, Nat.zero_add] at hundone
        have hzero : pc.printed d.svec.length = 0 := by
          simp only [Call.profile, hk] at hundone
          cases pc <;> simp only [scheduleProfile, CallPc.printed] at hundone ⊢ <;> omega
        rw [hzero] at hser ⊢
        obtain ⟨w', hget, -, hidx, hsch, hwarm, -⟩ := hcrew.mine t hundone.2
        rw [hb, Nat.zero_add, hw] at hget
        obtain rfl := Option.some.inj hget
        -- nobody else is at work, because that needs the mutex
        refine hser.work hw hs ?_ hnf hnw hidx hsch hwarm hprog
        intro u v hv ha
        have hown : s.holds (.worker u) := ⟨v, hv, active_holdsLock ha⟩
        exact Actor.worker.inj (Monitor.Owned.unique hlock hown ⟨w, hw, hholds⟩)
  · intro hidle _
    rw [hpc] at hidle
    exact absurd (hthr.joined_done t w hw ((hthr.idle hidle).1 t w hw)) hnd

/-- Only what the scheduler does not touch matters. -/
theorem Serialised.congr {k : Nat} {order : List Nat} (h : Serialised api c world k order s)
    (hview : ∀ u : Nat, (s'.workers[u]?).map Worker.view = (s.workers[u]?).map Worker.view)
    (hworld : s'.world = s.world) (hcnt : s'.counters = s.counters) :
    Serialised api c world k order s' := by
  refine h.of_phases ?_ ?_ hworld hcnt
  · intro u v hv
    have hu := hview u
    rw [hv] at hu
    obtain ⟨v', hv', hsame⟩ := Option.map_eq_some_iff.mp hu.symm
    have hpc : v'.pc = v.pc := congrArg Prod.fst hsame
    exact ⟨v', hv', by rw [hpc], fun _ => hsame⟩
  · intro u v hv
    have hu := hview u
    rw [hv] at hu
    obtain ⟨v', hv', hsame⟩ := Option.map_eq_some_iff.mp hu
    have hpc : v'.pc = v.pc := congrArg Prod.fst hsame
    exact ⟨v', hv', by rw [hpc]⟩

/-- A scheduler step inside the call. -/
theorem SerialInv.inside {pc pc' : CallPc} (hinv : SerialInv api c world s)
    (hp : s.pc = .running c pc) (hp' : s'.pc = .running c pc') (htodo : s'.todo = s.todo)
    (hret : s'.returned = s.returned) (hbase : s'.base = s.base)
    (hpause : s.pause = pc.closed → s'.pause = pc'.closed)
    (hclosed : pc'.closed = true → pc.closed = true ∧
      (Unreleased api c world (c.profile pc).born s →
        Unreleased api c world (c.profile pc').born s'))
    (hopen : pc'.closed = false →
      (pc.closed = true → Unreleased api c world (c.profile pc).born s) →
      (pc.closed = false → ∃ order, Serialised api c world (pc.printed c.svec.length) order s) →
      ∃ order, Serialised api c world (pc'.printed c.svec.length) order s') :
    SerialInv api c world s' := by
  obtain ⟨-, ht, hr, hb, hpa, hcl, hop⟩ := hinv.running c pc hp
  refine ⟨fun hne => absurd (htodo.trans ht) hne, ?_, by simp [hp']⟩
  intro d pcd hrun
  rw [hp'] at hrun
  obtain ⟨rfl, rfl⟩ := SchedPc.running.inj hrun
  exact ⟨rfl, htodo.trans ht, hret.trans hr, hbase.trans hb, hpause hpa,
    fun hc => (hclosed hc).2 (hcl (hclosed hc).1), fun hc => hopen hc hcl hop⟩

/-- A scheduler step inside the call that leaves everything alone. -/
theorem SerialInv.same {pc pc' : CallPc} (hinv : SerialInv api c world s)
    (hp : s.pc = .running c pc) (hp' : s'.pc = .running c pc') (htodo : s'.todo = s.todo)
    (hret : s'.returned = s.returned) (hbase : s'.base = s.base) (hworld : s'.world = s.world)
    (hcnt : s'.counters = s.counters) (hpause : s'.pause = s.pause)
    (hview : ∀ u : Nat, (s'.workers[u]?).map Worker.view = (s.workers[u]?).map Worker.view)
    (hclosed : pc'.closed = pc.closed)
    (hborn : pc.closed = true → (c.profile pc').born = (c.profile pc).born)
    (hprinted : pc'.printed c.svec.length = pc.printed c.svec.length) :
    SerialInv api c world s' := by
  refine hinv.inside hp hp' htodo hret hbase (fun h => by rw [hpause, h, hclosed])
    (fun hc => ⟨hclosed ▸ hc, fun h => ?_⟩) (fun hc _ hop => ?_)
  · rw [hborn (hclosed ▸ hc)]
    refine ⟨hworld.trans h.world, hcnt.trans h.counters, ?_⟩
    intro u v hv
    have hu := hview u
    rw [hv] at hu
    obtain ⟨v', hv', hpv⟩ := Option.map_eq_some_iff.mp hu.symm
    rw [← show v'.pc = v.pc from congrArg Prod.fst hpv]
    exact h.gated u v' hv'
  · obtain ⟨order, hser⟩ := hop (hclosed ▸ hc)
    exact ⟨order, hprinted ▸ hser.congr hview hworld hcnt⟩

/-- When all threads are joined, nobody is at work. -/
theorem ThreadInv.quiet {pc : CallPc} (hinv : ThreadInv s) (hp : s.pc = .running c pc)
    (hall : (c.profile pc).joined = (c.profile pc).born) {w : Worker World Cnt Ev}
    (hw : s.workers[t]? = some w) : w.pc = .done := by
  obtain ⟨hcrew, -⟩ := hinv.running c pc hp
  exact hinv.joined_done t w hw (hcrew.all_joined hall t w hw)

/-- The last step: every entry has run, and every counter is printed. -/
theorem Serialised.complete {order : List Nat} (hk : c.kind = .schedule) (hthr : ThreadInv s)
    (hp : s.pc = .running c .reset_pause) (hbase : s.base = 0)
    (h : Serialised api c world c.svec.length order s) :
    order.Perm (List.range c.svec.length) ∧
      (s.world, s.counters) = statsUpTo api c.svec.length (serial api c order world) := by
  have hprofile : c.profile .reset_pause = ⟨0, c.svec.length, c.svec.length⟩ := by
    simp [Call.profile, hk, scheduleProfile]
  have hdone : ∀ (t : Nat) (w : Worker World Cnt Ev), s.workers[t]? = some w → w.pc = .done :=
    fun t w hw => hthr.quiet hp (by rw [hprofile]) hw
  obtain ⟨hcrew, -⟩ := hthr.running c _ hp
  have hlen : s.workers.length = c.svec.length := by
    rw [hcrew.length, hprofile, hbase, Nat.zero_add]
  refine ⟨?_, h.quiet fun t w hw => by rw [hdone t w hw]; decide⟩
  rw [List.perm_ext_iff_of_nodup h.nodup List.nodup_range]
  intro i
  rw [h.mem, List.mem_range, ← hlen]
  constructor
  · rintro ⟨w, hw, -⟩
    exact (List.getElem?_eq_some_iff.mp hw).1
  · intro hi
    exact ⟨_, List.getElem?_eq_getElem hi,
      by rw [hdone i _ (List.getElem?_eq_getElem hi)]; rfl⟩

theorem serial_inv_scheduler (hk : c.kind = .schedule) (hthr : ThreadInv s)
    (hinv : SerialInv api c world s) (h : SchedulerStep api s s') : SerialInv api c world s' := by
  have hcall : ∀ d pc, s.pc = .running d pc → d = c := fun d pc hp => (hinv.running d pc hp).1
  cases h with
  | @start_call d rest hp htodo =>
    obtain ⟨-, ht, hworld, hpause, hworkers, hret⟩ := hinv.start (by simp [htodo])
    obtain ⟨rfl, rfl⟩ := List.cons.inj (htodo.symm.trans ht)
    refine ⟨fun hne => absurd rfl hne, ?_, by simp [State.goto]⟩
    intro e pc hrun
    obtain ⟨rfl, rfl⟩ := SchedPc.running.inj hrun
    refine ⟨rfl, rfl, hret, by simp [State.goto, hworkers], hpause, fun _ => ?_, by
      simp [CallPc.closed]⟩
    refine ⟨hworld, ?_, by simp [State.goto, hworkers]⟩
    simp [State.goto, Call.profile, hk, scheduleProfile]
  | @spawn d i sch hp hsch =>
    obtain rfl := hcall d _ hp
    refine hinv.inside hp rfl rfl rfl rfl (fun h => h) (fun _ => ⟨rfl, fun hcl => ?_⟩)
      (by simp [CallPc.closed])
    obtain ⟨hlt, rfl⟩ := List.getElem?_eq_some_iff.mp hsch
    simp only [Call.profile, hk, scheduleProfile] at hcl ⊢
    refine ⟨hcl.world, ?_, ?_⟩
    -- the label goes to the counter behind those of the spawned threads
    · have hmod := modify_middle (api.set_label d.svec[i].label)
        ((d.svec.take i).map (freshCounter api))
        (List.replicate (d.svec.length - i - 1) api.make) api.make
      have hlen : ((d.svec.take i).map (freshCounter api)).length = i := by
        rw [List.length_map, List.length_take, Nat.min_eq_left hlt.le]
      rw [hlen, ← List.replicate_succ,
        show d.svec.length - i - 1 + 1 = d.svec.length - i by omega, ← hcl.counters] at hmod
      show s.counters.modify i _ = _
      rw [hmod, List.take_succ_eq_append_getElem hlt, List.map_append]
      simp [freshCounter, Nat.sub_sub]
    · intro u v hv
      have hv' : (s.workers ++ [_])[u]? = some v := hv
      rw [List.getElem?_append] at hv'
      split at hv'
      · exact hcl.gated u v hv'
      · rw [List.getElem?_singleton] at hv'
        split at hv'
        · rw [← Option.some.inj hv']
          rfl
        · contradiction
  | @set_pause d i hp =>
    obtain rfl := hcall d _ hp
    -- the release: nobody has run yet, so the order is empty
    refine hinv.inside hp rfl rfl rfl rfl (fun _ => rfl) (by simp [CallPc.closed])
      (fun _ hcl _ => ⟨[], List.nodup_nil, fun j => ?_, fun _ => ?_, fun u v hv ha => ?_⟩)
    · refine ⟨by simp, ?_⟩
      rintro ⟨v, hv, hf⟩
      rw [gated_waiting ((hcl rfl).gated j v hv)] at hf
      contradiction
    · obtain ⟨hworld, hcnt, -⟩ := hcl rfl
      simp only [Call.profile, hk, scheduleProfile, List.take_length, Nat.sub_self] at hcnt
      show (s.world, s.counters) = (world, d.svec.map (freshCounter api))
      rw [hworld, hcnt]
      simp
    · rw [gated_waiting ((hcl rfl).gated u v hv)] at ha
      contradiction
  | @join d i k t w hp ht hw hd =>
    obtain rfl := hcall d _ hp
    refine hinv.same hp rfl rfl rfl rfl rfl rfl rfl ?_ rfl (by simp [CallPc.closed]) rfl
    intro u
    show ((s.workers.set t { w with joined := true })[u]?).map Worker.view = _
    rw [getElem?_moved hw]
    split
    · next hu =>
      rw [hu, hw]
      rfl
    · rfl
  | @stats d k hp hlt =>
    obtain rfl := hcall d _ hp
    -- all threads are joined, so nobody is at work while counters are printed
    have hdone : ∀ (t : Nat) (w : Worker World Cnt Ev), s.workers[t]? = some w → w.pc = .done :=
      fun t w hw => hthr.quiet hp (by simp [Call.profile, hk, scheduleProfile]) hw
    refine hinv.inside hp rfl rfl rfl rfl (fun h => h) (by simp [CallPc.closed])
      (fun _ _ hop => ?_)
    obtain ⟨order, hser⟩ := hop rfl
    refine ⟨order, hser.nodup, hser.mem, ?_, ?_⟩
    · intro _
      have hvalue := hser.quiet fun t w hw => by rw [hdone t w hw]; decide
      show applyAt k api.stats (s.world, s.counters) = _
      rw [hvalue]
      exact (statsUpTo_succ k _).symm
    · intro u v hv ha
      rw [hdone u v hv] at ha
      contradiction
  | @reset_pause d hp =>
    obtain rfl := hcall d _ hp
    obtain ⟨-, ht, hr, hb, -, -, hop⟩ := hinv.running d _ hp
    obtain ⟨order, hser⟩ := hop rfl
    obtain ⟨hperm, hvalue⟩ := hser.complete hk hthr hp hb
    refine ⟨fun hne => absurd ht hne, by simp, ?_⟩
    intro _ _
    exact ⟨s.counters, order, by simp [hr], hperm, hvalue⟩
  | @pin_stale d i hp _ | @join_stale d i k hp _ =>
    obtain ⟨-, ht, -⟩ := hinv.running d _ hp
    exact ⟨fun hne => absurd ht hne, by simp, by simp⟩
  | @pin d i sch t hp _ _ =>
    obtain rfl := hcall d _ hp
    refine hinv.same hp rfl rfl rfl rfl rfl rfl rfl (fun _ => rfl) ?_ (fun _ => ?_) ?_ <;>
      simp [Call.afterPin, hk, Call.profile, scheduleProfile, CallPc.closed, CallPc.printed]
  | @loop_end d i hp hi =>
    obtain rfl := hcall d _ hp
    obtain ⟨-, hok, -⟩ := hthr.running d _ hp
    simp only [Call.pcOk, hk, schedulePc] at hok
    obtain rfl : i = d.svec.length := by omega
    refine hinv.same hp rfl rfl rfl rfl rfl rfl rfl (fun _ => rfl) ?_ (fun _ => ?_) ?_ <;>
      simp [Call.afterLoop, hk, Call.profile, scheduleProfile, CallPc.closed, CallPc.printed]
  | @join_end d i k hp _ =>
    obtain rfl := hcall d _ hp
    refine hinv.same hp rfl rfl rfl rfl rfl rfl rfl (fun _ => rfl) ?_
        (by simp [CallPc.closed]) ?_ <;>
      simp [Call.afterJoin, hk, CallPc.closed, CallPc.printed]
  | @stats_end d k hp hle =>
    obtain rfl := hcall d _ hp
    obtain ⟨-, hok, -⟩ := hthr.running d _ hp
    simp only [Call.pcOk, hk, schedulePc] at hok
    obtain rfl : k = d.svec.length := by omega
    exact hinv.same hp rfl rfl rfl rfl rfl rfl rfl (fun _ => rfl) rfl (by simp [CallPc.closed]) rfl
  | @notify_one d i _ hp hkd _ =>
    obtain rfl := hcall d _ hp
    simp [hk] at hkd
  | @lock_ready d i hp _ | @check_ready_true d i hp _ | @check_ready_false d i hp _
  | @relock d i hp _ _ | @unlock_ready d i hp | @clear d i hp =>
    -- these belong to the priority call
    obtain rfl := hcall d _ hp
    obtain ⟨-, hok, -⟩ := hthr.running d _ hp
    simp [Call.pcOk, hk, schedulePc] at hok
  | @lock d i hp _ | @unlock d i hp | @notify_all d i hp _ | @reset_ready d hp =>
    obtain rfl := hcall d _ hp
    exact hinv.same hp rfl rfl rfl rfl rfl rfl rfl (fun _ => rfl) rfl
      (by simp [CallPc.closed, Call.profile, hk, scheduleProfile]) rfl

/-- The invariant of a run of one parallel call. -/
theorem serial_inv (hk : c.kind = .schedule) (h : Reachable (harness api [c] world) s) :
    SerialInv api c world s := by
  have hknown : ∀ s, Reachable (harness api [c] world) s → ThreadInv s ∧ LockInv s :=
    fun s hs => ⟨thread_inv (List.pairwise_singleton _ _) hs, lock_inv hs⟩
  refine h.invariant_of hknown ?_ ?_
  · intro s h0
    obtain rfl := h0
    exact ⟨fun _ => ⟨rfl, rfl, rfl, rfl, rfl, rfl⟩, by simp [initial], by simp [initial]⟩
  · intro s a s' hkn hinv hstep
    cases hstep with
    | worker hw => exact serial_inv_worker hk hkn.1 hkn.2 hinv hw
    | scheduler hw => exact serial_inv_scheduler hk hkn.1 hinv hw
    | spurious _ =>
      -- the wait set does not occur in the invariant
      refine ⟨hinv.start, ?_, hinv.returned⟩
      intro d pc hp
      obtain ⟨hd, ht, hr, hb, hpa, hcl, hop⟩ := hinv.running d pc hp
      refine ⟨hd, ht, hr, hb, hpa, ?_, ?_⟩
      · intro hc
        obtain ⟨hworld, hcnt, hgated⟩ := hcl hc
        exact ⟨hworld, hcnt, hgated⟩
      · intro hc
        obtain ⟨order, hser⟩ := hop hc
        exact ⟨order, hser.congr (fun _ => rfl) rfl rfl⟩

/-- **Serialisation**: when a parallel call on a fresh object has returned,
    its workers have run one after the other, in some order, and the counters
    were printed in list order after that. -/
theorem serial_execution (hk : c.kind = .schedule) (h : Reachable (harness api [c] world) s)
    (hidle : s.pc = .idle) (htodo : s.todo = []) :
    ∃ cs order, s.returned = [cs] ∧ order.Perm (List.range c.svec.length) ∧
      (s.world, cs) = statsUpTo api c.svec.length (serial api c order world) :=
  (serial_inv hk h).returned hidle htodo

end

end Pcnt
