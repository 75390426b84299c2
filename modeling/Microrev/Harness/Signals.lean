import Microrev.Harness.Completion

/-! # Notifications and Progress

    One condition variable serves two predicates: workers wait for
    `pause == false`, the scheduler of a priority call waits for
    `ready == true`. This file shows that no notification is lost or stolen
    in a reusable sequence of calls, and derives that the harness never
    deadlocks.
-/

namespace Pcnt

open Lts

section
variable {World Cnt Ev : Type} {api : CounterApi World Cnt Ev}
variable {s s' : State World Cnt Ev} {c : Call World Cnt Ev} {t : Nat}
variable {calls : List (Call World Cnt Ev)} {world : World}

/-! ### Program Counters -/

/-- The scheduler has released the workers of this call. -/
def CallPc.released : CallPc → Bool
  | .unlock _ | .notify _ | .lock_ready _ | .check_ready _ | .asleep _ | .unlock_ready _
  | .join _ _ | .clear _ => true
  | _ => false

/-- The scheduler has written `pause = false` and not yet notified. -/
def State.notifying (s : State World Cnt Ev) : Prop :=
  ∃ c i, s.pc = .running c (.unlock i) ∨ s.pc = .running c (.notify i)

/-- The worker has written `ready = true`. -/
def WorkerPc.signalled : WorkerPc → Bool
  | .unlock | .notify | .done => true
  | _ => false

/-- The worker has written `ready = true` and not yet notified. -/
def WorkerPc.notifying : WorkerPc → Bool
  | .unlock | .notify => true
  | _ => false

/-! ### The Invariant -/

/-- No wakeup is lost: a sleeping worker still has its notification ahead, and
    so has the sleeping scheduler. -/
structure SignalInv (s : State World Cnt Ev) : Prop where
  released : ∀ c pc, s.pc = .running c pc → pc.released = true → s.pause = false
  worker_waits : ∀ t, .worker t ∈ s.mon.waiting → s.pause = true ∨ s.notifying
  ready_set : ∀ c pc, s.pc = .running c pc → pc ≠ .reset_pause →
    ∀ (t : Nat) (w : Worker World Cnt Ev), s.workers[t]? = some w → s.base ≤ t →
      w.pc.signalled = true → s.ready = true
  scheduler_waits : .scheduler ∈ s.mon.waiting →
    ∃ (t : Nat) (w : Worker World Cnt Ev), s.workers[t]? = some w ∧
      (w.pc.notifying = true ∨ (s.ready = false ∧ w.pc.signalled = false))

theorem signal_inv_initial : SignalInv (initial calls world) where
  released := by simp [initial]
  worker_waits := by simp [initial]
  ready_set := by simp [initial]
  scheduler_waits := by simp [initial]

/-- A thread that is not done belongs to the running call and is not joined. -/
theorem ThreadInv.undone {pc : CallPc} {w : Worker World Cnt Ev} (hinv : ThreadInv s)
    (hp : s.pc = .running c pc) (hw : s.workers[t]? = some w) (hnd : w.pc ≠ .done) :
    s.base + (c.profile pc).joined ≤ t ∧ t < s.base + (c.profile pc).born := by
  obtain ⟨hcrew, -⟩ := hinv.running _ _ hp
  have hlt := (List.getElem?_eq_some_iff.mp hw).1
  have hlen := hcrew.length
  have hbase : s.base ≤ t := by
    by_contra hlt'
    exact hnd (hinv.joined_done t w hw (hcrew.old t (by omega) w hw))
  refine ⟨?_, by omega⟩
  by_contra hlt'
  obtain ⟨w', hw', -, -, -, -, hj⟩ := hcrew.mine (t - s.base) (by omega)
  rw [show s.base + (t - s.base) = t by omega, hw] at hw'
  obtain rfl := Option.some.inj hw'
  refine hnd (hinv.joined_done t w hw ?_)
  rw [hj]
  simp
  omega

/-- While the scheduler of a priority call waits or notifies, only one thread
    is not done. -/
theorem ThreadInv.only_one {pc : CallPc} {i u : Nat} {w v : Worker World Cnt Ev}
    (hinv : ThreadInv s) (hp : s.pc = .running c pc) (hprof : c.profile pc = ⟨i, i + 1, i⟩)
    (hw : s.workers[t]? = some w) (hwd : w.pc ≠ .done)
    (hv : s.workers[u]? = some v) (hvd : v.pc ≠ .done) : t = u := by
  have h1 := hinv.undone hp hw hwd
  have h2 := hinv.undone hp hv hvd
  rw [hprof] at h1 h2
  simp only at h1 h2
  omega

/-- `asleep` belongs to the priority call. -/
theorem ThreadInv.asleep_profile {i : Nat} (hinv : ThreadInv s)
    (hp : s.pc = .running c (.asleep i)) : c.profile (.asleep i) = ⟨i, i + 1, i⟩ := by
  obtain ⟨-, hok, -⟩ := hinv.running _ _ hp
  cases hk : c.kind with
  | schedule => simp [Call.pcOk, schedulePc, hk] at hok
  | priority => simp [Call.profile, priorityProfile, hk]

/-- What a worker step does to the wait set and to `ready`: nothing; or the
    worker falls asleep because of `pause`; or it writes `ready`; or it
    notifies. -/
theorem WorkerStep.signal (h : WorkerStep api t s s') :
    ∃ w pc, s.workers[t]? = some w ∧ s'.workers = s.workers.set t { w with pc := pc } ∧
      ((s'.mon.waiting = s.mon.waiting ∧ s'.ready = s.ready ∧
          pc.signalled = w.pc.signalled ∧ pc.notifying = w.pc.notifying) ∨
        (s.pause = true ∧ s'.mon.waiting = insert (.worker t) s.mon.waiting ∧
          s'.ready = s.ready ∧ w.pc = .check ∧ pc = .asleep) ∨
        (w.pc = .set_ready ∧ pc = .unlock ∧ s'.ready = true ∧
          s'.mon.waiting = s.mon.waiting) ∨
        (w.pc = .notify ∧ pc = .done ∧ s'.ready = s.ready ∧ s.mon.NotifyOne s'.mon)) := by
  cases h with
  | check_false hw hp hpause =>
    exact ⟨_, _, hw, rfl, .inr (.inl ⟨hpause, rfl, rfl, hp, rfl⟩)⟩
  | set_ready hw hp => exact ⟨_, _, hw, rfl, .inr (.inr (.inl ⟨hp, rfl, rfl, rfl⟩))⟩
  | notify hw hp hm => exact ⟨_, _, hw, rfl, .inr (.inr (.inr ⟨hp, rfl, rfl, hm⟩))⟩
  | lock hw hp _ | check_true hw hp _ | relock hw hp _ _ | add hw hp | warmup_call hw hp _
  | warmup_return hw hp | warmup_end hw hp _ | reset hw hp | measure_call hw hp
  | measure_return hw hp | end_ hw hp | unlock hw hp =>
    exact ⟨_, _, hw, rfl, .inl ⟨rfl, rfl, by rw [hp]; rfl, by rw [hp]; rfl⟩⟩

/-- While the scheduler is in the wait set, nobody else is. -/
theorem SignalInv.waits_alone (hwait : WaitInv s) (hinv : SignalInv s)
    (hs : .scheduler ∈ s.mon.waiting) : ∀ b ∈ s.mon.waiting, b = .scheduler := by
  obtain ⟨c, i, hp⟩ := hwait _ hs
  intro b hb
  cases b with
  | scheduler => rfl
  | worker u =>
    rcases hinv.worker_waits u hb with hpause | ⟨d, j, hd | hd⟩
    · rw [hinv.released c _ hp rfl] at hpause
      cases hpause
    · simp [hp] at hd
    · simp [hp] at hd

theorem signal_inv_worker (hwait : WaitInv s) (hthr : ThreadInv s) (hinv : SignalInv s)
    (h : WorkerStep api t s s') : SignalInv s' := by
  obtain ⟨-, -, -, -, hpc, -, -, -, -, hb, hpause⟩ := h.frame
  obtain ⟨w, pc, hw, hs, heffect⟩ := h.signal
  have hnotif : s'.notifying ↔ s.notifying := by simp [State.notifying, hpc]
  refine ⟨by rw [hpc, hpause]; exact hinv.released, ?_, ?_, ?_⟩
  -- workers: falling asleep needs `pause`, notifying only wakes
  · intro u hu
    rw [hpause, hnotif]
    rcases heffect with ⟨hm, -⟩ | ⟨hpt, -⟩ | ⟨-, -, -, hm⟩ | ⟨-, -, -, hm⟩
    · exact hinv.worker_waits u (hm ▸ hu)
    · exact .inl hpt
    · exact hinv.worker_waits u (hm ▸ hu)
    · exact hinv.worker_waits u (hm.subset hu)
  -- `ready`: it is written before the worker counts as signalled
  · intro c pc' hp hne u v hv hbu hsig
    rw [hpc] at hp
    rw [hb] at hbu
    rw [hs, getElem?_moved hw] at hv
    by_cases hut : u = t
    · subst hut
      rw [if_pos rfl] at hv
      obtain rfl := Option.some.inj hv
      rcases heffect with ⟨-, hr, hsame, -⟩ | ⟨-, -, -, -, rfl⟩ | ⟨-, -, hr, -⟩ | ⟨hn, -, hr, -⟩
      · rw [hr]
        exact hinv.ready_set c pc' hp hne u w hw hbu (hsame ▸ hsig)
      · simp [WorkerPc.signalled] at hsig
      · exact hr
      · rw [hr]
        exact hinv.ready_set c pc' hp hne u w hw hbu (by rw [hn]; rfl)
    · rw [if_neg hut] at hv
      have hready := hinv.ready_set c pc' hp hne u v hv hbu hsig
      rcases heffect with ⟨-, hr, -⟩ | ⟨-, -, hr, -⟩ | ⟨-, -, hr, -⟩ | ⟨-, -, hr, -⟩ <;>
        simp [hr, hready]
  · intro hsched
    have hold : .scheduler ∈ s.mon.waiting := by
      rcases heffect with ⟨hm, -⟩ | ⟨-, hm, -⟩ | ⟨-, -, -, hm⟩ | ⟨-, -, -, hm⟩
      · exact hm ▸ hsched
      · simpa [hm] using hsched
      · exact hm ▸ hsched
      · exact hm.subset hsched
    obtain ⟨c, i, hp⟩ := hwait _ hold
    obtain ⟨u, v, hv, hcase⟩ := hinv.scheduler_waits hold
    -- the thread the scheduler waits for is the one that moves
    have hvnd : v.pc ≠ .done := by
      intro hd
      simp [hd, WorkerPc.notifying, WorkerPc.signalled] at hcase
    have hwnd : w.pc ≠ .done := by
      intro hd
      rcases heffect with ⟨-, -, hsame, -⟩ | ⟨-, -, -, hc, -⟩ | ⟨hc, -⟩ | ⟨hc, -⟩
      · cases h <;> simp_all
      · simp [hd] at hc
      · simp [hd] at hc
      · simp [hd] at hc
    have hut : u = t :=
      hthr.only_one hp (hthr.asleep_profile hp) hv hvnd hw hwnd
    subst hut
    obtain rfl := Option.some.inj (hw.symm.trans hv)
    -- before its write, at its write, and at its notification
    refine ⟨u, _, by rw [hs, getElem?_moved hw, if_pos rfl], ?_⟩
    rcases heffect with ⟨-, hr, hsig, hnot⟩ | ⟨-, -, hr, hc, rfl⟩ | ⟨-, rfl, -, -⟩ | ⟨-, -, -, hm⟩
    · rw [hr]
      simpa [hsig, hnot] using hcase
    · rw [hr]
      simpa [hc, WorkerPc.notifying, WorkerPc.signalled] using hcase
    · exact .inl rfl
    · have := hm.empties (hinv.waits_alone hwait hold)
      simp [this] at hsched

/-- Before the notification of a priority call, only the thread just spawned
    can be in the wait set. -/
theorem ThreadInv.one_waiter {i : Nat} (hwait : WaitInv s) (hthr : ThreadInv s)
    (hp : s.pc = .running c (.notify i)) (hk : c.kind = .priority) :
    ∀ b ∈ s.mon.waiting, b = .worker (s.base + i) := by
  intro b hb
  have hasleep := hwait b hb
  cases b with
  | scheduler =>
    obtain ⟨d, j, hd⟩ := hasleep
    simp [hp] at hd
  | worker u =>
    obtain ⟨w, hw, hpc⟩ := hasleep
    have hu := hthr.undone hp hw (by simp [hpc])
    simp only [Call.profile, priorityProfile, hk] at hu
    rw [show u = s.base + i by omega]

/-- Nobody is in the wait set once every thread is joined and the scheduler is
    not in `cv.wait`. -/
theorem ThreadInv.no_waiter (hwait : WaitInv s) (hthr : ThreadInv s)
    (hall : ∀ (u : Nat) (w : Worker World Cnt Ev), s.workers[u]? = some w → w.joined = true)
    (u : Nat) : .worker u ∉ s.mon.waiting := by
  intro hu
  obtain ⟨w, hw, hp⟩ := hwait _ hu
  have := hthr.joined_done u w hw (hall u w hw)
  simp [hp] at this

/-- A scheduler step inside a call that neither notifies nor waits nor writes
    a flag, and whose workers signalled no more than before. -/
theorem SignalInv.quiet {pc pc' : CallPc} (hinv : SignalInv s)
    (hp : s.pc = .running c pc) (hne : pc ≠ .reset_pause) (hp' : s'.pc = .running c pc')
    (hawake : .scheduler ∉ s.mon.waiting)
    (hnot : s.notifying → s'.notifying) (hrel : pc'.released = true → pc.released = true)
    (hw : ∀ (u : Nat) (w : Worker World Cnt Ev), s'.workers[u]? = some w →
      w.pc.signalled = true → ∃ v, s.workers[u]? = some v ∧ v.pc.signalled = true)
    (hb : s'.base = s.base) (hr : s'.ready = s.ready)
    (hpause : s'.pause = s.pause) (hm : s'.mon.waiting = s.mon.waiting) : SignalInv s' where
  released := by
    intro d pcd hd hreld
    rw [hp'] at hd
    obtain ⟨rfl, rfl⟩ := SchedPc.running.inj hd
    rw [hpause]
    exact hinv.released _ _ hp (hrel hreld)
  worker_waits := by
    intro u hu
    rw [hpause]
    exact (hinv.worker_waits u (hm ▸ hu)).imp_right hnot
  ready_set := by
    intro d pcd _ _ u w hwu hbu hsig
    obtain ⟨v, hv, hvsig⟩ := hw u w hwu hsig
    rw [hr]
    exact hinv.ready_set c pc hp hne u v hv (hb ▸ hbu) hvsig
  scheduler_waits := fun hs => absurd (hm ▸ hs) hawake

theorem signal_inv_scheduler (hwait : WaitInv s) (hthr : ThreadInv s) (hinv : SignalInv s)
    (h : SchedulerStep api s s') : SignalInv s' := by
  have hawake : ∀ c pc, s.pc = .running c pc → (∀ i, pc ≠ .asleep i) →
      .scheduler ∉ s.mon.waiting := by
    intro c pc hp hne hs
    obtain ⟨d, i, hd⟩ := hwait _ hs
    rw [hp] at hd
    exact hne i (SchedPc.running.inj hd).2
  have halive := (thread_inv_scheduler hthr h).alive
  have hkeep : s'.workers = s.workers → ∀ (u : Nat) (w : Worker World Cnt Ev),
      s'.workers[u]? = some w → w.pc.signalled = true →
      ∃ v, s.workers[u]? = some v ∧ v.pc.signalled = true :=
    fun hw u w hwu hsig => ⟨w, hw ▸ hwu, hsig⟩
  cases h with
  | @start_call c rest hp htodo =>
    obtain ⟨hall, -⟩ := hthr.idle hp
    refine ⟨?_, ?_, ?_, ?_⟩
    -- all earlier threads are done, so nobody is in the wait set
    · rintro d pcd hd hrel
      obtain ⟨rfl, rfl⟩ := SchedPc.running.inj hd
      simp [CallPc.released] at hrel
    · exact fun u hu => absurd hu (hthr.no_waiter hwait hall u)
    · intro d pcd _ _ u w hw hbu _
      have := (List.getElem?_eq_some_iff.mp hw).1
      simp only [State.goto] at this hbu
      omega
    · intro hs
      obtain ⟨d, i, hd⟩ := hwait _ hs
      simp [hp] at hd
  | @spawn c i sch hp hsch =>
    refine hinv.quiet hp (by simp) rfl (hawake _ _ hp (by simp)) ?_ (by simp [CallPc.released])
      ?_ rfl rfl rfl rfl
    · simp [State.notifying, hp]
    -- a new thread has signalled nothing
    · intro u w hw hsig
      simp only [State.goto, State.spawn, List.getElem?_append] at hw
      split at hw
      · exact ⟨w, hw, hsig⟩
      · obtain rfl := List.mem_singleton.mp (List.mem_of_getElem? hw)
        simp [WorkerPc.signalled] at hsig
  | pin_stale hp _ | join_stale hp _ => exact absurd rfl halive
  | @join c i k t w hp ht hw hd =>
    refine hinv.quiet hp (by simp) rfl (hawake _ _ hp (by simp)) ?_ (by simp [CallPc.released])
      ?_ rfl rfl rfl rfl
    · simp [State.notifying, hp]
    · intro u v hv hsig
      simp only [State.goto, getElem?_moved hw] at hv
      split at hv
      · next hut =>
        obtain rfl := Option.some.inj hv
        exact ⟨w, hut ▸ hw, hsig⟩
      · exact ⟨v, hv, hsig⟩
  | @set_pause c i hp =>
    -- from here until the notification `notifying` takes over from `pause`
    refine ⟨fun _ _ _ _ => rfl, fun u hu => .inr ⟨c, i, .inl rfl⟩, ?_, ?_⟩
    · intro _ _ _ _ u w hw hbu hsig
      exact hinv.ready_set c _ hp (by simp) u w hw hbu hsig
    · exact fun hs => absurd hs (hawake _ _ hp (by simp))
  | @notify_all c i hp hk =>
    refine ⟨?_, by simp [State.goto], ?_, by simp [State.goto]⟩
    · exact fun _ _ _ _ => hinv.released c _ hp rfl
    · intro _ _ _ _ u w hw hbu hsig
      exact hinv.ready_set c _ hp (by simp) u w hw hbu hsig
  | @notify_one c i m hp hk hm =>
    -- at most one thread waits, so one notification empties the wait set
    have hempty := hm.empties (hthr.one_waiter hwait hp hk)
    refine ⟨?_, by simp [State.goto, hempty], ?_, by simp [State.goto, hempty]⟩
    · exact fun _ _ _ _ => hinv.released c _ hp rfl
    · intro _ _ _ _ u w hw hbu hsig
      exact hinv.ready_set c _ hp (by simp) u w hw hbu hsig
  | @check_ready_false c i hp hr =>
    have hready : ∀ (u : Nat) (w : Worker World Cnt Ev), s.workers[u]? = some w → s.base ≤ u →
        w.pc.signalled = true → s.ready = true :=
      hinv.ready_set c _ hp (by simp)
    refine ⟨fun _ _ _ _ => hinv.released c _ hp rfl, ?_, fun _ _ _ _ => hready, ?_⟩
    · intro u hu
      have hu' : .worker u ∈ s.mon.waiting := by simpa [State.goto] using hu
      rcases hinv.worker_waits u hu' with hpause | ⟨d, j, hd | hd⟩
      · exact .inl hpause
      · simp [hp] at hd
      · simp [hp] at hd
    · intro _
      -- the thread of this round has not signalled, because `ready` is unset
      obtain ⟨hcrew, hok, -⟩ := hthr.running _ _ hp
      cases hk : c.kind with
      | schedule => simp [Call.pcOk, schedulePc, hk] at hok
      | priority =>
        obtain ⟨w, hw, -⟩ := hcrew.mine i (by simp [Call.profile, priorityProfile, hk])
        refine ⟨s.base + i, w, hw, .inr ⟨hr, ?_⟩⟩
        rw [Bool.eq_false_iff]
        intro hsig
        have := hready _ w hw (by omega) hsig
        simp [hr] at this
  | @reset_ready c hp =>
    -- `ready` is unset where the invariant no longer speaks of it
    refine ⟨?_, ?_, ?_, fun hs => absurd hs (hawake _ _ hp (by simp))⟩
    · rintro d pcd hd hrel
      obtain ⟨rfl, rfl⟩ := SchedPc.running.inj hd
      simp [CallPc.released] at hrel
    · intro u hu
      rcases hinv.worker_waits u hu with hpause | ⟨d, j, hd | hd⟩
      · exact .inl hpause
      · simp [hp] at hd
      · simp [hp] at hd
    · rintro d pcd hd hne
      obtain ⟨rfl, rfl⟩ := SchedPc.running.inj hd
      exact absurd rfl hne
  | @reset_pause c hp =>
    obtain ⟨hcrew, -⟩ := hthr.running _ _ hp
    have hall := hcrew.all_joined (by
      cases hk : c.kind <;> simp [Call.profile, scheduleProfile, priorityProfile, hk])
    refine ⟨by simp, ?_, by simp, fun hs => absurd hs (hawake _ _ hp (by simp))⟩
    exact fun u hu => absurd hu (hthr.no_waiter hwait hall u)
  | @unlock c i hp =>
    exact hinv.quiet hp (by simp) rfl (hawake _ _ hp (by simp)) (fun _ => ⟨c, i, .inr rfl⟩)
      (fun _ => rfl) (hkeep rfl) rfl rfl rfl rfl
  | @relock c i hp hnot _ =>
    refine hinv.quiet hp (by simp) rfl hnot ?_ ?_ (hkeep rfl) rfl rfl rfl rfl <;>
      simp [State.notifying, CallPc.released, hp]
  | @pin c i sch t hp _ _ =>
    refine hinv.quiet hp (by simp) rfl (hawake _ _ hp (by simp)) ?_ ?_ (hkeep rfl)
      rfl rfl rfl rfl
    · simp [State.notifying, hp]
    · cases hk : c.kind <;> simp [Call.afterPin, CallPc.released, hk]
  | @loop_end c i hp _ =>
    refine hinv.quiet hp (by simp) rfl (hawake _ _ hp (by simp)) ?_ ?_ (hkeep rfl)
      rfl rfl rfl rfl
    · simp [State.notifying, hp]
    · cases hk : c.kind <;> simp [Call.afterLoop, CallPc.released, hk]
  | @join_end c i k hp _ =>
    refine hinv.quiet hp (by simp) rfl (hawake _ _ hp (by simp)) ?_ (fun _ => rfl) (hkeep rfl)
      rfl rfl rfl rfl
    simp [State.notifying, hp]
  | lock hp _ | lock_ready hp _ | check_ready_true hp _ | unlock_ready hp | clear hp
  | stats hp _ | stats_end hp _ =>
    refine hinv.quiet hp (by simp) rfl (hawake _ _ hp (by simp)) ?_ ?_ (hkeep rfl)
      rfl rfl rfl rfl <;>
      simp [State.notifying, CallPc.released, hp]

theorem signal_inv (hreuse : Reusable calls) (h : Reachable (harness api calls world) s) :
    SignalInv s := by
  have hknown : ∀ s, Reachable (harness api calls world) s → WaitInv s ∧ ThreadInv s :=
    fun s hs => ⟨wait_inv hs, thread_inv hreuse hs⟩
  apply h.invariant_of hknown (fun s h0 => h0 ▸ signal_inv_initial)
  intro s a s' ⟨hwait, hthr⟩ hinv hstep
  cases hstep with
  | scheduler h => exact signal_inv_scheduler hwait hthr hinv h
  | worker h => exact signal_inv_worker hwait hthr hinv h
  | spurious _ =>
    refine ⟨hinv.released, ?_, hinv.ready_set, ?_⟩
    · exact fun u hu => hinv.worker_waits u (Finset.mem_of_mem_erase hu)
    · exact fun hs => hinv.scheduler_waits (Finset.mem_of_mem_erase hs)

/-! ### Progress -/

/-- All calls have returned. -/
def Finished (s : State World Cnt Ev) : Prop := s.pc = .idle ∧ s.todo = []

/-- Some step other than a spurious wakeup is enabled. -/
def CanStep (api : CounterApi World Cnt Ev) (s : State World Cnt Ev) : Prop :=
  ∃ a s', Step api s a s' ∧ ∀ b, a ≠ .spurious b

/-- A worker is blocked only by the mutex, the wait set, or its end. -/
theorem worker_enabled {w : Worker World Cnt Ev} (hw : s.workers[t]? = some w)
    (hnd : w.pc ≠ .done)
    (hfree : w.pc.holdsLock = true ∨
      (s.mon.owner = none ∧ (w.pc = .asleep → .worker t ∉ s.mon.waiting))) :
    ∃ s', WorkerStep api t s s' := by
  obtain ⟨m, hm⟩ := Monitor.NotifyOne.exists s.mon
  cases hpc : w.pc with
  | start =>
    have : s.mon.owner = none := by simpa [hpc, WorkerPc.holdsLock] using hfree
    exact ⟨_, .lock hw hpc this⟩
  | check =>
    cases hpause : s.pause with
    | false => exact ⟨_, .check_true hw hpc hpause⟩
    | true => exact ⟨_, .check_false hw hpc hpause⟩
  | asleep =>
    have : s.mon.owner = none ∧ .worker t ∉ s.mon.waiting := by
      simpa [hpc, WorkerPc.holdsLock] using hfree
    exact ⟨_, .relock hw hpc this.2 this.1⟩
  | add => exact ⟨_, .add hw hpc⟩
  | warmup j =>
    by_cases hj : j < w.warmup
    · exact ⟨_, .warmup_call hw hpc hj⟩
    · exact ⟨_, .warmup_end hw hpc (by omega)⟩
  | in_warmup j => exact ⟨_, .warmup_return hw hpc⟩
  | reset => exact ⟨_, .reset hw hpc⟩
  | measure => exact ⟨_, .measure_call hw hpc⟩
  | in_measure => exact ⟨_, .measure_return hw hpc⟩
  | end_ => exact ⟨_, .end_ hw hpc⟩
  | set_ready => exact ⟨_, .set_ready hw hpc⟩
  | unlock => exact ⟨_, .unlock hw hpc⟩
  | notify => exact ⟨_, .notify hw hpc hm⟩
  | done => exact absurd hpc hnd

theorem CanStep.scheduler (h : SchedulerStep api s s') : CanStep api s :=
  ⟨.scheduler, s', .scheduler h, by simp⟩

theorem CanStep.worker (h : ∃ s', WorkerStep api t s s') : CanStep api s := by
  obtain ⟨s', h⟩ := h
  exact ⟨.worker t, s', .worker h, by simp⟩

/-- The owner of the mutex is never blocked. -/
theorem owner_canStep (hlock : LockInv s) {a : Actor} (ha : s.mon.owner = some a) :
    CanStep api s := by
  have hholds := (hlock a).mp ha
  cases a with
  | worker t =>
    obtain ⟨w, hw, hp⟩ := hholds
    refine CanStep.worker (worker_enabled hw ?_ (.inl hp))
    intro hd
    simp [hd, WorkerPc.holdsLock] at hp
  | scheduler =>
    cases hpc : s.pc with
    | idle | dead => simp [State.holds, hpc, SchedPc.holdsLock] at hholds
    | running c pc =>
      cases pc with
      | set_pause i => exact .scheduler (.set_pause hpc)
      | unlock i => exact .scheduler (.unlock hpc)
      | unlock_ready i => exact .scheduler (.unlock_ready hpc)
      | check_ready i =>
        cases hr : s.ready with
        | true => exact .scheduler (.check_ready_true hpc hr)
        | false => exact .scheduler (.check_ready_false hpc hr)
      | spawn i | pin i | lock i | notify i | lock_ready i | asleep i | join i k | clear i
      | stats k | reset_ready | reset_pause =>
        simp [State.holds, hpc, SchedPc.holdsLock, CallPc.holdsLock] at hholds

/-- A thread the scheduler waits for, in `join` or for `ready`, can move once
    the mutex is free: its own wakeup is not lost. -/
theorem released_canStep {pc : CallPc} {w : Worker World Cnt Ev} (hinv : SignalInv s)
    (hfree : s.mon.owner = none) (hp : s.pc = .running c pc) (hrel : pc.released = true)
    (hnot : ∀ i, pc ≠ .unlock i ∧ pc ≠ .notify i)
    (hw : s.workers[t]? = some w) (hnd : w.pc ≠ .done) : CanStep api s := by
  refine CanStep.worker (worker_enabled hw hnd (.inr ⟨hfree, ?_⟩))
  intro _ hmem
  rcases hinv.worker_waits t hmem with hpause | ⟨d, j, hd | hd⟩
  · rw [hinv.released c pc hp hrel] at hpause
    cases hpause
  · rw [hp] at hd
    exact (hnot j).1 (SchedPc.running.inj hd).2
  · rw [hp] at hd
    exact (hnot j).2 (SchedPc.running.inj hd).2

/-- **Deadlock freedom**: in a reusable sequence of calls, a state that has
    not finished has an enabled step. -/
theorem deadlock_free (hreuse : Reusable calls) (h : Reachable (harness api calls world) s) :
    Finished s ∨ CanStep api s := by
  have hlock := lock_inv h
  have hthr := thread_inv hreuse h
  have hinv := signal_inv hreuse h
  cases hfree : s.mon.owner with
  -- either the owner of the mutex moves, or it is free
  | some a => exact .inr (owner_canStep hlock hfree)
  | none =>
    cases hpc : s.pc with
    | dead => exact absurd hpc hthr.alive
    | idle =>
      cases htodo : s.todo with
      | nil => exact .inl ⟨hpc, htodo⟩
      | cons c rest => exact .inr (.scheduler (.start_call hpc htodo))
    | running c pc =>
      right
      cases pc with
      | spawn i =>
        by_cases hi : i < c.svec.length
        · exact .scheduler (.spawn hpc (List.getElem?_eq_getElem hi))
        · exact .scheduler (.loop_end hpc (by omega))
      | pin i =>
        obtain ⟨w, ht, -, -, -, hsch, -⟩ := hthr.pin_entry hpc
        exact .scheduler (.pin hpc hsch ht)
      | lock i => exact .scheduler (.lock hpc hfree)
      | notify i =>
        cases hk : c.kind with
        | schedule => exact .scheduler (.notify_all hpc hk)
        | priority =>
          obtain ⟨m, hm⟩ := Monitor.NotifyOne.exists s.mon
          exact .scheduler (.notify_one hpc hk hm)
      | lock_ready i => exact .scheduler (.lock_ready hpc hfree)
      -- inside `cv.wait`: if it is in the wait set, its thread is on the way
      | asleep i =>
        by_cases hs : Actor.scheduler ∈ s.mon.waiting
        · obtain ⟨t, w, hw, hcase⟩ := hinv.scheduler_waits hs
          apply released_canStep hinv hfree hpc rfl (by simp) hw
          intro hd
          simp [hd, WorkerPc.notifying, WorkerPc.signalled] at hcase
        · exact .scheduler (.relock hpc hs hfree)
      -- `join` blocks only on a thread that can move
      | join i k =>
        by_cases hk : k < s.threads.length
        · obtain ⟨t, w, ht, hw, -⟩ := hthr.join_entry hpc hk
          by_cases hd : w.pc = .done
          · exact .scheduler (.join hpc ht hw hd)
          · exact released_canStep hinv hfree hpc rfl (by simp) hw hd
        · exact .scheduler (.join_end hpc (by omega))
      | clear i => exact .scheduler (.clear hpc)
      | stats k =>
        by_cases hk : k < c.svec.length
        · exact .scheduler (.stats hpc hk)
        · exact .scheduler (.stats_end hpc (by omega))
      | reset_ready => exact .scheduler (.reset_ready hpc)
      | reset_pause => exact .scheduler (.reset_pause hpc)
      | set_pause i | unlock i | check_ready i | unlock_ready i =>
        have := hlock.not_holds hfree .scheduler
        simp [State.holds, hpc, SchedPc.holdsLock, CallPc.holdsLock] at this

/-! ### No Lost Wakeup -/

/-- One `counters_with_schedule` call, or priority calls only. -/
def Supported (calls : List (Call World Cnt Ev)) : Prop :=
  (∃ svec warmup, calls = [⟨.schedule, svec, warmup⟩]) ∨ ∀ c ∈ calls, c.kind = .priority

theorem reusable_of_priority (hprio : ∀ c ∈ calls, c.kind = .priority) : Reusable calls := by
  refine List.pairwise_of_forall_mem_list fun c hc d _ ⟨hkind, _⟩ => ?_
  simp [hprio c hc] at hkind

theorem Supported.reusable (h : Supported calls) : Reusable calls := by
  rcases h with ⟨svec, warmup, rfl⟩ | hprio
  · exact List.pairwise_singleton _ _
  · exact reusable_of_priority hprio

/-- **No lost wakeup, no deadlock**: the calls return or can go on; a worker
    sleeps with `pause` false only until the pending notification of the
    scheduler; the scheduler sleeps with `ready` true only until the pending
    notification of a worker, which no other waiter can steal. -/
theorem no_lost_wakeup (hcalls : Supported calls)
    (h : Reachable (harness api calls world) s) :
    (Finished s ∨ CanStep api s) ∧
    (∀ t, .worker t ∈ s.mon.waiting → s.pause = false → s.notifying) ∧
    (.scheduler ∈ s.mon.waiting → s.ready = true →
      (∃ (t : Nat) (w : Worker World Cnt Ev), s.workers[t]? = some w ∧ w.pc.notifying = true) ∧
      ∀ b ∈ s.mon.waiting, b = .scheduler) := by
  have hreuse := hcalls.reusable
  have hinv := signal_inv hreuse h
  refine ⟨deadlock_free hreuse h, ?_, fun hs hready => ⟨?_, ?_⟩⟩
  · intro t ht hpause
    rcases hinv.worker_waits t ht with hp | hn
    · rw [hpause] at hp
      cases hp
    · exact hn
  · obtain ⟨t, w, hw, hn | ⟨hr, -⟩⟩ := hinv.scheduler_waits hs
    · exact ⟨t, w, hw, hn⟩
    · rw [hready] at hr
      cases hr
  · exact hinv.waits_alone (wait_inv h) hs

end

/-- The first worker of a parallel call falls asleep before the release, and
    has not been notified yet. -/
theorem worker_asleep :
    ∃ s, Reachable (harness nullApi [⟨.schedule, [nullSchedule 1, nullSchedule 2], 5⟩] ()) s ∧
      .worker 0 ∈ s.mon.waiting ∧ s.pause = false := by
  have h0 : Reachable (harness nullApi [⟨.schedule, [nullSchedule 1, nullSchedule 2], 5⟩] ())
    (initial _ ()) := .init rfl
  have h1 := h0.step (.scheduler (.start_call rfl rfl))
  have h2 := h1.step (.scheduler (.spawn rfl rfl))
  have h3 := h2.step (.scheduler (.pin rfl rfl rfl))
  have h4 := h3.step (.worker (t := 0) (.lock rfl rfl rfl))
  have h5 := h4.step (.worker (t := 0) (.check_false rfl rfl rfl))
  have h6 := h5.step (.scheduler (.spawn rfl rfl))
  have h7 := h6.step (.scheduler (.pin rfl rfl rfl))
  have h8 := h7.step (.scheduler (.loop_end rfl (by decide)))
  have h9 := h8.step (.scheduler (.lock rfl rfl))
  have h10 := h9.step (.scheduler (.set_pause rfl))
  exact ⟨_, h10, Finset.mem_insert_self _ _, rfl⟩

/-- The scheduler of a priority call falls asleep before the worker is ready,
    and has not been notified yet. -/
theorem scheduler_asleep :
    ∃ s, Reachable (harness nullApi [⟨.priority, [nullSchedule 1], 0⟩] ()) s ∧
      .scheduler ∈ s.mon.waiting ∧ s.ready = true := by
  have h0 : Reachable (harness nullApi [⟨.priority, [nullSchedule 1], 0⟩] ())
    (initial _ ()) := .init rfl
  have h1 := h0.step (.scheduler (.start_call rfl rfl))
  have h2 := h1.step (.scheduler (.spawn rfl rfl))
  have h3 := h2.step (.scheduler (.pin rfl rfl rfl))
  have h4 := h3.step (.scheduler (.lock rfl rfl))
  have h5 := h4.step (.scheduler (.set_pause rfl))
  have h6 := h5.step (.scheduler (.unlock rfl))
  have h7 := h6.step (.scheduler (.notify_one rfl rfl (.inl ⟨rfl, rfl⟩)))
  have h8 := h7.step (.scheduler (.lock_ready rfl rfl))
  have h9 := h8.step (.scheduler (.check_ready_false rfl rfl))
  have h10 := h9.step (.worker (t := 0) (.lock rfl rfl rfl))
  have h11 := h10.step (.worker (t := 0) (.check_true rfl rfl rfl))
  have h12 := h11.step (.worker (t := 0) (.add rfl rfl))
  have h13 := h12.step (.worker (t := 0) (.warmup_end rfl rfl (Nat.le_refl 0)))
  have h14 := h13.step (.worker (t := 0) (.reset rfl rfl))
  have h15 := h14.step (.worker (t := 0) (.measure_call rfl rfl))
  have h16 := h15.step (.worker (t := 0) (.measure_return rfl rfl))
  have h17 := h16.step (.worker (t := 0) (.end_ rfl rfl))
  have h18 := h17.step (.worker (t := 0) (.set_ready rfl rfl))
  exact ⟨_, h18, Finset.mem_insert_self _ _, rfl⟩

/-- Whoever sleeps there is about to be notified. -/
theorem no_lost_wakeup_asleep :
    (∃ s, Reachable (harness nullApi [⟨.schedule, [nullSchedule 1, nullSchedule 2], 5⟩] ()) s ∧
      .worker 0 ∈ s.mon.waiting ∧ s.notifying ∧ (Finished s ∨ CanStep nullApi s)) ∧
    ∃ s, Reachable (harness nullApi [⟨.priority, [nullSchedule 1], 0⟩] ()) s ∧
      .scheduler ∈ s.mon.waiting ∧
      ∃ (t : Nat) (w : Worker Unit Unit Unit), s.workers[t]? = some w ∧
        w.pc.notifying = true := by
  obtain ⟨s, hs, hworker, hpause⟩ := worker_asleep
  obtain ⟨t, ht, hsched, hready⟩ := scheduler_asleep
  obtain ⟨hlive, hnotified, -⟩ := no_lost_wakeup (.inl ⟨_, _, rfl⟩) hs
  refine ⟨⟨s, hs, hworker, hnotified 0 hworker hpause, hlive⟩, t, ht, hsched, ?_⟩
  exact ((no_lost_wakeup (.inr (by simp)) ht).2.2 hsched hready).1

end Pcnt
