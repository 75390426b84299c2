import Microrev.Harness.Model

/-! # Who Holds the Mutex

    The lock discipline of the harness, for every sequence of calls and
    every interleaving: `mtx` is owned exactly by the thread whose program
    counter says so, and the wait set has only threads inside `cv.wait`.
    A worker runs its benchmark between `cv.wait` and `lck.unlock()`, so the
    discipline decides whether two benchmarks can overlap.
-/

namespace Pcnt

open Lts

section
variable {World Cnt Ev : Type} {api : CounterApi World Cnt Ev}
variable {s s' : State World Cnt Ev} {t : Nat} {w : Worker World Cnt Ev}

/-! ### What One Step Can Touch -/

/-- A worker step moves that worker and leaves alone what only the scheduler
    writes. -/
theorem WorkerStep.frame (h : WorkerStep api t s s') :
    ∃ w pc, s.workers[t]? = some w ∧ s'.workers = s.workers.set t { w with pc := pc } ∧
      s'.pc = s.pc ∧ s'.threads = s.threads ∧ s'.affinity = s.affinity ∧
      s'.todo = s.todo ∧ s'.returned = s.returned ∧ s'.base = s.base ∧ s'.pause = s.pause := by
  cases h <;>
    exact ⟨_, _, by assumption, rfl, rfl, rfl, rfl, rfl, rfl, rfl, rfl⟩

/-- The entries of the worker list after one worker moved. -/
theorem getElem?_moved {l : List (Worker World Cnt Ev)} {w' : Worker World Cnt Ev} {u : Nat}
    (hw : l[t]? = some w) :
    (l.set t w')[u]? = if u = t then some w' else l[u]? := by
  obtain ⟨hlt, _⟩ := List.getElem?_eq_some_iff.mp hw
  rw [List.getElem?_set]
  by_cases hu : u = t
  · subst hu
    simp [hlt]
  · simp [hu, Ne.symm hu]

/-! ### The Lock Discipline -/

def SchedPc.holdsLock : SchedPc World Cnt Ev → Bool
  | .running _ pc => pc.holdsLock
  | _ => false

/-- The thread that owns `mtx`, read off the program counters. -/
def State.holds (s : State World Cnt Ev) : Actor → Prop
  | .scheduler => s.pc.holdsLock = true
  | .worker t => ∃ w, s.workers[t]? = some w ∧ w.pc.holdsLock = true

theorem holds_moved_self {w' : Worker World Cnt Ev} (hw : s.workers[t]? = some w)
    (hs : s'.workers = s.workers.set t w') :
    s'.holds (.worker t) ↔ w'.pc.holdsLock = true := by
  simp [State.holds, hs, getElem?_moved hw]

theorem holds_moved_other {w' : Worker World Cnt Ev} (hw : s.workers[t]? = some w)
    (hs : s'.workers = s.workers.set t w') (hpc : s'.pc = s.pc) (b : Actor)
    (hb : b ≠ .worker t) : s'.holds b ↔ s.holds b := by
  cases b with
  | scheduler => simp [State.holds, hpc]
  | worker u =>
    have hu : u ≠ t := fun h => hb (by rw [h])
    simp [State.holds, hs, getElem?_moved hw, hu]

/-- No scheduler step changes whether a worker owns the mutex: a new thread
    has not locked anything, and joining leaves program counters alone. -/
theorem SchedulerStep.holds_worker (h : SchedulerStep api s s') (u : Nat) :
    s'.holds (.worker u) ↔ s.holds (.worker u) := by
  cases h
  case spawn c i sch _ _ =>
    simp only [State.holds, State.goto, State.spawn, List.getElem?_append]
    split
    · rfl
    · next hlt =>
      have hnone : s.workers[u]? = none := List.getElem?_eq_none (by omega)
      rw [hnone]
      cases hu : u - s.workers.length with
      | zero => simp [WorkerPc.holdsLock]
      | succ n => simp
  case join c i k t w _ _ hw _ =>
    simp only [State.holds, State.goto]
    rw [getElem?_moved hw]
    split
    · next hu => subst hu; simp [hw]
    · rfl
  all_goals rfl

/-- **Lock discipline**: the owner of `mtx` is the thread whose program
    counter says so. -/
def LockInv (s : State World Cnt Ev) : Prop := s.mon.Owned s.holds

theorem lock_inv_initial (calls : List (Call World Cnt Ev)) (world : World) :
    LockInv (initial calls world) := by
  apply Monitor.Owned.of_fresh
  intro a
  cases a <;> simp [State.holds, initial, SchedPc.holdsLock]

/-- A worker step that neither takes nor gives up the mutex. -/
theorem lock_inv_stay {pc : WorkerPc} (hinv : LockInv s) (hw : s.workers[t]? = some w)
    (hs : s'.workers = s.workers.set t { w with pc := pc }) (hpc : s'.pc = s.pc)
    (howner : s'.mon.owner = s.mon.owner) (hsame : pc.holdsLock = w.pc.holdsLock) :
    LockInv s' := by
  apply Monitor.Owned.stay hinv howner
  intro b
  by_cases hb : b = .worker t
  · subst hb
    rw [holds_moved_self hw hs, hsame]
    simp [State.holds, hw]
  · exact holds_moved_other hw hs hpc b hb

theorem lock_inv_worker (hinv : LockInv s) (h : WorkerStep api t s s') : LockInv s' := by
  cases h with
  -- the two steps that take the mutex
  | lock hw _ hfree | relock hw _ _ hfree =>
    exact Monitor.Owned.acquire hinv hfree ((holds_moved_self hw rfl).mpr rfl)
      (holds_moved_other hw rfl rfl)
  -- waiting gives it up as unlocking does
  | check_false hw hp _ | unlock hw hp =>
    refine Monitor.Owned.give_up hinv (a := .worker t) ⟨_, hw, by rw [hp]; rfl⟩ rfl ?_
      (holds_moved_other hw rfl rfl)
    rw [holds_moved_self hw rfl]
    simp [WorkerPc.holdsLock]
  | notify hw hp hm =>
    exact lock_inv_stay hinv hw rfl rfl hm.owner (by rw [hp]; rfl)
  | check_true hw hp _ | add hw hp | warmup_call hw hp _ | warmup_return hw hp
  | warmup_end hw hp _ | reset hw hp | measure_call hw hp | measure_return hw hp
  | end_ hw hp | set_ready hw hp =>
    exact lock_inv_stay hinv hw rfl rfl rfl (by rw [hp]; rfl)

theorem lock_inv_scheduler (hinv : LockInv s) (h : SchedulerStep api s s') : LockInv s' := by
  have hother : ∀ b, b ≠ .scheduler → (s'.holds b ↔ s.holds b) := by
    intro b hb
    cases b with
    | scheduler => exact absurd rfl hb
    | worker u => exact h.holds_worker u
  -- steps that neither take nor give up the mutex
  have hstay : s'.mon.owner = s.mon.owner → s'.pc.holdsLock = s.pc.holdsLock → LockInv s' := by
    intro howner hsame
    apply Monitor.Owned.stay hinv howner
    intro b
    by_cases hb : b = .scheduler
    · subst hb
      simp [State.holds, hsame]
    · exact hother b hb
  cases h with
  | lock _ hfree | lock_ready _ hfree | relock _ _ hfree =>
    exact Monitor.Owned.acquire hinv hfree rfl hother
  | unlock hp | check_ready_false hp _ | unlock_ready hp =>
    refine Monitor.Owned.give_up hinv (a := .scheduler) ?_ rfl ?_ hother
    · simp [State.holds, hp, SchedPc.holdsLock, CallPc.holdsLock]
    · simp [State.holds, State.goto, SchedPc.holdsLock, CallPc.holdsLock]
  | notify_one hp _ hm =>
    exact hstay hm.owner (by simp [hp, State.goto, SchedPc.holdsLock, CallPc.holdsLock])
  -- where the two calls go different ways
  | @pin c i sch t hp _ _ =>
    apply hstay rfl
    cases hk : c.kind <;>
      simp [hp, hk, State.goto, Call.afterPin, SchedPc.holdsLock, CallPc.holdsLock]
  | @loop_end c i hp _ =>
    apply hstay rfl
    cases hk : c.kind <;>
      simp [hp, hk, State.goto, Call.afterLoop, SchedPc.holdsLock, CallPc.holdsLock]
  | @join_end c i k hp _ =>
    apply hstay rfl
    cases hk : c.kind <;>
      simp [hp, hk, State.goto, Call.afterJoin, SchedPc.holdsLock, CallPc.holdsLock]
  | start_call hp _ | spawn hp _ | pin_stale hp _ | set_pause hp | notify_all hp _
  | check_ready_true hp _ | join hp _ _ _ | join_stale hp _ | clear hp | stats hp _
  | stats_end hp _ | reset_ready hp | reset_pause hp =>
    exact hstay rfl (by simp [hp, State.goto, SchedPc.holdsLock, CallPc.holdsLock])

theorem lock_inv {calls : List (Call World Cnt Ev)} {world : World}
    (h : Reachable (harness api calls world) s) : LockInv s := by
  apply h.invariant (fun s h0 => h0 ▸ lock_inv_initial calls world)
  intro s a s' hinv hstep
  cases hstep with
  | scheduler h => exact lock_inv_scheduler hinv h
  | worker h => exact lock_inv_worker hinv h
  | spurious _ => exact hinv

/-! ### The Wait Set -/

/-- Where a thread is while it is in the wait set. -/
def State.asleep (s : State World Cnt Ev) : Actor → Prop
  | .scheduler => ∃ c i, s.pc = .running c (.asleep i)
  | .worker t => ∃ w, s.workers[t]? = some w ∧ w.pc = .asleep

/-- Everybody in the wait set of `cv` is inside `cv.wait`. -/
def WaitInv (s : State World Cnt Ev) : Prop := ∀ a ∈ s.mon.waiting, s.asleep a

/-- Moving a worker that is not in the wait set keeps the others asleep. -/
theorem asleep_moved {w' : Worker World Cnt Ev} (hw : s.workers[t]? = some w)
    (hs : s'.workers = s.workers.set t w') (hpc : s'.pc = s.pc) (b : Actor)
    (hb : b ≠ .worker t) : s'.asleep b ↔ s.asleep b := by
  cases b with
  | scheduler => simp [State.asleep, hpc]
  | worker u =>
    have hu : u ≠ t := fun h => hb (by rw [h])
    simp [State.asleep, hs, getElem?_moved hw, hu]

theorem wait_inv_worker (hinv : WaitInv s) (h : WorkerStep api t s s') : WaitInv s' := by
  obtain ⟨w₀, pc₀, hw₀, hs₀, hpc₀, _⟩ := h.frame
  have hother := asleep_moved hw₀ hs₀ hpc₀
  -- enough that the worker that moves was not in the wait set
  have hsub : ∀ w pc, s.workers[t]? = some w → w.pc ≠ .asleep ∨ .worker t ∉ s.mon.waiting →
      s'.workers = s.workers.set t { w with pc := pc } → s'.pc = s.pc →
      s'.mon.waiting ⊆ s.mon.waiting → WaitInv s' := by
    intro w pc hw hawake hs hpc hm b hb
    have hb' := hm hb
    refine (hother b ?_).mpr (hinv b hb')
    rintro rfl
    rcases hawake with hne | hnot
    · obtain ⟨w', hw', hp⟩ := hinv _ hb'
      rw [hw] at hw'
      obtain rfl := Option.some.inj hw'
      exact hne hp
    · exact hnot hb'
  cases h with
  -- the only step into the wait set, and it ends inside `cv.wait`
  | check_false hw hp _ =>
    intro b hb
    by_cases hbt : b = .worker t
    · subst hbt
      exact ⟨_, (getElem?_moved hw).trans (if_pos rfl), rfl⟩
    · refine (hother b hbt).mpr (hinv b ?_)
      simpa [State.move, hbt] using hb
  | relock hw _ hnot _ => exact hsub _ _ hw (.inr hnot) rfl rfl (Finset.Subset.refl _)
  | notify hw hp hm => exact hsub _ _ hw (.inl (by simp [hp])) rfl rfl hm.subset
  | lock hw hp _ | check_true hw hp _ | add hw hp | warmup_call hw hp _ | warmup_return hw hp
  | warmup_end hw hp _ | reset hw hp | measure_call hw hp | measure_return hw hp
  | end_ hw hp | set_ready hw hp | unlock hw hp =>
    exact hsub _ _ hw (.inl (by simp [hp])) rfl rfl (Finset.Subset.refl _)

/-- The scheduler moves no worker into or out of `cv.wait`. -/
theorem SchedulerStep.asleep_worker (h : SchedulerStep api s s') {u : Nat}
    (hu : s.asleep (.worker u)) : s'.asleep (.worker u) := by
  obtain ⟨w, hw, hp⟩ := hu
  cases h
  case spawn =>
    refine ⟨w, ?_, hp⟩
    simp [State.goto, State.spawn,
      List.getElem?_append_left (List.getElem?_eq_some_iff.mp hw).1, hw]
  case join c i k t wt hjoin hdone _ _ =>
    by_cases hut : u = t
    · subst hut
      simp_all
    · refine ⟨w, ?_, hp⟩
      simp only [State.goto]
      rw [getElem?_moved (by assumption), if_neg hut, hw]
  all_goals exact ⟨w, hw, hp⟩

theorem wait_inv_scheduler (hinv : WaitInv s) (h : SchedulerStep api s s') : WaitInv s' := by
  -- enough that the scheduler itself was not in the wait set
  have hsub : s'.mon.waiting ⊆ s.mon.waiting →
      (.scheduler ∈ s.mon.waiting → ¬ s.asleep .scheduler) → WaitInv s' := by
    intro hm hawake b hb
    cases b with
    | scheduler => exact absurd (hinv _ (hm hb)) (hawake (hm hb))
    | worker u => exact h.asleep_worker (hinv _ (hm hb))
  have hsched := h
  cases h with
  | @check_ready_false c i hp _ =>
    intro b hb
    cases b with
    | scheduler => exact ⟨c, i, rfl⟩
    | worker u =>
      refine hsched.asleep_worker (hinv _ ?_)
      simpa [State.goto] using hb
  | relock hp hnot _ => exact hsub (Finset.Subset.refl _) (fun h => absurd h hnot)
  | notify_one hp _ hm => exact hsub hm.subset (fun _ => by simp [State.asleep, hp])
  | notify_all hp _ =>
    refine hsub ?_ (fun _ => by simp [State.asleep, hp])
    simp [State.goto]
  | start_call hp _ | spawn hp _ | pin hp _ _ | pin_stale hp _ | loop_end hp _ | lock hp _
  | set_pause hp | unlock hp | lock_ready hp _ | check_ready_true hp _ | unlock_ready hp
  | join hp _ _ _ | join_stale hp _ | join_end hp _ | clear hp | stats hp _ | stats_end hp _
  | reset_ready hp | reset_pause hp =>
    exact hsub (Finset.Subset.refl _) (fun _ => by simp [State.asleep, hp])

theorem wait_inv {calls : List (Call World Cnt Ev)} {world : World}
    (h : Reachable (harness api calls world) s) : WaitInv s := by
  refine h.invariant (fun s h0 a ha => ?_) ?_
  · subst h0
    simp [initial] at ha
  intro s a s' hinv hstep
  cases hstep with
  | scheduler h => exact wait_inv_scheduler hinv h
  | worker h => exact wait_inv_worker hinv h
  | spurious _ => exact fun b hb => hinv b (Finset.mem_of_mem_erase hb)

/-! ### Overlap of Benchmark Calls -/

/-- Worker `t` is executing its benchmark. -/
def State.inBenchmark (s : State World Cnt Ev) (t : Nat) : Prop :=
  ∃ w, s.workers[t]? = some w ∧ w.pc.inBenchmark = true

theorem inBenchmark_holdsLock {pc : WorkerPc} (h : pc.inBenchmark = true) :
    pc.holdsLock = true := by
  cases pc <;> simp_all [WorkerPc.inBenchmark, WorkerPc.holdsLock]

theorem State.inBenchmark.holds {u : Nat} (h : s.inBenchmark u) : s.holds (.worker u) := by
  obtain ⟨w, hw, hp⟩ := h
  exact ⟨w, hw, inBenchmark_holdsLock hp⟩

/-- **Serialisation**: a benchmark call runs with `mtx` held, so no two
    workers are ever inside a benchmark together. -/
theorem inBenchmark_unique {calls : List (Call World Cnt Ev)} {world : World}
    (h : Reachable (harness api calls world) s) {u v : Nat}
    (hu : s.inBenchmark u) (hv : s.inBenchmark v) : u = v := by
  have huv := (lock_inv h).unique hu.holds hv.holds
  exact Actor.worker.inj huv

/-- Some interleaving of `counters_with_schedule( svec, warmup )`, called on a
    fresh object, has two workers inside their benchmark at once. -/
def CanOverlap (api : CounterApi World Cnt Ev) (svec : List (Schedule World Cnt Ev))
    (warmup : Nat) (world : World) : Prop :=
  ∃ s, Reachable (harness api [⟨.schedule, svec, warmup⟩] world) s ∧
    ∃ t u, t ≠ u ∧ s.inBenchmark t ∧ s.inBenchmark u

/-- **No overlap**: schedules given together never run together. -/
theorem schedules_never_overlap (svec : List (Schedule World Cnt Ev)) (warmup : Nat)
    (world : World) : ¬ CanOverlap api svec warmup world := by
  rintro ⟨s, hs, t, u, hne, ht, hu⟩
  exact hne (inBenchmark_unique hs ht hu)

end

/-- Two schedules on two cores are serialised. -/
theorem two_schedules_serialised :
    ¬ ∀ svec : List (Schedule Unit Unit Unit), 2 ≤ svec.length →
      CanOverlap nullApi svec 5 () := by
  intro hall
  obtain ⟨s, hs, t, u, hne, ht, hu⟩ := hall [nullSchedule 1, nullSchedule 2] (Nat.le_refl 2)
  exact hne (inBenchmark_unique hs ht hu)

end Pcnt
