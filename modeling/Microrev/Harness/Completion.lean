import Microrev.Harness.Threads

/-! # Runs to Completion

    Every call that finds no left-over entry in `threads` can be run to its
    end, from any state between two calls. The runs built here let the
    scheduler and the workers take turns: nobody ever has to wait. They show
    that the calls do return in some interleaving, and they lead to the
    states in which a left-over entry or an early benchmark shows up.
-/

namespace Pcnt

open Lts

section
variable {World Cnt Ev : Type} {api : CounterApi World Cnt Ev}
variable {s s' s₀ : State World Cnt Ev} {c : Call World Cnt Ev} {t : Nat}
variable {calls rest : List (Call World Cnt Ev)} {world : World}

/-! ### One Worker -/

/-- `s` is `s₀` after worker `t`, which was `w`, went to `pc` alone. -/
structure WorkerAt (s₀ : State World Cnt Ev) (t : Nat) (w : Worker World Cnt Ev)
    (owner : Option Actor) (pc : WorkerPc) (s : State World Cnt Ev) : Prop where
  was : s₀.workers[t]? = some w
  workers : s.workers = s₀.workers.set t { w with pc := pc }
  mon : s.mon = { owner := owner, waiting := ∅ }
  sched : s.pc = s₀.pc
  threads : s.threads = s₀.threads
  affinity : s.affinity = s₀.affinity
  todo : s.todo = s₀.todo
  returned : s.returned = s₀.returned
  base : s.base = s₀.base
  pause : s.pause = s₀.pause

section worker
variable {w : Worker World Cnt Ev} {o o' : Option Actor} {pc pc' : WorkerPc}

theorem WorkerAt.get (h : WorkerAt s₀ t w o pc s) : s.workers[t]? = some { w with pc := pc } := by
  rw [h.workers, getElem?_moved h.was, if_pos rfl]

theorem WorkerAt.owner (h : WorkerAt s₀ t w o pc s) : s.mon.owner = o := by rw [h.mon]

theorem WorkerAt.others (h : WorkerAt s₀ t w o pc s) {u : Nat} (hu : u ≠ t) :
    s.workers[u]? = s₀.workers[u]? := by
  rw [h.workers, getElem?_moved h.was, if_neg hu]

theorem WorkerAt.next (h : WorkerAt s₀ t w o pc s) (hstep : WorkerStep api t s s')
    (hw : s'.workers = s.workers.set t { w with pc := pc' })
    (hmon : s'.mon = { owner := o', waiting := ∅ }) : WorkerAt s₀ t w o' pc' s' := by
  obtain ⟨_, _, -, -, hpc, ht, ha, htodo, hret, hb, hp⟩ := hstep.frame
  refine ⟨h.was, by rw [hw, h.workers, List.set_set], hmon, hpc.trans h.sched,
    ht.trans h.threads, ha.trans h.affinity, htodo.trans h.todo, hret.trans h.returned,
    hb.trans h.base, hp.trans h.pause⟩

/-- The warm-up loop. -/
theorem WorkerAt.warms_up (h : WorkerAt s₀ t w o (.warmup 0) s) :
    CanReach (harness api calls world) s (WorkerAt s₀ t w o (.warmup w.warmup)) := by
  refine CanReach.loop (fun j => WorkerAt s₀ t w o (.warmup j)) ?_ (Nat.zero_le _) h
  intro j s hj h
  have h1 : WorkerStep api t _ _ := .warmup_call h.get rfl hj
  have h1' := h.next h1 rfl h.mon
  have h2 : WorkerStep api t _ _ := .warmup_return h1'.get rfl
  exact .step (.worker h1) (.step (.worker h2) (.here (h1'.next h2 rfl h1'.mon)))

theorem takes_lock (api : CounterApi World Cnt Ev) (hw : s.workers[t]? = some w)
    (hp : w.pc = .start) (hmon : s.mon = Monitor.fresh) :
    ∃ s', WorkerStep api t s s' ∧ WorkerAt s t w (some (.worker t)) .check s' :=
  ⟨_, .lock hw hp (by rw [hmon]; rfl), hw, rfl, congrArg (fun m => m.acquire (.worker t)) hmon,
    rfl, rfl, rfl, rfl, rfl, rfl, rfl⟩

/-- A released worker gets the mutex and enters its measured call. -/
theorem enters_benchmark (hw : s.workers[t]? = some w) (hp : w.pc = .start)
    (hpause : s.pause = false) (hmon : s.mon = Monitor.fresh) :
    CanReach (harness api calls world) s (WorkerAt s t w (some (.worker t)) .in_measure) := by
  -- the gate is open: it passes without going to sleep
  obtain ⟨s1, h1, h1'⟩ := takes_lock api hw hp hmon
  have h2 : WorkerStep api t _ _ := .check_true h1'.get rfl (h1'.pause.trans hpause)
  have h2' := h1'.next h2 rfl h1'.mon
  have h3 : WorkerStep api t _ _ := .add h2'.get rfl
  have h3' := h2'.next h3 rfl h2'.mon
  refine .step (.worker h1) (.step (.worker h2) (.step (.worker h3) ?_))
  -- after the warm-up calls
  apply h3'.warms_up.bind
  intro s4 h4'
  have h5 : WorkerStep api t _ _ := .warmup_end h4'.get rfl (Nat.le_refl _)
  have h5' := h4'.next h5 rfl h4'.mon
  have h6 : WorkerStep api t _ _ := .reset h5'.get rfl
  have h6' := h5'.next h6 rfl h5'.mon
  have h7 : WorkerStep api t _ _ := .measure_call h6'.get rfl
  have h7' := h6'.next h7 rfl h6'.mon
  exact .step (.worker h5) (.step (.worker h6) (.step (.worker h7) (.here h7')))

/-- From its measured call a worker runs to its end. -/
theorem WorkerAt.finishes (h : WorkerAt s₀ t w (some (.worker t)) .in_measure s) :
    CanReach (harness api calls world) s fun s' =>
      WorkerAt s₀ t w none .done s' ∧ s'.ready = true := by
  have h1 : WorkerStep api t _ _ := .measure_return h.get rfl
  have h1' := h.next h1 rfl h.mon
  have h2 : WorkerStep api t _ _ := .end_ h1'.get rfl
  have h2' := h1'.next h2 rfl h1'.mon
  have h3 : WorkerStep api t _ _ := .set_ready h2'.get rfl
  have h3' := h2'.next h3 rfl h2'.mon
  have h4 : WorkerStep api t _ _ := .unlock h3'.get rfl
  have h4' : WorkerAt s₀ t w none .notify _ :=
    h3'.next h4 rfl (congrArg Monitor.release h3'.mon)
  -- nobody waits, so the notification is lost without harm
  have h5 : WorkerStep api t _ _ := .notify h4'.get rfl (.inl ⟨by rw [h4'.mon], rfl⟩)
  have h5' := h4'.next h5 rfl h4'.mon
  exact .step (.worker h1) (.step (.worker h2) (.step (.worker h3) (.step (.worker h4)
    (.step (.worker h5) (.here ⟨h5', rfl⟩)))))

theorem works_to_done (hw : s.workers[t]? = some w) (hp : w.pc = .start)
    (hpause : s.pause = false) (hmon : s.mon = Monitor.fresh) :
    CanReach (harness api calls world) s fun s' =>
      WorkerAt s t w none .done s' ∧ s'.ready = true :=
  (enters_benchmark hw hp hpause hmon).bind fun _ h => h.finishes

end worker

/-! ### `counters_with_schedule` -/

/-- Between two calls. -/
structure AtRest (threads : List (Option Nat)) (todo : List (Call World Cnt Ev))
    (s : State World Cnt Ev) : Prop where
  pc : s.pc = .idle
  mon : s.mon = Monitor.fresh
  threads : s.threads = threads
  todo : s.todo = todo

/-- In the loop over `svec`, before round `i`; nobody has moved yet. -/
structure Spawning (c : Call World Cnt Ev) (rest : List (Call World Cnt Ev)) (i : Nat)
    (s : State World Cnt Ev) : Prop where
  pc : s.pc = .running c (.spawn i)
  mon : s.mon = Monitor.fresh
  todo : s.todo = rest
  threads : s.threads = (List.range i).map fun k => some (s.base + k)
  length : s.workers.length = s.base + i
  start : ∀ k < i, ∃ w, s.workers[s.base + k]? = some w ∧ w.pc = .start

/-- In the loop over `threads`, before round `k`; the later threads have not
    moved yet. -/
structure Joining (c : Call World Cnt Ev) (rest : List (Call World Cnt Ev)) (k : Nat)
    (s : State World Cnt Ev) : Prop where
  pc : s.pc = .running c (.join c.svec.length k)
  mon : s.mon = Monitor.fresh
  todo : s.todo = rest
  pause : s.pause = false
  threads : s.threads = List.replicate k none ++
    (List.range' k (c.svec.length - k)).map fun j => some (s.base + j)
  start : ∀ j, k ≤ j → j < c.svec.length →
    ∃ w, s.workers[s.base + j]? = some w ∧ w.pc = .start

theorem AtRest.starts (h : AtRest [] (c :: rest) s) :
    CanReach (harness api calls world) s (Spawning c rest 0) := by
  refine .step (.scheduler (.start_call h.pc h.todo)) (.here ?_)
  exact ⟨rfl, h.mon, rfl, h.threads, rfl, by simp⟩

/-- One round of spawning and pinning. -/
theorem Spawning.next {i : Nat} (hk : c.kind = .schedule) (hi : i < c.svec.length)
    (h : Spawning c rest i s) :
    CanReach (harness api calls world) s (Spawning c rest (i + 1)) := by
  have hsch : c.svec[i]? = some c.svec[i] := List.getElem?_eq_getElem hi
  -- `pin_to_core( i, .. )` finds the thread that was just pushed
  have hslot : ((s.spawn api c i c.svec[i]).goto c (.pin i)).threads[c.pinIdx i]? =
      some (some (s.base + i)) := by
    simp only [State.goto, State.spawn, Call.pinIdx, hk, h.threads, h.length]
    simp
  refine .step (.scheduler (.spawn h.pc hsch)) (.step (.scheduler (.pin rfl hsch hslot)) ?_)
  refine .here ⟨by simp [Call.afterPin, hk, State.goto], h.mon, h.todo, ?_, ?_, ?_⟩
  · simp only [State.goto, State.spawn, h.threads, h.length, List.range_succ, List.map_append]
    rfl
  · simp only [State.goto, State.spawn, List.length_append, h.length]
    rfl
  · intro k hk
    simp only [State.goto, State.spawn]
    -- the threads so far, and the new one
    rcases Nat.lt_succ_iff_lt_or_eq.mp hk with hlt | rfl
    · rw [List.getElem?_append_left (by have := h.length; omega)]
      exact h.start k hlt
    · rw [← h.length, List.getElem?_concat_length]
      exact ⟨_, rfl, rfl⟩

theorem schedule_loop_end {i : Nat} (hk : c.kind = .schedule)
    (hp : s.pc = .running c (.spawn i)) (hle : c.svec.length ≤ i) :
    SchedulerStep api s (s.goto c (.lock i)) := by
  have hend : SchedulerStep api s _ := .loop_end hp hle
  simpa only [Call.afterLoop, hk] using hend

/-- The release, when nobody is in the wait set. -/
theorem Spawning.released (hk : c.kind = .schedule) (h : Spawning c rest c.svec.length s) :
    CanReach (harness api calls world) s (Joining c rest 0) := by
  refine .step (.scheduler (schedule_loop_end hk h.pc (Nat.le_refl _)))
    (.step (.scheduler (.lock rfl ?_)) (.step (.scheduler (.set_pause rfl))
      (.step (.scheduler (.unlock rfl)) (.step (.scheduler (.notify_all rfl hk)) (.here ?_)))))
  · simp [State.goto, h.mon]
  refine ⟨rfl, ?_, h.todo, rfl, ?_, fun j _ hj => h.start j hj⟩
  · simp only [State.goto, h.mon]
    rfl
  · simpa [State.goto, List.range_eq_range'] using h.threads

/-- Run the next thread to its end and join it. -/
theorem Joining.next {k : Nat} (hk : k < c.svec.length) (h : Joining c rest k s) :
    CanReach (harness api calls world) s (Joining c rest (k + 1)) := by
  obtain ⟨w, hw, hp⟩ := h.start k (Nat.le_refl k) hk
  refine (works_to_done hw hp h.pause h.mon).bind fun s1 ⟨h1, _⟩ => ?_
  -- the vector splits at the entry to be joined
  have hslots : s1.threads = List.replicate k none ++ some (s1.base + k) ::
      (List.range' (k + 1) (c.svec.length - (k + 1))).map fun j => some (s1.base + j) := by
    rw [h1.threads, h.threads, h1.base,
      show c.svec.length - k = c.svec.length - (k + 1) + 1 by omega, List.range'_succ]
    rfl
  have hslot : s1.threads[k]? = some (some (s1.base + k)) := by
    rw [hslots, List.getElem?_append_right (by simp)]
    simp
  refine .step (.scheduler (.join (h1.sched.trans h.pc) hslot (h1.base ▸ h1.get) rfl)) (.here ?_)
  refine ⟨rfl, h1.mon, h1.todo.trans h.todo, h1.pause.trans h.pause, ?_, ?_⟩
  · simp only [State.goto, hslots]
    rw [List.set_append_right _ _ (by simp), List.replicate_succ', List.append_assoc]
    simp
  · intro j hkj hj
    obtain ⟨v, hv, hvp⟩ := h.start j (by omega) hj
    refine ⟨v, ?_, hvp⟩
    -- the later threads were not touched
    have hne : s.base + j ≠ s.base + k := by omega
    simp only [State.goto, h1.base]
    rw [List.getElem?_set_ne hne.symm, h1.others hne]
    exact hv

/-- The loop that prints the counters, and the return. -/
theorem Joining.returns (hk : c.kind = .schedule) (h : Joining c rest c.svec.length s) :
    CanReach (harness api calls world) s fun s' =>
      AtRest (List.replicate c.svec.length none) rest s' ∧ s'.pause = false := by
  have hthreads : s.threads = List.replicate c.svec.length none := by simpa using h.threads
  have hend : SchedulerStep api s _ := .join_end h.pc (by simp [hthreads])
  simp only [Call.afterJoin, hk] at hend
  refine .step (.scheduler hend) ?_
  -- printing touches neither threads nor mutex
  refine (CanReach.loop (fun k s' => s'.pc = .running c (.stats k) ∧ s'.mon = Monitor.fresh ∧
      s'.threads = List.replicate c.svec.length none ∧ s'.todo = rest) ?_
    (Nat.zero_le c.svec.length) ⟨rfl, h.mon, hthreads, h.todo⟩).bind ?_
  · intro k s1 hk' hprinting
    obtain ⟨hpc, hrest⟩ := hprinting
    exact .step (.scheduler (.stats hpc hk')) (.here ⟨rfl, hrest⟩)
  · intro s1 hprinted
    obtain ⟨hpc, hmon, ht, htodo⟩ := hprinted
    exact .step (.scheduler (.stats_end hpc (Nat.le_refl _))) (.step (.scheduler (.reset_ready rfl))
      (.step (.scheduler (.reset_pause rfl)) (.here ⟨⟨rfl, hmon, ht, htodo⟩, rfl⟩)))

theorem schedule_returns (hk : c.kind = .schedule) (h : AtRest [] (c :: rest) s) :
    CanReach (harness api calls world) s fun s' =>
      AtRest (List.replicate c.svec.length none) rest s' ∧ s'.pause = false := by
  apply h.starts.bind
  intro s1 h1
  refine (CanReach.loop (Spawning c rest) (fun i s hi h => h.next hk hi)
    (Nat.zero_le c.svec.length) h1).bind fun s2 h2 => ?_
  apply (h2.released hk).bind
  intro s3 h3
  exact (CanReach.loop (Joining c rest) (fun k s hk h => h.next hk) (Nat.zero_le _) h3).bind
    fun s4 h4 => h4.returns hk

/-! ### `counters_with_priority_schedule` -/

/-- In the loop over `svec`, before round `i`. -/
structure InRound (c : Call World Cnt Ev) (rest : List (Call World Cnt Ev)) (i : Nat)
    (s : State World Cnt Ev) : Prop where
  pc : s.pc = .running c (.spawn i)
  mon : s.mon = Monitor.fresh
  todo : s.todo = rest
  threads : s.threads = []
  pause : 0 < i → s.pause = false

/-- The new thread is pinned, released and not noticed: it has not moved. -/
structure Released (c : Call World Cnt Ev) (rest : List (Call World Cnt Ev)) (i : Nat)
    (s : State World Cnt Ev) (t : Nat) : Prop where
  pc : s.pc = .running c (.lock_ready i)
  mon : s.mon = Monitor.fresh
  todo : s.todo = rest
  threads : s.threads = [some t]
  pause : s.pause = false
  start : ∃ w, s.workers[t]? = some w ∧ w.pc = .start

theorem priority_join_end {i k : Nat} (hk : c.kind = .priority)
    (hp : s.pc = .running c (.join i k)) (hle : s.threads.length ≤ k) :
    SchedulerStep api s (s.goto c (.clear i)) := by
  have hend : SchedulerStep api s _ := .join_end hp hle
  simpa only [Call.afterJoin, hk] using hend

theorem priority_loop_end {i : Nat} (hk : c.kind = .priority)
    (hp : s.pc = .running c (.spawn i)) (hle : c.svec.length ≤ i) :
    SchedulerStep api s (s.goto c .reset_ready) := by
  have hend : SchedulerStep api s _ := .loop_end hp hle
  simpa only [Call.afterLoop, hk] using hend

theorem InRound.released {i : Nat} (hk : c.kind = .priority) (hi : i < c.svec.length)
    (h : InRound c rest i s) :
    CanReach (harness api calls world) s fun s' => ∃ t, Released c rest i s' t := by
  have hsch : c.svec[i]? = some c.svec[i] := List.getElem?_eq_getElem hi
  -- the vector was empty, so the new thread is entry 0
  have hslot : ((s.spawn api c i c.svec[i]).goto c (.pin i)).threads[c.pinIdx i]? =
      some (some s.workers.length) := by
    simp [State.goto, State.spawn, Call.pinIdx, hk, h.threads]
  have hpin : SchedulerStep api ((s.spawn api c i c.svec[i]).goto c (.pin i)) _ :=
    .pin rfl hsch hslot
  simp only [Call.afterPin, hk] at hpin
  refine .step (.scheduler (.spawn h.pc hsch)) (.step (.scheduler hpin)
    (.step (.scheduler (.lock rfl ?_)) (.step (.scheduler (.set_pause rfl))
      (.step (.scheduler (.unlock rfl)) (.step (.scheduler (.notify_one rfl hk (.inl ⟨?_, rfl⟩)))
        (.here ⟨s.workers.length, rfl, ?_, h.todo, ?_, rfl, ?_⟩))))))
  · simp [State.goto, State.spawn, h.mon]
  · simp [State.goto, State.spawn, h.mon]
  · exact congrArg (fun m => (m.acquire .scheduler).release) h.mon
  · simp [State.goto, State.spawn, h.threads]
  · exact ⟨_, List.getElem?_concat_length .., rfl⟩

/-- One round: spawn, pin, release, wait, join, clear. -/
theorem InRound.next {i : Nat} (hk : c.kind = .priority) (hi : i < c.svec.length)
    (h : InRound c rest i s) :
    CanReach (harness api calls world) s (InRound c rest (i + 1)) := by
  refine (h.released hk hi).bind fun s1 ⟨t, h1⟩ => ?_
  obtain ⟨w, hw, hp⟩ := h1.start
  refine (works_to_done hw hp h1.pause h1.mon).bind fun s2 ⟨h2, hready⟩ => ?_
  -- `ready` is set, so the scheduler does not wait
  have hslot : s2.threads[0]? = some (some t) := by simp [h2.threads, h1.threads]
  have hset : s2.threads.set 0 none = [none] := by simp [h2.threads, h1.threads]
  refine .step (.scheduler (.lock_ready (h2.sched.trans h1.pc) h2.owner))
    (.step (.scheduler (.check_ready_true rfl hready)) (.step (.scheduler (.unlock_ready rfl))
      (.step (.scheduler (.join rfl hslot h2.get rfl))
        (.step (.scheduler (priority_join_end hk rfl ?_)) (.step (.scheduler (.clear rfl))
          (.here ?_))))))
  · simp [State.goto, hset]
  · exact ⟨rfl, congrArg (fun m => (m.acquire .scheduler).release) h2.mon,
      h2.todo.trans h1.todo, rfl, fun _ => h2.pause.trans h1.pause⟩

theorem AtRest.enters (h : AtRest [] (c :: rest) s) :
    CanReach (harness api calls world) s (InRound c rest 0) :=
  .step (.scheduler (.start_call h.pc h.todo)) (.here ⟨rfl, h.mon, rfl, h.threads, by simp⟩)

theorem priority_returns (hk : c.kind = .priority) (h : AtRest [] (c :: rest) s) :
    CanReach (harness api calls world) s fun s' => AtRest [] rest s' ∧ s'.pause = false := by
  apply h.enters.bind
  intro s1 h1
  refine (CanReach.loop (InRound c rest) (fun i s hi h => h.next hk hi)
    (Nat.zero_le c.svec.length) h1).bind fun s2 h2 => ?_
  exact .step (.scheduler (priority_loop_end hk h2.pc (Nat.le_refl _)))
    (.step (.scheduler (.reset_ready rfl)) (.step (.scheduler (.reset_pause rfl))
      (.here ⟨⟨rfl, h2.mon, h2.threads, h2.todo⟩, rfl⟩)))

/-! ### Sequences of Calls -/

/-- What a call that finds `threads` in this shape leaves in it. -/
def Call.leftover (c : Call World Cnt Ev) (threads : List (Option Nat)) : List (Option Nat) :=
  if c.leavesThreads then List.replicate c.svec.length none else threads

/-- A priority call without schedules never looks at `threads`. -/
theorem empty_returns {threads : List (Option Nat)} (hk : ¬ c.usesThreads)
    (h : AtRest threads (c :: rest) s) :
    CanReach (harness api calls world) s fun s' => AtRest threads rest s' ∧ s'.pause = false := by
  have hprio : c.kind = .priority := by
    cases hc : c.kind with
    | schedule => exact absurd (.inl hc) hk
    | priority => rfl
  have hempty : c.svec = [] := by
    by_contra hne
    exact hk (.inr hne)
  exact .step (.scheduler (.start_call h.pc h.todo))
    (.step (.scheduler (priority_loop_end hprio rfl (by simp [hempty])))
      (.step (.scheduler (.reset_ready rfl)) (.step (.scheduler (.reset_pause rfl))
        (.here ⟨⟨rfl, h.mon, h.threads, rfl⟩, rfl⟩))))

/-- **One call returns** when it does not meet left-over entries. -/
theorem call_returns {threads : List (Option Nat)} (hclean : c.usesThreads → threads = [])
    (h : AtRest threads (c :: rest) s) :
    CanReach (harness api calls world) s fun s' =>
      AtRest (c.leftover threads) rest s' ∧ s'.pause = false := by
  -- a call that looks at `threads` finds it empty
  by_cases huses : c.usesThreads
  · obtain rfl := hclean huses
    cases hk : c.kind with
    | schedule =>
      have hleft : c.leftover [] = List.replicate c.svec.length none := by
        by_cases hne : c.svec = [] <;> simp [Call.leftover, Call.leavesThreads, hk, hne]
      rw [hleft]
      exact schedule_returns hk h
    | priority =>
      have hleft : c.leftover [] = [] := by simp [Call.leftover, Call.leavesThreads, hk]
      rw [hleft]
      exact priority_returns hk h
  · have hleaves : ¬ c.leavesThreads := fun hl => huses (.inl hl.1)
    simpa [Call.leftover, hleaves] using empty_returns huses h

/-- A reusable sequence of calls runs to its end, whatever comes after it. -/
theorem calls_return {pre : List (Call World Cnt Ev)} {threads : List (Option Nat)}
    (hreuse : Reusable pre) (hclean : ∀ c ∈ pre, c.usesThreads → threads = [])
    (h : AtRest threads (pre ++ rest) s) :
    CanReach (harness api calls world) s fun s' =>
      AtRest (pre.foldl (fun ts c => c.leftover ts) threads) rest s' ∧
        (pre ≠ [] → s'.pause = false) := by
  induction pre generalizing s threads with
  | nil => exact .here ⟨h, by simp⟩
  | cons c pre ih =>
    obtain ⟨hhead, htail⟩ := List.pairwise_cons.mp hreuse
    refine (call_returns (hclean c (by simp)) h).bind fun s1 ⟨h1, hpause⟩ => ?_
    -- a call that leaves entries is followed by calls that do not look at them
    have hclean' : ∀ d ∈ pre, d.usesThreads → c.leftover threads = [] := by
      intro d hd huses
      have hleaves : ¬ c.leavesThreads := fun hl => hhead d hd hl huses
      simp [Call.leftover, hleaves, hclean d (by simp [hd]) huses]
    cases pre with
    | nil => exact .here ⟨h1, fun _ => hpause⟩
    | cons d pre =>
      exact (ih htail hclean' h1).bind fun s2 ⟨h2, hp2⟩ => .here ⟨h2, by simpa using hp2⟩

theorem atRest_initial : AtRest [] calls (initial calls world) := ⟨rfl, rfl, rfl, rfl⟩

/-- **Completion**: some run finishes all calls of a reusable sequence. -/
theorem can_finish (hreuse : Reusable calls) :
    CanReach (harness api calls world) (initial calls world) fun s =>
      s.pc = .idle ∧ s.todo = [] := by
  have h : AtRest [] (calls ++ []) (initial calls world) := by
    rw [List.append_nil]
    exact atRest_initial
  exact (calls_return hreuse (fun _ _ _ => rfl) h).bind fun s ⟨hs, _⟩ => .here ⟨hs.pc, hs.todo⟩

end

end Pcnt
