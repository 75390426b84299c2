import Microrev.Harness.Completion

/-! # Pinned before Run

    The only gate between a worker and its benchmark is the flag `pause`. It
    starts out true and nothing ever sets it again, so it holds back the
    threads of the first release only. This file works out for which
    sequences of calls every worker is pinned before it runs.
-/

namespace Pcnt

open Lts

section
variable {World Cnt Ev : Type} {api : CounterApi World Cnt Ev}
variable {s s' : State World Cnt Ev} {c : Call World Cnt Ev} {t : Nat} {pc : CallPc}
variable {calls rest : List (Call World Cnt Ev)} {world : World}

/-! ### The Condition -/

/-- None of these calls that is reached has a schedule. A parallel call that
    meets stale entries in `threads` is the last one reached. -/
def SpawnFree (stale : Bool) : List (Call World Cnt Ev) → Prop
  | [] => True
  | d :: rest => d.svec = [] ∧ ((stale = true ∧ d.kind = .schedule) ∨ SpawnFree stale rest)

/-- All threads are spawned before the first release: by one parallel call or
    by a priority call with at most one schedule, and that call comes first. -/
def PinsFirst : List (Call World Cnt Ev) → Prop
  | [] => True
  | c :: rest =>
    (c.kind = .schedule ∨ c.svec.length ≤ 1) ∧ SpawnFree (decide c.leavesThreads) rest

/-- Every worker inside its benchmark has been pinned to the core of its
    schedule. -/
def PinnedBeforeRun (s : State World Cnt Ev) : Prop :=
  ∀ t w, s.workers[t]? = some w → w.pc.inBenchmark = true →
    s.affinity t = some w.sched.core_id

/-! ### While the Gate is Closed -/

/-- The worker has seen `pause = false`. -/
def WorkerPc.pastGate : WorkerPc → Bool
  | .start | .check | .asleep => false
  | _ => true

/-- `born` threads have been spawned on this object, all by the running call,
    and the first `pinned` of them are pinned. -/
structure Gated (c : Call World Cnt Ev) (born pinned : Nat) (s : State World Cnt Ev) : Prop where
  length : s.workers.length = born
  threads : s.threads = (List.range born).map some
  sched : ∀ (k : Nat) (w : Worker World Cnt Ev), s.workers[k]? = some w →
    c.svec[k]? = some w.sched
  pinned : ∀ (k : Nat) (w : Worker World Cnt Ev), k < pinned → s.workers[k]? = some w →
    s.affinity k = some w.sched.core_id

/-- What the first call has done at each point before its release. -/
def Call.gatedAt (c : Call World Cnt Ev) (s : State World Cnt Ev) : CallPc → Prop
  | .spawn i => Gated c i i s ∧ (c.kind = .priority → i = 0)
  | .pin i => Gated c (i + 1) i s ∧ (c.kind = .priority → i = 0)
  | .lock i | .set_pause i => ∃ n, Gated c n n s ∧
    (c.kind = .schedule → n = i ∧ c.svec.length ≤ i) ∧ (c.kind = .priority → i = 0)
  | .reset_ready | .reset_pause => c.kind = .priority ∧ s.workers.length = 0
  | _ => False

/-- `pause` is still true. -/
structure Closed (s : State World Cnt Ev) : Prop where
  alive : s.pc ≠ .dead
  idle : s.pc = .idle → s.workers.length = 0 ∧ s.threads = [] ∧ PinsFirst s.todo
  running : ∀ c pc, s.pc = .running c pc → PinsFirst (c :: s.todo) ∧ c.gatedAt s pc

/-! ### Once the Gate is Open -/

/-- The first entry of `threads` is a joined thread. -/
def Stale (threads : List (Option Nat)) : Prop := threads[0]? = some none

/-- A call with `n` schedules spawns nothing any more. -/
def CallPc.pastSpawns (n : Nat) : CallPc → Prop
  | .spawn i => n ≤ i
  | .pin _ => False
  | .lock i | .set_pause i | .unlock i | .notify i | .lock_ready i | .check_ready i
  | .asleep i | .unlock_ready i | .join i _ | .clear i => n ≤ i + 1
  | .stats _ | .reset_ready | .reset_pause => True

/-- The call leaves, or hands on, a stale entry. -/
def CallPc.staling (kind : CallKind) (threads : List (Option Nat)) : CallPc → Prop
  | .spawn _ => kind = .priority ∧ Stale threads
  | .unlock _ | .notify _ => kind = .schedule ∧ threads ≠ []
  | .join _ k => kind = .schedule ∧ threads ≠ [] ∧ (0 < k → Stale threads)
  | .stats _ | .reset_ready | .reset_pause => Stale threads
  | _ => False

/-- The call is going to join a stale entry. -/
def CallPc.doomed (kind : CallKind) (threads : List (Option Nat)) : CallPc → Prop
  | .spawn _ | .lock _ | .set_pause _ | .unlock _ | .notify _ => kind = .schedule ∧ Stale threads
  | .join _ k => kind = .schedule ∧ Stale threads ∧ k = 0
  | _ => False

/-- Why nothing is spawned after the running call. -/
def CallPc.fate (kind : CallKind) (threads : List (Option Nat))
    (todo : List (Call World Cnt Ev)) (pc : CallPc) : Prop :=
  SpawnFree false todo ∨ (SpawnFree true todo ∧ pc.staling kind threads) ∨ pc.doomed kind threads

/-- `pause` is false for good. -/
structure Opened (s : State World Cnt Ev) : Prop where
  pinned : ∀ (t : Nat) (w : Worker World Cnt Ev), s.workers[t]? = some w →
    s.affinity t = some w.sched.core_id
  idle : s.pc = .idle → SpawnFree false s.todo ∨ (SpawnFree true s.todo ∧ Stale s.threads)
  running : ∀ c pc, s.pc = .running c pc → pc.pastSpawns c.svec.length ∧
    pc.fate c.kind s.threads s.todo

/-- **Gate invariant** of the sequences that pin first. -/
structure GateInv (s : State World Cnt Ev) : Prop where
  past_gate : ∀ (t : Nat) (w : Worker World Cnt Ev), s.workers[t]? = some w →
    w.pc.pastGate = true → s.affinity t = some w.sched.core_id
  closed : s.pause = true → Closed s
  opened : s.pause = false → Opened s

theorem gate_inv_initial (h : PinsFirst calls) : GateInv (initial calls world) where
  past_gate := by simp [initial]
  closed _ := ⟨by simp [initial], fun _ => ⟨rfl, rfl, h⟩, by simp [initial]⟩
  opened := by simp [initial]

/-! ### Steps that Spawn and Pin Nothing -/

/-- The workers of `s'` are those of `s`, possibly moved or joined. -/
structure SameCrew (s s' : State World Cnt Ev) : Prop where
  length : s'.workers.length = s.workers.length
  affinity : s'.affinity = s.affinity
  sched : ∀ (t : Nat) (w : Worker World Cnt Ev), s'.workers[t]? = some w →
    ∃ w', s.workers[t]? = some w' ∧ w'.sched = w.sched

theorem SameCrew.of_set {w w' : Worker World Cnt Ev} (hw : s.workers[t]? = some w)
    (hs : s'.workers = s.workers.set t w') (hsched : w'.sched = w.sched)
    (haff : s'.affinity = s.affinity) : SameCrew s s' where
  length := by rw [hs, List.length_set]
  affinity := haff
  sched u v hv := by
    rw [hs, getElem?_moved hw] at hv
    split at hv
    · next hu =>
      obtain rfl := Option.some.inj hv
      exact ⟨w, hu ▸ hw, hsched.symm⟩
    · exact ⟨v, hv, rfl⟩

theorem SameCrew.of_eq (hs : s'.workers = s.workers) (haff : s'.affinity = s.affinity) :
    SameCrew s s' where
  length := by rw [hs]
  affinity := haff
  sched _ w hw := ⟨w, hs ▸ hw, rfl⟩

theorem SameCrew.gated {born pinned : Nat} (h : SameCrew s s') (ht : s'.threads = s.threads)
    (hg : Gated c born pinned s) : Gated c born pinned s' where
  length := h.length.trans hg.length
  threads := ht.trans hg.threads
  sched k w hw := by
    obtain ⟨w', hw', hsched⟩ := h.sched k w hw
    exact hsched ▸ hg.sched k w' hw'
  pinned k w hk hw := by
    obtain ⟨w', hw', hsched⟩ := h.sched k w hw
    rw [h.affinity, ← hsched]
    exact hg.pinned k w' hk hw'

theorem SameCrew.gatedAt (h : SameCrew s s') (ht : s'.threads = s.threads)
    (hg : c.gatedAt s pc) : c.gatedAt s' pc := by
  cases pc with
  | spawn i | pin i => exact ⟨h.gated ht hg.1, hg.2⟩
  | lock i | set_pause i =>
    obtain ⟨n, hn, hrest⟩ := hg
    exact ⟨n, h.gated ht hn, hrest⟩
  | reset_ready | reset_pause => exact ⟨hg.1, h.length.trans hg.2⟩
  | _ => exact hg.elim

theorem SameCrew.pinned (h : SameCrew s s') (hp : Opened s) (t : Nat)
    (w : Worker World Cnt Ev) (hw : s'.workers[t]? = some w) :
    s'.affinity t = some w.sched.core_id := by
  obtain ⟨w', hw', hsched⟩ := h.sched t w hw
  rw [h.affinity, ← hsched]
  exact hp.pinned t w' hw'

/-- A worker gets past the gate only when it is open. -/
theorem WorkerStep.gate (h : WorkerStep api t s s') :
    ∃ w pc, s.workers[t]? = some w ∧ s'.workers = s.workers.set t { w with pc := pc } ∧
      (pc.pastGate = true → w.pc.pastGate = true ∨ s.pause = false) := by
  cases h with
  | check_true hw _ hpause => exact ⟨_, _, hw, rfl, fun _ => .inr hpause⟩
  | lock hw hp _ | check_false hw hp _ | relock hw hp _ _ | add hw hp | warmup_call hw hp _
  | warmup_return hw hp | warmup_end hw hp _ | reset hw hp | measure_call hw hp
  | measure_return hw hp | end_ hw hp | set_ready hw hp | unlock hw hp | notify hw hp _ =>
    exact ⟨_, _, hw, rfl, fun hpast => .inl (by simp_all [WorkerPc.pastGate])⟩

theorem gate_inv_worker (hinv : GateInv s) (h : WorkerStep api t s s') : GateInv s' := by
  obtain ⟨-, -, -, -, hpc, ht, haff, htodo, -, -, hpause⟩ := h.frame
  obtain ⟨w, pc, hw, hs, hgate⟩ := h.gate
  have hsame : SameCrew s s' := .of_set hw hs rfl haff
  refine ⟨?_, ?_, ?_⟩
  · intro u v hv hpast
    rw [hs, getElem?_moved hw] at hv
    rw [haff]
    split at hv
    · next hu =>
      obtain rfl := Option.some.inj hv
      subst hu
      -- it was past the gate before, or the gate is open and all are pinned
      rcases hgate hpast with hold | hopen
      · exact hinv.past_gate u w hw hold
      · exact (hinv.opened hopen).pinned u w hw
    · exact hinv.past_gate u v hv hpast
  · intro hp
    obtain ⟨halive, hidle, hrun⟩ := hinv.closed (hpause ▸ hp)
    refine ⟨hpc ▸ halive, ?_, ?_⟩
    · intro hi
      rw [ht, htodo, hsame.length]
      exact hidle (hpc ▸ hi)
    · intro c pc' hr
      rw [htodo]
      exact ⟨(hrun c pc' (hpc ▸ hr)).1, hsame.gatedAt ht (hrun c pc' (hpc ▸ hr)).2⟩
  · intro hp
    have hopen := hinv.opened (hpause ▸ hp)
    refine ⟨hsame.pinned hopen, ?_, ?_⟩
    · rw [hpc, ht, htodo]
      exact hopen.idle
    · rw [hpc, ht, htodo]
      exact hopen.running

/-- A scheduler step inside a call that spawns and pins nothing. -/
theorem GateInv.stay {pc' : CallPc} (hinv : GateInv s) (hp : s.pc = .running c pc)
    (hp' : s'.pc = .running c pc') (hw : s'.workers = s.workers)
    (haff : s'.affinity = s.affinity) (ht : s'.threads = s.threads) (htodo : s'.todo = s.todo)
    (hpause : s'.pause = s.pause)
    (hclosed : c.gatedAt s pc → c.gatedAt s pc')
    (hopened : pc.pastSpawns c.svec.length → pc.fate c.kind s.threads s.todo →
      pc'.pastSpawns c.svec.length ∧ pc'.fate c.kind s.threads s.todo) : GateInv s' := by
  have hsame : SameCrew s s' := .of_eq hw haff
  refine ⟨?_, ?_, ?_⟩
  · rw [hw, haff]
    exact hinv.past_gate
  · intro hpa
    obtain ⟨-, -, hrun⟩ := hinv.closed (hpause ▸ hpa)
    refine ⟨by simp [hp'], by simp [hp'], ?_⟩
    intro d pcd hr
    rw [hp'] at hr
    obtain ⟨rfl, rfl⟩ := SchedPc.running.inj hr
    rw [htodo]
    exact ⟨(hrun _ _ hp).1, hsame.gatedAt ht (hclosed (hrun _ _ hp).2)⟩
  · intro hpa
    have hopen := hinv.opened (hpause ▸ hpa)
    refine ⟨hsame.pinned hopen, by simp [hp'], ?_⟩
    intro d pcd hr
    rw [hp'] at hr
    obtain ⟨rfl, rfl⟩ := SchedPc.running.inj hr
    rw [htodo, ht]
    exact hopened (hopen.running _ _ hp).1 (hopen.running _ _ hp).2

/-! ### Steps of the Scheduler -/

theorem Gated.nothing (hw : s.workers.length = 0) (ht : s.threads = []) : Gated c 0 0 s where
  length := hw
  threads := ht
  sched k w hk := by simp [List.length_eq_zero_iff.mp hw] at hk
  pinned k w hk := by omega

theorem Gated.spawn {i : Nat} {sch : Schedule World Cnt Ev} (h : Gated c i i s)
    (hsch : c.svec[i]? = some sch) : Gated c (i + 1) i ((s.spawn api c i sch).goto c pc) where
  length := by simp [State.goto, State.spawn, h.length]
  threads := by simp [State.goto, State.spawn, h.length, h.threads, List.range_succ]
  sched k w hw := by
    simp only [State.goto, State.spawn, List.getElem?_append] at hw
    split at hw
    · exact h.sched k w hw
    -- the thread just spawned
    · have hlt := (List.getElem?_eq_some_iff.mp hw).1
      obtain rfl : k = i := by
        have := h.length
        simp at hlt
        omega
      obtain rfl := List.mem_singleton.mp (List.mem_of_getElem? hw)
      exact hsch
  pinned k w hk hw := by
    simp only [State.goto, State.spawn] at hw ⊢
    rw [List.getElem?_append_left (by rw [h.length]; exact hk)] at hw
    exact h.pinned k w hk hw

/-- What slot `k` of `threads` stands for while the gate is closed. -/
theorem Gated.slot {born pinned k : Nat} {o : Option Nat} (h : Gated c born pinned s)
    (hk : s.threads[k]? = some o) : o = some k := by
  rw [h.threads, List.getElem?_map] at hk
  obtain ⟨j, hj, rfl⟩ := Option.map_eq_some_iff.mp hk
  rw [List.getElem?_range (by simpa using (List.getElem?_eq_some_iff.mp hj).1)] at hj
  rw [Option.some.inj hj]

theorem Gated.pin {i : Nat} {sch : Schedule World Cnt Ev} (h : Gated c (i + 1) i s)
    (hsch : c.svec[i]? = some sch) :
    Gated c (i + 1) (i + 1)
      (({ s with affinity := setAffinity s.affinity i sch.core_id }).goto c pc) where
  length := h.length
  threads := h.threads
  sched := h.sched
  pinned k w hk hw := by
    simp only [State.goto] at hw ⊢
    by_cases hki : k = i
    · subst hki
      rw [setAffinity_self, Option.some.inj (hsch.symm.trans (h.sched k w hw))]
    · rw [setAffinity_ne _ _ _ _ hki]
      exact h.pinned k w (by omega) hw

theorem Stale.join {threads : List (Option Nat)} {k : Nat} {o : Option Nat}
    (hk : threads[k]? = some o) (h : 0 < k → Stale threads) : Stale (threads.set k none) := by
  have hlt := (List.getElem?_eq_some_iff.mp hk).1
  rcases Nat.eq_zero_or_pos k with rfl | hpos
  · simp [Stale, hlt]
  · rw [Stale, List.getElem?_set_ne (by omega)]
    exact h hpos

theorem gate_inv_start {c : Call World Cnt Ev} (hinv : GateInv s) (hp : s.pc = .idle)
    (htodo : s.todo = c :: rest) :
    GateInv (({ s with todo := rest
                       base := s.workers.length
                       counters := List.replicate c.svec.length api.make }).goto
      c (.spawn 0)) := by
  refine ⟨hinv.past_gate, ?_, ?_⟩
  · intro hpa
    obtain ⟨hw, ht, hfirst⟩ := (hinv.closed hpa).idle hp
    refine ⟨by simp [State.goto], by simp [State.goto], ?_⟩
    intro d pcd hr
    obtain ⟨rfl, rfl⟩ := SchedPc.running.inj hr
    exact ⟨htodo ▸ hfirst, .nothing hw ht, fun _ => rfl⟩
  · intro hpa
    have hopen := hinv.opened hpa
    refine ⟨hopen.pinned, by simp [State.goto], ?_⟩
    intro d pcd hr
    obtain ⟨rfl, rfl⟩ := SchedPc.running.inj hr
    have hidle := hopen.idle hp
    rw [htodo] at hidle
    -- the gate is open: the call has no schedule
    rcases hidle with ⟨hempty, hfree⟩ | ⟨⟨hempty, hfree⟩, hstale⟩
    · have hrest : SpawnFree false rest := by simpa using hfree
      exact ⟨by simp [CallPc.pastSpawns, hempty], .inl hrest⟩
    · refine ⟨by simp [CallPc.pastSpawns, hempty], .inr ?_⟩
      cases hk : c.kind with
      | schedule => exact .inr ⟨rfl, hstale⟩
      | priority =>
        have hrest : SpawnFree true rest := by simpa [hk] using hfree
        exact .inl ⟨hrest, rfl, hstale⟩

theorem gate_inv_pin {i : Nat} {sch : Schedule World Cnt Ev} (hinv : GateInv s)
    (hp : s.pc = .running c (.pin i)) (hsch : c.svec[i]? = some sch)
    (ht : s.threads[c.pinIdx i]? = some (some t)) :
    GateInv (({ s with affinity := setAffinity s.affinity t sch.core_id }).goto
      c (c.afterPin i)) := by
  rcases Bool.eq_false_or_eq_true s.pause with hpa | hpa
  -- with the gate open nothing is spawned, so nothing is pinned
  case inr => exact ((hinv.opened hpa).running _ _ hp).1.elim
  case inl =>
    obtain ⟨hfirst, hg, hzero⟩ := (hinv.closed hpa).running _ _ hp
    -- the entry that is pinned is the thread just pushed
    have hidx : c.pinIdx i = i := by
      cases hk : c.kind with
      | schedule => simp [Call.pinIdx, hk]
      | priority => simp [Call.pinIdx, hk, hzero hk]
    obtain rfl : t = i := by
      rw [hidx] at ht
      exact Option.some.inj (hg.slot ht)
    refine ⟨?_, ?_, fun hf => by simp [State.goto, hpa] at hf⟩
    · intro u w hw hpast
      simp only [State.goto] at hw ⊢
      by_cases hut : u = t
      · subst hut
        rw [setAffinity_self, Option.some.inj (hsch.symm.trans (hg.sched u w hw))]
      · rw [setAffinity_ne _ _ _ _ hut]
        exact hinv.past_gate u w hw hpast
    · intro _
      refine ⟨by simp [State.goto], by simp [State.goto], ?_⟩
      intro d pcd hr
      obtain ⟨rfl, rfl⟩ := SchedPc.running.inj hr
      refine ⟨hfirst, ?_⟩
      cases hk : c.kind with
      | schedule =>
        rw [show c.afterPin t = .spawn (t + 1) by simp [Call.afterPin, hk]]
        exact ⟨hg.pin hsch, by simp [hk]⟩
      | priority =>
        rw [show c.afterPin t = .lock t by simp [Call.afterPin, hk]]
        exact ⟨t + 1, hg.pin hsch, by simp [hk], fun _ => hzero hk⟩

/-- The release: everything that was spawned is pinned. -/
theorem gate_inv_release {i : Nat} (hinv : GateInv s) (hp : s.pc = .running c (.set_pause i)) :
    GateInv (({ s with pause := false }).goto c (.unlock i)) := by
  refine ⟨hinv.past_gate, by simp [State.goto], ?_⟩
  intro _
  cases hpa : s.pause with
  -- a later release finds the gate open already
  | false =>
    have hopen := hinv.opened hpa
    refine ⟨hopen.pinned, by simp [State.goto], ?_⟩
    intro d pcd hr
    obtain ⟨rfl, rfl⟩ := SchedPc.running.inj hr
    refine ⟨(hopen.running _ _ hp).1, ?_⟩
    rcases (hopen.running _ _ hp).2 with hf | ⟨-, hf⟩ | hf
    · exact .inl hf
    · exact hf.elim
    · exact .inr (.inr hf)
  | true =>
    obtain ⟨⟨hfirst, hfree⟩, n, hg, hschedule, hpriority⟩ := (hinv.closed hpa).running _ _ hp
    refine ⟨?_, by simp [State.goto], ?_⟩
    · intro t w hw
      refine hg.pinned t w ?_ hw
      rw [← hg.length]
      exact (List.getElem?_eq_some_iff.mp hw).1
    · intro d pcd hr
      obtain ⟨rfl, rfl⟩ := SchedPc.running.inj hr
      constructor
      -- after the first release this call spawns nothing
      · cases hk : c.kind with
        | schedule => exact Nat.le_succ_of_le (hschedule hk).2
        | priority =>
          rcases hfirst with hf | hf
          · simp [hk] at hf
          · simpa [CallPc.pastSpawns, hpriority hk] using hf
      -- and whether later calls spawn depends on what it leaves in `threads`
      · by_cases hleaves : c.leavesThreads
        · obtain ⟨hn, hle⟩ := hschedule hleaves.1
          have hpos := List.length_pos_iff.mpr hleaves.2
          refine .inr (.inl ⟨by simpa [State.goto, hleaves] using hfree, hleaves.1, ?_⟩)
          simp only [State.goto, hg.threads, ne_eq, List.map_eq_nil_iff, List.range_eq_nil]
          omega
        · exact .inl (by simpa [State.goto, hleaves] using hfree)

theorem gate_inv_return (hinv : GateInv s) (hp : s.pc = .running c .reset_pause) :
    GateInv { s with pause := false, pc := .idle, returned := s.returned ++ [s.counters] } := by
  refine ⟨hinv.past_gate, by simp, ?_⟩
  intro _
  cases hpa : s.pause with
  | false =>
    have hopen := hinv.opened hpa
    refine ⟨hopen.pinned, ?_, by simp⟩
    intro _
    rcases (hopen.running _ _ hp).2 with hf | hf | hf
    · exact .inl hf
    · exact .inr hf
    · exact hf.elim
  | true =>
    obtain ⟨⟨-, hfree⟩, hk, hw⟩ := (hinv.closed hpa).running _ _ hp
    have hleaves : ¬ c.leavesThreads := by simp [Call.leavesThreads, hk]
    refine ⟨?_, fun _ => .inl (by simpa [hleaves] using hfree), by simp⟩
    intro t w hwt
    simp [List.length_eq_zero_iff.mp hw] at hwt

theorem gate_inv_scheduler (hinv : GateInv s) (h : SchedulerStep api s s') : GateInv s' := by
  cases h with
  | start_call hp htodo => exact gate_inv_start hinv hp htodo
  | @spawn c i sch hp hsch =>
    have hlt := (List.getElem?_eq_some_iff.mp hsch).1
    refine ⟨?_, ?_, ?_⟩
    · intro u w hw hpast
      simp only [State.goto, State.spawn, List.getElem?_append] at hw ⊢
      split at hw
      · exact hinv.past_gate u w hw hpast
      · obtain rfl := List.mem_singleton.mp (List.mem_of_getElem? hw)
        simp [WorkerPc.pastGate] at hpast
    · intro hpa
      obtain ⟨hfirst, hg, hzero⟩ := (hinv.closed hpa).running _ _ hp
      refine ⟨by simp [State.goto], by simp [State.goto], ?_⟩
      intro d pcd hr
      obtain ⟨rfl, rfl⟩ := SchedPc.running.inj hr
      exact ⟨hfirst, hg.spawn hsch, hzero⟩
    · intro hpa
      have hpast := ((hinv.opened hpa).running _ _ hp).1
      simp only [CallPc.pastSpawns] at hpast
      omega
  | pin hp hsch ht => exact gate_inv_pin hinv hp hsch ht
  | @pin_stale c i hp ht =>
    refine ⟨hinv.past_gate, ?_, ?_⟩
    · intro hpa
      obtain ⟨-, hg, -⟩ := (hinv.closed hpa).running _ _ hp
      cases hg.slot ht
    · intro hpa
      exact ((hinv.opened hpa).running _ _ hp).1.elim
  -- the program ends here, with everything pinned
  | @join_stale c i k hp ht =>
    refine ⟨hinv.past_gate, ?_, ?_⟩
    · intro hpa
      exact ((hinv.closed hpa).running _ _ hp).2.elim
    · intro hpa
      exact ⟨(hinv.opened hpa).pinned, by simp, by simp⟩
  | set_pause hp => exact gate_inv_release hinv hp
  | reset_pause hp => exact gate_inv_return hinv hp
  | @join c i k t w hp ht hw hd =>
    have hsame : SameCrew s (({ s with
        threads := s.threads.set k none
        workers := s.workers.set t { w with joined := true } }).goto c (.join i (k + 1))) :=
      .of_set hw rfl rfl rfl
    refine ⟨?_, ?_, ?_⟩
    · intro u v hv hpast
      simp only [State.goto, getElem?_moved hw] at hv ⊢
      split at hv
      · next hu =>
        obtain rfl := Option.some.inj hv
        exact hinv.past_gate u w (hu ▸ hw) (by simp [hd, WorkerPc.pastGate])
      · exact hinv.past_gate u v hv hpast
    · intro hpa
      exact ((hinv.closed hpa).running _ _ hp).2.elim
    · intro hpa
      have hopen := hinv.opened hpa
      refine ⟨hsame.pinned hopen, by simp [State.goto], ?_⟩
      intro d pcd hr
      obtain ⟨rfl, rfl⟩ := SchedPc.running.inj hr
      obtain ⟨hpast, hfate⟩ := hopen.running _ _ hp
      refine ⟨hpast, ?_⟩
      -- a call that is doomed cannot make this step
      rcases hfate with hf | ⟨hf, hk, hne, hstale⟩ | ⟨-, hstale, rfl⟩
      · exact .inl hf
      · exact .inr (.inl ⟨hf, hk, by simpa [State.goto] using hne, fun _ => Stale.join ht hstale⟩)
      · rw [Stale, ht] at hstale
        simp at hstale
  | @clear c i hp =>
    refine ⟨hinv.past_gate, ?_, ?_⟩
    · intro hpa
      exact ((hinv.closed hpa).running _ _ hp).2.elim
    · intro hpa
      have hopen := hinv.opened hpa
      refine ⟨hopen.pinned, by simp [State.goto], ?_⟩
      intro d pcd hr
      obtain ⟨rfl, rfl⟩ := SchedPc.running.inj hr
      obtain ⟨hpast, hfate⟩ := hopen.running _ _ hp
      refine ⟨hpast, ?_⟩
      simpa [State.goto, CallPc.fate, CallPc.staling, CallPc.doomed, Stale] using hfate
  | @loop_end c i hp hi =>
    refine hinv.stay hp rfl rfl rfl rfl rfl rfl ?_ ?_
    · rintro ⟨hg, hzero⟩
      cases hk : c.kind with
      | schedule =>
        rw [show c.afterLoop i = .lock i by simp [Call.afterLoop, hk]]
        exact ⟨i, hg, fun _ => ⟨rfl, hi⟩, by simp [hk]⟩
      | priority =>
        rw [show c.afterLoop i = .reset_ready by simp [Call.afterLoop, hk]]
        exact ⟨hk, hg.length.trans (hzero hk)⟩
    · cases hk : c.kind <;>
        simp_all [Call.afterLoop, CallPc.fate, CallPc.staling, CallPc.doomed, CallPc.pastSpawns]
      omega
  | @join_end c i k hp hle =>
    refine hinv.stay hp rfl rfl rfl rfl rfl rfl (fun hg => hg.elim) ?_
    intro hpast hfate
    rcases hfate with hf | ⟨hf, hk, hne, hstale⟩ | ⟨-, hstale, rfl⟩
    · refine ⟨?_, .inl hf⟩
      cases hk : c.kind <;> simp_all [Call.afterJoin, CallPc.pastSpawns]
    · have hpos := List.length_pos_iff.mpr hne
      refine ⟨by simp [Call.afterJoin, hk, CallPc.pastSpawns], .inr (.inl ⟨hf, ?_⟩)⟩
      simpa [Call.afterJoin, hk, CallPc.staling] using hstale (by omega)
    · have hlt := (List.getElem?_eq_some_iff.mp hstale).1
      omega
  | @lock c i hp _ | @unlock c i hp | @notify_all c i hp hk | @notify_one c i _ hp hk _
  | @lock_ready c i hp _ | @check_ready_true c i hp _ | @check_ready_false c i hp _
  | @relock c i hp _ _ | @unlock_ready c i hp | @stats c k hp _ | @stats_end c k hp _
  | @reset_ready c hp =>
    refine hinv.stay hp rfl rfl rfl rfl rfl rfl ?_ ?_
    · simp [Call.gatedAt]
    · simp_all [CallPc.fate, CallPc.staling, CallPc.doomed, CallPc.pastSpawns]

theorem gate_inv (hfirst : PinsFirst calls) (h : Reachable (harness api calls world) s) :
    GateInv s := by
  apply h.invariant (fun s h0 => h0 ▸ gate_inv_initial hfirst)
  intro s a s' hinv hstep
  cases hstep with
  | scheduler h => exact gate_inv_scheduler hinv h
  | worker h => exact gate_inv_worker hinv h
  | @spurious b _ =>
    have hsame : SameCrew s { s with mon := s.mon.wake b } := .of_eq rfl rfl
    refine ⟨hinv.past_gate, ?_, ?_⟩
    · intro hp
      obtain ⟨halive, hidle, hrun⟩ := hinv.closed hp
      exact ⟨halive, hidle, fun c pc hr => ⟨(hrun c pc hr).1, hsame.gatedAt rfl (hrun c pc hr).2⟩⟩
    · intro hp
      exact ⟨(hinv.opened hp).pinned, (hinv.opened hp).idle, (hinv.opened hp).running⟩

theorem past_of_inBenchmark {pc : WorkerPc} (h : pc.inBenchmark = true) :
    pc.pastGate = true := by
  cases pc <;> simp_all [WorkerPc.inBenchmark, WorkerPc.pastGate]

/-! ### An Early Benchmark -/

/-- No thread is pinned before it exists. -/
structure AffinityInv (s : State World Cnt Ev) : Prop where
  threads : ∀ t, some t ∈ s.threads → t < s.workers.length
  affinity : ∀ t, s.workers.length ≤ t → s.affinity t = none

theorem affinity_inv_scheduler (hinv : AffinityInv s) (h : SchedulerStep api s s') :
    AffinityInv s' := by
  cases h with
  | @spawn c i sch hp hsch =>
    refine ⟨?_, fun t ht => hinv.affinity t ?_⟩
    · intro t ht
      simp only [State.goto, State.spawn, List.length_append, List.length_singleton,
        List.mem_append, List.mem_singleton, Option.some.injEq] at ht ⊢
      rcases ht with ht | rfl
      · exact Nat.lt_succ_of_lt (hinv.threads t ht)
      · exact Nat.lt_succ_self _
    · simp only [State.goto, State.spawn, List.length_append, List.length_singleton] at ht
      omega
  -- `threads` stands for threads that exist
  | @pin c i sch t hp hsch ht =>
    have hlt := hinv.threads t (List.mem_of_getElem? ht)
    refine ⟨hinv.threads, ?_⟩
    intro u hu
    simp only [State.goto] at hu ⊢
    rw [setAffinity_ne _ _ _ _ (by omega)]
    exact hinv.affinity u hu
  | @join c i k t w hp ht hw hd =>
    refine ⟨?_, fun u hu => hinv.affinity u (by simpa [State.goto] using hu)⟩
    intro u hu
    simp only [State.goto, List.length_set] at hu ⊢
    rcases List.mem_or_eq_of_mem_set hu with hu | hu
    · exact hinv.threads u hu
    · cases hu
  | clear hp => exact ⟨by simp [State.goto], hinv.affinity⟩
  | _ => exact ⟨hinv.threads, hinv.affinity⟩

theorem affinity_inv (h : Reachable (harness api calls world) s) : AffinityInv s := by
  refine h.invariant ?_ ?_
  · rintro s rfl
    exact ⟨by simp [initial], by simp [initial]⟩
  intro s a s' hinv hstep
  cases hstep with
  | scheduler h => exact affinity_inv_scheduler hinv h
  | worker h =>
    obtain ⟨w, pc, hw, hs, -, ht, haff, -⟩ := h.frame
    constructor
    · intro t ht'
      rw [hs, List.length_set]
      exact hinv.threads t (ht ▸ ht')
    · intro t ht'
      rw [haff]
      exact hinv.affinity t (by simpa [hs] using ht')
  | spurious _ => exact ⟨hinv.threads, hinv.affinity⟩

/-- A thread spawned while the gate is open can run before it is pinned. -/
theorem early_benchmark {i : Nat} (h : Reachable (harness api calls world) s)
    (hp : s.pc = .running c (.spawn i)) (hi : i < c.svec.length) (hpause : s.pause = false)
    (hmon : s.mon = Monitor.fresh) :
    ∃ s', Reachable (harness api calls world) s' ∧ ¬ PinnedBeforeRun s' := by
  have hsch : c.svec[i]? = some c.svec[i] := List.getElem?_eq_getElem hi
  have hnew : ((s.spawn api c i c.svec[i]).goto c (.pin i)).workers[s.workers.length]? =
      some _ := List.getElem?_concat_length ..
  refine h.can (.step (.scheduler (.spawn hp hsch))
    ((enters_benchmark hnew rfl hpause hmon).bind fun s' hs' => .here fun hpinned => ?_))
  -- the worker is in its benchmark, and nobody has pinned it
  have hcore := hpinned _ _ hs'.get rfl
  have hnone : s.affinity s.workers.length = none := (affinity_inv h).affinity _ (Nat.le_refl _)
  rw [hs'.affinity] at hcore
  simp [State.goto, State.spawn, hnone] at hcore

/-- After the first release, any call with a schedule that is reached gives
    rise to an early benchmark. -/
theorem early_of_spawns {stale : Bool} {threads : List (Option Nat)}
    (h : Reachable (harness api calls world) s) (hs : AtRest threads rest s)
    (hpause : s.pause = false) (hclean : stale = false → threads = [])
    (hspawn : ¬ SpawnFree stale rest) :
    ∃ s', Reachable (harness api calls world) s' ∧ ¬ PinnedBeforeRun s' := by
  induction rest generalizing s with
  | nil => exact absurd trivial hspawn
  | cons d rest ih =>
    by_cases hempty : d.svec = []
    · -- `d` has no schedule and returns: the culprit comes later
      have hclean' : d.usesThreads → threads = [] := by
        intro huses
        refine hclean (Bool.eq_false_iff.mpr fun hst => hspawn ⟨hempty, .inl ⟨hst, ?_⟩⟩)
        exact huses.resolve_right (absurd hempty)
      have hleft : d.leftover threads = threads :=
        if_neg fun hleaves => hleaves.2 hempty
      obtain ⟨s1, hr1, hs1, hp1⟩ := h.can (call_returns hclean' hs)
      rw [hleft] at hs1
      exact ih hr1 hs1 hp1 fun hfree => hspawn ⟨hempty, .inr hfree⟩
    · have hstart := h.step (Step.scheduler (.start_call hs.pc hs.todo))
      exact early_benchmark hstart rfl (List.length_pos_iff.mpr hempty) hpause hs.mon

theorem early_of_not_pinsFirst (h : ¬ PinsFirst calls) :
    ∃ s, Reachable (harness api calls world) s ∧ ¬ PinnedBeforeRun s := by
  cases calls with
  | nil => exact absurd trivial h
  | cons c rest =>
    have hinit : Reachable (harness api (c :: rest) world) (initial (c :: rest) world) :=
      .init rfl
    by_cases hfirst : c.kind = .schedule ∨ c.svec.length ≤ 1
    · obtain ⟨s, hr, hs, hpause⟩ := hinit.can (call_returns (fun _ => rfl) atRest_initial)
      refine early_of_spawns hr hs hpause ?_ fun hfree => h ⟨hfirst, hfree⟩
      intro hst
      have hleaves : ¬ c.leavesThreads := by simpa using hst
      simp [Call.leftover, hleaves]
    · -- the second round of the first call spawns with the gate open
      have hk : c.kind = .priority := by
        cases hk : c.kind with
        | schedule => exact absurd (.inl hk) hfirst
        | priority => rfl
      have hlen : 1 < c.svec.length := Nat.lt_of_not_le fun hle => hfirst (.inr hle)
      obtain ⟨s, hr, hs⟩ := hinit.can
        (atRest_initial.enters.bind fun s1 h1 => h1.next hk (Nat.lt_trans Nat.zero_lt_one hlen))
      exact early_benchmark hr hs.pc hlen (hs.pause Nat.zero_lt_one) hs.mon

/-! ### Pinned before Run -/

/-- **Pinned before run**: every worker is pinned before its first benchmark
    call, in every run, exactly when all threads are spawned before the first
    release. -/
theorem pinnedBeforeRun_iff_pinsFirst :
    (∀ s, Reachable (harness api calls world) s → PinnedBeforeRun s) ↔ PinsFirst calls := by
  constructor
  · intro hall
    by_contra hnot
    obtain ⟨s, hs, hbad⟩ := early_of_not_pinsFirst hnot
    exact hbad (hall s hs)
  · intro hfirst s hs t w hw hbench
    exact (gate_inv hfirst hs).past_gate t w hw (past_of_inBenchmark hbench)

end

/-- One priority call with two schedules: the second worker can run before
    it is pinned. -/
theorem second_worker_runs_unpinned :
    ¬ ∀ s, Reachable (harness nullApi
      [⟨.priority, [nullSchedule 0, nullSchedule 1], 0⟩] ()) s → PinnedBeforeRun s := by
  intro hall
  have hnot : ¬ PinsFirst [(⟨.priority, [nullSchedule 0, nullSchedule 1], 0⟩ :
      Call Unit Unit Unit)] := by
    simp [PinsFirst]
  obtain ⟨s, hs, hbad⟩ := early_of_not_pinsFirst hnot
  exact hbad (hall s hs)

end Pcnt
