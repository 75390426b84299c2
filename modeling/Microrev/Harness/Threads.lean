import Microrev.Harness.Lock

/-! # The `threads` Vector across Calls

    `threads` is a member of `CounterBenchmark`: what a call leaves in it is
    seen by the next one. `counters_with_priority_schedule` clears it after
    every join, `counters_with_schedule` never does. This file describes the
    vector and the crew of threads behind it at every point of a call, for
    the sequences of calls that never meet a left-over entry.
-/

namespace Pcnt

open Lts

section
variable {World Cnt Ev : Type} {api : CounterApi World Cnt Ev}
variable {s s' : State World Cnt Ev} {c : Call World Cnt Ev} {t : Nat}

/-! ### Reusable Sequences -/

/-- The call fills `threads` and leaves the joined entries behind. -/
def Call.leavesThreads (c : Call World Cnt Ev) : Prop := c.kind = .schedule ∧ c.svec ≠ []

/-- The call pins or joins entries of `threads`: the parallel call joins
    whatever it finds there, the priority call only if it spawns at all. -/
def Call.usesThreads (c : Call World Cnt Ev) : Prop := c.kind = .schedule ∨ c.svec ≠ []

instance (c : Call World Cnt Ev) : Decidable c.leavesThreads :=
  inferInstanceAs (Decidable (_ ∧ _))

instance (c : Call World Cnt Ev) : Decidable c.usesThreads :=
  inferInstanceAs (Decidable (_ ∨ _))

/-- No call that uses `threads` comes after one that leaves entries in it. -/
def Reusable (calls : List (Call World Cnt Ev)) : Prop :=
  calls.Pairwise fun c d => c.leavesThreads → ¬ d.usesThreads

/-! ### The Crew of a Call -/

/-- How far the running call is with its threads, counted in loop indices:
    `threads` holds the entries from `first` to `born`, and the threads below
    `joined` have been joined. -/
structure Profile where
  first : Nat
  born : Nat
  joined : Nat

/-- `counters_with_schedule` with `n` schedules: all threads, then all joins. -/
def scheduleProfile (n : Nat) : CallPc → Profile
  | .spawn i => ⟨0, i, 0⟩
  | .pin i => ⟨0, i + 1, 0⟩
  | .join _ k => ⟨0, n, k⟩
  | .stats _ | .reset_ready | .reset_pause => ⟨0, n, n⟩
  | .lock _ | .set_pause _ | .unlock _ | .notify _ | .lock_ready _ | .check_ready _
  | .asleep _ | .unlock_ready _ | .clear _ => ⟨0, n, 0⟩

/-- `counters_with_priority_schedule`: one thread at a time. -/
def priorityProfile (n : Nat) : CallPc → Profile
  | .spawn i => ⟨i, i, i⟩
  | .pin i | .lock i | .set_pause i | .unlock i | .notify i | .lock_ready i
  | .check_ready i | .asleep i | .unlock_ready i => ⟨i, i + 1, i⟩
  | .join i k => ⟨i, i + 1, i + k⟩
  | .clear i => ⟨i, i + 1, i + 1⟩
  | .stats _ | .reset_ready | .reset_pause => ⟨n, n, n⟩

def Call.profile (c : Call World Cnt Ev) (pc : CallPc) : Profile :=
  match c.kind with
  | .schedule => scheduleProfile c.svec.length pc
  | .priority => priorityProfile c.svec.length pc

/-- The program counters of `counters_with_schedule` with `n` schedules. -/
def schedulePc (n : Nat) : CallPc → Prop
  | .spawn i => i ≤ n
  | .pin i => i < n
  | .lock i | .set_pause i | .unlock i | .notify i => i = n
  | .join i k => i = n ∧ k ≤ n
  | .stats k => k ≤ n
  | .reset_ready | .reset_pause => True
  | .lock_ready _ | .check_ready _ | .asleep _ | .unlock_ready _ | .clear _ => False

/-- The program counters of `counters_with_priority_schedule`. -/
def priorityPc (n : Nat) : CallPc → Prop
  | .spawn i => i ≤ n
  | .pin i | .lock i | .set_pause i | .unlock i | .notify i | .lock_ready i
  | .check_ready i | .asleep i | .unlock_ready i | .clear i => i < n
  | .join i k => i < n ∧ k ≤ 1
  | .stats _ => False
  | .reset_ready | .reset_pause => True

def Call.pcOk (c : Call World Cnt Ev) (pc : CallPc) : Prop :=
  match c.kind with
  | .schedule => schedulePc c.svec.length pc
  | .priority => priorityPc c.svec.length pc

/-- The contents of `threads` for a profile. -/
def Profile.slots (p : Profile) (base : Nat) : List (Option Nat) :=
  (List.range' p.first (p.born - p.first)).map fun k =>
    if k < p.joined then none else some (base + k)

/-- The threads of the running call: number `k` of the call is the thread
    `base + k`, works on entry `k`, and is joined when the profile says so. -/
structure Crew (c : Call World Cnt Ev) (p : Profile) (s : State World Cnt Ev) : Prop where
  length : s.workers.length = s.base + p.born
  slots : c.usesThreads → s.threads = p.slots s.base
  mine : ∀ k < p.born, ∃ w, s.workers[s.base + k]? = some w ∧ w.call = s.callNo ∧
    w.idx = k ∧ c.svec[k]? = some w.sched ∧ w.warmup = c.warmup ∧
    w.joined = decide (k < p.joined)
  old : ∀ u < s.base, ∀ w, s.workers[u]? = some w → w.joined = true

theorem Profile.slots_getElem? (p : Profile) (base j : Nat) :
    (p.slots base)[j]? =
      if p.first + j < p.born then
        some (if p.first + j < p.joined then none else some (base + (p.first + j)))
      else none := by
  simp only [slots, List.getElem?_map]
  by_cases h : p.first + j < p.born
  · simp [h, show j < p.born - p.first by omega]
  · simp [h, show ¬ j < p.born - p.first by omega]

theorem Profile.slots_length (p : Profile) (base : Nat) :
    (p.slots base).length = p.born - p.first := by
  simp [slots]

theorem Crew.congr {p : Profile} (h : Crew c p s) (hw : s'.workers = s.workers)
    (ht : s'.threads = s.threads) (hb : s'.base = s.base) (hr : s'.returned = s.returned) :
    Crew c p s' where
  length := by rw [hw, hb]; exact h.length
  slots := by rw [ht, hb]; exact h.slots
  mine := by
    simp only [State.callNo, hr, hw, hb]
    exact h.mine
  old := by rw [hw, hb]; exact h.old

/-- A worker that moves keeps its place in the crew. -/
theorem Crew.move {p : Profile} (h : Crew c p s) (hstep : WorkerStep api t s s') :
    Crew c p s' := by
  obtain ⟨w, pc, hw, hs, -, ht, -, -, hr, hb, -⟩ := hstep.frame
  refine ⟨by rw [hs, hb, List.length_set]; exact h.length, by rw [ht, hb]; exact h.slots, ?_, ?_⟩
  · intro k hk
    obtain ⟨wk, hwk, hcall, hidx, hsch, hwarm, hj⟩ := h.mine k hk
    rw [hs, hb, getElem?_moved hw, State.callNo, hr]
    split
    -- the one that moved: only its program counter is new
    · next hut =>
      have hww : w = wk := Option.some.inj (hw.symm.trans (hut ▸ hwk))
      subst hww
      exact ⟨_, rfl, hcall, hidx, hsch, hwarm, hj⟩
    · exact ⟨wk, hwk, hcall, hidx, hsch, hwarm, hj⟩
  · intro u hu wu hwu
    rw [hb] at hu
    rw [hs, getElem?_moved hw] at hwu
    split at hwu
    · next hut =>
      obtain rfl := Option.some.inj hwu
      exact h.old u hu w (hut ▸ hw)
    · exact h.old u hu wu hwu

/-- Pushing the next thread. -/
theorem Crew.spawn {i first joined : Nat} {sch : Schedule World Cnt Ev} {pc : CallPc}
    (h : Crew c ⟨first, i, joined⟩ s) (hsch : c.svec[i]? = some sch)
    (hfirst : first ≤ i) (hjoined : joined ≤ i) :
    Crew c ⟨first, i + 1, joined⟩ ((s.spawn api c i sch).goto c pc) where
  length := by
    have := h.length
    simp only [State.goto, State.spawn, List.length_append, List.length_singleton] at *
    omega
  slots := by
    intro huses
    have hlen : s.workers.length = s.base + i := h.length
    have hslot : s.threads = _ := h.slots huses
    simp only [State.goto, State.spawn, hslot, hlen, Profile.slots]
    -- one slot more, and it is not joined
    rw [show i + 1 - first = (i - first) + 1 by omega, List.range'_concat, List.map_append]
    simp [show first + (i - first) = i by omega, show ¬ i < joined by omega]
  mine := by
    intro k hk
    have hlen : s.workers.length = s.base + i := h.length
    simp only [State.goto, State.spawn, State.callNo]
    rcases Nat.lt_succ_iff_lt_or_eq.mp hk with hlt | rfl
    · obtain ⟨w, hw, hrest⟩ := h.mine k hlt
      refine ⟨w, ?_, hrest⟩
      rw [List.getElem?_append_left (by omega)]
      exact hw
    -- the new thread is number `i` of the call
    · refine ⟨_, by rw [← hlen, List.getElem?_concat_length], rfl, rfl, hsch, rfl, ?_⟩
      simp [show ¬ k < joined by omega]
  old := by
    intro u hu w hw
    have hlen : s.workers.length = s.base + i := h.length
    simp only [State.goto, State.spawn] at hu hw
    rw [List.getElem?_append_left (by omega)] at hw
    exact h.old u hu w hw

/-- Joining the next thread. -/
theorem Crew.join {first born joined k : Nat} {w : Worker World Cnt Ev}
    (h : Crew c ⟨first, born, joined⟩ s) (pc : CallPc) (hk : first + k = joined)
    (hjb : joined < born)
    (ht : s.threads[k]? = some (some t)) (hw : s.workers[t]? = some w)
    (huses : c.usesThreads) :
    Crew c ⟨first, born, joined + 1⟩
      (({ s with threads := s.threads.set k none
                 workers := s.workers.set t { w with joined := true } }).goto c pc) := by
  have hslots : s.threads = _ := h.slots huses
  have htk : t = s.base + joined := by
    rw [hslots, Profile.slots_getElem?] at ht
    simp only [hk, hjb, if_true, Nat.lt_irrefl, if_false, Option.some.injEq] at ht
    exact ht.symm
  refine ⟨?_, ?_, ?_, ?_⟩
  · simpa [State.goto] using h.length
  -- slot `k` is emptied: that is entry `joined` of the call
  · intro _
    simp only [State.goto, hslots]
    apply List.ext_getElem?
    intro j
    rw [List.getElem?_set, Profile.slots_getElem?, Profile.slots_getElem?, Profile.slots_length]
    simp only
    by_cases hj : k = j
    · subst hj
      simp [hk, hjb, show k < born - first by omega]
    · by_cases hlt : first + j < joined
      · simp [hj, hlt, show first + j < joined + 1 by omega]
      · simp [hj, hlt, show ¬ first + j < joined + 1 by omega]
  · intro m hm
    obtain ⟨wm, hwm, hcall, hidx, hsch, hwarm, hj⟩ := h.mine m hm
    simp only [State.goto, State.callNo, getElem?_moved hw]
    split
    · next hmt =>
      have hww : w = wm := Option.some.inj (hw.symm.trans (hmt ▸ hwm))
      subst hww
      -- the joined thread itself
      exact ⟨_, rfl, hcall, hidx, hsch, hwarm, by simp; omega⟩
    · next hmt =>
      refine ⟨wm, hwm, hcall, hidx, hsch, hwarm, ?_⟩
      rw [hj]
      have hne : m ≠ joined := fun hmj => hmt (by rw [hmj, htk])
      simp; omega
  · intro u hu wu hwu
    simp only [State.goto, getElem?_moved hw] at hu hwu
    split at hwu
    · obtain rfl := Option.some.inj hwu
      rfl
    · exact h.old u hu wu hwu

/-- `threads.clear()` once everything in it is joined. -/
theorem Crew.clear {first born : Nat} {pc : CallPc} (h : Crew c ⟨first, born, born⟩ s) :
    Crew c ⟨born, born, born⟩ (({ s with threads := [] }).goto c pc) where
  length := h.length
  slots := by simp [State.goto, Profile.slots]
  mine := h.mine
  old := h.old

/-! ### The Invariant -/

/-- The threads of a reusable sequence of calls: between calls everybody is
    joined; inside a call the crew is as far as the program counter says; and
    entries left in `threads` are never used again. -/
structure ThreadInv (s : State World Cnt Ev) : Prop where
  alive : s.pc ≠ .dead
  joined_done : ∀ (u : Nat) (w : Worker World Cnt Ev),
    s.workers[u]? = some w → w.joined = true → w.pc = .done
  idle : s.pc = .idle →
    (∀ (u : Nat) (w : Worker World Cnt Ev), s.workers[u]? = some w → w.joined = true) ∧
    Reusable s.todo ∧ (s.threads = [] ∨ ∀ d ∈ s.todo, ¬ d.usesThreads)
  running : ∀ c pc, s.pc = .running c pc →
    Crew c (c.profile pc) s ∧ c.pcOk pc ∧ Reusable (c :: s.todo) ∧
      (c.usesThreads ∨ s.threads = [] ∨ ∀ d ∈ s.todo, ¬ d.usesThreads)

theorem thread_inv_initial {calls : List (Call World Cnt Ev)} (hreuse : Reusable calls)
    (world : World) : ThreadInv (initial calls world) where
  alive := by simp [initial]
  joined_done := by simp [initial]
  idle := by simp [initial, hreuse]
  running := by simp [initial]

theorem thread_inv_worker (hinv : ThreadInv s) (h : WorkerStep api t s s') : ThreadInv s' := by
  have hnd : ∀ w, s.workers[t]? = some w → w.joined = true → False := by
    intro w hw hj
    have hd := hinv.joined_done t w hw hj
    cases h <;> simp_all
  obtain ⟨w, pc, hw, hs, hpc, ht, -, htodo, -, -, -⟩ := h.frame
  -- a thread that moves is not done, so nobody has joined it
  refine ⟨by rw [hpc]; exact hinv.alive, ?_, ?_, ?_⟩
  · intro u wu hwu hj
    rw [hs, getElem?_moved hw] at hwu
    split at hwu
    · obtain rfl := Option.some.inj hwu
      exact absurd hj (fun hj => hnd w hw hj)
    · exact hinv.joined_done u wu hwu hj
  · intro hidle
    obtain ⟨hall, _⟩ := hinv.idle (hpc ▸ hidle)
    exact absurd (hall t w hw) (fun hj => hnd w hw hj)
  · intro c pc' hrun
    obtain ⟨hcrew, hrest⟩ := hinv.running c pc' (hpc ▸ hrun)
    rw [htodo, ht]
    exact ⟨hcrew.move h, hrest⟩

theorem Crew.all_joined {p : Profile} (h : Crew c p s) (hp : p.joined = p.born) (u : Nat)
    (w : Worker World Cnt Ev) (hw : s.workers[u]? = some w) : w.joined = true := by
  have hlt := (List.getElem?_eq_some_iff.mp hw).1
  have hlen := h.length
  -- threads of earlier calls, and threads of this one
  by_cases hu : u < s.base
  · exact h.old u hu w hw
  · obtain ⟨w', hw', -, -, -, -, hj⟩ := h.mine (u - s.base) (by omega)
    rw [show s.base + (u - s.base) = u by omega, hw] at hw'
    obtain rfl := Option.some.inj hw'
    rw [hj]
    simp
    omega

/-- In a running call, an entry of `threads` that the program counter points
    at exists and has not been joined. -/
theorem Crew.entry {p : Profile} {k : Nat} (h : Crew c p s) (huses : c.usesThreads)
    (hborn : p.first + k < p.born) (hjoined : p.joined ≤ p.first + k) :
    ∃ w, s.threads[k]? = some (some (s.base + (p.first + k))) ∧
      s.workers[s.base + (p.first + k)]? = some w ∧ w.call = s.callNo ∧
      w.joined = false ∧ c.svec[p.first + k]? = some w.sched := by
  obtain ⟨w, hw, hcall, -, hsch, -, hj⟩ := h.mine _ hborn
  refine ⟨w, ?_, hw, hcall, ?_, hsch⟩
  · rw [h.slots huses, Profile.slots_getElem?]
    simp [hborn, show ¬ p.first + k < p.joined by omega]
  · rw [hj]
    simp [show ¬ p.first + k < p.joined by omega]

/-- A scheduler step inside a call that touches no thread: enough that the
    two program counters have the same profile. -/
theorem ThreadInv.same {pc pc' : CallPc} (hinv : ThreadInv s) (hp : s.pc = .running c pc)
    (hp' : s'.pc = .running c pc') (hw : s'.workers = s.workers) (ht : s'.threads = s.threads)
    (hb : s'.base = s.base) (hr : s'.returned = s.returned) (htodo : s'.todo = s.todo)
    (hok : c.pcOk pc → c.profile pc' = c.profile pc ∧ c.pcOk pc') : ThreadInv s' where
  alive := by simp [hp']
  joined_done := by rw [hw]; exact hinv.joined_done
  idle := by simp [hp']
  running := by
    intro d pcd hrun
    rw [hp'] at hrun
    obtain ⟨rfl, rfl⟩ := SchedPc.running.inj hrun
    obtain ⟨hcrew, hpc, hrest⟩ := hinv.running _ _ hp
    obtain ⟨hprof, hpc'⟩ := hok hpc
    rw [htodo, ht, hprof]
    exact ⟨hcrew.congr hw ht hb hr, hpc', hrest⟩

/-- A scheduler step inside a call that changes the crew. -/
theorem ThreadInv.crew_step {pc pc' : CallPc} (hinv : ThreadInv s)
    (hp : s.pc = .running c pc) (hp' : s'.pc = .running c pc') (htodo : s'.todo = s.todo)
    (hdone : ∀ (u : Nat) (w : Worker World Cnt Ev),
      s'.workers[u]? = some w → w.joined = true → w.pc = .done)
    (hcrew : Crew c (c.profile pc) s → c.pcOk pc →
      Crew c (c.profile pc') s' ∧ c.pcOk pc' ∧ c.usesThreads) : ThreadInv s' where
  alive := by simp [hp']
  joined_done := hdone
  idle := by simp [hp']
  running := by
    intro d pcd hrun
    rw [hp'] at hrun
    obtain ⟨rfl, rfl⟩ := SchedPc.running.inj hrun
    obtain ⟨hc, hpc, hreuse, _⟩ := hinv.running _ _ hp
    obtain ⟨hc', hpc', huses⟩ := hcrew hc hpc
    rw [htodo]
    exact ⟨hc', hpc', hreuse, .inl huses⟩

theorem usesThreads_of_lt {i : Nat} (h : i < c.svec.length) : c.usesThreads :=
  .inr (List.ne_nil_of_length_pos (by omega))

/-- What `pin_to_core` is given at its call: the entry just pushed. -/
theorem ThreadInv.pin_entry {i : Nat} (hinv : ThreadInv s) (hp : s.pc = .running c (.pin i)) :
    ∃ w, s.threads[c.pinIdx i]? = some (some (s.base + i)) ∧
      s.workers[s.base + i]? = some w ∧ w.call = s.callNo ∧ w.joined = false ∧
      c.svec[i]? = some w.sched ∧ c.pinIdx i + 1 = s.threads.length ∧
      s.base + i + 1 = s.workers.length := by
  obtain ⟨hcrew, hok, -, -⟩ := hinv.running _ _ hp
  have hlt : i < c.svec.length := by
    cases hk : c.kind <;> simpa [Call.pcOk, schedulePc, priorityPc, hk] using hok
  have huses := usesThreads_of_lt hlt
  have hslots := hcrew.slots huses
  have hlen := hcrew.length
  have hlen' := (c.profile (.pin i)).slots_length s.base
  -- index `i` in a vector that grows, index 0 in one that is cleared
  cases hk : c.kind with
  | schedule =>
    simp only [Call.profile, scheduleProfile, hk] at hcrew hlen hlen' hslots
    obtain ⟨w, ht, hw, hcall, hj, hsch⟩ := hcrew.entry (k := i) huses (by simp) (by simp)
    simp only [Nat.zero_add] at ht hw hsch
    refine ⟨w, by simpa [Call.pinIdx, hk] using ht, hw, hcall, hj, hsch, ?_, by omega⟩
    simp [Call.pinIdx, hk, hslots, hlen']
  | priority =>
    simp only [Call.profile, priorityProfile, hk] at hcrew hlen hlen' hslots
    obtain ⟨w, ht, hw, hcall, hj, hsch⟩ := hcrew.entry (k := 0) huses (by simp) (by simp)
    simp only [Nat.add_zero] at ht hw hsch
    refine ⟨w, by simpa [Call.pinIdx, hk] using ht, hw, hcall, hj, hsch, ?_, by omega⟩
    simp [Call.pinIdx, hk, hslots, hlen']

/-- Where the join loop is, in terms of the crew. -/
theorem ThreadInv.join_profile {i k : Nat} (hinv : ThreadInv s)
    (hp : s.pc = .running c (.join i k)) :
    ∃ first born, c.profile (.join i k) = ⟨first, born, first + k⟩ ∧
      Crew c ⟨first, born, first + k⟩ s ∧ c.usesThreads ∧
      s.threads = Profile.slots ⟨first, born, first + k⟩ s.base := by
  obtain ⟨hcrew, hok, -, -⟩ := hinv.running _ _ hp
  -- the parallel call joins from entry 0 on, the priority call its only entry
  cases hk : c.kind with
  | schedule =>
    have huses : c.usesThreads := .inl hk
    refine ⟨0, c.svec.length, by simp [Call.profile, scheduleProfile, hk], ?_, huses, ?_⟩
    · simpa [Call.profile, scheduleProfile, hk] using hcrew
    · simpa [Call.profile, scheduleProfile, hk] using hcrew.slots huses
  | priority =>
    have huses : c.usesThreads := by
      simp only [Call.pcOk, priorityPc, hk] at hok
      exact usesThreads_of_lt hok.1
    refine ⟨i, i + 1, by simp [Call.profile, priorityProfile, hk], ?_, huses, ?_⟩
    · simpa [Call.profile, priorityProfile, hk] using hcrew
    · simpa [Call.profile, priorityProfile, hk] using hcrew.slots huses

/-- What `join()` is called on: a thread of this call, not joined yet. -/
theorem ThreadInv.join_entry {i k : Nat} (hinv : ThreadInv s)
    (hp : s.pc = .running c (.join i k)) (hlt : k < s.threads.length) :
    ∃ t w, s.threads[k]? = some (some t) ∧ s.workers[t]? = some w ∧ w.call = s.callNo ∧
      w.joined = false := by
  obtain ⟨first, born, -, hcrew, huses, hslots⟩ := hinv.join_profile hp
  rw [hslots, Profile.slots_length] at hlt
  simp only at hlt
  obtain ⟨w, ht, hw, hcall, hj, -⟩ := hcrew.entry (k := k) huses (by simp; omega) (by simp)
  exact ⟨_, w, ht, hw, hcall, hj⟩

theorem thread_inv_scheduler (hinv : ThreadInv s) (h : SchedulerStep api s s') :
    ThreadInv s' := by
  cases h with
  | @start_call c rest hp htodo =>
    obtain ⟨hall, hreuse, hclean⟩ := hinv.idle hp
    rw [htodo] at hreuse hclean
    refine ⟨by simp [State.goto], hinv.joined_done, by simp [State.goto], ?_⟩
    intro d pcd hrun
    obtain ⟨rfl, rfl⟩ := SchedPc.running.inj hrun
    -- a call that uses `threads` finds the vector empty
    have hempty : c.usesThreads → s.threads = [] := by
      intro huses
      rcases hclean with h | h
      · exact h
      · exact absurd huses (h c (by simp))
    have hprof : c.profile (.spawn 0) = ⟨0, 0, 0⟩ := by
      cases hk : c.kind <;> simp [Call.profile, scheduleProfile, priorityProfile, hk]
    refine ⟨?_, by cases hk : c.kind <;> simp [Call.pcOk, schedulePc, priorityPc, hk], hreuse, ?_⟩
    · rw [hprof]
      exact ⟨rfl, hempty, by simp, fun u _ w hw => hall u w hw⟩
    · rcases hclean with h | h
      · exact .inr (.inl h)
      · exact .inr (.inr fun d hd => h d (List.mem_cons_of_mem c hd))
  | @spawn c i sch hp hsch =>
    refine hinv.crew_step hp rfl rfl ?_ ?_
    -- a new thread is not joined
    · intro u w hw hj
      simp only [State.goto, State.spawn, List.getElem?_append] at hw
      split at hw
      · exact hinv.joined_done u w hw hj
      · obtain rfl := List.mem_singleton.mp (List.mem_of_getElem? hw)
        simp at hj
    · intro hcrew hok
      have hlt : i < c.svec.length := (List.getElem?_eq_some_iff.mp hsch).1
      have huses := usesThreads_of_lt hlt
      cases hk : c.kind with
      | schedule =>
        simp only [Call.profile, scheduleProfile, hk] at hcrew ⊢
        exact ⟨hcrew.spawn hsch (by omega) (by omega), by simp [Call.pcOk, schedulePc, hk, hlt],
          huses⟩
      | priority =>
        simp only [Call.profile, priorityProfile, hk] at hcrew ⊢
        exact ⟨hcrew.spawn hsch (by omega) (by omega), by simp [Call.pcOk, priorityPc, hk, hlt],
          huses⟩
  | @pin c i sch t hp hsch ht =>
    refine hinv.same hp rfl rfl rfl rfl rfl rfl ?_
    intro hi
    cases hk : c.kind with
    | schedule =>
      simp only [Call.pcOk, schedulePc, hk] at hi
      simp only [Call.profile, Call.pcOk, Call.afterPin, scheduleProfile, schedulePc, hk]
      exact ⟨trivial, hi⟩
    | priority =>
      simp only [Call.pcOk, priorityPc, hk] at hi
      simp only [Call.profile, Call.pcOk, Call.afterPin, priorityProfile, priorityPc, hk]
      exact ⟨trivial, hi⟩
  | @pin_stale c i hp ht =>
    -- the entry just pushed stands for a thread
    obtain ⟨w, ht', -⟩ := hinv.pin_entry hp
    simp [ht] at ht'
  | @loop_end c i hp hi =>
    refine hinv.same hp rfl rfl rfl rfl rfl rfl ?_
    cases hk : c.kind <;>
      simp [Call.profile, Call.pcOk, Call.afterLoop, scheduleProfile, priorityProfile,
        schedulePc, priorityPc, hk] <;> omega
  | @join c i k t w hp ht hw hd =>
    obtain ⟨first, born, hprof, hcrew, huses, hslots⟩ := hinv.join_profile hp
    have hlt : first + k < born := by
      have := (List.getElem?_eq_some_iff.mp ht).1
      rw [hslots, Profile.slots_length] at this
      simp only at this
      omega
    refine hinv.crew_step hp rfl rfl ?_ ?_
    · intro u wu hwu hj
      simp only [State.goto, getElem?_moved hw] at hwu
      split at hwu
      · obtain rfl := Option.some.inj hwu
        exact hd
      · exact hinv.joined_done u wu hwu hj
    · intro _ hok
      have hjoin := hcrew.join (.join i (k + 1)) rfl hlt ht hw huses
      cases hk : c.kind with
      | schedule =>
        simp only [Call.profile, Call.pcOk, scheduleProfile, schedulePc, hk,
          Profile.mk.injEq] at hprof hok ⊢
        obtain ⟨rfl, rfl, -⟩ := hprof
        exact ⟨by simpa using hjoin, by omega, huses⟩
      | priority =>
        simp only [Call.profile, Call.pcOk, priorityProfile, priorityPc, hk,
          Profile.mk.injEq] at hprof hok ⊢
        obtain ⟨rfl, rfl, -⟩ := hprof
        exact ⟨hjoin, by omega, huses⟩
  | @join_stale c i k hp ht =>
    -- every entry from `k` on stands for a thread
    have hlt := (List.getElem?_eq_some_iff.mp ht).1
    obtain ⟨t, w, ht', -⟩ := hinv.join_entry hp hlt
    simp [ht] at ht'
  | @join_end c i k hp hlen =>
    obtain ⟨first, born, hprof, hcrew, -, hslots⟩ := hinv.join_profile hp
    rw [hslots, Profile.slots_length] at hlen
    simp only at hlen
    -- the loop has joined all that the vector holds
    refine hinv.same hp rfl rfl rfl rfl rfl rfl ?_
    intro hok
    cases hk : c.kind with
    | schedule =>
      simp only [Call.profile, Call.pcOk, Call.afterJoin, scheduleProfile, schedulePc, hk,
        Profile.mk.injEq] at hprof hok ⊢
      simp only [true_and, Nat.zero_le, and_true]
      omega
    | priority =>
      simp only [Call.profile, Call.pcOk, Call.afterJoin, priorityProfile, priorityPc, hk,
        Profile.mk.injEq] at hprof hok ⊢
      simp only [true_and]
      omega
  | @clear c i hp =>
    refine hinv.crew_step hp rfl rfl hinv.joined_done ?_
    intro hcrew hok
    cases hk : c.kind with
    | schedule => simp [Call.pcOk, schedulePc, hk] at hok
    | priority =>
      simp only [Call.profile, Call.pcOk, priorityProfile, priorityPc, hk] at hcrew hok ⊢
      exact ⟨hcrew.clear, by omega, usesThreads_of_lt hok⟩
  | @stats c k hp hk' =>
    refine hinv.same hp rfl rfl rfl rfl rfl rfl ?_
    cases hk : c.kind <;>
      simp [Call.profile, Call.pcOk, scheduleProfile, schedulePc, priorityPc, hk]
    omega
  | @reset_pause c hp =>
    obtain ⟨hcrew, -, hreuse, hclean⟩ := hinv.running _ _ hp
    refine ⟨by simp, hinv.joined_done, fun _ => ⟨?_, hreuse.of_cons, ?_⟩, by simp⟩
    · exact hcrew.all_joined (by
        cases hk : c.kind <;> simp [Call.profile, scheduleProfile, priorityProfile, hk])
    -- entries stay behind only if no later call looks at them
    · by_cases hleaves : c.leavesThreads
      · exact .inr fun d hd => (List.pairwise_cons.mp hreuse).1 d hd hleaves
      · rcases hclean with huses | h
        · left
          simp only [hcrew.slots huses]
          cases hk : c.kind <;> simp_all [Call.profile, Profile.slots, scheduleProfile,
            priorityProfile, Call.leavesThreads]
        · exact h
  | @lock c i hp _ | @set_pause c i hp | @unlock c i hp | @notify_all c i hp _
  | @notify_one c i _ hp _ _ | @lock_ready c i hp _ | @check_ready_true c i hp _
  | @check_ready_false c i hp _ | @relock c i hp _ _ | @unlock_ready c i hp
  | @stats_end c k hp _ | @reset_ready c hp =>
    refine hinv.same hp rfl rfl rfl rfl rfl rfl ?_
    cases hk : c.kind <;>
      simp_all [Call.profile, Call.pcOk, scheduleProfile, priorityProfile, schedulePc,
        priorityPc]

theorem thread_inv {calls : List (Call World Cnt Ev)} {world : World}
    (hreuse : Reusable calls) (h : Reachable (harness api calls world) s) : ThreadInv s := by
  apply h.invariant (fun s h0 => h0 ▸ thread_inv_initial hreuse world)
  intro s a s' hinv hstep
  cases hstep with
  | scheduler h => exact thread_inv_scheduler hinv h
  | worker h => exact thread_inv_worker hinv h
  | spurious _ =>
    exact ⟨hinv.alive, hinv.joined_done, hinv.idle, fun c pc hp =>
      ⟨(hinv.running c pc hp).1.congr rfl rfl rfl rfl, (hinv.running c pc hp).2⟩⟩

end

end Pcnt
