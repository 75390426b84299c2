import Microrev.Harness.Completion

/-! # Reusing one `CounterBenchmark`

    `pin_to_core( k, .. )` and `join()` go through the member `threads`. Both
    always find a fresh thread of their own call exactly for the reusable
    sequences of calls: once `counters_with_schedule` has left its joined
    entries behind, the next call that looks at `threads` meets them.
-/

namespace Pcnt

open Lts

section
variable {World Cnt Ev : Type} {api : CounterApi World Cnt Ev}
variable {s : State World Cnt Ev} {c d : Call World Cnt Ev}
variable {calls pre rest : List (Call World Cnt Ev)} {world : World}

/-! ### Well-Behaved Thread Operations -/

/-- The entry `k` of `threads` stands for a thread of the running call that
    has not been joined. -/
def State.freshEntry (s : State World Cnt Ev) (k t : Nat) : Prop :=
  s.threads[k]? = some (some t) ∧
    ∃ w, s.workers[t]? = some w ∧ w.call = s.callNo ∧ w.joined = false

/-- What the scheduler is about to pin or to join is a thread of the running
    call that has not been joined; what it pins is the thread just pushed. -/
structure ThreadOpsOk (s : State World Cnt Ev) : Prop where
  pin : ∀ c i, s.pc = .running c (.pin i) →
    c.pinIdx i + 1 = s.threads.length ∧
      ∃ t, s.freshEntry (c.pinIdx i) t ∧ t + 1 = s.workers.length
  join : ∀ c i k, s.pc = .running c (.join i k) → k < s.threads.length →
    ∃ t, s.freshEntry k t

theorem ThreadInv.ops_ok (hinv : ThreadInv s) : ThreadOpsOk s where
  pin c i hp := by
    obtain ⟨w, ht, hw, hcall, hj, -, hlast, hnew⟩ := hinv.pin_entry hp
    exact ⟨hlast, _, ⟨ht, w, hw, hcall, hj⟩, hnew⟩
  join c i k hp hlt := by
    obtain ⟨t, w, ht, hw, hcall, hj⟩ := hinv.join_entry hp hlt
    exact ⟨t, ht, w, hw, hcall, hj⟩

/-! ### Meeting a Left-over Entry -/

/-- The first call that meets entries left by an earlier one. -/
theorem exists_first_clash (h : ¬ Reusable calls) :
    ∃ pre d rest, calls = pre ++ d :: rest ∧ Reusable pre ∧ d.usesThreads ∧
      ∃ c ∈ pre, c.leavesThreads := by
  induction calls using List.reverseRecOn with
  | nil => exact absurd List.Pairwise.nil h
  | append_singleton l d ih =>
    by_cases hl : Reusable l
    · have hclash : ∃ c ∈ l, c.leavesThreads ∧ d.usesThreads := by
        by_contra hno
        refine h (List.pairwise_append.mpr ⟨hl, List.pairwise_singleton _ d, ?_⟩)
        intro a ha b hb hleaves huses
        obtain rfl := List.mem_singleton.mp hb
        exact hno ⟨a, ha, hleaves, huses⟩
      obtain ⟨c, hc, hleaves, huses⟩ := hclash
      exact ⟨l, d, [], rfl, hl, huses, c, hc, hleaves⟩
    · obtain ⟨pre, d', rest, rfl, hrest⟩ := ih hl
      exact ⟨pre, d', rest ++ [d], by simp, hrest⟩

/-- Once a call has left entries, `threads` has only stale ones. -/
theorem leftover_stale (h : ∃ c ∈ pre, c.leavesThreads) :
    ∃ n, pre.foldl (fun ts c => c.leftover ts) [] = List.replicate (n + 1) none := by
  induction pre using List.reverseRecOn with
  | nil => simp at h
  | append_singleton l d ih =>
    rw [List.foldl_append, List.foldl_cons, List.foldl_nil]
    by_cases hleaves : d.leavesThreads
    · obtain ⟨n, hn⟩ : ∃ n, d.svec.length = n + 1 :=
        Nat.exists_eq_succ_of_ne_zero (by simpa using hleaves.2)
      exact ⟨n, by simp [Call.leftover, hleaves, hn]⟩
    · obtain ⟨c, hc, hlc⟩ := h
      have hc' : c ∈ l := by
        rcases List.mem_append.mp hc with hc | hc
        · exact hc
        · obtain rfl := List.mem_singleton.mp hc
          exact absurd hlc hleaves
      obtain ⟨n, hn⟩ := ih ⟨c, hc', hlc⟩
      exact ⟨n, (if_neg hleaves).trans hn⟩

/-- `pin_to_core` or `join()` meets a stale entry when a call that looks at
    `threads` starts with one. -/
theorem clash {n : Nat} (huses : d.usesThreads)
    (h : AtRest (List.replicate (n + 1) none) (d :: rest) s) :
    CanReach (harness api calls world) s fun s' => ¬ ThreadOpsOk s' := by
  refine .step (.scheduler (.start_call h.pc h.todo)) ?_
  by_cases hempty : d.svec = []
  · -- the parallel call without schedules goes straight to its joins
    have hk : d.kind = .schedule := huses.resolve_right (absurd hempty)
    refine .step (.scheduler (schedule_loop_end hk rfl (by simp [hempty]))) ?_
    refine .step (.scheduler (.lock rfl ?_)) (.step (.scheduler (.set_pause rfl))
      (.step (.scheduler (.unlock rfl)) (.step (.scheduler (.notify_all rfl hk)) (.here ?_))))
    · simp [State.goto, h.mon]
    · intro hok
      obtain ⟨t, ⟨ht, -⟩⟩ := hok.join d 0 0 rfl (by simp [State.goto, h.threads])
      simp [State.goto, h.threads] at ht
  · -- the first thread is pushed behind the stale entries and slot 0 is pinned
    obtain ⟨sch, svec, hsvec⟩ := List.exists_cons_of_ne_nil hempty
    have hsch : d.svec[0]? = some sch := by simp [hsvec]
    refine .step (.scheduler (.spawn rfl hsch)) (.here fun hok => ?_)
    have hidx : d.pinIdx 0 = 0 := by cases hk : d.kind <;> simp [Call.pinIdx, hk]
    obtain ⟨-, t, ⟨ht, -⟩, -⟩ := hok.pin d 0 rfl
    simp [State.goto, State.spawn, hidx, h.threads] at ht

theorem clash_reachable (h : ¬ Reusable calls) :
    ∃ s, Reachable (harness api calls world) s ∧ ¬ ThreadOpsOk s := by
  obtain ⟨pre, d, rest, rfl, hpre, huses, hleaves⟩ := exists_first_clash h
  obtain ⟨n, hn⟩ := leftover_stale hleaves
  refine (Reachable.init rfl).can ((calls_return hpre (fun _ _ _ => rfl) atRest_initial).bind ?_)
  intro s ⟨hs, _⟩
  rw [hn] at hs
  exact clash huses hs

/-! ### Reusability -/

/-- **Reusability**: the thread operations of every run are well behaved
    exactly for the reusable sequences of calls. -/
theorem threadOpsOk_iff_reusable :
    (∀ s, Reachable (harness api calls world) s → ThreadOpsOk s) ↔ Reusable calls := by
  constructor
  · intro hall
    by_contra hnot
    obtain ⟨s, hs, hbad⟩ := clash_reachable hnot
    exact hbad (hall s hs)
  · exact fun hreuse s hs => (thread_inv hreuse hs).ops_ok

end

/-- Two parallel calls with one schedule each: the second one pins the joined
    thread of the first. -/
theorem two_schedule_calls_clash :
    ¬ ∀ s, Reachable (harness nullApi [⟨.schedule, [nullSchedule 0], 5⟩,
      ⟨.schedule, [nullSchedule 0], 5⟩] ()) s → ThreadOpsOk s := by
  intro hall
  have hnot : ¬ Reusable [(⟨.schedule, [nullSchedule 0], 5⟩ : Call Unit Unit Unit),
      ⟨.schedule, [nullSchedule 0], 5⟩] := by
    simp [Reusable, Call.leavesThreads, Call.usesThreads]
  obtain ⟨s, hs, hbad⟩ := clash_reachable hnot
  exact hbad (hall s hs)

end Pcnt
