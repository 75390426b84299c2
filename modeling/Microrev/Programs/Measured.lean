import Microrev.Log.RunTest

/-! # What Protocol Tests Measure

    A protocol test flushes, lets `init_state` prepare the lines, and then
    measures `reader` or `writer` at `core_c`. This file follows the measuring
    thread round by round and works out in which coherence state it finds the
    lines, whatever the interleaving. The first load goes behind the array;
    the others go to different nodes, all of them prepared. The last store
    goes to the one node that the traversals of the preparation miss.
-/

namespace Pcnt

open Lts Loop Coherence

/-! ### The Measuring Thread -/

section
variable (cores : Finset Int) (core : Int)

/-- `reader_` after `k` rounds. -/
def readerAt (k : Nat) (w : World) : Chase :=
  upTo (fun _ => Chase.advance cores core) k (.begin w.rdtsc.2)

/-- `writer_` after `k` rounds. -/
def writerAt (k : Nat) (w : World) : Chase :=
  upTo (fun _ => writer_round cores core) k (.begin w.rdtsc.2)

/-- `writer_` in round `k`, about to store. -/
def storingAt (k : Nat) (w : World) : Chase := (writerAt cores core k w).advance cores core

theorem reader_rounds (stride : BitVec 64) :
    reader_ cores core stride = sample fun w =>
      let finish := (readerAt cores core (w.shared.line_cnt stride) w).world.rdtsc
      (finish.2, finish.1 - w.rdtsc.1) := rfl

theorem writer_rounds (stride : BitVec 64) :
    writer_ cores core stride = sample fun w =>
      let finish := (writerAt cores core (w.shared.line_cnt stride) w).world.rdtsc
      (finish.2, finish.1 - w.rdtsc.1) := rfl

end

/-- The measured loads: the first one is of the word behind the array, the
    others are of `n - 1` different nodes, and each finds its line in state
    `P`. One node is not loaded. -/
structure LoadsFind (cores : Finset Int) (core : Int) (n : Nat) (P : (Int → Mesi) → Prop)
    (w : World) : Prop where
  rounds : w.shared.line_cnt w.shared.cache_line_size = n
  behind : (readerAt cores core 0 w).iter = node w.shared.shared_data 64 n
  nodes : ∀ k, 0 < k → k < n →
    ∃ i < n, (readerAt cores core k w).iter = node w.shared.shared_data 64 i
  different : ∀ j k, 0 < j → j < n → 0 < k → k < n →
    (readerAt cores core j w).iter = (readerAt cores core k w).iter → j = k
  found : ∀ k, 0 < k → k < n →
    P ((readerAt cores core k w).world.cache (lineOf (readerAt cores core k w).iter))

/-- The measured stores: they go to all nodes, and each but the last finds
    its line in state `P`; the last one does so only under `last`. -/
structure StoresFind (cores : Finset Int) (core : Int) (n : Nat) (P : (Int → Mesi) → Prop)
    (last : Prop) (w : World) : Prop where
  rounds : w.shared.line_cnt w.shared.cache_line_size = n
  nodes : ∀ i < n, ∃ k < n, (storingAt cores core k w).iter = node w.shared.shared_data 64 i
  found : ∀ k < n, P ((storingAt cores core k w).world.cache
    (lineOf ((storingAt cores core k w).iter + 8))) ↔ k + 1 < n ∨ last

/-! ### Rounds -/

section
variable {cores : Finset Int} {core : Int} {w : World} {n : Nat} {stop : Nat → Nat}
variable {base : BitVec 64} {f : Nat → Int → Mesi}

/-- Later stops are in lines of their own. -/
theorem Walk.nodeLine_stop_ne {g : Shared} (h : Walk g n stop) {j k : Nat} (hjk : j < k)
    (hk : k ≤ n) : nodeLine g (stop j) ≠ nodeLine g (stop k) := by
  intro heq
  have hsame := h.nodeLine_inj (h.stop_le (hjk.le.trans hk)) (h.stop_le hk) heq
  rcases Nat.eq_zero_or_pos j with rfl | hpos
  · -- round 0 is outside the ring
    have hbound := h.bound k hjk hk
    rw [h.first] at hsame
    omega
  · have := h.inj j k hpos (hjk.le.trans hk) (by omega) hk hsame
    omega

theorem Walk.not_mem_loadTrace {g : Shared} (h : Walk g n stop) {k m : Nat} (hk : k ≤ n)
    (hm : m ≤ k) : .load (nodeLine g (stop k)) ∉ loadTrace g stop m := by
  simp only [loadTrace, List.mem_flatMap, List.mem_range, List.mem_cons, Access.load.injEq,
    List.not_mem_nil, or_false, or_self]
  rintro ⟨j, hj, heq⟩
  exact h.nodeLine_stop_ne (by omega) hk heq.symm

/-- Until the writer stores to a node it has not touched its line. -/
theorem Walk.not_mem_storeTrace {g : Shared} (h : Walk g n stop) {k : Nat} (hk : k < n) :
    .load (nodeLine g (stop (k + 1))) ∉ storeTrace g stop k ∧
      .store (nodeLine g (stop (k + 1))) ∉ storeTrace g stop k := by
  simp only [storeTrace, List.mem_flatMap, List.mem_range, List.mem_cons, Access.load.injEq,
    Access.store.injEq, reduceCtorEq, List.not_mem_nil, or_false, or_self, false_or]
  constructor
  · rintro ⟨j, hj, heq⟩
    exact h.nodeLine_stop_ne (show j < k + 1 by omega) hk heq.symm
  · rintro ⟨j, hj, heq⟩
    exact h.nodeLine_stop_ne (show j + 1 < k + 1 by omega) hk heq.symm

variable (cores core) in
theorem LinesAre.readerAt (h : LinesAre base n stop f w) {k : Nat} (hk : k ≤ n) :
    (readerAt cores core k w).iter = node base 64 (stop k) ∧
      (0 < k → (Pcnt.readerAt cores core k w).world.cache (lineOf (node base 64 (stop k))) =
        f (stop k)) := by
  have hplace := h.place
  subst hplace
  have hw : Walk w.rdtsc.2.shared n stop := h.walk
  unfold Pcnt.readerAt
  rw [reader_loop cores core hw hk]
  refine ⟨rfl, ?_⟩
  intro hpos
  rw [← h.lines _ (h.walk.bound k hpos hk)]
  exact accesses_other (hw.not_mem_loadTrace hk le_rfl) (by simp [loadTrace]) (by simp [loadTrace])

variable (cores core) in
theorem LinesAre.storingAt (h : LinesAre base n stop f w) {k : Nat} (hk : k < n) :
    (storingAt cores core k w).iter = node base 64 (stop (k + 1)) ∧
      (Pcnt.storingAt cores core k w).world.cache (lineOf (node base 64 (stop (k + 1)))) =
        f (stop (k + 1)) := by
  have hplace := h.place
  subst hplace
  have hw : Walk w.rdtsc.2.shared n stop := h.walk
  obtain ⟨mem, hloop, hmem⟩ := writer_loop cores core hw hk.le
  have hlink := (hmem (stop k)).trans (hw.links k hk)
  have hiter : (Pcnt.storingAt cores core k w).iter =
      node w.shared.shared_data 64 (stop (k + 1)) := by
    unfold Pcnt.storingAt writerAt
    rw [hloop]
    exact hlink
  have hcache : (Pcnt.storingAt cores core k w).world.cache = accesses cores core w.cache
      (storeTrace w.shared stop k ++
        [.load (nodeLine w.shared (stop k)), .load (nodeLine w.shared (stop k))]) := by
    unfold Pcnt.storingAt writerAt
    rw [hloop, accesses_append]
    show accesses cores core _ ((wordLines (node w.shared.shared_data 64 (stop k))).map .load) = _
    rw [h.walk.wordLines_pointer]
    rfl
  refine ⟨hiter, ?_⟩
  obtain ⟨hload, hstore⟩ := h.walk.not_mem_storeTrace hk
  have hnext : nodeLine w.shared (stop k) ≠ nodeLine w.shared (stop (k + 1)) :=
    h.walk.nodeLine_stop_ne (Nat.lt_succ_self k) hk
  rw [hcache, ← h.lines _ (h.walk.bound (k + 1) (Nat.succ_pos k) hk)]
  show accesses cores core w.cache _ (nodeLine w.shared (stop (k + 1))) = _
  apply accesses_other
  · rw [List.mem_append, not_or]
    exact ⟨hload, by simpa using hnext.symm⟩
  · rw [List.mem_append, not_or]
    exact ⟨hstore, by simp⟩
  · simp [storeTrace]

/-! ### The Prepared Lines -/

/-- The state in the name of a protocol test. -/
def MesiType.state : MesiType → Nat
  | .store_on_modified | .load_from_modified => M_STATE
  | .store_on_exclusive | .load_from_exclusive => E_STATE
  | .store_on_shared_or_forward | .load_from_shared_or_forward => S_STATE
  | _ => I_STATE

/-- The tests that measure `reader`. -/
def MesiType.loads : MesiType → Bool
  | .load_from_modified | .load_from_exclusive | .load_from_shared_or_forward
  | .load_from_invalid => true
  | _ => false

/-- The tests that measure `writer`. -/
def MesiType.stores : MesiType → Bool
  | .store_on_modified | .store_on_exclusive | .store_on_shared_or_forward
  | .store_on_invalid => true
  | _ => false

/-- What `init_state` leaves of the line of node `i`, if the traversals of
    `reader_` miss node `last`. -/
def prepared (cc_state : Nat) (core_a core_b : Int) (last i : Nat) : Int → Mesi :=
  match cc_state with
  | M_STATE => ownedBy core_a
  | E_STATE => if i = last then nowhere else exclusiveTo core_a
  | S_STATE => if i = last then ownedBy core_a
    else fun d => if d = core_b ∨ d = core_a then .shared else .invalid
  | _ => nowhere

variable {core_a core_b : Int} {cc_state : Nat}

theorem MesiType.state_mem (t : MesiType) : t.state ∈ [M_STATE, E_STATE, S_STATE, I_STATE] := by
  cases t <;> decide

/-- Only the line of node `last` can be in another state. -/
theorem prepared_inState (hstate : cc_state ∈ [M_STATE, E_STATE, S_STATE, I_STATE])
    (last i : Nat) : InState cc_state core_a core_b (prepared cc_state core_a core_b last i) ↔
      i ≠ last ∨ cc_state = M_STATE ∨ cc_state = I_STATE := by
  simp only [List.mem_cons, List.not_mem_nil, or_false] at hstate
  rcases hstate with rfl | rfl | rfl | rfl
  · refine iff_of_true ?_ (.inr (.inl rfl))
    show ownedBy core_a core_a = .modified ∧ ∀ c, c ≠ core_a → ownedBy core_a c = .invalid
    simp +contextual [ownedBy]
  · have hno : ¬ (E_STATE = M_STATE ∨ E_STATE = I_STATE) := by decide
    have hlines : prepared E_STATE core_a core_b last i =
        if i = last then nowhere else exclusiveTo core_a := rfl
    rw [or_iff_left hno, hlines]
    split
    · next hi =>
      refine iff_of_false ?_ (not_not.mpr hi)
      rintro ⟨hself, -⟩
      exact absurd hself (by simp [nowhere])
    · next hi =>
      refine iff_of_true ?_ hi
      show exclusiveTo core_a core_a = .exclusive ∧
        ∀ c, c ≠ core_a → exclusiveTo core_a c = .invalid
      simp +contextual [exclusiveTo]
  · have hno : ¬ (S_STATE = M_STATE ∨ S_STATE = I_STATE) := by decide
    have hlines : prepared S_STATE core_a core_b last i = if i = last then ownedBy core_a
        else fun d => if d = core_b ∨ d = core_a then .shared else .invalid := rfl
    rw [or_iff_left hno, hlines]
    split
    · next hi =>
      refine iff_of_false ?_ (not_not.mpr hi)
      rintro ⟨hself, -⟩
      exact absurd hself (by simp [ownedBy])
    · next hi => exact iff_of_true ⟨if_pos (.inr rfl), if_pos (.inl rfl)⟩ hi
  · exact iff_of_true (fun c => rfl) (.inr (.inr rfl))

theorem init_state_lines (papi : Papi) (hstate : cc_state ∈ [M_STATE, E_STATE, S_STATE, I_STATE])
    (ha : core_a ∈ cores) (hne : core_a ≠ core_b) (h : LinesAre base n stop f w) :
    LinesAre base n stop (prepared cc_state core_a core_b (stop n))
      (series (papiApi papi) 0 (init_state cores [] cc_state core_a core_b []) w).1 := by
  simp only [List.mem_cons, List.not_mem_nil, or_false] at hstate
  rcases hstate with rfl | rfl | rfl | rfl
  · exact init_state_modified papi cores core_a core_b [] h
  · exact init_state_exclusive papi cores core_a core_b [] h
  · exact init_state_shared papi [] ha hne h
  · exact init_state_invalid papi cores core_a core_b [] h

/-! ### Runs -/

/-- A thread is inside the measured call of the last schedule. -/
def MeasuringLast (vec : List Sched) (s : State World PAPILLCounter (List Text)) : Prop :=
  ∃ (u : Nat) (v : Worker World PAPILLCounter (List Text)), s.workers[u]? = some v ∧
    v.pc = .in_measure ∧ v.idx + 1 = vec.length

/-- Some interleaving of a call reaches the measured call of its last
    schedule, and all that do find what `Finds` says. -/
def WhenMeasuring (papi : Papi) (call : Call World PAPILLCounter (List Text)) (w : World)
    (Finds : World → Prop) : Prop :=
  (∃ s, Reachable (harness (papiApi papi) [call] w) s ∧ MeasuringLast call.svec s) ∧
    ∀ s, Reachable (harness (papiApi papi) [call] w) s → MeasuringLast call.svec s → Finds s.world

section
variable {papi : Papi} {cfg : CoreConfig} {t : MesiType} {c : CorePlacement} {cnt_vec : List Text}
variable {s : State World PAPILLCounter (List Text)} {call : Call World PAPILLCounter (List Text)}

theorem reset_world (wc : World × PAPILLCounter) : (PAPILLCounter.reset wc).1 = wc.1 := by
  unfold PAPILLCounter.reset
  split <;> rfl

/-- While the last schedule is measured, the process is as the others have
    left it. -/
theorem measuring_world (hk : call.kind = .priority) (hwarm : call.warmup = 0)
    (h : Reachable (harness (papiApi papi) [call] w) s) (hm : MeasuringLast call.svec s) :
    s.world = (series (papiApi papi) 0 call.svec.dropLast w).1 := by
  have hprio : ∀ x ∈ [call], x.kind = .priority := by
    intro x hx
    rw [List.mem_singleton.mp hx, hk]
  obtain ⟨u, v, hv, hpc, hidx⟩ := hm
  obtain ⟨past, call', hcalls, -, hworld⟩ := series_measuring hprio h hv hpc
  -- there is one call only
  obtain ⟨rfl, rfl⟩ : past = [] ∧ call = call' := by
    cases past with
    | nil => exact ⟨rfl, (List.cons.inj hcalls).1⟩
    | cons a past => simp at hcalls
  have htake : call.svec.take v.idx = call.svec.dropLast := by
    rw [List.dropLast_eq_take, ← hidx, Nat.add_sub_cancel]
  rw [hwarm] at hworld
  rw [← htake]
  exact hworld.trans (reset_world _)

theorem WhenMeasuring.mono {P Q : World → Prop} (h : WhenMeasuring papi call w P)
    (hPQ : ∀ w', P w' → Q w') : WhenMeasuring papi call w Q :=
  ⟨h.1, fun s hs hm => hPQ s.world (h.2 s hs hm)⟩

/-- **Measured states** of a priority call without warm-up. -/
theorem whenMeasuring {Finds : World → Prop} (hk : call.kind = .priority) (hwarm : call.warmup = 0)
    (hne : call.svec ≠ []) (hfinds : Finds (series (papiApi papi) 0 call.svec.dropLast w).1) :
    WhenMeasuring papi call w Finds := by
  have hpos := List.length_pos_iff.mpr hne
  constructor
  · obtain ⟨s, hs, u, v, hv, hpc, hidx⟩ := reaches_measure hk (Nat.sub_one_lt hpos.ne') w
    exact ⟨s, hs, u, v, hv, hpc, by omega⟩
  · intro s hs hm
    rw [measuring_world hk hwarm hs hm]
    exact hfinds

theorem flushers_lines (papi : Papi) (core_a core_b core_c : Int)
    (h : LinesAre base n stop f w) :
    LinesAre base n stop (fun _ => nowhere) (series (papiApi papi) 0
      [sched core_a (flusher cores) [], sched core_b (flusher cores) [],
        sched core_c (flusher cores) []] w).1 :=
  .series_cons papi (fun pc => h.flusher cores core_a pc) fun _ h =>
    .series_cons papi (fun pc => h.flusher cores core_b pc) fun _ h =>
      .series_cons papi (fun pc => h.flusher cores core_c pc) fun _ h => h

/-- Everything but the measured schedule of a protocol test. -/
theorem run_test_vec_dropLast (ht : t.protocol = true) :
    (run_test_vec cores cfg t c cnt_vec).dropLast =
      [sched cfg.core_src (flusher cores) [], sched (cfg.core_b c) (flusher cores) [],
        sched (cfg.core_c c) (flusher cores) []] ++
      init_state cores [] t.state cfg.core_src (cfg.core_b c) [] := by
  cases t with
  | producer_consumer => simp [MesiType.protocol] at ht
  | flush => simp [MesiType.protocol] at ht
  | store_on_modified | store_on_exclusive | store_on_shared_or_forward | store_on_invalid
  | load_from_modified | load_from_exclusive | load_from_shared_or_forward
  | load_from_invalid =>
    unfold run_test_vec
    dsimp only
    rw [init_state_append, List.dropLast_concat]
    rfl

/-- **The measured call** of a protocol test is entered with the lines as
    `init_state` has prepared them, whatever the interleaving. -/
theorem measuring_lines (ht : t.protocol = true) (ha : cfg.core_src ∈ cores)
    (hne : cfg.core_src ≠ cfg.core_b c) (hwalk : Walk w.shared n stop) :
    WhenMeasuring papi (run_test_call cores cfg t c cnt_vec) w (LinesAre w.shared.shared_data n stop
      (prepared t.state cfg.core_src (cfg.core_b c) (stop n))) := by
  obtain ⟨prep, sch, hvec, -⟩ := run_test_vec_protocol ht cores cfg c cnt_vec
  refine whenMeasuring (if_neg fun heq => by simp [heq, MesiType.protocol] at ht) rfl ?_ ?_
  · show run_test_vec cores cfg t c cnt_vec ≠ []
    simp [hvec]
  · show LinesAre _ n stop _ (series _ 0 (run_test_vec cores cfg t c cnt_vec).dropLast w).1
    rw [run_test_vec_dropLast ht, series_append]
    exact init_state_lines papi t.state_mem ha hne
      (flushers_lines papi cfg.core_src (cfg.core_b c) (cfg.core_c c) (.start hwalk))

/-- What the measured loads find, from the lines before. -/
theorem LinesAre.loadsFind {P : (Int → Mesi) → Prop} (h : LinesAre base n stop f w)
    (hP : ∀ i < n, i ≠ stop n → P (f i)) : LoadsFind cores core n P w where
  rounds := by rw [h.walk.stride, h.walk.line_cnt]
  behind := by
    rw [(h.readerAt cores core (Nat.zero_le n)).1, h.walk.first, h.place]
  nodes k hpos hk := by
    refine ⟨stop k, h.walk.bound k hpos hk.le, ?_⟩
    rw [(h.readerAt cores core hk.le).1, h.place]
  different j k hj hjn hk hkn heq := by
    rw [(h.readerAt cores core hjn.le).1, (h.readerAt cores core hkn.le).1] at heq
    exact h.walk.inj j k hj hjn.le hk hkn.le (h.walk.nodeLine_inj (h.walk.bound j hj hjn.le).le
      (h.walk.bound k hk hkn.le).le (by rw [nodeLine, nodeLine, h.place, heq]))
  found k hpos hk := by
    obtain ⟨hiter, hcache⟩ := h.readerAt cores core hk.le
    rw [hiter, hcache hpos]
    refine hP _ (h.walk.bound k hpos hk.le) ?_
    intro hlast
    have := h.walk.inj k n hpos hk.le (by omega) le_rfl hlast
    omega

/-- What the measured stores find. -/
theorem LinesAre.storesFind {P : (Int → Mesi) → Prop} {last : Prop} (h : LinesAre base n stop f w)
    (hP : ∀ i < n, P (f i) ↔ i ≠ stop n ∨ last) : StoresFind cores core n P last w where
  rounds := by rw [h.walk.stride, h.walk.line_cnt]
  nodes i hi := by
    obtain ⟨k, hpos, hk, rfl⟩ := h.walk.onto i hi
    obtain ⟨k, rfl⟩ := Nat.exists_eq_add_one_of_ne_zero hpos.ne'
    exact ⟨k, hk, by rw [(h.storingAt cores core hk).1, h.place]⟩
  found k hk := by
    obtain ⟨hiter, hcache⟩ := h.storingAt cores core hk
    have hline : lineOf (node base 64 (stop (k + 1)) + 8) =
        lineOf (node base 64 (stop (k + 1))) := by
      have hoffset := h.walk.lineOf_offset (stop (k + 1)) (show 8 < 16 by decide)
      rwa [nodeLine, h.place] at hoffset
    rw [hiter, hline, hcache, hP _ (h.walk.bound (k + 1) (Nat.succ_pos k) hk)]
    apply or_congr_left
    constructor
    · intro hstop
      have hlast : k + 1 ≠ n := fun heq => hstop (by rw [heq])
      omega
    · intro hlt heq
      have := h.walk.inj (k + 1) n (Nat.succ_pos k) hk (by omega) le_rfl heq
      omega

end

end

end Pcnt
