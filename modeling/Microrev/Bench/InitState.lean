import Microrev.Ring.Setup
import Microrev.Bench.Bodies

/-! # Preparing a Coherence State

    `init_state` appends schedules that are to leave every line of the
    shared data in a given coherence state. `setup` leaves `shared_iter`
    behind the last node, on the pointer to the head, so the `n` loads of a
    traversal reach only `n - 1` of the `n` nodes; the stores of `writer_`
    and the flushes of `flusher_` reach all of them. This file works out what
    is left where.
-/

namespace Pcnt

open Loop Coherence

/-! ### The Source Function -/

abbrev Sched := Schedule World PAPILLCounter (List Text)

/-- `Sched{ core_id, body, events }`: the thread is pinned to `core_id`. -/
def sched (core_id : Int) (body : Int → Op World PAPILLCounter) (events : List Text) : Sched where
  core_id := core_id
  benchmark := body core_id
  events := events
  label := ""

@[match_pattern] def M_STATE : Nat := 0
@[match_pattern] def E_STATE : Nat := 1
@[match_pattern] def S_STATE : Nat := 2
@[match_pattern] def I_STATE : Nat := 3
@[match_pattern] def F_STATE : Nat := 5

def init_state (cores : Finset Int) (vec : List Sched) (cc_state : Nat) (core_a core_b : Int)
    (cnt_vec : List Text) : List Sched :=
  match cc_state with
  | M_STATE => vec ++ [sched core_a (writer cores) cnt_vec]
  | E_STATE => vec ++ [sched core_a (writer cores) [], sched core_a (flusher cores) [],
      sched core_a (reader cores) cnt_vec]
  | S_STATE => vec ++ [sched core_a (writer cores) [], sched core_a (reader cores) [],
      sched core_b (reader cores) []]
  | I_STATE => vec ++ [sched core_a (writer cores) cnt_vec, sched core_a (flusher cores) cnt_vec]
  | F_STATE => vec ++ [sched core_b (writer cores) [], sched core_a (reader cores) cnt_vec,
      sched core_b (flusher cores) []]
  | _ => vec

theorem init_state_append (cores : Finset Int) (vec : List Sched) (cc_state : Nat)
    (core_a core_b : Int) (cnt_vec : List Text) :
    init_state cores vec cc_state core_a core_b cnt_vec =
      vec ++ init_state cores [] cc_state core_a core_b cnt_vec := by
  unfold init_state
  split <;> simp

/-! ### Where the Nodes Lie -/

/-- The line of node `i`. -/
abbrev nodeLine (g : Shared) (i : Nat) : BitVec 64 := lineOf (node g.shared_data 64 i)

/-- The shared data, as `setup` leaves them: `n` nodes of 64 bytes, each with
    its pointer and its payload in one line, and `shared_iter` behind them.
    `stop k` is where a traversal is after `k` loads: it starts behind the
    last node and then goes round all nodes. -/
structure Walk (g : Shared) (n : Nat) (stop : Nat → Nat) : Prop where
  size : g.shared_data_size.toNat = 64 * n
  stride : g.cache_line_size = 64
  few : n < 2 ^ 31
  place : g.shared_data.toNat % 64 ≤ 48
  start : g.shared_iter = node g.shared_data 64 n
  first : stop 0 = n
  bound : ∀ k, 0 < k → k ≤ n → stop k < n
  onto : ∀ i < n, ∃ k, 0 < k ∧ k ≤ n ∧ stop k = i
  inj : ∀ j k, 0 < j → j ≤ n → 0 < k → k ≤ n → stop j = stop k → j = k
  links : ∀ k < n, g.mem.load (node g.shared_data 64 (stop k)) =
    node g.shared_data 64 (stop (k + 1))

section
variable {g : Shared} {n : Nat} {stop : Nat → Nat}

theorem Walk.line_cnt (h : Walk g n stop) : g.line_cnt 64 = n := by
  have hsize := h.size
  unfold Shared.line_cnt
  rw [BitVec.toNat_udiv, show (64 : BitVec 64).toNat = 64 from rfl, hsize]
  omega

theorem Walk.stop_le (h : Walk g n stop) {k : Nat} (hk : k ≤ n) : stop k ≤ n := by
  rcases Nat.eq_zero_or_pos k with rfl | hpos
  · exact h.first.le
  · exact (h.bound k hpos hk).le

/-- Different nodes are in different lines. -/
theorem Walk.nodeLine_inj (h : Walk g n stop) {i j : Nat} (hi : i ≤ n) (hj : j ≤ n)
    (heq : nodeLine g i = nodeLine g j) : i = j := by
  have hfew := h.few
  have hplace := h.place
  have hbase := g.shared_data.isLt
  have hnat := congrArg BitVec.toNat heq
  simp only [lineOf, Memory.slot, BitVec.toNat_ushiftRight, BitVec.toNat_add, BitVec.toNat_ofNat,
    Nat.shiftRight_eq_div_pow, show (64 : BitVec 64).toNat = 64 from rfl] at hnat
  omega

/-- An offset within the first 16 bytes of a node stays in its line. -/
theorem Walk.lineOf_offset (h : Walk g n stop) (i : Nat) {d : Nat} (hd : d < 16) :
    lineOf (node g.shared_data 64 i + BitVec.ofNat 64 d) = nodeLine g i := by
  have hplace := h.place
  have hbase := g.shared_data.isLt
  apply BitVec.eq_of_toNat_eq
  simp only [lineOf, Memory.slot, BitVec.toNat_ushiftRight, BitVec.toNat_add, BitVec.toNat_ofNat,
    Nat.shiftRight_eq_div_pow, show (64 : BitVec 64).toNat = 64 from rfl]
  omega

theorem Walk.wordLines_pointer (h : Walk g n stop) (i : Nat) :
    wordLines (node g.shared_data 64 i) = [nodeLine g i, nodeLine g i] := by
  have hlast := h.lineOf_offset i (show 7 < 16 by decide)
  unfold wordLines
  rw [show (7 : BitVec 64) = BitVec.ofNat 64 7 from rfl, hlast]

theorem Walk.wordLines_payload (h : Walk g n stop) (i : Nat) :
    wordLines (node g.shared_data 64 i + 8) = [nodeLine g i, nodeLine g i] := by
  have hfirst := h.lineOf_offset i (show 8 < 16 by decide)
  have hlast := h.lineOf_offset i (show 15 < 16 by decide)
  unfold wordLines
  rw [BitVec.add_assoc, show (8 : BitVec 64) + 7 = BitVec.ofNat 64 15 from rfl, hlast,
    show (8 : BitVec 64) = BitVec.ofNat 64 8 from rfl, hfirst]

/-- The payload of a node shares no byte with any pointer. -/
theorem payload_apart (base : BitVec 64) (i j : Nat) :
    Memory.Apart (node base 64 i + 8) (node base 64 j) := by
  unfold Memory.Apart
  simp only [Memory.slot, BitVec.toNat_sub, BitVec.toNat_add, BitVec.toNat_ofNat,
    show (64 : BitVec 64).toNat = 64 from rfl, show (8 : BitVec 64).toNat = 8 from rfl]
  omega

/-- Only the pointers matter. -/
theorem Walk.store (h : Walk g n stop) {mem : Memory}
    (hmem : ∀ i ≤ n, mem.load (node g.shared_data 64 i) = g.mem.load (node g.shared_data 64 i)) :
    Walk { g with mem := mem } n stop :=
  { h with
    links := fun k hk => (hmem _ (h.stop_le hk.le)).trans (h.links k hk) }

end

theorem setup_shared_data {draws : Draws} {fuel : Nat} {addr size stride : BitVec 64}
    {g g' : Shared} (h : setup draws fuel addr size stride g = some g') :
    g'.shared_data = addr := by
  obtain ⟨r, -, hr⟩ := Option.map_eq_some_iff.mp h
  rw [← hr]

/-- `setup` leaves a walk, whatever it draws and wherever the array is. -/
theorem setup_walk {draws : Draws} {fuel : Nat} {addr : BitVec 64} {g g' : Shared} {n : Nat}
    (hn : 0 < n) (hsize : g.shared_data_size.toNat = 64 * n) (hstride : g.cache_line_size = 64)
    (hplace : addr.toNat % 64 ≤ 48)
    (h : setup draws fuel addr g.shared_data_size 64 g = some g') : ∃ stop, Walk g' n stop := by
  have hlt := g.shared_data_size.isLt
  have h64 : (64 : BitVec 64).toNat = 64 := rfl
  have hroom : Room g.shared_data_size 64 :=
    .of_sixteen (by omega) (by decide) (by rw [hsize, h64]; exact Nat.dvd_mul_right 64 n)
  have hcount : nodeCount g.shared_data_size 64 = n := by
    unfold nodeCount
    rw [hsize, h64, rounds_mul (by decide)]
  have hsetup : SetUp draws fuel addr g.shared_data_size 64 g g' := .setup h
  obtain ⟨path, hring⟩ := hsetup.ringAt hroom
  have hdata := hring.data
  refine ⟨stopAt n path, ?_, ?_, hcount ▸ hring.few, ?_, ?_, rfl, ?_, ?_, ?_, ?_⟩
  · rw [hsetup.data_size, hsize]
  · obtain ⟨r, -, rfl⟩ := Option.map_eq_some_iff.mp h
    exact hstride
  · rwa [hdata]
  · rw [hdata, hring.iter, hcount]
  · intro k hpos hk
    obtain ⟨k, rfl⟩ := Nat.exists_eq_add_one_of_ne_zero hpos.ne'
    have hbound := hring.stopAt_succ_lt hroom k
    rwa [hcount] at hbound
  · intro i hi
    obtain ⟨k, hk, hstop⟩ := hring.stopAt_onto (i := i) (by rwa [hcount])
    rw [hcount] at hk hstop
    exact ⟨k + 1, Nat.succ_pos k, hk, hstop⟩
  · intro j k hj hjn hk hkn heq
    obtain ⟨j, rfl⟩ := Nat.exists_eq_add_one_of_ne_zero hj.ne'
    obtain ⟨k, rfl⟩ := Nat.exists_eq_add_one_of_ne_zero hk.ne'
    have hinj := hring.stopAt_inj (j := j) (k := k) (by omega) (by omega)
    rw [hcount] at hinj
    rw [hinj heq]
  · intro k _
    have hhere := hring.iterate hroom k
    have hnext := hring.iterate hroom (k + 1)
    rw [Function.iterate_succ_apply', hhere, hcount] at hnext
    rwa [hdata]

/-! ### Traversals -/

section
variable (cores : Finset Int) (core : Int) {w : World} (pc : PAPILLCounter)
variable {n : Nat} {stop : Nat → Nat}

/-- The accesses of `k` rounds of `reader_`. -/
def loadTrace (g : Shared) (stop : Nat → Nat) (k : Nat) : List (Access (BitVec 64)) :=
  (List.range k).flatMap fun j => [.load (nodeLine g (stop j)), .load (nodeLine g (stop j))]

/-- The accesses of `k` rounds of `writer_`. -/
def storeTrace (g : Shared) (stop : Nat → Nat) (k : Nat) : List (Access (BitVec 64)) :=
  (List.range k).flatMap fun j => [.load (nodeLine g (stop j)), .load (nodeLine g (stop j)),
    .store (nodeLine g (stop (j + 1))), .store (nodeLine g (stop (j + 1)))]

theorem access_access (as bs : List (Access (BitVec 64))) :
    (w.access cores core as).access cores core bs = w.access cores core (as ++ bs) := by
  unfold World.access
  rw [accesses_append]

theorem reader_loop (h : Walk w.shared n stop) {k : Nat} (hk : k ≤ n) :
    upTo (fun _ => Chase.advance cores core) k (.begin w) =
      ⟨node w.shared.shared_data 64 (stop k),
        w.access cores core (loadTrace w.shared stop k)⟩ := by
  induction k with
  | zero =>
    show Chase.mk w.shared.shared_iter w = _
    rw [h.start, h.first]
    rfl
  | succ k ih =>
    show Chase.advance cores core (upTo _ k _) = _
    rw [ih (by omega)]
    show Chase.mk (w.shared.mem.load _) (World.access cores core _ (w.access cores core _)) = _
    rw [h.links k hk, h.wordLines_pointer, access_access]
    simp [loadTrace, List.range_succ]

theorem writer_loop (h : Walk w.shared n stop) {k : Nat} (hk : k ≤ n) :
    ∃ mem, upTo (fun _ => writer_round cores core) k (.begin w) =
        ⟨node w.shared.shared_data 64 (stop k),
          { w.access cores core (storeTrace w.shared stop k) with
            shared := { w.shared with mem := mem } }⟩ ∧
      ∀ i, mem.load (node w.shared.shared_data 64 i) =
        w.shared.mem.load (node w.shared.shared_data 64 i) := by
  induction k with
  | zero =>
    refine ⟨w.shared.mem, ?_, fun _ => rfl⟩
    show Chase.mk w.shared.shared_iter w = _
    rw [h.start, h.first]
    rfl
  | succ k ih =>
    obtain ⟨mem, hloop, hmem⟩ := ih (by omega)
    refine ⟨mem.store (node w.shared.shared_data 64 (stop (k + 1)) + 8) 1, ?_, ?_⟩
    · show writer_round cores core (upTo _ k _) = _
      rw [hloop]
      -- the payloads stored so far have left the pointer alone
      have hlink := (hmem (stop k)).trans (h.links k hk)
      unfold writer_round Chase.advance Chase.mark World.loadWord World.storeWord
      simp only [hlink, h.wordLines_pointer, h.wordLines_payload]
      simp [storeTrace, List.range_succ, World.access, accesses_append]
      rfl
    · intro i
      rw [Memory.load_store_apart _ _ (payload_apart _ _ _)]
      exact hmem i

/-! ### What a Body Leaves Behind -/

theorem reader_world (h : Walk w.shared n stop) :
    (reader cores core (w, pc)).1.shared = w.shared ∧
      (reader cores core (w, pc)).1.cache =
        accesses cores core w.cache (loadTrace w.shared stop n) := by
  have hw : Walk w.rdtsc.2.shared n stop := h
  have hloop := reader_loop cores core hw le_rfl
  unfold reader reader_
  rw [sample_world.1, sample_world.2, h.stride]
  simp only [h.line_cnt, hloop]
  exact ⟨rfl, rfl⟩

theorem writer_world (h : Walk w.shared n stop) :
    ∃ mem, (writer cores core (w, pc)).1.shared = { w.shared with mem := mem } ∧
      (∀ i, mem.load (node w.shared.shared_data 64 i) =
        w.shared.mem.load (node w.shared.shared_data 64 i)) ∧
      (writer cores core (w, pc)).1.cache =
        accesses cores core w.cache (storeTrace w.shared stop n) := by
  have hw : Walk w.rdtsc.2.shared n stop := h
  obtain ⟨mem, hloop, hmem⟩ := writer_loop cores core hw le_rfl
  refine ⟨mem, ?_⟩
  unfold writer writer_
  rw [sample_world.1, sample_world.2, h.stride]
  simp only [h.line_cnt, hloop]
  exact ⟨rfl, hmem, rfl⟩

theorem flusher_loop (base : BitVec 64) (k : Nat) :
    upTo (fun i w => w.clflush cores core (base + BitVec.ofNat 64 i)) k w =
      w.access cores core
        ((List.range k).map fun i => .flush (lineOf (base + BitVec.ofNat 64 i))) := by
  induction k with
  | zero => rfl
  | succ k ih =>
    show World.clflush cores core _ (upTo _ k w) = _
    rw [ih, World.clflush, access_access]
    simp [List.range_succ]

/-! ### Lines -/

/-- The shared data are as `setup` left them at `base`, and the line of node
    `i` is in state `f i`. -/
structure LinesAre (base : BitVec 64) (n : Nat) (stop : Nat → Nat) (f : Nat → Int → Mesi)
    (w : World) : Prop where
  walk : Walk w.shared n stop
  place : w.shared.shared_data = base
  lines : ∀ i < n, w.cache (lineOf (node base 64 i)) = f i

variable {base : BitVec 64} {f : Nat → Int → Mesi}

/-- The stores reach every node. -/
theorem LinesAre.writer (h : LinesAre base n stop f w) :
    LinesAre base n stop (fun _ => ownedBy core) (writer cores core (w, pc)).1 := by
  obtain ⟨mem, hshared, hmem, hcache⟩ := writer_world cores core pc h.walk
  have hplace := h.place
  subst hplace
  refine ⟨hshared ▸ h.walk.store fun i _ => hmem i, by rw [hshared], ?_⟩
  intro i hi
  obtain ⟨k, hpos, hk, rfl⟩ := h.walk.onto i hi
  obtain ⟨k, rfl⟩ := Nat.exists_eq_add_one_of_ne_zero hpos.ne'
  rw [hcache]
  apply accesses_stored
  · simp [storeTrace]
  · exact List.mem_flatMap.mpr ⟨k, List.mem_range.mpr hk, by simp [nodeLine]⟩

/-- Every byte is flushed, so every line. -/
theorem LinesAre.flusher (h : LinesAre base n stop f w) :
    LinesAre base n stop (fun _ => nowhere) (flusher cores core (w, pc)).1 := by
  have hplace := h.place
  subst hplace
  have hworld : (Pcnt.flusher cores core (w, pc)).1 = w.access cores core
      ((List.range w.shared.shared_data_size.toNat).map fun i =>
        .flush (lineOf (w.shared.shared_data + BitVec.ofNat 64 i))) := flusher_loop cores core _ _
  rw [hworld]
  refine ⟨h.walk, rfl, ?_⟩
  intro i hi
  apply accesses_flushed
  · simp
  · simp
  -- the first byte of node i is byte 64 * i
  · refine List.mem_map.mpr ⟨i * 64, List.mem_range.mpr ?_, rfl⟩
    have hsize := h.walk.size
    omega

theorem load_mem_loadTrace {g : Shared} (h : Walk g n stop) {i : Nat} (hi : i < n) :
    .load (nodeLine g i) ∈ loadTrace g stop n ↔ i ≠ stop n := by
  have hiff : .load (nodeLine g i) ∈ loadTrace g stop n ↔ ∃ j < n, stop j = i := by
    simp only [loadTrace, List.mem_flatMap, List.mem_range, List.mem_cons, Access.load.injEq,
      List.not_mem_nil, or_false, or_self]
    constructor
    · rintro ⟨j, hj, heq⟩
      exact ⟨j, hj, (h.nodeLine_inj hi.le (h.stop_le hj.le) heq).symm⟩
    · rintro ⟨j, hj, rfl⟩
      exact ⟨j, hj, rfl⟩
  rw [hiff]
  constructor
  · rintro ⟨j, hj, hstop⟩ rfl
    rcases Nat.eq_zero_or_pos j with rfl | hpos
    · rw [h.first] at hstop
      omega
    -- only round 0 starts outside the ring; the others do not repeat
    · have := h.inj j n hpos hj.le (by omega) le_rfl hstop
      omega
  · intro hne
    obtain ⟨k, -, hk, rfl⟩ := h.onto i hi
    rcases Nat.lt_or_eq_of_le hk with hlt | rfl
    · exact ⟨k, hlt, rfl⟩
    · exact absurd rfl hne

/-- **The loads miss one node**: the one that a traversal ends in. -/
theorem LinesAre.reader (h : LinesAre base n stop f w) :
    LinesAre base n stop (fun i => if i = stop n then f i else afterLoad cores core (f i))
      (reader cores core (w, pc)).1 := by
  obtain ⟨hshared, hcache⟩ := reader_world cores core pc h.walk
  have hplace := h.place
  subst hplace
  refine ⟨by rw [hshared]; exact h.walk, by rw [hshared], ?_⟩
  intro i hi
  have hstore : .store (nodeLine w.shared i) ∉ loadTrace w.shared stop n := by simp [loadTrace]
  have hflush : .flush (nodeLine w.shared i) ∉ loadTrace w.shared stop n := by simp [loadTrace]
  have hload := load_mem_loadTrace h.walk hi
  rw [hcache, ← h.lines i hi]
  split
  · next hlast =>
    exact accesses_other (fun hmem => hload.mp hmem hlast) hstore hflush
  · next hne =>
    exact accesses_loaded hstore hflush (hload.mpr hne)

/-! ### Running the Schedules -/

/-- A thread changes the process as its body does. -/
theorem thread_world (papi : Papi) (sch : Sched) (wc : World × PAPILLCounter) :
    ∃ pc', (counter_thread_fn (papiApi papi) 0 sch wc).1 = (sch.benchmark (wc.1, pc')).1 := by
  refine ⟨(PAPILLCounter.reset (addEvents (papiApi papi) sch wc)).2, ?_⟩
  have hreset : (PAPILLCounter.reset (addEvents (papiApi papi) sch wc)).1 = wc.1 := by
    unfold PAPILLCounter.reset
    split <;> rfl
  show (sch.benchmark (PAPILLCounter.reset (addEvents (papiApi papi) sch wc))).1 = _
  rw [← hreset]

/-- The first schedule, then the others. -/
theorem LinesAre.series_cons (papi : Papi) {sch : Sched} {rest : List Sched}
    {f' f'' : Nat → Int → Mesi}
    (hbody : ∀ pc', LinesAre base n stop f' (sch.benchmark (w, pc')).1)
    (hrest : ∀ w', LinesAre base n stop f' w' →
      LinesAre base n stop f'' (series (papiApi papi) 0 rest w').1) :
    LinesAre base n stop f'' (series (papiApi papi) 0 (sch :: rest) w).1 := by
  obtain ⟨pc', hpc⟩ := thread_world papi sch (w, freshCounter (papiApi papi) sch)
  apply hrest
  rw [hpc]
  exact hbody pc'

end

section
variable (papi : Papi) (cores : Finset Int) (core_a core_b : Int) (cnt_vec : List Text)
variable {w : World} {n : Nat} {stop : Nat → Nat} {base : BitVec 64} {f : Nat → Int → Mesi}

theorem init_state_modified (h : LinesAre base n stop f w) :
    LinesAre base n stop (fun _ => ownedBy core_a)
      (series (papiApi papi) 0 (init_state cores [] M_STATE core_a core_b cnt_vec) w).1 :=
  .series_cons papi (fun pc => h.writer cores core_a pc) fun _ h => h

theorem init_state_invalid (h : LinesAre base n stop f w) :
    LinesAre base n stop (fun _ => nowhere)
      (series (papiApi papi) 0 (init_state cores [] I_STATE core_a core_b cnt_vec) w).1 :=
  .series_cons papi (fun pc => h.writer cores core_a pc) fun _ h =>
    .series_cons papi (fun pc => h.flusher cores core_a pc) fun _ h => h

/-- The line that the traversal of `reader_` misses stays flushed. -/
theorem init_state_exclusive (h : LinesAre base n stop f w) :
    LinesAre base n stop (fun i => if i = stop n then nowhere else exclusiveTo core_a)
      (series (papiApi papi) 0 (init_state cores [] E_STATE core_a core_b cnt_vec) w).1 := by
  have hloaded : (fun i => if i = stop n then nowhere else exclusiveTo core_a) =
      fun i => if i = stop n then nowhere else afterLoad cores core_a nowhere := by
    rw [afterLoad_nowhere]
  rw [hloaded]
  exact .series_cons papi (fun pc => h.writer cores core_a pc) fun _ h =>
    .series_cons papi (fun pc => h.flusher cores core_a pc) fun _ h =>
      .series_cons papi (fun pc => h.reader cores core_a pc) fun _ h => h

/-- The node that a traversal ends in. -/
theorem Walk.last_lt (h : Walk w.shared n stop) (hn : 0 < n) : stop n < n := h.bound n hn le_rfl

/-- The line that the traversals of `reader_` miss stays modified at
    `core_a`. -/
theorem init_state_shared {cores : Finset Int} {core_a core_b : Int} (ha : core_a ∈ cores)
    (hne : core_a ≠ core_b) (h : LinesAre base n stop f w) :
    LinesAre base n stop
      (fun i => if i = stop n then ownedBy core_a
        else fun d => if d = core_b ∨ d = core_a then .shared else .invalid)
      (series (papiApi papi) 0 (init_state cores [] S_STATE core_a core_b cnt_vec) w).1 := by
  have hloaded : (fun i => if i = stop n then ownedBy core_a
        else fun d => if d = core_b ∨ d = core_a then .shared else .invalid) =
      fun i => if i = stop n
        then (if i = stop n then ownedBy core_a else afterLoad cores core_a (ownedBy core_a))
        else afterLoad cores core_b
          (if i = stop n then ownedBy core_a else afterLoad cores core_a (ownedBy core_a)) := by
    -- the owner hits its own line, so only the load of core_b changes anything
    funext i
    rw [afterLoad_hit ownedBy_self, ite_self, afterLoad_ownedBy ha hne]
  rw [hloaded]
  exact .series_cons papi (fun pc => h.writer cores core_a pc) fun _ h =>
    .series_cons papi (fun pc => h.reader cores core_a pc) fun _ h =>
      .series_cons papi (fun pc => h.reader cores core_b pc) fun _ h => h

/-- What `init_state` is for: the line is in the given state at `core_a`. -/
def InState (cc_state : Nat) (core_a core_b : Int) (line : Int → Mesi) : Prop :=
  match cc_state with
  | M_STATE => line core_a = .modified ∧ ∀ c, c ≠ core_a → line c = .invalid
  | E_STATE => line core_a = .exclusive ∧ ∀ c, c ≠ core_a → line c = .invalid
  | S_STATE => line core_a = .shared ∧ line core_b = .shared
  | I_STATE => ∀ c, line c = .invalid
  | _ => False

/-- Whatever the target line is like elsewhere, it is not Exclusive where a
    traversal ends. -/
theorem init_state_exclusive_misses (hn : 0 < n) (h : LinesAre base n stop f w) :
    ¬ InState E_STATE core_a core_b
      ((series (papiApi papi) 0 (init_state cores [] E_STATE core_a core_b cnt_vec) w).1.cache
        (lineOf (node base 64 (stop n)))) := by
  intro hbad
  have hlines := (init_state_exclusive papi cores core_a core_b cnt_vec h).lines _
    (h.walk.last_lt hn)
  rw [hlines] at hbad
  have hvalue : (if stop n = stop n then nowhere else exclusiveTo core_a) core_a = .exclusive :=
    hbad.1
  simp [nowhere] at hvalue

theorem LinesAre.start (h : Walk w.shared n stop) :
    LinesAre w.shared.shared_data n stop (fun i => w.cache (nodeLine w.shared i)) w :=
  ⟨h, rfl, fun _ _ => rfl⟩

/-- **Preparation of all lines**: after `setup`, from any coherence state,
    the schedules that `init_state` appends leave every line as asked for
    exactly when the target is Modified or Invalid. -/
theorem init_state_prepares_iff {cores : Finset Int} {core_a core_b : Int} {draws : Draws}
    {fuel : Nat} {addr : BitVec 64} {g : Shared} {cc_state : Nat} (vec : List Sched)
    (hn : 0 < n) (hsize : g.shared_data_size.toNat = 64 * n)
    (hline : g.cache_line_size = 64) (hplace : addr.toNat % 64 ≤ 48)
    (hsetup : setup draws fuel addr g.shared_data_size 64 g = some w.shared)
    (ha : core_a ∈ cores) (hne : core_a ≠ core_b)
    (hstate : cc_state ∈ [M_STATE, E_STATE, S_STATE, I_STATE]) :
    (∀ i < n, InState cc_state core_a core_b
      ((series (papiApi papi) 0
        ((init_state cores vec cc_state core_a core_b cnt_vec).drop vec.length) w).1.cache
          (lineOf (node addr 64 i)))) ↔ cc_state = M_STATE ∨ cc_state = I_STATE := by
  obtain ⟨stop, hwalk⟩ := setup_walk hn hsize hline hplace hsetup
  have hstart := LinesAre.start hwalk
  rw [setup_shared_data hsetup] at hstart
  have hlast := hwalk.last_lt hn
  rw [init_state_append, List.drop_left]
  simp only [List.mem_cons, List.not_mem_nil, or_false] at hstate
  rcases hstate with rfl | rfl | rfl | rfl
  · refine ⟨fun _ => .inl rfl, ?_⟩
    intro _ i hi
    rw [(init_state_modified papi cores core_a core_b cnt_vec hstart).lines i hi]
    exact ⟨by simp [ownedBy], fun c hc => by simp [ownedBy, hc]⟩
  · refine ⟨?_, fun h => absurd h (by decide)⟩
    intro hall
    have hbad := hall (stop n) hlast
    exact absurd hbad (init_state_exclusive_misses papi cores core_a core_b cnt_vec hn hstart)
  · refine ⟨?_, fun h => absurd h (by decide)⟩
    intro hall
    have hbad := hall (stop n) hlast
    rw [(init_state_shared papi cnt_vec ha hne hstart).lines _ hlast] at hbad
    have hvalue : (if stop n = stop n then ownedBy core_a
        else fun d => if d = core_b ∨ d = core_a then .shared else .invalid) core_a = .shared :=
      hbad.1
    simp [ownedBy] at hvalue
  · refine ⟨fun _ => .inr rfl, ?_⟩
    intro _ i hi
    rw [(init_state_invalid papi cores core_a core_b cnt_vec hstart).lines i hi]
    exact fun c => rfl

end

/-! ### One Line -/

/-- A process with empty caches. -/
def coldStart (g : Shared) : World where
  shared := g
  cache := fun _ _ => .invalid
  dump := []
  clock := fun _ => 0
  counts := fun _ => 0

/-- PAPI with numbers for names. -/
def plainPapi : Papi where
  event_name_to_code := fun name => name.length
  event_code_to_name := fun code => List.replicate code.toNat 'x'

/-- Four lines of 64 bytes, for Modified at core 0. -/
theorem init_state_prepares_four_lines :
    ∃ g, setup (fun _ _ => 0) 5 4096 256 64 fourLines = some g ∧
      ∀ i < 4, InState M_STATE 0 1
        ((series (papiApi plainPapi) 0
          ((init_state {0, 1} [] M_STATE 0 1 []).drop 0) (coldStart g)).1.cache
            (lineOf (node 4096 64 i))) := by
  obtain ⟨g, hg, -⟩ := setup_four_lines
  have hsetup : setup (fun _ _ => 0) 5 4096 fourLines.shared_data_size 64 fourLines =
      some (coldStart g).shared := hg
  exact ⟨g, hg, (init_state_prepares_iff (n := 4) plainPapi [] [] (by decide) (by decide) rfl
    (by decide) hsetup (by decide) (by decide) (by decide)).mpr (.inl rfl)⟩

/-- With one line, nobody has it after the preparation for Exclusive. -/
theorem one_line_not_exclusive :
    ∃ g, setup (fun _ _ => 0) 2 4096 64 64 oneLine = some g ∧
      ¬ ∀ i < 1, InState E_STATE 0 1
        ((series (papiApi plainPapi) 0
          (init_state {0, 1} [] E_STATE 0 1 []) (coldStart g)).1.cache
            (lineOf (node 4096 64 i))) := by
  obtain ⟨g, hg⟩ := setup_one_line
  refine ⟨g, hg, ?_⟩
  intro hall
  obtain ⟨stop, hwalk⟩ := setup_walk Nat.one_pos (by decide) rfl (by decide) hg
  have hstart := LinesAre.start (w := coldStart g) hwalk
  rw [show (coldStart g).shared.shared_data = 4096 from setup_shared_data hg] at hstart
  exact init_state_exclusive_misses plainPapi {0, 1} 0 1 [] Nat.one_pos hstart
    (hall (stop 1) (hstart.walk.last_lt Nat.one_pos))

end Pcnt
