import Mathlib.Data.List.GetD
import Microrev.Ring.LinkedList

/-! # What the Setup Functions Leave Behind

    `setup` and `pr_co_setup` both leave a ring of nodes with room for a
    pointer and a payload each. They also store a pointer to the head where
    `shared_iter` ends up, which is the word behind the array; apart from
    that word, nothing outside the array changes.
-/

namespace Pcnt

open Loop

/-- Every node has room for its pointer and its payload, and the two words
    behind the array do not wrap around onto it. -/
structure Room (size stride : BitVec 64) : Prop where
  size_pos : 0 < size.toNat
  size_le : size.toNat ≤ 2 ^ 64 - 16
  stride_ge : 16 ≤ stride.toNat
  stride_dvd : stride.toNat % 8 = 0
  whole : stride.toNat ∣ size.toNat

section
variable {size stride : BitVec 64}

theorem Room.of_sixteen (hsize : 0 < size.toNat) (hstride : stride.toNat % 16 = 0)
    (hwhole : stride.toNat ∣ size.toNat) : Room size stride := by
  have hpos : 0 < stride.toNat := Nat.pos_of_dvd_of_pos hwhole hsize
  have hdvd : 16 ∣ size.toNat := Nat.dvd_trans (Nat.dvd_of_mod_eq_zero hstride) hwhole
  have hlt := size.isLt
  exact ⟨hsize, by omega, by omega, by omega, hwhole⟩

theorem Room.stride_pos (h : Room size stride) : 0 < stride.toNat := by
  have hge := h.stride_ge
  omega

theorem Room.count_mul (h : Room size stride) :
    nodeCount size stride * stride.toNat = size.toNat :=
  nodeCount_mul h.stride_pos h.whole

theorem Room.count_pos (h : Room size stride) : 0 < nodeCount size stride :=
  rounds_pos h.stride_pos h.size_pos

/-- `size / stride` is the number of nodes. -/
theorem Room.count_eq (h : Room size stride) :
    nodeCount size stride = size.toNat / stride.toNat :=
  nodeCount_eq_div h.stride_pos h.whole

theorem Room.index_fit (h : Room size stride) :
    nodeCount size stride * stride.toNat < 2 ^ 64 := by
  rw [h.count_mul]
  exact size.isLt

theorem Room.fits (h : Room size stride) (hfew : nodeCount size stride < 2 ^ 31) :
    Fits size stride := by
  have hge := h.stride_ge
  have hle := h.size_le
  have hmul := h.count_mul
  exact ⟨h.size_pos, by omega, h.stride_dvd, by omega, hfew⟩

theorem Room.node_end (h : Room size stride) (addr : BitVec 64) :
    node addr stride (nodeCount size stride) = addr + size :=
  Pcnt.node_end h.stride_pos h.whole addr

/-- A node, with its payload, ends before the next one starts. -/
theorem Room.node_le (h : Room size stride) {k : Nat} (hk : k ≤ nodeCount size stride) :
    k * stride.toNat ≤ size.toNat := by
  rw [← h.count_mul]
  exact Nat.mul_le_mul_right _ hk

theorem Room.node_lt (h : Room size stride) {k : Nat} (hk : k < nodeCount size stride) :
    k * stride.toNat + 16 ≤ size.toNat := by
  have hnext := h.node_le hk
  have hge := h.stride_ge
  rw [Nat.succ_mul] at hnext
  omega

theorem payload_eq (addr : BitVec 64) (k : Nat) :
    node addr stride k + 8 = addr + BitVec.ofNat 64 (k * stride.toNat + 8) := by
  unfold node Memory.slot
  rw [BitVec.ofNat_add, BitVec.add_assoc]
  rfl

/-- The payloads are apart from the pointers, the one behind the array
    included. -/
theorem Room.payload_apart (h : Room size stride) (addr : BitVec 64) {j k : Nat}
    (hj : j ≤ nodeCount size stride) (hk : k ≤ nodeCount size stride) :
    Memory.Apart (node addr stride j + 8) (node addr stride k) := by
  have hge := h.stride_ge
  have hle := h.size_le
  have hj' := h.node_le hj
  have hk' := h.node_le hk
  rw [payload_eq]
  rcases Nat.lt_or_ge j k with hlt | hlt
  · have hnext := Nat.mul_le_mul_right stride.toNat (Nat.succ_le_of_lt hlt)
    rw [Nat.succ_mul] at hnext
    exact Memory.offset_apart (by omega) (by omega)
  · have hprev := Nat.mul_le_mul_right stride.toNat hlt
    exact (Memory.offset_apart (by omega) (by omega)).symm

/-! ### The Bytes Outside -/

theorem link_nodes_behind (h : Room size stride) {fuel : Nat} {rnd : List (BitVec 64)}
    {mem : Memory} {arr b : BitVec 64} {s : Memory × BitVec 64}
    (hfits : Fits size stride) (hb : size.toNat ≤ (b - arr).toNat)
    (hrun : link_nodes fuel rnd size stride mem arr = some s) :
    s.1 b = mem b ∧ s.2 = arr + size := by
  have hge := h.stride_ge
  rw [← h.node_end]
  refine (forStep_some (fun k s => s.1 b = mem b ∧ s.2 = node arr stride k)
    (by omega) h.index_fit ?_ ⟨rfl, by simp⟩ hrun).1
  rintro k s s' hk ⟨hbyte, hiter⟩ hround
  split at hround
  · simp at hround
  · next p hp =>
    obtain rfl := Option.some.inj hround
    have hlt := h.node_lt hk
    refine ⟨?_, by rw [hiter, hfits.strided.advance]⟩
    rw [hiter]
    exact (Memory.store_behind _ _ (by omega)).trans hbyte

/-- The closing store is the only one behind the array. -/
theorem build_list_behind (h : Room size stride) {draws : Draws} {fuel : Nat} {mem : Memory}
    {arr b : BitVec 64} {r : Memory × BitVec 64} (hb : size.toNat ≤ (b - arr).toNat)
    (hrun : build_list draws fuel mem arr size stride = some r) :
    r.1 b = mem.store (arr + size) arr b := by
  have hge := h.stride_ge
  have hfits := h.fits (build_list_some (by omega) h.index_fit hrun).2
  obtain ⟨nodes, rndarray, mem', iter, -, -, hlink, rfl⟩ := build_list_stages hrun
  obtain ⟨hbyte, hiter⟩ := link_nodes_behind h hfits hb hlink
  simp only at hbyte hiter
  simp only [hiter, Memory.store, hbyte]

theorem clear_bytes_behind {fuel : Nat} {mem mem' : Memory} {addr b : BitVec 64}
    (hb : size.toNat ≤ (b - addr).toNat) (hrun : clear_bytes fuel mem addr size = some mem') :
    mem' b = mem b := by
  have hone : (1 : BitVec 64).toNat = 1 := rfl
  refine (forStep_some (fun _ m => m b = mem b) (by decide) ?_ ?_ rfl hrun).1
  · simpa using size.isLt
  · intro k m m' hk hm hround
    obtain rfl := Option.some.inj hround
    rw [hone, rounds_one] at hk
    unfold Memory.storeByte
    rw [Function.update_of_ne, hm]
    rintro rfl
    have hoff : (addr + BitVec.ofNat 64 (k * (1 : BitVec 64).toNat) - addr).toNat = k := by
      have hlt := size.isLt
      rw [BitVec.add_comm, BitVec.add_sub_cancel, hone, Nat.mul_one, BitVec.toNat_ofNat]
      omega
    omega

/-! ### Either Setup Function -/

/-- `setup` or `pr_co_setup` has turned `g` into `g'`. -/
inductive SetUp (draws : Draws) (fuel : Nat) (addr size stride : BitVec 64) (g g' : Shared) :
    Prop where
  | setup : setup draws fuel addr size stride g = some g' →
      SetUp draws fuel addr size stride g g'
  | pr_co_setup : pr_co_setup draws fuel addr size stride g = some g' →
      SetUp draws fuel addr size stride g g'

/-- The shared data are a ring at `addr`, with `shared_iter` behind it. -/
structure RingAt (addr size stride : BitVec 64) (path : List Nat) (g : Shared) : Prop where
  data : g.shared_data = addr
  iter : g.shared_iter = node addr stride (nodeCount size stride)
  few : nodeCount size stride < 2 ^ 31
  ring : Ring g.mem addr size stride path

section
variable {draws : Draws} {fuel : Nat} {addr : BitVec 64} {g g' : Shared}

/-- Both functions build the list, over memory that agrees with the old one
    outside the array. -/
theorem SetUp.build (h : SetUp draws fuel addr size stride g g') :
    ∃ mem r, build_list draws fuel mem addr size stride = some r ∧
      (∀ b, size.toNat ≤ (b - addr).toNat → mem b = g.mem b) ∧
      g'.mem = r.1 ∧ g'.shared_iter = r.2 ∧ g'.shared_data = addr ∧
      g'.shared_data_size = g.shared_data_size := by
  rcases h with h | h
  · obtain ⟨r, hr, rfl⟩ := Option.map_eq_some_iff.mp h
    exact ⟨g.mem, r, hr, fun _ _ => rfl, rfl, rfl, rfl, rfl⟩
  · unfold Pcnt.pr_co_setup at h
    split at h
    · simp at h
    · next mem hclear =>
      obtain ⟨r, hr, rfl⟩ := Option.map_eq_some_iff.mp h
      exact ⟨mem, r, hr, fun b hb => clear_bytes_behind hb hclear, rfl, rfl, rfl, rfl⟩

theorem SetUp.data_size (h : SetUp draws fuel addr size stride g g') :
    g'.shared_data_size = g.shared_data_size := by
  obtain ⟨mem, r, -, -, -, -, -, hsize⟩ := h.build
  exact hsize

/-- **Outside the array** only the word behind it changes. -/
theorem SetUp.behind (h : SetUp draws fuel addr size stride g g') (hroom : Room size stride)
    {b : BitVec 64} (hb : size.toNat ≤ (b - addr).toNat) :
    g'.mem b = g.mem.store (addr + size) addr b := by
  obtain ⟨mem, r, hbuild, hmem, hmem', -⟩ := h.build
  rw [hmem', build_list_behind hroom hb hbuild]
  simp only [Memory.store, hmem b hb]

theorem SetUp.ringAt (h : SetUp draws fuel addr size stride g g') (hroom : Room size stride) :
    ∃ path, RingAt addr size stride path g' := by
  obtain ⟨mem, r, hbuild, -, hmem', hiter, hdata, -⟩ := h.build
  have hge := hroom.stride_ge
  obtain ⟨hfuel, hfew⟩ := build_list_some (by omega) hroom.index_fit hbuild
  obtain ⟨mem1, path, hspec, hring⟩ := build_list_spec draws (hroom.fits hfew) mem addr hfuel
  obtain rfl := Option.some.inj (hbuild.symm.trans hspec)
  exact ⟨path, hdata, hiter, hfew, hmem' ▸ hring⟩

/-! ### The Walk -/

/-- Where a walk from behind the last node is after `k` loads. -/
def stopAt (n : Nat) (path : List Nat) : Nat → Nat
  | 0 => n
  | k + 1 => path.getD (k % n) 0

variable {path : List Nat}

theorem RingAt.path_length (h : RingAt addr size stride path g) :
    path.length = nodeCount size stride := by
  rw [h.ring.perm.length_eq, List.length_range]

theorem RingAt.mem_path (h : RingAt addr size stride path g) {i : Nat} :
    i ∈ path ↔ i < nodeCount size stride := by
  rw [h.ring.perm.mem_iff, List.mem_range]

/-- After the first load the walk is on the nodes. -/
theorem RingAt.stopAt_succ_lt (h : RingAt addr size stride path g) (hroom : Room size stride)
    (k : Nat) : stopAt (nodeCount size stride) path (k + 1) < nodeCount size stride := by
  have hlt : k % nodeCount size stride < path.length := by
    rw [h.path_length]
    exact Nat.mod_lt _ hroom.count_pos
  rw [stopAt, List.getD_eq_getElem _ _ hlt, ← h.mem_path]
  exact List.getElem_mem hlt

theorem RingAt.stopAt_le (h : RingAt addr size stride path g) (hroom : Room size stride)
    (k : Nat) : stopAt (nodeCount size stride) path k ≤ nodeCount size stride := by
  cases k with
  | zero => exact le_rfl
  | succ k => exact (h.stopAt_succ_lt hroom k).le

/-- The walk comes to every node in the first round. -/
theorem RingAt.stopAt_onto (h : RingAt addr size stride path g) {i : Nat}
    (hi : i < nodeCount size stride) :
    ∃ k < nodeCount size stride, stopAt (nodeCount size stride) path (k + 1) = i := by
  obtain ⟨k, hk, rfl⟩ := List.getElem_of_mem (h.mem_path.mpr hi)
  have hkn : k < nodeCount size stride := h.path_length ▸ hk
  refine ⟨k, hkn, ?_⟩
  rw [stopAt, Nat.mod_eq_of_lt hkn, List.getD_eq_getElem _ _ hk]

/-- And to none of them twice. -/
theorem RingAt.stopAt_inj (h : RingAt addr size stride path g) {j k : Nat}
    (hj : j < nodeCount size stride) (hk : k < nodeCount size stride)
    (heq : stopAt (nodeCount size stride) path (j + 1) =
      stopAt (nodeCount size stride) path (k + 1)) : j = k := by
  have hnodup := h.ring.perm.nodup_iff.mpr List.nodup_range
  have hj' : j < path.length := h.path_length ▸ hj
  have hk' : k < path.length := h.path_length ▸ hk
  rw [stopAt, stopAt, Nat.mod_eq_of_lt hj, Nat.mod_eq_of_lt hk, List.getD_eq_getElem _ _ hj',
    List.getD_eq_getElem _ _ hk'] at heq
  exact hnodup.getElem_inj_iff.mp heq

/-- **The walk**: the pointers lead from `shared_iter` to the head, and then
    round all nodes. -/
theorem RingAt.iterate (h : RingAt addr size stride path g) (hroom : Room size stride) (k : Nat) :
    g.mem.load^[k] g.shared_iter =
      node addr stride (stopAt (nodeCount size stride) path k) := by
  cases k with
  | zero => exact h.iter
  | succ k =>
    have hlt : k % nodeCount size stride < path.length := by
      rw [h.path_length]
      exact Nat.mod_lt _ hroom.count_pos
    have hwalk := h.ring.circuit.iterate h.ring.start k
    rw [List.length_map, h.path_length, List.getElem?_map, List.getElem?_eq_getElem hlt] at hwalk
    rw [Function.iterate_succ_apply, h.iter, h.ring.behind, stopAt, List.getD_eq_getElem _ _ hlt]
    exact (Option.some.inj hwalk).symm

end

end

end Pcnt
