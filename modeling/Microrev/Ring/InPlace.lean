import Microrev.Ring.Sequential
import Microrev.Ring.Setup

/-! # The Ring in Place (`rd_latency.c`, `rd_latency.cpp`)

    Both read latency benchmarks link the nodes of an array in the order of
    their addresses, with a loop that stores one stride behind its index. The
    index that the loop leaves is the end of the array, so the pointer back to
    the head is stored to the last node: the ring has the nodes of the array
    and no other. The index is a `long long` in one file and an `int` in the
    other.
-/

namespace Pcnt

open Loop

/-! ### The Source Functions -/

/-- The linking loop, with an index of type `T`. -/
def link_in_place {Index : Type} (T : IndexType Index) (fuel : Nat) (heap : Memory.Heap)
    (arr size stride : BitVec 64) : Option Memory.Heap :=
  match forIndex T size stride (fun i (heap : Memory.Heap) =>
      some (heap.store (arr + (i - stride)) (arr + i))) fuel (T.ofWord stride) heap with
  | none => none
  -- *(char**)&arr[i - stride] = (char*)&arr[0]
  | some (i, heap) => some (heap.store (arr + (T.value i - stride)) arr)

namespace RdLatency

/-- The first loop of `init_stride`, with `int i`. -/
def link_arr (fuel : Nat) (heap : Memory.Heap) (arr size stride : BitVec 64) :
    Option Memory.Heap :=
  link_in_place .int fuel heap arr size stride

/-- `arr` is the global, `local_arr` what `malloc` returns. The loops that
    follow `local_iter` only load. -/
def init_stride (draws : Draws) (fuel : Nat) (mem : Memory)
    (arr local_arr size stride : BitVec 64) : Option (Memory × BitVec 64) :=
  match link_arr fuel ⟨mem, []⟩ arr size stride with
  | none => none
  | some heap =>
    match clear_bytes fuel heap.mem local_arr size with
    | none => none
    | some mem =>
      (set_shuffled_linked_list draws fuel mem local_arr size stride).map fun mem => (mem, arr)

end RdLatency

namespace Standalone

/-- `randomArray` is what `malloc` returns; the result is what `accessArray`
    gets to see. -/
def allocateRandomArray (fuel : Nat) (heap : Memory.Heap) (randomArray size : BitVec 64) :
    Option Memory.Heap :=
  let stride := 64
  link_in_place .longLong fuel heap randomArray size stride

end Standalone

/-! ### What They Are Meant to Do -/

/-- The nodes of the array in the order of their addresses, again and again. -/
structure InPlaceRing (mem : Memory) (arr size stride : BitVec 64) : Prop where
  reached : ∀ m, mem.load^[m] arr = arr + BitVec.ofNat 64 (m * stride.toNat % size.toNat)
  cycles : ∀ q, (List.range (size.toNat / stride.toNat)).map
      (fun k => mem.load^[q * (size.toNat / stride.toNat) + k] arr) =
    (List.range (size.toNat / stride.toNat)).map (node arr stride)
  ascending : ((List.range (size.toNat / stride.toNat)).map (node arr stride)).Pairwise
    fun a b => (a - arr).toNat < (b - arr).toNat

section
variable {size stride : BitVec 64}

/-- Where a node is in the array. -/
theorem Strided.node_offset (hs : Strided size stride) (arr : BitVec 64) {k : Nat}
    (hk : k ≤ nodeCount size stride) : (node arr stride k - arr).toNat = k * stride.toNat := by
  have hfit := hs.end_fit hk
  unfold node Memory.slot
  rw [BitVec.add_comm, BitVec.add_sub_cancel, BitVec.toNat_ofNat]
  omega

/-- A ring through the nodes in order is one in place. -/
theorem InPlaceRing.of_circuit {mem : Memory} {arr : BitVec 64} (hs : Strided size stride)
    (hsize : 0 < size.toNat) (hwhole : stride.toNat ∣ size.toNat)
    (h : Circuit mem.load ((List.range (nodeCount size stride)).map (node arr stride))) :
    InPlaceRing mem arr size stride := by
  have hpos : 0 < nodeCount size stride := rounds_pos hs.stride_pos hsize
  have hmul := nodeCount_mul hs.stride_pos hwhole
  have hhead : ((List.range (nodeCount size stride)).map (node arr stride))[0]? = some arr := by
    rw [List.getElem?_map, List.getElem?_range hpos]
    simp
  have hwalk : ∀ m, mem.load^[m] arr = node arr stride (m % nodeCount size stride) := by
    intro m
    have hat := h.iterate hhead m
    rw [List.length_map, List.length_range, List.getElem?_map,
      List.getElem?_range (Nat.mod_lt m hpos)] at hat
    exact (Option.some.inj hat).symm
  have hcount := nodeCount_eq_div hs.stride_pos hwhole
  constructor
  case reached =>
    intro m
    rw [hwalk m, ← hmul, Nat.mul_mod_mul_right]
    rfl
  case cycles =>
    intro q
    rw [← hcount]
    apply List.map_congr_left
    intro k hk
    rw [hwalk, Nat.mul_add_mod_of_lt (List.mem_range.mp hk)]
  case ascending =>
    rw [← hcount, List.pairwise_map]
    apply List.pairwise_lt_range.imp_of_mem
    intro j k hj hk hjk
    rw [List.mem_range] at hj hk
    rw [hs.node_offset arr hj.le, hs.node_offset arr hk.le]
    exact Nat.mul_lt_mul_of_pos_right hjk hs.stride_pos

/-! ### The Loop -/

/-- After `k` rounds. -/
structure LinkedInPlace (heap : Memory.Heap) (arr stride : BitVec 64) (k : Nat)
    (s : Memory.Heap) : Prop where
  chained : Chained arr stride k s.mem
  stored : s.stored = heap.stored ++ (List.range k).map (node arr stride)

/-- The loop stores one stride behind its index. -/
theorem index_behind (arr stride : BitVec 64) (k : Nat) :
    arr + (BitVec.ofNat 64 (stride.toNat + k * stride.toNat) - stride) = node arr stride k := by
  unfold node Memory.slot
  rw [BitVec.ofNat_add, BitVec.ofNat_toNat, BitVec.setWidth_eq, BitVec.add_comm stride,
    BitVec.add_sub_cancel]

theorem index_node (arr stride : BitVec 64) (k : Nat) :
    arr + BitVec.ofNat 64 (stride.toNat + k * stride.toNat) = node arr stride (k + 1) := by
  unfold node Memory.slot
  rw [Nat.add_comm, ← Nat.succ_mul]

/-- **What the loop leaves**, for every type of the index that can count to
    `size`: a ring through the nodes in order, which it has stored to. -/
theorem link_in_place_spec {Index : Type} {T : IndexType Index} {m : Nat} (hexact : T.Exact m)
    (hm : size.toNat ≤ m) (hs : Strided size stride) (hsize : 0 < size.toNat)
    (hwhole : stride.toNat ∣ size.toNat) (heap : Memory.Heap) (arr : BitVec 64) {fuel : Nat}
    (hfuel : nodeCount size stride ≤ fuel) :
    ∃ heap', link_in_place T fuel heap arr size stride = some heap' ∧
      Circuit heap'.mem.load ((List.range (nodeCount size stride)).map (node arr stride)) ∧
      heap'.stored = heap.stored ++
        (List.range (nodeCount size stride)).map (node arr stride) := by
  have hpos : 0 < nodeCount size stride := rounds_pos hs.stride_pos hsize
  have hmul := nodeCount_mul hs.stride_pos hwhole
  obtain ⟨n, hn⟩ := Nat.exists_eq_add_one_of_ne_zero hpos.ne'
  rw [hn, Nat.succ_mul] at hmul
  have hrounds : ∀ k ≤ n, stride.toNat + k * stride.toNat < size.toNat ↔ k < n := by
    intro k _
    rw [← hmul, Nat.add_comm, Nat.add_lt_add_iff_right, Nat.mul_lt_mul_right hs.stride_pos]
  have hfit : stride.toNat + n * stride.toNat ≤ m := by omega
  obtain ⟨heap1, hrun, hchain, hstored⟩ : ∃ s, forIndex T size stride
      (fun i (heap : Memory.Heap) => some (heap.store (arr + (i - stride)) (arr + i))) fuel
        (T.ofWord (BitVec.ofNat 64 stride.toNat)) heap =
        some (T.ofWord (BitVec.ofNat 64 (stride.toNat + n * stride.toNat)), s) ∧
      LinkedInPlace heap arr stride n s := by
    apply forIndex_spec hexact (LinkedInPlace heap arr stride) hm hfit hrounds _ (by omega)
    · exact ⟨.zero arr stride _, by simp⟩
    · intro k s hk hlink
      refine ⟨_, rfl, ?_, ?_⟩
      · rw [index_behind, index_node]
        exact hlink.chained.link hs (by omega)
      · simp only [Memory.Heap.store, index_behind, hlink.stored, stored_succ]
  rw [BitVec.ofNat_toNat, BitVec.setWidth_eq] at hrun
  -- the index is left at the end of the array, one stride behind it is the last node
  refine ⟨heap1.store (node arr stride n) arr, ?_, ?_, ?_⟩
  · unfold link_in_place
    rw [hrun]
    simp only [hexact.value_word hfit, index_behind]
  · rw [hn]
    exact (hchain.store hs le_rfl (by omega) arr).circuit hs (by omega)
      (Memory.load_store_same _ _ _)
  · simp only [Memory.Heap.store, hstored, hn, stored_succ]

/-- The nodes are inside the array. -/
theorem nodes_inside (hs : Strided size stride) (hwhole : stride.toNat ∣ size.toNat)
    (arr : BitVec 64) :
    StoresInside arr size ((List.range (nodeCount size stride)).map (node arr stride)) := by
  intro a ha
  obtain ⟨k, hk, rfl⟩ := List.mem_map.mp ha
  rw [List.mem_range] at hk
  have hge := hs.stride_ge
  have hmul := nodeCount_mul hs.stride_pos hwhole
  have hnext := Nat.mul_le_mul_right stride.toNat (Nat.succ_le_of_lt hk)
  rw [Nat.succ_mul] at hnext
  rw [hs.node_offset arr hk.le]
  omega

/-- So it stores inside the array, and the chase runs round the nodes. -/
theorem link_in_place_ring {Index : Type} {T : IndexType Index} {m : Nat} (hexact : T.Exact m)
    (hm : size.toNat ≤ m) (hs : Strided size stride) (hsize : 0 < size.toNat)
    (hwhole : stride.toNat ∣ size.toNat) (mem : Memory) (arr : BitVec 64) {fuel : Nat}
    (hfuel : size.toNat / stride.toNat ≤ fuel) :
    ∃ heap, link_in_place T fuel ⟨mem, []⟩ arr size stride = some heap ∧
      StoresInside arr size heap.stored ∧ InPlaceRing heap.mem arr size stride := by
  rw [← nodeCount_eq_div hs.stride_pos hwhole] at hfuel
  obtain ⟨heap, hrun, hcircuit, hstored⟩ :=
    link_in_place_spec hexact hm hs hsize hwhole ⟨mem, []⟩ arr hfuel
  refine ⟨heap, hrun, ?_, .of_circuit hs hsize hwhole hcircuit⟩
  rw [hstored, List.nil_append]
  exact nodes_inside hs hwhole arr

/-- **The ring in place**: both loops store inside the array only, and from
    the base the chase runs through its nodes in ascending order, for ever. -/
theorem in_place_ring (hsize : 0 < size.toNat) (hsmall : size.toNat < 2 ^ 31)
    (hstride : 0 < stride.toNat) (hdvd : stride.toNat % 8 = 0) (hwhole : stride.toNat ∣ size.toNat)
    (mem : Memory) (arr : BitVec 64) {fuel : Nat} (hfuel : size.toNat / stride.toNat ≤ fuel) :
    (∃ heap, RdLatency.link_arr fuel ⟨mem, []⟩ arr size stride = some heap ∧
      StoresInside arr size heap.stored ∧ InPlaceRing heap.mem arr size stride) ∧
    (stride = 64 →
      ∃ heap, Standalone.allocateRandomArray fuel ⟨mem, []⟩ arr size = some heap ∧
        StoresInside arr size heap.stored ∧ InPlaceRing heap.mem arr size stride) := by
  have hs := strided_of_dvd hstride hdvd hwhole
  constructor
  · exact link_in_place_ring IndexType.int_exact (by omega) hs hsize hwhole mem arr hfuel
  · rintro rfl
    exact link_in_place_ring IndexType.longLong_exact (by omega) hs hsize hwhole mem arr hfuel

/-- Two nodes of 64 bytes. -/
theorem in_place_ring_two_nodes :
    (∃ heap, RdLatency.link_arr 2 ⟨fun _ => 0, []⟩ 4096 128 64 = some heap ∧
      StoresInside 4096 128 heap.stored ∧ InPlaceRing heap.mem 4096 128 64) ∧
    ((64 : BitVec 64) = 64 →
      ∃ heap, Standalone.allocateRandomArray 2 ⟨fun _ => 0, []⟩ 4096 128 = some heap ∧
        StoresInside 4096 128 heap.stored ∧ InPlaceRing heap.mem 4096 128 64) :=
  in_place_ring (by decide) (by decide) (by decide) (by decide) (by decide) _ _ (by decide)

/-! ### The Rest of `init_stride` -/

namespace RdLatency

/-- **What `init_stride` returns**: the ring in place. The list that it builds
    in `local_arr` spills into the word behind; wherever `malloc` has put the
    array, that must not be in `arr`. -/
theorem init_stride_ring (draws : Draws) (hroom : Room size stride) (hsmall : size.toNat < 2 ^ 31)
    (mem : Memory) (arr local_arr : BitVec 64)
    (hapart : ∀ b : BitVec 64, (b - arr).toNat < size.toNat →
      size.toNat + 8 ≤ (b - local_arr).toNat) {fuel : Nat} (hfuel : size.toNat < fuel) :
    ∃ mem', init_stride draws fuel mem arr local_arr size stride = some (mem', arr) ∧
      InPlaceRing mem' arr size stride := by
  have hs := strided_of_dvd hroom.stride_pos hroom.stride_dvd hroom.whole
  have hcount : nodeCount size stride ≤ size.toNat := by
    rw [hroom.count_eq]
    exact Nat.div_le_self _ _
  obtain ⟨heap, hlink, hcircuit, -⟩ := link_in_place_spec IndexType.int_exact
    (show size.toNat ≤ 2 ^ 31 - 1 by omega) hs hroom.size_pos hroom.whole ⟨mem, []⟩ arr
    (show nodeCount size stride ≤ fuel by omega)
  obtain ⟨mem1, hclear⟩ := clear_bytes_spec heap.mem local_arr hfuel
  obtain ⟨mem2, path, hbuild, -⟩ := build_list_spec draws (hroom.fits (by omega)) mem1 local_arr
    (show nodeCount size stride < fuel by omega)
  refine ⟨mem2, ?_, ?_⟩
  · unfold init_stride link_arr set_shuffled_linked_list
    rw [hlink]
    simp only [hclear, hbuild, Option.map_some]
  · -- no byte of the array changes
    have hbyte : ∀ b : BitVec 64, (b - arr).toNat < size.toNat → mem2 b = heap.mem b := by
      intro b hb
      have hout := hapart b hb
      have hstore := Memory.store_behind mem1 local_arr hout
      rw [BitVec.ofNat_toNat, BitVec.setWidth_eq] at hstore
      have hbehind : size.toNat ≤ (b - local_arr).toNat := by omega
      exact ((build_list_behind hroom hbehind hbuild).trans hstore).trans
        (clear_bytes_behind hbehind hclear)
    refine .of_circuit hs hroom.size_pos hroom.whole (hcircuit.congr ?_)
    intro a ha
    have hinside := nodes_inside hs hroom.whole arr a ha
    apply Memory.load_congr
    intro k hk
    apply hbyte
    have ha := a.isLt
    have harr := arr.isLt
    simp only [BitVec.toNat_sub, BitVec.toNat_add, BitVec.toNat_ofNat] at hinside ⊢
    omega

end RdLatency

end

end Pcnt
