import Microrev.Ring.LinkedList

/-! # The Sequential Ring (`cacheline.cpp`)

    `init_stride` of the cacheline benchmark links the nodes of an array in
    the order of their addresses. Its loop makes the last node point to the
    end of the array, and the pointer back to the head is stored there, in
    the word behind the allocated bytes. So the ring has one node more than
    the array, and this node is the one that is returned.
-/

namespace Pcnt

open Loop

section
variable {size stride : BitVec 64}

/-! ### Chains -/

/-- The first `k` nodes point to the next one each. -/
def Chained (arr stride : BitVec 64) (k : Nat) (mem : Memory) : Prop :=
  ∀ j < k, mem.load (node arr stride j) = node arr stride (j + 1)

theorem Chained.zero (arr stride : BitVec 64) (mem : Memory) : Chained arr stride 0 mem :=
  fun j hj => absurd hj (Nat.not_lt_zero j)

/-- A store to a later node, or behind the last one, keeps the chain. -/
theorem Chained.store {arr : BitVec 64} {k p : Nat} {mem : Memory} (h : Chained arr stride k mem)
    (hs : Strided size stride) (hkp : k ≤ p) (hp : p ≤ nodeCount size stride) (v : BitVec 64) :
    Chained arr stride k (mem.store (node arr stride p) v) := by
  intro j hj
  rw [Memory.load_store_apart _ _ (hs.apart arr (by omega) hp (by omega))]
  exact h j hj

/-- Link the next node. -/
theorem Chained.link {arr : BitVec 64} {k : Nat} {mem : Memory} (h : Chained arr stride k mem)
    (hs : Strided size stride) (hk : k ≤ nodeCount size stride) :
    Chained arr stride (k + 1) (mem.store (node arr stride k) (node arr stride (k + 1))) := by
  intro j hj
  rcases Nat.lt_succ_iff_lt_or_eq.mp hj with hlt | rfl
  · exact h.store hs le_rfl hk _ j hlt
  · exact Memory.load_store_same _ _ _

/-- Stores to the nodes in order. -/
theorem stored_succ (old : List (BitVec 64)) (arr stride : BitVec 64) (k : Nat) :
    old ++ (List.range k).map (node arr stride) ++ [node arr stride k] =
      old ++ (List.range (k + 1)).map (node arr stride) := by
  rw [List.range_succ, List.map_append, List.append_assoc, List.map_singleton]

/-- A chain with a pointer back to the head is a ring. -/
theorem Chained.circuit {arr : BitVec 64} {m : Nat} {mem : Memory} (h : Chained arr stride m mem)
    (hs : Strided size stride) (hm : m ≤ nodeCount size stride)
    (hback : mem.load (node arr stride m) = arr) :
    Circuit mem.load ((List.range (m + 1)).map (node arr stride)) := by
  apply Circuit.of_row
  · intro j k hj hk heq
    exact hs.node_injective arr (hj.trans hm) (hk.trans hm) heq
  · exact h
  · simpa using hback

/-! ### Sizes that are Multiples of the Stride -/

theorem strided_of_dvd (hstride : 0 < stride.toNat) (hdvd : stride.toNat % 8 = 0)
    (hwhole : stride.toNat ∣ size.toNat) : Strided size stride := by
  have h8 : 8 ∣ size.toNat := Nat.dvd_trans (Nat.dvd_of_mod_eq_zero hdvd) hwhole
  have hlt := size.isLt
  have hmul := nodeCount_mul hstride hwhole
  exact ⟨hstride, hdvd, by omega⟩

/-! ### The Source Function -/

namespace Cacheline

/-- `addr` is what `malloc` returns; the result is `iter`. -/
def init_stride (fuel : Nat) (heap : Memory.Heap) (addr size stride : BitVec 64) :
    Option (Memory.Heap × BitVec 64) :=
  match forStep size stride (fun i s =>
      some (s.1.store s.2 (addr + (i + stride)), s.2 + 8 * (stride / 8))) fuel 0 (heap, addr) with
  | none => none
  -- *iter = (char*)head
  | some (heap, iter) => some (heap.store iter addr, iter)

/-- After `k` rounds. -/
structure Linking (heap : Memory.Heap) (addr stride : BitVec 64) (k : Nat)
    (s : Memory.Heap × BitVec 64) : Prop where
  iter : s.2 = node addr stride k
  chained : Chained addr stride k s.1.mem
  stored : s.1.stored = heap.stored ++ (List.range k).map (node addr stride)

/-- **What `init_stride` leaves**: a ring through all nodes and the word behind
    the last one, all of which it has stored to. -/
theorem init_stride_spec (hs : Strided size stride) (heap : Memory.Heap) (addr : BitVec 64)
    {fuel : Nat} (hfuel : nodeCount size stride < fuel) :
    ∃ heap', init_stride fuel heap addr size stride =
        some (heap', node addr stride (nodeCount size stride)) ∧
      Circuit heap'.mem.load
        ((List.range (nodeCount size stride + 1)).map (node addr stride)) ∧
      heap'.stored = heap.stored ++
        (List.range (nodeCount size stride + 1)).map (node addr stride) := by
  have hloop : ∃ s, forStep size stride (fun i (s : Memory.Heap × BitVec 64) =>
      some (s.1.store s.2 (addr + (i + stride)), s.2 + 8 * (stride / 8))) fuel 0 (heap, addr) =
        some s ∧ Linking heap addr stride (nodeCount size stride) s := by
    apply forStep_spec (Linking heap addr stride) hs.stride_pos hs.index_fit _ hfuel
    · exact ⟨by simp, .zero addr stride _, by simp⟩
    · intro k s hk hlink
      have hnext : addr + (BitVec.ofNat 64 (k * stride.toNat) + stride) =
          node addr stride (k + 1) := by
        rw [index_succ]
        rfl
      refine ⟨_, rfl, by rw [hlink.iter, hs.advance], ?_, ?_⟩
      · rw [hnext, hlink.iter]
        exact hlink.chained.link hs (Nat.le_of_lt hk)
      · simp only [Memory.Heap.store, hlink.stored, hlink.iter, stored_succ]
  obtain ⟨⟨heap1, iter⟩, hrun, hiter, hchain, hstored⟩ := hloop
  simp only at hiter hchain hstored
  subst hiter
  refine ⟨heap1.store (node addr stride (nodeCount size stride)) addr, ?_, ?_, ?_⟩
  · unfold init_stride
    rw [hrun]
  · exact (hchain.store hs le_rfl le_rfl addr).circuit hs le_rfl (Memory.load_store_same _ _ _)
  · simp only [Memory.Heap.store, hstored, stored_succ]

end Cacheline

/-! ### What It Is Meant to Be -/

/-- All stores are to words inside the `size` bytes at `addr`. -/
def StoresInside (addr size : BitVec 64) (stored : List (BitVec 64)) : Prop :=
  ∀ a ∈ stored, (a - addr).toNat + 8 ≤ size.toNat

/-- From `p` the chase visits `size / stride` different nodes, all of the
    array, and is back. -/
structure ChaseVisits (mem : Memory) (addr size stride p : BitVec 64) : Prop where
  distinct : ((List.range (size.toNat / stride.toNat)).map fun k => mem.load^[k] p).Nodup
  nodes : ∀ k < size.toNat / stride.toNat, ∃ j < size.toNat / stride.toNat,
    mem.load^[k] p = node addr stride j
  returns : mem.load^[size.toNat / stride.toNat] p = p

/-- The word behind the array is not inside. -/
theorem node_end_outside (hstride : 0 < stride.toNat) (hwhole : stride.toNat ∣ size.toNat)
    (addr : BitVec 64) :
    ((node addr stride (nodeCount size stride)) - addr).toNat = size.toNat := by
  rw [node_end hstride hwhole, BitVec.add_comm, BitVec.add_sub_cancel]

namespace Cacheline

/-- **One node too many**: for no stride and size does `init_stride` stay
    inside its array, and for none does the chase from the pointer that it
    returns run round the nodes of the array. -/
theorem predictable_ring_never (hsize : 0 < size.toNat) (hstride : 0 < stride.toNat)
    (hdvd : stride.toNat % 8 = 0) (hwhole : stride.toNat ∣ size.toNat) (mem : Memory)
    (addr : BitVec 64) {fuel : Nat} (hfuel : size.toNat / stride.toNat < fuel) :
    ∃ heap p, init_stride fuel ⟨mem, []⟩ addr size stride = some (heap, p) ∧
      ¬ StoresInside addr size heap.stored ∧ ¬ ChaseVisits heap.mem addr size stride p := by
  have hs := strided_of_dvd hstride hdvd hwhole
  have hcount := nodeCount_eq_div hstride hwhole
  have hpos : 0 < nodeCount size stride := rounds_pos hstride hsize
  rw [← hcount] at hfuel
  obtain ⟨heap, hrun, -, hstored⟩ := init_stride_spec hs ⟨mem, []⟩ addr hfuel
  refine ⟨heap, _, hrun, ?_, ?_⟩
  · intro hinside
    have hmem : node addr stride (nodeCount size stride) ∈ heap.stored := by
      rw [hstored, List.nil_append]
      exact List.mem_map_of_mem (List.mem_range.mpr (Nat.lt_succ_self _))
    have hle := hinside _ hmem
    rw [node_end_outside hstride hwhole] at hle
    omega
  · intro hvisits
    -- the chase starts behind the array
    obtain ⟨j, hj, heq⟩ := hvisits.nodes 0 (hcount ▸ hpos)
    rw [← hcount] at hj
    have hsame := hs.node_injective addr le_rfl hj.le heq
    omega

/-- **The ring there is**: from the returned pointer the chase visits the head,
    the other nodes in order, and is back after one step more. -/
theorem chase_from_iter (hs : Strided size stride) (heap : Memory.Heap) (addr : BitVec 64)
    {fuel : Nat} (hfuel : nodeCount size stride < fuel) :
    ∃ heap' p, init_stride fuel heap addr size stride = some (heap', p) ∧
      ∀ k, heap'.mem.load^[k + 1] p = node addr stride (k % (nodeCount size stride + 1)) := by
  obtain ⟨heap', hrun, hcircuit, -⟩ := init_stride_spec hs heap addr hfuel
  refine ⟨heap', _, hrun, ?_⟩
  intro k
  have hhead : ((List.range (nodeCount size stride + 1)).map (node addr stride))[0]? =
      some addr := by simp
  have hlast := hcircuit.step (nodeCount size stride) (by simp)
  have hlen : ((List.range (nodeCount size stride + 1)).map (node addr stride)).length =
      nodeCount size stride + 1 := by simp
  have hat := hcircuit.iterate hhead k
  rw [hlen, Nat.mod_self, hhead] at hlast
  rw [hlen, List.getElem?_map, List.getElem?_range (Nat.mod_lt _ (Nat.succ_pos _))] at hat
  rw [List.getElem?_map, List.getElem?_range (Nat.lt_succ_self _)] at hlast
  rw [Function.iterate_succ_apply, ← Option.some.inj hlast]
  exact (Option.some.inj hat).symm

/-- Four nodes of 64 bytes. -/
theorem predictable_ring_never_four_nodes :
    ∃ heap p, init_stride 5 ⟨fun _ => 0, []⟩ 4096 256 64 = some (heap, p) ∧
      ¬ StoresInside 4096 256 heap.stored ∧ ¬ ChaseVisits heap.mem 4096 256 64 p :=
  predictable_ring_never (by decide) (by decide) (by decide) (by decide) _ _ (by decide)

/-- The benchmark itself runs with 32 KiB and a stride of 64. -/
theorem test64_stores_outside :
    ¬ ∃ heap p, init_stride 513 ⟨fun _ => 0, []⟩ 4096 32768 64 = some (heap, p) ∧
      StoresInside 4096 32768 heap.stored ∧ ChaseVisits heap.mem 4096 32768 64 p := by
  rintro ⟨heap, p, hrun, hinside, -⟩
  have hs : Strided 32768 64 := strided_of_dvd (by decide) (by decide) (by decide)
  obtain ⟨heap', hrun', -, hstored⟩ := init_stride_spec hs ⟨fun _ => 0, []⟩ 4096
    (show nodeCount 32768 64 < 513 by decide)
  obtain ⟨rfl, -⟩ := Prod.mk.inj (Option.some.inj (hrun.symm.trans hrun'))
  have hle := hinside (node 4096 64 512) (by
    rw [hstored, List.nil_append]
    exact List.mem_map_of_mem (List.mem_range.mpr (by decide)))
  exact absurd hle (by decide)

end Cacheline

end

end Pcnt
