import Mathlib.Tactic.IntervalCases
import Microrev.Ring.LinkedList

/-! # Strides That Are No Multiple of a Word (`b_latency.cpp`)

    The latency test builds its list with a stride of `size / 1024` bytes.
    The addresses that are stored are a stride apart, but `shared_iter` moves
    by whole words, so the places that they are stored to are not, unless the
    stride is a multiple of eight. Otherwise the chase loads from between two
    pointers, or, with a stride of less than a word, stays at the head.
-/

namespace Pcnt

open Loop

section
variable {size stride : BitVec 64}

/-! ### The First Candidate Every Time -/

/-- What the list-building code leaves if the nodes are not shuffled. -/
theorem build_list_first (hge : 8 ≤ stride.toNat)
    (hfit : nodeCount size stride * stride.toNat < 2 ^ 64) (hsize : 0 < size.toNat)
    {mem : Memory} {arr : BitVec 64} {fuel : Nat} {r : Memory × BitVec 64}
    (hrun : build_list (fun _ _ => 0) fuel mem arr size stride = some r) :
    (∀ j, j + 1 < nodeCount size stride →
      r.1.load (node arr (8 * (stride / 8)) j) = node arr stride (j + 1)) ∧
    ∀ a, (∀ j ≤ nodeCount size stride, Memory.Apart (node arr (8 * (stride / 8)) j) a) →
      r.1.load a = mem.load a := by
  have hstride : 0 < stride.toNat := by omega
  have hpos : 0 < nodeCount size stride := rounds_pos hstride hsize
  obtain ⟨hfuel, hfew⟩ := build_list_some hstride hfit hrun
  obtain ⟨nodes, rndarray, mem1, iter, hpush, hshuffle, hlink, rfl⟩ := build_list_stages hrun
  obtain rfl := Option.some.inj ((push_nodes_eq hstride hfit arr hfuel).symm.trans hpush)
  have hlen : ((List.range (nodeCount size stride)).map (node arr stride)).length =
      nodeCount size stride := by simp
  rw [shuffle_array_first (by rw [hlen]; exact hpos) (by rw [hlen]; exact hfew)] at hshuffle
  obtain rfl := Option.some.inj hshuffle
  obtain ⟨s, hspec, ⟨hiter, hlinked⟩, hframe⟩ := link_nodes_pitch hge hfit arr mem
    ((List.length_rotate _ 1).trans hlen) hfuel
  obtain rfl := Option.some.inj (hlink.symm.trans hspec)
  simp only at hiter hlinked hframe ⊢
  subst hiter
  constructor
  · intro j hj
    rw [Memory.load_store_apart _ _ (pitch_apart hge hfit arr (by omega) le_rfl).symm]
    have hval := hlinked j (by omega)
    rw [List.getElem?_rotate (by rw [hlen]; omega), hlen, Nat.mod_eq_of_lt hj,
      List.getElem?_map, List.getElem?_range hj] at hval
    exact (Option.some.inj hval).symm
  · intro a ha
    rw [Memory.load_store_apart _ _ (ha _ le_rfl)]
    exact hframe a fun j hj => ha j hj.le

/-- A pointer that never leaves the head. -/
theorem build_list_short (hstride : 0 < stride.toNat) (hlt : stride.toNat < 8)
    (hfit : nodeCount size stride * stride.toNat < 2 ^ 64) {draws : Draws} {mem : Memory}
    {arr : BitVec 64} {fuel : Nat} {r : Memory × BitVec 64}
    (hrun : build_list draws fuel mem arr size stride = some r) : r.1.load arr = arr := by
  have hpitch : 8 * (stride / 8) = 0 := by
    apply BitVec.eq_of_toNat_eq
    rw [pitch_toNat, Nat.div_eq_of_lt hlt]
    rfl
  obtain ⟨nodes, rndarray, mem1, iter, -, -, hlink, rfl⟩ := build_list_stages hrun
  have hiter : iter = arr := by
    refine (forStep_some (fun _ s => s.2 = arr) hstride hfit ?_ rfl hlink).1
    intro k s s' _ hs hround
    split at hround
    · simp at hround
    · obtain rfl := Option.some.inj hround
      simp only [hs, hpitch]
      exact BitVec.add_zero arr
  rw [hiter]
  exact Memory.load_store_same _ _ _

/-! ### Between Two Pointers -/

/-- The second load is from `stride % 8` bytes behind the second pointer. -/
theorem load_between {m : Memory} {arr : BitVec 64}
    (h : m.load (node arr (8 * (stride / 8)) 1) = node arr stride 2) :
    m.load (node arr stride 1) = node arr stride 2 >>> (8 * (stride.toNat % 8)) |||
      m.load (node arr (8 * (stride / 8)) 1 + 8) <<< (64 - 8 * (stride.toNat % 8)) := by
  have hnode : node arr stride 1 =
      node arr (8 * (stride / 8)) 1 + BitVec.ofNat 64 (stride.toNat % 8) := by
    unfold node Memory.slot
    rw [Nat.one_mul, Nat.one_mul, pitch_toNat, BitVec.add_assoc, ← BitVec.ofNat_add,
      Nat.div_add_mod]
  rw [hnode, Memory.load_unaligned _ _ (Nat.mod_lt _ (by omega)), h]

/-- With a pitch of two words or more, the word behind the second pointer is
    not written. -/
theorem behind_second (hge : 16 ≤ stride.toNat)
    (hfit : nodeCount size stride * stride.toNat < 2 ^ 64) (hmany : 2 ≤ nodeCount size stride)
    (arr : BitVec 64) {j : Nat} (hj : j ≤ nodeCount size stride) :
    Memory.Apart (node arr (8 * (stride / 8)) j) (node arr (8 * (stride / 8)) 1 + 8) := by
  have hpitch := pitch_toNat stride
  have hadd : node arr (8 * (stride / 8)) 1 + 8 =
      arr + BitVec.ofNat 64 (1 * (8 * (stride / 8)).toNat + 8) := by
    unfold node Memory.slot
    rw [BitVec.ofNat_add, BitVec.add_assoc]
    rfl
  have htwo := pitch_fit hfit hmany
  have hend := pitch_fit hfit hj
  rw [hadd]
  rcases Nat.lt_or_ge 1 j with hlt | hle
  · have hskip : 2 * (8 * (stride / 8)).toNat ≤ j * (8 * (stride / 8)).toNat :=
      Nat.mul_le_mul_right _ hlt
    exact (Memory.offset_apart (by omega) hend).symm
  · have hskip : j * (8 * (stride / 8)).toNat ≤ 1 * (8 * (stride / 8)).toNat :=
      Nat.mul_le_mul_right _ hle
    exact Memory.offset_apart (by omega) (by omega)

end

/-! ### The Source Function -/

namespace BLatency

/-- `arr[i] = 0` for every byte, with an index of type `int`. -/
def clear_array (fuel : Nat) (mem : Memory) (arr size : BitVec 64) : Option Memory :=
  (forIndex .intStep size 1 (fun i mem => some (mem.storeByte (arr + i) 0)) fuel
    (IndexType.intStep.ofWord 0) mem).map Prod.snd

/-- `arr` is what `malloc` returns. -/
def init_stride (draws : Draws) (fuel : Nat) (mem : Memory) (arr size : BitVec 64) :
    Option (Memory × BitVec 64) :=
  match clear_array fuel mem arr size with
  | none => none
  | some mem =>
    let ratio := 1024
    let stride := size / ratio
    (set_shuffled_linked_list draws fuel mem arr size stride).map fun mem => (mem, arr)

/-- Up to `2 ^ 31 - 1` bytes the type of the index does not matter. -/
theorem clear_array_eq {size : BitVec 64} (hint : size.toNat < 2 ^ 31) (fuel : Nat) (mem : Memory)
    (arr : BitVec 64) : clear_array fuel mem arr size = clear_bytes fuel mem arr size :=
  IndexType.intStep_exact.forIndex_one (by omega) _ fuel (Nat.zero_le _) mem

/-- More bytes than an `int` can count are never cleared. -/
theorem clear_array_some {size : BitVec 64} {fuel : Nat} {mem mem' : Memory} {arr : BitVec 64}
    (hrun : clear_array fuel mem arr size = some mem') :
    size.toNat < 2 ^ 31 ∧ clear_bytes fuel mem arr size = some mem' := by
  rcases Nat.lt_or_ge size.toNat (2 ^ 31) with hint | hlarge
  · exact ⟨hint, clear_array_eq hint fuel mem arr ▸ hrun⟩
  · rw [clear_array, forIndex_intStep_none hlarge _ fuel (by decide)] at hrun
    contradiction

/-- The first `n` loads from `p` on are from different nodes of the array. -/
structure VisitsNodes (n : Nat) (mem : Memory) (arr size stride p : BitVec 64) : Prop where
  distinct : ((List.range n).map fun k => mem.load^[k] p).Nodup
  nodes : ∀ k < n, ∃ j, j * stride.toNat < size.toNat ∧ mem.load^[k] p = node arr stride j

/-- `init_stride` returns, and the chase covers 1024 nodes, whatever is drawn
    and wherever the array is. -/
def CoversArray (size : BitVec 64) : Prop :=
  ∀ draws mem arr, ∃ fuel mem' p, init_stride draws fuel mem arr size = some (mem', p) ∧
    VisitsNodes 1024 mem' arr size (size / 1024) p

section
variable {size : BitVec 64}

theorem stride_toNat (size : BitVec 64) : (size / 1024).toNat = size.toNat / 1024 :=
  BitVec.toNat_udiv

/-- There are at least 1024 nodes, and few enough to be shuffled. -/
theorem nodeCount_bounds (hsize : 1024 ≤ size.toNat) (hint : size.toNat < 2 ^ 31) :
    1024 ≤ nodeCount size (size / 1024) ∧ nodeCount size (size / 1024) < 2 ^ 31 ∧
      nodeCount size (size / 1024) * (size / 1024).toNat < 2 ^ 32 := by
  have hstride := stride_toNat size
  have hpos : 0 < (size / 1024).toNat := by omega
  have hend : nodeCount size (size / 1024) * (size / 1024).toNat < size.toNat +
      (size / 1024).toNat := rounds_mul_lt hpos (by omega)
  refine ⟨?_, ?_, by omega⟩
  · have hlast : 1023 < nodeCount size (size / 1024) := by
      rw [nodeCount, lt_rounds_iff hpos]
      omega
    exact hlast
  · have hle : ¬ size.toNat < nodeCount size (size / 1024) := by
      rw [nodeCount, lt_rounds_iff hpos, Nat.not_lt]
      exact Nat.le_mul_of_pos_right _ hpos
    omega

theorem init_stride_some {draws : Draws} {fuel : Nat} {arr p : BitVec 64} {mem mem' : Memory}
    (hrun : init_stride draws fuel mem arr size = some (mem', p)) :
    size.toNat < 2 ^ 31 ∧ p = arr ∧ ∃ mem1 iter, clear_bytes fuel mem arr size = some mem1 ∧
      build_list draws fuel mem1 arr size (size / 1024) = some (mem', iter) := by
  unfold init_stride at hrun
  split at hrun
  · simp at hrun
  · next mem1 hclear =>
    unfold set_shuffled_linked_list at hrun
    rw [Option.map_map] at hrun
    obtain ⟨⟨mem2, iter⟩, hbuild, heq⟩ := Option.map_eq_some_iff.mp hrun
    obtain ⟨rfl, rfl⟩ := Prod.mk.inj heq
    obtain ⟨hint, hclear⟩ := clear_array_some hclear
    exact ⟨hint, rfl, mem1, iter, hclear, hbuild⟩

/-- Clearing memory that is clear. -/
theorem clear_bytes_zero {fuel : Nat} {addr : BitVec 64} {mem : Memory}
    (hrun : clear_bytes fuel (fun _ => 0) addr size = some mem) : mem = fun _ => 0 := by
  refine (forStep_some (fun _ m => m = fun _ => 0) (by decide) ?_ ?_ rfl hrun).1
  · simpa using size.isLt
  · intro k m m' _ hm hround
    obtain rfl := Option.some.inj hround
    rw [hm, Memory.storeByte]
    exact Function.update_eq_self _ _

/-- **Whole words**: the ring is as wide as the array. -/
theorem covers_of_words (hsize : 1024 ≤ size.toNat) (hdvd : (size / 1024).toNat % 8 = 0)
    (hint : size.toNat < 2 ^ 31) : CoversArray size := by
  intro draws mem arr
  obtain ⟨hge, hfew, hfit⟩ := nodeCount_bounds hsize hint
  have hstride := stride_toNat size
  have hfits : Fits size (size / 1024) := ⟨by omega, by omega, hdvd, by omega, hfew⟩
  have hle : ¬ size.toNat < nodeCount size (size / 1024) := by
    rw [nodeCount, lt_rounds_iff hfits.stride_pos, Nat.not_lt]
    exact Nat.le_mul_of_pos_right _ hfits.stride_pos
  obtain ⟨mem1, hclear⟩ := clear_bytes_spec mem arr (Nat.lt_succ_self size.toNat)
  obtain ⟨mem2, path, hbuild, hring⟩ := build_list_spec draws hfits mem1 arr
    (show nodeCount size (size / 1024) < size.toNat + 1 by omega)
  have hchase := hring.chaseOk
  refine ⟨size.toNat + 1, mem2, arr, ?_, ?_, ?_⟩
  · unfold init_stride set_shuffled_linked_list
    rw [clear_array_eq hint, hclear]
    simp only [hbuild, Option.map_some]
  · have hall := hchase.visits.nodup_iff.mpr hchase.distinct
    exact hall.sublist ((List.range_sublist.mpr hge).map _)
  · intro k _
    obtain ⟨j, hj, heq⟩ := List.mem_map.mp (hchase.stays k)
    rw [List.mem_range, nodeCount, lt_rounds_iff hfits.stride_pos] at hj
    exact ⟨j, hj, heq.symm⟩

/-- The chase is at different addresses in different steps. -/
theorem VisitsNodes.ne {n : Nat} {mem : Memory} {arr stride p : BitVec 64}
    (h : VisitsNodes n mem arr size stride p) {j k : Nat} (hj : j < n) (hk : k < n)
    (hjk : j ≠ k) : mem.load^[j] p ≠ mem.load^[k] p := by
  intro heq
  exact hjk (List.inj_on_of_nodup_map h.distinct (List.mem_range.mpr hj)
    (List.mem_range.mpr hk) heq)

/-- With less than a word the chase does not leave the head. -/
theorem short_stride_fails (hsize : 1024 ≤ size.toNat) (hshort : size.toNat < 8192) :
    ¬ CoversArray size := by
  intro hcovers
  obtain ⟨fuel, mem, p, hrun, hvisits⟩ := hcovers (fun _ _ => 0) (fun _ => 0) 4096
  obtain ⟨hint, rfl, mem1, iter, -, hbuild⟩ := init_stride_some hrun
  obtain ⟨-, -, hfit⟩ := nodeCount_bounds hsize hint
  have hstride := stride_toNat size
  have hload := build_list_short (by omega) (by omega) (by omega) hbuild
  exact hvisits.ne (j := 1) (k := 0) (by omega) (by omega) (by omega) hload

/-- Nodes of an array at 4096. -/
theorem node_toNat {stride : BitVec 64} {j : Nat} (hint : size.toNat < 2 ^ 31)
    (hj : j * stride.toNat < size.toNat) :
    (node 4096 stride j).toNat = 4096 + j * stride.toNat := by
  unfold node Memory.slot
  rw [BitVec.toNat_add, BitVec.toNat_ofNat, show (4096 : BitVec 64).toNat = 4096 from rfl]
  omega

/-- The third address of the chase, if the nodes are not shuffled: what is
    loaded from between the second pointer and the word behind it. -/
theorem third_address (hsize : 8192 ≤ size.toNat) (hint : size.toNat < 2 ^ 31) {fuel : Nat}
    {r : Memory × BitVec 64}
    (hbuild : build_list (fun _ _ => 0) fuel (fun _ => 0) 4096 size (size / 1024) = some r) :
    r.1.load^[2] 4096 =
      node 4096 (size / 1024) 2 >>> (8 * ((size / 1024).toNat % 8)) |||
        (if (size / 1024).toNat < 16 then node 4096 (size / 1024) 3 else 0#64) <<<
          (64 - 8 * ((size / 1024).toNat % 8)) := by
  have hstride := stride_toNat size
  have hge : 8 ≤ (size / 1024).toNat := by omega
  obtain ⟨hmany, -, hfit⟩ := nodeCount_bounds (by omega) hint
  obtain ⟨hnext, hframe⟩ := build_list_first hge (by omega) (by omega) hbuild
  have hfirst : r.1.load 4096 = node 4096 (size / 1024) 1 := by
    simpa using hnext 0 (by omega)
  have hbehind : r.1.load (node 4096 (8 * (size / 1024 / 8)) 1 + 8) =
      if (size / 1024).toNat < 16 then node 4096 (size / 1024) 3 else 0#64 := by
    split
    · -- the word behind the second pointer is the third one
      have hword : (8 : BitVec 64) = 8 * (size / 1024 / 8) := by
        apply BitVec.eq_of_toNat_eq
        rw [pitch_toNat, show (8 : BitVec 64).toNat = 8 from rfl]
        omega
      rw [← hnext 2 (by omega), ← node_succ _ _ 1, ← hword]
    · rw [hframe _ fun j hj => behind_second (by omega) (by omega) (by omega) _ hj]
      exact Memory.load_clear _
  rw [← hbehind, ← load_between (hnext 1 (by omega)), ← hfirst]
  rfl

/-- With a pitch of one word it is behind the array. -/
theorem third_address_far {s : Nat} (hge : 9 ≤ s) (hle : s ≤ 15) :
    4096 + 16384 ≤ (node 4096 (BitVec.ofNat 64 s) 2 >>> (8 * (s % 8)) |||
      node 4096 (BitVec.ofNat 64 s) 3 <<< (64 - 8 * (s % 8))).toNat := by
  interval_cases s <;> decide

/-- With a wider pitch it is below the second node. -/
theorem third_address_low (hsize : 16384 ≤ size.toNat) (hint : size.toNat < 2 ^ 31)
    (hodd : (size / 1024).toNat % 8 ≠ 0) :
    (node 4096 (size / 1024) 2 >>> (8 * ((size / 1024).toNat % 8))).toNat <
      4096 + (size / 1024).toNat := by
  have hstride := stride_toNat size
  have hsecond : (node 4096 (size / 1024) 2).toNat = 4096 + 2 * (size / 1024).toNat :=
    node_toNat hint (by omega)
  have hshift : 2 ^ 8 ≤ 2 ^ (8 * ((size / 1024).toNat % 8)) :=
    Nat.pow_le_pow_right (by omega) (by omega)
  rw [BitVec.toNat_ushiftRight, Nat.shiftRight_eq_div_pow, hsecond]
  calc (4096 + 2 * (size / 1024).toNat) / 2 ^ (8 * ((size / 1024).toNat % 8))
      ≤ (4096 + 2 * (size / 1024).toNat) / 2 ^ 8 := Nat.div_le_div_left hshift (by omega)
    _ < 4096 + (size / 1024).toNat := by omega

/-- With a stride that is no multiple of a word the third address is not a new
    node. -/
theorem odd_stride_fails (hsize : 8192 ≤ size.toNat) (hodd : (size / 1024).toNat % 8 ≠ 0) :
    ¬ CoversArray size := by
  intro hcovers
  obtain ⟨fuel, mem, p, hrun, hvisits⟩ := hcovers (fun _ _ => 0) (fun _ => 0) 4096
  obtain ⟨hint, rfl, mem1, iter, hclear, hbuild⟩ := init_stride_some hrun
  obtain rfl := clear_bytes_zero hclear
  obtain ⟨j, hj, hnode⟩ := hvisits.nodes 2 (by omega)
  have hthird := third_address hsize hint hbuild
  have hstride := stride_toNat size
  have hat := node_toNat hint hj
  rcases Nat.lt_or_ge (size / 1024).toNat 16 with hnarrow | hwide
  · have hfar := third_address_far (s := (size / 1024).toNat) (by omega) (by omega)
    rw [if_pos hnarrow] at hthird
    rw [BitVec.ofNat_toNat, BitVec.setWidth_eq, ← hthird, hnode, hat] at hfar
    omega
  · have hlow := third_address_low (by omega) hint hodd
    rw [if_neg (Nat.not_lt.mpr hwide), BitVec.zero_shiftLeft, BitVec.or_zero] at hthird
    rw [← hthird, hnode, hat] at hlow
    -- below the second node there is only the head, where the chase has been
    have hhead : j = 0 := by
      by_contra hne
      have hskip : 1 * (size / 1024).toNat ≤ j * (size / 1024).toNat :=
        Nat.mul_le_mul_right _ (by omega)
      omega
    apply hvisits.ne (j := 2) (k := 0) (by omega) (by omega) (by omega)
    rw [hnode, hhead]
    simp

/-- **Coverage**: the chase covers 1024 nodes exactly if the stride is a
    multiple of eight, for sizes that the index of the first loop can count. -/
theorem covers_iff (hsize : 1024 ≤ size.toNat) :
    CoversArray size ↔ (size / 1024).toNat % 8 = 0 ∧ size.toNat < 2 ^ 31 := by
  constructor
  · intro hcovers
    constructor
    · by_contra hodd
      rcases Nat.lt_or_ge size.toNat 8192 with hshort | hlong
      · exact short_stride_fails hsize hshort hcovers
      · exact odd_stride_fails hlong hodd hcovers
    · obtain ⟨fuel, mem, p, hrun, -⟩ := hcovers (fun _ _ => 0) (fun _ => 0) 4096
      exact (init_stride_some hrun).1
  · rintro ⟨hdvd, hint⟩
    exact covers_of_words hsize hdvd hint

/-- 32 KiB, the first size of the test. -/
theorem covers_32KB : CoversArray 32768 :=
  (covers_iff (by decide)).mpr (by decide)

/-- 1 KiB, the smallest size of the sweep. -/
theorem covers_not_1KB : ¬ CoversArray 1024 := short_stride_fails (by decide) (by decide)

end

end BLatency

end Pcnt
