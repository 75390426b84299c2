import Microrev.Lib.Memory
import Microrev.Lib.Loop
import Microrev.Lib.Circuit
import Microrev.Ring.Shuffle

/-! # Building the Linked List

    `set_shuffled_linked_list`, `setup` and `pr_co_setup` write a linked list
    into an array: every `stride` bytes a pointer to another node, in the
    order that `shuffle_array` draws. The list-building code is the same in
    all three; it is modelled once, on byte-addressed memory, with the byte
    offset `i` and the pointer `shared_iter` advanced separately as in the
    source.
-/

namespace Pcnt

open Loop

/-- The globals of `BENCHMARK_INIT` that hold the shared data. -/
structure Shared where
  mem : Memory
  shared_data : BitVec 64
  wrflag : List Int
  shared_iter : BitVec 64
  shared_data_size : BitVec 64
  cache_line_size : BitVec 64

/-- `shared_data_size / stride`. -/
def Shared.line_cnt (g : Shared) (stride : BitVec 64) : Nat :=
  (g.shared_data_size / stride).toNat

/-! ### The Source Functions -/

/-- `rndarray.push_back( (char*)&arr[i] )` in steps of `stride`. -/
def push_nodes (fuel : Nat) (arr size stride : BitVec 64) : Option (List (BitVec 64)) :=
  forStep size stride (fun i rndarray => some (rndarray ++ [arr + i])) fuel 0 []

/-- `*shared_iter = rndarray[i / stride]; shared_iter += stride / 8`. -/
def link_nodes (fuel : Nat) (rndarray : List (BitVec 64)) (size stride : BitVec 64)
    (mem : Memory) (iter : BitVec 64) : Option (Memory × BitVec 64) :=
  forStep size stride (fun i s =>
    match rndarray[(i / stride).toNat]? with
    | none => none
    | some p => some (s.1.store s.2 p, s.2 + 8 * (stride / 8))) fuel 0 (mem, iter)

/-- The list-building code, with the memory and `shared_iter` it ends in. -/
def build_list (draws : Draws) (fuel : Nat) (mem : Memory) (arr size stride : BitVec 64) :
    Option (Memory × BitVec 64) :=
  match push_nodes fuel arr size stride with
  | none => none
  | some rndarray =>
    match shuffle_array draws rndarray with
    | none => none
    | some rndarray =>
      match link_nodes fuel rndarray size stride mem arr with
      | none => none
      -- *shared_iter = head
      | some (mem, iter) => some (mem.store iter arr, iter)

/-- `shared_iter` is a local variable here. -/
def set_shuffled_linked_list (draws : Draws) (fuel : Nat) (mem : Memory)
    (arr size stride : BitVec 64) : Option Memory :=
  (build_list draws fuel mem arr size stride).map Prod.fst

/-- `addr` is what `malloc` returns. -/
def setup (draws : Draws) (fuel : Nat) (addr size stride : BitVec 64) (g : Shared) :
    Option Shared :=
  (build_list draws fuel g.mem addr size stride).map fun r =>
    { g with mem := r.1, shared_data := addr, shared_iter := r.2 }

/-- `shared_data[i] = 0` for every byte. -/
def clear_bytes (fuel : Nat) (mem : Memory) (addr size : BitVec 64) : Option Memory :=
  forStep size 1 (fun i mem => some (mem.storeByte (addr + i) 0)) fuel 0 mem

def pr_co_setup (draws : Draws) (fuel : Nat) (addr size stride : BitVec 64) (g : Shared) :
    Option Shared :=
  match clear_bytes fuel g.mem addr size with
  | none => none
  | some mem =>
    (build_list draws fuel mem addr size stride).map fun r =>
      { g with mem := r.1, shared_data := addr, shared_iter := r.2
               -- wrflag[i] = 1 for every i below size / stride
               wrflag := List.replicate (size / stride).toNat 1 }

/-! ### The Loops -/

/-- The number of nodes, `size / stride` rounded up. -/
abbrev nodeCount (size stride : BitVec 64) : Nat := rounds size.toNat stride.toNat

/-- The address of node `k`; the address after the last node for
    `k = nodeCount size stride`. -/
abbrev node (arr stride : BitVec 64) (k : Nat) : BitVec 64 := Memory.slot arr stride.toNat k

/-- The nodes and the slot behind the last one do not wrap around onto each
    other. -/
structure Strided (size stride : BitVec 64) : Prop where
  stride_pos : 0 < stride.toNat
  stride_dvd : stride.toNat % 8 = 0
  fit : nodeCount size stride * stride.toNat ≤ 2 ^ 64 - 8

/-- Sizes and strides for which the list is a ring. -/
structure Layout (size stride : BitVec 64) : Prop where
  size_pos : 0 < size.toNat
  size_lt : size.toNat < 2 ^ 63
  stride_pos : 0 < stride.toNat
  stride_lt : stride.toNat < 2 ^ 63
  stride_dvd : stride.toNat % 8 = 0
  few : nodeCount size stride < 2 ^ 31

/-- They do not wrap around, and there are few enough of them to be shuffled. -/
structure Fits (size stride : BitVec 64) : Prop where
  size_pos : 0 < size.toNat
  stride_pos : 0 < stride.toNat
  stride_dvd : stride.toNat % 8 = 0
  fit : nodeCount size stride * stride.toNat ≤ 2 ^ 64 - 8
  few : nodeCount size stride < 2 ^ 31

section
variable {size stride : BitVec 64}

theorem Layout.fits (h : Layout size stride) : Fits size stride := by
  refine ⟨h.size_pos, h.stride_pos, h.stride_dvd, ?_, h.few⟩
  have hend : nodeCount size stride * stride.toNat < size.toNat + stride.toNat :=
    rounds_mul_lt h.stride_pos h.size_pos
  have h1 := h.size_lt
  have h2 := h.stride_lt
  have h3 := h.stride_dvd
  omega

theorem Fits.strided (h : Fits size stride) : Strided size stride :=
  ⟨h.stride_pos, h.stride_dvd, h.fit⟩

/-- The nodes of a whole number of strides fill the array. -/
theorem nodeCount_mul (hstride : 0 < stride.toNat) (hwhole : stride.toNat ∣ size.toNat) :
    nodeCount size stride * stride.toNat = size.toNat := by
  obtain ⟨n, hn⟩ := hwhole
  unfold nodeCount
  rw [hn, rounds_mul hstride, Nat.mul_comm]

theorem nodeCount_eq_div (hstride : 0 < stride.toNat) (hwhole : stride.toNat ∣ size.toNat) :
    nodeCount size stride = size.toNat / stride.toNat := by
  rw [← nodeCount_mul hstride hwhole, Nat.mul_div_cancel _ hstride]

/-- The place after the last node is the end of the array. -/
theorem node_end (hstride : 0 < stride.toNat) (hwhole : stride.toNat ∣ size.toNat)
    (addr : BitVec 64) : node addr stride (nodeCount size stride) = addr + size := by
  unfold node Memory.slot
  rw [nodeCount_mul hstride hwhole]
  simp

theorem Strided.stride_ge (h : Strided size stride) : 8 ≤ stride.toNat := by
  have h1 := h.stride_pos
  have h2 := h.stride_dvd
  omega

theorem Strided.index_fit (h : Strided size stride) :
    nodeCount size stride * stride.toNat < 2 ^ 64 := by
  have hfit := h.fit
  omega

/-- Even the slot after the last node does not wrap around onto the first. -/
theorem Strided.end_fit (h : Strided size stride) {k : Nat} (hk : k ≤ nodeCount size stride) :
    k * stride.toNat ≤ 2 ^ 64 - 8 :=
  (Nat.mul_le_mul_right stride.toNat hk).trans h.fit

theorem Strided.apart (h : Strided size stride) (arr : BitVec 64) {j k : Nat} (hjk : j ≠ k)
    (hj : j ≤ nodeCount size stride) (hk : k ≤ nodeCount size stride) :
    Memory.Apart (node arr stride j) (node arr stride k) := by
  rcases Nat.lt_or_gt_of_ne hjk with hlt | hlt
  · exact Memory.slot_apart h.stride_ge hlt (h.end_fit hk)
  · exact (Memory.slot_apart h.stride_ge hlt (h.end_fit hj)).symm

theorem Strided.node_injective (h : Strided size stride) (arr : BitVec 64) {j k : Nat}
    (hj : j ≤ nodeCount size stride) (hk : k ≤ nodeCount size stride)
    (heq : node arr stride j = node arr stride k) : j = k := by
  by_contra hne
  have hapart := (h.apart arr hne hj hk).1
  rw [heq] at hapart
  simp at hapart

theorem node_succ (arr stride : BitVec 64) (k : Nat) :
    node arr stride k + stride = node arr stride (k + 1) := by
  unfold node Memory.slot
  rw [BitVec.add_assoc, index_succ]

/-- `shared_iter += stride / sizeof( shared_iter )` advances by `stride` bytes,
    rounded down to whole words. -/
theorem pitch_toNat (stride : BitVec 64) :
    (8 * (stride / 8)).toNat = 8 * (stride.toNat / 8) := by
  have hlt := stride.isLt
  rw [BitVec.toNat_mul, BitVec.toNat_udiv, show (8 : BitVec 64).toNat = 8 from rfl]
  omega

theorem Strided.pitch_eq (h : Strided size stride) : 8 * (stride / 8) = stride := by
  have hdvd := h.stride_dvd
  apply BitVec.eq_of_toNat_eq
  rw [pitch_toNat]
  omega

theorem Strided.advance (h : Strided size stride) (arr : BitVec 64) (k : Nat) :
    node arr stride k + 8 * (stride / 8) = node arr stride (k + 1) := by
  rw [h.pitch_eq, node_succ]

/-- `i / stride` is the number of the round. -/
theorem index_div (hstride : 0 < stride.toNat)
    (hfit : nodeCount size stride * stride.toNat < 2 ^ 64) {k : Nat}
    (hk : k < nodeCount size stride) :
    (BitVec.ofNat 64 (k * stride.toNat) / stride).toNat = k := by
  have hle : k * stride.toNat ≤ nodeCount size stride * stride.toNat :=
    Nat.mul_le_mul_right _ (Nat.le_of_lt hk)
  rw [BitVec.toNat_udiv, BitVec.toNat_ofNat, Nat.mod_eq_of_lt (by omega),
    Nat.mul_div_cancel _ hstride]

theorem pitch_fit (hfit : nodeCount size stride * stride.toNat < 2 ^ 64) {k : Nat}
    (hk : k ≤ nodeCount size stride) : k * (8 * (stride / 8)).toNat ≤ 2 ^ 64 - 8 := by
  have hpitch := pitch_toNat stride
  have hle : k * (8 * (stride / 8)).toNat ≤ nodeCount size stride * stride.toNat :=
    Nat.mul_le_mul hk (by omega)
  -- a multiple of eight that is less than 2 ^ 64
  have height : k * (8 * (stride / 8)).toNat = 8 * (k * (stride.toNat / 8)) := by
    rw [hpitch, Nat.mul_left_comm]
  omega

theorem pitch_apart (hge : 8 ≤ stride.toNat)
    (hfit : nodeCount size stride * stride.toNat < 2 ^ 64) (arr : BitVec 64) {j k : Nat}
    (hjk : j < k) (hk : k ≤ nodeCount size stride) :
    Memory.Apart (node arr (8 * (stride / 8)) j) (node arr (8 * (stride / 8)) k) := by
  have hpitch := pitch_toNat stride
  exact Memory.slot_apart (by omega) hjk (pitch_fit hfit hk)

theorem push_nodes_eq (hstride : 0 < stride.toNat)
    (hfit : nodeCount size stride * stride.toNat < 2 ^ 64) (arr : BitVec 64) {fuel : Nat}
    (hfuel : nodeCount size stride < fuel) :
    push_nodes fuel arr size stride =
      some ((List.range (nodeCount size stride)).map (node arr stride)) := by
  have hloop : ∃ rnd, push_nodes fuel arr size stride = some rnd ∧
      rnd = (List.range (nodeCount size stride)).map (node arr stride) := by
    refine forStep_spec (fun k rnd => rnd = (List.range k).map (node arr stride))
      hstride hfit (fun k rnd _ hrnd => ⟨_, rfl, ?_⟩) hfuel rfl
    rw [hrnd, List.range_succ, List.map_append]
    rfl
  obtain ⟨rnd, hrnd, rfl⟩ := hloop
  exact hrnd

/-- After `k` rounds the first `k` nodes hold the first `k` pointers. -/
structure Linked (rnd : List (BitVec 64)) (arr stride : BitVec 64) (k : Nat)
    (s : Memory × BitVec 64) : Prop where
  iter : s.2 = node arr stride k
  linked : ∀ j < k, rnd[j]? = some (s.1.load (node arr stride j))

/-- The pointers are stored at the pitch of `shared_iter`, whatever `stride`
    is, and nothing else changes. -/
theorem link_nodes_pitch (hge : 8 ≤ stride.toNat)
    (hfit : nodeCount size stride * stride.toNat < 2 ^ 64) (arr : BitVec 64) (mem : Memory)
    {rnd : List (BitVec 64)} (hlen : rnd.length = nodeCount size stride) {fuel : Nat}
    (hfuel : nodeCount size stride < fuel) :
    ∃ s, link_nodes fuel rnd size stride mem arr = some s ∧
      Linked rnd arr (8 * (stride / 8)) (nodeCount size stride) s ∧
      ∀ a, (∀ j < nodeCount size stride, Memory.Apart (node arr (8 * (stride / 8)) j) a) →
        s.1.load a = mem.load a := by
  have hstride : 0 < stride.toNat := by omega
  unfold link_nodes
  apply forStep_spec (fun k s => Linked rnd arr (8 * (stride / 8)) k s ∧
    ∀ a, (∀ j < k, Memory.Apart (node arr (8 * (stride / 8)) j) a) → s.1.load a = mem.load a)
    hstride hfit _ hfuel
  · exact ⟨⟨by simp, fun j hj => absurd hj (Nat.not_lt_zero j)⟩, fun _ _ => rfl⟩
  · rintro k s hk ⟨hs, hframe⟩
    have hkn : k < nodeCount size stride := hk
    obtain ⟨p, hp⟩ : ∃ p, rnd[k]? = some p := ⟨_, List.getElem?_eq_getElem (hlen ▸ hkn)⟩
    refine ⟨_, by rw [index_div hstride hfit hkn, hp], ⟨?_, ?_⟩, ?_⟩
    · rw [hs.iter, node_succ]
    · intro j hj
      rw [hs.iter]
      rcases Nat.lt_succ_iff_lt_or_eq.mp hj with hlt | rfl
      · -- earlier nodes are apart from the one written now
        rw [Memory.load_store_apart _ _ (pitch_apart hge hfit arr hlt hkn.le).symm]
        exact hs.linked j hlt
      · rw [Memory.load_store_same]
        exact hp
    · intro a ha
      rw [hs.iter, Memory.load_store_apart _ _ (ha k (Nat.lt_succ_self k))]
      exact hframe a fun j hj => ha j (Nat.lt_succ_of_lt hj)

theorem link_nodes_spec (h : Fits size stride) (arr : BitVec 64) (mem : Memory)
    {rnd : List (BitVec 64)} (hlen : rnd.length = nodeCount size stride) {fuel : Nat}
    (hfuel : nodeCount size stride < fuel) :
    ∃ s, link_nodes fuel rnd size stride mem arr = some s ∧
      Linked rnd arr stride (nodeCount size stride) s := by
  obtain ⟨s, hrun, hlinked, -⟩ :=
    link_nodes_pitch h.strided.stride_ge h.strided.index_fit arr mem hlen hfuel
  rw [h.strided.pitch_eq] at hlinked
  exact ⟨s, hrun, hlinked⟩

/-! ### The Ring -/

/-- **The list is a circuit** through all nodes, and `shared_iter` stands
    behind the last node, on a pointer to the first. -/
structure Ring (mem : Memory) (arr size stride : BitVec 64) (path : List Nat) : Prop where
  head : path[0]? = some 0
  perm : path.Perm (List.range (nodeCount size stride))
  circuit : Circuit mem.load (path.map (node arr stride))
  behind : mem.load (node arr stride (nodeCount size stride)) = arr

theorem build_list_spec (draws : Draws) (h : Fits size stride) (mem : Memory)
    (arr : BitVec 64) {fuel : Nat} (hfuel : nodeCount size stride < fuel) :
    ∃ mem' path, build_list draws fuel mem arr size stride =
        some (mem', node arr stride (nodeCount size stride)) ∧
      Ring mem' arr size stride path := by
  have hlen : ((List.range (nodeCount size stride)).map (node arr stride)).length =
      nodeCount size stride := by simp
  have hpos : 0 < nodeCount size stride := rounds_pos h.stride_pos h.size_pos
  have hfew := h.few
  rw [← hlen] at hpos hfew
  obtain ⟨rnd, path, hrnd, hshuf⟩ := shuffle_array_spec draws hpos hfew
  obtain ⟨⟨mem1, iter⟩, hlink, hiter, hlinked⟩ := link_nodes_spec h arr mem
    (hshuf.length.trans hlen) hfuel
  simp only at hiter
  subst hiter
  have hperm : path.Perm (List.range (nodeCount size stride)) := by
    simpa using hshuf.perm
  have hbound : ∀ i ∈ path, i < nodeCount size stride := by
    intro i hi
    exact List.mem_range.mp (hperm.mem_iff.mp hi)
  refine ⟨mem1.store (node arr stride (nodeCount size stride)) arr, path, ?_, hshuf.head, hperm,
    ⟨?_, ?_⟩, Memory.load_store_same _ _ _⟩
  · unfold build_list
    rw [push_nodes_eq h.stride_pos h.strided.index_fit arr hfuel]
    simp only [hrnd, hlink]
  · refine List.Nodup.map_on ?_ (hperm.nodup_iff.mpr List.nodup_range)
    intro i hi j hj heq
    exact h.strided.node_injective arr (hbound i hi).le (hbound j hj).le heq
  · intro k hk
    have hplen : path.length = nodeCount size stride := by simpa using hperm.length_eq
    rw [List.length_map, hplen] at hk
    -- the shuffled array holds at place i the address of the next node j
    obtain ⟨i, j, hi, hj, hmoved⟩ := hshuf.moved k (by rw [hlen]; exact hk)
    rw [hlen] at hj
    have hilt := hbound i (List.mem_of_getElem? hi)
    have hjlt := hbound j (List.mem_of_getElem? hj)
    have hload : mem1.load (node arr stride i) = node arr stride j := by
      have hval := hlinked i hilt
      rw [hmoved, List.getElem?_map, List.getElem?_range hjlt] at hval
      exact (Option.some.inj hval).symm
    rw [List.length_map, hplen, List.getElem?_map, List.getElem?_map, hi, hj]
    simp only [Option.map_some]
    -- the store behind the last node changes no node
    rw [Memory.load_store_apart _ _ (h.strided.apart arr (by omega) le_rfl hilt.le), hload]

/-- The chase from the head of a ring. -/
structure ChaseOk (mem : Memory) (arr size stride : BitVec 64) : Prop where
  /-- The `n` node addresses are different. -/
  distinct : ((List.range (nodeCount size stride)).map (node arr stride)).Nodup
  /-- The first `n` nodes of the chase are these addresses, each once. -/
  visits : ((List.range (nodeCount size stride)).map fun k => mem.load^[k] arr).Perm
    ((List.range (nodeCount size stride)).map (node arr stride))
  /-- The `n`-th load returns to the head. -/
  returns : mem.load^[nodeCount size stride] arr = arr
  /-- The chase never leaves these nodes. -/
  stays : ∀ k, mem.load^[k] arr ∈ (List.range (nodeCount size stride)).map (node arr stride)

theorem Ring.start {mem : Memory} {arr : BitVec 64} {path : List Nat}
    (h : Ring mem arr size stride path) : (path.map (node arr stride))[0]? = some arr := by
  rw [List.getElem?_map, h.head]
  simp

theorem Ring.chaseOk {mem : Memory} {arr : BitVec 64} {path : List Nat}
    (h : Ring mem arr size stride path) : ChaseOk mem arr size stride := by
  have hperm := h.perm.map (node arr stride)
  have hlen : (path.map (node arr stride)).length = nodeCount size stride := by
    simpa using h.perm.length_eq
  refine ⟨hperm.nodup_iff.mp h.circuit.nodup, ?_, ?_, ?_⟩
  · have hvisits := h.circuit.visits h.start
    rw [hlen] at hvisits
    rw [hvisits]
    exact hperm
  · have hreturns := h.circuit.returns h.start
    rwa [hlen] at hreturns
  · intro k
    exact hperm.mem_iff.mp (h.circuit.stays h.start k)

/-- Clearing the bytes ends. -/
theorem clear_bytes_spec (mem : Memory) (addr : BitVec 64) {size : BitVec 64} {fuel : Nat}
    (hfuel : size.toNat < fuel) : ∃ mem', clear_bytes fuel mem addr size = some mem' := by
  have hloop : ∃ mem', clear_bytes fuel mem addr size = some mem' ∧ True := by
    apply forStep_spec (fun _ _ => True)
    · decide
    · simpa using size.isLt
    · exact fun k s _ _ => ⟨_, rfl, trivial⟩
    · simpa using hfuel
    · trivial
  obtain ⟨mem', hmem', -⟩ := hloop
  exact ⟨mem', hmem'⟩

theorem push_nodes_some {fuel : Nat} {arr : BitVec 64} {rnd : List (BitVec 64)}
    (hstride : 0 < stride.toNat) (hfit : nodeCount size stride * stride.toNat < 2 ^ 64)
    (h : push_nodes fuel arr size stride = some rnd) :
    rnd.length = nodeCount size stride ∧ nodeCount size stride < fuel :=
  forStep_some (fun k s => s.length = k) hstride hfit
    (fun k s s' _ hs hs' => by rw [← Option.some.inj hs']; simp [hs]) rfl h

/-- The three stages of a list-building code that returns. -/
theorem build_list_stages {draws : Draws} {fuel : Nat} {mem : Memory} {arr : BitVec 64}
    {r : Memory × BitVec 64} (h : build_list draws fuel mem arr size stride = some r) :
    ∃ nodes rndarray mem' iter, push_nodes fuel arr size stride = some nodes ∧
      shuffle_array draws nodes = some rndarray ∧
      link_nodes fuel rndarray size stride mem arr = some (mem', iter) ∧
      r = (mem'.store iter arr, iter) := by
  unfold build_list at h
  split at h
  · simp at h
  · next nodes hpush =>
    split at h
    · simp at h
    · next rndarray hshuffle =>
      split at h
      · simp at h
      · next mem' iter hlink =>
        exact ⟨nodes, rndarray, mem', iter, hpush, hshuffle, hlink, (Option.some.inj h).symm⟩

/-- What the list-building code needs in order to return. -/
theorem build_list_some {draws : Draws} {fuel : Nat} {mem : Memory} {arr : BitVec 64}
    {r : Memory × BitVec 64} (hstride : 0 < stride.toNat)
    (hfit : nodeCount size stride * stride.toNat < 2 ^ 64)
    (h : build_list draws fuel mem arr size stride = some r) :
    nodeCount size stride < fuel ∧ nodeCount size stride < 2 ^ 31 := by
  obtain ⟨nodes, rndarray, mem', iter, hpush, hshuffle, -, -⟩ := build_list_stages h
  obtain ⟨hlen, hfuel⟩ := push_nodes_some hstride hfit hpush
  refine ⟨hfuel, ?_⟩
  -- the indices of shuffle_array have to fit an int
  by_contra hmany
  unfold shuffle_array at hshuffle
  rw [if_neg (by rw [hlen]; exact hmany)] at hshuffle
  simp at hshuffle

theorem setup_spec (draws : Draws) (h : Fits size stride) (addr : BitVec 64) (g : Shared)
    {fuel : Nat} (hfuel : nodeCount size stride < fuel) :
    ∃ mem path, setup draws fuel addr size stride g =
        some { g with mem := mem, shared_data := addr
                      shared_iter := node addr stride (nodeCount size stride) } ∧
      Ring mem addr size stride path := by
  obtain ⟨mem, path, hbuild, hring⟩ := build_list_spec draws h g.mem addr hfuel
  refine ⟨mem, path, ?_, hring⟩
  unfold setup
  rw [hbuild]
  rfl

theorem pr_co_setup_flags {draws : Draws} {fuel : Nat} {addr : BitVec 64} {g g' : Shared}
    (h : pr_co_setup draws fuel addr size stride g = some g') :
    g'.wrflag = List.replicate (size / stride).toNat 1 ∧
      g'.shared_data_size = g.shared_data_size := by
  unfold pr_co_setup at h
  split at h
  · contradiction
  · obtain ⟨r, -, rfl⟩ := Option.map_eq_some_iff.mp h
    exact ⟨rfl, rfl⟩

theorem pr_co_setup_spec (draws : Draws) (h : Fits size stride) (addr : BitVec 64) (g : Shared)
    {fuel : Nat} (hbytes : size.toNat < fuel) (hfuel : nodeCount size stride < fuel) :
    ∃ mem path, pr_co_setup draws fuel addr size stride g =
        some { g with mem := mem, shared_data := addr
                      shared_iter := node addr stride (nodeCount size stride)
                      wrflag := List.replicate (size / stride).toNat 1 } ∧
      Ring mem addr size stride path := by
  obtain ⟨mem0, hclear⟩ := clear_bytes_spec g.mem addr hbytes
  obtain ⟨mem, path, hbuild, hring⟩ := build_list_spec draws h mem0 addr hfuel
  refine ⟨mem, path, ?_, hring⟩
  unfold pr_co_setup
  simp only [hclear]
  rw [hbuild]
  rfl

/-- **Pointer chase**: whatever is drawn, all three functions end, and the
    chase from the head runs round all nodes. -/
theorem pointer_chase (draws : Draws) (h : Layout size stride) (arr : BitVec 64) (g : Shared)
    {fuel : Nat} (hbytes : size.toNat < fuel) (hfuel : nodeCount size stride < fuel) :
    (∃ mem, set_shuffled_linked_list draws fuel g.mem arr size stride = some mem ∧
      ChaseOk mem arr size stride) ∧
    (∃ g', setup draws fuel arr size stride g = some g' ∧ g'.shared_data = arr ∧
      ChaseOk g'.mem arr size stride) ∧
    (∃ g', pr_co_setup draws fuel arr size stride g = some g' ∧ g'.shared_data = arr ∧
      ChaseOk g'.mem arr size stride) := by
  refine ⟨?_, ?_, ?_⟩
  · obtain ⟨mem, path, hbuild, hring⟩ := build_list_spec draws h.fits g.mem arr hfuel
    refine ⟨mem, ?_, hring.chaseOk⟩
    unfold set_shuffled_linked_list
    rw [hbuild]
    rfl
  · obtain ⟨mem, path, hsetup, hring⟩ := setup_spec draws h.fits arr g hfuel
    exact ⟨_, hsetup, rfl, hring.chaseOk⟩
  · obtain ⟨mem, path, hsetup, hring⟩ := pr_co_setup_spec draws h.fits arr g hbytes hfuel
    exact ⟨_, hsetup, rfl, hring.chaseOk⟩

end

/-- Four lines of 64 bytes, with the first candidate drawn every time. -/
theorem pointer_chase_four_lines :
    ∃ mem, set_shuffled_linked_list (fun _ _ => 0) 300 (fun _ => 0) 4096 256 64 = some mem ∧
      mem.load^[4] 4096 = 4096 := by
  have hlayout : Layout 256 64 := by constructor <;> decide
  have hbytes : (256 : BitVec 64).toNat < 300 := by decide
  obtain ⟨mem, hmem, hok⟩ := (pointer_chase (fun _ _ => 0) hlayout 4096
    { mem := fun _ => 0, shared_data := 0, wrflag := [], shared_iter := 0, shared_data_size := 0
      cache_line_size := 0 } hbytes (by decide)).1
  exact ⟨mem, hmem, hok.returns⟩

/-! ### Small Rings -/

/-- Shared data before any setup, for 64 bytes in lines of 64. -/
def oneLine : Shared where
  mem := fun _ => 0
  shared_data := 0
  wrflag := []
  shared_iter := 0
  shared_data_size := 64
  cache_line_size := 64

theorem oneLine_layout : Layout 64 64 := by
  constructor <;> decide

/-- The same for 256 bytes. -/
def fourLines : Shared := { oneLine with shared_data_size := 256 }

theorem fourLines_layout : Layout 256 64 := by
  constructor <;> decide

theorem setup_one_line : ∃ g, setup (fun _ _ => 0) 2 4096 64 64 oneLine = some g := by
  obtain ⟨mem, path, hsetup, -⟩ := setup_spec (fun _ _ => 0) oneLine_layout.fits 4096 oneLine
    (show nodeCount 64 64 < 2 by decide)
  exact ⟨_, hsetup⟩

theorem pr_co_setup_one_line :
    ∃ g, pr_co_setup (fun _ _ => 0) 100 4096 64 64 oneLine = some g ∧ 0 < g.line_cnt 64 ∧
      g.wrflag = [1] := by
  have hbytes : (64 : BitVec 64).toNat < 100 := by decide
  obtain ⟨mem, path, hsetup, -⟩ := pr_co_setup_spec (fun _ _ => 0) oneLine_layout.fits 4096
    oneLine hbytes (by decide)
  have hlines : 0 < oneLine.line_cnt 64 := by decide
  exact ⟨_, hsetup, hlines, rfl⟩

theorem setup_four_lines :
    ∃ g, setup (fun _ _ => 0) 5 4096 256 64 fourLines = some g ∧ g.line_cnt 64 = 4 := by
  obtain ⟨mem, path, hsetup, -⟩ := setup_spec (fun _ _ => 0) fourLines_layout.fits 4096 fourLines
    (show nodeCount 256 64 < 5 by decide)
  have hlines : fourLines.line_cnt 64 = 4 := by decide
  exact ⟨_, hsetup, hlines⟩

theorem pr_co_setup_four_lines :
    ∃ g, pr_co_setup (fun _ _ => 0) 300 4096 256 64 fourLines = some g ∧ g.line_cnt 64 = 4 ∧
      g.wrflag = [1, 1, 1, 1] := by
  have hbytes : (256 : BitVec 64).toNat < 300 := by decide
  obtain ⟨mem, path, hsetup, -⟩ := pr_co_setup_spec (fun _ _ => 0) fourLines_layout.fits 4096
    fourLines hbytes (by decide)
  have hlines : fourLines.line_cnt 64 = 4 := by decide
  exact ⟨_, hsetup, hlines, rfl⟩

end Pcnt
