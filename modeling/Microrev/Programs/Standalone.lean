import Microrev.Ring.InPlace

/-! # The Standalone Read Latency Program (`rd_latency.c`)

    For arrays of growing size, the program links a ring in place, chases it,
    and divides the time by the number of accesses that the names of its macros
    promise. `FIVE` is three accesses, so the chase makes three for every five
    that are counted, and every latency in `accessData.txt` is too low by that
    factor. Apart from it the chase is what it should be: it stays on the nodes
    of the array and visits all of them equally often.
-/

namespace Pcnt

open Loop

namespace Standalone

/-! ### The Program -/

/-- `iterate`, and for the record the addresses that have been loaded from. -/
structure Iterate where
  iterate : BitVec 64
  loaded : List (BitVec 64)

/-- `ONE`: `iterate = (char**)*iterate`. -/
def one (mem : Memory) (s : Iterate) : Iterate where
  iterate := mem.load s.iterate
  loaded := s.loaded ++ [s.iterate]

/-- `FIVE`, which is `ONE ONE ONE`. -/
def five (mem : Memory) (s : Iterate) : Iterate := one mem (one mem (one mem s))

/-- `TWOFIVE`. -/
def twofive (mem : Memory) : Iterate → Iterate := (five mem)^[5]

/-- `HUNDO`. -/
def hundo (mem : Memory) : Iterate → Iterate := (twofive mem)^[4]

/-- `NUM_ACCESSES`. -/
def numAccesses : Nat := 1000000000 / 100

/-- The chase, and where `iterate` ends. -/
def accessArray (mem : Memory) (head : BitVec 64) : Iterate :=
  upTo (fun _ => hundo mem) numAccesses ⟨head, []⟩

/-- What `accessArray` divides the time by. -/
def counted : Nat := 100 * numAccesses

/-- A call of `allocateRandomArray`, with that of `accessArray` at its end: the
    memory, and what has been loaded. There is fuel for all rounds. -/
def measure (mem : Memory) (randomArray size : BitVec 64) :
    Option (Memory × List (BitVec 64)) :=
  (allocateRandomArray size.toNat ⟨mem, []⟩ randomArray size).map fun heap =>
    (heap.mem, (accessArray heap.mem randomArray).loaded)

/-- The loop of `main` from `i`: the sizes, each with its loads. No size comes
    twice, so the addresses that `malloc` gives are a function of the size. -/
def main_loop (malloc : BitVec 64 → BitVec 64) : Nat → BitVec 64 → Memory →
    Option (List (BitVec 64 × List (BitVec 64)) × Memory)
  | 0, _, _ => none
  | fuel + 1, i, mem =>
    if i.slt 268435456 then
      match measure mem (malloc i) i with
      | none => none
      | some (mem, loaded) =>
        (main_loop malloc fuel (i * 2) mem).map fun r => ((i, loaded) :: r.1, r.2)
    else some ([], mem)

/-- `for( long long i = 512; i < 268435456; i *= 2 )`. -/
def main (malloc : BitVec 64 → BitVec 64) (fuel : Nat) (mem : Memory) :
    Option (List (BitVec 64 × List (BitVec 64)) × Memory) :=
  main_loop malloc fuel 512 mem

section
variable {mem : Memory} {size : BitVec 64}

/-! ### The Loads -/

/-- The chase loads from where it is. -/
theorem one_iterate (mem : Memory) (s : Iterate) (n : Nat) :
    (one mem)^[n] s =
      ⟨mem.load^[n] s.iterate, s.loaded ++ (List.range n).map fun k => mem.load^[k] s.iterate⟩ := by
  induction n with
  | zero => simp
  | succ n ih =>
    rw [Function.iterate_succ_apply', ih, Function.iterate_succ_apply', List.range_succ,
      List.map_append, ← List.append_assoc]
    rfl

/-- `HUNDO` makes 60 accesses: three, five times, four times. -/
theorem hundo_eq (mem : Memory) : hundo mem = (one mem)^[60] := by
  show (((one mem)^[3])^[5])^[4] = _
  rw [← Function.iterate_mul, ← Function.iterate_mul]

theorem accessArray_eq (mem : Memory) (head : BitVec 64) :
    accessArray mem head = ⟨mem.load^[60 * numAccesses] head,
      (List.range (60 * numAccesses)).map fun k => mem.load^[k] head⟩ := by
  unfold accessArray
  rw [hundo_eq, upTo_iterate, one_iterate, List.nil_append]

/-- Where the chase ends, in any ring in place. -/
theorem accessArray_reaches {stride arr : BitVec 64} (h : InPlaceRing mem arr size stride) :
    (accessArray mem arr).iterate =
      arr + BitVec.ofNat 64 (60 * numAccesses * stride.toNat % size.toNat) := by
  rw [accessArray_eq, h.reached]

/-- All loads go to the `n` nodes of the array, and to each equally often, give
    or take one. -/
structure Even (arr : BitVec 64) (n : Nat) (loaded : List (BitVec 64)) : Prop where
  nodes : ∀ a ∈ loaded, ∃ k < n, a = node arr 64 k
  balanced : ∀ k < n, loaded.count (node arr 64 k) = loaded.length / n ∨
    loaded.count (node arr 64 k) = (loaded.length + n - 1) / n

/-- Any number of loads in a ring through the nodes in order. -/
theorem even_of_circuit {next : BitVec 64 → BitVec 64} {arr : BitVec 64} {n : Nat} (hn : 0 < n)
    (h : Circuit next ((List.range n).map (node arr 64))) (m : Nat) :
    Even arr n ((List.range m).map fun k => next^[k] arr) := by
  have hhead : ((List.range n).map (node arr 64))[0]? = some arr := by
    rw [List.getElem?_map, List.getElem?_range hn]
    simp
  constructor
  case nodes =>
    intro a ha
    obtain ⟨k, -, rfl⟩ := List.mem_map.mp ha
    obtain ⟨j, hj, heq⟩ := List.mem_map.mp (h.stays hhead k)
    exact ⟨j, List.mem_range.mp hj, heq.symm⟩
  case balanced =>
    intro k hk
    have hmem : node arr 64 k ∈ (List.range n).map (node arr 64) :=
      List.mem_map_of_mem (List.mem_range.mpr hk)
    have hbalanced := h.balanced hhead hmem m
    rw [List.length_map, List.length_range] at hbalanced
    rw [List.length_map, List.length_range]
    exact hbalanced

/-- What a line of `accessData.txt` is about: three accesses for every five
    that are counted. -/
structure Accessed (malloc : BitVec 64 → BitVec 64) (e : BitVec 64 × List (BitVec 64)) : Prop where
  accesses : 5 * e.2.length = 3 * counted
  even : Even (malloc e.1) (e.1.toNat / 64) e.2

theorem accessed_of_circuit (malloc : BitVec 64 → BitVec 64) (hpos : 0 < size.toNat / 64)
    (h : Circuit mem.load ((List.range (size.toNat / 64)).map (node (malloc size) 64))) :
    Accessed malloc (size, (accessArray mem (malloc size)).loaded) := by
  rw [accessArray_eq]
  generalize hm : 60 * numAccesses = m
  refine ⟨?_, even_of_circuit hpos h m⟩
  rw [List.length_map, List.length_range, ← hm]
  unfold counted
  omega

/-! ### The Sizes -/

/-- The size in round `k`. -/
def sizeAt (k : Nat) : BitVec 64 := BitVec.ofNat 64 (2 ^ (9 + k))

theorem sizeAt_toNat {k : Nat} (hk : k < 19) : (sizeAt k).toNat = 2 ^ (9 + k) := by
  unfold sizeAt
  rw [BitVec.toNat_ofNat]
  exact Nat.mod_eq_of_lt (Nat.pow_lt_pow_right (by decide) (by omega))

theorem sizeAt_double (k : Nat) : sizeAt k * 2 = sizeAt (k + 1) := by
  unfold sizeAt
  rw [← Nat.add_assoc, Nat.pow_succ, BitVec.ofNat_mul]
  rfl

theorem sizeAt_slt : ∀ k ≤ 19, (sizeAt k).slt 268435456 = decide (k < 19) := by decide

/-- A round. -/
theorem measure_accessed (malloc : BitVec 64 → BitVec 64) {k : Nat} (hk : k < 19) (mem : Memory) :
    ∃ mem' loaded, measure mem (malloc (sizeAt k)) (sizeAt k) = some (mem', loaded) ∧
      Accessed malloc (sizeAt k, loaded) := by
  have hsize := sizeAt_toNat hk
  have hstride : (64 : BitVec 64).toNat = 64 := by decide
  have hwhole : (64 : BitVec 64).toNat ∣ (sizeAt k).toNat := by
    rw [hsize, hstride]
    exact Nat.pow_dvd_pow 2 (show 6 ≤ 9 + k by omega)
  have hle : (sizeAt k).toNat ≤ 2 ^ 63 - 1 := by
    rw [hsize]
    exact Nat.le_sub_one_of_lt (Nat.pow_lt_pow_right (by decide) (by omega))
  have hpos : 0 < (sizeAt k).toNat := by
    rw [hsize]
    exact Nat.two_pow_pos _
  have hs : Strided (sizeAt k) 64 := strided_of_dvd (by decide) (by decide) hwhole
  have hcount : nodeCount (sizeAt k) 64 = (sizeAt k).toNat / 64 :=
    nodeCount_eq_div hs.stride_pos hwhole
  have hnodes : 0 < (sizeAt k).toNat / 64 :=
    Nat.div_pos (Nat.le_of_dvd hpos hwhole) (by decide)
  obtain ⟨heap, hrun, hcircuit, -⟩ := link_in_place_spec IndexType.longLong_exact hle hs hpos
    hwhole ⟨mem, []⟩ (malloc (sizeAt k)) (hcount ▸ Nat.div_le_self (sizeAt k).toNat 64)
  rw [hcount] at hcircuit
  refine ⟨heap.mem, _, ?_, accessed_of_circuit malloc hnodes hcircuit⟩
  unfold measure allocateRandomArray
  rw [hrun, Option.map_some]

/-- The rounds from `k` on. -/
theorem main_loop_accesses (malloc : BitVec 64 → BitVec 64) {j k : Nat} (hjk : k + j = 19)
    {fuel : Nat} (hfuel : j < fuel) (mem : Memory) :
    ∃ runs mem', main_loop malloc fuel (sizeAt k) mem = some (runs, mem') ∧
      runs.map Prod.fst = (List.range j).map (fun m => sizeAt (k + m)) ∧
      ∀ e ∈ runs, Accessed malloc e := by
  induction j generalizing k fuel mem with
  | zero =>
    obtain ⟨fuel, rfl⟩ := Nat.exists_eq_add_one_of_ne_zero (Nat.ne_of_gt hfuel)
    refine ⟨[], mem, ?_, rfl, by simp⟩
    rw [main_loop, sizeAt_slt k (by omega), if_neg (by simpa using hjk.ge)]
  | succ j ih =>
    obtain ⟨fuel, rfl⟩ := Nat.exists_eq_add_one_of_ne_zero (Nat.ne_of_gt (Nat.zero_lt_of_lt hfuel))
    obtain ⟨mem1, loaded, hmeasure, haccessed⟩ :=
      measure_accessed malloc (show k < 19 by omega) mem
    obtain ⟨runs, mem', hloop, hsizes, hruns⟩ :=
      ih (show k + 1 + j = 19 by omega) (Nat.lt_of_succ_lt_succ hfuel) mem1
    refine ⟨(sizeAt k, loaded) :: runs, mem', ?_, ?_, ?_⟩
    · rw [main_loop, sizeAt_slt k (by omega), if_pos (by simp; omega), hmeasure]
      simp only [sizeAt_double, hloop, Option.map_some]
    · rw [List.map_cons, hsizes, List.range_succ_eq_map, List.map_cons, List.map_map]
      simp [Function.comp_def, Nat.add_assoc, Nat.add_comm 1]
    · exact List.forall_mem_cons.mpr ⟨haccessed, hruns⟩

/-- **The whole program**: wherever `malloc` puts the arrays, it ends, with one
    line for each power of two from 512 to 2^27, and each of them divides the
    time of three accesses by five. -/
theorem main_accesses (malloc : BitVec 64 → BitVec 64) (mem : Memory) :
    ∃ runs mem', main malloc 20 mem = some (runs, mem') ∧
      runs.map (fun e => e.1.toNat) = (List.range 19).map (fun k => 2 ^ (9 + k)) ∧
      ∀ e ∈ runs, Accessed malloc e := by
  obtain ⟨runs, mem', hrun, hsizes, hruns⟩ :=
    main_loop_accesses malloc (Nat.zero_add 19) (by decide : 19 < 20) mem
  refine ⟨runs, mem', hrun, ?_, hruns⟩
  have hnumbers := congrArg (List.map BitVec.toNat) hsizes
  rw [List.map_map, List.map_map] at hnumbers
  refine hnumbers.trans (List.map_congr_left ?_)
  intro k hk
  rw [List.mem_range] at hk
  show (sizeAt (0 + k)).toNat = _
  rw [Nat.zero_add, sizeAt_toNat hk]

end

end Standalone

end Pcnt
