import Microrev.Lib.Decimal

/-! # The Average (`avg_no_overflow`)

    The mean of 64-bit values without a sum that overflows: the sum is kept
    as `res * size + accumulator`, and before an addition that would overflow
    the accumulator, most of it is moved to `res` and its sign is flipped.
    The accumulator is signed and the values are not, so the guards compare
    with the conversions of C++. `long double` is exact here.

    Two results: on values that leave a little room below `2 ^ 63` the
    function computes the exact mean, rounded down; and the exact condition
    under which the guards do their job on arbitrary values.
-/

namespace Pcnt

open Decimal

/-! ### The Source Function -/

/-- The local variables of the loop. -/
structure AvgVars where
  /-- An `intmax_t`. -/
  accumulator : BitVec 64
  /-- A `long double`. -/
  res : ℚ

/-- The guards, before the next value is added. Both compare unsigned. -/
def rebalance (size first : BitVec 64) (v : AvgVars) : AvgVars :=
  if v.accumulator.toInt < 0 ∧ first < BitVec.intMin 64 - v.accumulator then
    { accumulator := v.accumulator.srem size + size
      res := v.res + (v.accumulator.sdiv size - 1).toInt }
  else if 0 < v.accumulator.toInt ∧ BitVec.intMax 64 - v.accumulator < first then
    { accumulator := v.accumulator.srem size - size
      res := v.res + (v.accumulator.sdiv size + 1).toInt }
  else v

/-- One iteration of the loop. -/
def avgRound (size : BitVec 64) (v : AvgVars) (first : BitVec 64) : AvgVars :=
  let v := rebalance size first v
  { v with accumulator := v.accumulator + first }

/-- The loop over a part of the values. -/
def avgLoop (size : BitVec 64) (nums : List (BitVec 64)) : AvgVars :=
  nums.foldl (avgRound size) { accumulator := 0, res := 0 }

def avg_no_overflow (nums : List (BitVec 64)) : BitVec 64 :=
  let size := BitVec.ofNat 64 nums.length
  if size = 0 then 0
  else
    let v := avgLoop size nums
    let res := v.res + (v.accumulator.sdiv size).toInt
    -- the conversion back to uint64_t cuts off the fraction
    BitVec.ofInt 64 (truncate (res + ((v.accumulator.srem size).toInt : ℚ) / size.toInt))

/-! ### Truncated Division -/

/-- What `tmod` leaves of a positive and of a negative number. -/
theorem tmod_cases (a : ℤ) {n : ℕ} (hn : 0 < n) :
    (0 ≤ a → 0 ≤ a.tmod n ∧ a.tmod n < n) ∧ (a ≤ 0 → -n < a.tmod n ∧ a.tmod n ≤ 0) := by
  have hpos : (0 : ℤ) < n := by exact_mod_cast hn
  constructor
  · intro ha
    exact ⟨Int.tmod_nonneg _ ha, Int.tmod_lt_of_pos a hpos⟩
  · intro ha
    have hneg : (-a).tmod n = -a.tmod n := Int.neg_tmod a n
    have h1 := Int.tmod_nonneg (n : ℤ) (show 0 ≤ -a by omega)
    have h2 := Int.lt_tmod_of_pos a hpos
    omega

theorem truncate_div (S n : ℕ) : truncate ((S : ℚ) / n) = (S / n : ℕ) := by
  rw [truncate_of_nonneg (by positivity), Rat.floor_natCast_div_natCast, Int.natCast_div]

/-- The rest of a sum of which the multiple of `n` is known. -/
theorem mod_eq_of_split {S n : ℕ} {k t : ℤ} (hsum : k * n + t = S) (h0 : 0 ≤ t) (hlt : t < n) :
    ((S % n : ℕ) : ℤ) = t := by
  rw [Int.natCast_mod, ← hsum, Int.add_comm, Int.add_mul_emod_self_right, Int.emod_eq_of_lt h0 hlt]

section
variable {n S : ℕ} {v : AvgVars}

theorem size_toInt (hn : n < 2 ^ 63) : (BitVec.ofNat 64 n).toInt = n := by
  rw [BitVec.toInt_eq_toNat_of_lt (by rw [BitVec.toNat_ofNat]; omega), BitVec.toNat_ofNat,
    Nat.mod_eq_of_lt (by omega)]

/-! ### The Guards -/

/-- The first guard: `min - accumulator` is converted to an unsigned number. -/
theorem guard_negative_iff {acc x : BitVec 64} (hneg : acc.toInt < 0) (hmin : -2 ^ 63 < acc.toInt) :
    x < BitVec.intMin 64 - acc ↔ (x.toNat : ℤ) < 2 ^ 63 - acc.toInt := by
  have hacc := BitVec.toInt_eq_toNat_cond acc
  have hlt := acc.isLt
  rw [BitVec.lt_def, BitVec.toNat_sub, BitVec.toNat_intMin]
  split at hacc <;> omega

theorem guard_positive_iff {acc x : BitVec 64} (hpos : 0 < acc.toInt) :
    BitVec.intMax 64 - acc < x ↔ 2 ^ 63 - 1 - acc.toInt < x.toNat := by
  have hacc := BitVec.toInt_eq_toNat_cond acc
  have hlt := acc.isLt
  rw [BitVec.lt_def, BitVec.toNat_sub, BitVec.toNat_intMax]
  split at hacc <;> omega

/-- The quotient, also with the 1 that the guards subtract or add, does not
    overflow. -/
theorem sdiv_toInt (acc : BitVec 64) (hn : 2 ≤ n) (hlt : n < 2 ^ 63) :
    (acc.sdiv (BitVec.ofNat 64 n) - 1).toInt = acc.toInt.tdiv n - 1 ∧
      (acc.sdiv (BitVec.ofNat 64 n) + 1).toInt = acc.toInt.tdiv n + 1 := by
  have hlo := BitVec.le_toInt acc
  have hhi := BitVec.toInt_lt (x := acc)
  have hbound : -2 ^ 62 ≤ acc.toInt.tdiv n ∧ acc.toInt.tdiv n ≤ 2 ^ 62 := by
    have hhalf := Nat.div_le_div_left hn (show 0 < 2 by decide) (a := acc.toInt.natAbs)
    have hquot : (acc.toInt.tdiv n).natAbs = acc.toInt.natAbs / n := Int.natAbs_tdiv _ _
    omega
  have hone : (1 : BitVec 64).toInt = 1 := by decide
  have hdiv : (acc.sdiv (BitVec.ofNat 64 n)).toInt = acc.toInt.tdiv n := by
    rw [BitVec.toInt_sdiv, size_toInt hlt]
    apply Int.bmod_eq_of_le <;> omega
  rw [BitVec.toInt_sub, BitVec.toInt_add, hdiv, hone]
  constructor <;> apply Int.bmod_eq_of_le <;> omega

/-- What the guards do, by the sign of the accumulator. With a single value
    they see no other accumulator than 0. -/
theorem rebalance_cases (hlt : n < 2 ^ 63) (hlow : -n ≤ v.accumulator.toInt)
    (hlong : v.accumulator.toInt ≠ 0 → 2 ≤ n) (x : BitVec 64) :
    (v.accumulator.toInt < 0 ∧ x.toNat < 2 ^ 63 - v.accumulator.toInt ∧
      (rebalance (BitVec.ofNat 64 n) x v).accumulator.toInt = v.accumulator.toInt.tmod n + n ∧
      (rebalance (BitVec.ofNat 64 n) x v).res = v.res + (v.accumulator.toInt.tdiv n - 1 : ℤ)) ∨
    (0 < v.accumulator.toInt ∧ 2 ^ 63 - 1 - v.accumulator.toInt < x.toNat ∧
      (rebalance (BitVec.ofNat 64 n) x v).accumulator.toInt = v.accumulator.toInt.tmod n - n ∧
      (rebalance (BitVec.ofNat 64 n) x v).res = v.res + (v.accumulator.toInt.tdiv n + 1 : ℤ)) ∨
    (rebalance (BitVec.ofNat 64 n) x v = v ∧
      (v.accumulator.toInt < 0 → 2 ^ 63 - v.accumulator.toInt ≤ x.toNat) ∧
      (0 < v.accumulator.toInt → x.toNat ≤ 2 ^ 63 - 1 - v.accumulator.toInt)) := by
  have hsize := size_toInt hlt
  unfold rebalance
  split
  · next hguard =>
    obtain ⟨hneg, hx⟩ := hguard
    have hn := hlong (by omega)
    obtain ⟨-, hmod⟩ := tmod_cases v.accumulator.toInt (show 0 < n by omega)
    obtain ⟨hm1, hm2⟩ := hmod hneg.le
    rw [guard_negative_iff hneg (by omega)] at hx
    refine .inl ⟨hneg, hx, ?_, ?_⟩
    · rw [BitVec.toInt_add, BitVec.toInt_srem, hsize]
      apply Int.bmod_eq_of_le <;> omega
    · rw [(sdiv_toInt v.accumulator hn hlt).1]
  · next hfirst =>
    split
    · next hguard =>
      obtain ⟨hpos, hx⟩ := hguard
      have hn := hlong (by omega)
      obtain ⟨hmod, -⟩ := tmod_cases v.accumulator.toInt (show 0 < n by omega)
      obtain ⟨hm1, hm2⟩ := hmod hpos.le
      rw [guard_positive_iff hpos] at hx
      refine .inr (.inl ⟨hpos, hx, ?_, ?_⟩)
      · rw [BitVec.toInt_sub, BitVec.toInt_srem, hsize]
        apply Int.bmod_eq_of_le <;> omega
      · rw [(sdiv_toInt v.accumulator hn hlt).2]
    · next hsecond =>
      refine .inr (.inr ⟨rfl, ?_, ?_⟩)
      · intro hneg
        by_contra hx
        exact hfirst ⟨hneg, (guard_negative_iff hneg (by omega)).mpr (by omega)⟩
      · intro hpos
        by_contra hx
        exact hsecond ⟨hpos, (guard_positive_iff hpos).mpr (by omega)⟩

/-! ### One Iteration -/

/-- `sum` is the sum of the values so far, split up over whole numbers. -/
structure AvgInv (n sum : ℕ) (v : AvgVars) : Prop where
  split : ∃ q : ℤ, v.res = q ∧ q * n + v.accumulator.toInt = sum
  low : -n ≤ v.accumulator.toInt

/-- The addition of `x` does not overflow. -/
def AvgVars.Fits (v : AvgVars) (x : BitVec 64) : Prop :=
  -2 ^ 63 ≤ v.accumulator.toInt + x.toNat ∧ v.accumulator.toInt + x.toNat < 2 ^ 63

/-- There is room for `x` behind the guards, by the sign of the accumulator:
    an accumulator of 0 they leave alone, and any other one they replace, if
    need be, by the number between 1 and `n`, or between `-n` and -1, that
    is congruent to the sum. -/
def InRoom (n sum : ℕ) (accumulator : ℤ) (x : ℕ) : Prop :=
  (accumulator = 0 → x < 2 ^ 63) ∧
    (accumulator < 0 → x + (if sum % n = 0 then n else sum % n) < 2 ^ 63) ∧
    (0 < accumulator → x + sum % n < 2 ^ 63 + n)

/-- The guards keep the sum. -/
theorem AvgInv.rebalance (h : AvgInv n S v) (hpos : 0 < n) (hlt : n < 2 ^ 63)
    (hlong : v.accumulator.toInt ≠ 0 → 2 ≤ n) (x : BitVec 64) :
    AvgInv n S (Pcnt.rebalance (BitVec.ofNat 64 n) x v) := by
  obtain ⟨q, hres, hsum⟩ := h.split
  have hdiv := Int.mul_tdiv_add_tmod v.accumulator.toInt n
  obtain ⟨hmodp, hmodn⟩ := tmod_cases v.accumulator.toInt hpos
  rcases rebalance_cases hlt h.low hlong x with
    ⟨hneg, -, hacc, hres'⟩ | ⟨hacc0, -, hacc, hres'⟩ | ⟨hsame, -, -⟩
  · refine ⟨⟨q + (v.accumulator.toInt.tdiv n - 1), ?_, ?_⟩, ?_⟩
    · rw [hres', hres]
      push_cast
      ring
    · rw [hacc, ← hsum]
      linear_combination hdiv
    · have := hmodn hneg.le
      omega
  · refine ⟨⟨q + (v.accumulator.toInt.tdiv n + 1), ?_, ?_⟩, ?_⟩
    · rw [hres', hres]
      push_cast
      ring
    · rw [hacc, ← hsum]
      linear_combination hdiv
    · have := hmodp hacc0.le
      omega
  · rw [hsame]
    exact h

/-- **One iteration**: the addition behind the guards fits exactly when there
    was room for the value. -/
theorem AvgInv.fits_iff (h : AvgInv n S v) (hpos : 0 < n) (hlt : n < 2 ^ 63)
    (hlong : v.accumulator.toInt ≠ 0 → 2 ≤ n) (x : BitVec 64) :
    (Pcnt.rebalance (BitVec.ofNat 64 n) x v).Fits x ↔
      InRoom n S v.accumulator.toInt x.toNat := by
  obtain ⟨q, -, hsum⟩ := h.split
  have hlow := h.low
  have hhi := BitVec.toInt_lt (x := v.accumulator)
  have hdiv := Int.mul_tdiv_add_tmod v.accumulator.toInt n
  obtain ⟨hmodp, hmodn⟩ := tmod_cases v.accumulator.toInt hpos
  -- the rest of the sum, for an accumulator of either sign
  have hrestp : 0 < v.accumulator.toInt → ((S % n : ℕ) : ℤ) = v.accumulator.toInt.tmod n := by
    intro hacc
    obtain ⟨h0, h1⟩ := hmodp hacc.le
    refine mod_eq_of_split (k := q + v.accumulator.toInt.tdiv n) ?_ h0 h1
    rw [← hsum]
    linear_combination hdiv
  have hrestn : v.accumulator.toInt < 0 →
      ((if S % n = 0 then n else S % n : ℕ) : ℤ) = v.accumulator.toInt.tmod n + n := by
    intro hacc
    obtain ⟨h0, h1⟩ := hmodn hacc.le
    rcases h1.lt_or_eq with h1 | h1
    · have hrest : ((S % n : ℕ) : ℤ) = v.accumulator.toInt.tmod n + n := by
        refine mod_eq_of_split (k := q + v.accumulator.toInt.tdiv n - 1) ?_ (by omega) (by omega)
        rw [← hsum]
        linear_combination hdiv
      rw [if_neg (by omega), hrest]
    · have hrest : ((S % n : ℕ) : ℤ) = 0 := by
        refine mod_eq_of_split (k := q + v.accumulator.toInt.tdiv n) ?_ le_rfl (by omega)
        rw [← hsum]
        linear_combination hdiv - h1
      rw [if_pos (by exact_mod_cast hrest), h1, zero_add]
  unfold AvgVars.Fits InRoom
  generalize (if S % n = 0 then n else S % n : ℕ) = top at *
  generalize (S % n : ℕ) = rest at *
  rcases rebalance_cases hlt h.low hlong x with
    ⟨hneg, hx, hacc, -⟩ | ⟨hacc0, hx, hacc, -⟩ | ⟨hsame, hxn, hxp⟩
  · have := hrestn hneg
    have := hmodn hneg.le
    rw [hacc]
    omega
  · have := hrestp hacc0
    have := hmodp hacc0.le
    rw [hacc]
    omega
  · rw [hsame]
    omega

/-- An addition that fits keeps the invariant. -/
theorem AvgInv.round (h : AvgInv n S v) (hpos : 0 < n) (hlt : n < 2 ^ 63)
    (hlong : v.accumulator.toInt ≠ 0 → 2 ≤ n) {x : BitVec 64}
    (hfits : (Pcnt.rebalance (BitVec.ofNat 64 n) x v).Fits x) :
    AvgInv n (S + x.toNat) (avgRound (BitVec.ofNat 64 n) v x) := by
  obtain ⟨⟨q, hres, hsum⟩, hlow⟩ := h.rebalance hpos hlt hlong x
  obtain ⟨hlo, hhi⟩ := hfits
  have hadd : (avgRound (BitVec.ofNat 64 n) v x).accumulator.toInt =
      (Pcnt.rebalance (BitVec.ofNat 64 n) x v).accumulator.toInt + x.toNat := by
    show ((Pcnt.rebalance (BitVec.ofNat 64 n) x v).accumulator + x).toInt = _
    have hx := BitVec.toInt_eq_toNat_bmod x
    rw [BitVec.toInt_add, hx, Int.add_bmod_bmod]
    apply Int.bmod_eq_of_le <;> omega
  refine ⟨⟨q, hres, ?_⟩, ?_⟩
  · rw [hadd]
    push_cast
    linear_combination hsum
  · rw [hadd]
    omega

end

/-! ### The Loop -/

def sumOf (nums : List (BitVec 64)) : ℕ := (nums.map BitVec.toNat).sum

theorem sumOf_snoc (nums : List (BitVec 64)) (x : BitVec 64) :
    sumOf (nums ++ [x]) = sumOf nums + x.toNat := by
  simp [sumOf]

theorem avgLoop_snoc (size : BitVec 64) (nums : List (BitVec 64)) (x : BitVec 64) :
    avgLoop size (nums ++ [x]) = avgRound size (avgLoop size nums) x := by
  simp [avgLoop]

/-- The guards do their job on `nums`: in every iteration the addition behind
    them fits, and the sum is always what has been added so far. -/
structure GuardsSound (nums : List (BitVec 64)) : Prop where
  fits : ∀ done x rest, nums = done ++ x :: rest →
    (rebalance (BitVec.ofNat 64 nums.length) x
      (avgLoop (BitVec.ofNat 64 nums.length) done)).Fits x
  sum : ∀ done rest, nums = done ++ rest →
    (avgLoop (BitVec.ofNat 64 nums.length) done).res * nums.length +
      (avgLoop (BitVec.ofNat 64 nums.length) done).accumulator.toInt = sumOf done

/-- In every iteration there is room for the next value. -/
def AllInRoom (nums : List (BitVec 64)) : Prop :=
  ∀ done x rest, nums = done ++ x :: rest → InRoom nums.length (sumOf done)
    (avgLoop (BitVec.ofNat 64 nums.length) done).accumulator.toInt x.toNat

section
variable {nums : List (BitVec 64)}

/-- Before the first value the accumulator is 0, so with a single value the
    guards never see another one. -/
theorem accumulator_long {done rest : List (BitVec 64)} {x : BitVec 64}
    (h : nums = done ++ x :: rest) (size : BitVec 64)
    (hacc : (avgLoop size done).accumulator.toInt ≠ 0) : 2 ≤ nums.length := by
  have hne : done ≠ [] := by
    rintro rfl
    exact hacc rfl
  have hlen := List.length_pos_of_ne_nil hne
  rw [h, List.length_append, List.length_cons]
  omega

/-- **Loop invariant**: as long as the additions fit. -/
theorem avgInv_loop (hpos : 0 < nums.length) (hlt : nums.length < 2 ^ 63)
    (hfits : ∀ done x rest, nums = done ++ x :: rest →
      AvgInv nums.length (sumOf done) (avgLoop (BitVec.ofNat 64 nums.length) done) →
      (rebalance (BitVec.ofNat 64 nums.length) x
        (avgLoop (BitVec.ofNat 64 nums.length) done)).Fits x)
    (done : List (BitVec 64)) {rest : List (BitVec 64)} (h : nums = done ++ rest) :
    AvgInv nums.length (sumOf done) (avgLoop (BitVec.ofNat 64 nums.length) done) := by
  induction done using List.reverseRecOn generalizing rest with
  | nil => exact ⟨⟨0, by simp [avgLoop], by simp [avgLoop, sumOf]⟩, by simp [avgLoop]⟩
  | append_singleton done x ih =>
    rw [List.append_assoc, List.singleton_append] at h
    have hinv := ih h
    rw [sumOf_snoc, avgLoop_snoc]
    exact hinv.round hpos hlt (accumulator_long h _) (hfits done x rest h hinv)

theorem GuardsSound.of_invariant (hpos : 0 < nums.length) (hlt : nums.length < 2 ^ 63)
    (hfits : ∀ done x rest, nums = done ++ x :: rest →
      AvgInv nums.length (sumOf done) (avgLoop (BitVec.ofNat 64 nums.length) done) →
      (rebalance (BitVec.ofNat 64 nums.length) x
        (avgLoop (BitVec.ofNat 64 nums.length) done)).Fits x) : GuardsSound nums where
  fits done x rest h := hfits done x rest h (avgInv_loop hpos hlt hfits done h)
  sum done rest h := by
    obtain ⟨q, hres, hsum⟩ := (avgInv_loop hpos hlt hfits done h).split
    rw [hres]
    exact_mod_cast hsum

/-- **The guards**: on values up to `2 ^ 64 - 1` they do their job exactly
    when every iteration has room for its value. -/
theorem guardsSound_iff (hne : nums ≠ []) (hlt : nums.length < 2 ^ 63) :
    GuardsSound nums ↔ AllInRoom nums := by
  have hpos := List.length_pos_of_ne_nil hne
  constructor
  · intro hsound done x rest h
    have hinv := avgInv_loop hpos hlt (fun done x rest h _ => hsound.fits done x rest h) done h
    exact (hinv.fits_iff hpos hlt (accumulator_long h _) x).mp (hsound.fits done x rest h)
  · intro hroom
    apply GuardsSound.of_invariant hpos hlt
    intro done x rest h hinv
    exact (hinv.fits_iff hpos hlt (accumulator_long h _) x).mpr (hroom done x rest h)

/-- There is room for values that stay below `2 ^ 63` by the number of
    values. -/
theorem inRoom_small {n x : ℕ} (hpos : 0 < n) (hx : x + n < 2 ^ 63) (sum : ℕ)
    (accumulator : ℤ) : InRoom n sum accumulator x := by
  have hrest := Nat.mod_lt sum hpos
  unfold InRoom
  split <;> omega

/-- On such values every addition fits. -/
theorem avgInv_small (hpos : 0 < nums.length) (hlt : nums.length < 2 ^ 63)
    (hsmall : ∀ x ∈ nums, x.toNat + nums.length < 2 ^ 63) :
    AvgInv nums.length (sumOf nums) (avgLoop (BitVec.ofNat 64 nums.length) nums) := by
  refine avgInv_loop hpos hlt ?_ nums (List.append_nil nums).symm
  intro done x rest h hinv
  have hx := hsmall x (by rw [h]; simp)
  exact (hinv.fits_iff hpos hlt (accumulator_long h _) x).mpr (inRoom_small hpos hx _ _)

/-- The size is a proper divisor for signed division. -/
theorem size_ne {n : ℕ} (hpos : 0 < n) (hlt : n < 2 ^ 63) :
    BitVec.ofNat 64 n ≠ 0 ∧ BitVec.ofNat 64 n ≠ -1#64 := by
  have hsize := size_toInt hlt
  constructor
  · intro hzero
    rw [hzero] at hsize
    have hz : (0 : BitVec 64).toInt = 0 := by decide
    omega
  · intro hone
    rw [hone] at hsize
    have hz : (-1#64).toInt = -1 := by decide
    omega

/-- Quotient and rest make up the accumulator again. -/
theorem AvgInv.total {n S : ℕ} {v : AvgVars} (h : AvgInv n S v) (hpos : 0 < n) :
    v.res + (v.accumulator.toInt.tdiv n : ℤ) + ((v.accumulator.toInt.tmod n : ℤ) : ℚ) / (n : ℤ) =
      (S : ℚ) / n := by
  obtain ⟨q, hres, hsum⟩ := h.split
  have hn : (n : ℚ) ≠ 0 := by exact_mod_cast hpos.ne'
  have hdiv : (n : ℚ) * (v.accumulator.toInt.tdiv n : ℤ) + (v.accumulator.toInt.tmod n : ℤ) =
      v.accumulator.toInt := by
    exact_mod_cast Int.mul_tdiv_add_tmod v.accumulator.toInt n
  have hsum' : (q : ℚ) * n + v.accumulator.toInt = S := by exact_mod_cast hsum
  rw [hres, eq_div_iff hn]
  push_cast
  field_simp
  linear_combination hsum' + hdiv

theorem sumOf_le {bound : ℕ} (h : ∀ x ∈ nums, x.toNat ≤ bound) :
    sumOf nums ≤ nums.length * bound := by
  have hle := List.sum_le_card_nsmul (nums.map BitVec.toNat) bound (by
    intro y hy
    obtain ⟨x, hx, rfl⟩ := List.mem_map.mp hy
    exact h x hx)
  simpa [sumOf] using hle

/-- **The exact mean**: on such values the function returns the mean, rounded
    down. -/
theorem avg_no_overflow_mean (hne : nums ≠ [])
    (hsmall : ∀ x ∈ nums, x.toNat + nums.length < 2 ^ 63) :
    (avg_no_overflow nums).toNat = sumOf nums / nums.length := by
  have hpos := List.length_pos_of_ne_nil hne
  have hlt : nums.length < 2 ^ 63 := by
    obtain ⟨x, hx⟩ := List.exists_mem_of_ne_nil nums hne
    have := hsmall x hx
    omega
  have hinv := avgInv_small hpos hlt hsmall
  obtain ⟨hnz, hneg⟩ := size_ne hpos hlt
  have hmean : sumOf nums / nums.length ≤ 2 ^ 63 := by
    apply Nat.div_le_of_le_mul
    apply sumOf_le
    intro x hx
    have := hsmall x hx
    omega
  unfold avg_no_overflow
  simp only [hnz, if_false, BitVec.toInt_sdiv_of_ne_or_ne _ _ (.inr hneg), BitVec.toInt_srem,
    size_toInt hlt]
  rw [hinv.total hpos, truncate_div, BitVec.ofInt_natCast, BitVec.toNat_ofNat,
    Nat.mod_eq_of_lt (by omega)]

end

/-- Two values that add up to more than the accumulator can hold. -/
theorem avg_no_overflow_two :
    (avg_no_overflow [0x7ffffffffffffffd, 0x7ffffffffffffffb]).toNat = 0x7ffffffffffffffc :=
  (avg_no_overflow_mean (by simp) (by simp)).trans (by simp [sumOf])

/-- Three values with room for each. -/
theorem guardsSound_three : GuardsSound [5, 0, 7] := by
  refine (guardsSound_iff (by simp) (by simp)).mpr ?_
  intro done x rest h
  have hx : x ∈ [5, 0, 7] := by
    rw [h]
    simp
  apply inRoom_small (by simp)
  simp only [List.mem_cons, List.not_mem_nil, or_false] at hx
  rcases hx with rfl | rfl | rfl <;> simp

/-- A single value of `2 ^ 63` does not fit the accumulator. -/
theorem half_range_overflows : ¬ GuardsSound [0x8000000000000000] := by
  intro h
  have hfits := (h.fits [] 0x8000000000000000 [] rfl).2
  simp [rebalance, avgLoop] at hfits

end Pcnt
