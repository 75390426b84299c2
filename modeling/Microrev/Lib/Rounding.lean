import Microrev.Lib.Decimal

/-! # Rounding Errors

    What `roundHalfEven` and `roundDouble` may change: half a unit, half a
    place. Numbers that have a double are kept, powers of two are never
    passed, and for numbers that are not too small the error is relative, so
    that it adds up over a sum of nonnegative terms.
-/

namespace Decimal

/-! ### To Integers -/

theorem abs_roundHalfEven_sub_le (q : ℚ) : |(roundHalfEven q : ℚ) - q| ≤ 1 / 2 := by
  have hle := Int.floor_le q
  have hlt := Int.lt_floor_add_one q
  unfold roundHalfEven
  split_ifs with h1 h2 h3
  · rw [abs_le]
    constructor <;> linarith
  · push_cast
    rw [abs_le]
    constructor <;> linarith
  · rw [abs_le]
    constructor <;> linarith
  · push_cast
    rw [abs_le]
    constructor <;> linarith

/-- An integer nearer than one half is the nearest one. -/
theorem roundHalfEven_eq {q : ℚ} {k : ℤ} (h : |q - k| < 1 / 2) : roundHalfEven q = k := by
  have hround := abs_roundHalfEven_sub_le q
  have hnear : |((roundHalfEven q - k : ℤ) : ℚ)| < 1 := by
    have hsplit := abs_sub_le (roundHalfEven q : ℚ) q k
    push_cast
    linarith
  have hzero : |roundHalfEven q - k| < 1 := by exact_mod_cast hnear
  have hsub := Int.abs_lt_one_iff.mp hzero
  omega

@[simp] theorem roundHalfEven_intCast (k : ℤ) : roundHalfEven k = k :=
  roundHalfEven_eq (by simp)

theorem abs_roundHalfEven_le_nat {q : ℚ} {n : ℕ} (h : |q| < n + 1 / 2) :
    |(roundHalfEven q : ℚ)| ≤ n := by
  have hround := abs_roundHalfEven_sub_le q
  have hlt : |(roundHalfEven q : ℚ)| < n + 1 := by
    have hsplit := abs_sub_abs_le_abs_sub (roundHalfEven q : ℚ) q
    linarith
  have hint : |roundHalfEven q| < n + 1 := by exact_mod_cast hlt
  have hle : |roundHalfEven q| ≤ n := Int.lt_add_one_iff.mp hint
  exact_mod_cast hle

theorem natCast_le_roundHalfEven {q : ℚ} {n : ℕ} (h : (n : ℚ) ≤ q) : (n : ℤ) ≤ roundHalfEven q := by
  have hround := abs_le.mp (abs_roundHalfEven_sub_le q)
  have hlt : ((n : ℤ) : ℚ) - 1 < roundHalfEven q := by
    push_cast
    linarith
  have hint : (n : ℤ) - 1 < roundHalfEven q := by exact_mod_cast hlt
  omega

/-! ### To Doubles -/

theorem ulpExponent_of_log {x : ℚ} (h : -1022 ≤ Int.log 2 |x|) :
    ulpExponent x = Int.log 2 |x| - 52 := by
  unfold ulpExponent
  omega

/-- Half a unit in the last place. -/
theorem abs_roundDouble_sub_le (x : ℚ) : |roundDouble x - x| ≤ 2 ^ ulpExponent x / 2 := by
  have hpos : (0 : ℚ) < 2 ^ ulpExponent x := by positivity
  have hround := abs_roundHalfEven_sub_le (x / 2 ^ ulpExponent x)
  have hscale : roundDouble x - x =
      (roundHalfEven (x / 2 ^ ulpExponent x) - x / 2 ^ ulpExponent x) * 2 ^ ulpExponent x := by
    unfold roundDouble
    field_simp
  rw [hscale, abs_mul, abs_of_pos hpos]
  calc |(roundHalfEven (x / 2 ^ ulpExponent x) : ℚ) - x / 2 ^ ulpExponent x| * 2 ^ ulpExponent x
      ≤ 1 / 2 * 2 ^ ulpExponent x := mul_le_mul_of_nonneg_right hround hpos.le
    _ = 2 ^ ulpExponent x / 2 := by ring

/-- **Relative error**, away from the subnormal numbers. -/
theorem abs_roundDouble_sub_le_mul {x : ℚ} (h : 2 ^ (-1022 : ℤ) ≤ |x|) :
    |roundDouble x - x| ≤ |x| / 2 ^ 53 := by
  have hpos : 0 < |x| := lt_of_lt_of_le (by positivity) h
  have hlog : -1022 ≤ Int.log 2 |x| :=
    (Int.zpow_le_iff_le_log (by decide) hpos).mp (by simpa using h)
  have hle : (2 : ℚ) ^ Int.log 2 |x| ≤ |x| := by
    have hself := Int.zpow_log_le_self (b := 2) (by decide) hpos
    simpa using hself
  calc |roundDouble x - x| ≤ 2 ^ ulpExponent x / 2 := abs_roundDouble_sub_le x
    _ = 2 ^ Int.log 2 |x| / 2 ^ 53 := by
        rw [ulpExponent_of_log hlog, zpow_sub₀ (by norm_num)]
        norm_num
        ring
    _ ≤ |x| / 2 ^ 53 := by gcongr

@[simp] theorem roundDouble_zero : roundDouble 0 = 0 := by
  have hzero : roundHalfEven 0 = 0 := by exact_mod_cast roundHalfEven_intCast 0
  simp [roundDouble, hzero]

theorem roundDouble_nonneg {x : ℚ} (h : 0 ≤ x) : 0 ≤ roundDouble x := by
  have hpos : (0 : ℚ) < 2 ^ ulpExponent x := by positivity
  have hint : (0 : ℤ) ≤ roundHalfEven (x / 2 ^ ulpExponent x) := by
    exact_mod_cast natCast_le_roundHalfEven (n := 0) (by simpa using div_nonneg h hpos.le)
  have hcast : (0 : ℚ) ≤ roundHalfEven (x / 2 ^ ulpExponent x) := by exact_mod_cast hint
  exact mul_nonneg hcast hpos.le

/-- An integer of up to 53 bits is a double. -/
theorem roundDouble_natCast {n : ℕ} (h : n < 2 ^ 53) : roundDouble n = n := by
  rcases Nat.eq_zero_or_pos n with rfl | hn
  · simp
  have hpos : (0 : ℚ) < |(n : ℚ)| := by simpa using hn
  have hlog : Int.log 2 |(n : ℚ)| < 53 := by
    rw [← Int.lt_zpow_iff_log_lt (by decide) hpos, Nat.abs_cast]
    exact_mod_cast h
  -- the unit in the last place is at most 1, so it divides the number
  obtain ⟨d, hd⟩ : ∃ d : ℕ, ulpExponent n = -d := by
    refine ⟨(-ulpExponent n).toNat, ?_⟩
    unfold ulpExponent
    omega
  have hint : (n : ℚ) / 2 ^ ulpExponent (n : ℚ) = ((n * 2 ^ d : ℤ) : ℚ) := by
    rw [hd, zpow_neg, div_inv_eq_mul, zpow_natCast]
    push_cast
    ring
  unfold roundDouble
  rw [hint, roundHalfEven_intCast, ← hint]
  field_simp

/-- A power of two is passed by rounding only from beyond the middle to the
    next double. -/
theorem abs_roundDouble_le_pow {x : ℚ} {k : ℕ} (hk : 53 ≤ k) (h : |x| < 2 ^ k + 2 ^ (k - 53)) :
    |roundDouble x| ≤ 2 ^ k := by
  by_cases hx : x = 0
  · simp [hx]
  have hpos : 0 < |x| := abs_pos.mpr hx
  have hle : (2 : ℚ) ^ (k - 53) ≤ 2 ^ k := pow_le_pow_right₀ (by norm_num) (by omega)
  have hlog : Int.log 2 |x| < (k : ℤ) + 1 := by
    rw [← Int.lt_zpow_iff_log_lt (by decide) hpos]
    have hdouble : ((2 : ℕ) : ℚ) ^ ((k : ℤ) + 1) = 2 * 2 ^ k := by
      rw [zpow_add_one₀ (by norm_num), zpow_natCast]
      push_cast
      ring
    rw [hdouble]
    linarith
  have hulp : ulpExponent x ≤ (k : ℤ) - 52 := by
    unfold ulpExponent
    omega
  obtain ⟨d, hd⟩ : ∃ d : ℕ, (k : ℤ) = ulpExponent x + d := ⟨(k - ulpExponent x).toNat, by omega⟩
  have hpow : (2 : ℚ) ^ k = 2 ^ d * 2 ^ ulpExponent x := by
    rw [← zpow_natCast, hd, zpow_add₀ (by norm_num), zpow_natCast, mul_comm]
  have hulpos : (0 : ℚ) < 2 ^ ulpExponent x := by positivity
  have hscaled : |x / 2 ^ ulpExponent x| < (2 ^ d : ℕ) + 1 / 2 := by
    rw [abs_div, abs_of_pos hulpos, div_lt_iff₀ hulpos]
    push_cast
    rcases lt_or_ge |x| (2 ^ k) with hlt | hge
    · rw [hpow] at hlt
      linarith
    · -- between the power and the middle, the places are those of the power
      have hlog' : (k : ℤ) ≤ Int.log 2 |x| := by
        rw [← Int.zpow_le_iff_le_log (by decide) hpos, zpow_natCast]
        exact_mod_cast hge
      have hexact : ulpExponent x = (k : ℤ) - 52 := by
        rw [ulpExponent_of_log (by omega)]
        omega
      have hhalf : (2 : ℚ) ^ (k - 53) = 2 ^ ulpExponent x / 2 := by
        rw [hexact, ← zpow_natCast, eq_div_iff (by norm_num), ← zpow_add_one₀ (by norm_num)]
        congr 1
        omega
      calc |x| < 2 ^ k + 2 ^ (k - 53) := h
        _ = (2 ^ d + 1 / 2) * 2 ^ ulpExponent x := by
            rw [hpow, hhalf]
            ring
  have hround := abs_roundHalfEven_le_nat hscaled
  push_cast at hround
  unfold roundDouble
  rw [abs_mul, abs_of_pos hulpos, hpow]
  exact mul_le_mul_of_nonneg_right hround hulpos.le

/-- From above it is not passed either. -/
theorem pow_le_roundDouble {x : ℚ} {k : ℕ} (h : 2 ^ k ≤ x) : 2 ^ k ≤ roundDouble x := by
  have hx : 0 < x := lt_of_lt_of_le (by positivity) h
  have habs : |x| = x := abs_of_pos hx
  have hlog : (k : ℤ) ≤ Int.log 2 |x| := by
    rw [habs, ← Int.zpow_le_iff_le_log (by decide) hx, zpow_natCast]
    exact_mod_cast h
  have hself : (2 : ℚ) ^ Int.log 2 |x| ≤ x := by
    have hle := Int.zpow_log_le_self (b := 2) (r := x) (by decide) hx
    rw [habs]
    simpa using hle
  have hulp := ulpExponent_of_log (x := x) (by omega)
  have hulpos : (0 : ℚ) < 2 ^ ulpExponent x := by positivity
  have hsplit : (2 : ℚ) ^ Int.log 2 |x| = 2 ^ 52 * 2 ^ ulpExponent x := by
    rw [hulp, ← zpow_natCast, ← zpow_add₀ (by norm_num)]
    congr 1
    push_cast
    ring
  have hround : ((2 ^ 52 : ℕ) : ℤ) ≤ roundHalfEven (x / 2 ^ ulpExponent x) := by
    apply natCast_le_roundHalfEven
    rw [le_div_iff₀ hulpos, Nat.cast_pow, Nat.cast_ofNat, ← hsplit]
    exact hself
  have hcast : (2 : ℚ) ^ 52 ≤ roundHalfEven (x / 2 ^ ulpExponent x) := by exact_mod_cast hround
  calc (2 : ℚ) ^ k ≤ 2 ^ Int.log 2 |x| := by
        rw [← zpow_natCast]
        exact zpow_le_zpow_right₀ (by norm_num) hlog
    _ = 2 ^ 52 * 2 ^ ulpExponent x := hsplit
    _ ≤ roundDouble x := mul_le_mul_of_nonneg_right hcast hulpos.le

/-! ### Sums -/

/-- The relative error of `k` roundings in sequence. -/
def gamma (k : ℕ) : ℚ := (1 + 1 / 2 ^ 53) ^ k - 1

@[simp] theorem gamma_zero : gamma 0 = 0 := by simp [gamma]

theorem gamma_succ (k : ℕ) : gamma (k + 1) = gamma k + (1 + gamma k) / 2 ^ 53 := by
  unfold gamma
  ring

theorem gamma_mono {j k : ℕ} (h : j ≤ k) : gamma j ≤ gamma k :=
  sub_le_sub_right (pow_le_pow_right₀ (by norm_num) h) 1

/-- For fewer than `2 ^ 31` roundings it is less than half a unit in the sixth
    place. -/
theorem gamma_lt {k : ℕ} (h : k ≤ 2 ^ 31 + 1) : gamma k < 1 / (2 * 10 ^ 6) := by
  have hk : (k : ℚ) / 2 ^ 53 ≤ (2 ^ 31 + 1) / 2 ^ 53 := by
    have hcast : (k : ℚ) ≤ 2 ^ 31 + 1 := by exact_mod_cast h
    gcongr
  -- the powers of 1 + u and of 1 - u are inverse to each other, nearly
  have hbelow : 1 - (k : ℚ) / 2 ^ 53 ≤ (1 - 1 / 2 ^ 53) ^ k := by
    have hbernoulli := one_add_mul_le_pow (show (-2 : ℚ) ≤ -(1 / 2 ^ 53) by norm_num) k
    calc 1 - (k : ℚ) / 2 ^ 53 = 1 + k * -(1 / 2 ^ 53) := by ring
      _ ≤ (1 + -(1 / 2 ^ 53)) ^ k := hbernoulli
      _ = (1 - 1 / 2 ^ 53) ^ k := by rw [← sub_eq_add_neg]
  have hprod : (1 + 1 / 2 ^ 53 : ℚ) ^ k * (1 - 1 / 2 ^ 53) ^ k ≤ 1 := by
    rw [← mul_pow]
    exact pow_le_one₀ (by norm_num) (by norm_num)
  have hpow : (0 : ℚ) ≤ (1 + 1 / 2 ^ 53) ^ k := by positivity
  have hmul : (1 + 1 / 2 ^ 53 : ℚ) ^ k * (1 - (2 ^ 31 + 1) / 2 ^ 53) ≤ 1 := by
    calc (1 + 1 / 2 ^ 53 : ℚ) ^ k * (1 - (2 ^ 31 + 1) / 2 ^ 53)
        ≤ (1 + 1 / 2 ^ 53) ^ k * (1 - 1 / 2 ^ 53) ^ k :=
          mul_le_mul_of_nonneg_left (by linarith) hpow
      _ ≤ 1 := hprod
  have hbound : (1 + 1 / 2 ^ 53 : ℚ) ^ k ≤ 1 / (1 - (2 ^ 31 + 1) / 2 ^ 53) := by
    rw [le_div_iff₀ (by norm_num)]
    exact hmul
  unfold gamma
  calc (1 + 1 / 2 ^ 53 : ℚ) ^ k - 1 ≤ 1 / (1 - (2 ^ 31 + 1) / 2 ^ 53) - 1 := by linarith
    _ < 1 / (2 * 10 ^ 6) := by norm_num

/-- One rounding more. -/
theorem roundDouble_error {x t : ℚ} {k : ℕ} (ht : 0 ≤ t) (hx : |x - t| ≤ gamma k * t)
    (hlarge : t = 0 ∨ 2 ^ (-1021 : ℤ) ≤ t) (hk : gamma k ≤ 1 / 2) :
    |roundDouble x - t| ≤ gamma (k + 1) * t := by
  rcases hlarge with rfl | hlarge
  · rw [mul_zero] at hx ⊢
    have hx0 : x = 0 := by simpa using abs_nonpos_iff.mp hx
    simp [hx0]
  · have hscaled : gamma k * t ≤ 1 / 2 * t := mul_le_mul_of_nonneg_right hk ht
    have hfine : (2 : ℚ) ^ (-1021 : ℤ) = 2 ^ (-1022 : ℤ) * 2 := by
      rw [← zpow_add_one₀ (by norm_num)]
      norm_num
    have habs : |x| ≤ (1 + gamma k) * t := by
      have hsplit := abs_sub_abs_le_abs_sub x t
      rw [abs_of_nonneg ht] at hsplit
      linarith
    have hnormal : (2 : ℚ) ^ (-1022 : ℤ) ≤ |x| := by
      have hsplit := abs_sub_abs_le_abs_sub t x
      rw [abs_of_nonneg ht, abs_sub_comm] at hsplit
      linarith
    have hround := abs_roundDouble_sub_le_mul hnormal
    calc |roundDouble x - t| ≤ |roundDouble x - x| + |x - t| := abs_sub_le _ _ _
      _ ≤ |x| / 2 ^ 53 + gamma k * t := add_le_add hround hx
      _ ≤ (1 + gamma k) * t / 2 ^ 53 + gamma k * t := by gcongr
      _ = gamma (k + 1) * t := by
          rw [gamma_succ]
          ring

theorem foldl_roundDouble_nonneg {α : Type*} {y : α → ℚ} (l : List α) {acc : ℚ} (hacc : 0 ≤ acc)
    (hy : ∀ a ∈ l, 0 ≤ y a) : 0 ≤ l.foldl (fun acc a => roundDouble (acc + y a)) acc := by
  induction l generalizing acc with
  | nil => exact hacc
  | cons a l ih =>
    apply ih
    · exact roundDouble_nonneg (add_nonneg hacc (hy a List.mem_cons_self))
    · exact fun b hb => hy b (List.mem_cons_of_mem a hb)

/-- **A rounded sum** of nonnegative terms, themselves known up to `j`
    roundings; `k` terms have been added before. -/
theorem foldl_roundDouble_error {α : Type*} {y t : α → ℚ} {j : ℕ} (l : List α) {k : ℕ}
    {acc sum : ℚ} (ht : ∀ a ∈ l, 0 ≤ t a ∧ |y a - t a| ≤ gamma j * t a ∧
      (t a = 0 ∨ 2 ^ (-1021 : ℤ) ≤ t a))
    (hsum : 0 ≤ sum) (hacc : |acc - sum| ≤ gamma (j + k) * sum)
    (hlarge : sum = 0 ∨ 2 ^ (-1021 : ℤ) ≤ sum) (hk : gamma (j + k + l.length) ≤ 1 / 2) :
    |l.foldl (fun acc a => roundDouble (acc + y a)) acc - (sum + (l.map t).sum)| ≤
      gamma (j + k + l.length) * (sum + (l.map t).sum) := by
  induction l generalizing k acc sum with
  | nil => simpa using hacc
  | cons a l ih =>
    obtain ⟨hta, hya, hla⟩ := ht a List.mem_cons_self
    have hmono : gamma j * t a ≤ gamma (j + k) * t a :=
      mul_le_mul_of_nonneg_right (gamma_mono (by omega)) hta
    have hterm : |acc + y a - (sum + t a)| ≤ gamma (j + k) * (sum + t a) := by
      calc |acc + y a - (sum + t a)| = |(acc - sum) + (y a - t a)| := by
            congr 1
            ring
        _ ≤ |acc - sum| + |y a - t a| := abs_add_le _ _
        _ ≤ gamma (j + k) * (sum + t a) := by linarith
    have hlarge' : sum + t a = 0 ∨ 2 ^ (-1021 : ℤ) ≤ sum + t a := by
      rcases hlarge with rfl | hs
      · simpa using hla
      · exact .inr (by linarith)
    have hstep := roundDouble_error (add_nonneg hsum hta) hterm hlarge'
      ((gamma_mono (by omega)).trans hk)
    have hcount : j + k + (l.length + 1) = j + (k + 1) + l.length := by omega
    rw [List.length_cons, hcount] at hk ⊢
    rw [List.foldl_cons, List.map_cons, List.sum_cons, ← add_assoc]
    exact ih (fun b hb => ht b (List.mem_cons_of_mem a hb)) (add_nonneg hsum hta) hstep hlarge' hk

end Decimal
