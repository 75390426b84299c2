import Mathlib.Data.List.DropRight
import Microrev.Lib.Rounding

/-! # Six Significant Digits

    The number that a printed double stands for: six significant digits of it,
    scaled by a power of ten, in any of the three formats. So exactly the
    integers with at most six digits before trailing zeros are printed and
    read back unchanged, also from a double that is only near to them.
-/

namespace Decimal

open Text

/-! ### The Printed Value -/

/-- Digits after the point may be left out if they are zeros. -/
theorem ofDigitChars_trim (ws ds : Text) :
    (Nat.ofDigitChars 10 (ws ++ trim ds) 0 : ℚ) * 10 ^ (-(trim ds).length : ℤ) =
      Nat.ofDigitChars 10 (ws ++ ds) 0 * 10 ^ (-ds.length : ℤ) := by
  obtain ⟨z, hz⟩ : ∃ z, ds = trim ds ++ List.replicate z '0' := by
    refine ⟨(ds.rtakeWhile (· == '0')).length, ?_⟩
    have hzeros : ds.rtakeWhile (· == '0') =
        List.replicate (ds.rtakeWhile (· == '0')).length '0' := by
      rw [List.eq_replicate_length]
      intro c hc
      simpa using List.mem_rtakeWhile_imp hc
    unfold trim
    rw [← hzeros, List.rdropWhile_append_rtakeWhile]
  have hvalue : Nat.ofDigitChars 10 (ws ++ ds) 0 =
      10 ^ z * Nat.ofDigitChars 10 (ws ++ trim ds) 0 := by
    conv_lhs => rw [hz]
    rw [← List.append_assoc, Nat.ofDigitChars_append, Nat.ofDigitChars_replicate_zero]
  have hlen : (ds.length : ℤ) = (trim ds).length + z := by
    conv_lhs => rw [hz]
    rw [List.length_append, List.length_replicate]
    push_cast
    rfl
  rw [hvalue, hlen, neg_add, zpow_add₀ (by norm_num), zpow_neg (10 : ℚ) z, zpow_natCast]
  push_cast
  field_simp

/-- A number between powers of ten, scaled to six digits. -/
theorem scaled_bounds {x : ℚ} (hx : 0 < x) :
    ((10 ^ 5 : ℕ) : ℚ) ≤ x / 10 ^ (Int.log 10 x - 5) ∧
      x / 10 ^ (Int.log 10 x - 5) < ((10 ^ 6 : ℕ) : ℚ) := by
  have hpos : (0 : ℚ) < 10 ^ (Int.log 10 x - 5) := by positivity
  have hle := Int.zpow_log_le_self (b := 10) (by decide) hx
  have hlt := Int.lt_zpow_succ_log_self (b := 10) (by decide) x
  have hfive : (10 : ℚ) ^ Int.log 10 x = 10 ^ 5 * 10 ^ (Int.log 10 x - 5) := by
    rw [zpow_sub₀ (by norm_num)]
    field_simp
  rw [zpow_add_one₀ (by norm_num)] at hlt
  push_cast at hle hlt
  rw [hfive] at hle hlt
  constructor
  · rw [le_div_iff₀ hpos]
    exact_mod_cast hle
  · rw [div_lt_iff₀ hpos]
    calc x < 10 ^ 5 * 10 ^ (Int.log 10 x - 5) * 10 := hlt
      _ = ((10 ^ 6 : ℕ) : ℚ) * 10 ^ (Int.log 10 x - 5) := by
          push_cast
          ring

theorem significant_bounds {x : ℚ} (hx : 0 < x) :
    10 ^ 5 ≤ (significant x).1 ∧ (significant x).1 < 10 ^ 6 := by
  obtain ⟨hlo, hhi⟩ := scaled_bounds hx
  have hge := natCast_le_roundHalfEven hlo
  have hle : (roundHalfEven (x / 10 ^ (Int.log 10 x - 5)) : ℚ) ≤ (10 ^ 6 : ℕ) := by
    apply (le_abs_self _).trans
    apply abs_roundHalfEven_le_nat
    rw [abs_of_nonneg ((Nat.cast_nonneg _).trans hlo)]
    linarith
  have hle' : roundHalfEven (x / 10 ^ (Int.log 10 x - 5)) ≤ (10 ^ 6 : ℕ) := by exact_mod_cast hle
  unfold significant
  simp only
  split
  · exact ⟨le_rfl, by norm_num⟩
  · simp only
    omega

theorem length_toDigits_six {m : ℕ} (hlo : 10 ^ 5 ≤ m) (hhi : m < 10 ^ 6) :
    (Nat.toDigits 10 m).length = 6 := by
  have hle : (Nat.toDigits 10 m).length ≤ 6 :=
    (Nat.length_toDigits_le_iff (by decide) (by decide)).mpr hhi
  have hgt : ¬ (Nat.toDigits 10 m).length ≤ 5 := by
    rw [Nat.length_toDigits_le_iff (by decide) (by decide)]
    omega
  omega

/-- **The value of a printed double.** -/
theorem value_doubleNumeral {x : ℚ} (hx : 0 < x) :
    (doubleNumeral x).value = (significant x).1 * 10 ^ ((significant x).2 - 5) := by
  obtain ⟨hlo, hhi⟩ := significant_bounds hx
  have hlen := length_toDigits_six hlo hhi
  have habs : |x| = x := abs_of_pos hx
  have hneg : ¬ x < 0 := not_lt.mpr hx.le
  unfold doubleNumeral Numeral.value
  simp only [habs]
  -- digits before the point, a leading zero, and an exponent
  split_ifs with h0 h1 h2
  · exact absurd h0 hx.ne'
  · simp only [Numeral.exp, hneg, decide_false, signedValue, Bool.false_eq_true, if_false]
    have htrim := ofDigitChars_trim
      ((Nat.toDigits 10 (significant x).1).take ((significant x).2.toNat + 1))
      ((Nat.toDigits 10 (significant x).1).drop ((significant x).2.toNat + 1))
    rw [List.take_append_drop, Nat.ofDigitChars_ten_toDigits, List.length_drop, hlen] at htrim
    rw [zero_sub, Int.cast_natCast, htrim]
    congr 2
    omega
  · simp only [Numeral.exp, hneg, decide_false, signedValue, Bool.false_eq_true, if_false]
    have htrim := ofDigitChars_trim ['0']
      (List.replicate (-(significant x).2 - 1).toNat '0' ++ Nat.toDigits 10 (significant x).1)
    have hdigits : Nat.ofDigitChars 10 (['0'] ++
        (List.replicate (-(significant x).2 - 1).toNat '0' ++
          Nat.toDigits 10 (significant x).1)) 0 = (significant x).1 := by
      rw [Nat.ofDigitChars_append, Nat.ofDigitChars_append, Nat.ofDigitChars_replicate_zero]
      exact Nat.ofDigitChars_ten_toDigits
    rw [hdigits, List.length_append, hlen, List.length_replicate] at htrim
    rw [zero_sub, Int.cast_natCast, htrim]
    congr 2
    omega
  · simp only [Numeral.exp, hneg, decide_false, signedValue, Bool.false_eq_true, if_false]
    have htrim := ofDigitChars_trim ((Nat.toDigits 10 (significant x).1).take 1)
      ((Nat.toDigits 10 (significant x).1).drop 1)
    rw [List.take_append_drop, Nat.ofDigitChars_ten_toDigits, List.length_drop, hlen] at htrim
    have hexp : (if decide ((significant x).2 < 0) = true then
        -((Nat.ofDigitChars 10 (twoDigits (significant x).2.natAbs) 0 : ℕ) : ℤ)
        else (Nat.ofDigitChars 10 (twoDigits (significant x).2.natAbs) 0 : ℕ)) =
          (significant x).2 := by
      rw [ofDigitChars_twoDigits]
      simp only [decide_eq_true_eq]
      split <;> omega
    rw [hexp, Int.cast_natCast, sub_eq_add_neg, zpow_add₀ (by norm_num), mul_left_comm, htrim,
      sub_eq_add_neg, zpow_add₀ (by norm_num)]
    norm_num
    ring

/-! ### Integers with Six Digits -/

/-- At most six digits, and then zeros. -/
def SixDigits (m : ℕ) : Prop := ∃ d k, d < 10 ^ 6 ∧ m = d * 10 ^ k

theorem SixDigits.of_lt {m : ℕ} (h : m < 10 ^ 6) : SixDigits m := ⟨m, 0, h, by simp⟩

/-- The six digits, counted from the first one. -/
theorem SixDigits.leading {m : ℕ} (h : SixDigits m) (hm : 0 < m) :
    ∃ M : ℕ, (m : ℚ) = M * 10 ^ (Int.log 10 (m : ℚ) - 5) ∧ 10 ^ 5 ≤ M ∧ M < 10 ^ 6 := by
  obtain ⟨d, k, hd, hdk⟩ := h
  have hlog : Nat.log 10 m < k + 6 := by
    apply Nat.log_lt_of_lt_pow hm.ne'
    calc m = d * 10 ^ k := hdk
      _ < 10 ^ 6 * 10 ^ k := Nat.mul_lt_mul_of_pos_right hd (by positivity)
      _ = 10 ^ (k + 6) := by rw [pow_add, Nat.mul_comm]
  obtain ⟨j, hj⟩ := Nat.exists_eq_add_of_le (Nat.le_of_lt_succ hlog)
  have hvalue : (m : ℚ) = (d * 10 ^ j : ℕ) * 10 ^ (Int.log 10 (m : ℚ) - 5) := by
    have hexp : (j : ℤ) + (Nat.log 10 m - 5) = k := by omega
    rw [Int.log_natCast, Nat.cast_mul, Nat.cast_pow, Nat.cast_ofNat, mul_assoc, ← zpow_natCast,
      ← zpow_add₀ (by norm_num), hexp, zpow_natCast]
    exact_mod_cast hdk
  have hpos : (0 : ℚ) < 10 ^ (Int.log 10 (m : ℚ) - 5) := by positivity
  obtain ⟨hlo, hhi⟩ := scaled_bounds (x := m) (by exact_mod_cast hm)
  have hscaled : (m : ℚ) / 10 ^ (Int.log 10 (m : ℚ) - 5) = (d * 10 ^ j : ℕ) := by
    rw [div_eq_iff hpos.ne']
    exact hvalue
  rw [hscaled] at hlo hhi
  exact ⟨d * 10 ^ j, hvalue, by exact_mod_cast hlo, by exact_mod_cast hhi⟩

/-- **Near to six digits**: a number that differs from `m` by less than half a
    unit in the sixth place is printed as `m`. -/
theorem value_near {m : ℕ} {x : ℚ} (h : SixDigits m) (hm : 0 < m)
    (hnear : |x - m| < m / (2 * 10 ^ 6)) : (doubleNumeral x).value = m := by
  obtain ⟨M, hvalue, hlo, hhi⟩ := h.leading hm
  generalize Int.log 10 (m : ℚ) = e at hvalue
  have hu : (0 : ℚ) < 10 ^ (e - 5) := by positivity
  have hMlo : (10 : ℚ) ^ 5 ≤ M := by exact_mod_cast hlo
  have hMhi : (M : ℚ) ≤ 10 ^ 6 - 1 := by
    have hle : M + 1 ≤ 10 ^ 6 := hhi
    have hcast : ((M + 1 : ℕ) : ℚ) ≤ 10 ^ 6 := by exact_mod_cast hle
    push_cast at hcast
    linarith
  generalize hunit : (10 : ℚ) ^ (e - 5) = u at hvalue hu
  have hten : (10 : ℚ) ^ (e + 1) = 10 ^ 6 * u := by
    rw [← hunit, ← zpow_natCast, ← zpow_add₀ (by norm_num)]
    congr 1
    push_cast
    ring
  have hfour : (10 : ℚ) ^ (e - 1) = 10 ^ 4 * u := by
    rw [← hunit, ← zpow_natCast, ← zpow_add₀ (by norm_num)]
    congr 1
    push_cast
    ring
  have hfive : (10 : ℚ) ^ e = 10 ^ 5 * u := by
    rw [← hunit, ← zpow_natCast, ← zpow_add₀ (by norm_num)]
    congr 1
    push_cast
    ring
  rw [hvalue, abs_lt] at hnear
  obtain ⟨hbelow, habove⟩ := hnear
  have hMu : (M : ℚ) * u ≤ (10 ^ 6 - 1) * u := mul_le_mul_of_nonneg_right hMhi hu.le
  have hMl : (10 : ℚ) ^ 5 * u ≤ M * u := mul_le_mul_of_nonneg_right hMlo hu.le
  have hx : 0 < x := by linarith
  have hupper : Int.log 10 x < e + 1 := by
    rw [← Int.lt_zpow_iff_log_lt (by decide) hx, Nat.cast_ofNat, hten]
    linarith
  have hlower : e - 1 ≤ Int.log 10 x := by
    rw [← Int.zpow_le_iff_le_log (by decide) hx, Nat.cast_ofNat, hfour]
    linarith
  rw [value_doubleNumeral hx]
  unfold significant
  rcases (show Int.log 10 x = e ∨ Int.log 10 x = e - 1 by omega) with hlog | hlog
  · have hround : roundHalfEven (x / u) = (M : ℤ) := by
      apply roundHalfEven_eq
      rw [abs_lt, Int.cast_natCast]
      constructor
      · rw [lt_sub_iff_add_lt, lt_div_iff₀ hu]
        linarith
      · rw [sub_lt_iff_lt_add, div_lt_iff₀ hu]
        linarith
    simp only [hlog, hunit, hround, Int.toNat_natCast]
    rw [if_neg (by omega), hunit, hvalue]
  · -- just below a power of ten, which is `m`
    have hxlt : x < 10 ^ 5 * u := by
      rw [← hfive]
      have hlt := (Int.lt_zpow_iff_log_lt (b := 10) (x := e) (by decide) hx).mpr (by omega)
      exact_mod_cast hlt
    have hMeq : M = 10 ^ 5 := by
      have hlt : (M : ℚ) * u < (10 ^ 5 + 1) * u := by linarith
      have hMlt : (M : ℚ) < 10 ^ 5 + 1 := lt_of_mul_lt_mul_right hlt hu.le
      have hnat : M < 10 ^ 5 + 1 := by exact_mod_cast hMlt
      omega
    have hfine : (10 : ℚ) ^ (e - 1 - 5) = u / 10 := by
      rw [← hunit, eq_div_iff (by norm_num), ← zpow_add_one₀ (by norm_num)]
      congr 1
      ring
    rw [hMeq] at hbelow habove hvalue
    push_cast at hbelow habove
    have hround : roundHalfEven (x / (u / 10)) = ((10 ^ 6 : ℕ) : ℤ) := by
      apply roundHalfEven_eq
      push_cast
      rw [abs_lt]
      constructor
      · rw [lt_sub_iff_add_lt, lt_div_iff₀ (by linarith)]
        linarith
      · rw [sub_lt_iff_lt_add, div_lt_iff₀ (by linarith)]
        linarith
    simp only [hlog, hfine, hround, Int.toNat_natCast, if_true]
    rw [sub_add_cancel, hunit, hvalue]

/-! ### Reading Them Back -/

/-- A double near to `m` is read back as `m`. -/
theorem int_float_near {m : ℕ} {x : ℚ} (h : SixDigits m) (hm : 0 < m) (hlt : m < 2 ^ 53)
    (hnear : |x - m| < m / (2 * 10 ^ 6)) : int_float (showDouble x) = some (m : ℤ) := by
  have hvalue := value_near h hm hnear
  have hround := roundDouble_natCast hlt
  have hsmall : |(doubleNumeral x).value| < 10 ^ 200 := by
    have hcast : (m : ℚ) < 2 ^ 53 := by exact_mod_cast hlt
    rw [hvalue, Nat.abs_cast]
    exact hcast.trans (by norm_num)
  unfold showDouble
  rw [int_float_text _ hsmall, hvalue, hround, truncate_of_nonneg (Nat.cast_nonneg m),
    Int.floor_natCast]

theorem int_float_showDouble_zero : int_float (showDouble 0) = some 0 := by decide +kernel

/-- The same for a relative error, which leaves zero alone. -/
theorem int_float_within {m : ℕ} {x g : ℚ} (h : SixDigits m) (hlt : m < 2 ^ 53)
    (hg : g < 1 / (2 * 10 ^ 6)) (hwithin : |x - m| ≤ g * m) :
    int_float (showDouble x) = some (m : ℤ) := by
  rcases Nat.eq_zero_or_pos m with rfl | hm
  · have hx : x = 0 := by simpa using hwithin
    rw [hx]
    exact int_float_showDouble_zero
  · apply int_float_near h hm hlt
    have hcast : (0 : ℚ) < m := by exact_mod_cast hm
    calc |x - m| ≤ g * m := hwithin
      _ < 1 / (2 * 10 ^ 6) * m := mul_lt_mul_of_pos_right hg hcast
      _ = m / (2 * 10 ^ 6) := by ring

/-- **Only six digits**: whatever double is printed, an integer that is read
    back has at most six digits before its zeros. -/
theorem SixDigits.of_int_float {m : ℕ} {x : ℚ} (hx : 0 ≤ x) (hm : m < 2 ^ 53)
    (h : int_float (showDouble x) = some (m : ℤ)) : SixDigits m := by
  rcases hx.eq_or_lt with rfl | hpos
  · have hm0 := Option.some.inj (h.symm.trans int_float_showDouble_zero)
    exact .of_lt (by omega)
  unfold showDouble at h
  rw [int_float_numeral] at h
  split at h
  · have hread := Option.some.inj h
    obtain ⟨hlo, hhi⟩ := significant_bounds hpos
    rw [value_doubleNumeral hpos] at hread
    generalize (significant x).1 = M at hread hlo hhi
    generalize (significant x).2 = e at hread
    have hnonneg : (0 : ℚ) ≤ M * 10 ^ (e - 5) := by positivity
    rw [truncate_of_nonneg (roundDouble_nonneg hnonneg)] at hread
    rcases le_or_gt 5 e with hge | hlt
    · -- no digit is behind the point
      obtain ⟨k, hk⟩ := Int.eq_ofNat_of_zero_le (show 0 ≤ e - 5 by omega)
      have hnat : (M : ℚ) * 10 ^ (e - 5) = (M * 10 ^ k : ℕ) := by
        rw [hk]
        push_cast
        rfl
      rw [hnat] at hread
      rcases lt_or_ge (M * 10 ^ k) (2 ^ 53) with hsmall | hlarge
      · rw [roundDouble_natCast hsmall, Int.floor_natCast] at hread
        exact ⟨M, k, hhi, by exact_mod_cast hread.symm⟩
      · -- it would be too large
        have hcast : (2 : ℚ) ^ 53 ≤ (M * 10 ^ k : ℕ) := by exact_mod_cast hlarge
        have hfloor : ((2 ^ 53 : ℕ) : ℤ) ≤ ⌊roundDouble (M * 10 ^ k : ℕ)⌋ := by
          rw [Int.le_floor, Int.cast_natCast, Nat.cast_pow, Nat.cast_ofNat]
          exact pow_le_roundDouble hcast
        omega
    · have hsmall : (M : ℚ) * 10 ^ (e - 5) < 10 ^ 5 := by
        have hM : (M : ℚ) < 10 ^ 6 := by exact_mod_cast hhi
        have hscale : (10 : ℚ) ^ (e - 5) ≤ 10 ^ (-1 : ℤ) :=
          zpow_le_zpow_right₀ (by norm_num) (by omega)
        calc (M : ℚ) * 10 ^ (e - 5) ≤ M * 10 ^ (-1 : ℤ) :=
              mul_le_mul_of_nonneg_left hscale (Nat.cast_nonneg M)
          _ < 10 ^ 6 * 10 ^ (-1 : ℤ) := mul_lt_mul_of_pos_right hM (by positivity)
          _ = 10 ^ 5 := by norm_num
      have hround := abs_roundDouble_le ((M : ℚ) * 10 ^ (e - 5))
      rw [abs_of_nonneg hnonneg, abs_of_nonneg (roundDouble_nonneg hnonneg)] at hround
      have hfloor : ⌊roundDouble ((M : ℚ) * 10 ^ (e - 5))⌋ < 10 ^ 6 := by
        rw [Int.floor_lt]
        push_cast
        linarith
      exact .of_lt (by omega)
  · simp at h

end Decimal
