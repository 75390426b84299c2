import Mathlib.Data.List.GetD
import Mathlib.Algebra.BigOperators.Group.List.Basic
import Mathlib.Algebra.BigOperators.Ring.List
import Microrev.Lib.Significant
import Microrev.Bench.InitState

/-! # Cycles in the Log (`counter.cpp`, `parser.py`)

    The average of the cycle samples is printed with six significant digits,
    and the parsing scripts read it with `int(float(text))`. An integer average
    survives if, and only if, it has at most six digits before its trailing
    zeros. The rounding of the accumulated average does no harm to these.
-/

namespace Pcnt

open Text Decimal

section
variable {pc : PAPILLCounter}

/-- What is added to the average for one sample. -/
def sampleShare (c : BitVec 64) (n : ℕ) : ℚ := roundDouble (roundDouble c.toInt / roundDouble n)

theorem cycles_eq_foldl (pc : PAPILLCounter) :
    pc.cycles = pc.vec_cycles_measured.foldl
      (fun acc c => roundDouble (acc + sampleShare c pc.vec_cycles_measured.length))
      pc.cycles_measured := rfl

theorem sampleShare_nonneg {c : BitVec 64} (h : 0 ≤ c.toInt) (n : ℕ) : 0 ≤ sampleShare c n := by
  have hnum : 0 ≤ roundDouble (c.toInt : ℚ) := roundDouble_nonneg (by exact_mod_cast h)
  have hden : 0 ≤ roundDouble (n : ℚ) := roundDouble_nonneg (Nat.cast_nonneg n)
  exact roundDouble_nonneg (div_nonneg hnum hden)

/-- An integer is zero or large, compared to the least double, also after it is
    divided by the number of samples. -/
theorem sample_large {c : BitVec 64} (h : 0 ≤ c.toInt) {n : ℕ} (hn : 0 < n) (hlt : n < 2 ^ 31) :
    (c.toInt : ℚ) / n = 0 ∨ 2 ^ (-1021 : ℤ) ≤ (c.toInt : ℚ) / n := by
  have hcast : (0 : ℚ) < n := by exact_mod_cast hn
  rcases h.eq_or_lt with hzero | hpos
  · left
    rw [← hzero, Int.cast_zero, zero_div]
  · right
    have hone : (1 : ℚ) ≤ c.toInt := by exact_mod_cast hpos
    have hsmall : (n : ℚ) ≤ 2 ^ 31 := by exact_mod_cast hlt.le
    calc (2 : ℚ) ^ (-1021 : ℤ) ≤ 2 ^ (-31 : ℤ) := zpow_le_zpow_right₀ (by norm_num) (by norm_num)
      _ = 1 / 2 ^ 31 := by norm_num
      _ ≤ 1 / n := one_div_le_one_div_of_le hcast hsmall
      _ ≤ c.toInt / n := div_le_div_of_nonneg_right hone hcast.le

/-- A share is rounded twice: with the sample, and with the quotient. -/
theorem sampleShare_error {c : BitVec 64} (h : 0 ≤ c.toInt) {n : ℕ} (hn : 0 < n)
    (hlt : n < 2 ^ 31) :
    |sampleShare c n - (c.toInt : ℚ) / n| ≤ gamma 2 * ((c.toInt : ℚ) / n) := by
  have hcast : (0 : ℚ) < n := by exact_mod_cast hn
  have hnum : (0 : ℚ) ≤ c.toInt := by exact_mod_cast h
  have hhalf : ∀ k, k ≤ 2 → gamma k ≤ 1 / 2 := by
    intro k hk
    have hbound := gamma_lt (k := k) (by omega)
    linarith
  have hlarge : (c.toInt : ℚ) = 0 ∨ 2 ^ (-1021 : ℤ) ≤ (c.toInt : ℚ) := by
    simpa using sample_large h one_pos (by norm_num)
  have hsample : |roundDouble c.toInt - c.toInt| ≤ gamma 1 * (c.toInt : ℚ) :=
    roundDouble_error hnum (by simp) hlarge (hhalf 0 (by omega))
  have hquotient :
      |roundDouble c.toInt / n - (c.toInt : ℚ) / n| ≤ gamma 1 * ((c.toInt : ℚ) / n) := by
    rw [← sub_div, abs_div, abs_of_pos hcast, ← mul_div_assoc]
    exact div_le_div_of_nonneg_right hsample hcast.le
  unfold sampleShare
  rw [roundDouble_natCast (hlt.trans (by norm_num))]
  exact roundDouble_error (div_nonneg hnum hcast.le) hquotient (sample_large h hn hlt)
    (hhalf 1 (by omega))

/-- The exact shares add up to the mean. -/
theorem sum_shares {l : List (BitVec 64)} {m n : ℕ} (hn : 0 < n)
    (hmean : (l.map BitVec.toInt).sum = m * n) :
    (l.map fun c => (c.toInt : ℚ) / n).sum = m := by
  have hcast : (n : ℚ) ≠ 0 := by exact_mod_cast hn.ne'
  have hsum : ∀ l : List (BitVec 64), (l.map fun c => (c.toInt : ℚ) / n).sum =
      (((l.map BitVec.toInt).sum : ℤ) : ℚ) / n := by
    intro l
    induction l with
    | nil => simp
    | cons c l ih => rw [List.map_cons, List.sum_cons, ih, List.map_cons, List.sum_cons,
        Int.cast_add, add_div]
  rw [hsum, hmean]
  push_cast
  field_simp

/-- **The average is accurate**: less than half a unit in the sixth place is
    lost on the way, unless there are too many samples. -/
theorem cycles_within (hzero : pc.cycles_measured = 0) (hne : pc.vec_cycles_measured ≠ [])
    (hnonneg : ∀ c ∈ pc.vec_cycles_measured, 0 ≤ c.toInt) {m : ℕ}
    (hmean : (pc.vec_cycles_measured.map BitVec.toInt).sum = m * pc.vec_cycles_measured.length)
    (hlen : pc.vec_cycles_measured.length < 2 ^ 31) :
    |pc.cycles - m| ≤ gamma (pc.vec_cycles_measured.length + 2) * m := by
  have hn : 0 < pc.vec_cycles_measured.length := List.length_pos_iff.mpr hne
  have hhalf : gamma (2 + 0 + pc.vec_cycles_measured.length) ≤ 1 / 2 := by
    have hbound := gamma_lt (k := 2 + 0 + pc.vec_cycles_measured.length) (by omega)
    linarith
  have hterms : ∀ c ∈ pc.vec_cycles_measured,
      0 ≤ (c.toInt : ℚ) / pc.vec_cycles_measured.length ∧
      |sampleShare c pc.vec_cycles_measured.length -
        (c.toInt : ℚ) / pc.vec_cycles_measured.length| ≤
        gamma 2 * ((c.toInt : ℚ) / pc.vec_cycles_measured.length) ∧
      ((c.toInt : ℚ) / pc.vec_cycles_measured.length = 0 ∨
        2 ^ (-1021 : ℤ) ≤ (c.toInt : ℚ) / pc.vec_cycles_measured.length) := by
    intro c hc
    have hnum : (0 : ℚ) ≤ c.toInt := by exact_mod_cast hnonneg c hc
    exact ⟨div_nonneg hnum (Nat.cast_nonneg _), sampleShare_error (hnonneg c hc) hn hlen,
      sample_large (hnonneg c hc) hn hlen⟩
  have hstart : |(0 : ℚ) - 0| ≤ gamma (2 + 0) * 0 := by simp
  have herror :=
    foldl_roundDouble_error pc.vec_cycles_measured hterms le_rfl hstart (.inl rfl) hhalf
  rw [zero_add, sum_shares hn hmean] at herror
  rw [cycles_eq_foldl, hzero, Nat.add_comm]
  exact herror

theorem cycles_nonneg (hzero : pc.cycles_measured = 0)
    (hnonneg : ∀ c ∈ pc.vec_cycles_measured, 0 ≤ c.toInt) : 0 ≤ pc.cycles := by
  rw [cycles_eq_foldl, hzero]
  apply foldl_roundDouble_nonneg _ le_rfl
  exact fun c hc => sampleShare_nonneg (hnonneg c hc) _

/-! ### Reading the Average -/

/-- The double is printed, and read back as `m`. -/
def ReadBack (x : ℚ) (m : ℕ) : Prop := int_float (showDouble x) = some (m : ℤ)

instance (x : ℚ) (m : ℕ) : Decidable (ReadBack x m) := inferInstanceAs (Decidable (_ = _))

/-- **Cycle counts with six digits survive the log, and no others**: this is so
    for the double `m`, and for the average that is accumulated with rounding. -/
theorem cycles_survive_iff (papi : Papi) (hzero : pc.cycles_measured = 0)
    (hne : pc.vec_cycles_measured ≠ []) (hnonneg : ∀ c ∈ pc.vec_cycles_measured, 0 ≤ c.toInt)
    {m : ℕ} (hm : m < 2 ^ 53)
    (hmean : (pc.vec_cycles_measured.map BitVec.toInt).sum = m * pc.vec_cycles_measured.length) :
    (∃ before, (pc.stats_to_stream papi).1 =
      before ++ "Cycles: ".toList ++ showDouble pc.cycles ++ "\n\n".toList) ∧
    (ReadBack m m ↔ SixDigits m) ∧
    (pc.cycles = m ∨ pc.vec_cycles_measured.length < 2 ^ 31 →
      (ReadBack pc.cycles m ↔ SixDigits m)) := by
  have hdouble : ReadBack m m ↔ SixDigits m := by
    constructor
    · exact SixDigits.of_int_float (Nat.cast_nonneg m) hm
    · intro hsix
      exact int_float_within (g := 0) hsix hm (by norm_num) (by simp)
  refine ⟨?_, hdouble, ?_⟩
  · have hlen : ¬ (pc.cset.length = 0 ∧ pc.vec_cycles_measured.length = 0) := by simp [hne]
    have happend : ∀ before text : Text,
        before ++ ("Cycles: ".toList ++ text ++ "\n".toList) ++ "\n".toList =
          before ++ "Cycles: ".toList ++ text ++ "\n\n".toList := by
      intro before text
      simp
    unfold PAPILLCounter.stats_to_stream
    rw [if_neg hlen]
    exact ⟨_, happend _ _⟩
  · rintro (hexact | hlen)
    · rw [hexact]
      exact hdouble
    · constructor
      · exact SixDigits.of_int_float (cycles_nonneg hzero hnonneg) hm
      · intro hsix
        exact int_float_within hsix hm (gamma_lt (by omega))
          (cycles_within hzero hne hnonneg hmean hlen)

end

/-- A counter without events, with one sample. -/
def oneSample (c : BitVec 64) : PAPILLCounter where
  measured := []
  cset := []
  cycles_measured := 0
  vec_cycles_measured := [c]
  core_id := 0
  label := ""

/-- A thousand cycles survive. -/
theorem cycles_survive_thousand :
    (∃ before, ((oneSample 1000).stats_to_stream plainPapi).1 =
      before ++ "Cycles: ".toList ++ showDouble (oneSample 1000).cycles ++ "\n\n".toList) ∧
    (ReadBack (1000 : ℕ) 1000 ↔ SixDigits 1000) ∧
    ((oneSample 1000).cycles = (1000 : ℕ) ∨ 1 < 2 ^ 31 →
      (ReadBack (oneSample 1000).cycles 1000 ↔ SixDigits 1000)) :=
  cycles_survive_iff plainPapi rfl (by simp [oneSample]) (by simp [oneSample]) (by norm_num)
    (by simp [oneSample])

/-- Seven digits do not: 1234567 cycles are printed as `1.23457e+06`. -/
theorem cycles_lost : ¬ ∀ pc : PAPILLCounter, ∀ m : ℕ, pc.cycles_measured = 0 →
    pc.vec_cycles_measured ≠ [] → (∀ c ∈ pc.vec_cycles_measured, 0 ≤ c.toInt) → m < 2 ^ 53 →
    (pc.vec_cycles_measured.map BitVec.toInt).sum = m * pc.vec_cycles_measured.length →
    pc.cycles = m → ReadBack pc.cycles m := by
  intro h
  have hcycles : (oneSample 1234567).cycles = (1234567 : ℕ) := by decide +kernel
  have hread := h (oneSample 1234567) 1234567 rfl (by simp [oneSample]) (by simp [oneSample])
    (by norm_num) (by simp [oneSample]) hcycles
  have hshow : showDouble (oneSample 1234567).cycles = "1.23457e+06".toList := by decide +kernel
  have hback : int_float "1.23457e+06".toList = some 1234570 := by decide +kernel
  unfold ReadBack at hread
  rw [hshow, hback] at hread
  exact absurd hread (by decide)

end Pcnt
