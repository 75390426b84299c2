import Mathlib.Data.Int.Log
import Mathlib.Data.Rat.Floor
import Mathlib.Tactic
import Microrev.Lib.Text

/-! # Decimal Numerals and Double Precision

    How C++ streams print integers and doubles, and how Python reads such
    texts back with `int( float( text ) )`. Doubles are rational numbers
    together with a rounding function. Printing goes through `Numeral`, a
    decimal numeral in pieces; what was printed can be read back whenever it
    is not too large for a double.

    Not covered: negative zero, infinities and NaNs as values to be printed,
    and digits outside ASCII, which Python reads as well.
-/

namespace Decimal

open Text

/-! ### Double Precision -/

/-- The nearest integer; the even one of two. -/
def roundHalfEven (q : ℚ) : ℤ :=
  if q - ⌊q⌋ < 1 / 2 then ⌊q⌋
  else if 1 / 2 < q - ⌊q⌋ then ⌊q⌋ + 1
  else if ⌊q⌋ % 2 = 0 then ⌊q⌋ else ⌊q⌋ + 1

/-- The exponent of the last place of a double near `x`: 53 significant
    bits, fewer for subnormal numbers. -/
def ulpExponent (x : ℚ) : ℤ := max (Int.log 2 |x| - 52) (-1074)

/-- The nearest double, as long as it is in range. -/
def roundDouble (x : ℚ) : ℚ := roundHalfEven (x / 2 ^ ulpExponent x) * 2 ^ ulpExponent x

theorem abs_roundHalfEven_le (q : ℚ) : |(roundHalfEven q : ℚ)| ≤ 2 * |q| := by
  have hle := Int.floor_le q
  have hlt := Int.lt_floor_add_one q
  -- the integer below is at least 0, or at most -1
  have hsign : 0 ≤ q ∧ (0 : ℚ) ≤ ⌊q⌋ ∨ q < 0 ∧ (⌊q⌋ : ℚ) ≤ -1 := by
    rcases le_or_gt 0 q with h | h
    · exact .inl ⟨h, by exact_mod_cast Int.floor_nonneg.mpr h⟩
    · have hneg : ⌊q⌋ < 0 := Int.floor_lt.mpr (by simpa using h)
      exact .inr ⟨h, by exact_mod_cast Int.le_sub_one_of_lt hneg⟩
  have hdown : q - ⌊q⌋ ≤ 1 / 2 → |(⌊q⌋ : ℚ)| ≤ 2 * |q| := by
    intro h
    rcases hsign with ⟨hq, hf⟩ | ⟨hq, hf⟩
    · rw [abs_of_nonneg hf, abs_of_nonneg hq]
      linarith
    · rw [abs_of_nonpos (by linarith), abs_of_neg hq]
      linarith
  have hup : 1 / 2 ≤ q - ⌊q⌋ → |((⌊q⌋ + 1 : ℤ) : ℚ)| ≤ 2 * |q| := by
    intro h
    push_cast
    rcases hsign with ⟨hq, hf⟩ | ⟨hq, hf⟩
    · rw [abs_of_nonneg (by linarith), abs_of_nonneg hq]
      linarith
    · rw [abs_of_nonpos (by linarith), abs_of_neg hq]
      linarith
  unfold roundHalfEven
  split_ifs with h1 h2 h3
  · exact hdown h1.le
  · exact hup h2.le
  · exact hdown (not_lt.mp h2)
  · exact hup (not_lt.mp h1)

theorem abs_roundDouble_le (x : ℚ) : |roundDouble x| ≤ 2 * |x| := by
  have hpos : (0 : ℚ) < 2 ^ ulpExponent x := by positivity
  unfold roundDouble
  rw [abs_mul, abs_of_pos hpos]
  calc |(roundHalfEven (x / 2 ^ ulpExponent x) : ℚ)| * 2 ^ ulpExponent x
      ≤ 2 * |x / 2 ^ ulpExponent x| * 2 ^ ulpExponent x :=
        mul_le_mul_of_nonneg_right (abs_roundHalfEven_le _) hpos.le
    _ = 2 * |x| := by
        rw [abs_div, abs_of_pos hpos]
        field_simp

/-! ### Numerals -/

/-- Only the digits 0 to 9. -/
def Digits (t : Text) : Prop := ∀ c ∈ t, c.isDigit = true

/-- A decimal numeral: `[-] whole [. fraction] [e sign digits]`. -/
structure Numeral where
  negative : Bool
  whole : Text
  /-- Without the point; no point if it is empty. -/
  fraction : Text
  /-- Whether it is negative, and its digits. -/
  exponent : Option (Bool × Text)
  whole_digits : Digits whole
  whole_ne : whole ≠ []
  fraction_digits : Digits fraction
  exponent_digits : ∀ p ∈ exponent, Digits p.2 ∧ p.2 ≠ []

def signText (negative : Bool) : Text := if negative then ['-'] else []

def fractionText (fraction : Text) : Text := if fraction = [] then [] else '.' :: fraction

def exponentText : Option (Bool × Text) → Text
  | none => []
  | some (negative, ds) => 'e' :: (if negative then '-' else '+') :: ds

def Numeral.text (n : Numeral) : Text :=
  signText n.negative ++ n.whole ++ fractionText n.fraction ++ exponentText n.exponent

/-- The number that a sign and digits stand for. -/
def signedValue (negative : Bool) (ds : Text) : ℤ :=
  if negative then -(Nat.ofDigitChars 10 ds 0) else Nat.ofDigitChars 10 ds 0

def Numeral.exp (n : Numeral) : ℤ :=
  match n.exponent with
  | none => 0
  | some (negative, ds) => signedValue negative ds

def Numeral.value (n : Numeral) : ℚ :=
  signedValue n.negative (n.whole ++ n.fraction) * 10 ^ (n.exp - n.fraction.length)

theorem digits_toDigits (n : ℕ) : Digits (Nat.toDigits 10 n) :=
  fun _ hc => Nat.isDigit_of_mem_toDigits (by decide) (by decide) hc

theorem Digits.append {a b : Text} (ha : Digits a) (hb : Digits b) : Digits (a ++ b) := by
  intro c hc
  rcases List.mem_append.mp hc with hc | hc
  · exact ha c hc
  · exact hb c hc

theorem Digits.sublist {a b : Text} (hb : Digits b) (h : List.Sublist a b) : Digits a :=
  fun c hc => hb c (h.subset hc)

theorem digits_zeros (k : ℕ) : Digits (List.replicate k '0') := by
  intro c hc
  rw [List.eq_of_mem_replicate hc]
  decide

theorem ofDigitChars_lt {ds : Text} (h : Digits ds) :
    Nat.ofDigitChars 10 ds 0 < 10 ^ ds.length := by
  induction ds with
  | nil => simp
  | cons c ds ih =>
    have hrest := ih fun d hd => h d (by simp [hd])
    have hc : c.toNat - '0'.toNat ≤ 9 := by
      have hdig := h c (by simp)
      simp only [Char.isDigit, Bool.and_eq_true, decide_eq_true_eq, UInt32.le_iff_toNat_le] at hdig
      have htop : c.toNat ≤ 57 := hdig.2
      have hzero : '0'.toNat = 48 := rfl
      omega
    rw [Nat.ofDigitChars_cons, Nat.ofDigitChars_eq_ofDigitChars_zero, List.length_cons,
      Nat.pow_succ, Nat.mul_zero, Nat.zero_add]
    have hscaled := Nat.mul_le_mul_left (10 ^ ds.length) hc
    omega

theorem abs_signedValue_lt {negative : Bool} {ds : Text} (h : Digits ds) :
    |(signedValue negative ds : ℚ)| < 10 ^ ds.length := by
  have hlt : (Nat.ofDigitChars 10 ds 0 : ℚ) < 10 ^ ds.length := by exact_mod_cast ofDigitChars_lt h
  cases negative <;> simpa [signedValue] using hlt

/-- A numeral is smaller than the power of ten its whole part allows for. -/
theorem Numeral.abs_value_lt (n : Numeral) : |n.value| < 10 ^ (n.whole.length + n.exp) := by
  have hpos : (0 : ℚ) < 10 ^ (n.exp - n.fraction.length) := by positivity
  unfold Numeral.value
  rw [abs_mul, abs_of_pos hpos]
  calc |(signedValue n.negative (n.whole ++ n.fraction) : ℚ)| * 10 ^ (n.exp - n.fraction.length)
      < 10 ^ (n.whole ++ n.fraction).length * 10 ^ (n.exp - n.fraction.length) :=
        mul_lt_mul_of_pos_right
          (abs_signedValue_lt (n.whole_digits.append n.fraction_digits)) hpos
    _ = 10 ^ (n.whole.length + n.exp) := by
        rw [← zpow_natCast, ← zpow_add₀ (by norm_num), List.length_append]
        congr 1
        push_cast
        ring

/-! ### Printing -/

/-- `os << i`. -/
def intNumeral (i : ℤ) : Numeral where
  negative := i < 0
  whole := Nat.toDigits 10 i.natAbs
  fraction := []
  exponent := none
  whole_digits := digits_toDigits _
  whole_ne := Nat.toDigits_ne_nil
  fraction_digits := by simp [Digits]
  exponent_digits := by simp

def showInt (i : ℤ) : Text := (intNumeral i).text

/-- Six significant digits of `x > 0`: `x` is about `m * 10 ^ (e - 5)`. -/
def significant (x : ℚ) : ℕ × ℤ :=
  let e := Int.log 10 x
  let m := (roundHalfEven (x / 10 ^ (e - 5))).toNat
  if m = 10 ^ 6 then (10 ^ 5, e + 1) else (m, e)

/-- Trailing zeros are not printed. -/
def trim (ds : Text) : Text := ds.rdropWhile (· == '0')

/-- At least two digits. -/
def twoDigits (n : ℕ) : Text := if n < 10 then '0' :: Nat.toDigits 10 n else Nat.toDigits 10 n

theorem Digits.trim {ds : Text} (h : Digits ds) : Digits (trim ds) :=
  h.sublist (List.rdropWhile_prefix _ _).sublist

theorem digits_twoDigits (n : ℕ) : Digits (twoDigits n) := by
  unfold twoDigits
  split
  · exact (digits_zeros 1).append (digits_toDigits n)
  · exact digits_toDigits n

theorem twoDigits_ne (n : ℕ) : twoDigits n ≠ [] := by
  unfold twoDigits
  split
  · simp
  · exact Nat.toDigits_ne_nil

@[simp] theorem ofDigitChars_twoDigits (n : ℕ) : Nat.ofDigitChars 10 (twoDigits n) 0 = n := by
  unfold twoDigits
  split
  · simp [Nat.ofDigitChars_cons]
  · simp

theorem take_toDigits_ne (m k : ℕ) : (Nat.toDigits 10 m).take (k + 1) ≠ [] := by
  simp [Nat.toDigits_ne_nil]

/-- `os << x` for a double: the format `%g`, with six significant digits. -/
def doubleNumeral (x : ℚ) : Numeral :=
  let m := (significant |x|).1
  let e := (significant |x|).2
  let ds := Nat.toDigits 10 m
  if x = 0 then intNumeral 0
  else if 0 ≤ e ∧ e < 6 then
    { negative := x < 0
      whole := ds.take (e.toNat + 1)
      fraction := trim (ds.drop (e.toNat + 1))
      exponent := none
      whole_digits := (digits_toDigits m).sublist (List.take_sublist _ _)
      whole_ne := take_toDigits_ne m _
      fraction_digits := ((digits_toDigits m).sublist (List.drop_sublist _ _)).trim
      exponent_digits := by simp }
  else if -4 ≤ e ∧ e < 0 then
    { negative := x < 0
      whole := ['0']
      fraction := trim (List.replicate (-e - 1).toNat '0' ++ ds)
      exponent := none
      whole_digits := digits_zeros 1
      whole_ne := by simp
      fraction_digits := ((digits_zeros _).append (digits_toDigits m)).trim
      exponent_digits := by simp }
  else
    { negative := x < 0
      whole := ds.take 1
      fraction := trim (ds.drop 1)
      exponent := some (e < 0, twoDigits e.natAbs)
      whole_digits := (digits_toDigits m).sublist (List.take_sublist _ _)
      whole_ne := take_toDigits_ne m 0
      fraction_digits := ((digits_toDigits m).sublist (List.drop_sublist _ _)).trim
      exponent_digits := by
        rintro _ ⟨⟩
        exact ⟨digits_twoDigits _, twoDigits_ne _⟩ }

def showDouble (x : ℚ) : Text := (doubleNumeral x).text

/-! ### Reading -/

/-- An optional sign: whether it is negative, and the rest. -/
def readSign : Text → Bool × Text
  | '-' :: t => (true, t)
  | '+' :: t => (false, t)
  | t => (false, t)

/-- An optional point with the digits after it, and the rest. -/
def readFraction : Text → Text × Text
  | '.' :: t => (t.takeWhile Char.isDigit, t.dropWhile Char.isDigit)
  | t => ([], t)

/-- An optional exponent, up to the end of the text. -/
def readExponent : Text → Option ℤ
  | [] => some 0
  | c :: t =>
    let r := readSign t
    if (c = 'e' ∨ c = 'E') ∧ r.2 ≠ [] ∧ r.2.all Char.isDigit then some (signedValue r.1 r.2)
    else none

/-- A decimal numeral, up to the end of the text. -/
def readDecimal (t : Text) : Option ℚ :=
  let r := readSign t
  let whole := r.2.takeWhile Char.isDigit
  let f := readFraction (r.2.dropWhile Char.isDigit)
  if whole ++ f.1 = [] then none
  else (readExponent f.2).map fun e : ℤ =>
    signedValue r.1 (whole ++ f.1) * 10 ^ (e - f.1.length)

/-- Underscores may only stand between two digits; `digit` tells whether one
    stands before the text. -/
def dropUnderscores (digit : Bool) : Text → Option Text
  | [] => some []
  | c :: t =>
    if c = '_' then
      if digit && t.head?.any Char.isDigit then dropUnderscores false t else none
    else (dropUnderscores c.isDigit t).map (c :: ·)

/-- Towards zero. -/
def truncate (x : ℚ) : ℤ := x.num.tdiv x.den

theorem truncate_of_nonneg {x : ℚ} (h : 0 ≤ x) : truncate x = ⌊x⌋ := by
  rw [truncate, Int.tdiv_eq_ediv_of_nonneg (Rat.num_nonneg.mpr h), Rat.floor_def']

theorem abs_truncate_le (x : ℚ) : |((truncate x : ℤ) : ℚ)| ≤ |x| := by
  rcases le_total 0 x with h | h
  · rw [truncate_of_nonneg h, abs_of_nonneg h,
      abs_of_nonneg (by exact_mod_cast Int.floor_nonneg.mpr h)]
    exact Int.floor_le x
  · -- truncation is odd
    have hneg : truncate x = -truncate (-x) := by simp [truncate, Int.neg_tdiv]
    have hpos : 0 ≤ -x := neg_nonneg.mpr h
    rw [hneg, truncate_of_nonneg hpos, abs_of_nonpos h, Int.cast_neg, abs_neg,
      abs_of_nonneg (by exact_mod_cast Int.floor_nonneg.mpr hpos)]
    exact Int.floor_le (-x)

/-- `int( float( text ) )`, or none when one of the two raises an exception:
    the text is no number, or it is infinite or not a number as a double. -/
def int_float (t : Text) : Option ℤ :=
  ((dropUnderscores false (strip t)).bind readDecimal).bind fun x =>
    if |roundDouble x| < 2 ^ 1024 then some (truncate (roundDouble x)) else none

/-- `int( text )`, or none when it raises an exception. -/
def int_text (t : Text) : Option ℤ :=
  (dropUnderscores false (strip t)).bind fun t =>
    let r := readSign t
    if r.2 ≠ [] ∧ r.2.all Char.isDigit ∧ r.2.length ≤ 4300 then some (signedValue r.1 r.2) else none

/-! ### What Was Printed Can be Read -/

theorem takeWhile_digits {ds t : Text} (h : Digits ds) (ht : t.head?.all fun c => !c.isDigit) :
    (ds ++ t).takeWhile Char.isDigit = ds := by
  rw [List.takeWhile_append_of_pos h]
  cases t with
  | nil => simp
  | cons c t =>
    have hc : c.isDigit = false := by simpa using ht
    simp [hc]

theorem dropWhile_digits {ds t : Text} (h : Digits ds) (ht : t.head?.all fun c => !c.isDigit) :
    (ds ++ t).dropWhile Char.isDigit = t := by
  rw [List.dropWhile_append_of_pos h]
  cases t with
  | nil => simp
  | cons c t =>
    have hc : c.isDigit = false := by simpa using ht
    simp [hc]

theorem readSign_digits {ds : Text} (h : Digits ds) (hne : ds ≠ []) (t : Text) :
    readSign (ds ++ t) = (false, ds ++ t) := by
  obtain ⟨c, ds, rfl⟩ := List.exists_cons_of_ne_nil hne
  have hc := h c (by simp)
  have hminus : c ≠ '-' := by
    rintro rfl
    simp at hc
  have hplus : c ≠ '+' := by
    rintro rfl
    simp at hc
  simp [readSign, hminus, hplus]

theorem readSign_signText {ds : Text} (h : Digits ds) (hne : ds ≠ []) (negative : Bool) (t : Text) :
    readSign (signText negative ++ (ds ++ t)) = (negative, ds ++ t) := by
  cases negative with
  | false => exact readSign_digits h hne t
  | true => rfl

theorem readExponent_exponentText {p : Bool × Text} (h : Digits p.2) (hne : p.2 ≠ []) :
    readExponent (exponentText (some p)) = some (signedValue p.1 p.2) := by
  obtain ⟨negative, ds⟩ := p
  have hall : ds.all Char.isDigit = true := List.all_eq_true.mpr h
  have hne' : ds ≠ [] := hne
  cases negative <;> simp [readExponent, exponentText, readSign, hall, hne']

theorem Numeral.readExponent_text (n : Numeral) :
    readExponent (exponentText n.exponent) = some n.exp := by
  unfold Numeral.exp
  cases hp : n.exponent with
  | none => rfl
  | some p =>
    obtain ⟨hdig, hne⟩ := n.exponent_digits p (by simp [hp])
    exact readExponent_exponentText hdig hne

theorem exponentText_head (p : Option (Bool × Text)) :
    (exponentText p).head?.all fun c => !c.isDigit := by
  rcases p with _ | ⟨negative, ds⟩
  · rfl
  · rfl

theorem Numeral.readFraction_text (n : Numeral) :
    readFraction (fractionText n.fraction ++ exponentText n.exponent) =
      (n.fraction, exponentText n.exponent) := by
  unfold fractionText
  split
  · next hnil =>
    rw [hnil]
    rcases n.exponent with _ | ⟨negative, ds⟩ <;> rfl
  · show ((n.fraction ++ exponentText n.exponent).takeWhile Char.isDigit,
      (n.fraction ++ exponentText n.exponent).dropWhile Char.isDigit) = _
    rw [takeWhile_digits n.fraction_digits (exponentText_head _),
      dropWhile_digits n.fraction_digits (exponentText_head _)]

theorem Numeral.fraction_head (n : Numeral) :
    (fractionText n.fraction ++ exponentText n.exponent).head?.all fun c => !c.isDigit := by
  unfold fractionText
  split
  · exact exponentText_head _
  · rfl

/-- **Reading a numeral** gives its value. -/
theorem readDecimal_text (n : Numeral) : readDecimal n.text = some n.value := by
  have hsign : readSign n.text =
      (n.negative, n.whole ++ (fractionText n.fraction ++ exponentText n.exponent)) := by
    rw [← readSign_signText n.whole_digits n.whole_ne]
    simp [Numeral.text]
  unfold readDecimal
  simp only [hsign, takeWhile_digits n.whole_digits n.fraction_head,
    dropWhile_digits n.whole_digits n.fraction_head, n.readFraction_text, n.readExponent_text]
  simp [n.whole_ne, Numeral.value]

/-- The characters of a numeral. -/
theorem Numeral.mem_text (n : Numeral) {c : Char} (hc : c ∈ n.text) :
    c.isDigit = true ∨ c ∈ ['-', '+', '.', 'e'] := by
  simp only [Numeral.text, List.mem_append] at hc
  rcases hc with ((hc | hc) | hc) | hc
  · unfold signText at hc
    split at hc <;> simp_all
  · exact .inl (n.whole_digits c hc)
  · unfold fractionText at hc
    split at hc
    · simp at hc
    · rcases List.mem_cons.mp hc with rfl | hc
      · simp
      · exact .inl (n.fraction_digits c hc)
  · cases hp : n.exponent with
    | none => simp [hp, exponentText] at hc
    | some p =>
      simp only [hp, exponentText, List.mem_cons] at hc
      rcases hc with rfl | rfl | hc
      · simp
      · split <;> simp
      · exact .inl ((n.exponent_digits p (by simp [hp])).1 c hc)

theorem isSpace_digit {c : Char} (h : c.isDigit = true) : isSpace c = false := by
  simp only [Char.isDigit, Bool.and_eq_true, decide_eq_true_eq, UInt32.le_iff_toNat_le] at h
  have hrange : 48 ≤ c.toNat ∧ c.toNat ≤ 57 := h
  clear h
  simp only [isSpace, decide_eq_false_iff_not, List.mem_cons, List.not_mem_nil, or_false]
  omega

theorem Numeral.solid_text (n : Numeral) : Solid n.text := by
  intro c hc
  rcases n.mem_text hc with h | h
  · exact isSpace_digit h
  · simp only [List.mem_cons, List.not_mem_nil, or_false] at h
    rcases h with rfl | rfl | rfl | rfl <;> decide

theorem Numeral.text_ne (n : Numeral) : n.text ≠ [] := by
  simp [Numeral.text, n.whole_ne]

theorem dropUnderscores_eq {t : Text} (h : '_' ∉ t) (digit : Bool) :
    dropUnderscores digit t = some t := by
  induction t generalizing digit with
  | nil => rfl
  | cons c t ih =>
    obtain ⟨hc, ht⟩ := List.ne_and_not_mem_of_not_mem_cons h
    simp [dropUnderscores, hc.symm, ih ht]

theorem strip_eq_self {t : Text} (h : Solid t) : strip t = t := by
  have hdrop : t.dropWhile isSpace = t := by
    cases t with
    | nil => rfl
    | cons c t => simp [h c (by simp)]
  unfold strip
  rw [hdrop, List.rdropWhile_eq_self_iff]
  intro hne
  simp [h _ (List.getLast_mem hne)]

/-- What `int( float( .. ) )` makes of a numeral. -/
theorem int_float_numeral (n : Numeral) :
    int_float n.text =
      if |roundDouble n.value| < 2 ^ 1024 then some (truncate (roundDouble n.value)) else none := by
  have hunder : '_' ∉ n.text := by
    intro hmem
    rcases n.mem_text hmem with h | h
    · exact absurd h (by decide)
    · exact absurd h (by decide)
  unfold int_float
  rw [strip_eq_self n.solid_text, dropUnderscores_eq hunder]
  simp only [Option.bind_some, readDecimal_text]

/-- **Reading back**: `int( float( .. ) )` of a numeral that is not too
    large raises no exception. -/
theorem int_float_text (n : Numeral) (h : |n.value| < 10 ^ 200) :
    int_float n.text = some (truncate (roundDouble n.value)) := by
  -- rounding at most doubles it, which leaves it far from overflow
  have hrange : |roundDouble n.value| < 2 ^ 1024 := by
    calc |roundDouble n.value| ≤ 2 * |n.value| := abs_roundDouble_le _
      _ ≤ 2 * 10 ^ 200 := by linarith
      _ ≤ 2 * (2 ^ 4) ^ 200 := by gcongr; norm_num
      _ = 2 ^ 801 := by rw [← pow_mul, ← pow_succ']
      _ < 2 ^ 1024 := pow_lt_pow_right₀ (by norm_num) (by norm_num)
  rw [int_float_numeral, if_pos hrange]

/-- What is read of such a numeral is not too large either. -/
theorem int_float_small (n : Numeral) (h : |n.value| < 10 ^ 200) {v : ℤ}
    (hv : int_float n.text = some v) : |(v : ℚ)| ≤ 10 ^ 201 := by
  rw [int_float_text n h] at hv
  obtain rfl := Option.some.inj hv
  have htrunc := abs_truncate_le (roundDouble n.value)
  have hround := abs_roundDouble_le n.value
  linarith

/-- `int( .. )` of an integer that was printed. -/
theorem int_text_showInt {i : ℤ} (h : i.natAbs < 10 ^ 20) : int_text (showInt i) = some i := by
  have hunder : '_' ∉ showInt i := by
    intro hmem
    rcases (intNumeral i).mem_text hmem with h | h
    · exact absurd h (by decide)
    · exact absurd h (by decide)
  have hstrip : strip (showInt i) = showInt i := strip_eq_self (intNumeral i).solid_text
  have htext : showInt i = signText (i < 0) ++ (Nat.toDigits 10 i.natAbs ++ []) := by
    simp [showInt, Numeral.text, intNumeral, fractionText, exponentText]
  have hsign := readSign_signText (digits_toDigits i.natAbs) Nat.toDigits_ne_nil (i < 0) []
  have hlen : (Nat.toDigits 10 i.natAbs).length ≤ 20 :=
    (Nat.length_toDigits_le_iff (by decide) (by decide)).mpr h
  unfold int_text
  rw [hstrip, dropUnderscores_eq hunder, Option.bind_some, htext, hsign]
  have hall : (Nat.toDigits 10 i.natAbs).all Char.isDigit = true :=
    List.all_eq_true.mpr (digits_toDigits i.natAbs)
  simp only [List.append_nil]
  rw [if_pos ⟨Nat.toDigits_ne_nil, hall, by omega⟩]
  unfold signedValue
  rw [Nat.ofDigitChars_ten_toDigits]
  congr 1
  by_cases hneg : i < 0
  · rw [if_pos (by simp [hneg])]
    omega
  · rw [if_neg (by simp [hneg])]
    omega

theorem pow_ten_le {a b : ℤ} (h : a ≤ b) : (10 : ℚ) ^ a ≤ 10 ^ b :=
  zpow_le_zpow_right₀ (by norm_num) h

theorem intNumeral_abs_lt {i : ℤ} (h : i.natAbs < 10 ^ 20) : |(intNumeral i).value| < 10 ^ 200 := by
  have hlen : (Nat.toDigits 10 i.natAbs).length ≤ 20 :=
    (Nat.length_toDigits_le_iff (by decide) (by decide)).mpr h
  calc |(intNumeral i).value| < 10 ^ ((intNumeral i).whole.length + (intNumeral i).exp) :=
        (intNumeral i).abs_value_lt
    _ ≤ 10 ^ (200 : ℤ) := pow_ten_le (by simp only [intNumeral, Numeral.exp]; omega)
    _ = 10 ^ 200 := by norm_cast

theorem significant_exp_le {x : ℚ} {k : ℕ} (hx : 0 < x) (h : x < 10 ^ k) :
    (significant x).2 ≤ k := by
  have hlog : Int.log 10 x < k := by
    rw [← Int.lt_zpow_iff_log_lt (by decide) hx]
    exact_mod_cast h
  unfold significant
  simp only
  split <;> simp only <;> omega

theorem doubleNumeral_abs_lt {x : ℚ} (h : |x| < 10 ^ 100) :
    |(doubleNumeral x).value| < 10 ^ 200 := by
  have hexp : x ≠ 0 → (significant |x|).2 ≤ 100 := by
    intro hne
    exact significant_exp_le (abs_pos.mpr hne) h
  have hlen : (doubleNumeral x).whole.length + (doubleNumeral x).exp ≤ 200 := by
    unfold doubleNumeral
    simp only
    -- zero, a whole part of several digits, a leading zero, and an exponent
    split_ifs with h0 h1 h2
    · decide
    · have hle := List.length_take_le ((significant |x|).2.toNat + 1)
        (Nat.toDigits 10 (significant |x|).1)
      simp only [Numeral.exp]
      omega
    · simp [Numeral.exp]
    · have hle := List.length_take_le 1 (Nat.toDigits 10 (significant |x|).1)
      have he := hexp h0
      simp only [Numeral.exp, signedValue, ofDigitChars_twoDigits, decide_eq_true_eq]
      split <;> omega
  calc |(doubleNumeral x).value| < 10 ^ ((doubleNumeral x).whole.length + (doubleNumeral x).exp) :=
        (doubleNumeral x).abs_value_lt
    _ ≤ 10 ^ (200 : ℤ) := pow_ten_le hlen
    _ = 10 ^ 200 := by norm_cast

end Decimal
