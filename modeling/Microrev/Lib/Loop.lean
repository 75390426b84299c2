import Mathlib.Algebra.Group.Nat.Defs
import Mathlib.Data.Nat.Init
import Mathlib.Logic.Function.Iterate

/-! # Counting Loops on Machine Words

    `for( i = first; i < bound; i += step ) body( i )`, for the integer types
    of C as types of the index. The addition may wrap around, so the loop need
    not end; `forIndex` therefore takes the number of times the condition may
    be evaluated. An index type is `Exact` up to the numbers that it can count
    to, and as long as the index stays there, `forIndex_spec` gives the number
    of rounds, carries an invariant through them, and says where the index is
    left. `forStep` is the loop from 0 on 64-bit words, with a rule of its own.
-/

namespace Loop

variable {State : Type*}

/-- The loop from index `i` on. `none` if `fuel` runs out or a round goes
    wrong. -/
def forStep (bound step : BitVec 64) (body : BitVec 64 → State → Option State) :
    Nat → BitVec 64 → State → Option State
  | 0, _, _ => none
  | fuel + 1, i, s =>
    if i < bound then (body i s).bind (forStep bound step body fuel (i + step)) else some s

/-! ### Types of the Index -/

/-- An integer type, as the type of an index that is compared with 64-bit
    words and moved by them. -/
structure IndexType (Index : Type*) where
  /-- `Index i = w` -/
  ofWord : BitVec 64 → Index
  /-- `i`, as an operand of 64-bit arithmetic -/
  value : Index → BitVec 64
  /-- `i < bound` -/
  lt : Index → BitVec 64 → Bool
  /-- `i += step`, `none` where this is undefined -/
  add : Index → BitVec 64 → Option Index

namespace IndexType

/-- `uint64_t`. -/
def uint64 : IndexType (BitVec 64) where
  ofWord w := w
  value i := i
  lt i bound := decide (i < bound)
  add i step := some (i + step)

/-- `int`, next to operands of type `uint64_t`: it is converted to their type,
    and the sum is converted back. -/
def int : IndexType (BitVec 32) where
  ofWord w := w.setWidth 32
  value i := i.signExtend 64
  lt i bound := decide (i.signExtend 64 < bound)
  add i step := some ((i.signExtend 64 + step).setWidth 32)

/-- `int` that an `int` is added to, as by `++i`. -/
def intStep : IndexType (BitVec 32) where
  ofWord w := w.setWidth 32
  value i := i.signExtend 64
  lt i bound := decide (i.signExtend 64 < bound)
  add i step :=
    if i.saddOverflow (step.setWidth 32) then none else some (i + step.setWidth 32)

/-- `long long`, next to operands of signed types. -/
def longLong : IndexType (BitVec 64) where
  ofWord w := w
  value i := i
  lt i bound := i.slt bound
  add i step := if i.saddOverflow step then none else some (i + step)

/-- Numbers up to `m` are counted as they are. -/
structure Exact {Index : Type*} (T : IndexType Index) (m : Nat) : Prop where
  fits : m < 2 ^ 64
  value : ∀ w : BitVec 64, w.toNat ≤ m → T.value (T.ofWord w) = w
  lt : ∀ w bound : BitVec 64, w.toNat ≤ m → bound.toNat ≤ m →
    (T.lt (T.ofWord w) bound ↔ w.toNat < bound.toNat)
  add : ∀ w step : BitVec 64, w.toNat + step.toNat ≤ m →
    T.add (T.ofWord w) step = some (T.ofWord (w + step))

theorem uint64_exact : uint64.Exact (2 ^ 64 - 1) where
  fits := by decide
  value _ _ := rfl
  lt w bound _ _ := by simp [uint64, BitVec.lt_def]
  add _ _ _ := rfl

theorem signExtend_setWidth {w : BitVec 64} (h : w.toNat ≤ 2 ^ 31 - 1) :
    (w.setWidth 32).signExtend 64 = w := by
  have hlow : (w.setWidth 32).toNat = w.toNat := by
    rw [BitVec.toNat_setWidth]
    omega
  have hmsb : (w.setWidth 32).msb = false := by
    rw [BitVec.msb_eq_false_iff_two_mul_lt, hlow]
    omega
  apply BitVec.eq_of_toNat_eq
  rw [BitVec.signExtend_eq_setWidth_of_msb_false hmsb, BitVec.toNat_setWidth, hlow]
  omega

theorem int_exact : int.Exact (2 ^ 31 - 1) where
  fits := by decide
  value _ hw := signExtend_setWidth hw
  lt w bound hw _ := by simp [int, signExtend_setWidth hw, BitVec.lt_def]
  add w step hsum := by
    have hw : w.toNat ≤ 2 ^ 31 - 1 := by omega
    simp [int, signExtend_setWidth hw]

theorem toInt_setWidth {w : BitVec 64} (h : w.toNat ≤ 2 ^ 31 - 1) :
    (w.setWidth 32).toInt = w.toNat := by
  have hlow : (w.setWidth 32).toNat = w.toNat := by
    rw [BitVec.toNat_setWidth]
    omega
  rw [BitVec.toInt_eq_toNat_of_lt (by omega), hlow]

theorem intStep_exact : intStep.Exact (2 ^ 31 - 1) where
  fits := by decide
  value _ hw := signExtend_setWidth hw
  lt w bound hw _ := by simp [intStep, signExtend_setWidth hw, BitVec.lt_def]
  add w step hsum := by
    have h1 := toInt_setWidth (w := w) (by omega)
    have h2 := toInt_setWidth (w := step) (by omega)
    have hno : (w.setWidth 32).saddOverflow (step.setWidth 32) = false := by
      simp only [BitVec.saddOverflow, h1, h2, Bool.or_eq_false_iff, decide_eq_false_iff_not]
      omega
    simp [intStep, hno, BitVec.setWidth_add]

theorem longLong_exact : longLong.Exact (2 ^ 63 - 1) where
  fits := by decide
  value _ _ := rfl
  lt w bound hw hbound := by
    have h1 : w.toInt = w.toNat := BitVec.toInt_eq_toNat_of_lt (by omega)
    have h2 : bound.toInt = bound.toNat := BitVec.toInt_eq_toNat_of_lt (by omega)
    simp [longLong, BitVec.slt_iff_toInt_lt, h1, h2]
  add w step hsum := by
    have h1 : w.toInt = w.toNat := BitVec.toInt_eq_toNat_of_lt (by omega)
    have h2 : step.toInt = step.toNat := BitVec.toInt_eq_toNat_of_lt (by omega)
    have hno : w.saddOverflow step = false := by
      simp only [BitVec.saddOverflow, h1, h2, Bool.or_eq_false_iff, decide_eq_false_iff_not]
      omega
    simp [longLong, hno]

section
variable {Index : Type*} {T : IndexType Index} {m v : Nat}

theorem Exact.toNat_word (h : T.Exact m) (hv : v ≤ m) : (BitVec.ofNat 64 v).toNat = v := by
  have hm := h.fits
  rw [BitVec.toNat_ofNat, Nat.mod_eq_of_lt (by omega)]

theorem Exact.value_word (h : T.Exact m) (hv : v ≤ m) :
    T.value (T.ofWord (BitVec.ofNat 64 v)) = BitVec.ofNat 64 v := by
  apply h.value
  rwa [h.toNat_word hv]

theorem Exact.lt_word (h : T.Exact m) (hv : v ≤ m) {bound : BitVec 64} (hbound : bound.toNat ≤ m) :
    T.lt (T.ofWord (BitVec.ofNat 64 v)) bound ↔ v < bound.toNat := by
  rw [h.lt _ _ (by rwa [h.toNat_word hv]) hbound, h.toNat_word hv]

theorem Exact.add_word (h : T.Exact m) {step : BitVec 64} (hv : v + step.toNat ≤ m) :
    T.add (T.ofWord (BitVec.ofNat 64 v)) step =
      some (T.ofWord (BitVec.ofNat 64 (v + step.toNat))) := by
  have hle : v ≤ m := by omega
  rw [h.add _ _ (by rwa [h.toNat_word hle]), BitVec.ofNat_add v, BitVec.ofNat_toNat,
    BitVec.setWidth_eq]

end

end IndexType

/-- The loop from `i` on, with the index that it leaves. -/
def forIndex {Index : Type*} (T : IndexType Index) (bound step : BitVec 64)
    (body : BitVec 64 → State → Option State) : Nat → Index → State → Option (Index × State)
  | 0, _, _ => none
  | fuel + 1, i, s =>
    if T.lt i bound then
      (body (T.value i) s).bind fun s =>
        (T.add i step).bind fun i => forIndex T bound step body fuel i s
    else some (i, s)

/-- `forStep` counts in `uint64_t`. -/
theorem forStep_eq_forIndex (bound step : BitVec 64) (body : BitVec 64 → State → Option State)
    (fuel : Nat) (i : BitVec 64) (s : State) :
    forStep bound step body fuel i s =
      (forIndex .uint64 bound step body fuel i s).map Prod.snd := by
  induction fuel generalizing i s with
  | zero => rfl
  | succ fuel ih =>
    simp only [forStep, forIndex, IndexType.uint64, decide_eq_true_eq, Option.bind_some]
    split
    · rw [Option.map_bind]
      congr 1
      funext s'
      exact ih (i + step) s'
    · rfl

/-- Where the type is exact up to the bound, so does every other type that
    counts by ones. -/
theorem IndexType.Exact.forIndex_one {Index : Type*} {T : IndexType Index} {m : Nat}
    (h : T.Exact m) {bound : BitVec 64} (hbound : bound.toNat ≤ m)
    (body : BitVec 64 → State → Option State) (fuel : Nat) {w : BitVec 64}
    (hw : w.toNat ≤ bound.toNat) (s : State) :
    (forIndex T bound 1 body fuel (T.ofWord w) s).map Prod.snd = forStep bound 1 body fuel w s := by
  induction fuel generalizing w s with
  | zero => rfl
  | succ fuel ih =>
    have hm := Nat.le_trans hw hbound
    have hlt := h.lt w bound hm hbound
    rw [forIndex, forStep, h.value w hm]
    by_cases hmore : w < bound
    · have hnat : w.toNat < bound.toNat := hmore
      have hnext : (w + 1).toNat = w.toNat + 1 := by
        have hb := bound.isLt
        rw [BitVec.toNat_add, show (1 : BitVec 64).toNat = 1 from rfl, Nat.mod_eq_of_lt (by omega)]
      have hone : w.toNat + (1 : BitVec 64).toNat ≤ m := Nat.le_trans hnat hbound
      rw [if_pos (hlt.mpr hnat), if_pos hmore, Option.map_bind, h.add w 1 hone]
      congr 1
      funext s'
      exact ih (by omega) s'
    · rw [if_neg fun hc => hmore (hlt.mp hc), if_neg hmore]
      rfl

/-- An `int` does not get to a bound from `2 ^ 31` on: `++i` is undefined
    before that. -/
theorem forIndex_intStep_none {bound : BitVec 64} (hbound : 2 ^ 31 ≤ bound.toNat)
    (body : BitVec 64 → State → Option State) (fuel : Nat) {i : BitVec 32} (hi : 0 ≤ i.toInt)
    (s : State) : forIndex .intStep bound 1 body fuel i s = none := by
  induction fuel generalizing i s with
  | zero => rfl
  | succ fuel ih =>
    have hlt : i.signExtend 64 < bound := by
      have hmsb : i.msb = false := by
        rw [BitVec.msb_eq_toInt]
        exact decide_eq_false (Int.not_lt.mpr hi)
      have hi := i.isLt
      rw [BitVec.msb_eq_false_iff_two_mul_lt] at hmsb
      rw [BitVec.lt_def, BitVec.signExtend_eq_setWidth_of_msb_false (by
        rwa [BitVec.msb_eq_false_iff_two_mul_lt]), BitVec.toNat_setWidth]
      omega
    rw [forIndex, if_pos (show IndexType.intStep.lt i bound = true from decide_eq_true hlt)]
    apply Option.bind_eq_none_iff.mpr
    intro s' _
    apply Option.bind_eq_none_iff.mpr
    intro i' hnext
    have hadd : (if i.saddOverflow 1 then none else some (i + 1)) = some i' := hnext
    split at hadd
    · contradiction
    · next hno =>
      obtain rfl := Option.some.inj hadd
      apply ih
      have hsum := BitVec.toInt_add_of_not_saddOverflow hno
      rw [hsum, show (1 : BitVec 32).toInt = 1 from rfl]
      omega

/-- How often `0, step, 2 * step, ..` stays below `bound`. -/
def rounds (bound step : Nat) : Nat := (bound + step - 1) / step

theorem lt_rounds_iff {bound step k : Nat} (hstep : 0 < step) :
    k < rounds bound step ↔ k * step < bound := by
  unfold rounds
  rw [Nat.lt_iff_add_one_le, Nat.le_div_iff_mul_le hstep, Nat.succ_mul]
  omega

theorem rounds_mul_lt {bound step : Nat} (hstep : 0 < step) (hbound : 0 < bound) :
    rounds bound step * step < bound + step := by
  unfold rounds
  have := Nat.div_mul_le_self (bound + step - 1) step
  omega

theorem rounds_pos {bound step : Nat} (hstep : 0 < step) (hbound : 0 < bound) :
    0 < rounds bound step := by
  rw [lt_rounds_iff hstep]
  omega

@[simp] theorem rounds_one (bound : Nat) : rounds bound 1 = bound := by
  simp [rounds]

/-- An array of `n` words of `step` bytes has `n` of them. -/
theorem rounds_mul {n step : Nat} (hstep : 0 < step) : rounds (step * n) step = n := by
  unfold rounds
  rw [Nat.add_sub_assoc hstep, Nat.mul_add_div hstep, Nat.div_eq_of_lt (by omega), Nat.add_zero]

/-! ### The Index -/

theorem index_succ (step : BitVec 64) (k : Nat) :
    BitVec.ofNat 64 (k * step.toNat) + step = BitVec.ofNat 64 ((k + 1) * step.toNat) := by
  apply BitVec.eq_of_toNat_eq
  rw [Nat.succ_mul]
  simp only [BitVec.toNat_add, BitVec.toNat_ofNat]
  omega

/-- The loop condition, which sees the index modulo `2 ^ 64`. -/
theorem index_lt_iff {bound step : BitVec 64} (hstep : 0 < step.toNat)
    (hfit : rounds bound.toNat step.toNat * step.toNat < 2 ^ 64) {k : Nat}
    (hk : k ≤ rounds bound.toNat step.toNat) :
    BitVec.ofNat 64 (k * step.toNat) < bound ↔ k < rounds bound.toNat step.toNat := by
  have hle : k * step.toNat ≤ rounds bound.toNat step.toNat * step.toNat :=
    Nat.mul_le_mul_right _ hk
  rw [lt_rounds_iff hstep, BitVec.lt_def, BitVec.toNat_ofNat, Nat.mod_eq_of_lt (by omega)]

/-! ### Rules -/

section
variable {Index : Type*} {T : IndexType Index} {m : Nat} (hexact : T.Exact m)
    (inv : Nat → State → Prop) {bound step : BitVec 64}
    {body : BitVec 64 → State → Option State} {first n : Nat} (hbound : bound.toNat ≤ m)
    (hfit : first + n * step.toNat ≤ m)
    (hrounds : ∀ k ≤ n, first + k * step.toNat < bound.toNat ↔ k < n)
    (hbody : ∀ k s, k < n → inv k s →
      ∃ s', body (BitVec.ofNat 64 (first + k * step.toNat)) s = some s' ∧ inv (k + 1) s')
include hexact hbound hfit hrounds hbody

/-- The rule from the middle of the loop: `d` of `n` rounds are left. -/
theorem forIndex_from (d : Nat) {k fuel : Nat} {s : State} (hk : k + d = n) (hfuel : d < fuel)
    (h : inv k s) :
    ∃ s', forIndex T bound step body fuel
        (T.ofWord (BitVec.ofNat 64 (first + k * step.toNat))) s =
          some (T.ofWord (BitVec.ofNat 64 (first + n * step.toNat)), s') ∧ inv n s' := by
  have hkn : k ≤ n := by omega
  have hle : first + k * step.toNat ≤ first + n * step.toNat :=
    Nat.add_le_add_left (Nat.mul_le_mul_right _ hkn) first
  have hcond := hexact.lt_word (Nat.le_trans hle hfit) hbound
  rw [hrounds k hkn] at hcond
  induction d generalizing k fuel s with
  | zero =>
    obtain ⟨fuel, rfl⟩ := Nat.exists_eq_add_one_of_ne_zero (Nat.ne_of_gt hfuel)
    obtain rfl : k = n := by omega
    have hend : ¬ k < k := Nat.lt_irrefl k
    exact ⟨s, by rw [forIndex, if_neg (fun hlt => hend (hcond.mp hlt))], h⟩
  | succ d ih =>
    obtain ⟨fuel, rfl⟩ := Nat.exists_eq_add_one_of_ne_zero (Nat.ne_of_gt (Nat.zero_lt_of_lt hfuel))
    have hlt : k < n := by omega
    have hnext : first + k * step.toNat + step.toNat = first + (k + 1) * step.toNat := by
      rw [Nat.succ_mul, Nat.add_assoc]
    have hnextle : first + (k + 1) * step.toNat ≤ first + n * step.toNat :=
      Nat.add_le_add_left (Nat.mul_le_mul_right _ hlt) first
    have hcond' := hexact.lt_word (Nat.le_trans hnextle hfit) hbound
    rw [hrounds (k + 1) hlt] at hcond'
    obtain ⟨s1, hs1, hinv⟩ := hbody k s hlt h
    obtain ⟨s', hs', hend⟩ := ih (show k + 1 + d = n by omega) (show d < fuel by omega) hinv
      hlt hnextle hcond'
    refine ⟨s', ?_, hend⟩
    rw [forIndex, if_pos (hcond.mpr hlt), hexact.value_word (Nat.le_trans hle hfit), hs1,
      Option.bind_some, hexact.add_word (by omega), Option.bind_some, hnext]
    exact hs'

/-- **Loop rule**: an index that stays where its type is exact counts the
    rounds, an invariant that every round carries on holds at the end, and the
    index is left at the first number that is too large. -/
theorem forIndex_spec {fuel : Nat} {s : State} (hfuel : n < fuel) (h : inv 0 s) :
    ∃ s', forIndex T bound step body fuel (T.ofWord (BitVec.ofNat 64 first)) s =
      some (T.ofWord (BitVec.ofNat 64 (first + n * step.toNat)), s') ∧ inv n s' := by
  have hfrom := forIndex_from hexact inv hbound hfit hrounds hbody n (Nat.zero_add n) hfuel h
  rwa [Nat.zero_mul, Nat.add_zero] at hfrom

end

/-- The rule for the loop from 0: with enough fuel it ends after `rounds`
    rounds. -/
theorem forStep_spec (inv : Nat → State → Prop) {bound step : BitVec 64}
    {body : BitVec 64 → State → Option State} (hstep : 0 < step.toNat)
    (hfit : rounds bound.toNat step.toNat * step.toNat < 2 ^ 64)
    (hbody : ∀ k s, k < rounds bound.toNat step.toNat → inv k s →
      ∃ s', body (BitVec.ofNat 64 (k * step.toNat)) s = some s' ∧ inv (k + 1) s')
    {fuel : Nat} {s : State} (hfuel : rounds bound.toNat step.toNat < fuel) (h : inv 0 s) :
    ∃ s', forStep bound step body fuel 0 s = some s' ∧
      inv (rounds bound.toNat step.toNat) s' := by
  have hbound := bound.isLt
  have hrounds : ∀ k ≤ rounds bound.toNat step.toNat, 0 + k * step.toNat < bound.toNat ↔
      k < rounds bound.toNat step.toNat := by
    intro k _
    rw [Nat.zero_add, lt_rounds_iff hstep]
  obtain ⟨s', hrun, hend⟩ := forIndex_spec IndexType.uint64_exact inv
    (show bound.toNat ≤ _ by omega) (by omega) hrounds
    (by simpa only [Nat.zero_add] using hbody) hfuel h
  refine ⟨s', ?_, hend⟩
  rw [forStep_eq_forIndex]
  exact congrArg (Option.map Prod.snd) hrun

/-- The rule without termination: a loop that did return ran through all its
    rounds, and had fuel for them. -/
theorem forStep_some_from (inv : Nat → State → Prop) {bound step : BitVec 64}
    {body : BitVec 64 → State → Option State} (hstep : 0 < step.toNat)
    (hfit : rounds bound.toNat step.toNat * step.toNat < 2 ^ 64)
    (hbody : ∀ k s s', k < rounds bound.toNat step.toNat → inv k s →
      body (BitVec.ofNat 64 (k * step.toNat)) s = some s' → inv (k + 1) s')
    {fuel k : Nat} {s s' : State} (hk : k ≤ rounds bound.toNat step.toNat) (h : inv k s)
    (hrun : forStep bound step body fuel (BitVec.ofNat 64 (k * step.toNat)) s = some s') :
    inv (rounds bound.toNat step.toNat) s' ∧ rounds bound.toNat step.toNat < k + fuel := by
  induction fuel generalizing k s with
  | zero => simp [forStep] at hrun
  | succ fuel ih =>
    have hcond := index_lt_iff hstep hfit hk
    by_cases hlt : k < rounds bound.toNat step.toNat
    · rw [forStep, if_pos (hcond.mpr hlt)] at hrun
      obtain ⟨s1, hs1, hrest⟩ := Option.bind_eq_some_iff.mp hrun
      rw [index_succ] at hrest
      obtain ⟨hinv, hfuel⟩ := ih hlt (hbody k s s1 hlt h hs1) hrest
      exact ⟨hinv, by omega⟩
    · rw [forStep, if_neg (fun hc => hlt (hcond.mp hc))] at hrun
      obtain rfl := Option.some.inj hrun
      obtain rfl : k = rounds bound.toNat step.toNat := by omega
      exact ⟨h, by omega⟩

/-- The same from the start of the loop. -/
theorem forStep_some (inv : Nat → State → Prop) {bound step : BitVec 64}
    {body : BitVec 64 → State → Option State} (hstep : 0 < step.toNat)
    (hfit : rounds bound.toNat step.toNat * step.toNat < 2 ^ 64)
    (hbody : ∀ k s s', k < rounds bound.toNat step.toNat → inv k s →
      body (BitVec.ofNat 64 (k * step.toNat)) s = some s' → inv (k + 1) s')
    {fuel : Nat} {s s' : State} (h : inv 0 s) (hrun : forStep bound step body fuel 0 s = some s') :
    inv (rounds bound.toNat step.toNat) s' ∧ rounds bound.toNat step.toNat < fuel := by
  have hzero : (0 : BitVec 64) = BitVec.ofNat 64 (0 * step.toNat) := by simp
  rw [hzero] at hrun
  obtain ⟨hend, hfuel⟩ := forStep_some_from inv hstep hfit hbody (Nat.zero_le _) h hrun
  exact ⟨hend, by rwa [Nat.zero_add] at hfuel⟩

/-! ### Loops That End -/

/-- The loop `for( i = 0; i < n; i++ )` without wrap-around. -/
def upTo (body : Nat → State → State) : Nat → State → State
  | 0, s => s
  | n + 1, s => body n (upTo body n s)

/-- The same steps in every round. -/
theorem upTo_iterate (f : State → State) (m n : Nat) (s : State) :
    upTo (fun _ => f^[m]) n s = f^[m * n] s := by
  induction n with
  | zero => rfl
  | succ n ih => rw [upTo, ih, Nat.mul_succ, Nat.add_comm, Function.iterate_add_apply]

theorem upTo_spec (inv : Nat → State → Prop) {n : Nat} {body : Nat → State → State} {s : State}
    (hbody : ∀ k s, k < n → inv k s → inv (k + 1) (body k s)) (h : inv 0 s) :
    inv n (upTo body n s) := by
  induction n with
  | zero => exact h
  | succ n ih =>
    have hprev := ih fun k s hk => hbody k s (Nat.lt_succ_of_lt hk)
    exact hbody n _ (Nat.lt_succ_self n) hprev

end Loop
