import Mathlib.Algebra.Group.Nat.Defs
import Mathlib.Logic.Function.Basic

/-! # Byte-Addressed Memory

    A flat 64-bit address space of bytes, with little-endian loads and stores
    of 8-byte words. Addresses wrap around, as on the machine. Two words are
    `Apart` when they share no byte; a store is seen by a load of the same
    word and by no load of a word that is apart from it.
-/

/-- A flat memory. -/
abbrev Memory := BitVec 64 → BitVec 8

namespace Memory

/-! ### Accesses -/

/-- The `n` bytes from `a` on, the first one lowest. -/
def loadBytes (m : Memory) : (n : Nat) → BitVec 64 → BitVec (8 * n)
  | 0, _ => 0#0
  | n + 1, a => (loadBytes m n (a + 1) ++ m a).cast (by omega)

/-- Load the word at `a`. -/
def load (m : Memory) (a : BitVec 64) : BitVec 64 := m.loadBytes 8 a

/-- Store the word `v` at `a`. -/
def store (m : Memory) (a v : BitVec 64) : Memory := fun b =>
  if (b - a).toNat < 8 then v.extractLsb' (8 * (b - a).toNat) 8 else m b

/-- Store one byte. -/
def storeByte (m : Memory) (a : BitVec 64) (v : BitVec 8) : Memory :=
  Function.update m a v

/-- A memory, and the words that have been stored to. -/
structure Heap where
  mem : Memory
  stored : List (BitVec 64)

/-- Store the word `v` at `a`, for the record. -/
def Heap.store (h : Heap) (a v : BitVec 64) : Heap where
  mem := h.mem.store a v
  stored := h.stored ++ [a]

/-- The words at `a` and at `b` share no byte. -/
def Apart (a b : BitVec 64) : Prop := 8 ≤ (b - a).toNat ∧ (b - a).toNat ≤ 2 ^ 64 - 8

/-! ### What a Load Sees -/

theorem loadBytes_getLsbD (m : Memory) (n : Nat) (a : BitVec 64) (i : Nat) (hi : i < 8 * n) :
    (m.loadBytes n a).getLsbD i = (m (a + BitVec.ofNat 64 (i / 8))).getLsbD (i % 8) := by
  induction n generalizing a i with
  | zero => omega
  | succ n ih =>
    unfold loadBytes
    rw [BitVec.getLsbD_cast, BitVec.getLsbD_append]
    split
    · next hlow => simp [show i / 8 = 0 by omega, show i % 8 = i by omega]
    · next hhigh =>
      have hnext : a + 1 + BitVec.ofNat 64 ((i - 8) / 8) = a + BitVec.ofNat 64 (i / 8) := by
        rw [BitVec.add_assoc, show i / 8 = 1 + (i - 8) / 8 by omega, BitVec.ofNat_add]
        rfl
      rw [ih (a + 1) (i - 8) (by omega), hnext, show (i - 8) % 8 = i % 8 by omega]

theorem load_getLsbD (m : Memory) (a : BitVec 64) (i : Nat) (hi : i < 64) :
    (m.load a).getLsbD i = (m (a + BitVec.ofNat 64 (i / 8))).getLsbD (i % 8) :=
  loadBytes_getLsbD m 8 a i hi

/-- A load depends on the eight bytes of the word only. -/
theorem load_congr {m m' : Memory} {a : BitVec 64}
    (h : ∀ k < 8, m (a + BitVec.ofNat 64 k) = m' (a + BitVec.ofNat 64 k)) :
    m.load a = m'.load a := by
  apply BitVec.eq_of_getLsbD_eq
  intro i hi
  rw [load_getLsbD _ _ _ hi, load_getLsbD _ _ _ hi, h (i / 8) (by omega)]

theorem load_store_same (m : Memory) (a v : BitVec 64) : (m.store a v).load a = v := by
  apply BitVec.eq_of_getLsbD_eq
  intro i hi
  have hoff : (a + BitVec.ofNat 64 (i / 8) - a).toNat = i / 8 := by
    rw [BitVec.add_comm, BitVec.add_sub_cancel]
    simp only [BitVec.toNat_ofNat]
    omega
  rw [load_getLsbD _ _ _ hi]
  unfold store
  rw [hoff, if_pos (by omega), BitVec.getLsbD_extractLsb']
  simp [show i % 8 < 8 by omega, show 8 * (i / 8) + i % 8 = i by omega]

theorem load_store_apart (m : Memory) {a b : BitVec 64} (v : BitVec 64) (h : Apart a b) :
    (m.store a v).load b = m.load b := by
  apply load_congr
  intro k hk
  -- the byte is at distance `(b - a) + k`, which cannot wrap around
  have hoff : (b + BitVec.ofNat 64 k - a).toNat = (b - a).toNat + k := by
    have hlt := h.2
    have ha := a.isLt
    have hb := b.isLt
    simp only [BitVec.toNat_sub, BitVec.toNat_add, BitVec.toNat_ofNat] at hlt ⊢
    omega
  unfold store
  rw [hoff, if_neg (by have := h.1; omega)]

/-- **An unaligned load** takes its bytes from two words. -/
theorem load_unaligned (m : Memory) (p : BitVec 64) {b : Nat} (hb : b < 8) :
    m.load (p + BitVec.ofNat 64 b) =
      m.load p >>> (8 * b) ||| m.load (p + 8) <<< (64 - 8 * b) := by
  apply BitVec.eq_of_getLsbD_eq
  intro i hi
  have hbyte : p + BitVec.ofNat 64 b + BitVec.ofNat 64 (i / 8) =
      p + BitVec.ofNat 64 (b + i / 8) := by
    rw [BitVec.add_assoc, BitVec.ofNat_add]
  rw [load_getLsbD _ _ _ hi, hbyte, BitVec.getLsbD_or, BitVec.getLsbD_ushiftRight,
    BitVec.getLsbD_shiftLeft]
  by_cases hlow : b + i / 8 < 8
  · -- the byte is in the first word
    rw [load_getLsbD _ _ _ (by omega), show (8 * b + i) / 8 = b + i / 8 by omega,
      show (8 * b + i) % 8 = i % 8 by omega]
    simp [show i < 64 - 8 * b by omega]
  · have hsecond : p + 8 + BitVec.ofNat 64 ((i - (64 - 8 * b)) / 8) =
        p + BitVec.ofNat 64 (b + i / 8) := by
      rw [BitVec.add_assoc, show b + i / 8 = 8 + (i - (64 - 8 * b)) / 8 by omega, BitVec.ofNat_add]
      rfl
    rw [BitVec.getLsbD_of_ge (m.load p) _ (by omega), load_getLsbD m (p + 8) _ (by omega), hsecond,
      show (i - (64 - 8 * b)) % 8 = i % 8 by omega]
    simp [hi, show ¬ i < 64 - 8 * b by omega]

theorem load_clear (a : BitVec 64) : load (fun _ => 0) a = 0#64 := by
  apply BitVec.eq_of_getLsbD_eq
  intro i hi
  rw [load_getLsbD _ _ _ hi, BitVec.getLsbD_zero]
  exact BitVec.getLsbD_zero

/-- Storing what is there already. -/
theorem store_eq_self {m : Memory} {a v : BitVec 64} (h : m.load a = v) : m.store a v = m := by
  funext b
  unfold store
  split
  · next hlt =>
    apply BitVec.eq_of_getLsbD_eq
    intro i hi
    have hb : a + BitVec.ofNat 64 (b - a).toNat = b := by
      rw [BitVec.ofNat_toNat, BitVec.setWidth_eq, BitVec.add_comm, BitVec.sub_add_cancel]
    rw [BitVec.getLsbD_extractLsb', ← h, load_getLsbD _ _ _ (by omega),
      show (8 * (b - a).toNat + i) / 8 = (b - a).toNat by omega, hb,
      show (8 * (b - a).toNat + i) % 8 = i by omega]
    simp [hi]
  · rfl

theorem Apart.symm {a b : BitVec 64} (h : Apart a b) : Apart b a := by
  obtain ⟨h1, h2⟩ := h
  have ha := a.isLt
  have hb := b.isLt
  unfold Apart
  simp only [BitVec.toNat_sub] at h1 h2 ⊢
  omega

/-! ### Arrays of Words -/

/-- The address of the word with index `k` in an array at `base` whose words
    are `stride` bytes apart. -/
def slot (base : BitVec 64) (stride k : Nat) : BitVec 64 := base + BitVec.ofNat 64 (k * stride)

@[simp] theorem slot_zero (base : BitVec 64) (stride : Nat) : slot base stride 0 = base := by
  simp [slot]

/-- Words at different offsets from a base are apart if neither wraps
    around. -/
theorem offset_apart {base : BitVec 64} {p q : Nat} (hpq : p + 8 ≤ q) (hq : q ≤ 2 ^ 64 - 8) :
    Apart (base + BitVec.ofNat 64 p) (base + BitVec.ofNat 64 q) := by
  have hbase := base.isLt
  unfold Apart
  simp only [BitVec.toNat_sub, BitVec.toNat_add, BitVec.toNat_ofNat]
  omega

/-- Different words of an array are apart as long as the array does not wrap
    around onto itself. -/
theorem slot_apart {base : BitVec 64} {stride j k : Nat} (hstride : 8 ≤ stride)
    (hjk : j < k) (hfit : k * stride ≤ 2 ^ 64 - 8) :
    Apart (slot base stride j) (slot base stride k) := by
  have hle : j * stride + stride ≤ k * stride := by
    calc j * stride + stride = (j + 1) * stride := (Nat.succ_mul j stride).symm
      _ ≤ k * stride := Nat.mul_le_mul_right stride hjk
  exact offset_apart (by omega) hfit

/-- A store changes no byte behind its word. -/
theorem store_behind (m : Memory) {base b : BitVec 64} (v : BitVec 64) {p : Nat}
    (h : p + 8 ≤ (b - base).toNat) : m.store (base + BitVec.ofNat 64 p) v b = m b := by
  have hbase := base.isLt
  have hb := b.isLt
  unfold store
  rw [if_neg]
  simp only [BitVec.toNat_sub, BitVec.toNat_add, BitVec.toNat_ofNat] at h ⊢
  omega

end Memory
