import Mathlib.Data.Int.CardIntervalMod
import Mathlib.Logic.Function.Iterate
import Mathlib.Data.List.Nodup
import Mathlib.Data.List.Range
import Mathlib.Data.Set.Card

/-! # Circuits

    A circuit of a function is a list without repetitions that the function
    walks through in order, from the last entry back to the first. Iterating
    the function from the first entry visits every entry exactly once, comes
    back, and never leaves the list; any number of steps visits all entries
    equally often, give or take one.
-/

/-- `next` goes round `path`. -/
structure Circuit {α : Type*} (next : α → α) (path : List α) : Prop where
  nodup : path.Nodup
  step : ∀ k < path.length, path[(k + 1) % path.length]? = path[k]?.map next

namespace Circuit

variable {α β : Type*} {next : α → α} {path : List α} {a : α}

/-- Values in a row, the last one leading back to the first. -/
theorem of_row {f : Nat → α} {m : Nat} (hinj : ∀ j k, j ≤ m → k ≤ m → f j = f k → j = k)
    (hnext : ∀ k < m, next (f k) = f (k + 1)) (hback : next (f m) = f 0) :
    Circuit next ((List.range (m + 1)).map f) where
  nodup := by
    refine List.Nodup.map_on ?_ List.nodup_range
    intro j hj k hk heq
    rw [List.mem_range] at hj hk
    exact hinj j k (by omega) (by omega) heq
  step := by
    intro k hk
    rw [List.length_map, List.length_range] at hk ⊢
    rw [List.getElem?_map, List.getElem?_map, List.getElem?_range hk,
      List.getElem?_range (Nat.mod_lt _ (Nat.succ_pos m))]
    rcases Nat.lt_succ_iff_lt_or_eq.mp hk with hlt | rfl
    · rw [Nat.mod_eq_of_lt (by omega)]
      simp [hnext k hlt]
    · simp [hback]

/-- What the function does elsewhere does not matter. -/
theorem congr {next' : α → α} (h : Circuit next path) (heq : ∀ a ∈ path, next' a = next a) :
    Circuit next' path where
  nodup := h.nodup
  step := by
    intro k hk
    rw [h.step k hk, List.getElem?_eq_getElem hk, Option.map_some, Option.map_some,
      heq _ (List.getElem_mem hk)]

/-- The walk can begin at any entry. -/
theorem rotate (h : Circuit next path) (m : Nat) : Circuit next (path.rotate m) where
  nodup := List.nodup_rotate.mpr h.nodup
  step := by
    intro k hk
    rw [List.length_rotate] at hk ⊢
    have hpos : 0 < path.length := Nat.zero_lt_of_lt hk
    rw [List.getElem?_rotate (Nat.mod_lt _ hpos), List.getElem?_rotate hk,
      ← h.step _ (Nat.mod_lt _ hpos), Nat.mod_add_mod, Nat.mod_add_mod, Nat.add_right_comm]

/-- Where the walk from the first entry is after `k` steps. -/
theorem iterate (h : Circuit next path) (ha : path[0]? = some a) (k : Nat) :
    path[k % path.length]? = some (next^[k] a) := by
  have hpos : 0 < path.length := (List.getElem?_eq_some_iff.mp ha).1
  induction k with
  | zero => simpa [Nat.zero_mod] using ha
  | succ k ih =>
    have hstep := h.step (k % path.length) (Nat.mod_lt k hpos)
    rw [ih, Nat.mod_add_mod] at hstep
    rw [hstep, Function.iterate_succ_apply']
    rfl

/-- The first round visits the list, in order. -/
theorem visits (h : Circuit next path) (ha : path[0]? = some a) :
    (List.range path.length).map (fun k => next^[k] a) = path := by
  apply List.ext_getElem?
  intro k
  rw [List.getElem?_map]
  by_cases hk : k < path.length
  · have hat := h.iterate ha k
    rw [Nat.mod_eq_of_lt hk] at hat
    rw [hat, List.getElem?_range hk]
    rfl
  · rw [List.getElem?_eq_none (by simpa using hk), List.getElem?_eq_none (by omega)]
    rfl

/-- After one round the walk is back. -/
theorem returns (h : Circuit next path) (ha : path[0]? = some a) :
    next^[path.length] a = a := by
  have hback := h.iterate ha path.length
  rw [Nat.mod_self, ha] at hback
  exact (Option.some.inj hback).symm

/-- The walk never leaves the list. -/
theorem stays (h : Circuit next path) (ha : path[0]? = some a) (k : Nat) :
    next^[k] a ∈ path :=
  List.mem_of_getElem? (h.iterate ha k)

/-- The walk is at as many places as the list has entries. -/
theorem ncard_range (h : Circuit next path) (ha : path[0]? = some a) :
    (Set.range fun k => next^[k] a).ncard = path.length := by
  classical
  have hrange : (Set.range fun k => next^[k] a) = path.toFinset := by
    ext x
    rw [Set.mem_range, Finset.mem_coe, List.mem_toFinset]
    constructor
    · rintro ⟨k, rfl⟩
      exact h.stays ha k
    · intro hx
      rw [← h.visits ha] at hx
      obtain ⟨k, -, hk⟩ := List.mem_map.mp hx
      exact ⟨k, hk⟩
  rw [hrange, Set.ncard_coe_finset, List.toFinset_card_of_nodup h.nodup]

/-- The walk is at the entry with index `i` every `path.length` steps. -/
theorem iterate_eq_iff (h : Circuit next path) (ha : path[0]? = some a) {i : Nat} {x : α}
    (hi : path[i]? = some x) (k : Nat) : next^[k] a = x ↔ k ≡ i [MOD path.length] := by
  have hat := h.iterate ha k
  have hlt := (List.getElem?_eq_some_iff.mp hi).1
  have hmod : k % path.length < path.length := Nat.mod_lt _ (Nat.zero_lt_of_lt hlt)
  unfold Nat.ModEq
  rw [Nat.mod_eq_of_lt hlt]
  constructor
  · rintro rfl
    exact (List.getElem?_inj hmod h.nodup).mp (hat.trans hi.symm)
  · intro hk
    rw [hk, hi] at hat
    exact (Option.some.inj hat).symm

/-- How often the walk is at the entry with index `i` in `m` steps. -/
theorem count_visits [DecidableEq α] (h : Circuit next path) (ha : path[0]? = some a) {i : Nat}
    {x : α} (hi : path[i]? = some x) (m : Nat) :
    ((List.range m).map fun k => next^[k] a).count x =
      m / path.length + if i < m % path.length then 1 else 0 := by
  have hlt := (List.getElem?_eq_some_iff.mp hi).1
  have hcount := Nat.count_modEq_card m (Nat.zero_lt_of_lt hlt) i
  rw [Nat.mod_eq_of_lt hlt] at hcount
  rw [← hcount]
  clear hcount
  induction m with
  | zero => simp
  | succ m ih =>
    rw [List.range_succ, List.map_append, List.count_append, ih, Nat.count_succ,
      List.map_singleton, List.count_singleton]
    simp only [beq_iff_eq, h.iterate_eq_iff ha hi]

/-- **Balance**: in `m` steps the walk is at each entry `m / path.length`
    times, rounded down or up. -/
theorem balanced [DecidableEq α] (h : Circuit next path) (ha : path[0]? = some a) {x : α}
    (hx : x ∈ path) (m : Nat) :
    ((List.range m).map fun k => next^[k] a).count x = m / path.length ∨
      ((List.range m).map fun k => next^[k] a).count x =
        (m + path.length - 1) / path.length := by
  obtain ⟨i, hlt, rfl⟩ := List.getElem_of_mem hx
  rw [h.count_visits ha (List.getElem?_eq_getElem hlt)]
  split
  · next hmod =>
    right
    have hdiv := Nat.div_add_mod m path.length
    have hmodlt := Nat.mod_lt m (Nat.zero_lt_of_lt hlt)
    symm
    rw [Nat.div_eq_iff (Nat.zero_lt_of_lt hlt), Nat.succ_mul, Nat.mul_comm]
    omega
  · exact .inl rfl

end Circuit
