import Mathlib.GroupTheory.Perm.Cycle.Concrete
import Mathlib.Data.Fintype.BigOperators
import Mathlib.Probability.Distributions.Uniform
import Microrev.Lib.Circuit

/-! # Drawing Without Replacement

    Items are drawn one by one from a list until it is empty. A sequence of
    draws is a number below `k`, then one below `k - 1`, and so on: there are
    `k!` of them, and each puts the list into a different order. Read as a
    path that starts at a fixed further item, such an order is a cyclic
    permutation of all items, and every cyclic permutation is drawn exactly
    once; so when all draws are uniform, all of them are equally likely.
-/

namespace Selection

open Nat
open scoped ENNReal

/-! ### Sequences of Draws -/

/-- A draw from `k` items, then one from `k - 1`, down to one. -/
abbrev Codes : ℕ → Type
  | 0 => Unit
  | k + 1 => Fin (k + 1) × Codes k

instance Codes.fintype : (k : ℕ) → Fintype (Codes k)
  | 0 => inferInstanceAs (Fintype Unit)
  | k + 1 => @instFintypeProd (Fin (k + 1)) (Codes k) _ (Codes.fintype k)

theorem card_codes (k : ℕ) : Fintype.card (Codes k) = k ! := by
  induction k with
  | zero => rfl
  | succ k ih =>
    have hprod : Fintype.card (Codes (k + 1)) =
        Fintype.card (Fin (k + 1)) * Fintype.card (Codes k) := Fintype.card_prod _ _
    rw [hprod, Fintype.card_fin, ih, factorial_succ]

/-- Ideal draws: each one uniform, and independent of the others. -/
noncomputable def ideal : (k : ℕ) → PMF (Codes k)
  | 0 => PMF.pure ()
  | k + 1 => (PMF.uniformOfFintype (Fin (k + 1))).bind fun i => (ideal k).map fun c => (i, c)

variable {α β : Type*}

theorem map_apply_injective {f : α → β} (hf : f.Injective) (p : PMF α) (a : α) :
    p.map f (f a) = p a := by
  rw [PMF.map_apply, tsum_eq_single a, if_pos rfl]
  intro b hb
  exact if_neg fun heq => hb (hf heq).symm

theorem ideal_apply (k : ℕ) (c : Codes k) : ideal k c = (k ! : ℝ≥0∞)⁻¹ := by
  induction k with
  | zero =>
    show PMF.pure () c = _
    rw [PMF.pure_apply_self]
    simp
  | succ k ih =>
    have hpair : Function.Injective fun d : Codes k => ((c.1, d) : Codes (k + 1)) :=
      fun d e heq => congrArg Prod.snd heq
    have hfirst : (ideal k).map (fun d => ((c.1, d) : Codes (k + 1))) c = (k ! : ℝ≥0∞)⁻¹ :=
      (map_apply_injective hpair (ideal k) c.2).trans (ih c.2)
    show (PMF.uniformOfFintype (Fin (k + 1))).bind _ c = _
    -- only the first draw of c itself contributes
    rw [PMF.bind_apply, tsum_eq_single c.1]
    · rw [hfirst, PMF.uniformOfFintype_apply, Fintype.card_fin, factorial_succ, Nat.cast_mul,
        ENNReal.mul_inv (.inr (ENNReal.natCast_ne_top _)) (.inl (ENNReal.natCast_ne_top _))]
    · intro i hi
      have hother : (ideal k).map (fun d => ((i, d) : Codes (k + 1))) c = 0 := by
        rw [PMF.map_apply, ENNReal.tsum_eq_zero]
        exact fun d => if_neg fun heq => hi (congrArg Prod.fst heq).symm
      rw [hother, mul_zero]

/-- The items in the order they are drawn. -/
def pick : (k : ℕ) → Codes k → List α → List α
  | 0, _, _ => []
  | k + 1, c, l =>
    match l[c.1.val]? with
    | some x => x :: pick k c.2 (l.eraseIdx c.1.val)
    | none => []

/-- The first draw, from a list that is long enough. -/
theorem pick_succ {k : ℕ} (c : Codes (k + 1)) {l : List α} (h : l.length = k + 1) :
    ∃ x, l[c.1.val]? = some x ∧ pick (k + 1) c l = x :: pick k c.2 (l.eraseIdx c.1.val) ∧
      (l.eraseIdx c.1.val).length = k := by
  have hlt : c.1.val < l.length := by
    rw [h]
    exact c.1.isLt
  refine ⟨l[c.1.val], List.getElem?_eq_getElem hlt, ?_, ?_⟩
  · rw [pick, List.getElem?_eq_getElem hlt]
  · rw [List.length_eraseIdx_of_lt hlt, h, Nat.add_sub_cancel]

/-- Nothing is lost and nothing drawn twice. -/
theorem pick_perm {k : ℕ} (c : Codes k) {l : List α} (h : l.length = k) : (pick k c l).Perm l := by
  induction k generalizing l with
  | zero => rw [List.length_eq_zero_iff.mp h]; exact .refl _
  | succ k ih =>
    obtain ⟨x, hx, hpick, hlen⟩ := pick_succ c h
    obtain ⟨hlt, rfl⟩ := List.getElem?_eq_some_iff.mp hx
    rw [hpick]
    exact ((ih c.2 hlen).cons _).trans (List.getElem_cons_eraseIdx_perm hlt)

theorem pick_map (f : α → β) {k : ℕ} (c : Codes k) {l : List α} (h : l.length = k) :
    pick k c (l.map f) = (pick k c l).map f := by
  induction k generalizing l with
  | zero => rfl
  | succ k ih =>
    obtain ⟨x, hx, hpick, hlen⟩ := pick_succ c h
    rw [hpick, pick, List.getElem?_map, hx, List.eraseIdx_map]
    simp [ih c.2 hlen]

/-- Different draws give different orders. -/
theorem pick_injective {k : ℕ} {c d : Codes k} {l : List α} (h : l.length = k) (hnodup : l.Nodup)
    (heq : pick k c l = pick k d l) : c = d := by
  induction k generalizing l with
  | zero => rfl
  | succ k ih =>
    obtain ⟨x, hx, hpick, hlen⟩ := pick_succ c h
    obtain ⟨y, hy, hpick', -⟩ := pick_succ d h
    rw [hpick, hpick'] at heq
    obtain ⟨rfl, htail⟩ := List.cons.inj heq
    have hlt := (List.getElem?_eq_some_iff.mp hx).1
    have hfirst : c.1 = d.1 := Fin.ext ((List.getElem?_inj hlt hnodup).mp (hx.trans hy.symm))
    rw [← hfirst] at htail
    exact Prod.ext hfirst (ih hlen (hnodup.eraseIdx _) htail)

/-- Every order is drawn. -/
theorem pick_surjective [DecidableEq α] {k : ℕ} {l p : List α} (h : l.length = k)
    (hperm : p.Perm l) : ∃ c : Codes k, pick k c l = p := by
  induction k generalizing l p with
  | zero =>
    obtain rfl := List.length_eq_zero_iff.mp h
    exact ⟨(), (List.perm_nil.mp hperm).symm⟩
  | succ k ih =>
    cases p with
    | nil => simp [← hperm.length_eq] at h
    | cons x p =>
      have hmem : x ∈ l := hperm.subset (by simp)
      have hlt : l.idxOf x < l.length := List.idxOf_lt_length_of_mem hmem
      have hrest : p.Perm (l.eraseIdx (l.idxOf x)) := by
        rw [← List.erase_eq_eraseIdx_of_idxOf rfl]
        exact (List.cons_perm_iff_perm_erase.mp hperm).2
      obtain ⟨c, rfl⟩ := ih (by rw [List.length_eraseIdx_of_lt hlt, h, Nat.add_sub_cancel]) hrest
      refine ⟨(⟨l.idxOf x, by omega⟩, c), ?_⟩
      simp [pick, List.getElem?_idxOf hmem]

/-! ### Cyclic Orders -/

section
variable [DecidableEq α]

/-- A path without repetitions is a circuit of the cycle it describes. -/
theorem circuit_formPerm {p : List α} (h : p.Nodup) : Circuit p.formPerm p where
  nodup := h
  step k hk := by
    have hpos : 0 < p.length := Nat.zero_lt_of_lt hk
    rw [List.getElem?_eq_getElem hk, List.getElem?_eq_getElem (Nat.mod_lt _ hpos), Option.map_some,
      List.formPerm_apply_getElem p h k hk]

/-- The path can be read off the cycle. -/
theorem formPerm_injective {a : α} {p q : List α} (hp : (a :: p).Nodup) (hq : (a :: q).Nodup)
    (hlen : p.length = q.length) (h : (a :: p).formPerm = (a :: q).formPerm) : p = q := by
  have hpath := (circuit_formPerm hp).visits rfl
  rw [h, List.length_cons, hlen, ← List.length_cons (a := a),
    (circuit_formPerm hq).visits rfl] at hpath
  exact (List.cons.inj hpath).2.symm

variable [Fintype α]

/-- The walk from `a` round a cycle of all items. -/
theorem exists_path {s : Equiv.Perm α} (h : s.IsCycleOn Set.univ) (a : α) :
    ∃ p : List α, (a :: p).Nodup ∧ (∀ x, x ∈ a :: p) ∧ (a :: p).formPerm = s := by
  have hs : s.IsCycleOn (Finset.univ : Finset α) := by simpa using h
  have ha : a ∈ (Finset.univ : Finset α) := Finset.mem_univ a
  obtain ⟨n, hn⟩ : ∃ n, Fintype.card α = n + 1 :=
    Nat.exists_eq_add_one_of_ne_zero (Fintype.card_pos_iff.mpr ⟨a⟩).ne'
  have hwalk : (List.range (n + 1)).map (fun k => (s ^ k) a) =
      a :: (List.range n).map fun k => (s ^ (k + 1)) a := by
    rw [List.range_succ_eq_map, List.map_cons, List.map_map]
    rfl
  have hnodup : ((List.range (n + 1)).map fun k => (s ^ k) a).Nodup := by
    refine List.Nodup.map_on ?_ List.nodup_range
    intro i hi j hj heq
    have hmod := (hs.pow_apply_eq_pow_apply ha).mp heq
    rw [Finset.card_univ, hn] at hmod
    exact Nat.ModEq.eq_of_lt_of_lt hmod (List.mem_range.mp hi) (List.mem_range.mp hj)
  have hall : ∀ x, x ∈ (List.range (n + 1)).map fun k => (s ^ k) a := by
    intro x
    obtain ⟨k, hk, rfl⟩ := hs.exists_pow_eq ha (Finset.mem_univ x)
    rw [Finset.card_univ, hn] at hk
    exact List.mem_map_of_mem (List.mem_range.mpr hk)
  refine ⟨_, hwalk ▸ hnodup, hwalk ▸ hall, ?_⟩
  rw [← hwalk]
  ext x
  obtain ⟨k, hk, rfl⟩ := List.mem_map.mp (hall x)
  rw [List.mem_range] at hk
  have hstep := (circuit_formPerm hnodup).step k (by simpa using hk)
  have hlen : ((List.range (n + 1)).map fun k => (s ^ k) a).length = n + 1 := by simp
  rw [hlen, List.getElem?_map, List.getElem?_map, List.getElem?_range hk,
    List.getElem?_range (Nat.mod_lt _ (Nat.succ_pos n))] at hstep
  have hnext : (s ^ ((k + 1) % (n + 1))) a = _ := Option.some.inj hstep
  rw [← hnext, ← Equiv.Perm.mul_apply, ← pow_succ' s k, hs.pow_apply_eq_pow_apply ha,
    Finset.card_univ, hn]
  exact Nat.mod_modEq _ _

/-- **Cyclic orders**: the draws from all items but one are in one-to-one
    correspondence with the cyclic permutations of all items. -/
theorem cyclic_bijOn {a : α} {l : List α} (hnodup : (a :: l).Nodup) (hall : ∀ x, x ∈ a :: l)
    {k : ℕ} (hk : l.length = k) :
    Set.BijOn (fun c : Codes k => (a :: pick k c l).formPerm) Set.univ
      {s | s.IsCycleOn Set.univ} := by
  have hperm : ∀ c : Codes k, (a :: pick k c l).Perm (a :: l) := fun c => (pick_perm c hk).cons a
  have hdrawn : ∀ c : Codes k, (a :: pick k c l).Nodup := fun c => (hperm c).nodup_iff.mpr hnodup
  refine ⟨?_, ?_, ?_⟩
  · intro c _
    have hcycle := (hdrawn c).isCycleOn_formPerm
    have huniv : {x | x ∈ a :: pick k c l} = Set.univ := by
      ext x
      simpa using (hperm c).mem_iff.mpr (hall x)
    rwa [huniv] at hcycle
  · intro c _ d _ heq
    have hlen : (pick k c l).length = (pick k d l).length := by
      rw [(pick_perm c hk).length_eq, (pick_perm d hk).length_eq]
    exact pick_injective hk (List.nodup_cons.mp hnodup).2
      (formPerm_injective (hdrawn c) (hdrawn d) hlen heq)
  · intro s hs
    obtain ⟨p, hp, hpall, rfl⟩ := exists_path hs a
    have hsame : (a :: p).Perm (a :: l) :=
      (List.perm_ext_iff_of_nodup hp hnodup).mpr fun x => iff_of_true (hpall x) (hall x)
    obtain ⟨c, hc⟩ := pick_surjective hk ((List.perm_cons a).mp hsame)
    exact ⟨c, Set.mem_univ c, by simp only [hc]⟩

/-- With ideal draws every cyclic order is equally likely. -/
theorem cyclic_uniform {a : α} {l : List α} (hnodup : (a :: l).Nodup) (hall : ∀ x, x ∈ a :: l)
    {k : ℕ} (hk : l.length = k) {s : Equiv.Perm α} (hs : s.IsCycleOn Set.univ) :
    (ideal k).map (fun c => (a :: pick k c l).formPerm) s = (k ! : ℝ≥0∞)⁻¹ := by
  have hbij := cyclic_bijOn hnodup hall hk
  obtain ⟨c, -, rfl⟩ := hbij.surjOn hs
  rw [map_apply_injective (Set.injOn_univ.mp hbij.injOn), ideal_apply]

end

end Selection
