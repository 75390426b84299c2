import Microrev.Lib.Selection
import Microrev.Ring.Shuffle

/-! # Every Cyclic Order Is Equally Likely

    The path of `shuffle_array` is 0 followed by the candidates in the order
    in which they are drawn. For an array of length `m + 1` there are `m!`
    sequences of draws, and the permutations that they give are exactly the
    cyclic ones, each of them once.
-/

namespace Pcnt

open Selection
open scoped Nat ENNReal

/-- What the rounds from `i` on draw, with `k` candidates left. -/
def Draws.codes (draws : Draws) : (i k : Nat) → Codes k
  | _, 0 => ()
  | i, k + 1 => (draws i k, draws.codes (i + 1) k)

/-- No sequence of draws is impossible. -/
theorem exists_draws {k : Nat} (c : Codes k) (i : Nat) : ∃ draws : Draws, draws.codes i k = c := by
  induction k generalizing i with
  | zero => exact ⟨fun _ _ => 0, rfl⟩
  | succ k ih =>
    obtain ⟨draws, hdraws⟩ := ih c.2 (i + 1)
    -- the draws of the later rounds are over fewer candidates
    have hlater : ∀ j l, l < k + 1 →
        Draws.codes (fun a b => if h : b = k then h ▸ c.1 else draws a b) j l =
          draws.codes j l := by
      intro j l hl
      induction l generalizing j with
      | zero => rfl
      | succ l ihl => simp [Draws.codes, ihl _ (by omega), show l ≠ k by omega]
    refine ⟨fun a b => if h : b = k then h ▸ c.1 else draws a b, ?_⟩
    simp [Draws.codes, hlater, hdraws]

section
variable {T : Type}

/-- What a round has drawn can be seen afterwards. -/
theorem shuffleRound_some {draws : Draws} {copied : List T} {v v' : ShuffleVars T} {i : Nat}
    (h : shuffleRound draws copied v i = some v') :
    v.candidates[(draws i (v.candidates.length - 1)).val]? = some v'.curr ∧
      v'.candidates = v.candidates.filter (· ≠ v'.curr) := by
  unfold shuffleRound at h
  split at h
  · simp at h
  · next next hnext =>
    split at h
    · simp at h
    · obtain rfl := Option.some.inj h
      exact ⟨hnext, rfl⟩

/-- One more draw, which leaves the other candidates in their order. -/
theorem Drawing.drawn {arr : List T} {path : List Nat} {v : ShuffleVars T} (draws : Draws)
    (h : Drawing arr path v) {k : Nat} (hk : v.candidates.length = k + 1) (i : Nat) :
    ∃ next v', v.candidates[(draws i k).val]? = some next ∧
      shuffleRound draws arr v i = some v' ∧ Drawing arr (path ++ [next]) v' ∧
      v'.candidates = v.candidates.eraseIdx (draws i k).val := by
  have hsum := h.sum
  obtain ⟨next, v', hround, hd⟩ := h.round draws (by omega) i
  obtain ⟨hdrawn, hrest⟩ := shuffleRound_some hround
  have hcurr : v'.curr = next := by
    have hlast := hd.last
    simp only [List.length_append, List.length_singleton, Nat.add_sub_cancel,
      List.getElem?_concat_length] at hlast
    exact (Option.some.inj hlast).symm
  rw [hcurr, hk, Nat.add_sub_cancel] at hdrawn
  refine ⟨next, v', hdrawn, hround, hd, ?_⟩
  obtain ⟨hlt, hget⟩ := List.getElem?_eq_some_iff.mp hdrawn
  rw [hrest, hcurr, ← h.candidates.erase_getElem _ hlt, hget, h.candidates.erase_eq_filter]
  exact List.filter_congr fun j _ => by by_cases hj : j = next <;> simp [hj]

/-- All rounds: the path goes on as the candidates are drawn. -/
theorem Drawing.codes {arr : List T} (draws : Draws) {k : Nat} {path : List Nat}
    {v : ShuffleVars T} (h : Drawing arr path v) (hk : v.candidates.length = k) (i : Nat) :
    ∃ v', (List.range' i k).foldlM (shuffleRound draws arr) v = some v' ∧
      Drawing arr (path ++ pick k (draws.codes i k) v.candidates) v' := by
  induction k generalizing path v i with
  | zero => exact ⟨v, rfl, by simpa [pick] using h⟩
  | succ k ih =>
    obtain ⟨next, v1, hnext, hround, hd, hrest⟩ := h.drawn draws hk i
    have hlen : v1.candidates.length = k := by
      have hlt := (List.getElem?_eq_some_iff.mp hnext).1
      rw [hrest, List.length_eraseIdx_of_lt hlt, hk, Nat.add_sub_cancel]
    obtain ⟨v', hv', hd'⟩ := ih hd hlen (i + 1)
    refine ⟨v', ?_, ?_⟩
    · rw [List.range'_succ, List.foldlM_cons, hround]
      exact hv'
    · have hpick : pick (k + 1) (draws.codes i (k + 1)) v.candidates =
          next :: pick k (draws.codes (i + 1) k) v1.candidates := by
        rw [pick, hrest]
        simp only [Draws.codes, hnext]
      rw [hpick]
      simpa using hd'

/-- The indices that are candidates. -/
def candidates (m : Nat) : List (Fin (m + 1)) := (List.finRange m).map Fin.succ

@[simp] theorem candidates_length (m : Nat) : (candidates m).length = m := by
  simp [candidates]

theorem candidates_val (m : Nat) : (candidates m).map Fin.val = List.range' 1 m := by
  have hrange : (List.finRange m).map Fin.val = List.range m := by simp
  rw [candidates, List.map_map, List.range'_eq_map_range, ← hrange, List.map_map]
  exact List.map_congr_left fun i _ => by simp [Nat.add_comm]

theorem zero_candidates_nodup (m : Nat) : ((0 : Fin (m + 1)) :: candidates m).Nodup := by
  rw [candidates, ← List.finRange_succ]
  exact List.nodup_finRange _

theorem mem_zero_candidates (m : Nat) (i : Fin (m + 1)) : i ∈ 0 :: candidates m := by
  rw [candidates, ← List.finRange_succ]
  exact List.mem_finRange i

/-- The permutation that a sequence of draws gives. -/
def shuffleCycle {m : Nat} (c : Codes m) : Equiv.Perm (Fin (m + 1)) :=
  (0 :: pick m c (candidates m)).formPerm

/-- Before every round there are as many candidates as rounds left, so the
    draw is from `0` to `candidates.length - 1`, and no index is out of
    range. -/
def RoundsOk (draws : Draws) (arr : List T) : Prop :=
  ∀ j, j + 1 < arr.length → ∃ v v', (List.range' 1 j).foldlM (shuffleRound draws arr)
      { arr := arr, candidates := List.range' 1 (arr.length - 1), curr := 0 } = some v ∧
    v.candidates.length = arr.length - 1 - j ∧ v.curr < v.arr.length ∧
    shuffleRound draws arr v (j + 1) = some v' ∧ v'.curr < v'.arr.length

theorem shuffle_array_rounds (draws : Draws) {arr : List T} (hpos : 0 < arr.length) :
    RoundsOk draws arr := by
  intro j hj
  obtain ⟨path, v, hv, hd, hlen⟩ := (Drawing.start hpos).rounds draws (List.range' 1 j)
    (by simp; omega)
  rw [List.length_singleton, List.length_range'] at hlen
  obtain ⟨next, v', hround, hd'⟩ := hd.round draws (by omega) (j + 1)
  have hsum := hd.sum
  refine ⟨v, v', hv, by omega, ?_, hround, ?_⟩
  · rw [hd.length]
    exact hd.bound _ (List.mem_of_getElem? hd.last)
  · rw [hd'.length]
    exact hd'.bound _ (List.mem_of_getElem? hd'.last)

/-- The result is the array read along the cycle that was drawn. -/
theorem shuffle_array_cycle (draws : Draws) {arr : List T} {m : Nat} (hm : arr.length = m + 1)
    (hint : arr.length < 2 ^ 31) :
    ∃ arr', shuffle_array draws arr = some arr' ∧ arr'.length = arr.length ∧
      ∀ i : Fin (m + 1), arr'[i.val]? = arr[(shuffleCycle (draws.codes 1 m) i).val]? := by
  have hpos : 0 < arr.length := by omega
  obtain ⟨x, hx⟩ : ∃ x, arr[0]? = some x := ⟨_, List.getElem?_eq_getElem hpos⟩
  obtain ⟨v, hv, hd⟩ := (Drawing.start hpos).codes draws
    (show (List.range' 1 (arr.length - 1)).length = m by simp [hm]) 1
  simp only [hm, Nat.add_sub_cancel] at hv hd
  -- the path on numbers is the one on indices
  have hpath : [0] ++ pick m (draws.codes 1 m) (List.range' 1 m) =
      (0 :: pick m (draws.codes 1 m) (candidates m)).map Fin.val := by
    rw [← candidates_val, pick_map _ _ (candidates_length m)]
    rfl
  rw [hpath] at hd
  have hperm := (pick_perm (draws.codes 1 m) (candidates_length m)).cons 0
  have hlen : (0 :: pick m (draws.codes 1 m) (candidates m)).length = m + 1 := by
    rw [hperm.length_eq]
    simp
  have hshuf := hd.close (by rw [List.length_map, hlen, hm]) hx
  refine ⟨_, ?_, hshuf.length, ?_⟩
  · rw [shuffle_array, if_pos hint]
    simp only [hm, Nat.add_sub_cancel, hv, hx, Option.map_some]
  · intro i
    have hcircuit := circuit_formPerm (hperm.nodup_iff.mpr (zero_candidates_nodup m))
    obtain ⟨k, hk, hi⟩ := List.getElem_of_mem (hperm.mem_iff.mpr (mem_zero_candidates m i))
    have hstep := hcircuit.step k hk
    rw [List.getElem?_eq_getElem hk, hi, hlen, Option.map_some] at hstep
    obtain ⟨a, b, ha, hb, hmoved⟩ := hshuf.moved k (by omega)
    rw [List.getElem?_map, List.getElem?_eq_getElem hk, hi] at ha
    rw [List.getElem?_map, hm, hstep] at hb
    rw [← Option.some.inj ha, ← Option.some.inj hb] at hmoved
    exact hmoved

/-- **Uniform shuffle**: for every array and all draws, no index is out of
    range and the result is the array read along a cyclic permutation; the
    sequences of draws, `m!` in number, correspond one to one to the cyclic
    permutations, so ideal draws make all of these equally likely. -/
theorem shuffle_array_uniform (m : Nat) (hint : m + 1 < 2 ^ 31) :
    (∀ (T : Type) (draws : Draws) (arr : List T), arr.length = m + 1 →
      RoundsOk draws arr ∧
      ∃ arr', shuffle_array draws arr = some arr' ∧ arr'.length = arr.length ∧
        ∀ i : Fin (m + 1), arr'[i.val]? = arr[(shuffleCycle (draws.codes 1 m) i).val]?) ∧
    (∀ c : Codes m, ∃ draws : Draws, draws.codes 1 m = c) ∧
    Fintype.card (Codes m) = m ! ∧
    Set.BijOn (shuffleCycle (m := m)) Set.univ {s | s.IsCycleOn Set.univ} ∧
    ∀ s : Equiv.Perm (Fin (m + 1)), s.IsCycleOn Set.univ →
      (ideal m).map shuffleCycle s = (m ! : ℝ≥0∞)⁻¹ := by
  refine ⟨?_, fun c => exists_draws c 1, card_codes m, ?_, ?_⟩
  · intro T draws arr hm
    exact ⟨shuffle_array_rounds draws (by omega), shuffle_array_cycle draws hm (by omega)⟩
  · exact cyclic_bijOn (zero_candidates_nodup m) (mem_zero_candidates m) (candidates_length m)
  · intro s hs
    exact cyclic_uniform (zero_candidates_nodup m) (mem_zero_candidates m) (candidates_length m) hs

/-- Three entries: two cyclic orders. -/
theorem shuffle_array_uniform_three :
    Fintype.card (Codes 2) = 2 ∧
      ∃ arr', shuffle_array (fun _ _ => 0) ['a', 'b', 'c'] = some arr' ∧ arr'.length = 3 := by
  obtain ⟨hrun, -, hcard, -⟩ := shuffle_array_uniform 2 (by decide)
  obtain ⟨-, arr', harr, hlen, -⟩ := hrun Char (fun _ _ => 0) ['a', 'b', 'c'] rfl
  exact ⟨hcard, arr', harr, hlen⟩

end

end Pcnt
