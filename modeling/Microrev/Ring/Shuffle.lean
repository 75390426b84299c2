import Mathlib.Algebra.Group.Nat.Defs
import Mathlib.Data.List.Perm.Basic
import Mathlib.Data.List.Perm.Subperm
import Mathlib.Data.List.Range
import Mathlib.Data.List.Nodup
import Mathlib.Data.List.Rotate

/-! # Shuffling an Array (`shuffle.h`)

    `shuffle_array` does not permute its argument arbitrarily: it draws a
    path through all indices, starting at 0, and moves every entry of the
    path to the place of its predecessor. Read as a function from places to
    values, the result is a single cycle, whatever is drawn.
-/

namespace Pcnt

/-- The random choices: `draws j k` is what the `j`-th
    `uniform_int_distribution( 0, k )` returns. -/
abbrev Draws := Nat → (k : Nat) → Fin (k + 1)

section
variable {T : Type}

/-- The local variables of `shuffle_array` that its second loop changes. -/
structure ShuffleVars (T : Type) where
  arr : List T
  candidates : List Nat
  curr : Nat

/-- One round of the second loop; `none` if an index is out of range. -/
def shuffleRound (draws : Draws) (copied : List T) (v : ShuffleVars T) (i : Nat) :
    Option (ShuffleVars T) :=
  match v.candidates[(draws i (v.candidates.length - 1)).val]? with
  | none => none
  | some next =>
    match copied[next]? with
    | none => none
    | some x => some
      { arr := v.arr.set v.curr x
        -- erase( remove( .., next ) )
        candidates := v.candidates.filter (· ≠ next)
        curr := next }

/-- `shuffle_array`. Its indices are of type `int`, so a longer array is out
    of its domain; so is an empty one, whose first entry it writes. -/
def shuffle_array (draws : Draws) (arr : List T) : Option (List T) :=
  if arr.length < 2 ^ 31 then
    -- for( int i = 1; i < arr.size(); i++ ) candidates.push_back( i )
    let candidates := List.range' 1 (arr.length - 1)
    match (List.range' 1 (arr.length - 1)).foldlM (shuffleRound draws arr)
        { arr := arr, candidates := candidates, curr := 0 } with
    | none => none
    | some v => arr[0]?.map fun x => v.arr.set v.curr x
  else none

/-! ### The Path -/

/-- `arr'` has in place `path[k]` what `arr` has in place `path[k + 1]`,
    cyclically. -/
structure Shuffled (arr arr' : List T) (path : List Nat) : Prop where
  head : path[0]? = some 0
  perm : path.Perm (List.range arr.length)
  length : arr'.length = arr.length
  moved : ∀ k < arr.length, ∃ i j, path[k]? = some i ∧
    path[(k + 1) % arr.length]? = some j ∧ arr'[i]? = arr[j]?

/-- After some rounds: `path` is what has been drawn so far, everything else
    is still a candidate, and all places but the last are filled. -/
structure Drawing (arr : List T) (path : List Nat) (v : ShuffleVars T) : Prop where
  head : path[0]? = some 0
  last : path[path.length - 1]? = some v.curr
  nodup : path.Nodup
  bound : ∀ i ∈ path, i < arr.length
  length : v.arr.length = arr.length
  candidates : v.candidates.Nodup
  rest : ∀ i, i ∈ v.candidates ↔ i < arr.length ∧ i ∉ path
  moved : ∀ k, k + 1 < path.length → ∃ i j, path[k]? = some i ∧
    path[k + 1]? = some j ∧ v.arr[i]? = arr[j]?

theorem Drawing.start {arr : List T} (h : 0 < arr.length) :
    Drawing arr [0] { arr := arr, candidates := List.range' 1 (arr.length - 1), curr := 0 } where
  head := rfl
  last := rfl
  nodup := List.nodup_singleton 0
  bound := by simpa using h
  length := rfl
  candidates := List.nodup_range'
  rest i := by
    simp only [List.mem_range'_1, List.mem_singleton]
    omega
  moved k hk := by simp at hk

/-- The path and the candidates share out the indices. -/
theorem Drawing.perm {arr : List T} {path : List Nat} {v : ShuffleVars T}
    (h : Drawing arr path v) : (path ++ v.candidates).Perm (List.range arr.length) := by
  rw [List.perm_ext_iff_of_nodup _ List.nodup_range]
  · intro i
    rw [List.mem_append, h.rest, List.mem_range]
    constructor
    · rintro (hi | hi)
      · exact h.bound i hi
      · exact hi.1
    · intro hi
      by_cases hmem : i ∈ path
      · exact .inl hmem
      · exact .inr ⟨hi, hmem⟩
  · refine List.nodup_append.mpr ⟨h.nodup, h.candidates, ?_⟩
    intro a ha b hb hab
    exact ((h.rest b).mp hb).2 (hab ▸ ha)

theorem Drawing.sum {arr : List T} {path : List Nat} {v : ShuffleVars T}
    (h : Drawing arr path v) : path.length + v.candidates.length = arr.length := by
  have hlen := h.perm.length_eq
  simpa using hlen

/-- Places before the last one are not written again. -/
theorem Drawing.curr_ne {arr : List T} {path : List Nat} {v : ShuffleVars T} {k a : Nat}
    (h : Drawing arr path v) (ha : path[k]? = some a) (hk : k + 1 < path.length) :
    v.curr ≠ a := by
  intro heq
  obtain ⟨hk', hka⟩ := List.getElem?_eq_some_iff.mp ha
  obtain ⟨hlast, hcurr⟩ := List.getElem?_eq_some_iff.mp h.last
  have hsame : path[k] = path[path.length - 1] := by rw [hka, hcurr, heq]
  have hidx := (List.Nodup.getElem_inj_iff h.nodup).mp hsame
  omega

theorem shuffleRound_eq {copied : List T} {draws : Draws} {v : ShuffleVars T} {i next : Nat}
    {x : T} (hnext : v.candidates[(draws i (v.candidates.length - 1)).val]? = some next)
    (hx : copied[next]? = some x) :
    shuffleRound draws copied v i = some
      { arr := v.arr.set v.curr x
        candidates := v.candidates.filter (· ≠ next)
        curr := next } := by
  unfold shuffleRound
  rw [hnext]
  simp only [hx]

/-- One more draw. -/
theorem Drawing.round {arr : List T} {path : List Nat} {v : ShuffleVars T} (draws : Draws)
    (h : Drawing arr path v) (hmore : path.length < arr.length) (i : Nat) :
    ∃ next v', shuffleRound draws arr v i = some v' ∧ Drawing arr (path ++ [next]) v' := by
  have hsum := h.sum
  have hpos : 0 < path.length := (List.getElem?_eq_some_iff.mp h.head).1
  have hdraw : (draws i (v.candidates.length - 1)).val < v.candidates.length := by
    have := (draws i (v.candidates.length - 1)).isLt
    omega
  obtain ⟨next, hnext⟩ : ∃ next, v.candidates[(draws i (v.candidates.length - 1)).val]? =
      some next := ⟨_, List.getElem?_eq_getElem hdraw⟩
  obtain ⟨hlt, hfresh⟩ := (h.rest next).mp (List.mem_of_getElem? hnext)
  obtain ⟨x, hx⟩ : ∃ x, arr[next]? = some x := ⟨_, List.getElem?_eq_getElem hlt⟩
  refine ⟨next, _, shuffleRound_eq hnext hx, ?_⟩
  have hcurr : v.curr ∈ path := List.mem_of_getElem? h.last
  constructor
  case head => rw [List.getElem?_append_left hpos, h.head]
  case last => simp
  case nodup =>
    refine List.nodup_append.mpr ⟨h.nodup, List.nodup_singleton next, ?_⟩
    intro a ha b hb hab
    rw [List.mem_singleton.mp hb] at hab
    exact hfresh (hab ▸ ha)
  case bound =>
    intro j hj
    rcases List.mem_append.mp hj with hj | hj
    · exact h.bound j hj
    · rw [List.mem_singleton.mp hj]
      exact hlt
  case length => simpa using h.length
  case candidates => exact h.candidates.filter _
  case rest =>
    intro j
    simp only [List.mem_filter, h.rest, decide_eq_true_eq, List.mem_append, List.mem_singleton,
      not_or, and_assoc]
  case moved =>
    intro k hk
    rw [List.length_append, List.length_singleton] at hk
    by_cases hlast : k + 1 = path.length
    · -- the place filled in this round
      refine ⟨v.curr, next, ?_, by simp [hlast], ?_⟩
      · rw [List.getElem?_append_left (by omega), show k = path.length - 1 by omega, h.last]
      · have hin : v.curr < v.arr.length := by
          rw [h.length]
          exact h.bound _ hcurr
        simp [hin, hx]
    -- the store of this round is at the end of the path, not here
    · obtain ⟨a, b, ha, hb, hab⟩ := h.moved k (by omega)
      refine ⟨a, b, ?_, ?_, ?_⟩
      · rw [List.getElem?_append_left (by omega), ha]
      · rw [List.getElem?_append_left (by omega), hb]
      · rw [List.getElem?_set_ne (h.curr_ne ha (by omega))]
        exact hab

/-- Any number of the rounds that are left. -/
theorem Drawing.rounds {arr : List T} (draws : Draws) (is : List Nat) {path : List Nat}
    {v : ShuffleVars T} (h : Drawing arr path v) (hmore : path.length + is.length ≤ arr.length) :
    ∃ path' v', is.foldlM (shuffleRound draws arr) v = some v' ∧ Drawing arr path' v' ∧
      path'.length = path.length + is.length := by
  induction is generalizing path v with
  | nil => exact ⟨path, v, rfl, h, rfl⟩
  | cons i is ih =>
    rw [List.length_cons] at hmore
    obtain ⟨next, v1, hv1, h1⟩ := h.round draws (by omega) i
    obtain ⟨path', v', hv', hd, hlen⟩ :=
      ih h1 (by rw [List.length_append, List.length_singleton]; omega)
    rw [List.length_append, List.length_singleton] at hlen
    refine ⟨path', v', ?_, hd, by rw [List.length_cons]; omega⟩
    rw [List.foldlM_cons, hv1]
    exact hv'

/-- The last store closes the cycle. -/
theorem Drawing.close {arr : List T} {path : List Nat} {v : ShuffleVars T} {x : T}
    (h : Drawing arr path v) (hlen : path.length = arr.length) (hx : arr[0]? = some x) :
    Shuffled arr (v.arr.set v.curr x) path where
  head := h.head
  perm := by
    have hnone : v.candidates = [] := by
      have := h.sum
      exact List.length_eq_zero_iff.mp (by omega)
    simpa [hnone] using h.perm
  length := by simpa using h.length
  moved := by
    intro k hk
    have hin : v.curr < v.arr.length := by
      rw [h.length]
      exact h.bound _ (List.mem_of_getElem? h.last)
    by_cases hlast : k + 1 = path.length
    -- the last place gets the entry of place 0
    · refine ⟨v.curr, 0, ?_, ?_, ?_⟩
      · rw [show k = path.length - 1 by omega, h.last]
      · rw [hlast, hlen, Nat.mod_self, h.head]
      · simp [hin, hx]
    · obtain ⟨a, b, ha, hb, hab⟩ := h.moved k (by omega)
      refine ⟨a, b, ha, by rw [Nat.mod_eq_of_lt (by omega), hb], ?_⟩
      rw [List.getElem?_set_ne (h.curr_ne ha (by omega))]
      exact hab

/-- **One cycle**: whatever is drawn, `shuffle_array` moves the entries one
    step along a single path through all places. -/
theorem shuffle_array_spec (draws : Draws) {arr : List T} (hpos : 0 < arr.length)
    (hint : arr.length < 2 ^ 31) :
    ∃ arr' path, shuffle_array draws arr = some arr' ∧ Shuffled arr arr' path := by
  obtain ⟨x, hx⟩ : ∃ x, arr[0]? = some x := ⟨_, List.getElem?_eq_getElem hpos⟩
  obtain ⟨path, v, hv, hd, hlen⟩ := (Drawing.start hpos).rounds draws
    (List.range' 1 (arr.length - 1)) (by simp; omega)
  have hfull : path.length = arr.length := by
    rw [hlen, List.length_singleton, List.length_range']
    omega
  refine ⟨v.arr.set v.curr x, path, ?_, hd.close hfull hx⟩
  simp only [shuffle_array, hint, if_true, hv, hx, Option.map_some]

/-! ### Drawing the First Candidate -/

/-- Entries `1` to `k` have moved down by one place. -/
def movedDown (arr : List T) (k : Nat) : List T := (arr.drop 1).take k ++ arr.drop k

theorem movedDown_set {arr : List T} {k : Nat} {x : T} (hx : arr[k + 1]? = some x) :
    (movedDown arr k).set k x = movedDown arr (k + 1) := by
  obtain ⟨hlt, rfl⟩ := List.getElem?_eq_some_iff.mp hx
  have hlen : ((arr.drop 1).take k).length = k := by
    rw [List.length_take, List.length_drop]
    omega
  have hdrop : arr.drop k = arr[k] :: arr.drop (k + 1) := List.drop_eq_getElem_cons (by omega)
  unfold movedDown
  rw [List.set_append_right _ _ hlen.le, hlen, Nat.sub_self, hdrop, List.set_cons_zero,
    List.take_add_one, List.getElem?_drop, Nat.add_comm 1 k, hx, List.append_assoc]
  rfl

theorem rounds_first (arr : List T) (m : Nat) {k : Nat} {v : ShuffleVars T}
    (hk : k + m + 1 = arr.length) (hcand : v.candidates = List.range' (k + 1) m)
    (hcurr : v.curr = k) (harr : v.arr = movedDown arr k) :
    ∃ v', (List.range' (k + 1) m).foldlM (shuffleRound (fun _ _ => 0) arr) v = some v' ∧
      v'.curr = k + m ∧ v'.arr = movedDown arr (k + m) := by
  induction m generalizing k v with
  | zero => exact ⟨v, rfl, hcurr, harr⟩
  | succ m ih =>
    obtain ⟨x, hx⟩ : ∃ x, arr[k + 1]? = some x := ⟨_, List.getElem?_eq_getElem (by omega)⟩
    have hround : shuffleRound (fun _ _ => 0) arr v (k + 1) = some
        { arr := movedDown arr (k + 1), candidates := List.range' (k + 2) m, curr := k + 1 } := by
      have hnext : v.candidates[((fun _ _ => 0 : Draws) (k + 1) (v.candidates.length - 1)).val]? =
          some (k + 1) := by
        rw [hcand]
        rfl
      rw [shuffleRound_eq hnext hx, harr, hcurr, movedDown_set hx, hcand, List.range'_succ]
      have hrest : (List.range' (k + 1 + 1) m).filter (· ≠ k + 1) = List.range' (k + 2) m := by
        rw [List.filter_eq_self]
        intro i hi
        rw [List.mem_range'_1] at hi
        exact decide_eq_true (by omega)
      simp only [List.filter_cons, ne_eq, not_true, decide_false, Bool.false_eq_true, if_false]
      exact congrArg (fun l => some (⟨_, l, _⟩ : ShuffleVars T)) hrest
    obtain ⟨v', hrun, hcurr', harr'⟩ := ih (k := k + 1)
      (v := ⟨movedDown arr (k + 1), List.range' (k + 2) m, k + 1⟩) (by omega) rfl rfl rfl
    refine ⟨v', ?_, by rw [hcurr']; omega, by rw [harr', Nat.add_assoc, Nat.add_comm 1 m]⟩
    rw [List.range'_succ, List.foldlM_cons, hround]
    exact hrun

/-- **In order**: if the first candidate is drawn every time, all entries move
    down by one place. -/
theorem shuffle_array_first {arr : List T} (hpos : 0 < arr.length)
    (hint : arr.length < 2 ^ 31) : shuffle_array (fun _ _ => 0) arr = some (arr.rotate 1) := by
  obtain ⟨x, xs, rfl⟩ := List.exists_cons_of_length_pos hpos
  obtain ⟨v, hrun, hcurr, harr⟩ := rounds_first (x :: xs) xs.length (k := 0)
    (v := ⟨x :: xs, List.range' 1 xs.length, 0⟩) (by simp) rfl rfl rfl
  have hend : v.arr.set v.curr x = xs ++ [x] := by
    rw [hcurr, harr, Nat.zero_add]
    unfold movedDown
    rw [List.drop_one, List.tail_cons, List.take_length, List.set_append_right _ _ le_rfl,
      Nat.sub_self]
    cases hlast : (x :: xs).drop xs.length with
    | nil =>
      rw [List.drop_eq_nil_iff, List.length_cons] at hlast
      omega
    | cons y ys =>
      have hlen := congrArg List.length hlast
      rw [List.length_drop, List.length_cons, List.length_cons] at hlen
      obtain rfl := List.eq_nil_of_length_eq_zero (show ys.length = 0 by omega)
      rfl
  unfold shuffle_array
  rw [if_pos hint]
  simp only [List.length_cons, Nat.add_sub_cancel]
  rw [hrun]
  simp only [List.getElem?_cons_zero, Option.map_some, hend, List.rotate_cons_succ,
    List.rotate_zero]

end

end Pcnt
