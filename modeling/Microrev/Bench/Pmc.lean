import Mathlib.Data.List.Basic
import Microrev.Lib.Text

/-! # PMC Counters (`counter.cpp`)

    `PMCCounter` has a member for the identifier of one PMC only. `start`
    allocates a PMC for every name, but keeps, and starts, the last one.
    `read` reads and releases that one, and appends to what was measured in
    earlier rounds. So with one name and one round everything is right, and
    in no other case.
-/

namespace Pcnt

open Text

/-! ### The Library -/

/-- `enum pmc_mode`. -/
inductive PmcMode where
  | SS | SC | TS | TC
  deriving DecidableEq

/-- Calls into the library, with what they deliver. -/
inductive PmcCall where
  | allocate (name : Text) (mode : PmcMode) (cpu : Int) (id : Nat)
  | start (id : Nat)
  | read (id : Nat) (value : BitVec 64)
  | release (id : Nat)
  deriving DecidableEq

/-- The identifiers that have been allocated and not released. -/
def held (log : List PmcCall) : List Nat :=
  log.foldl (fun ids call =>
    match call with
    | .allocate _ _ _ id => ids ++ [id]
    | .release id => ids.erase id
    | _ => ids) []

/-- The library: identifiers and values may depend on all calls before. -/
structure Pmc where
  fresh : List PmcCall → Nat
  count : List PmcCall → Nat → BitVec 64
  /-- An identifier is not given to two PMCs at a time. -/
  fresh_new : ∀ log, fresh log ∉ held log

/-! ### The Counter -/

/-- `PMCCounter`, with the members of `Counter` that it uses. -/
structure PMCCounter where
  cset : List Text
  measured : List (BitVec 64)
  core_id : Int
  pmcid : Nat
  mode : PmcMode

def max_pmc_num : Nat := 4

namespace PMCCounter

/-- The constructor from a `CounterSet`, and the assignment to `core_id`. -/
def make (cset : List Text) (core_id : Int) : PMCCounter where
  cset := cset
  measured := []
  core_id := core_id
  pmcid := 0
  mode := .SC

/-- `pmc_allocate` for one name. -/
def allocate (pmc : Pmc) (s : List PmcCall × PMCCounter) (ctr : Text) : List PmcCall × PMCCounter :=
  (s.1 ++ [.allocate ctr s.2.mode s.2.core_id (pmc.fresh s.1)], { s.2 with pmcid := pmc.fresh s.1 })

/-- `none` if the process exits. -/
def start (pmc : Pmc) (s : List PmcCall × PMCCounter) : Option (List PmcCall × PMCCounter) :=
  if max_pmc_num < s.2.cset.length then none
  else
    let s' := s.2.cset.foldl (allocate pmc) s
    some (s'.1 ++ [.start s'.2.pmcid], s'.2)

/-- `pmc_read`, once for each name. -/
def readOne (pmc : Pmc) (s : List PmcCall × PMCCounter) : List PmcCall × PMCCounter :=
  (s.1 ++ [.read s.2.pmcid (pmc.count s.1 s.2.pmcid)],
    { s.2 with measured := s.2.measured ++ [pmc.count s.1 s.2.pmcid] })

def read (pmc : Pmc) (s : List PmcCall × PMCCounter) : List PmcCall × PMCCounter :=
  let s' := s.2.cset.foldl (fun s _ => readOne pmc s) s
  (s'.1 ++ [.release s'.2.pmcid], s'.2)

/-- A start/read pair. -/
def round (pmc : Pmc) (s : List PmcCall × PMCCounter) : Option (List PmcCall × PMCCounter) :=
  (start pmc s).map (read pmc)

/-- One pair after the other. -/
def rounds (pmc : Pmc) : Nat → List PmcCall × PMCCounter → Option (List PmcCall × PMCCounter)
  | 0, s => some s
  | r + 1, s => (rounds pmc r s).bind (round pmc)

/-! ### Values and Counters -/

/-- The names and identifiers of allocated PMCs. -/
def allocations (calls : List PmcCall) : List (Text × Nat) :=
  calls.filterMap fun
    | .allocate name _ _ id => some (name, id)
    | _ => none

/-- After a round with these calls, every value is that of its counter. -/
structure Matches (calls : List PmcCall) (pc : PMCCounter) : Prop where
  length : pc.measured.length = pc.cset.length
  values : ∀ (i : Nat) (name : Text), pc.cset[i]? = some name → ∃ id v,
    (allocations calls)[i]? = some (name, id) ∧ .read id v ∈ calls ∧ pc.measured[i]? = some v
  released : ∀ e ∈ allocations calls, .start e.2 ∈ calls ∧ .release e.2 ∈ calls

/-- That is so after each of `r` rounds. -/
def AfterEach (pmc : Pmc) (s : List PmcCall × PMCCounter) (r : Nat) : Prop :=
  ∀ j < r, ∃ s1 s2, rounds pmc j s = some s1 ∧ round pmc s1 = some s2 ∧
    Matches (s2.1.drop s1.1.length) s2.2

/-! ### One Round -/

theorem held_allocate (log : List PmcCall) (name : Text) (mode : PmcMode) (cpu : Int) (id : Nat) :
    held (log ++ [.allocate name mode cpu id]) = held log ++ [id] := by
  unfold held
  rw [List.foldl_append]
  rfl

/-- The calls that allocate PMCs for the names. -/
def allocateCalls (pc : PMCCounter) (names : List Text) (ids : List Nat) : List PmcCall :=
  List.zipWith (fun name id => .allocate name pc.mode pc.core_id id) names ids

/-- The loop of `start`: no identifier comes twice, and the last one stays. -/
theorem allocate_spec (pmc : Pmc) (names : List Text) (s : List PmcCall × PMCCounter) :
    ∃ ids, ids.length = names.length ∧ ids.Nodup ∧ (∀ id ∈ ids, id ∉ held s.1) ∧
      names.foldl (allocate pmc) s =
        (s.1 ++ allocateCalls s.2 names ids, { s.2 with pmcid := ids.getLastD s.2.pmcid }) := by
  induction names generalizing s with
  | nil => exact ⟨[], rfl, List.nodup_nil, by simp, by simp [allocateCalls]⟩
  | cons name names ih =>
    obtain ⟨ids, hlen, hnodup, hnew, hfold⟩ := ih (allocate pmc s name)
    have hheld : held (allocate pmc s name).1 = held s.1 ++ [pmc.fresh s.1] :=
      held_allocate s.1 name s.2.mode s.2.core_id _
    rw [hheld] at hnew
    have hfirst : pmc.fresh s.1 ∉ ids := fun hmem => hnew _ hmem (by simp)
    refine ⟨pmc.fresh s.1 :: ids, by simp [hlen], List.nodup_cons.mpr ⟨hfirst, hnodup⟩, ?_, ?_⟩
    · intro id hid hmem
      rcases List.mem_cons.mp hid with rfl | hid
      · exact pmc.fresh_new s.1 hmem
      · exact hnew id hid (by simp [hmem])
    · rw [List.foldl_cons, hfold, List.getLastD_cons]
      simp [allocate, allocateCalls]

/-- The loop of `read`: always the same PMC. -/
theorem readOne_spec (pmc : Pmc) (names : List Text) (s : List PmcCall × PMCCounter) :
    ∃ values, values.length = names.length ∧
      names.foldl (fun s _ => readOne pmc s) s =
        (s.1 ++ values.map (.read s.2.pmcid), { s.2 with measured := s.2.measured ++ values }) := by
  induction names generalizing s with
  | nil => exact ⟨[], rfl, by simp⟩
  | cons name names ih =>
    obtain ⟨values, hlen, hfold⟩ := ih (readOne pmc s)
    refine ⟨pmc.count s.1 s.2.pmcid :: values, by simp [hlen], ?_⟩
    rw [List.foldl_cons, hfold]
    simp [readOne]

theorem read_spec (pmc : Pmc) (s : List PmcCall × PMCCounter) :
    ∃ values, values.length = s.2.cset.length ∧
      read pmc s = (s.1 ++ values.map (.read s.2.pmcid) ++ [.release s.2.pmcid],
        { s.2 with measured := s.2.measured ++ values }) := by
  obtain ⟨values, hlen, hfold⟩ := readOne_spec pmc s.2.cset s
  refine ⟨values, hlen, ?_⟩
  unfold read
  simp only [hfold]

/-- The calls of a round in which `last` is the PMC that was allocated last. -/
def roundCalls (pc : PMCCounter) (front : List Nat) (last : Nat) (values : List (BitVec 64)) :
    List PmcCall :=
  allocateCalls pc pc.cset (front ++ [last]) ++ [.start last] ++ values.map (.read last) ++
    [.release last]

/-- **One round**: all PMCs are different, one of them is started, read and
    released, and there are as many new values as names. -/
theorem round_spec (pmc : Pmc) {s : List PmcCall × PMCCounter} (hne : s.2.cset ≠ [])
    (hfew : s.2.cset.length ≤ max_pmc_num) :
    ∃ front last values, (front ++ [last]).length = s.2.cset.length ∧ (front ++ [last]).Nodup ∧
      values.length = s.2.cset.length ∧
      round pmc s = some (s.1 ++ roundCalls s.2 front last values,
        { s.2 with pmcid := last, measured := s.2.measured ++ values }) := by
  obtain ⟨ids, hlen, hnodup, -, hallocate⟩ := allocate_spec pmc s.2.cset s
  have hids : ids ≠ [] := by
    rw [← List.length_pos_iff, hlen]
    exact List.length_pos_iff.mpr hne
  obtain ⟨front, last, rfl⟩ := (List.eq_nil_or_concat ids).resolve_left hids
  rw [List.concat_eq_append] at hlen hnodup hallocate
  rw [List.getLastD_concat] at hallocate
  have hstart : start pmc s = some
      (s.1 ++ allocateCalls s.2 s.2.cset (front ++ [last]) ++ [.start last],
        { s.2 with pmcid := last }) := by
    unfold start
    rw [if_neg (by omega)]
    simp only [hallocate]
  obtain ⟨values, hvalues, hread⟩ := read_spec pmc
    (s.1 ++ allocateCalls s.2 s.2.cset (front ++ [last]) ++ [.start last],
      { s.2 with pmcid := last })
  refine ⟨front, last, values, hlen, hnodup, hvalues, ?_⟩
  unfold round
  rw [hstart, Option.map_some, hread]
  simp only [roundCalls, List.append_assoc]

theorem allocations_roundCalls (pc : PMCCounter) (front : List Nat) (last : Nat)
    (values : List (BitVec 64)) :
    allocations (roundCalls pc front last values) = pc.cset.zip (front ++ [last]) := by
  have hcalls : ∀ (names : List Text) (ids : List Nat),
      allocations (allocateCalls pc names ids) = names.zip ids := by
    intro names
    induction names with
    | nil => exact fun _ => rfl
    | cons name names ih =>
      intro ids
      cases ids with
      | nil => rfl
      | cons id ids => exact congrArg ((name, id) :: ·) (ih ids)
  have hreads : allocations (values.map (PmcCall.read last)) = [] := by
    simp [allocations]
  unfold allocations at hcalls hreads ⊢
  simp [roundCalls, hcalls, hreads]

/-- Only the last PMC is started. -/
theorem start_mem_roundCalls {pc : PMCCounter} {front : List Nat} {last id : Nat}
    {values : List (BitVec 64)} (h : PmcCall.start id ∈ roundCalls pc front last values) :
    id = last := by
  have hcalls : PmcCall.start id ∉ allocateCalls pc pc.cset (front ++ [last]) := by
    intro hmem
    unfold allocateCalls at hmem
    rw [← List.map_uncurry_zip_eq_zipWith] at hmem
    simp at hmem
  simpa [roundCalls, hcalls] using h

/-! ### All Rounds -/

theorem rounds_spec (pmc : Pmc) {s : List PmcCall × PMCCounter} (hne : s.2.cset ≠ [])
    (hfew : s.2.cset.length ≤ max_pmc_num) (r : Nat) :
    ∃ s', rounds pmc r s = some s' ∧ s'.2.cset = s.2.cset ∧
      s'.2.measured.length = s.2.measured.length + r * s.2.cset.length := by
  induction r with
  | zero => exact ⟨s, rfl, rfl, by simp⟩
  | succ r ih =>
    obtain ⟨s1, hs1, hcset, hmeasured⟩ := ih
    rw [← hcset] at hne hfew
    obtain ⟨front, last, values, -, -, hvalues, hround⟩ := round_spec pmc hne hfew
    have hstep : rounds pmc (r + 1) s = round pmc s1 := by
      rw [rounds, hs1, Option.bind_some]
    refine ⟨_, hstep.trans hround, hcset, ?_⟩
    rw [List.length_append, hmeasured, hvalues, hcset, Nat.succ_mul, Nat.add_assoc]

/-- More than one name: the first PMC is never started. -/
theorem not_matches_many {pc : PMCCounter} {front : List Nat} {last : Nat}
    {values : List (BitVec 64)} (hlen : (front ++ [last]).length = pc.cset.length)
    (hnodup : (front ++ [last]).Nodup) (hmany : 2 ≤ pc.cset.length) (pc' : PMCCounter) :
    ¬ Matches (roundCalls pc front last values) pc' := by
  intro h
  have hreleased := h.released
  rw [allocations_roundCalls] at hreleased
  cases front with
  | nil =>
    rw [List.nil_append, List.length_singleton] at hlen
    omega
  | cons id front =>
    obtain ⟨name, names, hcset⟩ :=
      List.exists_cons_of_length_pos (show 0 < pc.cset.length by omega)
    obtain ⟨hstarted, -⟩ := hreleased (name, id) (by simp [hcset])
    obtain rfl := start_mem_roundCalls hstarted
    simp at hnodup

/-- One name, and nothing measured before. -/
theorem matches_one {pc : PMCCounter} {name : Text} {last : Nat} {value : BitVec 64}
    (hcset : pc.cset = [name]) {pc' : PMCCounter} (hcset' : pc'.cset = [name])
    (hmeasured : pc'.measured = [value]) : Matches (roundCalls pc [] last [value]) pc' := by
  have hallocations : allocations (roundCalls pc [] last [value]) = [(name, last)] := by
    rw [allocations_roundCalls, hcset]
    rfl
  constructor
  · rw [hmeasured, hcset']
    rfl
  · intro i n hi
    rw [hcset', List.getElem?_singleton] at hi
    split at hi
    · next hzero =>
      obtain rfl := Option.some.inj hi
      refine ⟨last, value, ?_, by simp [roundCalls], ?_⟩
      · rw [hallocations, hzero]
        rfl
      · rw [hmeasured, hzero]
        rfl
    · simp at hi
  · intro e he
    rw [hallocations, List.mem_singleton] at he
    subst he
    simp [roundCalls]

/-- **One name and one round only**: the values are those of their counters
    after each of `r` rounds exactly if there is one name and `r` is one. -/
theorem pmc_values_match_iff (pmc : Pmc) (log : List PmcCall) (core_id : Int) {cset : List Text}
    (hne : cset ≠ []) (hfew : cset.length ≤ max_pmc_num) {r : Nat} (hr : 1 ≤ r) :
    (∃ s, rounds pmc r (log, make cset core_id) = some s) ∧
    (AfterEach pmc (log, make cset core_id) r ↔ cset.length = 1 ∧ r = 1) := by
  have hpos : 0 < cset.length := List.length_pos_iff.mpr hne
  obtain ⟨s', hs', -, -⟩ :=
    rounds_spec pmc (s := (log, make cset core_id)) hne hfew r
  refine ⟨⟨s', hs'⟩, ?_⟩
  obtain ⟨front, last, values, hlen, hnodup, hvalues, hround⟩ :=
    round_spec pmc (s := (log, make cset core_id)) hne hfew
  constructor
  · intro h
    have hone : r = 1 := by
      by_contra hmany
      -- the second round appends to the values of the first one
      obtain ⟨s1, s2, hs1, hs2, hmatches⟩ := h 1 (by omega)
      obtain ⟨s, hs, hcset, hmeasured⟩ :=
        rounds_spec pmc (s := (log, make cset core_id)) hne hfew 2
      have hsame : rounds pmc 2 (log, make cset core_id) = some s2 := by
        rw [rounds, hs1]
        exact hs2
      obtain rfl := Option.some.inj (hs.symm.trans hsame)
      have hlength := hmatches.length
      rw [hmeasured, hcset] at hlength
      simp only [make, List.length_nil] at hlength
      omega
    refine ⟨?_, hone⟩
    by_contra hnot
    obtain ⟨s1, s2, hs1, hs2, hmatches⟩ := h 0 hr
    obtain rfl := Option.some.inj hs1
    obtain rfl := Option.some.inj (hround.symm.trans hs2)
    simp only [List.drop_left] at hmatches
    exact not_matches_many hlen hnodup (show 2 ≤ cset.length by omega) _ hmatches
  · rintro ⟨hone, rfl⟩ j hj
    obtain rfl : j = 0 := by omega
    refine ⟨_, _, rfl, hround, ?_⟩
    obtain ⟨name, rfl⟩ := List.length_eq_one_iff.mp hone
    obtain ⟨value, rfl⟩ := List.length_eq_one_iff.mp hvalues
    obtain rfl : front = [] := by simpa [make] using hlen
    simp only [List.drop_left]
    exact matches_one rfl rfl rfl

/-- Identifiers are above those in use, values are identifiers. -/
def plainPmc : Pmc where
  fresh log := (held log).foldr max 0 + 1
  count _ id := BitVec.ofNat 64 id
  fresh_new log := by
    have hle : ∀ ids : List Nat, ∀ id ∈ ids, id ≤ ids.foldr max 0 := by
      intro ids
      induction ids with
      | nil => simp
      | cons id ids ih =>
        intro i hi
        rw [List.foldr_cons]
        rcases List.mem_cons.mp hi with rfl | hi
        · exact Nat.le_max_left _ _
        · exact (ih i hi).trans (Nat.le_max_right _ _)
    intro hmem
    exact absurd (hle _ _ hmem) (by omega)

/-- One name, one round. -/
theorem pmc_values_match_instructions :
    (∃ s, rounds plainPmc 1 ([], make ["instructions".toList] 0) = some s) ∧
    (AfterEach plainPmc ([], make ["instructions".toList] 0) 1 ↔
      ["instructions".toList].length = 1 ∧ 1 = 1) :=
  pmc_values_match_iff plainPmc [] 0 (by decide) (by decide) (by decide)

/-- Two names: both values are those of the second PMC, and the first one is
    neither started nor released. -/
theorem second_pmc_only :
    (rounds plainPmc 1 ([], make ["a".toList, "b".toList] 0)).map (fun s => (s.1, s.2.measured)) =
      some ([.allocate "a".toList .SC 0 1, .allocate "b".toList .SC 0 2, .start 2, .read 2 2,
        .read 2 2, .release 2], [2, 2]) ∧
    ¬ AfterEach plainPmc ([], make ["a".toList, "b".toList] 0) 1 := by
  have hrun : rounds plainPmc 1 ([], make ["a".toList, "b".toList] 0) =
      some ([.allocate "a".toList .SC 0 1, .allocate "b".toList .SC 0 2, .start 2, .read 2 2,
        .read 2 2, .release 2], { make ["a".toList, "b".toList] 0 with
          pmcid := 2, measured := [2, 2] }) := by
    rfl
  refine ⟨by rw [hrun]; rfl, ?_⟩
  intro h
  obtain ⟨s1, s2, hs1, hs2, hmatches⟩ := h 0 (by decide)
  obtain rfl := Option.some.inj hs1
  obtain rfl := Option.some.inj (hrun.symm.trans hs2)
  have hreleased := hmatches.released ("a".toList, 1) (by decide)
  exact absurd hreleased.1 (by decide)

end PMCCounter

end Pcnt
