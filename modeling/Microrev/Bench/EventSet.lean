import Microrev.Bench.Counter

/-! # Event Sets

    A counter keeps the codes of its events in `cset`, and a handle of the
    event set that PAPI counts. `add` appends to the one and replaces the
    other by a new event set. So after a second `add` PAPI counts the events
    of the last call only, and `PAPI_stop` writes their counts to the front
    of `measured`, where the events of the first call are.
-/

namespace Pcnt

open Decimal

/-! ### The Counter and PAPI -/

/-- The codes in every event set; a handle is an index. -/
abbrev EventSets := List (List Int)

/-- `PAPILLCounter` with the members that are passed to PAPI. -/
structure LLCounter extends PAPILLCounter where
  /-- The handle, none for `PAPI_NULL`. -/
  event_set : Option Nat
  max_hw_cntrs : Nat

/-- `PAPI_create_eventset`. -/
def EventSets.create (sets : EventSets) : Nat × EventSets := (sets.length, sets ++ [[]])

/-- `PAPI_add_events`. -/
def EventSets.add_events (sets : EventSets) (handle : Nat) (codes : List Int) : EventSets :=
  sets.modify handle (· ++ codes)

/-- `PAPI_stop`: the count of the `k`-th event of the set goes to slot `k`. -/
def EventSets.stop (count : Int → BitVec 64) (codes : List Int) (values : List (BitVec 64)) :
    List (BitVec 64) :=
  codes.map count ++ values.drop codes.length

/-- `std::vector::resize`. -/
def resize (values : List (BitVec 64)) (n : Nat) : List (BitVec 64) :=
  values.take n ++ List.replicate (n - values.length) 0

namespace LLCounter

/-- The codes in the event set of the counter. -/
def codes (sets : EventSets) (pc : LLCounter) : Option (List Int) :=
  pc.event_set.bind fun handle => sets[handle]?

/-- `max_hw_cntrs` is what `init` got from PAPI. -/
def make (max_hw_cntrs : Nat) : LLCounter where
  toPAPILLCounter := PAPILLCounter.make
  event_set := none
  max_hw_cntrs := max_hw_cntrs

/-- `none` if the process exits. -/
def add (papi : Papi) (events : List Text) (s : EventSets × LLCounter) :
    Option (EventSets × LLCounter) :=
  if s.2.max_hw_cntrs < events.length then none
  else
    let created := s.1.create
    if 0 < events.length then
      let codes := events.map papi.event_name_to_code
      some (created.2.add_events created.1 codes,
        { s.2 with event_set := some created.1, cset := s.2.cset ++ codes })
    else some (created.2, { s.2 with event_set := some created.1 })

def start (s : EventSets × LLCounter) : Option (EventSets × LLCounter) :=
  if 0 < s.2.cset.length then (s.2.codes s.1).map fun _ => s else some s

/-- `count` is how often PAPI has seen each event. -/
def read (count : Int → BitVec 64) (s : EventSets × LLCounter) : Option (EventSets × LLCounter) :=
  if 0 < s.2.cset.length then
    (s.2.codes s.1).map fun codes =>
      (s.1, { s.2 with
        measured := EventSets.stop count codes (resize s.2.measured s.2.cset.length) })
  else some s

/-- Calls of `add` on a new counter, then `start` and `read`. -/
def measure (papi : Papi) (count : Int → BitVec 64) (max_hw_cntrs : Nat)
    (adds : List (List Text)) (sets : EventSets) : Option (EventSets × LLCounter) :=
  ((adds.foldlM (fun s events => add papi events s) (sets, make max_hw_cntrs)).bind start).bind
    (read count)

/-! ### With One Call -/

section
variable {papi : Papi} {count : Int → BitVec 64} {s : EventSets × LLCounter}

/-- Except for the handle, `add` does what the counter without it does. -/
theorem add_toPAPILLCounter {events : List Text} {s' : EventSets × LLCounter} (w : World)
    (h : add papi events s = some s') :
    (w, s'.2.toPAPILLCounter) = PAPILLCounter.add papi events (w, s.2.toPAPILLCounter) := by
  unfold add at h
  split at h
  · simp at h
  · split at h
    · obtain rfl := Option.some.inj h
      rfl
    · next hempty =>
      obtain rfl := Option.some.inj h
      obtain rfl := List.length_eq_zero_iff.mp (Nat.eq_zero_of_not_pos hempty)
      simp [PAPILLCounter.add]

/-- So does `read`, as long as the event set is `cset`. -/
theorem read_toPAPILLCounter {s' : EventSets × LLCounter} (w : World)
    (hcodes : s.2.codes s.1 = some s.2.cset)
    (hcounts : ∀ k c, s.2.cset[k]? = some c → w.counts k = count c) (h : read count s = some s') :
    s'.2.toPAPILLCounter = (PAPILLCounter.read (w, s.2.toPAPILLCounter)).2 := by
  unfold read at h
  unfold PAPILLCounter.read
  split at h
  · next hpos =>
    rw [hcodes] at h
    obtain rfl := Option.some.inj h
    have hlen : (resize s.2.measured s.2.cset.length).length = s.2.cset.length := by
      unfold resize
      rw [List.length_append, List.length_take, List.length_replicate]
      omega
    have hvalues : EventSets.stop count s.2.cset (resize s.2.measured s.2.cset.length) =
        (List.range s.2.cset.length).map w.counts := by
      unfold EventSets.stop
      rw [List.drop_of_length_le hlen.le, List.append_nil]
      apply List.ext_getElem?
      intro k
      rw [List.getElem?_map, List.getElem?_map]
      by_cases hk : k < s.2.cset.length
      · rw [List.getElem?_range hk, List.getElem?_eq_getElem hk, Option.map_some, Option.map_some,
          hcounts k _ (List.getElem?_eq_getElem hk)]
      · rw [List.getElem?_eq_none (Nat.le_of_not_lt hk),
          List.getElem?_eq_none (by simpa using Nat.le_of_not_lt hk)]
        rfl
    rw [if_pos hpos]
    simp only [hvalues]
  · next hempty =>
    obtain rfl := Option.some.inj h
    rw [if_neg hempty]

end

/-! ### With Any Number of Calls -/

/-- Every value belongs to its event. -/
structure EachItsOwn (papi : Papi) (count : Int → BitVec 64) (s : EventSets × LLCounter) :
    Prop where
  events : s.2.codes s.1 = some s.2.cset
  values : s.2.measured = s.2.cset.map count
  /-- What `stats` prints. -/
  record : s.2.record papi =
    s.2.cset.map (fun code => (papi.event_code_to_name code, showInt (count code).toInt)) ++
      [("Cycles".toList, showDouble s.2.cycles)]

/-- After calls of `add` with the events `added`, the last of them with `last`. -/
structure Added (papi : Papi) (max_hw_cntrs : Nat) (added last : List Text)
    (s : EventSets × LLCounter) : Prop where
  cset : s.2.cset = added.map papi.event_name_to_code
  codes : s.2.codes s.1 = some (last.map papi.event_name_to_code)
  measured : s.2.measured = []
  max_hw_cntrs : s.2.max_hw_cntrs = max_hw_cntrs

section
variable {papi : Papi} {count : Int → BitVec 64} {max : Nat}

/-- One call of `add`. -/
theorem add_spec (added : List Text) {events : List Text} {s : EventSets × LLCounter}
    (hcset : s.2.cset = added.map papi.event_name_to_code) (hmeasured : s.2.measured = [])
    (hmax : s.2.max_hw_cntrs = max) (hne : events ≠ []) (hfew : events.length ≤ max) :
    ∃ s', add papi events s = some s' ∧ Added papi max (added ++ events) events s' := by
  have hlimit : ¬ s.2.max_hw_cntrs < events.length := by omega
  have hpos : 0 < events.length := List.length_pos_of_ne_nil hne
  unfold add
  rw [if_neg hlimit]
  simp only [hpos, if_true]
  refine ⟨_, rfl, ?_, ?_, hmeasured, hmax⟩
  · simp only [hcset, List.map_append]
  · simp only [codes, EventSets.add_events, EventSets.create, Option.bind_some]
    rw [List.getElem?_modify_eq, List.getElem?_concat_length]
    rfl

theorem adds_spec {adds : List (List Text)} {added last : List Text} {s : EventSets × LLCounter}
    (hne : ∀ events ∈ adds, events ≠ []) (hfew : ∀ events ∈ adds, events.length ≤ max)
    (h : Added papi max added last s) :
    ∃ s', adds.foldlM (fun s events => add papi events s) s = some s' ∧
      Added papi max (added ++ adds.flatten) (adds.getLastD last) s' := by
  induction adds generalizing added last s with
  | nil => exact ⟨s, rfl, by simpa using h⟩
  | cons events adds ih =>
    obtain ⟨s1, hs1, h1⟩ := add_spec added h.cset h.measured h.max_hw_cntrs
      (hne events List.mem_cons_self) (hfew events List.mem_cons_self)
    obtain ⟨s', hs', h'⟩ := ih (fun e he => hne e (List.mem_cons_of_mem _ he))
      (fun e he => hfew e (List.mem_cons_of_mem _ he)) h1
    refine ⟨s', ?_, ?_⟩
    · rw [List.foldlM_cons, hs1]
      exact hs'
    · rw [List.flatten_cons, ← List.append_assoc, List.getLastD_cons]
      exact h'

/-- What `start` and `read` make of that: the counts of the last events, in
    front. -/
structure Measured (papi : Papi) (count : Int → BitVec 64) (added last : List Text)
    (s : EventSets × LLCounter) : Prop where
  cset : s.2.cset = added.map papi.event_name_to_code
  codes : s.2.codes s.1 = some (last.map papi.event_name_to_code)
  measured : s.2.measured = (last.map papi.event_name_to_code).map count ++
    List.replicate (added.length - last.length) 0

theorem read_spec (count : Int → BitVec 64) {added last : List Text} {s : EventSets × LLCounter}
    (hadded : added ≠ []) (h : Added papi max added last s) :
    ∃ s', (start s).bind (read count) = some s' ∧ Measured papi count added last s' := by
  have hlen : s.2.cset.length = added.length := by rw [h.cset, List.length_map]
  have hpos : 0 < s.2.cset.length := hlen ▸ List.length_pos_of_ne_nil hadded
  have hstart : start s = some s := by
    unfold start
    rw [if_pos hpos, h.codes]
    rfl
  rw [hstart, Option.bind_some]
  unfold read
  rw [if_pos hpos, h.codes, h.measured, hlen]
  refine ⟨_, rfl, h.cset, h.codes, ?_⟩
  simp only [EventSets.stop, resize, List.take_nil, List.nil_append, List.length_nil,
    List.length_map, List.drop_replicate, Nat.sub_zero]

theorem measure_spec (papi : Papi) (count : Int → BitVec 64) {adds : List (List Text)}
    (hadds : adds ≠ []) (hne : ∀ events ∈ adds, events ≠ []) (hfew : adds.flatten.length ≤ max)
    (sets : EventSets) :
    ∃ s, measure papi count max adds sets = some s ∧
      Measured papi count adds.flatten (adds.getLastD []) s := by
  obtain ⟨events, rest, rfl⟩ := List.exists_cons_of_ne_nil hadds
  have hshort : ∀ e ∈ events :: rest, e.length ≤ max := fun e he =>
    ((List.sublist_flatten_of_mem he).length_le).trans hfew
  have hfirst := hne events List.mem_cons_self
  obtain ⟨s1, hs1, h1⟩ : ∃ s1, add papi events (sets, make max) = some s1 ∧
      Added papi max ([] ++ events) events s1 :=
    add_spec [] rfl rfl rfl hfirst (hshort events List.mem_cons_self)
  obtain ⟨s2, hs2, h2⟩ := adds_spec (fun e he => hne e (List.mem_cons_of_mem _ he))
    (fun e he => hshort e (List.mem_cons_of_mem _ he)) h1
  have hall : [] ++ events ++ rest.flatten ≠ [] := by simp [hfirst]
  obtain ⟨s, hs, h⟩ := read_spec count hall h2
  refine ⟨s, ?_, ?_⟩
  · unfold measure
    rw [List.foldlM_cons, hs1]
    show (Option.bind (rest.foldlM _ s1) start).bind (read count) = some s
    rw [hs2]
    exact hs
  · rw [List.flatten_cons, List.getLastD_cons]
    exact h

/-- More than one call has more events than the last one. -/
theorem length_last_lt {adds : List (List Text)} (hne : ∀ events ∈ adds, events ≠ [])
    (hmany : 2 ≤ adds.length) : (adds.getLastD []).length < adds.flatten.length := by
  obtain ⟨front, last, rfl⟩ := (List.eq_nil_or_concat adds).resolve_left
    (by rintro rfl; simp at hmany)
  rw [List.concat_eq_append] at hmany hne ⊢
  rw [List.length_append, List.length_singleton] at hmany
  obtain ⟨events, rest, rfl⟩ := List.exists_cons_of_length_pos (show 0 < front.length by omega)
  have hpos := List.length_pos_of_ne_nil (hne events (by simp))
  simp only [List.getLastD_concat, List.flatten_append, List.flatten_cons, List.length_append,
    List.flatten_nil, List.append_nil]
  omega

/-- **One call only**: every value belongs to its event exactly if the events
    were added in one call. -/
theorem each_its_own_iff (papi : Papi) (count : Int → BitVec 64) {adds : List (List Text)}
    (hadds : adds ≠ []) (hne : ∀ events ∈ adds, events ≠ []) (hfew : adds.flatten.length ≤ max)
    (sets : EventSets) :
    ∃ s, measure papi count max adds sets = some s ∧
      (EachItsOwn papi count s ↔ adds.length = 1) := by
  obtain ⟨s, hs, h⟩ := measure_spec papi count hadds hne hfew sets
  refine ⟨s, hs, ?_⟩
  constructor
  · intro hown
    by_contra hmany
    have hpos := List.length_pos_of_ne_nil hadds
    have hlt := length_last_lt hne (by omega)
    have hsame := Option.some.inj (h.codes.symm.trans hown.events)
    have hlen := congrArg List.length (hsame.trans h.cset)
    rw [List.length_map, List.length_map] at hlen
    omega
  · intro hone
    obtain ⟨events, rfl⟩ := List.length_eq_one_iff.mp hone
    have hcset : s.2.cset = events.map papi.event_name_to_code := by simpa using h.cset
    have hvalues : s.2.measured = s.2.cset.map count := by
      rw [h.measured, hcset]
      simp
    refine ⟨by rw [h.codes, hcset]; rfl, hvalues, ?_⟩
    have hzip : s.2.cset.zip (s.2.cset.map count) =
        s.2.cset.map fun code => (code, count code) := by
      have hmap := List.zip_map' (f := id) (g := count) (l := s.2.cset)
      rwa [List.map_id] at hmap
    unfold PAPILLCounter.record
    rw [hvalues, hzip, List.map_map]
    rfl

end

/-! ### Two Events -/

/-- `"A"` and `"B"` have the codes 1 and 2. -/
def twoEvents : Papi where
  event_name_to_code e := if e = "A".toList then 1 else 2
  event_code_to_name code := if code = 1 then "A".toList else "B".toList

/-- Both in one call. -/
theorem each_its_own_together :
    ∃ s, measure twoEvents (fun code => BitVec.ofInt 64 (10 * code)) 4
        [["A".toList, "B".toList]] [] = some s ∧
      EachItsOwn twoEvents (fun code => BitVec.ofInt 64 (10 * code)) s := by
  obtain ⟨s, hs, hown⟩ := each_its_own_iff twoEvents (fun code => BitVec.ofInt 64 (10 * code))
    (show [["A".toList, "B".toList]] ≠ [] by decide) (by decide) (show _ ≤ 4 by decide) []
  exact ⟨s, hs, hown.mpr rfl⟩

/-- One after the other: the count of the second is in front of a zero. -/
theorem second_in_front :
    ∃ s, measure twoEvents (fun code => BitVec.ofInt 64 (10 * code)) 4
        [["A".toList], ["B".toList]] [] = some s ∧
      s.2.cset = [1, 2] ∧ s.2.measured = [20, 0] ∧
      ¬ EachItsOwn twoEvents (fun code => BitVec.ofInt 64 (10 * code)) s := by
  obtain ⟨s, hs, h⟩ := measure_spec twoEvents (fun code => BitVec.ofInt 64 (10 * code))
    (show [["A".toList], ["B".toList]] ≠ [] by decide) (by decide) (show _ ≤ 4 by decide) []
  have hcset : s.2.cset = [1, 2] := h.cset
  have hmeasured : s.2.measured = [20, 0] := h.measured
  refine ⟨s, hs, hcset, hmeasured, ?_⟩
  intro hown
  have hvalues := hown.values
  rw [hmeasured, hcset] at hvalues
  exact absurd hvalues (by decide)

end LLCounter

end Pcnt
