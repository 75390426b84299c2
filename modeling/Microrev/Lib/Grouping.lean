import Mathlib.Algebra.Ring.Nat
import Mathlib.Data.List.AList

/-! # Dictionaries of Lists

    Dictionaries that collect values in lists, one value at a time, and such
    dictionaries one for each group. The order of the keys is not kept. The
    abstract view is a function from keys to lists: a key is present exactly
    when its list is not empty.
-/

namespace Grouping

variable {G K V : Type*} [DecidableEq G] [DecidableEq K]

/-- A dictionary of lists. -/
abbrev Lists (K V : Type*) [DecidableEq K] := AList fun _ : K => List V

/-- Append `v` to the list at `k`, or start one. -/
def push (d : Lists K V) (k : K) (v : V) : Lists K V :=
  match d.lookup k with
  | some vs => d.insert k (vs ++ [v])
  | none => d.insert k [v]

def pushAll (d : Lists K V) (es : List (K × V)) : Lists K V :=
  es.foldl (fun d e => push d e.1 e.2) d

/-- The values that the entries have for `k`, in order. -/
def valuesAt (es : List (K × V)) (k : K) : List V := (es.filter fun e => e.1 = k).map Prod.snd

/-- The entries of a group, in order. -/
def entriesOf (records : List (G × List (K × V))) (g : G) : List (K × V) :=
  (records.filter fun r => r.1 = g).flatMap Prod.snd

/-- The list that a dictionary of a group has for `k`, empty if there is none. -/
def listAt (res : AList fun _ : G => Lists K V) (g : G) (k : K) : List V :=
  (((res.lookup g).getD ∅).lookup k).getD []

/-- The dictionary holds the lists `f`. -/
def Holds (d : Lists K V) (f : K → List V) : Prop :=
  ∀ k, d.lookup k = if f k = [] then none else some (f k)

/-- For every group there is a dictionary that holds its entries, and none
    for anything that is not a group. -/
def Collected (res : AList fun _ : G => Lists K V) (records : List (G × List (K × V))) : Prop :=
  ∀ g, match res.lookup g with
    | none => ∀ r ∈ records, r.1 ≠ g
    | some d => (∃ r ∈ records, r.1 = g) ∧ Holds d (valuesAt (entriesOf records g))

/-- The items of the dictionaries, in any order. -/
structure Items (res : AList fun _ : G => Lists K V) (items : List (G × List (K × List V))) :
    Prop where
  keys : (items.map Prod.fst).Perm res.keys
  dicts : ∀ e ∈ items, ∃ d, res.lookup e.1 = some d ∧ (e.2.map Prod.fst).Perm d.keys ∧
    ∀ c ∈ e.2, d.lookup c.1 = some c.2

/-! ### One Dictionary -/

theorem holds_empty : Holds (∅ : Lists K V) fun _ => [] := by
  intro k
  simp

theorem Holds.push {d : Lists K V} {f : K → List V} (h : Holds d f) (k : K) (v : V) :
    Holds (push d k v) fun j => f j ++ if j = k then [v] else [] := by
  intro j
  have hk := h k
  have hinsert : Grouping.push d k v = d.insert k (f k ++ [v]) := by
    unfold Grouping.push
    by_cases hf : f k = [] <;> simp [hk, hf]
  rw [hinsert]
  by_cases hj : j = k
  · subst hj
    simp
  · rw [AList.lookup_insert_ne hj, h j]
    simp [hj]

theorem valuesAt_cons (e : K × V) (es : List (K × V)) (k : K) :
    valuesAt (e :: es) k = (if k = e.1 then [e.2] else []) ++ valuesAt es k := by
  by_cases h : e.1 = k
  · simp [valuesAt, h]
  · simp [valuesAt, h, Ne.symm h]

theorem valuesAt_append (es es' : List (K × V)) (k : K) :
    valuesAt (es ++ es') k = valuesAt es k ++ valuesAt es' k := by
  simp [valuesAt]

theorem valuesAt_eq_nil_iff (es : List (K × V)) (k : K) :
    valuesAt es k = [] ↔ k ∉ es.map Prod.fst := by
  simp only [valuesAt, List.map_eq_nil_iff, List.filter_eq_nil_iff, decide_eq_true_eq,
    List.mem_map, not_exists, not_and]

theorem Holds.pushAll {d : Lists K V} {f : K → List V} (h : Holds d f) (es : List (K × V)) :
    Holds (pushAll d es) fun k => f k ++ valuesAt es k := by
  induction es generalizing d f with
  | nil => simpa [Grouping.pushAll, valuesAt] using h
  | cons e es ih =>
    have hrest := ih (h.push e.1 e.2)
    simp only [List.append_assoc, ← valuesAt_cons] at hrest
    exact hrest

/-! ### A Dictionary for Each Group -/

theorem collected_empty : Collected (∅ : AList fun _ : G => Lists K V) [] := by
  intro g
  simp

/-- **One more record**: its entries go to the dictionary of its group. -/
theorem Collected.add {res : AList fun _ : G => Lists K V} {records : List (G × List (K × V))}
    (h : Collected res records) (g : G) (es : List (K × V)) :
    Collected (res.insert g (pushAll ((res.lookup g).getD ∅) es)) (records ++ [(g, es)]) := by
  intro j
  have hj := h j
  by_cases hjg : j = g
  · subst hjg
    rw [AList.lookup_insert]
    refine ⟨⟨(j, es), by simp, rfl⟩, ?_⟩
    have hentries : valuesAt (entriesOf (records ++ [(j, es)]) j) =
        fun k => valuesAt (entriesOf records j) k ++ valuesAt es k := by
      funext k
      simp [entriesOf, valuesAt_append]
    rw [hentries]
    apply Holds.pushAll
    cases hl : res.lookup j with
    | none =>
      simp only [hl] at hj
      have hnone : entriesOf records j = [] := by
        simpa [entriesOf] using fun a b hab heq => absurd heq (hj (a, b) hab)
      rw [hnone]
      exact holds_empty
    | some d =>
      simp only [hl] at hj
      exact hj.2
  · rw [AList.lookup_insert_ne hjg]
    have hentries : entriesOf (records ++ [(g, es)]) j = entriesOf records j := by
      simp [entriesOf, Ne.symm hjg]
    rw [hentries]
    cases hl : res.lookup j with
    | none =>
      simp only [hl] at hj ⊢
      intro r hr
      rcases List.mem_append.mp hr with hr | hr
      · exact hj r hr
      · rw [List.mem_singleton.mp hr]
        exact Ne.symm hjg
    | some d =>
      simp only [hl] at hj ⊢
      obtain ⟨⟨r, hr, hrj⟩, hd⟩ := hj
      exact ⟨⟨r, List.mem_append_left _ hr, hrj⟩, hd⟩

/-- The keys are the groups. -/
theorem Collected.mem_iff {res : AList fun _ : G => Lists K V} {records : List (G × List (K × V))}
    (h : Collected res records) (g : G) : g ∈ res ↔ ∃ r ∈ records, r.1 = g := by
  have hg := h g
  rw [← AList.lookup_isSome]
  cases hl : res.lookup g with
  | none =>
    simp only [hl] at hg
    simpa using fun es hmem => hg (g, es) hmem rfl
  | some d =>
    simp only [hl] at hg
    simpa using hg.1

/-- The lists are the values, in order. -/
theorem Collected.listAt_eq {res : AList fun _ : G => Lists K V}
    {records : List (G × List (K × V))} (h : Collected res records) (g : G) (k : K) :
    listAt res g k = valuesAt (entriesOf records g) k := by
  have hg := h g
  unfold listAt
  cases hl : res.lookup g with
  | none =>
    simp only [hl] at hg
    have hnone : entriesOf records g = [] := by
      simpa [entriesOf] using fun a b hab heq => absurd heq (hg (a, b) hab)
    simp [hnone, valuesAt]
  | some d =>
    simp only [hl] at hg
    rw [Option.getD_some, hg.2 k]
    split
    · next hnil => rw [hnil]; rfl
    · rfl

/-- The dictionary of a group has the names that have values. -/
theorem Collected.mem_dict_iff {res : AList fun _ : G => Lists K V}
    {records : List (G × List (K × V))} (h : Collected res records) {g : G} {d : Lists K V}
    (hd : res.lookup g = some d) (k : K) : k ∈ d ↔ k ∈ (entriesOf records g).map Prod.fst := by
  have hg := h g
  simp only [hd] at hg
  rw [← AList.lookup_isSome, hg.2 k, ← not_iff_not, ← valuesAt_eq_nil_iff]
  split
  · next hnil => simp [hnil]
  · next hne => simp [hne]

theorem listAt_eq_of_lookup {res : AList fun _ : G => Lists K V} {g : G} {d : Lists K V} {k : K}
    {values : List V} (hd : res.lookup g = some d) (hvalues : d.lookup k = some values) :
    listAt res g k = values := by
  unfold listAt
  rw [hd, Option.getD_some, hvalues, Option.getD_some]

/-- The items in the order of the entries. -/
def items (res : AList fun _ : G => Lists K V) : List (G × List (K × List V)) :=
  res.entries.map fun e => (e.1, e.2.entries.map fun c => (c.1, c.2))

theorem items_spec (res : AList fun _ : G => Lists K V) : Items res (items res) where
  keys := by
    rw [items, List.map_map]
    exact .refl _
  dicts := by
    intro e he
    obtain ⟨⟨g, d⟩, hmem, rfl⟩ := List.mem_map.mp he
    refine ⟨d, AList.mem_lookup_iff.mpr hmem, ?_, ?_⟩
    · rw [List.map_map]
      exact .refl _
    · intro c hc
      obtain ⟨⟨k, values⟩, hmem, rfl⟩ := List.mem_map.mp hc
      exact AList.mem_lookup_iff.mpr hmem

/-! ### Maps and Counts -/

variable {W : Type*}

theorem valuesAt_map (f : V → W) (es : List (K × V)) (k : K) :
    valuesAt (es.map fun e => (e.1, f e.2)) k = (valuesAt es k).map f := by
  simp [valuesAt, List.filter_map, Function.comp_def]

theorem valuesAt_length (es : List (K × V)) (k : K) :
    (valuesAt es k).length = (es.map Prod.fst).count k := by
  rw [valuesAt, List.length_map, List.count, List.countP_map, List.countP_eq_length_filter]
  rfl

/-- A name that occurs once has one value. -/
theorem valuesAt_length_one {es : List (K × V)} (hnodup : (es.map Prod.fst).Nodup) {k : K}
    (hk : k ∈ es.map Prod.fst) : (valuesAt es k).length = 1 := by
  rw [valuesAt_length]
  exact List.count_eq_one_of_mem hnodup hk

/-- How many values there are depends on the names only. -/
theorem valuesAt_length_congr {es es' : List (K × V)} (h : es.map Prod.fst = es'.map Prod.fst)
    (k : K) : (valuesAt es k).length = (valuesAt es' k).length := by
  rw [valuesAt_length, valuesAt_length, h]

theorem mem_of_mem_valuesAt {es : List (K × V)} {k : K} {v : V} (h : v ∈ valuesAt es k) :
    (k, v) ∈ es := by
  obtain ⟨e, he, rfl⟩ := List.mem_map.mp h
  obtain ⟨he, hk⟩ := List.mem_filter.mp he
  rw [← of_decide_eq_true hk]
  exact he

omit [DecidableEq K] in
theorem mem_entriesOf {records : List (G × List (K × V))} {g : G} {e : K × V} :
    e ∈ entriesOf records g ↔ ∃ r ∈ records, r.1 = g ∧ e ∈ r.2 := by
  simp [entriesOf, and_assoc]

omit [DecidableEq K] in
theorem entriesOf_map (f : V → W) (records : List (G × List (K × V))) (g : G) :
    entriesOf (records.map fun r => (r.1, r.2.map fun e => (e.1, f e.2))) g =
      (entriesOf records g).map fun e => (e.1, f e.2) := by
  simp [entriesOf, List.filter_map, List.flatMap_map, List.map_flatMap, Function.comp_def]

omit [DecidableEq K] in
/-- A group whose records come from one source only. -/
theorem entriesOf_flatMap {X : Type*} {xs : List X} {group : X → G}
    {records : X → List (G × List (K × V))} (hnodup : (xs.map group).Nodup)
    (hgroup : ∀ x ∈ xs, ∀ r ∈ records x, r.1 = group x) {x : X} (hx : x ∈ xs) :
    entriesOf (xs.flatMap records) (group x) = (records x).flatMap Prod.snd := by
  have hself : ∀ y ∈ xs, (records y).filter (fun r => r.1 = group y) = records y := fun y hy =>
    List.filter_eq_self.mpr fun r hr => decide_eq_true (hgroup y hy r hr)
  have hother : ∀ y ∈ xs, ∀ g, group y ≠ g → (records y).filter (fun r => r.1 = g) = [] :=
    fun y hy g hne => List.filter_eq_nil_iff.mpr fun r hr => by simp [hgroup y hy r hr, hne]
  suffices hfilter : (xs.flatMap records).filter (fun r => r.1 = group x) = records x by
    rw [entriesOf, hfilter]
  clear hgroup
  induction xs with
  | nil => simp at hx
  | cons y ys ih =>
    rw [List.map_cons, List.nodup_cons] at hnodup
    rw [List.flatMap_cons, List.filter_append]
    rcases List.mem_cons.mp hx with rfl | hx
    · -- the others have other groups
      have hrest : (ys.flatMap records).filter (fun r => r.1 = group x) = [] := by
        rw [List.filter_flatMap, List.flatMap_eq_nil_iff]
        intro z hz
        refine hother z (List.mem_cons_of_mem _ hz) _ ?_
        intro heq
        exact hnodup.1 (heq ▸ List.mem_map_of_mem hz)
      rw [hself x List.mem_cons_self, hrest, List.append_nil]
    · have hne : group y ≠ group x := by
        intro heq
        exact hnodup.1 (heq ▸ List.mem_map_of_mem hx)
      rw [hother y List.mem_cons_self _ hne, List.nil_append]
      exact ih hnodup.2 hx (fun z hz => hself z (List.mem_cons_of_mem _ hz))
        fun z hz => hother z (List.mem_cons_of_mem _ hz)

/-- How many values a group has for `k`. -/
theorem valuesAt_entriesOf_length (records : List (G × List (K × V))) (g : G) (k : K) :
    (valuesAt (entriesOf records g) k).length =
      ((records.filter fun r => r.1 = g).map fun r => (valuesAt r.2 k).length).sum := by
  simp only [valuesAt, entriesOf, List.length_map, List.filter_flatMap, List.length_flatMap]

end Grouping
