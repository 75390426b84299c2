import Mathlib.Data.List.ProdSigma
import Microrev.Programs.Benchmarks
import Microrev.Log.Protocols
import Microrev.Log.Tables

/-! # The Protocols Benchmark, from `main` to the Tables (`protocols.cpp`)

    16 sizes, 3 placements, 100 repetitions, 8 tests. Whatever the threads of
    all these tests do, the parser finds 384 keys in the log, and for each of
    them 100 values of every counter; and the tables lose none of them. Every
    single test measures the state in its name, up to its last store.
-/

namespace Pcnt

open Lts Text Decimal Grouping Frames Script

namespace Protocols

/-! ### The Program -/

def size_vec : List (BitVec 64) := [64, 128, 256, 512, 1024, 2048, 4096, 8192, 16384, 32768, 65536,
  131072, 262144, 524288, 1048576, 2097152]

def counters : List Text :=
  ["PAPI_TOT_INS".toList, "perf::L1-DCACHE-LOAD-MISSES".toList, "perf::L1-DCACHE-LOADS".toList]

def cnt_vec_list : List (List Text) := [counters]

/-- `static_cast<core_placement_t>( j )` for `j < 3`. -/
def placements : List CorePlacement := [.local_, .socket, .global]

/-- The body of the innermost loop. -/
def tests : List MesiType := [.load_from_modified, .load_from_exclusive,
  .load_from_shared_or_forward, .load_from_invalid, .store_on_modified, .store_on_exclusive,
  .store_on_shared_or_forward, .store_on_invalid]

def main : List Stmt :=
  size_vec.flatMap fun s => .setup s ::
    cnt_vec_list.flatMap fun c =>
      placements.flatMap fun j =>
        (List.range 100).flatMap fun _ =>
          tests.map fun t => .run_test t j c

/-! ### The Runs -/

/-- What a run is labelled with. -/
abbrev Combination := BitVec 64 × CorePlacement × MesiType

def combinations : List Combination := size_vec ×ˢ placements ×ˢ tests

theorem combinations_length : combinations.length = 384 := by
  unfold combinations
  rw [List.length_product, List.length_product]
  rfl

theorem combinations_nodup : combinations.Nodup :=
  List.Nodup.product (by decide) (List.Nodup.product (by decide) (by decide))

theorem mem_combinations {x : Combination} :
    x ∈ combinations ↔ x.1 ∈ size_vec ∧ x.2.1 ∈ placements ∧ x.2.2 ∈ tests := by
  obtain ⟨s, j, t⟩ := x
  simp [combinations]

/-- The key of a combination in the results. -/
def keyOf (x : Combination) : Key where
  test := mesi_type_des x.2.2
  placement := core_placement_des x.2.1
  size := x.1
  test_mem := by cases x.2.2 <;> decide
  placement_mem := by cases x.2.1 <;> decide

theorem mesi_type_des_injective : Function.Injective mesi_type_des := by
  intro t u h
  cases t <;> cases u <;> first | rfl | exact absurd h (by decide)

theorem core_placement_des_injective : Function.Injective core_placement_des := by
  intro c d h
  cases c <;> cases d <;> first | rfl | exact absurd h (by decide)

/-- A key names its combination. -/
theorem keyOf_text_injective : Function.Injective fun x => (keyOf x).text := by
  rintro ⟨s, j, t⟩ ⟨s', j', t'⟩ h
  have hkey : keyOf (s, j, t) = keyOf (s', j', t') := Key.text_injective h
  obtain rfl : s = s' := congrArg Key.size hkey
  obtain rfl : j = j' := core_placement_des_injective (congrArg Key.placement hkey)
  obtain rfl : t = t' := mesi_type_des_injective (congrArg Key.test hkey)
  rfl

def combination (r : TestRun) : Combination := (r.size, r.placement, r.test)

theorem key_eq (r : TestRun) : r.key = (keyOf (combination r)).text := rfl

section
variable {papi : Papi} {cores : Finset Int} {cfg : CoreConfig} {w w' : World}
variable {runs : List TestRun}

/-- The loops over a size give what they say. -/
theorem size_runs {s : BitVec 64} (hsize : w.shared.shared_data_size = s)
    (h : Exec (BenchStep papi cores cfg) (cnt_vec_list.flatMap fun c => placements.flatMap fun j =>
      (List.range 100).flatMap fun _ => tests.map fun t => .run_test t j c) w runs w') :
    runs.map (fun r => (r.cnt_vec, combination r)) = cnt_vec_list.flatMap fun c =>
      placements.flatMap fun j => (List.range 100).flatMap fun _ =>
        tests.flatMap fun t => [(c, s, j, t)] := by
  have hprotocol : ∀ t ∈ tests, t.protocol = true := by decide
  refine (h.loop (fun w => w.shared.shared_data_size = s) ?_ hsize).2
  intro c _ w1 runs w2 hw1 hc
  refine hc.loop (fun w => w.shared.shared_data_size = s) ?_ hw1
  intro j _ w1 runs w2 hw1 hj
  refine hj.loop (fun w => w.shared.shared_data_size = s) ?_ hw1
  intro _ _ w1 runs w2 hw1 hi
  refine hi.loop_map (fun w => w.shared.shared_data_size = s) ?_ hw1
  intro t ht w1 os w2 hw1 hstep
  cases hstep with
  | @run_test w1 w2 r _ hrun =>
    have hkept := hrun.kept fun heq => by
      have hp := hprotocol _ ht
      rw [heq] at hp
      contradiction
    have hr := hrun.size.trans hw1
    exact ⟨hkept.size.trans hw1, by simp [combination, hr]⟩

/-- **The runs of `main`**, in order. -/
theorem main_runs (h : Exec (BenchStep papi cores cfg) main w runs w') :
    runs.map (fun r => (r.cnt_vec, combination r)) = size_vec.flatMap fun s =>
      cnt_vec_list.flatMap fun c => placements.flatMap fun j => (List.range 100).flatMap fun _ =>
        tests.flatMap fun t => [(c, s, j, t)] := by
  refine (h.loop (fun _ => True) ?_ trivial).2
  intro s _ w1 runs w2 _ hs
  obtain ⟨os1, w3, os2, hstep, hrest, rfl⟩ := exec_cons_iff.mp hs
  cases hstep with
  | setup _ hsetup => exact ⟨trivial, size_runs (setup_config hsetup).1 hrest⟩

theorem main_mem (h : Exec (BenchStep papi cores cfg) main w runs w') {r : TestRun}
    (hr : r ∈ runs) :
    r.cnt_vec = counters ∧ combination r ∈ combinations := by
  have hmem : (r.cnt_vec, combination r) ∈ runs.map fun r => (r.cnt_vec, combination r) :=
    List.mem_map_of_mem hr
  rw [main_runs h] at hmem
  simp only [List.mem_flatMap, List.mem_cons, List.not_mem_nil, or_false, cnt_vec_list] at hmem
  obtain ⟨s, hs, c, rfl, j, hj, _, -, t, ht, heq⟩ := hmem
  obtain ⟨hc, hx⟩ := Prod.mk.inj heq
  rw [hx]
  exact ⟨hc, mem_combinations.mpr ⟨hs, hj, ht⟩⟩

/-- Each combination is run 100 times. -/
theorem main_count (h : Exec (BenchStep papi cores cfg) main w runs w') {x : Combination}
    (hx : x ∈ combinations) : (runs.filter fun r => r.key = (keyOf x).text).length = 100 := by
  have hcount : (runs.map fun r => (r.cnt_vec, combination r)).count (counters, x) = 100 := by
    obtain ⟨s, j, t⟩ := x
    obtain ⟨hs, hj, ht⟩ := mem_combinations.mp hx
    rw [main_runs h, count_flatMap_of_mem (by decide) hs, count_flatMap_of_mem (by decide)
        (show counters ∈ cnt_vec_list by decide), count_flatMap_of_mem (by decide) hj,
      count_flatMap_const, count_flatMap_of_mem (by decide) ht]
    · simp
    · exact fun u _ hne => by simp [hne.symm]
    · exact fun k _ hne => by simp [hne.symm]
    · exact fun c _ hne => by simp [hne.symm]
    · exact fun s' _ hne => by simp [hne.symm]
  rw [List.count, List.countP_map, List.countP_eq_length_filter] at hcount
  rw [← hcount]
  congr 1
  apply List.filter_congr
  intro r hr
  obtain ⟨hc, -⟩ := main_mem h hr
  rw [key_eq, Bool.eq_iff_iff]
  simp [hc, keyOf_text_injective.eq_iff]

/-- Every size can be set up, and every test keeps the ring. -/
theorem main_sound {a : Stmt} (ha : a ∈ main) : a.Sized size_vec ∧ a.RingOnly := by
  have hprotocol : ∀ t ∈ tests, t ≠ .producer_consumer := by decide
  unfold main at ha
  simp only [List.mem_flatMap, List.mem_cons, List.mem_map] at ha
  obtain ⟨s, hs, rfl | ⟨c, -, j, -, _, -, t, ht, rfl⟩⟩ := ha
  · exact ⟨hs, trivial⟩
  · exact ⟨trivial, hprotocol t ht⟩

theorem whole_sizes : ∀ size ∈ size_vec, Whole size ∧ size.toNat < 2 ^ 31 := by
  simp [size_vec, Whole]

theorem main_can (papi : Papi) (cores : Finset Int) (cfg : CoreConfig)
    (hline : w.shared.cache_line_size ≠ 0) :
    ∃ runs w', Exec (BenchStep papi cores cfg) main w runs w' :=
  exec_can_ring papi cores cfg whole_sizes (fun _ ha => (main_sound ha).1)
    (fun _ ha => (main_sound ha).2) hline

/-- Before the first test there is a `setup`. -/
theorem main_starts : ∃ rest, main = .setup 64 :: rest := by
  unfold main size_vec
  rw [List.flatMap_cons, List.cons_append]
  exact ⟨_, rfl⟩

/-- Every test of `main` finds a ring of the size that was set up last. -/
theorem main_ringed {pre post : List Stmt} {t : MesiType} {c : CorePlacement} {cnt_vec : List Text}
    (hmain : main = pre ++ .run_test t c cnt_vec :: post)
    (h : Exec (BenchStep papi cores cfg) pre w runs w') (hline : w.shared.cache_line_size = 64) :
    ∃ size ∈ size_vec, (pre.filterMap Stmt.size).getLast? = some size ∧ Ringed size w' := by
  have hwhole : ∀ size ∈ size_vec, Whole size := fun size hs => (whole_sizes size hs).1
  obtain ⟨rest, hstart⟩ := main_starts
  cases pre with
  | nil => simp [hstart] at hmain
  | cons a pre =>
    have hmem : ∀ b ∈ a :: pre, b ∈ main := fun b hb => by
      rw [hmain]
      exact List.mem_append_left _ hb
    obtain rfl : a = .setup 64 := (List.cons.inj (hmain.symm.trans hstart)).1
    obtain ⟨os1, w1, os2, hsetup, hrest, rfl⟩ := exec_cons_iff.mp h
    have hfirst : w1.shared.cache_line_size = 64 ∧ Ringed 64 w1 := by
      cases hsetup with
      | setup haddr hsetup =>
        exact ⟨(setup_config hsetup).2.trans hline, setup_ringed (by decide) hline haddr hsetup⟩
    have hsound : ∀ b ∈ pre, b.Sized size_vec ∧ b.RingOnly := fun b hb =>
      main_sound (hmem b (List.mem_cons_of_mem _ hb))
    obtain ⟨hsize, hring⟩ := exec_ringed hwhole (fun b hb => (hsound b hb).1)
      (fun b hb => (hsound b hb).2) hrest hfirst.1 (show 64 ∈ size_vec by decide) hfirst.2
    refine ⟨_, hsize, ?_, hring⟩
    show ((64 : BitVec 64) :: pre.filterMap Stmt.size).getLast? = _
    rw [List.getLast?_cons, List.getLastD_eq_getLast?]

/-! ### An Execution on Two Cores -/

theorem counters_names : (listPapi counters).Names counters := listPapi_names (by decide)

theorem main_two_cores : ∃ runs w', Exec (BenchStep (listPapi counters) {0, 1} twoCores) main
    (coldStart oneLine) runs w' := main_can _ _ _ (by decide)

/-! ### The Results -/

/-- What the parser makes of the log of `main`. -/
structure Measurements (papi : Papi) (runs : List TestRun) (res : TestRes) : Prop where
  /-- One key for each combination. -/
  keys : res.keys.Perm (combinations.map fun x => (keyOf x).text)
  /-- All dictionaries have the counters and `Cycles`. -/
  names : ∀ key d, res.lookup key = some d → d.keys.Perm (counters ++ ["Cycles".toList])
  /-- Every list has a value for each repetition. -/
  hundred : ∀ key d name values, res.lookup key = some d → d.lookup name = some values →
    values.length = 100
  /-- The values are `int(float(text))` of the texts printed, in the order of the runs. -/
  values : ∀ key name, (listAt res key name).map some =
    (valuesAt (entriesOf (runs.map fun r => (r.key, r.measuredRecord papi)) key) name).map int_float

theorem names_nodup : (counters ++ ["Cycles".toList]).Nodup := by decide

/-- What is known of the session that `main` has logged. -/
structure Logged (papi : Papi) (runs : List TestRun) (res : TestRes) : Prop where
  mem : ∀ r ∈ runs, combination r ∈ combinations
  count : ∀ x ∈ combinations, (runs.filter fun r => r.key = (keyOf x).text).length = 100
  outcome : ∀ r ∈ runs, r.Outcome papi ∧ r.test.protocol = true ∧ r.cnt_vec = counters
  collected : Collected res (runs.map fun r => r.reading papi)
  values : ∀ key name, (listAt res key name).map some =
    (valuesAt (entriesOf (runs.map fun r => (r.key, r.firstRecord papi)) key) name).map int_float

variable {res : TestRes}

theorem main_cnt_vec (h : Exec (BenchStep papi cores cfg) main w runs w')
    (hnames : papi.Names counters) :
    ∀ r ∈ runs, r.cnt_vec ≠ [] ∧ papi.Names r.cnt_vec := by
  intro r hr
  rw [(main_mem h hr).1]
  exact ⟨by decide, hnames⟩

theorem main_protocol (h : Exec (BenchStep papi cores cfg) main w runs w') :
    ∀ r ∈ runs, r.test.protocol = true := by
  have htests : ∀ t ∈ tests, t.protocol = true := by decide
  exact fun r hr => htests _ (mem_combinations.mp (main_mem h hr).2).2.2

theorem Logged.of_collected (h : Exec (BenchStep papi cores cfg) main w runs w')
    (hout : ∀ r ∈ runs, r.Outcome papi) (hnames : papi.Names counters)
    (hcol : Collected res (runs.map fun r => r.reading papi)) : Logged papi runs res where
  mem _ hr := (main_mem h hr).2
  count _ hx := main_count h hx
  outcome r hr := ⟨hout r hr, main_protocol h r hr, (main_mem h hr).1⟩
  collected := hcol
  values := collected_runs hout (fun r hr => (main_cnt_vec h hnames r hr).1)
    (fun r hr => (main_cnt_vec h hnames r hr).2) hcol

/-- The parser gets through. -/
theorem main_logged (h : Exec (BenchStep papi cores cfg) main w runs w') (hempty : w.dump = [])
    (hnames : papi.Names counters) :
    ∃ res, parse_log w'.dump = some res ∧ Logged papi runs res := by
  obtain ⟨w1, hdump, hsession⟩ := exec_session h hempty
  have hne := fun r hr => (main_cnt_vec h hnames r hr).1
  have hlast : FlushLast runs := fun r hr heq => by
    have hp := main_protocol h r (List.dropLast_subset runs hr)
    rw [heq] at hp
    contradiction
  obtain ⟨res, hres, hcol⟩ := hsession.parses hne (fun r hr => (main_cnt_vec h hnames r hr).2) hlast
  exact ⟨res, hdump ▸ hres, .of_collected h (hsession.log hne).1 hnames hcol⟩

theorem Logged.reading_names (h : Logged papi runs res) (hnames : papi.Names counters)
    {r : TestRun} (hr : r ∈ runs) :
    (r.reading papi).2.map Prod.fst = counters ++ ["Cycles".toList] := by
  obtain ⟨hout, hp, hc⟩ := h.outcome r hr
  have hfirst := hout.firstRecord_names (by rw [hc]; decide) (by rw [hc]; exact hnames)
    fun heq => by simp [heq, MesiType.protocol] at hp
  rw [← hc, ← hfirst]
  simp [TestRun.reading, readEntry]

/-- The runs with a key give its list one value each. -/
theorem Logged.length_listAt (h : Logged papi runs res) (hnames : papi.Names counters)
    (key : Text) {name : Text} (hname : name ∈ counters ++ ["Cycles".toList]) :
    (listAt res key name).length = (runs.filter fun r => r.key = key).length := by
  have hone : ∀ r ∈ runs.filter fun r => r.key = key,
      (valuesAt (r.reading papi).2 name).length = 1 := by
    intro r hr
    have hreading := h.reading_names hnames (List.mem_of_mem_filter hr)
    exact valuesAt_length_one (hreading ▸ names_nodup) (hreading ▸ hname)
  rw [h.collected.listAt_eq, valuesAt_entriesOf_length, List.filter_map, List.map_map]
  show ((runs.filter fun r => r.key = key).map fun r =>
    (valuesAt (r.reading papi).2 name).length).sum = _
  rw [List.map_congr_left hone]
  simp

theorem Logged.measurements (h : Logged papi runs res) (hnames : papi.Names counters) :
    Measurements papi runs res := by
  have hkeys : ∀ key, key ∈ res ↔ ∃ x ∈ combinations, (keyOf x).text = key := by
    intro key
    rw [h.collected.mem_iff]
    constructor
    · rintro ⟨e, he, rfl⟩
      obtain ⟨r, hr, rfl⟩ := List.mem_map.mp he
      exact ⟨combination r, h.mem r hr, rfl⟩
    · rintro ⟨x, hx, rfl⟩
      have hpos : 0 < (runs.filter fun r => r.key = (keyOf x).text).length := by
        rw [h.count x hx]
        decide
      obtain ⟨r, hr⟩ := List.exists_mem_of_length_pos hpos
      obtain ⟨hr, hkey⟩ := List.mem_filter.mp hr
      exact ⟨_, List.mem_map_of_mem hr, of_decide_eq_true hkey⟩
  have hdict : ∀ key d, res.lookup key = some d →
      ∀ name, name ∈ d ↔ name ∈ counters ++ ["Cycles".toList] := by
    intro key d hd name
    rw [h.collected.mem_dict_iff hd]
    constructor
    · intro hmem
      obtain ⟨e, he, rfl⟩ := List.mem_map.mp hmem
      obtain ⟨x, hx, -, he⟩ := mem_entriesOf.mp he
      obtain ⟨r, hr, rfl⟩ := List.mem_map.mp hx
      rw [← h.reading_names hnames hr]
      exact List.mem_map_of_mem he
    · intro hname
      have hin : key ∈ res := AList.lookup_isSome.mp (by rw [hd]; rfl)
      obtain ⟨x, hx, hkey⟩ := (h.collected.mem_iff key).mp hin
      obtain ⟨r, hr, rfl⟩ := List.mem_map.mp hx
      rw [← h.reading_names hnames hr] at hname
      obtain ⟨e, he, rfl⟩ := List.mem_map.mp hname
      exact List.mem_map_of_mem (mem_entriesOf.mpr ⟨_, List.mem_map_of_mem hr, hkey, he⟩)
  refine ⟨?_, ?_, ?_, ?_⟩
  · rw [List.perm_ext_iff_of_nodup res.keys_nodup (combinations_nodup.map keyOf_text_injective)]
    intro key
    rw [← AList.mem_keys, hkeys, List.mem_map]
  · intro key d hd
    rw [List.perm_ext_iff_of_nodup d.keys_nodup names_nodup]
    exact fun name => (AList.mem_keys).symm.trans (hdict key d hd name)
  · intro key d name values hd hvalues
    have hname : name ∈ counters ++ ["Cycles".toList] :=
      (hdict key d hd name).mp (AList.lookup_isSome.mp (by rw [hvalues]; rfl))
    have hin : key ∈ res := AList.lookup_isSome.mp (by rw [hd]; rfl)
    obtain ⟨x, hx, rfl⟩ := (hkeys key).mp hin
    rw [← listAt_eq_of_lookup hd hvalues, h.length_listAt hnames _ hname, h.count x hx]
  · intro key name
    have hrecords : (runs.map fun r => (r.key, r.firstRecord papi)) =
        runs.map fun r => (r.key, r.measuredRecord papi) := by
      apply List.map_congr_left
      intro r hr
      obtain ⟨hout, hp, hc⟩ := h.outcome r hr
      rw [hout.firstRecord_eq hp (by rw [hc]; decide)]
    rw [h.values, hrecords]

/-- **The log of the benchmark**: whatever its threads do, the parser gets
    through and finds 100 values of each counter for each combination. -/
theorem main_measures (h : Exec (BenchStep papi cores cfg) main w runs w') (hempty : w.dump = [])
    (hnames : papi.Names counters) :
    ∃ res, parse_log w'.dump = some res ∧ res.keys.length = 384 ∧ Measurements papi runs res := by
  obtain ⟨res, hres, hlogged⟩ := main_logged h hempty hnames
  have hm := hlogged.measurements hnames
  refine ⟨res, hres, ?_, hm⟩
  rw [hm.keys.length_eq, List.length_map, combinations_length]

theorem main_measures_two_cores : ∃ runs w' res,
    Exec (BenchStep (listPapi counters) {0, 1} twoCores) main (coldStart oneLine) runs w' ∧
      parse_log w'.dump = some res ∧ Measurements (listPapi counters) runs res := by
  obtain ⟨runs, w', hexec⟩ := main_two_cores
  obtain ⟨res, hres, -, hm⟩ := main_measures hexec rfl counters_names
  exact ⟨runs, w', res, hexec, hres, hm⟩

/-! ### The Tables -/

/-- The numbers in the log are far from the largest float. -/
theorem Logged.values_small (h : Logged papi runs res) (key name : Text) :
    ∀ v ∈ listAt res key name, |(v : ℚ)| ≤ 10 ^ 201 := by
  intro v hv
  have hmem : some v ∈ (listAt res key name).map some := List.mem_map_of_mem hv
  rw [h.values] at hmem
  obtain ⟨text, htext, hread⟩ := List.mem_map.mp hmem
  obtain ⟨x, hx, -, he⟩ := mem_entriesOf.mp (mem_of_mem_valuesAt htext)
  obtain ⟨r, hr, rfl⟩ := List.mem_map.mp hx
  obtain ⟨hout, hp, hc⟩ := h.outcome r hr
  obtain ⟨pc, -, hpc, -, hrecords⟩ := hout.of_protocol hp (by rw [hc]; decide)
  have hrecord : r.firstRecord papi = pc.record papi := by
    unfold TestRun.firstRecord
    rw [hrecords]
    rfl
  obtain ⟨n, rfl, hn⟩ := hpc.record_numeral _ (hrecord ▸ he)
  exact int_float_small n hn hread

variable {items : List (Text × List (Text × List ℤ))}

theorem Measurements.of_item (h : Measurements papi runs res) (hitems : Items res items)
    {e : Text × List (Text × List ℤ)} (he : e ∈ items) :
    (∃ x ∈ combinations, (keyOf x).text = e.1) ∧
      (e.2.map Prod.fst).Perm (counters ++ ["Cycles".toList]) ∧
      ∀ c ∈ e.2, listAt res e.1 c.1 = c.2 ∧ c.2.length = 100 := by
  obtain ⟨d, hd, hnames, hvalues⟩ := hitems.dicts e he
  have hkey := (hitems.keys.trans h.keys).mem_iff.mp (List.mem_map_of_mem he)
  refine ⟨by simpa using hkey, hnames.trans (h.names e.1 d hd), ?_⟩
  intro c hc
  exact ⟨listAt_eq_of_lookup hd (hvalues c hc), h.hundred e.1 d c.1 c.2 hd (hvalues c hc)⟩

/-- The dictionaries as results of tests. -/
theorem Measurements.results (h : Measurements papi runs res) (hitems : Items res items) :
    ∃ r : Results, r.test_res = items ∧ r.runs.length = 384 := by
  have hkeyed : items ∈ Set.range
      (List.map fun e : Key × List (Text × List ℤ) => (e.1.text, e.2)) := by
    rw [Set.range_list_map]
    intro e he
    obtain ⟨⟨x, -, hx⟩, -⟩ := h.of_item hitems he
    exact ⟨(keyOf x, e.2), Prod.ext hx rfl⟩
  obtain ⟨rs, rfl⟩ := hkeyed
  have hlen : rs.length = 384 := by
    have hperm := (hitems.keys.trans h.keys).length_eq
    rwa [List.length_map, List.length_map, List.length_map, combinations_length] at hperm
  have hitem := fun e he => h.of_item hitems (List.mem_map_of_mem (f := fun e : Key ×
    List (Text × List ℤ) => (e.1.text, e.2)) (a := e) (l := rs) he)
  refine ⟨⟨rs, ?_, ?_, ?_, ?_, ?_⟩, rfl, hlen⟩
  · intro hnil
    simp [hnil] at hlen
  · have hnodup := (hitems.keys.nodup_iff).mpr res.keys_nodup
    rwa [List.map_map] at hnodup
  · exact fun e he => (hitem e he).2.1.nodup_iff.mpr names_nodup
  · intro e he c hc hnil
    have hlen := ((hitem e he).2.2 c hc).2
    simp [hnil] at hlen
  · exact fun e he => (hitem e he).2.1.mem_iff.mpr (by decide)

theorem Measurements.regular (h : Measurements papi runs res) (hitems : Items res items)
    (hsmall : ∀ key name, ∀ v ∈ listAt res key name, |(v : ℚ)| ≤ 10 ^ 201) {r : Results}
    (hr : r.test_res = items) : Regular r := by
  subst hr
  have hitem : ∀ e ∈ r.runs, (∃ x ∈ combinations, keyOf x = e.1) ∧
      (e.2.map Prod.fst).Perm (counters ++ ["Cycles".toList]) ∧
      ∀ c ∈ e.2, listAt res e.1.text c.1 = c.2 := by
    intro e he
    obtain ⟨⟨x, hx, hkey⟩, hnames, hvalues⟩ := h.of_item hitems
      (List.mem_map_of_mem (f := fun e : Key × List (Text × List ℤ) => (e.1.text, e.2)) he)
    exact ⟨⟨x, hx, Key.text_injective hkey⟩, hnames, fun c hc => (hvalues c hc).1⟩
  have hname : ∀ e ∈ r.runs, ∀ c ∈ e.2, c.1 ∈ counters ++ ["Cycles".toList] := fun e he c hc =>
    (hitem e he).2.1.mem_iff.mp (List.mem_map_of_mem hc)
  have hlabels : ∀ n ∈ counters ++ ["Cycles".toList],
      n ≠ "Test".toList ∧ n ≠ "Placement".toList ∧ n ≠ "Size".toList := by decide
  constructor
  · intro e he
    obtain ⟨⟨x, hx, hkey⟩, -⟩ := hitem e he
    have hpos := (whole_sizes x.1 (mem_combinations.mp hx).1).1.1
    intro hzero
    rw [show x.1 = e.1.size from congrArg Key.size hkey, hzero] at hpos
    exact absurd hpos (by decide)
  · intro e he c hc
    have hmean := abs_statistics_mean_le (by positivity) fun v hv =>
      hsmall e.1.text c.1 v ((hitem e he).2.2 c hc ▸ hv)
    exact hmean.trans_lt twice_read_fits
  · exact fun e he c hc => ⟨(hlabels _ (hname e he c hc)).1, (hlabels _ (hname e he c hc)).2.1⟩
  · exact fun e he c hc hsize => absurd hsize (hlabels _ (hname e he c hc)).2.2
  · exact fun e he c hc =>
      .inr ((hitem _ (List.getLast_mem r.ne)).2.1.mem_iff.mpr (hname e he c hc))
  · intro e he
    obtain ⟨⟨⟨s, j, t⟩, hx, hkey⟩, -⟩ := hitem e he
    have hglobal : (s, .global, t) ∈ combinations :=
      mem_combinations.mpr ⟨(mem_combinations.mp hx).1, show .global ∈ placements by decide,
        (mem_combinations.mp hx).2.2⟩
    have hmem : (keyOf (s, .global, t)).text ∈ r.test_res.map Prod.fst :=
      (hitems.keys.trans h.keys).mem_iff.mpr (List.mem_map_of_mem hglobal)
    obtain ⟨a, ha, hkeya⟩ := List.mem_map.mp hmem
    obtain ⟨g, hg, rfl⟩ := List.mem_map.mp ha
    refine ⟨g, hg, ?_⟩
    rw [Key.text_injective hkeya, ← hkey]
    exact ⟨rfl, rfl, rfl⟩

/-- The tables have all means, for any order of the dictionaries. -/
theorem Logged.tables {F : Type} {pd : Frames.Pandas F} (hpd : Lawful pd)
    (h : Logged papi runs res) (hnames : papi.Names counters) (hitems : Items res items) :
    ∃ r : Results, r.test_res = items ∧ r.runs.length = 384 ∧ DropsNothing pd r := by
  have hm := h.measurements hnames
  obtain ⟨r, hr, hlen⟩ := hm.results hitems
  exact ⟨r, hr, hlen, (hm.regular hitems h.values_small hr).dropsNothing hpd⟩

/-- **From `main` to the tables**: for every order of the dictionaries, the
    tables have all of their means. -/
theorem main_tables {F : Type} {pd : Frames.Pandas F} (hpd : Lawful pd)
    (h : Exec (BenchStep papi cores cfg) main w runs w') (hempty : w.dump = [])
    (hnames : papi.Names counters) :
    ∃ res, parse_log w'.dump = some res ∧ ∀ items, Items res items →
      ∃ r : Results, r.test_res = items ∧ r.runs.length = 384 ∧ DropsNothing pd r := by
  obtain ⟨res, hres, hlogged⟩ := main_logged h hempty hnames
  exact ⟨res, hres, fun items hitems => hlogged.tables hpd hnames hitems⟩

theorem main_tables_two_cores : ∃ runs w' res r,
    Exec (BenchStep (listPapi counters) {0, 1} twoCores) main (coldStart oneLine) runs w' ∧
      parse_log w'.dump = some res ∧ Results.test_res r = Grouping.items res ∧
      DropsNothing Frames.plainPandas r := by
  obtain ⟨runs, w', hexec⟩ := main_two_cores
  obtain ⟨res, hres, htables⟩ := main_tables Frames.plainPandas_lawful hexec rfl counters_names
  obtain ⟨r, hr, -, hdrops⟩ := htables _ (items_spec res)
  exact ⟨runs, w', res, r, hexec, hres, hr, hdrops⟩

/-! ### The Measured States -/

/-- **Every test of `main`** is run on a ring of the size that was set up
    last, one of the list, and measures the state in its name. -/
theorem main_finds {pre post : List Stmt} {t : MesiType} {c : CorePlacement} {cnt_vec : List Text}
    (hmain : main = pre ++ .run_test t c cnt_vec :: post)
    (h : Exec (BenchStep papi cores cfg) pre w runs w') (hline : w.shared.cache_line_size = 64)
    (ha : cfg.core_src ∈ cores) (hne : cfg.core_src ≠ cfg.core_b c) :
    ∃ size ∈ size_vec, (pre.filterMap Stmt.size).getLast? = some size ∧ Ringed size w' ∧
      (t.loads = true → TestFinds papi cores cfg t c cnt_vec w'
        (LoadsFind cores (cfg.core_c c) (size.toNat / 64)
          (InState t.state cfg.core_src (cfg.core_b c)))) ∧
      (t.stores = true → TestFinds papi cores cfg t c cnt_vec w'
        (StoresFind cores (cfg.core_c c) (size.toNat / 64)
          (InState t.state cfg.core_src (cfg.core_b c)) (t.state = M_STATE ∨ t.state = I_STATE))) ∧
      (t.loads = true ∨ t.stores = true) := by
  obtain ⟨size, hsize, hlast, hring⟩ := main_ringed hmain h hline
  have hkind : ∀ t ∈ tests, t.loads = true ∨ t.stores = true := by decide
  have ht : t ∈ tests := by
    have hmem : Stmt.run_test t c cnt_vec ∈ main := by rw [hmain]; simp
    unfold main at hmem
    simp only [List.mem_flatMap, List.mem_cons, List.mem_map, reduceCtorEq, false_or] at hmem
    obtain ⟨_, -, _, -, _, -, _, -, t', ht', heq⟩ := hmem
    exact (Stmt.run_test.inj heq).1 ▸ ht'
  exact ⟨size, hsize, hlast, hring, fun hl => hring.loads hl ha hne,
    fun hst => hring.stores hst ha hne, hkind t ht⟩

theorem main_finds_two_cores : ∃ pre post runs w',
    main = pre ++ .run_test .load_from_modified .socket counters :: post ∧
      Exec (BenchStep (listPapi counters) {0, 1} twoCores) pre (coldStart oneLine) runs w' ∧
      ∃ size ∈ size_vec, Ringed size w' ∧
        TestFinds (listPapi counters) {0, 1} twoCores .load_from_modified .socket counters w'
          (LoadsFind {0, 1} 1 (size.toNat / 64) (InState M_STATE 0 1)) := by
  have hmem : Stmt.run_test .load_from_modified .socket counters ∈ main := by
    unfold main
    simp only [List.mem_flatMap, List.mem_cons, List.mem_map]
    exact ⟨64, by decide, .inr ⟨counters, by decide, .socket, by decide, 0, by decide, _,
      by decide, rfl⟩⟩
  obtain ⟨pre, post, hmain⟩ := List.append_of_mem hmem
  have hsound : ∀ a ∈ pre, a.Sized size_vec ∧ a.RingOnly := fun a ha =>
    main_sound (hmain ▸ List.mem_append_left _ ha)
  obtain ⟨runs, w', hexec⟩ := exec_can_ring (w := coldStart oneLine) (listPapi counters) {0, 1}
    twoCores whole_sizes (fun a ha => (hsound a ha).1) (fun a ha => (hsound a ha).2) (by decide)
  obtain ⟨size, hsize, -, hring, hloads, -⟩ := main_finds hmain hexec rfl (by decide) (by decide)
  exact ⟨pre, post, runs, w', hmain, hexec, size, hsize, hring, hloads rfl⟩

end

end Protocols

end Pcnt
