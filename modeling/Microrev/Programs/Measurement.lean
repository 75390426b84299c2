import Mathlib.Data.Nat.Log
import Microrev.Harness.Restart
import Microrev.Log.Config
import Microrev.Log.SizeTable
import Microrev.Programs.Benchmarks

/-! # Measuring Sizes, from `main` to the Table (`a_measurement.cpp`)

    One `CounterBenchmark` measures `reader` on smaller and smaller rings,
    from 4 MB down to one node. The nodes are `cache_size` bytes apart, but
    `reader` counts its loads by `cache_line_size`, so it goes round the ring
    several times. Each size is the label of three counters; `a_parser.py`
    makes one row of them.
-/

namespace Pcnt

open Lts Text Decimal Grouping Frames Script

namespace Measurement

/-! ### The Program -/

/-- The values of `n` in `for ( uint64_t n = ..; n >= 1; n/=2)`. -/
def halvings (n : BitVec 64) : List (BitVec 64) :=
  if 1 ≤ n then n :: halvings (n / 2) else []
termination_by n.toNat
decreasing_by
  next h =>
    have hpos : 1 ≤ n.toNat := h
    rw [BitVec.toNat_udiv]
    exact Nat.div_lt_self hpos (by decide)

/-- `std::to_string`. -/
def to_string (n : BitVec 64) : String := String.ofList (showInt n.toNat)

def event_sets : List (List Text) := [
  ["perf::PERF_COUNT_HW_CACHE_L1D:ACCESS".toList, "perf::PERF_COUNT_HW_CACHE_L1D:PREFETCH".toList],
  ["PAPI_L1_DCM".toList, "L1D:REPLACEMENT".toList, "PAPI_TOT_CYC".toList],
  ["PAPI_L2_DCM".toList, "PAPI_L2_DCH".toList]]

def vec (cores : Finset Int) (n : BitVec 64) : List Sched :=
  event_sets.map fun events => ⟨1, reader cores 1, events, to_string n⟩

def call (cores : Finset Int) (n : BitVec 64) : Call World PAPILLCounter (List Text) where
  kind := .priority
  svec := vec cores n
  warmup := 5

inductive Stmt where
  /-- `parse_cfg();` -/
  | parse_cfg
  /-- `shared_data_size = cache_size * n; setup( shared_data_size, cache_size );` -/
  | setup (n : BitVec 64)
  /-- `auto counters = cbench.counters_with_priority_schedule( vec, 5 );`, and
      `stats` for each of them. -/
  | measure (n : BitVec 64)

/-- All loads of `reader` are from the array or from the word behind it. -/
def ReadsInside (g : Shared) : Prop :=
  ∀ k < g.line_cnt g.cache_line_size,
    (g.mem.load^[k] g.shared_iter - g.shared_data).toNat ≤ g.shared_data_size.toNat

/-- `cfg` is what `parse_cfg` reads, and `malloc` gives any address with its
    alignment. A `setup` whose nodes overlap, so that `reader` would leave the
    array, has no outcome. -/
def Stmt.meaning (papi : Papi) (cores : Finset Int) (cfg : ArchConfig) :
    Stmt → ObjStmt World PAPILLCounter (List Text)
  | .parse_cfg => .work fun w w' => w' = { w with shared := { w.shared with
      shared_data_size := cfg.shared_data_size, cache_line_size := cfg.cache_line_size } }
  | .setup n => .work fun w w' => ∃ (draws : Draws) (fuel : Nat) (addr : BitVec 64) (g : Shared),
      addr.toNat % 16 = 0 ∧
      Pcnt.setup draws fuel addr (cfg.cache_size * n) cfg.cache_size
        { w.shared with shared_data_size := cfg.cache_size * n } = some g ∧
      ReadsInside g ∧ w' = { w with shared := g }
  | .measure n => .call (call cores n) (statsCalls papi)

/-- `none` if there is a division by zero: here, or in `reader`. -/
def main (cfg : ArchConfig) : Option (List Stmt) :=
  if cfg.cache_size = 0 ∨ cfg.cache_line_size = 0 ∧ cfg.cache_size ≤ 4194304 then none
  else some (.parse_cfg :: (halvings (4194304 / cfg.cache_size)).flatMap fun n =>
    [.setup n, .measure n])

/-! ### The Sizes -/

theorem half_toNat (n : BitVec 64) : (n / 2).toNat = n.toNat / 2 := BitVec.toNat_udiv

theorem mem_halvings {n m : BitVec 64} (h : m ∈ halvings n) :
    0 < m.toNat ∧ m.toNat ≤ n.toNat := by
  fun_induction halvings n with
  | case1 n hn ih =>
    have hpos : 0 < n.toNat := hn
    have hhalf := half_toNat n
    rcases List.mem_cons.mp h with rfl | h
    · exact ⟨hpos, le_rfl⟩
    · obtain ⟨hm, hle⟩ := ih h
      exact ⟨hm, by omega⟩
  | case2 n hn => exact absurd h List.not_mem_nil

theorem self_mem_halvings {n : BitVec 64} (h : 0 < n.toNat) : n ∈ halvings n := by
  have hge : 1 ≤ n := h
  rw [halvings, if_pos hge]
  exact List.mem_cons_self

theorem halvings_nodup (n : BitVec 64) : (halvings n).Nodup := by
  fun_induction halvings n with
  | case1 n hn ih =>
    refine List.nodup_cons.mpr ⟨?_, ih⟩
    intro hmem
    have hpos : 0 < n.toNat := hn
    have hle := (mem_halvings hmem).2
    have hhalf := half_toNat n
    omega
  | case2 n hn => exact List.nodup_nil

/-- **The loop** takes `n`, `n / 2`, `n / 4` and so on, down to 1. -/
theorem halvings_toNat {n : BitVec 64} (h : 0 < n.toNat) :
    (halvings n).map BitVec.toNat =
      (List.range (Nat.log 2 n.toNat + 1)).map fun k => n.toNat / 2 ^ k := by
  fun_induction halvings n with
  | case1 n hn ih =>
    have hhalf := half_toNat n
    rw [List.map_cons, List.range_succ_eq_map, List.map_cons, List.map_map, pow_zero, Nat.div_one]
    congr 1
    rcases Nat.lt_or_ge n.toNat 2 with hlt | hge
    · -- the last pass
      have hnone : halvings (n / 2) = [] := by
        rw [List.eq_nil_iff_forall_not_mem]
        intro m hm
        obtain ⟨hpos, hle⟩ := mem_halvings hm
        omega
      rw [hnone, Nat.log_of_lt hlt]
      rfl
    · have hlog : Nat.log 2 n.toNat = Nat.log 2 (n.toNat / 2) + 1 :=
        Nat.log_of_one_lt_of_le (by decide) hge
      rw [ih (by omega), hhalf, hlog]
      apply List.map_congr_left
      intro k _
      rw [Function.comp_apply, Nat.pow_succ', Nat.div_div_eq_div_mul]
  | case2 n hn => exact absurd h hn

theorem to_string_text (n : BitVec 64) : (to_string n).toList = showInt n.toNat :=
  String.toList_ofList

theorem to_string_ne (n : BitVec 64) : to_string n ≠ "" := by
  intro hempty
  have htext := (to_string_text n).symm.trans (congrArg String.toList hempty)
  exact (intNumeral n.toNat).text_ne htext

theorem digits_to_string (n : BitVec 64) : Digits (to_string n).toList := by
  have htext : showInt n.toNat = Nat.toDigits 10 n.toNat := by
    simp [showInt, Numeral.text, intNumeral, fractionText, exponentText, signText]
  rw [to_string_text, htext]
  exact digits_toDigits _

/-- The label can be read. -/
theorem int_label (n : BitVec 64) : int_text (to_string n).toList = some (n.toNat : ℤ) := by
  have hlt := n.isLt
  rw [to_string_text]
  exact int_text_showInt (by omega)

theorem label_injective : Function.Injective fun n => (to_string n).toList := by
  intro n m h
  have hread := congrArg int_text h
  simp only [int_label, Option.some.injEq, Nat.cast_inj] at hread
  exact BitVec.eq_of_toNat_eq hread

/-! ### The Log -/

section
variable {papi : Papi} {cores : Finset Int} {cfg : ArchConfig} {w w' : World} {n : BitVec 64}
variable {ns : List (BitVec 64)} {os : List (List PAPILLCounter)}

theorem vec_measures (cores : Finset Int) (n : BitVec 64) :
    ∀ sch ∈ vec cores n, Measures sch.benchmark ∧ sch.events ≠ [] := by
  have hne : ∀ events ∈ event_sets, events ≠ [] := by decide
  intro sch hsch
  obtain ⟨events, hevents, rfl⟩ := List.mem_map.mp hsch
  exact ⟨measures_reader, hne events hevents⟩

/-- All calls are priority calls. -/
theorem meaning_priority (as : List Stmt) :
    ∀ a ∈ as.map (Stmt.meaning papi cores cfg), a.Priority := by
  rw [List.forall_mem_map]
  intro a _
  cases a <;> simp [Stmt.meaning, ObjStmt.Priority, call]

/-- The loop, one pass after the other. -/
theorem loop_log (h : Exec (SeriesStep (papiApi papi))
      ((ns.flatMap fun n => [.setup n, .measure n]).map (Stmt.meaning papi cores cfg)) w os w') :
    List.Forall₂ (fun n counters => List.Forall₂ (Sampled papi) (vec cores n) counters) ns os ∧
      w'.dump = w.dump ++ unlines (os.flatten.flatMap fun pc => pc.lines papi) := by
  rw [List.map_flatMap] at h
  refine h.loop_each [] (fun past w' =>
    w'.dump = w.dump ++ unlines (past.flatten.flatMap fun pc => pc.lines papi)) ?_ (by simp)
  intro n _ past w1 os w3 hw1 hpass
  obtain ⟨os1, w2, os2, hsetup, hmeasure, rfl⟩ := exec_cons_iff.mp hpass
  obtain ⟨rfl, _, _, _, g, -, -, -, rfl⟩ := SeriesStep.of_work hsetup
  obtain ⟨rfl, rfl⟩ := SeriesStep.of_call (exec_singleton_iff.mp hmeasure)
  obtain ⟨hdump, hsampled⟩ := series_sampled papi (vec_measures cores n) 5
    { w1 with shared := g }
  refine ⟨_, rfl, hsampled, ?_⟩
  simp only [call]
  rw [statsCalls_dump, hdump, hw1, List.flatten_append, List.flatMap_append, unlines_append,
    List.append_assoc]
  simp

/-! ### The Parser -/

/-- The names that one pass prints, counter by counter. -/
def printed : List Text := event_sets.flatMap fun events => events ++ ["Cycles".toList]

section
variable {counters : List PAPILLCounter}

/-- What is printed for one schedule. -/
structure PrintsFor (papi : Papi) (n : BitVec 64) (sch : Sched) (pc : PAPILLCounter) : Prop where
  printable : Printable papi pc
  labelled : pc.Labelled
  label : pc.label = to_string n
  names : (pc.record papi).map Prod.fst = sch.events ++ ["Cycles".toList]

theorem pass_prints (hnames : papi.Names event_sets.flatten)
    (h : List.Forall₂ (Sampled papi) (vec cores n) counters) :
    List.Forall₂ (PrintsFor papi n) (vec cores n) counters := by
  have hev : ∀ events ∈ event_sets, events ≠ [] ∧
      ∀ e ∈ events, e ≠ [] ∧ ¬ "~~".toList <+: e := by decide
  refine ((List.forall₂_and_left _ _).mpr ⟨fun sch hsch => hsch, h⟩).imp ?_
  rintro sch pc ⟨hsch, hs⟩
  obtain ⟨events, hevents, rfl⟩ := List.mem_map.mp hsch
  obtain ⟨hne, hun⟩ := hev events hevents
  have hmine : papi.Names events := fun e he => hnames e (List.mem_flatten_of_mem hevents he)
  have hprint : Printable papi pc := hs.printable (digits_to_string n) hmine hun
  refine ⟨hprint, hs.labelled hne (to_string_ne n), hs.label, ?_⟩
  rw [hprint.record_names, hs.code_names hmine]

theorem pass_names (h : List.Forall₂ (PrintsFor papi n) (vec cores n) counters) :
    (counters.flatMap fun pc => pc.record papi).map Prod.fst = printed := by
  have hsets : (vec cores n).map (fun sch => sch.events ++ ["Cycles".toList]) =
      counters.map fun pc => (pc.record papi).map Prod.fst := by
    rw [← List.forall₂_eq_eq_eq, List.forall₂_map_left_iff, List.forall₂_map_right_iff]
    exact h.imp fun sch pc hpc => hpc.names.symm
  rw [List.map_flatMap, List.flatMap_def, ← hsets, vec, List.map_map]
  rfl

end

/-- The runs of the loop. -/
abbrev Passes (papi : Papi) (cores : Finset Int) (ns : List (BitVec 64))
    (os : List (List PAPILLCounter)) : Prop :=
  List.Forall₂ (fun n counters => List.Forall₂ (PrintsFor papi n) (vec cores n) counters) ns os

/-- The records, size by size. -/
def records (papi : Papi) (ns : List (BitVec 64)) (os : List (List PAPILLCounter)) :
    List (Text × List (Text × Text)) :=
  (ns.zip os).flatMap fun p => p.2.map fun pc => ((to_string p.1).toList, pc.record papi)

theorem records_reading (h : Passes papi cores ns os) :
    os.flatten.map (PAPILLCounter.reading papi) =
      (records papi ns os).map fun x => (x.1, x.2.map readEntry) := by
  induction h with
  | nil => rfl
  | @cons n counters ns os hpass _ ih =>
    have hone : counters.map (PAPILLCounter.reading papi) =
        counters.map fun pc => ((to_string n).toList, (pc.record papi).map readEntry) := by
      apply List.map_congr_left
      intro pc hpc
      obtain ⟨sch, -, hs⟩ := exists_left hpass pc hpc
      rw [PAPILLCounter.reading, hs.label]
    rw [List.flatten_cons, List.map_append, ih, hone]
    simp [records, Function.comp_def]

theorem Passes.printable (h : Passes papi cores ns os) :
    ∀ pc ∈ os.flatten, Printable papi pc ∧ pc.Labelled := by
  intro pc hpc
  obtain ⟨counters, hc, hpc⟩ := List.mem_flatten.mp hpc
  obtain ⟨n, -, hpass⟩ := exists_left h counters hc
  obtain ⟨sch, -, hs⟩ := exists_left hpass pc hpc
  exact ⟨hs.printable, hs.labelled⟩

/-- The parser gets through, and finds the records of all sizes. -/
theorem passes_parsed (h : Passes papi cores ns os)
    (hdump : w'.dump = unlines (os.flatten.flatMap fun pc => pc.lines papi)) :
    ∃ res, AParser.parse_log w'.dump = some res ∧
      Collected res ((records papi ns os).map fun x => (x.1, x.2.map readEntry)) := by
  have hall := h.printable
  have honly : ∀ l ∈ os.flatten.flatMap fun pc => pc.lines papi, OnlyBlanks l := by
    intro l hl
    obtain ⟨pc, hpc, hl⟩ := List.mem_flatMap.mp hl
    exact (hall pc hpc).1.onlyBlanks l hl
  obtain ⟨res, hres, hcol⟩ := parse_loop_calls (fun pc hpc => (hall pc hpc).1) collected_empty
  refine ⟨res, ?_, ?_⟩
  · unfold AParser.parse_log
    rw [hdump, lines_written honly]
    exact hres
  · rw [List.nil_append,
      List.filter_eq_self.mpr fun pc hpc => decide_eq_true (hall pc hpc).2] at hcol
    exact records_reading h ▸ hcol

/-! ### The Results -/

/-- What the parser finds for the passes of the loop. -/
structure Results (papi : Papi) (ns : List (BitVec 64)) (os : List (List PAPILLCounter))
    (res : TestRes) : Prop where
  /-- The keys are the sizes. -/
  keys : res.keys.Perm (ns.map fun n => (to_string n).toList)
  /-- Each size has all events, and the cycles. -/
  names : ∀ key d, res.lookup key = some d →
    d.keys.Perm (event_sets.flatten ++ ["Cycles".toList])
  /-- One value of each event, and the cycles of three counters. -/
  lengths : ∀ n ∈ ns, ∀ name ∈ event_sets.flatten ++ ["Cycles".toList],
    (listAt res (to_string n).toList name).length = if name = "Cycles".toList then 3 else 1
  /-- The lists are `int(float(text))` of what the counters of this size printed. -/
  values : List.Forall₂ (fun n counters => ∀ name,
    (listAt res (to_string n).toList name).map some =
      (valuesAt (counters.flatMap fun pc => pc.record papi) name).map int_float) ns os

/-- The entries of a size are those of its own pass. -/
theorem entriesOf_label (hnodup : ns.Nodup) (h : Passes papi cores ns os)
    {counters : List PAPILLCounter} (hmem : (n, counters) ∈ ns.zip os) :
    entriesOf (records papi ns os) (to_string n).toList =
      counters.flatMap fun pc => pc.record papi := by
  have hzip : ((ns.zip os).map fun p => (to_string p.1).toList).Nodup := by
    have hfst : (ns.zip os).map Prod.fst = ns := List.map_fst_zip h.length_eq.le
    have hlabels := hnodup.map label_injective
    rwa [← hfst, List.map_map] at hlabels
  have hgroup : ∀ p ∈ ns.zip os, ∀ r ∈ p.2.map fun pc =>
      ((to_string p.1).toList, pc.record papi), r.1 = (to_string p.1).toList := by
    intro p _ r hr
    obtain ⟨pc, -, rfl⟩ := List.mem_map.mp hr
    rfl
  have hentries := entriesOf_flatMap hzip hgroup hmem
  rw [List.flatMap_map] at hentries
  exact hentries

theorem mem_records {x : Text × List (Text × Text)} : x ∈ records papi ns os ↔
    ∃ n counters, (n, counters) ∈ ns.zip os ∧
      ∃ pc ∈ counters, x = ((to_string n).toList, pc.record papi) := by
  simp [records, eq_comm]

/-- The names of a pass, without repetition. -/
theorem mem_printed {name : Text} :
    name ∈ printed ↔ name ∈ event_sets.flatten ++ ["Cycles".toList] := by
  have hsub : ∀ name ∈ printed, name ∈ event_sets.flatten ++ ["Cycles".toList] := by decide
  have hsup : ∀ name ∈ event_sets.flatten ++ ["Cycles".toList], name ∈ printed := by decide
  exact ⟨hsub name, hsup name⟩

theorem Passes.results (h : Passes papi cores ns os) (hnodup : ns.Nodup) {res : TestRes}
    (hcol : Collected res ((records papi ns os).map fun x => (x.1, x.2.map readEntry))) :
    Results papi ns os res := by
  obtain ⟨hlen, hzip⟩ := List.forall₂_iff_zip.mp h
  have hpass : ∀ n ∈ ns, ∃ counters, (n, counters) ∈ ns.zip os := by
    intro n hn
    rw [← List.map_fst_zip hlen.le, List.mem_map] at hn
    obtain ⟨⟨n, counters⟩, hmem, rfl⟩ := hn
    exact ⟨counters, hmem⟩
  have hread : ∀ x ∈ records papi ns os, ∀ e ∈ x.2, Readable e := by
    intro x hx
    obtain ⟨n, counters, hmem, pc, hpc, rfl⟩ := mem_records.mp hx
    obtain ⟨sch, -, hs⟩ := exists_left (hzip hmem) pc hpc
    exact hs.printable.record_readable
  have hvalues : ∀ n counters, (n, counters) ∈ ns.zip os → ∀ name,
      (listAt res (to_string n).toList name).map some =
        (valuesAt (counters.flatMap fun pc => pc.record papi) name).map int_float := by
    intro n counters hmem name
    rw [collected_readable hcol hread, entriesOf_label hnodup h hmem]
  have hentries : ∀ n ∈ ns, (entriesOf ((records papi ns os).map fun x =>
      (x.1, x.2.map readEntry)) (to_string n).toList).map Prod.fst = printed := by
    intro n hn
    obtain ⟨counters, hmem⟩ := hpass n hn
    have hentry : readEntry = fun e => (e.1, (int_float e.2).getD 0) := rfl
    rw [hentry, entriesOf_map fun text => (int_float text).getD 0, List.map_map,
      entriesOf_label hnodup h hmem]
    exact pass_names (hzip hmem)
  have hkeys : ∀ key, key ∈ res ↔ ∃ n ∈ ns, (to_string n).toList = key := by
    intro key
    rw [hcol.mem_iff]
    constructor
    · rintro ⟨r, hr, rfl⟩
      obtain ⟨x, hx, rfl⟩ := List.mem_map.mp hr
      obtain ⟨n, counters, hmem, pc, -, rfl⟩ := mem_records.mp hx
      exact ⟨n, (List.of_mem_zip hmem).1, rfl⟩
    · rintro ⟨n, hn, rfl⟩
      have hcycles : "Cycles".toList ∈ (entriesOf ((records papi ns os).map fun x =>
          (x.1, x.2.map readEntry)) (to_string n).toList).map Prod.fst := by
        rw [hentries n hn]
        decide
      obtain ⟨e, he, -⟩ := List.mem_map.mp hcycles
      obtain ⟨r, hr, hkey, -⟩ := mem_entriesOf.mp he
      exact ⟨r, hr, hkey⟩
  constructor
  case keys =>
    rw [List.perm_ext_iff_of_nodup res.keys_nodup (hnodup.map label_injective)]
    intro key
    rw [← AList.mem_keys, hkeys, List.mem_map]
  case names =>
    intro key d hd
    obtain ⟨n, hn, rfl⟩ := (hkeys key).mp (AList.lookup_isSome.mp (by rw [hd]; rfl))
    rw [List.perm_ext_iff_of_nodup d.keys_nodup (by decide)]
    intro name
    rw [← AList.mem_keys, hcol.mem_dict_iff hd, hentries n hn, mem_printed]
  case lengths =>
    have hcount : ∀ name ∈ event_sets.flatten ++ ["Cycles".toList],
        @List.count Text instBEqOfDecidableEq name printed =
          if name = "Cycles".toList then 3 else 1 := by decide
    intro n hn name hname
    rw [hcol.listAt_eq, valuesAt_length, hentries n hn]
    exact hcount name hname
  case values => exact List.forall₂_iff_zip.mpr ⟨hlen, fun hmem => hvalues _ _ hmem⟩

/-- The numbers in the log are far from the largest float. -/
theorem Passes.values_small (h : Passes papi cores ns os) {res : TestRes}
    (hcol : Collected res ((records papi ns os).map fun x => (x.1, x.2.map readEntry)))
    (key name : Text) : ∀ v ∈ listAt res key name, |(v : ℚ)| ≤ 10 ^ 201 := by
  have hprint : ∀ x ∈ records papi ns os, ∃ pc, Printable papi pc ∧ x.2 = pc.record papi := by
    intro x hx
    obtain ⟨n, counters, hmem, pc, hpc, rfl⟩ := mem_records.mp hx
    obtain ⟨sch, -, hs⟩ := exists_left (List.forall₂_zip h hmem) pc hpc
    exact ⟨pc, hs.printable, rfl⟩
  have hread : ∀ x ∈ records papi ns os, ∀ e ∈ x.2, Readable e := by
    intro x hx
    obtain ⟨pc, hpc, hrecord⟩ := hprint x hx
    rw [hrecord]
    exact hpc.record_readable
  intro v hv
  have hmem : some v ∈ (listAt res key name).map some := List.mem_map_of_mem hv
  rw [collected_readable hcol hread] at hmem
  obtain ⟨text, htext, hvalue⟩ := List.mem_map.mp hmem
  obtain ⟨x, hx, -, he⟩ := mem_entriesOf.mp (mem_of_mem_valuesAt htext)
  obtain ⟨pc, hpc, hrecord⟩ := hprint x hx
  obtain ⟨numeral, rfl, hsmall⟩ := hpc.record_numeral _ (hrecord ▸ he)
  exact int_float_small numeral hsmall hvalue

/-! ### The Table -/

section
variable {res : TestRes} {items : List (Text × List (Text × List ℤ))}

theorem Results.of_item (h : Results papi ns os res) (hitems : Items res items)
    {e : Text × List (Text × List ℤ)} (he : e ∈ items) :
    (∃ n ∈ ns, (to_string n).toList = e.1) ∧
      (e.2.map Prod.fst).Perm (event_sets.flatten ++ ["Cycles".toList]) ∧
      ∀ c ∈ e.2, listAt res e.1 c.1 = c.2 ∧ c.2 ≠ [] := by
  obtain ⟨d, hd, hnames, hvalues⟩ := hitems.dicts e he
  have hkey := (hitems.keys.trans h.keys).mem_iff.mp (List.mem_map_of_mem he)
  obtain ⟨n, hn, hlabel⟩ := List.mem_map.mp hkey
  have hall := hnames.trans (h.names e.1 d hd)
  refine ⟨⟨n, hn, hlabel⟩, hall, ?_⟩
  intro c hc
  have hlist := listAt_eq_of_lookup hd (hvalues c hc)
  refine ⟨hlist, ?_⟩
  have hlen := h.lengths n hn c.1 (hall.mem_iff.mp (List.mem_map_of_mem hc))
  rw [hlabel, hlist] at hlen
  rintro hnil
  rw [hnil] at hlen
  split at hlen <;> contradiction

/-- The table has all rows and all cells. -/
theorem Results.sized (h : Results papi ns os res) (hitems : Items res items)
    (hpos : ∀ n ∈ ns, 0 < n.toNat) (hne : ns ≠ [])
    (hsmall : ∀ key name, ∀ v ∈ listAt res key name, |(v : ℚ)| ≤ 10 ^ 201) :
    AParser.Sized items := by
  have hother : ∀ name ∈ event_sets.flatten ++ ["Cycles".toList], name ≠ "Size".toList := by
    decide
  constructor
  case ne =>
    rintro rfl
    have hlen := (hitems.keys.trans h.keys).length_eq
    rw [List.map_nil, List.length_map] at hlen
    exact hne (List.length_eq_zero_iff.mp hlen.symm)
  case labels =>
    intro e he
    obtain ⟨⟨n, -, hlabel⟩, -⟩ := h.of_item hitems he
    rw [← hlabel, int_label]
    rfl
  case cells =>
    intro e he c hc size hsize
    obtain ⟨⟨n, hn, hlabel⟩, -, hvalues⟩ := h.of_item hitems he
    obtain ⟨hlist, hsome⟩ := hvalues c hc
    rw [← hlabel, int_label] at hsize
    obtain rfl := Option.some.inj hsize
    exact AParser.cell_isSome hsome (fun v hv => hsmall e.1 c.1 v (hlist ▸ hv)) (hpos n hn) n.isLt
  case sizes =>
    intro e he c hc hname
    obtain ⟨-, hall, -⟩ := h.of_item hitems he
    exact absurd hname (hother _ (hall.mem_iff.mp (List.mem_map_of_mem hc)))
  case columns =>
    intro e he c hc
    obtain ⟨-, hall, -⟩ := h.of_item hitems he
    right
    intro l hl
    obtain ⟨-, hlast, -⟩ := h.of_item hitems (List.mem_of_getLast? hl)
    exact (hall.trans hlast.symm).mem_iff.mp (List.mem_map_of_mem hc)

end

/-! ### Executions -/

variable {as : List Stmt} {s : State World PAPILLCounter (List Text)}

theorem main_some (hmain : main cfg = some as) : cfg.cache_size ≠ 0 ∧
    as = .parse_cfg :: (halvings (4194304 / cfg.cache_size)).flatMap fun n =>
      [.setup n, .measure n] := by
  unfold main at hmain
  split at hmain
  · contradiction
  · next hzero => exact ⟨fun heq => hzero (.inl heq), (Option.some.inj hmain).symm⟩

/-- The array of `n` nodes. -/
theorem array_size (hn : n ∈ halvings (4194304 / cfg.cache_size)) :
    (cfg.cache_size * n).toNat = cfg.cache_size.toNat * n.toNat ∧
      cfg.cache_size.toNat * n.toNat ≤ 4194304 := by
  have hle : n.toNat ≤ 4194304 / cfg.cache_size.toNat := by
    have hle := (mem_halvings hn).2
    rwa [BitVec.toNat_udiv] at hle
  have hmul : cfg.cache_size.toNat * n.toNat ≤ 4194304 :=
    (Nat.mul_le_mul_left _ hle).trans (Nat.mul_div_le _ _)
  rw [BitVec.toNat_mul, Nat.mod_eq_of_lt (by omega)]
  exact ⟨rfl, hmul⟩

theorem array_room (hge : 16 ≤ cfg.cache_size.toNat) (hdvd : cfg.cache_size.toNat % 8 = 0)
    (hn : n ∈ halvings (4194304 / cfg.cache_size)) : Room (cfg.cache_size * n) cfg.cache_size := by
  obtain ⟨hsize, hle⟩ := array_size hn
  have hpos : 0 < cfg.cache_size.toNat * n.toNat :=
    Nat.mul_pos (by omega) (mem_halvings hn).1
  exact ⟨by omega, by omega, hge, hdvd, hsize ▸ Nat.dvd_mul_right _ _⟩

theorem array_nodes (hge : 16 ≤ cfg.cache_size.toNat) (hdvd : cfg.cache_size.toNat % 8 = 0)
    (hn : n ∈ halvings (4194304 / cfg.cache_size)) :
    nodeCount (cfg.cache_size * n) cfg.cache_size = n.toNat := by
  rw [(array_room hge hdvd hn).count_eq, (array_size hn).1]
  exact Nat.mul_div_cancel_left _ (by omega)

/-- Nodes that do not overlap keep `reader` inside. -/
theorem ring_readsInside {addr size stride : BitVec 64} {path : List Nat} {g : Shared}
    (hring : RingAt addr size stride path g) (hroom : Room size stride)
    (hdata : g.shared_data_size = size) : ReadsInside g := by
  intro k _
  have hle := hroom.node_le (hring.stopAt_le hroom k)
  have hsize := size.isLt
  rw [hring.iterate hroom, hring.data, hdata, node, Memory.slot, BitVec.add_comm,
    BitVec.add_sub_cancel, BitVec.toNat_ofNat, Nat.mod_eq_of_lt (by omega)]
  exact hle

/-- **The program can be executed** to its end if the nodes fit into
    `cache_size`. -/
theorem main_can (papi : Papi) (cores : Finset Int) (hmain : main cfg = some as)
    (hge : 16 ≤ cfg.cache_size.toNat) (hdvd : cfg.cache_size.toNat % 8 = 0) (w : World) :
    ∃ os s, Exec (ReuseStep (papiApi papi)) (as.map (Stmt.meaning papi cores cfg)) (initial [] w)
      os s := by
  obtain ⟨-, rfl⟩ := main_some hmain
  have hstep : ∀ a ∈ Stmt.parse_cfg :: (halvings (4194304 / cfg.cache_size)).flatMap fun n =>
      [Stmt.setup n, .measure n], ∀ w, ∃ os w',
        SeriesStep (papiApi papi) (a.meaning papi cores cfg) w os w' := by
    intro a ha w
    cases a with
    | parse_cfg => exact ⟨_, _, .work rfl⟩
    | measure n => exact ⟨_, _, .call⟩
    | setup n =>
      have hn : n ∈ halvings (4194304 / cfg.cache_size) := by simpa using ha
      have hroom := array_room hge hdvd hn
      have hfew : nodeCount (cfg.cache_size * n) cfg.cache_size < 2 ^ 31 := by
        have hle := (array_size hn).2
        have hmul := Nat.mul_le_mul_right n.toNat (Nat.le_trans (by decide : 1 ≤ 16) hge)
        rw [array_nodes hge hdvd hn]
        omega
      obtain ⟨mem, path, hsetup, -⟩ := setup_spec (fun _ _ => 0) (hroom.fits hfew) 4096
        { w.shared with shared_data_size := cfg.cache_size * n } (Nat.lt_succ_self _)
      obtain ⟨path, hring⟩ := SetUp.ringAt (.setup hsetup) hroom
      have hinside := ring_readsInside hring hroom rfl
      exact ⟨_, _, .work ⟨_, _, _, _, by decide, hsetup, hinside, rfl⟩⟩
  have hall : ∀ b ∈ (Stmt.parse_cfg :: (halvings (4194304 / cfg.cache_size)).flatMap fun n =>
      [Stmt.setup n, .measure n]).map (Stmt.meaning papi cores cfg), ∀ w, ∃ os w',
        SeriesStep (papiApi papi) b w os w' := List.forall_mem_map.mpr hstep
  obtain ⟨os, w', hseries⟩ := exec_can_anywhere hall w
  obtain ⟨s, hexec, -⟩ := (exec_reuse_iff rfl (meaning_priority _) (rested_initial w)).mpr hseries
  exact ⟨os, s, hexec⟩

/-! ### From `main` to the Table -/

/-- What the threads do cannot be seen in the log. -/
theorem main_passes (hmain : main cfg = some as)
    (h : Exec (ReuseStep (papiApi papi)) (as.map (Stmt.meaning papi cores cfg)) (initial [] w)
      os s) (hnames : papi.Names event_sets.flatten) :
    Passes papi cores (halvings (4194304 / cfg.cache_size)) os ∧
      s.world.dump = w.dump ++ unlines (os.flatten.flatMap fun pc => pc.lines papi) := by
  have hseries := (exec_reuse_iff rfl (meaning_priority as) (rested_initial w)).mp ⟨s, h, rfl⟩
  obtain ⟨-, rfl⟩ := main_some hmain
  rw [List.map_cons] at hseries
  obtain ⟨os1, w1, os2, hparse, hloop, rfl⟩ := exec_cons_iff.mp hseries
  obtain ⟨rfl, hchange⟩ := SeriesStep.of_work hparse
  obtain rfl := hchange
  obtain ⟨hpasses, hdump⟩ := loop_log hloop
  exact ⟨hpasses.imp fun n counters hpass => pass_prints hnames hpass, hdump⟩

/-- There are passes unless the cache is too large. -/
theorem first_size_pos (hsize : cfg.cache_size ≠ 0) :
    0 < (4194304 / cfg.cache_size).toNat ↔ cfg.cache_size ≤ 4194304 := by
  have hne : cfg.cache_size.toNat ≠ 0 := fun hzero => hsize (BitVec.eq_of_toNat_eq hzero)
  rw [BitVec.toNat_udiv]
  exact Nat.div_pos_iff.trans ⟨fun hpos => hpos.2, fun hle => ⟨Nat.pos_of_ne_zero hne, hle⟩⟩

/-- The keys, for a cache of at most 4 MB. -/
theorem Results.sizes (hsize : cfg.cache_size ≠ 0) {res : TestRes}
    (h : Results papi (halvings (4194304 / cfg.cache_size)) os res)
    (hle : cfg.cache_size ≤ 4194304) :
    res.keys.Perm ((List.range (Nat.log 2 (4194304 / cfg.cache_size.toNat) + 1)).map fun k =>
      showInt (4194304 / cfg.cache_size.toNat / 2 ^ k : ℕ)) := by
  have hnumbers := halvings_toNat ((first_size_pos hsize).mpr hle)
  rw [BitVec.toNat_udiv] at hnumbers
  have hlabels := congrArg (List.map fun m : ℕ => showInt m) hnumbers
  rw [List.map_map, List.map_map] at hlabels
  refine h.keys.trans (.of_eq (Eq.trans ?_ hlabels))
  exact List.map_congr_left fun n _ => to_string_text n

/-- **The log of the sizes**: whatever the threads do, the parser gets through
    and finds the sizes of the loop, each with all of its values. -/
theorem main_labels (hmain : main cfg = some as)
    (h : Exec (ReuseStep (papiApi papi)) (as.map (Stmt.meaning papi cores cfg)) (initial [] w)
      os s) (hempty : w.dump = []) (hnames : papi.Names event_sets.flatten) :
    ∃ res, AParser.parse_log s.world.dump = some res ∧
      Results papi (halvings (4194304 / cfg.cache_size)) os res ∧
      (cfg.cache_size ≤ 4194304 →
        res.keys.Perm ((List.range (Nat.log 2 (4194304 / cfg.cache_size.toNat) + 1)).map fun k =>
          showInt (4194304 / cfg.cache_size.toNat / 2 ^ k : ℕ))) := by
  obtain ⟨hpasses, hdump⟩ := main_passes hmain h hnames
  rw [hempty, List.nil_append] at hdump
  obtain ⟨res, hres, hcol⟩ := passes_parsed hpasses hdump
  have hresults := hpasses.results (halvings_nodup _) hcol
  exact ⟨res, hres, hresults, hresults.sizes (main_some hmain).1⟩

/-- The configuration in `library/arch.cfg`. -/
def libraryCfg : ArchConfig := assign 32768 32768 64 1 2 3 2 3

theorem library_main : ∃ as, main libraryCfg = some as := by
  unfold main
  rw [if_neg (by decide)]
  exact ⟨_, rfl⟩

theorem event_names : (listPapi event_sets.flatten).Names event_sets.flatten :=
  listPapi_names (by decide)

theorem main_labels_library : ∃ as os s res, main libraryCfg = some as ∧
    Exec (ReuseStep (papiApi (listPapi event_sets.flatten)))
      (as.map (Stmt.meaning (listPapi event_sets.flatten) {1} libraryCfg))
      (initial [] (coldStart oneLine)) os s ∧
    AParser.parse_log s.world.dump = some res ∧
    Results (listPapi event_sets.flatten) (halvings (4194304 / libraryCfg.cache_size)) os res := by
  obtain ⟨as, hmain⟩ := library_main
  obtain ⟨os, s, hexec⟩ := main_can (listPapi event_sets.flatten) {1} hmain
    (by decide) (by decide) (coldStart oneLine)
  obtain ⟨res, hres, hresults, -⟩ := main_labels hmain hexec rfl event_names
  exact ⟨as, os, s, res, hmain, hexec, hres, hresults⟩

/-- All rows and cells, if there is a pass. -/
theorem Passes.rows {F : Type} {pd : Pandas F} (hpd : Lawful pd) (hsize : cfg.cache_size ≠ 0)
    (h : Passes papi cores (halvings (4194304 / cfg.cache_size)) os) {res : TestRes}
    (hcol : Collected res ((records papi (halvings (4194304 / cfg.cache_size)) os).map fun x =>
      (x.1, x.2.map readEntry)))
    {items : List (Text × List (Text × List ℤ))} (hitems : Items res items) :
    AParser.RowForEach pd items ↔ cfg.cache_size ≤ 4194304 := by
  have hresults := h.results (halvings_nodup _) hcol
  have hnodup : ∀ e ∈ items, (e.2.map Prod.fst).Nodup := fun e he =>
    (hresults.of_item hitems he).2.1.nodup_iff.mpr (by decide)
  rw [← first_size_pos hsize]
  constructor
  · intro hrows
    obtain ⟨e, he⟩ := List.exists_mem_of_ne_nil _ (hrows.sized hpd hnodup).ne
    obtain ⟨⟨n, hn, -⟩, -⟩ := hresults.of_item hitems he
    obtain ⟨hpos, hle⟩ := mem_halvings hn
    exact hpos.trans_le hle
  · intro hpos
    have hsized := hresults.sized hitems (fun n hn => (mem_halvings hn).1)
      (List.ne_nil_of_mem (self_mem_halvings hpos)) (h.values_small hcol)
    exact hsized.rowForEach hpd hnodup

/-- **From `main` to the table**: for every order of the dictionaries it has
    all of its rows and cells, unless the cache is larger than 4 MB. -/
theorem main_rows {F : Type} {pd : Pandas F} (hpd : Lawful pd) (hmain : main cfg = some as)
    (h : Exec (ReuseStep (papiApi papi)) (as.map (Stmt.meaning papi cores cfg)) (initial [] w)
      os s) (hempty : w.dump = []) (hnames : papi.Names event_sets.flatten) :
    ∃ res, AParser.parse_log s.world.dump = some res ∧
      ∀ items, Items res items → (AParser.RowForEach pd items ↔ cfg.cache_size ≤ 4194304) := by
  obtain ⟨hpasses, hdump⟩ := main_passes hmain h hnames
  rw [hempty, List.nil_append] at hdump
  obtain ⟨res, hres, hcol⟩ := passes_parsed hpasses hdump
  exact ⟨res, hres, fun items hitems => hpasses.rows hpd (main_some hmain).1 hcol hitems⟩

theorem main_rows_library : ∃ as os s res, main libraryCfg = some as ∧
    Exec (ReuseStep (papiApi (listPapi event_sets.flatten)))
      (as.map (Stmt.meaning (listPapi event_sets.flatten) {1} libraryCfg))
      (initial [] (coldStart oneLine)) os s ∧
    AParser.parse_log s.world.dump = some res ∧
    AParser.RowForEach plainPandas (Grouping.items res) := by
  obtain ⟨as, hmain⟩ := library_main
  obtain ⟨os, s, hexec⟩ := main_can (listPapi event_sets.flatten) {1} hmain
    (by decide) (by decide) (coldStart oneLine)
  obtain ⟨res, hres, hrows⟩ := main_rows plainPandas_lawful hmain hexec rfl event_names
  exact ⟨as, os, s, res, hmain, hexec, hres, (hrows _ (items_spec res)).mpr (by decide)⟩

/-! ### Laps -/

/-- The loads of `reader`: one behind the array, and then `q` times round the
    `n` nodes, but for the very last one. -/
structure Laps (cores : Finset Int) (core : Int) (n q : Nat) (stride : BitVec 64) (w : World) :
    Prop where
  rounds : w.shared.line_cnt w.shared.cache_line_size = q * n
  behind : (readerAt cores core 0 w).iter = node w.shared.shared_data stride n
  /-- Each lap comes to every node once. -/
  laps : ∀ j < q, ((List.range n).map fun k => (readerAt cores core (j * n + k + 1) w).iter).Perm
    ((List.range n).map (node w.shared.shared_data stride))

theorem readerAt_iter (core : Int) (k : Nat) (w : World) :
    (readerAt cores core k w).iter = w.shared.mem.load^[k] w.shared.shared_iter ∧
      (readerAt cores core k w).world.shared = w.shared := by
  induction k with
  | zero => exact ⟨rfl, rfl⟩
  | succ k ih =>
    obtain ⟨hiter, hshared⟩ := ih
    refine ⟨?_, hshared⟩
    show (readerAt cores core k w).world.shared.mem.load (readerAt cores core k w).iter = _
    rw [hiter, hshared, Function.iterate_succ_apply']

theorem Laps.congr {core : Int} {m q : Nat} {stride : BitVec 64} (h : w'.shared = w.shared)
    (hlaps : Laps cores core m q stride w) : Laps cores core m q stride w' := by
  have hiter : ∀ k, (readerAt cores core k w').iter = (readerAt cores core k w).iter := by
    intro k
    rw [(readerAt_iter core k w').1, (readerAt_iter core k w).1, h]
  refine ⟨h ▸ hlaps.rounds, ?_, ?_⟩
  · rw [hiter, h]
    exact hlaps.behind
  · simp only [hiter, h]
    exact hlaps.laps

/-- A ring gives laps. -/
theorem ring_laps {addr size stride : BitVec 64} {path : List Nat} {q : Nat} (core : Int)
    (hroom : Room size stride) (hring : RingAt addr size stride path w.shared)
    (hrounds : w.shared.line_cnt w.shared.cache_line_size = q * nodeCount size stride) :
    Laps cores core (nodeCount size stride) q stride w := by
  refine ⟨hrounds, ?_, ?_⟩
  · rw [(readerAt_iter core 0 w).1, hring.data]
    exact hring.iter
  · intro j _
    have hwalk : (List.range (nodeCount size stride)).map (fun k =>
        (readerAt cores core (j * nodeCount size stride + k + 1) w).iter) =
        path.map (node addr stride) := by
      have hlen := hring.path_length
      apply List.ext_getElem
      · rw [List.length_map, List.length_map, List.length_range, hlen]
      · intro k hk hk'
        rw [List.length_map] at hk'
        rw [List.getElem_map, List.getElem_map, List.getElem_range, (readerAt_iter core _ w).1,
          hring.iterate hroom, stopAt, Nat.mul_add_mod', Nat.mod_eq_of_lt (hlen ▸ hk'),
          List.getD_eq_getElem _ _ hk']
    rw [hwalk, hring.data]
    exact hring.ring.perm.map _

/-- Before a `measure` in the loop there is the `setup` for it. -/
theorem loop_split {pre post : List Stmt}
    (h : (ns.flatMap fun n => [Stmt.setup n, .measure n]) = pre ++ .measure n :: post) :
    n ∈ ns ∧ ∃ pre', pre = pre' ++ [.setup n] ∧ .parse_cfg ∉ pre' := by
  induction ns generalizing pre with
  | nil => simp at h
  | cons m ns ih =>
    rw [List.flatMap_cons] at h
    match pre with
    | [] => simp at h
    | [a] =>
      simp only [List.cons_append, List.nil_append, List.cons.injEq, Stmt.measure.injEq] at h
      obtain ⟨rfl, rfl, -⟩ := h
      exact ⟨List.mem_cons_self, [], rfl, List.not_mem_nil⟩
    | a :: b :: pre =>
      simp only [List.cons_append, List.nil_append, List.cons.injEq] at h
      obtain ⟨rfl, rfl, h⟩ := h
      obtain ⟨hn, pre', rfl, hnot⟩ := ih h
      exact ⟨List.mem_cons_of_mem _ hn, _ :: _ :: pre', rfl, by simpa using hnot⟩

/-- The operations of a call store nothing. -/
theorem call_keeps (g : Shared) : OpsKeep (papiApi papi) (call cores n) fun w => w.shared = g where
  add _ _ h := h
  reset wc h := by
    show (PAPILLCounter.reset wc).1.shared = g
    rw [reset_world]
    exact h
  end_ _ h := h
  stats _ h := h
  benchmark sch hsch wc h := by
    obtain ⟨events, -, rfl⟩ := List.mem_map.mp hsch
    exact (reader_shared 1 wc).trans h

theorem statsCalls_shared (pcs : List PAPILLCounter) (w : World) :
    (statsCalls papi pcs w).shared = w.shared := by
  induction pcs generalizing w with
  | nil => rfl
  | cons pc pcs ih => exact ih _

/-- Only `parse_cfg` sets the line size. -/
theorem meaning_line {a : Stmt} (ha : a ≠ .parse_cfg)
    (h : SeriesStep (papiApi papi) (a.meaning papi cores cfg) w os w') :
    w'.shared.cache_line_size = w.shared.cache_line_size := by
  cases a with
  | parse_cfg => contradiction
  | setup n =>
    obtain ⟨-, _, _, _, g, -, hsetup, -, rfl⟩ := SeriesStep.of_work h
    exact (setup_config hsetup).2
  | measure n =>
    obtain ⟨-, rfl⟩ := SeriesStep.of_call h
    have hkeeps : ∀ sch ∈ (call cores n).svec, KeepsRing sch.benchmark := by
      intro sch hsch
      obtain ⟨events, -, rfl⟩ := List.mem_map.mp hsch
      exact keepsRing_reader 1
    rw [statsCalls_shared]
    exact (series_keepsRing papi hkeeps (call cores n).warmup w).line

/-- The ring of a pass. -/
theorem setup_laps (hn : n ∈ halvings (4194304 / cfg.cache_size)) (hge : 16 ≤ cfg.cache_size.toNat)
    (hdvd : cfg.cache_size.toNat % 8 = 0) (hline : cfg.cache_line_size.toNat ∣ cfg.cache_size.toNat)
    (hw : w.shared.cache_line_size = cfg.cache_line_size)
    (h : SeriesStep (papiApi papi) ((Stmt.setup n).meaning papi cores cfg) w os w') :
    Laps cores 1 n.toNat (cfg.cache_size.toNat / cfg.cache_line_size.toNat) cfg.cache_size w' := by
  have hroom := array_room hge hdvd hn
  obtain ⟨-, draws, fuel, addr, g, -, hsetup, -, rfl⟩ := SeriesStep.of_work h
  obtain ⟨path, hring⟩ := SetUp.ringAt (.setup hsetup) hroom
  obtain ⟨hsize, hcfg⟩ := setup_config hsetup
  rw [← array_nodes hge hdvd hn]
  apply ring_laps 1 hroom hring
  show (g.shared_data_size / g.cache_line_size).toNat = _
  rw [hsize, hcfg, hw, BitVec.toNat_udiv, array_nodes hge hdvd hn, (array_size hn).1]
  exact Nat.mul_div_right_comm hline _

/-- **Whatever the threads do**, every call of `reader`, for every event set,
    goes round the ring of its pass `cache_size / cache_line_size` times. -/
theorem main_laps {s s' : State World PAPILLCounter (List Text)} {pre post : List Stmt}
    (hmain : main cfg = some (pre ++ .measure n :: post)) (hge : 16 ≤ cfg.cache_size.toNat)
    (hdvd : cfg.cache_size.toNat % 8 = 0) (hline : cfg.cache_line_size.toNat ∣ cfg.cache_size.toNat)
    (h : Exec (ReuseStep (papiApi papi)) (pre.map (Stmt.meaning papi cores cfg)) (initial [] w)
      os s)
    (hrun : Reaches (harness (papiApi papi) [call cores n] s.world)
      { s with todo := [call cores n] } s') :
    Laps cores 1 n.toNat (cfg.cache_size.toNat / cfg.cache_line_size.toNat) cfg.cache_size
      s'.world := by
  have hrest := exec_rested rfl (meaning_priority pre) h (rested_initial w)
  have hseries := (exec_reuse_iff rfl (meaning_priority pre) (rested_initial w)).mp ⟨s, h, rfl⟩
  have hkept : s'.world.shared = s.world.shared := hrest.during (call_keeps _) rfl hrun
  refine Laps.congr hkept ?_
  obtain ⟨-, hstmts⟩ := main_some hmain
  match pre with
  | [] => simp at hstmts
  | a :: pre =>
    obtain ⟨rfl, hloop⟩ := List.cons.inj hstmts
    obtain ⟨hn, pre, rfl, hnot⟩ := loop_split hloop.symm
    rw [List.map_cons, List.map_append] at hseries
    obtain ⟨os1, w1, os2, hparse, hrest, rfl⟩ := exec_cons_iff.mp hseries
    obtain ⟨os3, w2, os4, hpre, hsetup, rfl⟩ := exec_append_iff.mp hrest
    obtain ⟨-, hchange⟩ := SeriesStep.of_work hparse
    obtain rfl := hchange
    refine setup_laps hn hge hdvd hline ?_ (exec_singleton_iff.mp hsetup)
    refine hpre.invariant (fun w => w.shared.cache_line_size = cfg.cache_line_size) ?_ rfl
    intro a ha w3 os w4 hw3 hstep
    obtain ⟨b, hb, rfl⟩ := List.mem_map.mp ha
    have hother : b ≠ .parse_cfg := fun heq => hnot (heq ▸ hb)
    exact (meaning_line hother hstep).trans hw3

theorem main_laps_library : ∃ pre post os s,
    main libraryCfg = some (pre ++ .measure 128 :: post) ∧
    Exec (ReuseStep (papiApi (listPapi event_sets.flatten)))
      (pre.map (Stmt.meaning (listPapi event_sets.flatten) {1} libraryCfg))
      (initial [] (coldStart oneLine)) os s ∧ Laps {1} 1 128 512 32768 s.world := by
  obtain ⟨as, hmain⟩ := library_main
  obtain ⟨os, s, hexec⟩ := main_can (listPapi event_sets.flatten) {1} hmain
    (by decide) (by decide) (coldStart oneLine)
  have hfirst : halvings (4194304 / libraryCfg.cache_size) = 128 :: halvings 64 := by
    rw [halvings]
    rfl
  obtain ⟨-, rfl⟩ := main_some hmain
  rw [hfirst] at hmain hexec
  -- the run of the whole program begins with one up to the first call
  have hsplit : Stmt.parse_cfg :: (128 :: halvings 64).flatMap (fun n => [.setup n, .measure n]) =
      [.parse_cfg, .setup 128] ++ .measure 128 ::
        (halvings 64).flatMap fun n => [.setup n, .measure n] := rfl
  rw [hsplit] at hmain hexec
  rw [List.map_append] at hexec
  obtain ⟨os1, s1, os2, hpre, -, -⟩ := exec_append_iff.mp hexec
  have hlaps := main_laps hmain (by decide) (by decide) (by decide) hpre (.refl _)
  exact ⟨_, _, os1, s1, hmain, hpre, hlaps⟩

end

end Measurement

end Pcnt
