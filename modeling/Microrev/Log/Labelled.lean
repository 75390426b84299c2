import Microrev.Lib.Rounding
import Microrev.Log.RunTest

/-! # Labelled Records (`a_parser.py`)

    A counter with a label prints it between two pairs of tildes in front of
    its record. The other parsing script collects these records, one key for
    each label; records without a label it skips. Labels that repeat are
    merged, in the order of the calls.
-/

namespace Pcnt

open Text Decimal Grouping

/-! ### The Script -/

/-- `str.split( "~~" )`. -/
def splitTildes : Text → List Text
  | [] => [[]]
  | '~' :: '~' :: t => [] :: splitTildes t
  | c :: t =>
    match splitTildes t with
    | [] => [[c]]
    | w :: ws => (c :: w) :: ws

namespace AParser

/-- The outer loop. The lines start with the current `rline`. The inner loop
    is the same as in `parser.py`. -/
def parse_loop (f : List Text) (test_res : TestRes) : Option TestRes :=
  match f with
  | [] => some test_res
  | rline :: f =>
    if "~~".toList.isPrefixOf (strip rline) then
      match (splitTildes (strip rline))[1]? with
      | none => none
      | some ttype =>
        match _ : parse_counters f ((test_res.lookup ttype).getD ∅) with
        | none => none
        | some (res_dict, []) => some (test_res.insert ttype res_dict)
        | some (res_dict, _ :: f2) => parse_loop f2 (test_res.insert ttype res_dict)
    else parse_loop f test_res
termination_by f.length
decreasing_by
  next hcounters =>
    have h := parse_counters_length hcounters
    simp only [List.length_cons] at h ⊢
    omega
  · simp

/-- The loop over the file `dump.dat`. -/
def parse_log (dump : Text) : Option TestRes := parse_loop (lines (universalNewlines dump)) ∅

end AParser

/-! ### Calls of `stats` -/

/-- One call of `stats()` after the other. -/
def statsCalls (papi : Papi) (pcs : List PAPILLCounter) (w : World) : World :=
  pcs.foldl (fun w pc => (PAPILLCounter.stats papi (w, pc)).1) w

/-- The values that `cycles_measured` can have: only the constructor,
    `set_cycles_measured` and `stats_to_stream` write it. -/
inductive Accumulated : ℚ → Prop where
  | zero : Accumulated 0
  | set_cycles_measured (c : BitVec 64) : Accumulated (roundDouble c.toNat)
  | stats {pc : PAPILLCounter} : Accumulated pc.cycles_measured → Accumulated pc.cycles

/-- The counter has something to print. -/
def PAPILLCounter.Prints (pc : PAPILLCounter) : Prop :=
  ¬ (pc.cset.length = 0 ∧ pc.vec_cycles_measured.length = 0)

instance (pc : PAPILLCounter) : Decidable pc.Prints := inferInstanceAs (Decidable (¬ _))

/-- It prints a record under a label. -/
def PAPILLCounter.Labelled (pc : PAPILLCounter) : Prop := pc.Prints ∧ pc.label ≠ ""

instance (pc : PAPILLCounter) : Decidable pc.Labelled := inferInstanceAs (Decidable (_ ∧ _))

/-- A counter whose label is empty or a decimal numeral, with a value for
    each event, and names that the script can read. -/
structure Printable (papi : Papi) (pc : PAPILLCounter) : Prop where
  label : Digits pc.label.toList
  measured : pc.measured.length = pc.cset.length
  name_ne : ∀ code ∈ pc.cset, papi.event_code_to_name code ≠ []
  name_solid : ∀ code ∈ pc.cset, Solid (papi.event_code_to_name code)
  name_unmarked : ∀ code ∈ pc.cset, ¬ "~~".toList <+: papi.event_code_to_name code
  cycles : Accumulated pc.cycles_measured

/-- The records under labels, in the order of the calls. -/
def labelledRecords (papi : Papi) (pcs : List PAPILLCounter) : List (Text × List (Text × Text)) :=
  (pcs.filter fun pc => pc.Labelled).map fun pc => (pc.label.toList, pc.record papi)

/-- The results are what was printed under the labels. -/
structure LabelledTrip (papi : Papi) (pcs : List PAPILLCounter) (res : TestRes) : Prop where
  /-- The keys are the labels. -/
  keys : ∀ key, key ∈ res ↔ ∃ pc ∈ pcs, pc.Labelled ∧ pc.label.toList = key
  /-- Each dictionary has the names of the events of its counters, and `Cycles`. -/
  names : ∀ key d name, res.lookup key = some d →
    (name ∈ d ↔ ∃ pc ∈ pcs, pc.Labelled ∧ pc.label.toList = key ∧
      name ∈ pc.cset.map papi.event_code_to_name ++ ["Cycles".toList])
  /-- Each list is `int(float(text))` of the texts printed, call by call. -/
  values : ∀ key name, (listAt res key name).map some =
    (valuesAt (entriesOf (labelledRecords papi pcs) key) name).map int_float

/-! ### The Sum of Cycles -/

/-- One sample is divided by the number of samples and added. -/
theorem sample_abs_le (c : BitVec 64) {n : ℕ} (hn : 1 ≤ n) :
    |roundDouble (roundDouble c.toInt / roundDouble n)| ≤ 2 ^ 65 := by
  have hc : |((c.toInt : ℤ) : ℚ)| ≤ 2 ^ 63 := by
    have h1 := BitVec.le_toInt c
    have h2 := BitVec.toInt_lt (x := c)
    rw [abs_le]
    constructor
    · exact_mod_cast h1
    · exact_mod_cast h2.le
  have hcount : (1 : ℚ) ≤ roundDouble n := by
    have hpow := pow_le_roundDouble (x := n) (k := 0) (by simpa using hn)
    simpa using hpow
  have hnum := abs_roundDouble_le (c.toInt : ℚ)
  have hdiv : |roundDouble c.toInt / roundDouble n| ≤ 2 ^ 64 := by
    rw [abs_div, abs_of_pos (zero_lt_one.trans_le hcount),
      div_le_iff₀ (zero_lt_one.trans_le hcount)]
    linarith
  have hround := abs_roundDouble_le (roundDouble c.toInt / roundDouble (n : ℚ))
  linarith

/-- **The sum cannot grow for ever**: from `2 ^ 120` on, a sample is too small
    to change it. -/
theorem Accumulated.abs_le {x : ℚ} (h : Accumulated x) : |x| ≤ 2 ^ 120 := by
  induction h with
  | zero => simp
  | set_cycles_measured c =>
    have hlt : ((c.toNat : ℕ) : ℚ) < 2 ^ 64 := by exact_mod_cast c.isLt
    have hround := abs_roundDouble_le ((c.toNat : ℕ) : ℚ)
    rw [Nat.abs_cast] at hround
    linarith
  | @stats pc _ ih =>
    have hfold : ∀ (cs : List (BitVec 64)) (acc : ℚ), (∀ c ∈ cs, c ∈ pc.vec_cycles_measured) →
        |acc| ≤ 2 ^ 120 → |cs.foldl (fun acc c => roundDouble (acc + roundDouble
          (roundDouble c.toInt / roundDouble pc.vec_cycles_measured.length))) acc| ≤ 2 ^ 120 := by
      intro cs
      induction cs with
      | nil => exact fun acc _ hacc => hacc
      | cons c cs ih =>
        intro acc hmem hacc
        apply ih _ fun d hd => hmem d (by simp [hd])
        have hpos : 1 ≤ pc.vec_cycles_measured.length := List.length_pos_of_mem (hmem c (by simp))
        have hsample := sample_abs_le c hpos
        have hadd := abs_add_le acc
          (roundDouble (roundDouble c.toInt / roundDouble pc.vec_cycles_measured.length))
        apply abs_roundDouble_le_pow (by decide)
        linarith
    exact hfold _ _ (fun c hc => hc) ih

/-! ### One Call -/

/-- The lines of one call. -/
def PAPILLCounter.lines (papi : Papi) (pc : PAPILLCounter) : List Text :=
  if pc.Prints then
    (if pc.label = "" then [] else ["~~".toList ++ pc.label.toList ++ "~~".toList]) ++
      recordLines (pc.record papi)
  else []

theorem stats_to_stream_lines (papi : Papi) (pc : PAPILLCounter) :
    (pc.stats_to_stream papi).1 = unlines (pc.lines papi) := by
  unfold PAPILLCounter.stats_to_stream PAPILLCounter.lines
  by_cases hprint : pc.Prints
  · have hguard : ¬ (pc.cset.length = 0 ∧ pc.vec_cycles_measured.length = 0) := hprint
    rw [if_neg hguard, if_pos hprint]
    unfold PAPILLCounter.record recordLines
    split <;> simp [unlines, recordLine, List.flatMap_map]
  · have hguard : pc.cset.length = 0 ∧ pc.vec_cycles_measured.length = 0 := not_not.mp hprint
    rw [if_pos hguard, if_neg hprint]
    rfl

theorem statsCalls_dump (papi : Papi) (pcs : List PAPILLCounter) (w : World) :
    (statsCalls papi pcs w).dump = w.dump ++ unlines (pcs.flatMap fun pc => pc.lines papi) := by
  induction pcs generalizing w with
  | nil => simp [statsCalls]
  | cons pc pcs ih =>
    show (statsCalls papi pcs (PAPILLCounter.stats papi (w, pc)).1).dump = _
    rw [ih, List.flatMap_cons, unlines_append, ← stats_to_stream_lines papi pc]
    simp [PAPILLCounter.stats]

section
variable {papi : Papi} {pc : PAPILLCounter} {pcs : List PAPILLCounter}

/-- Whatever is printed can be read back. -/
theorem Printable.record_readable (h : Printable papi pc) :
    ∀ e ∈ pc.record papi, Readable e := by
  intro e he
  rw [record_eq] at he
  rcases List.mem_append.mp he with he | he
  · obtain ⟨q, hq, rfl⟩ := List.mem_map.mp he
    exact readable_number _ (h.name_solid q.1 (List.of_mem_zip hq).1)
      (intNumeral_abs_lt (natAbs_toInt_lt q.2))
  · have hle := (Accumulated.stats h.cycles).abs_le
    rw [List.mem_singleton.mp he]
    apply readable_cycles
    calc |pc.cycles| ≤ 2 ^ 120 := hle
      _ < 10 ^ 100 := by norm_num

/-- The values are numerals of a moderate size. -/
theorem Printable.record_numeral (h : Printable papi pc) :
    ∀ e ∈ pc.record papi, ∃ n : Numeral, n.text = e.2 ∧ |n.value| < 10 ^ 200 := by
  intro e he
  rw [record_eq] at he
  rcases List.mem_append.mp he with he | he
  · obtain ⟨q, -, rfl⟩ := List.mem_map.mp he
    exact ⟨_, rfl, intNumeral_abs_lt (natAbs_toInt_lt q.2)⟩
  · have hle := (Accumulated.stats h.cycles).abs_le
    rw [List.mem_singleton.mp he]
    exact ⟨_, rfl, doubleNumeral_abs_lt (hle.trans_lt (by norm_num))⟩

/-- No line of a record begins like a label. -/
theorem Printable.record_unmarked (h : Printable papi pc) :
    ∀ e ∈ pc.record papi, ¬ "~~".toList <+: recordLine e := by
  intro e he hpre
  rw [record_eq] at he
  rcases List.mem_append.mp he with he | he
  · obtain ⟨q, hq, rfl⟩ := List.mem_map.mp he
    have hcode := (List.of_mem_zip hq).1
    have hne := h.name_ne q.1 hcode
    have hun := h.name_unmarked q.1 hcode
    generalize papi.event_code_to_name q.1 = name at hne hun hpre
    -- a name of one character is followed by the colon
    match name, hne with
    | [c], _ => simp [recordLine] at hpre
    | c :: d :: name, _ => exact hun (by simpa [recordLine] using hpre)
  · rw [List.mem_singleton.mp he] at hpre
    simp [recordLine] at hpre

/-! ### Reading One Call -/

theorem splitTildes_append {t : Text} (h : '~' ∉ t) (u : Text) :
    splitTildes (t ++ '~' :: '~' :: u) = t :: splitTildes u := by
  induction t with
  | nil => simp [splitTildes]
  | cons c t ih =>
    obtain ⟨hc, ht⟩ := List.ne_and_not_mem_of_not_mem_cons h
    rw [List.cons_append, splitTildes, ih ht]
    exact fun _ heq => absurd heq.symm hc

theorem solid_digits {t : Text} (h : Digits t) : Solid t := fun c hc => isSpace_digit (h c hc)

/-- The label that is read is the one that was printed. -/
theorem read_label {t : Text} (h : Digits t) :
    (splitTildes (strip ("~~".toList ++ t ++ "~~".toList ++ ['\n'])))[1]? = some t ∧
      "~~".toList.isPrefixOf (strip ("~~".toList ++ t ++ "~~".toList ++ ['\n'])) := by
  have hstrip : strip ("~~".toList ++ t ++ "~~".toList ++ ['\n']) =
      "~~".toList ++ t ++ "~~".toList :=
    strip_line t (by decide) (by decide) (by decide) (by decide)
  have htilde : '~' ∉ t := fun hmem => absurd (h _ hmem) (by decide)
  rw [hstrip]
  constructor
  · show (splitTildes ([] ++ '~' :: '~' :: (t ++ '~' :: '~' :: [])))[1]? = _
    rw [splitTildes_append (by simp), splitTildes_append htilde]
    rfl
  · simp

/-- Lines outside a labelled record are skipped. -/
theorem AParser.parse_loop_skip {es : List (Text × Text)} (hread : ∀ e ∈ es, Readable e)
    (hun : ∀ e ∈ es, ¬ "~~".toList <+: recordLine e) (f : List Text) (res : TestRes) :
    parse_loop (ended (recordLines es) ++ f) res = parse_loop f res := by
  induction es with
  | nil =>
    show parse_loop (['\n'] :: f) res = _
    rw [parse_loop, if_neg (by decide)]
  | cons e es ih =>
    show parse_loop ((recordLine e ++ ['\n']) :: (ended (recordLines es) ++ f)) res = _
    have hmark : ¬ "~~".toList.isPrefixOf (strip (recordLine e ++ ['\n'])) := by
      rw [strip_recordLine (hread e (by simp)), List.isPrefixOf_iff_prefix]
      exact hun e (by simp)
    rw [parse_loop, if_neg hmark]
    exact ih (fun x hx => hread x (by simp [hx])) fun x hx => hun x (by simp [hx])

/-- A labelled record goes to its label. -/
theorem AParser.parse_loop_label {t : Text} (ht : Digits t) {es : List (Text × Text)}
    (hread : ∀ e ∈ es, Readable e) (f : List Text) (res : TestRes) :
    parse_loop (ended (("~~".toList ++ t ++ "~~".toList) :: recordLines es) ++ f) res =
      parse_loop f (res.insert t (pushAll ((res.lookup t).getD ∅) (es.map readEntry))) := by
  obtain ⟨hlabel, hmark⟩ := read_label ht
  show parse_loop (("~~".toList ++ t ++ "~~".toList ++ ['\n']) ::
    (ended (recordLines es) ++ f)) res = _
  rw [parse_loop, if_pos hmark]
  simp only [hlabel]
  have hrecord := parse_counters_record hread f ((res.lookup t).getD ∅)
  split
  · next hc =>
    rw [hrecord] at hc
    contradiction
  · next hc =>
    rw [hrecord] at hc
    simp at hc
  · next d l f2 hc =>
    rw [hrecord] at hc
    obtain ⟨rfl, hrest⟩ := Prod.mk.inj (Option.some.inj hc)
    obtain ⟨-, rfl⟩ := List.cons.inj hrest
    rfl

/-- What the script takes from a call. -/
def PAPILLCounter.reading (papi : Papi) (pc : PAPILLCounter) : Text × List (Text × Int) :=
  (pc.label.toList, (pc.record papi).map readEntry)

/-- **One call**: its lines are read completely, whatever comes after them. -/
theorem Printable.parse_loop_lines (h : Printable papi pc) {res : TestRes}
    {records : List (Text × List (Text × Int))} (hres : Collected res records) :
    ∃ res', (∀ f, AParser.parse_loop (ended (pc.lines papi) ++ f) res = AParser.parse_loop f res') ∧
      Collected res' (records ++ if pc.Labelled then [pc.reading papi] else []) := by
  have hread := h.record_readable
  unfold PAPILLCounter.lines
  by_cases hprint : pc.Prints
  · by_cases hlabel : pc.label = ""
    · refine ⟨res, fun f => ?_, by simpa [PAPILLCounter.Labelled, hlabel] using hres⟩
      rw [if_pos hprint, if_pos hlabel]
      exact AParser.parse_loop_skip hread h.record_unmarked f res
    · refine ⟨res.insert pc.label.toList (pushAll ((res.lookup pc.label.toList).getD ∅)
        ((pc.record papi).map readEntry)), fun f => ?_, ?_⟩
      · rw [if_pos hprint, if_neg hlabel]
        exact AParser.parse_loop_label h.label hread f res
      · have hyes : pc.Labelled := ⟨hprint, hlabel⟩
        rw [if_pos hyes]
        exact hres.add pc.label.toList ((pc.record papi).map readEntry)
  · refine ⟨res, fun f => ?_, by simpa [PAPILLCounter.Labelled, hprint] using hres⟩
    rw [if_neg hprint]
    rfl

/-- All calls, one after the other. -/
theorem parse_loop_calls (h : ∀ pc ∈ pcs, Printable papi pc) {res : TestRes}
    {records : List (Text × List (Text × Int))} (hres : Collected res records) :
    ∃ res', AParser.parse_loop (ended (pcs.flatMap fun pc => pc.lines papi)) res = some res' ∧
      Collected res' (records ++ (pcs.filter fun pc => pc.Labelled).map fun pc =>
        pc.reading papi) := by
  induction pcs generalizing res records with
  | nil =>
    refine ⟨res, ?_, by simpa using hres⟩
    show AParser.parse_loop [] res = _
    rw [AParser.parse_loop]
  | cons pc pcs ih =>
    obtain ⟨res1, hone, hcol⟩ := (h pc (by simp)).parse_loop_lines hres
    obtain ⟨res2, hrest, hcol'⟩ := ih (fun x hx => h x (by simp [hx])) hcol
    refine ⟨res2, ?_, ?_⟩
    · rw [List.flatMap_cons, ended, List.map_append]
      exact (hone _).trans hrest
    · by_cases hl : pc.Labelled
      · simpa [hl] using hcol'
      · simpa [hl] using hcol'

/-! ### Reading All Calls -/

theorem Printable.onlyBlanks (h : Printable papi pc) : ∀ l ∈ pc.lines papi, OnlyBlanks l := by
  intro l hl
  unfold PAPILLCounter.lines at hl
  split at hl
  · rcases List.mem_append.mp hl with hl | hl
    · split at hl
      · simp at hl
      · rw [List.mem_singleton.mp hl]
        exact (OnlyBlanks.append (by decide) (onlyBlanks_solid (solid_digits h.label))).append
          (by decide)
    · rcases List.mem_append.mp hl with hl | hl
      · obtain ⟨e, he, rfl⟩ := List.mem_map.mp hl
        exact onlyBlanks_recordLine (h.record_readable e he)
      · rw [List.mem_singleton.mp hl]
        decide
  · simp at hl

/-- The names of a record. -/
theorem Printable.record_names (h : Printable papi pc) :
    (pc.record papi).map Prod.fst = pc.cset.map papi.event_code_to_name ++ ["Cycles".toList] := by
  have hzip : (pc.cset.zip pc.measured).map Prod.fst = pc.cset :=
    List.map_fst_zip h.measured.ge
  have hcodes : (pc.samples papi).map Prod.fst =
      ((pc.cset.zip pc.measured).map Prod.fst).map papi.event_code_to_name := by
    simp [PAPILLCounter.samples]
  rw [record_eq, List.map_append, hcodes, hzip]
  rfl

/-- A sampled counter can be printed under its label, and read. -/
theorem Sampled.printable {sch : Schedule World PAPILLCounter (List Text)}
    (h : Sampled papi sch pc) (hlabel : Digits sch.label.toList) (hnames : papi.Names sch.events)
    (hun : ∀ e ∈ sch.events, e ≠ [] ∧ ¬ "~~".toList <+: e) : Printable papi pc := by
  have hcode : ∀ code ∈ pc.cset, papi.event_code_to_name code ∈ sch.events := by
    intro code hcode
    rw [h.cset] at hcode
    obtain ⟨e, he, rfl⟩ := List.mem_map.mp hcode
    rw [(hnames e he).1]
    exact he
  constructor
  · rw [h.label]
    exact hlabel
  · rw [h.measured, h.cset, List.length_map]
  · exact fun code hc => (hun _ (hcode code hc)).1
  · exact fun code hc => (hnames _ (hcode code hc)).2
  · exact fun code hc => (hun _ (hcode code hc)).2
  · rw [h.cycles]
    exact .zero

theorem Sampled.code_names {sch : Schedule World PAPILLCounter (List Text)}
    (h : Sampled papi sch pc) (hnames : papi.Names sch.events) :
    pc.cset.map papi.event_code_to_name = sch.events := by
  rw [h.cset, List.map_map]
  exact (List.map_congr_left fun e he => (hnames e he).1).trans (List.map_id' sch.events)

theorem Sampled.labelled {sch : Schedule World PAPILLCounter (List Text)}
    (h : Sampled papi sch pc) (hev : sch.events ≠ []) (hlabel : sch.label ≠ "") :
    pc.Labelled := by
  constructor
  · unfold PAPILLCounter.Prints
    rw [h.cset, List.length_map, List.length_eq_zero_iff]
    exact fun hno => hev hno.1
  · rw [h.label]
    exact hlabel

theorem mem_labelledRecords {x : Text × List (Text × Text)} :
    x ∈ labelledRecords papi pcs ↔
      ∃ pc ∈ pcs, pc.Labelled ∧ (pc.label.toList, pc.record papi) = x := by
  simp [labelledRecords, and_assoc]

/-- **Labelled round trip**: the script gets through the log of any sequence
    of `stats()` calls, and gets back what was printed under the labels. -/
theorem labelled_round_trip (h : ∀ pc ∈ pcs, Printable papi pc) {w : World} (hempty : w.dump = []) :
    ∃ res, AParser.parse_log (statsCalls papi pcs w).dump = some res ∧
      LabelledTrip papi pcs res := by
  have honly : ∀ l ∈ pcs.flatMap fun pc => pc.lines papi, OnlyBlanks l := by
    intro l hl
    obtain ⟨pc, hpc, hl⟩ := List.mem_flatMap.mp hl
    exact (h pc hpc).onlyBlanks l hl
  obtain ⟨res, hres, hcol⟩ := parse_loop_calls h collected_empty
  rw [List.nil_append] at hcol
  refine ⟨res, ?_, ?_, ?_, ?_⟩
  · unfold AParser.parse_log
    rw [statsCalls_dump, hempty, List.nil_append, lines_written honly]
    exact hres
  · intro key
    rw [hcol.mem_iff]
    simp [PAPILLCounter.reading, and_assoc]
  · intro key d name hd
    have hentry : (∃ e ∈ entriesOf ((pcs.filter fun pc => pc.Labelled).map fun pc =>
        pc.reading papi) key, e.1 = name) ↔ ∃ pc ∈ pcs, pc.Labelled ∧ pc.label.toList = key ∧
          name ∈ (pc.record papi).map Prod.fst := by
      simp [entriesOf, PAPILLCounter.reading, readEntry, and_assoc]
    rw [hcol.mem_dict_iff hd, List.mem_map, hentry]
    constructor
    · rintro ⟨pc, hpc, hl, hkey, hname⟩
      exact ⟨pc, hpc, hl, hkey, (h pc hpc).record_names ▸ hname⟩
    · rintro ⟨pc, hpc, hl, hkey, hname⟩
      exact ⟨pc, hpc, hl, hkey, (h pc hpc).record_names.symm ▸ hname⟩
  · have hreading : ((pcs.filter fun pc => pc.Labelled).map fun pc => pc.reading papi) =
        (labelledRecords papi pcs).map fun x => (x.1, x.2.map readEntry) := by
      rw [labelledRecords, List.map_map]
      rfl
    rw [hreading] at hcol
    apply collected_readable hcol
    intro x hx e he
    obtain ⟨pc, hpc, -, rfl⟩ := mem_labelledRecords.mp hx
    exact (h pc hpc).record_readable e he

end

/-- A counter for one event, with a label. -/
def oneEvent (label : String) : PAPILLCounter where
  measured := [7]
  cset := [1]
  cycles_measured := 0
  vec_cycles_measured := [5]
  core_id := 0
  label := label

/-- Two records with a label, and one without between them. -/
theorem labelled_round_trip_three_calls :
    ∃ res, AParser.parse_log (statsCalls plainPapi [oneEvent "64", oneEvent "", oneEvent "64"]
        (coldStart oneLine)).dump = some res ∧
      LabelledTrip plainPapi [oneEvent "64", oneEvent "", oneEvent "64"] res := by
  have hprint : ∀ l : String, Digits l.toList → Printable plainPapi (oneEvent l) := by
    intro l hl
    refine ⟨hl, rfl, ?_, ?_, ?_, .zero⟩ <;> simp only [oneEvent, List.forall_mem_singleton] <;>
      decide
  have hnumeral : Digits "64".toList := by simp [Digits]
  refine labelled_round_trip ?_ rfl
  simp only [List.forall_mem_cons, List.not_mem_nil, false_imp_iff, implies_true, and_true]
  exact ⟨hprint _ hnumeral, hprint _ (by simp [Digits]), hprint _ hnumeral⟩

end Pcnt
