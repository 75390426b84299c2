import Microrev.Log.Reading
import Microrev.Log.Labelled

/-! # One File for Both Formats

    Every benchmark appends to the same `dump.dat`, and nobody clears it. Some
    of them print blocks with `run_test`, others single counters with `stats`,
    under a label or not. Both scripts can read such a file: each finds what
    was written in its own format, and skips the rest.
-/

namespace Pcnt

open Text Decimal Grouping

/-! ### What Is Written -/

/-- What one call appends. -/
inductive Entry where
  /-- `run_test`. -/
  | run (cfg : CoreConfig) (r : TestRun)
  /-- `stats` of one counter. -/
  | stats (pc : PAPILLCounter)

/-- Calls of `run_test` and `stats`, one after the other, from any programs.
    Between two calls anything but the log may change. -/
inductive Written (papi : Papi) : World → List Entry → Prop where
  | start {w : World} : w.dump = [] → Written papi w []
  | run {w w1 w2 : World} {es : List Entry} {cores : Finset Int} {cfg : CoreConfig} {r : TestRun} :
      Written papi w es → w1.dump = w.dump → RunTest papi cores cfg w1 r w2 →
      Written papi w2 (es ++ [.run cfg r])
  | stats {w w1 : World} {es : List Entry} {pc : PAPILLCounter} :
      Written papi w es → w1.dump = w.dump →
      Written papi (PAPILLCounter.stats papi (w1, pc)).1 (es ++ [.stats pc])

def Entry.lines (papi : Papi) : Entry → List Text
  | .run cfg r => (r.block papi cfg).lines
  | .stats pc => pc.lines papi

/-- A test has events, and a counter a value for each of its events and a
    numeral, if anything, for a label. The names of the events can be read, and
    are not taken for labels. -/
def Entry.Fit (papi : Papi) : Entry → Prop
  | .run _ r => r.cnt_vec ≠ [] ∧ papi.Names r.cnt_vec ∧
    ∀ e ∈ r.cnt_vec, e ≠ [] ∧ ¬ "~~".toList <+: e
  | .stats pc => Printable papi pc

def Entry.run? : Entry → Option TestRun
  | .run _ r => some r
  | .stats _ => none

def Entry.counter? : Entry → Option PAPILLCounter
  | .run _ _ => none
  | .stats pc => some pc

theorem mem_runs {es : List Entry} {r : TestRun} :
    r ∈ es.filterMap Entry.run? ↔ ∃ cfg, Entry.run cfg r ∈ es := by
  rw [List.mem_filterMap]
  constructor
  · rintro ⟨e, he, hrun⟩
    cases e with
    | run cfg r' => exact ⟨cfg, Option.some.inj hrun ▸ he⟩
    | stats pc => contradiction
  · rintro ⟨cfg, he⟩
    exact ⟨_, he, rfl⟩

theorem mem_counters {es : List Entry} {pc : PAPILLCounter} :
    pc ∈ es.filterMap Entry.counter? ↔ Entry.stats pc ∈ es := by
  rw [List.mem_filterMap]
  constructor
  · rintro ⟨e, he, hcounter⟩
    cases e with
    | run cfg r => contradiction
    | stats pc' => exact Option.some.inj hcounter ▸ he
  · exact fun he => ⟨_, he, rfl⟩

/-- The results are the given records, read back. -/
structure Recovered (records : List (Text × List (Text × Text))) (res : TestRes) : Prop where
  /-- The keys are those of the records. -/
  keys : ∀ key, key ∈ res ↔ ∃ x ∈ records, x.1 = key
  /-- Each list is `int(float(text))` of the texts printed, record by record. -/
  values : ∀ key name, (listAt res key name).map some =
    (valuesAt (entriesOf records key) name).map int_float

theorem Recovered.of_collected {records : List (Text × List (Text × Text))} {res : TestRes}
    (hcol : Collected res (records.map fun x => (x.1, x.2.map readEntry)))
    (hread : ∀ x ∈ records, ∀ e ∈ x.2, Readable e) : Recovered records res where
  keys key := by
    rw [hcol.mem_iff]
    simp
  values := collected_readable hcol hread

section
variable {papi : Papi} {w : World} {es : List Entry} {res : TestRes}
variable {records : List (Text × List (Text × Int))}

/-! ### Lines that Are Skipped -/

/-- What is solid at the beginning stays there. -/
theorem strip_head {c : Char} {l : Text} (hl : l.head? = some c) (hc : isSpace c = false) :
    (strip l).head? = some c := by
  obtain ⟨t, rfl⟩ := List.head?_eq_some_iff.mp hl
  have hdrop : strip (c :: t) = (c :: t).rdropWhile isSpace := by
    unfold strip
    rw [List.dropWhile_cons_of_neg (by simp [hc])]
  have hne : (c :: t).rdropWhile isSpace ≠ [] := by
    intro hnil
    have hall := List.rdropWhile_eq_nil_iff.mp hnil c List.mem_cons_self
    rw [hc] at hall
    contradiction
  obtain ⟨d, u, hu⟩ := List.exists_cons_of_ne_nil hne
  have hpre := List.rdropWhile_prefix isSpace (l := c :: t)
  rw [hu, List.cons_prefix_cons] at hpre
  rw [hdrop, hu, hpre.1]
  rfl

/-- A line with another first character does not begin with `mark`. -/
theorem not_marked {c d : Char} {l mark : Text} (hl : l.head? = some c) (hc : isSpace c = false)
    (hmark : mark.head? = some d) (hcd : d ≠ c) : ¬ mark.isPrefixOf (strip l) := by
  obtain ⟨t, ht⟩ := List.head?_eq_some_iff.mp hmark
  obtain ⟨u, hu⟩ := List.head?_eq_some_iff.mp (strip_head hl hc)
  rw [ht, hu, List.isPrefixOf_iff_prefix, List.cons_prefix_cons]
  exact fun hpre => hcd hpre.1

theorem AParser.parse_loop_other {c : Char} {l : Text} (hl : l.head? = some c)
    (hc : isSpace c = false ∧ '~' ≠ c) (f : List Text) :
    parse_loop (l :: f) res = parse_loop f res := by
  rw [parse_loop, if_neg (not_marked hl hc.1 (by decide) hc.2)]

theorem parse_loop_other {c : Char} {l : Text} (hl : l.head? = some c)
    (hc : isSpace c = false ∧ 'T' ≠ c) (f : List Text) :
    parse_loop (l :: f) res = parse_loop f res := by
  rw [parse_loop, if_neg (not_marked hl hc.1 (by decide) hc.2)]

/-- Header lines are no labels. -/
theorem header_heads (cfg : CoreConfig) (r : TestRun) : ∀ l ∈ (r.block papi cfg).header,
    ∃ c, l.head? = some c ∧ isSpace c = false ∧ '~' ≠ c := by
  have hhead : ∀ {a : Text} {c : Char} (b : Text), a.head? = some c → (a ++ b).head? = some c := by
    intro a c b ha
    rw [List.head?_append, ha]
    rfl
  have htest : ∃ c, (mesi_type_des r.test).head? = some c ∧ isSpace c = false ∧ '~' ≠ c := by
    cases r.test <;> exact ⟨_, rfl, by decide, by decide⟩
  have hcore : (r.block papi cfg).coreLine.head? = some 'C' :=
    hhead _ (hhead _ (hhead _ (hhead _ (hhead _ (hhead _ (hhead _ (by decide)))))))
  unfold Block.header
  simp only [List.forall_mem_cons, List.not_mem_nil, false_imp_iff, implies_true, and_true]
  exact ⟨⟨'T', by decide, by decide, by decide⟩, ⟨'W', hhead _ (by decide), by decide, by decide⟩,
    htest, ⟨'C', hcore, by decide, by decide⟩⟩

theorem AParser.parse_loop_header (cfg : CoreConfig) (r : TestRun) (f : List Text) :
    parse_loop (ended (r.block papi cfg).header ++ f) res = parse_loop f res := by
  have hheads : ∀ l ∈ (r.block papi cfg).header,
      ∃ c, l.head? = some c ∧ isSpace c = false ∧ '~' ≠ c := header_heads cfg r
  generalize (r.block papi cfg).header = ls at hheads
  induction ls with
  | nil => rfl
  | cons l ls ih =>
    obtain ⟨⟨c, hl, hc⟩, hls⟩ := List.forall_mem_cons.mp hheads
    have hline : (l ++ ['\n']).head? = some c := by
      rw [List.head?_append, hl]
      rfl
    exact (parse_loop_other hline hc _).trans (ih hls)

/-! ### Records of Runs -/

/-- No line of a record begins like a label. -/
theorem recordLine_unmarked {e : Text × Text} (hne : e.1 ≠ []) (hun : ¬ "~~".toList <+: e.1) :
    ¬ "~~".toList <+: recordLine e := by
  obtain ⟨name, value⟩ := e
  intro hpre
  -- a name of one character is followed by the colon
  match name, hne with
  | [c], _ => simp [recordLine] at hpre
  | c :: d :: name, _ => exact hun (by simpa [recordLine] using hpre)

theorem TestRun.Outcome.record_names {r : TestRun} (h : r.Outcome papi) (hcnt : r.cnt_vec ≠ [])
    (hnames : papi.Names r.cnt_vec) : ∀ es ∈ r.records papi,
      es.map Prod.fst = r.cnt_vec ++ ["Cycles".toList] := by
  rcases r.test.kinds with ht | ht | ht
  · obtain ⟨p, q, -, hp, hq, hrecords⟩ := h.of_producer_consumer ht
    rw [hrecords]
    simp [PAPILLCounter.lastRecord, record_eq, hp.samples_names hnames, hq.samples_names hnames]
  · rw [(h.of_flush ht).2]
    simp
  · obtain ⟨pc, -, hpc, -, hrecords⟩ := h.of_protocol ht hcnt
    rw [hrecords]
    simp [record_eq, hpc.samples_names hnames]

/-- The other script skips whole blocks. -/
theorem AParser.parse_loop_block (cfg : CoreConfig) {r : TestRun} (h : r.Outcome papi)
    (hfit : (Entry.run cfg r).Fit papi) (f : List Text) :
    parse_loop (ended (r.block papi cfg).lines ++ f) res = parse_loop f res := by
  obtain ⟨hcnt, hnames, hun⟩ := hfit
  have hread := h.readable hcnt hnames
  have hunmarked : ∀ es ∈ r.records papi, ∀ e ∈ es, ¬ "~~".toList <+: recordLine e := by
    intro es hes e he
    have hname : e.1 ∈ r.cnt_vec ++ ["Cycles".toList] :=
      h.record_names hcnt hnames es hes ▸ List.mem_map_of_mem he
    rcases List.mem_append.mp hname with hname | hname
    · exact recordLine_unmarked (hun _ hname).1 (hun _ hname).2
    · rw [List.mem_singleton] at hname
      exact recordLine_unmarked (by rw [hname]; decide) (by rw [hname]; decide)
  have hlines : ended (r.block papi cfg).lines ++ f =
      ended (r.block papi cfg).header ++ (ended ((r.records papi).flatMap recordLines) ++ f) := by
    rw [Block.lines, ended, List.map_append, List.append_assoc]
    rfl
  rw [hlines, parse_loop_header]
  generalize r.records papi = rs at hread hunmarked
  induction rs with
  | nil => rfl
  | cons es rs ih =>
    obtain ⟨hes, hrs⟩ := List.forall_mem_cons.mp hread
    obtain ⟨hues, hurs⟩ := List.forall_mem_cons.mp hunmarked
    rw [List.flatMap_cons, ended, List.map_append, List.append_assoc]
    exact (parse_loop_skip hes hues _ _).trans (ih hrs hurs)

/-- And the first script skips single counters, labelled or not. -/
theorem parse_loop_stats {pc : PAPILLCounter} (h : Printable papi pc) (f : List Text) :
    parse_loop (ended (pc.lines papi) ++ f) res = parse_loop f res := by
  have hrecord : ∀ f, parse_loop (ended (recordLines (pc.record papi)) ++ f) res =
      parse_loop f res := by
    intro f
    have hread : ∀ es ∈ [pc.record papi], ∀ e ∈ es, Readable e :=
      List.forall_mem_singleton.mpr h.record_readable
    have hone := parse_loop_records hread f res
    rwa [List.flatMap_singleton] at hone
  unfold PAPILLCounter.lines
  split
  · split
    · exact hrecord f
    · have hlabel : ("~~".toList ++ pc.label.toList ++ "~~".toList ++ ['\n']).head? = some '~' := by
        simp
      exact (parse_loop_other hlabel (by decide) _).trans (hrecord f)
  · rfl

/-! ### Whole Files -/

/-- Entries that are not flushes. -/
theorem parse_loop_entries (hfit : ∀ e ∈ es, e.Fit papi)
    (hout : ∀ cfg r, .run cfg r ∈ es → r.Outcome papi)
    (hflush : ∀ cfg r, .run cfg r ∈ es → r.test ≠ .flush) (hres : Collected res records) :
    ∃ res', (∀ f, parse_loop (ended (es.flatMap (Entry.lines papi)) ++ f) res =
        parse_loop f res') ∧
      Collected res' (records ++ (es.filterMap Entry.run?).map fun r => r.reading papi) := by
  induction es generalizing res records with
  | nil => exact ⟨res, fun f => rfl, by simpa using hres⟩
  | cons e es ih =>
    obtain ⟨hone, hrest⟩ := List.forall_mem_cons.mp hfit
    have hsplit : ∀ f, ended ((e :: es).flatMap (Entry.lines papi)) ++ f =
        ended (e.lines papi) ++ (ended (es.flatMap (Entry.lines papi)) ++ f) := by
      intro f
      rw [List.flatMap_cons, ended, List.map_append, List.append_assoc]
      rfl
    have hout' : ∀ cfg r, .run cfg r ∈ es → r.Outcome papi := fun cfg r hr =>
      hout cfg r (List.mem_cons_of_mem _ hr)
    have hflush' : ∀ cfg r, .run cfg r ∈ es → r.test ≠ .flush := fun cfg r hr =>
      hflush cfg r (List.mem_cons_of_mem _ hr)
    cases e with
    | stats pc =>
      obtain ⟨res', hloop, hcol⟩ := ih hrest hout' hflush' hres
      refine ⟨res', fun f => ?_, hcol⟩
      rw [hsplit, Entry.lines, parse_loop_stats hone]
      exact hloop f
    | run cfg r =>
      obtain ⟨hcnt, hnames, -⟩ := hone
      have hr := hout cfg r List.mem_cons_self
      obtain ⟨es1, rs, hrecords⟩ := List.exists_cons_of_ne_nil
        (hr.records_ne hcnt (hflush cfg r List.mem_cons_self))
      have hwf : (r.block papi cfg).WellFormed := r.block_wellFormed cfg (hr.readable hcnt hnames)
      obtain ⟨res', hloop, hcol⟩ := ih hrest hout' hflush'
        (hres.add (r.block papi cfg).key (es1.map readEntry))
      refine ⟨res', fun f => ?_, ?_⟩
      · rw [hsplit, Entry.lines, hwf.parse_loop_block hrecords]
        exact hloop f
      · have hreading : r.reading papi = ((r.block papi cfg).key, es1.map readEntry) := by
          rw [TestRun.reading, TestRun.firstRecord, hrecords]
          rfl
        simpa [Entry.run?, hreading] using hcol

/-- The other script, on any entries. -/
theorem AParser.parse_loop_entries (hfit : ∀ e ∈ es, e.Fit papi)
    (hout : ∀ cfg r, .run cfg r ∈ es → r.Outcome papi) (hres : Collected res records) :
    ∃ res', (∀ f, parse_loop (ended (es.flatMap (Entry.lines papi)) ++ f) res =
        parse_loop f res') ∧
      Collected res' (records ++ ((es.filterMap Entry.counter?).filter fun pc => pc.Labelled).map
        fun pc => pc.reading papi) := by
  induction es generalizing res records with
  | nil => exact ⟨res, fun f => rfl, by simpa using hres⟩
  | cons e es ih =>
    obtain ⟨hone, hrest⟩ := List.forall_mem_cons.mp hfit
    have hsplit : ∀ f, ended ((e :: es).flatMap (Entry.lines papi)) ++ f =
        ended (e.lines papi) ++ (ended (es.flatMap (Entry.lines papi)) ++ f) := by
      intro f
      rw [List.flatMap_cons, ended, List.map_append, List.append_assoc]
      rfl
    have hout' : ∀ cfg r, .run cfg r ∈ es → r.Outcome papi := fun cfg r hr =>
      hout cfg r (List.mem_cons_of_mem _ hr)
    cases e with
    | run cfg r =>
      obtain ⟨res', hloop, hcol⟩ := ih hrest hout' hres
      refine ⟨res', fun f => ?_, hcol⟩
      rw [hsplit, Entry.lines, parse_loop_block cfg (hout cfg r List.mem_cons_self) hone]
      exact hloop f
    | stats pc =>
      obtain ⟨res1, hlines, hcol1⟩ := Printable.parse_loop_lines hone hres
      obtain ⟨res', hloop, hcol⟩ := ih hrest hout' hcol1
      refine ⟨res', fun f => ?_, ?_⟩
      · rw [hsplit, Entry.lines, hlines]
        exact hloop f
      · by_cases hl : pc.Labelled
        · simpa [Entry.counter?, hl] using hcol
        · simpa [Entry.counter?, hl] using hcol

/-- The text of the file. -/
theorem Written.log (h : Written papi w es) (hfit : ∀ e ∈ es, e.Fit papi) :
    (∀ cfg r, .run cfg r ∈ es → r.Outcome papi) ∧
      w.dump = unlines (es.flatMap (Entry.lines papi)) := by
  induction h with
  | start hempty => exact ⟨by simp, hempty⟩
  | @run w w1 w2 es cores cfg r _ hdump hrun ih =>
    simp only [List.forall_mem_append, List.forall_mem_singleton] at hfit
    obtain ⟨hout, hlog⟩ := ih hfit.1
    obtain ⟨hnew, happ⟩ := hrun.appends hfit.2.1
    constructor
    · intro cfg' r' hr'
      rcases List.mem_append.mp hr' with hr' | hr'
      · exact hout cfg' r' hr'
      · obtain ⟨-, rfl⟩ := Entry.run.inj (List.mem_singleton.mp hr')
        exact hnew
    · rw [happ, hdump, hlog, List.flatMap_append, unlines_append, List.flatMap_singleton]
      rfl
  | @stats w w1 es pc _ hdump ih =>
    simp only [List.forall_mem_append, List.forall_mem_singleton] at hfit
    obtain ⟨hout, hlog⟩ := ih hfit.1
    constructor
    · intro cfg' r' hr'
      rcases List.mem_append.mp hr' with hr' | hr'
      · exact hout cfg' r' hr'
      · exact absurd (List.mem_singleton.mp hr') (by simp)
    · show w1.dump ++ (pc.stats_to_stream papi).1 = _
      rw [hdump, hlog, stats_to_stream_lines, List.flatMap_append, unlines_append,
        List.flatMap_singleton]
      rfl

theorem Entry.onlyBlanks {e : Entry} (hfit : e.Fit papi)
    (hout : ∀ cfg r, .run cfg r = e → r.Outcome papi) : ∀ l ∈ e.lines papi, OnlyBlanks l := by
  cases e with
  | run cfg r =>
    exact (r.block_wellFormed cfg ((hout cfg r rfl).readable hfit.1 hfit.2.1)).onlyBlanks
  | stats pc => exact Printable.onlyBlanks hfit

/-- What the scripts read are the lines that were written. -/
theorem Written.lines (h : Written papi w es) (hfit : ∀ e ∈ es, e.Fit papi) :
    Text.lines (universalNewlines w.dump) = ended (es.flatMap (Entry.lines papi)) := by
  obtain ⟨hout, hlog⟩ := h.log hfit
  rw [hlog]
  apply lines_written
  intro l hl
  obtain ⟨e, he, hl⟩ := List.mem_flatMap.mp hl
  exact Entry.onlyBlanks (hfit e he) (fun cfg r hr => hout cfg r (hr ▸ he)) l hl

/-- What the first script collects. -/
theorem Written.parses (h : Written papi w es) (hfit : ∀ e ∈ es, e.Fit papi)
    (hflush : ∀ cfg r, .run cfg r ∈ es → r.test ≠ .flush) :
    ∃ res, parse_log w.dump = some res ∧
      Collected res ((es.filterMap Entry.run?).map fun r => r.reading papi) := by
  obtain ⟨res, hloop, hcol⟩ := parse_loop_entries hfit (h.log hfit).1 hflush collected_empty
  have hend := hloop []
  rw [List.append_nil, parse_loop] at hend
  refine ⟨res, ?_, by simpa using hcol⟩
  unfold parse_log
  rw [h.lines hfit]
  exact hend

/-- What the other script collects. -/
theorem Written.parses_labels (h : Written papi w es) (hfit : ∀ e ∈ es, e.Fit papi) :
    ∃ res, AParser.parse_log w.dump = some res ∧
      Collected res (((es.filterMap Entry.counter?).filter fun pc => pc.Labelled).map
        fun pc => pc.reading papi) := by
  obtain ⟨res, hloop, hcol⟩ := AParser.parse_loop_entries hfit (h.log hfit).1 collected_empty
  have hend := hloop []
  rw [List.append_nil, AParser.parse_loop] at hend
  refine ⟨res, ?_, by simpa using hcol⟩
  unfold AParser.parse_log
  rw [h.lines hfit]
  exact hend

/-- **One file for both formats**: whatever benchmarks have appended to it, if
    the entries are fit and none is a flush, each script gets through, and finds
    exactly what was written in its own format, in the order in which it was
    written. -/
theorem one_file (h : Written papi w es) (hfit : ∀ e ∈ es, e.Fit papi)
    (hflush : ∀ cfg r, .run cfg r ∈ es → r.test ≠ .flush) :
    (∃ res, parse_log w.dump = some res ∧
      Recovered ((es.filterMap Entry.run?).map fun r => (r.key, r.firstRecord papi)) res) ∧
    (∃ res, AParser.parse_log w.dump = some res ∧
      Recovered (labelledRecords papi (es.filterMap Entry.counter?)) res) := by
  constructor
  · obtain ⟨res, hres, hcol⟩ := h.parses hfit hflush
    refine ⟨res, hres, .of_collected ?_ ?_⟩
    · rw [List.map_map]
      exact hcol
    · intro x hx e he
      obtain ⟨r, hr, rfl⟩ := List.mem_map.mp hx
      obtain ⟨cfg, hentry⟩ := mem_runs.mp hr
      obtain ⟨hcnt, hnames, -⟩ := hfit _ hentry
      exact ((h.log hfit).1 cfg r hentry).firstRecord_readable hcnt hnames e he
  · obtain ⟨res, hres, hcol⟩ := h.parses_labels hfit
    refine ⟨res, hres, .of_collected ?_ ?_⟩
    · rw [labelledRecords, List.map_map]
      exact hcol
    · intro x hx e he
      obtain ⟨pc, hpc, -, rfl⟩ := mem_labelledRecords.mp hx
      exact Printable.record_readable (hfit _ (mem_counters.mp hpc)) e he

end

/-- A block, and a counter after it. -/
theorem one_file_two_entries : ∃ w r,
    Written plainPapi w [.run ⟨0, 0, 0, 0, 0⟩ r, .stats (oneEvent "64")] ∧
      (∃ res, parse_log w.dump = some res ∧
        Recovered [(r.key, r.firstRecord plainPapi)] res) ∧
      (∃ res, AParser.parse_log w.dump = some res ∧
        Recovered (labelledRecords plainPapi [oneEvent "64"]) res) := by
  obtain ⟨counters, w1, hrun⟩ := run_test_returns plainPapi {0} ⟨0, 0, 0, 0, 0⟩
    (coldStart oneLine) .load_from_modified .local_ ["x".toList]
  generalize hr : TestRun.mk _ _ _ _ counters = r at hrun
  have hcnt : r.cnt_vec = ["x".toList] := by rw [← hr]
  have htest : r.test ≠ .flush := by simp [← hr]
  have hwritten : Written plainPapi _ [.run ⟨0, 0, 0, 0, 0⟩ r, .stats (oneEvent "64")] :=
    ((Written.start rfl).run rfl hrun).stats rfl
  refine ⟨_, _, hwritten, one_file hwritten ?_ ?_⟩
  · rw [List.forall_mem_cons, List.forall_mem_singleton]
    refine ⟨⟨?_, ?_, ?_⟩, ?_⟩
    · simp [hcnt]
    · exact hcnt ▸ plainPapi_names
    · rw [hcnt]
      decide
    · refine ⟨by simp [Digits, oneEvent], rfl, ?_, ?_, ?_, .zero⟩ <;>
        simp only [oneEvent, List.forall_mem_singleton] <;> decide
  · intro cfg r' hmem
    obtain ⟨-, rfl⟩ : cfg = ⟨0, 0, 0, 0, 0⟩ ∧ r' = r := by simpa using hmem
    exact htest

end Pcnt
