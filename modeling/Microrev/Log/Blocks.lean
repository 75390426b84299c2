import Microrev.Log.Parser

/-! # The Log Format

    A log is a list of blocks: four header lines, and then records, each
    with a blank line behind it. The parser gives the first record of every
    block to the key of the block and skips the other records. A block
    without a record is read only at the end of the log: before another
    block the next header is taken for a counter line, and that raises.
-/

namespace Pcnt

open Text Decimal Grouping

/-- An entry that can be printed on a line and read back. -/
structure Readable (e : Text × Text) : Prop where
  name : Solid e.1
  value : Solid e.2
  value_ne : e.2 ≠ []
  number : (int_float e.2).isSome

/-- What the parser reads. -/
def readEntry (e : Text × Text) : Text × Int := (e.1, (int_float e.2).getD 0)

/-- What has been collected from readable records is what their texts say. -/
theorem collected_readable {res : TestRes} {records : List (Text × List (Text × Text))}
    (hcol : Collected res (records.map fun x => (x.1, x.2.map readEntry)))
    (hread : ∀ x ∈ records, ∀ e ∈ x.2, Readable e) (key name : Text) :
    (listAt res key name).map some =
      (valuesAt (entriesOf records key) name).map int_float := by
  have hentry : readEntry = fun e => (e.1, (int_float e.2).getD 0) := rfl
  rw [hcol.listAt_eq, hentry, entriesOf_map fun text => (int_float text).getD 0,
    valuesAt_map fun text => (int_float text).getD 0, List.map_map]
  apply List.map_congr_left
  intro text htext
  obtain ⟨x, hx, -, hmem⟩ := mem_entriesOf.mp (mem_of_mem_valuesAt htext)
  obtain ⟨v, hv⟩ := Option.isSome_iff_exists.mp (hread x hx _ hmem).number
  simp [hv]

/-- One block of the log. -/
structure Block where
  test : Text
  place : Text
  size : Text
  /-- The cores `a`, `b` and `c`. -/
  cores : Text × Text × Text
  records : List (List (Text × Text))

/-- The last header line. -/
def Block.coreLine (b : Block) : Text :=
  "Core setting: ".toList ++ b.place ++ " ".toList ++ b.cores.1 ++ " ".toList ++ b.cores.2.1 ++
    " ".toList ++ b.cores.2.2

def Block.header (b : Block) : List Text :=
  ["TEST RUN".toList, "Working Set Size: ".toList ++ b.size, b.test, b.coreLine]

/-- The lines of a record, with the blank line behind it. -/
def recordLines (es : List (Text × Text)) : List Text := es.map recordLine ++ [[]]

def Block.lines (b : Block) : List Text := b.header ++ b.records.flatMap recordLines

/-- The key of the block in `test_res`. -/
def Block.key (b : Block) : Text := b.test ++ " ".toList ++ b.place ++ " ".toList ++ b.size

/-- The parts of a block are words, and its entries are readable. -/
structure Block.WellFormed (b : Block) : Prop where
  test : Solid b.test ∧ b.test ≠ []
  place : Solid b.place
  size : Solid b.size ∧ b.size ≠ []
  core_a : Solid b.cores.1
  core_b : Solid b.cores.2.1
  core_c : Solid b.cores.2.2 ∧ b.cores.2.2 ≠ []
  records : ∀ r ∈ b.records, ∀ e ∈ r, Readable e

/-- Lines as `readline` gives them. -/
def ended (ls : List Text) : List Text := ls.map fun l => l ++ ['\n']

/-! ### Lines of a Block -/

theorem not_blank {t : Text} (h : Solid t) : ' ' ∉ t := not_mem_of_solid h (by decide)

theorem strip_recordLine {e : Text × Text} (h : Readable e) :
    strip (recordLine e ++ ['\n']) = recordLine e := by
  have hname : Solid (e.1 ++ ":".toList) := by
    intro c hc
    rcases List.mem_append.mp hc with hc | hc
    · exact h.name c hc
    · rw [List.mem_singleton.mp hc]
      decide
  have hstrip := strip_line " ".toList hname h.value (by simp) h.value_ne
  simpa [recordLine] using hstrip

theorem words_recordLine {e : Text × Text} (h : Readable e) :
    words (recordLine e) = [e.1 ++ ":".toList, e.2] := by
  have hname : ' ' ∉ e.1 ++ ":".toList := by
    simpa using not_blank h.name
  have hsplit := words_cons hname e.2
  rw [words_solid (not_blank h.value)] at hsplit
  simpa [recordLine] using hsplit

theorem parse_counter_recordLine {e : Text × Text} (h : Readable e) :
    parse_counter (recordLine e ++ ['\n']) = some (readEntry e) := by
  obtain ⟨v, hv⟩ := Option.isSome_iff_exists.mp h.number
  unfold parse_counter
  rw [strip_recordLine h, words_recordLine h]
  simp [hv, readEntry]

theorem parse_counters_record {es : List (Text × Text)} (h : ∀ e ∈ es, Readable e)
    (f : List Text) (d : CounterDict) :
    parse_counters (ended (recordLines es) ++ f) d =
      some (pushAll d (es.map readEntry), ['\n'] :: f) := by
  induction es generalizing d with
  | nil =>
    -- the blank line ends the record
    show parse_counters (['\n'] :: f) d = _
    rfl
  | cons e es ih =>
    have he := h e (by simp)
    have hline : strip (recordLine e ++ ['\n']) ≠ [] := by
      rw [strip_recordLine he]
      simp [recordLine]
    show parse_counters ((recordLine e ++ ['\n']) :: (ended (recordLines es) ++ f)) d = _
    rw [parse_counters, if_neg hline, parse_counter_recordLine he]
    exact ih (fun x hx => h x (by simp [hx])) _

/-- A counter line is not taken for a header. -/
theorem recordLine_not_header {e : Text × Text} (h : Readable e) :
    ¬ "TEST RUN".toList.isPrefixOf (strip (recordLine e ++ ['\n'])) := by
  rw [strip_recordLine h]
  intro hpre
  obtain ⟨t, ht⟩ := List.isPrefixOf_iff_prefix.mp hpre
  -- the first word of the line would be TEST, but it ends with a colon
  have hwords : words ("TEST".toList ++ ' ' :: ("RUN".toList ++ t)) = words (recordLine e) := by
    rw [← ht]
    rfl
  rw [words_cons (by decide), words_recordLine h] at hwords
  have hlast := congrArg List.getLast? (List.cons.inj hwords).1
  simp at hlast

theorem parse_loop_skip {l : Text} (h : ¬ "TEST RUN".toList.isPrefixOf (strip (l ++ ['\n'])))
    (f : List Text) (res : TestRes) : parse_loop ((l ++ ['\n']) :: f) res = parse_loop f res := by
  rw [parse_loop, if_neg h]

/-- Records that no header precedes are skipped. -/
theorem parse_loop_records {rs : List (List (Text × Text))} (h : ∀ r ∈ rs, ∀ e ∈ r, Readable e)
    (f : List Text) (res : TestRes) :
    parse_loop (ended (rs.flatMap recordLines) ++ f) res = parse_loop f res := by
  have hblank : ¬ "TEST RUN".toList.isPrefixOf (strip ([] ++ ['\n'])) := by decide
  have hrecord : ∀ es : List (Text × Text), (∀ e ∈ es, Readable e) → ∀ f,
      parse_loop (ended (recordLines es) ++ f) res = parse_loop f res := by
    intro es hes f
    induction es with
    | nil => exact parse_loop_skip hblank f res
    | cons e es ih =>
      show parse_loop ((recordLine e ++ ['\n']) :: (ended (recordLines es) ++ f)) res = _
      rw [parse_loop_skip (recordLine_not_header (hes e (by simp)))]
      exact ih fun x hx => hes x (by simp [hx])
  induction rs with
  | nil => rfl
  | cons r rs ih =>
    have hsplit : ended ((r :: rs).flatMap recordLines) ++ f =
        ended (recordLines r) ++ (ended (rs.flatMap recordLines) ++ f) := by
      simp [ended]
    rw [hsplit, hrecord r (h r (by simp))]
    exact ih fun x hx => h x (by simp [hx])

/-! ### Headers -/

theorem Block.WellFormed.datasize {b : Block} (h : b.WellFormed) :
    (words (strip ("Working Set Size: ".toList ++ b.size ++ ['\n'])))[3]? = some b.size := by
  have hstrip : strip ("Working Set Size: ".toList ++ b.size ++ ['\n']) =
      "Working".toList ++ ' ' :: ("Set".toList ++ ' ' :: ("Size:".toList ++ ' ' :: b.size)) :=
    strip_line " Set Size: ".toList (a := "Working".toList) (by decide) h.size.1 (by decide)
      h.size.2
  rw [hstrip, words_cons (by decide), words_cons (by decide), words_cons (by decide),
    words_solid (not_blank h.size.1)]
  rfl

theorem Block.WellFormed.placetype {b : Block} (h : b.WellFormed) :
    (words (strip (b.coreLine ++ ['\n'])))[2]? = some b.place := by
  have hline : b.coreLine ++ ['\n'] = "Core".toList ++ (" setting: ".toList ++ b.place ++
      " ".toList ++ b.cores.1 ++ " ".toList ++ b.cores.2.1 ++ " ".toList) ++ b.cores.2.2 ++
        ['\n'] := rfl
  have hblanks : "Core".toList ++ (" setting: ".toList ++ b.place ++ " ".toList ++ b.cores.1 ++
      " ".toList ++ b.cores.2.1 ++ " ".toList) ++ b.cores.2.2 =
      "Core".toList ++ ' ' :: ("setting:".toList ++ ' ' :: (b.place ++ ' ' ::
        (b.cores.1 ++ " ".toList ++ b.cores.2.1 ++ " ".toList ++ b.cores.2.2))) := by
    simp only [List.append_assoc]
    rfl
  rw [hline, strip_line _ (by decide) h.core_c.1 (by decide) h.core_c.2, hblanks,
    words_cons (by decide), words_cons (by decide), words_cons (not_blank h.place)]
  rfl

theorem Block.WellFormed.parse_header {b : Block} (h : b.WellFormed) (f : List Text) :
    parse_header (ended b.header.tail ++ f) = some (b.key, f) := by
  have htest : strip (b.test ++ ['\n']) = b.test := strip_solid h.test.1 h.test.2
  unfold Pcnt.parse_header
  show (do
    let datasize ← (words (strip ("Working Set Size: ".toList ++ b.size ++ ['\n'])))[3]?
    let placetype ← (words (strip (b.coreLine ++ ['\n'])))[2]?
    pure (strip (b.test ++ ['\n']) ++ " ".toList ++ strip placetype ++ " ".toList ++
      strip datasize, f)) = _
  rw [h.datasize, h.placetype, htest]
  simp [strip_eq_self h.place, strip_eq_self h.size.1, Block.key]

/-! ### Blocks -/

/-- What the loop does at a header. -/
theorem Block.WellFormed.parse_loop_header {b : Block} (h : b.WellFormed) (f : List Text)
    (res : TestRes) :
    parse_loop (ended b.header ++ f) res =
      match parse_counters f ((res.lookup b.key).getD ∅) with
      | none => none
      | some (d, []) => some (res.insert b.key d)
      | some (d, _ :: f2) => parse_loop f2 (res.insert b.key d) := by
  have hsplit : ended b.header ++ f = "TEST RUN\n".toList :: (ended b.header.tail ++ f) := rfl
  rw [hsplit, parse_loop, if_pos (by decide)]
  split
  · next hnone =>
    rw [h.parse_header] at hnone
    contradiction
  · next ttype f1 hsome =>
    rw [h.parse_header] at hsome
    obtain ⟨rfl, rfl⟩ := Prod.mk.inj (Option.some.inj hsome)
    split
    · next hc => rw [hc]
    · next d hc => rw [hc]
    · next d l f2 hc => rw [hc]

/-- **A block with a record**: the first record goes to the key, the others
    are skipped. -/
theorem Block.WellFormed.parse_loop_block {b : Block} (h : b.WellFormed) {r : List (Text × Text)}
    {rs : List (List (Text × Text))} (hrs : b.records = r :: rs) (f : List Text) (res : TestRes) :
    parse_loop (ended b.lines ++ f) res =
      parse_loop f (res.insert b.key
        (pushAll ((res.lookup b.key).getD ∅) (r.map readEntry))) := by
  have hread := h.records
  rw [hrs] at hread
  have hsplit : ended b.lines ++ f = ended b.header ++
      (ended (recordLines r) ++ (ended (rs.flatMap recordLines) ++ f)) := by
    simp [Block.lines, hrs, ended]
  rw [hsplit, h.parse_loop_header, parse_counters_record (hread r (by simp))]
  exact parse_loop_records (fun r' hr' => hread r' (by simp [hr'])) f _

/-- **A block without a record, at the end**: its key gets an entry. -/
theorem Block.WellFormed.parse_loop_last {b : Block} (h : b.WellFormed) (hrs : b.records = [])
    (res : TestRes) : parse_loop (ended b.lines) res =
      some (res.insert b.key (pushAll ((res.lookup b.key).getD ∅) [])) := by
  have hsplit : ended b.lines = ended b.header ++ [] := by
    simp [Block.lines, hrs]
  -- parse_counters is at the end of the file at once
  rw [hsplit, h.parse_loop_header]
  rfl

/-- **A block without a record, before another one**: the next header is no
    counter line. -/
theorem Block.WellFormed.parse_loop_raises {b : Block} (h : b.WellFormed) (hrs : b.records = [])
    (b' : Block) (f : List Text) (res : TestRes) :
    parse_loop (ended b.lines ++ (ended b'.lines ++ f)) res = none := by
  have hsplit : ended b.lines ++ (ended b'.lines ++ f) = ended b.header ++
      ("TEST RUN\n".toList :: (ended b'.lines.tail ++ f)) := by
    simp [Block.lines, Block.header, hrs, ended]
  -- RUN is no number
  have hraise : parse_counter "TEST RUN\n".toList = none := by decide
  rw [hsplit, h.parse_loop_header, parse_counters, if_neg (by decide), hraise]

/-! ### Logs -/

/-- What the parser takes from a block. -/
def Block.reading (b : Block) : Text × List (Text × Int) :=
  (b.key, (b.records.headD []).map readEntry)

/-- **Blocks with records**: the parser gets through them and collects the
    first record of each. -/
theorem parse_loop_blocks {bs : List Block} (hwf : ∀ b ∈ bs, b.WellFormed)
    (hrec : ∀ b ∈ bs, b.records ≠ []) {res : TestRes} {records : List (Text × List (Text × Int))}
    (hres : Collected res records) :
    ∃ res', (∀ f, parse_loop (ended (bs.flatMap Block.lines) ++ f) res = parse_loop f res') ∧
      Collected res' (records ++ bs.map Block.reading) := by
  induction bs generalizing res records with
  | nil => exact ⟨res, fun f => rfl, by simpa using hres⟩
  | cons b bs ih =>
    obtain ⟨r, rs, hrs⟩ := List.exists_cons_of_ne_nil (hrec b (by simp))
    have hread : b.reading = (b.key, r.map readEntry) := by simp [Block.reading, hrs]
    obtain ⟨res', hloop, hcol⟩ := ih (fun b' hb' => hwf b' (by simp [hb']))
      (fun b' hb' => hrec b' (by simp [hb'])) (hres.add b.key (r.map readEntry))
    refine ⟨res', ?_, by simpa [hread] using hcol⟩
    intro f
    have hsplit : ended ((b :: bs).flatMap Block.lines) ++ f =
        ended b.lines ++ (ended (bs.flatMap Block.lines) ++ f) := by
      simp [ended]
    rw [hsplit, (hwf b (by simp)).parse_loop_block hrs]
    exact hloop f

/-- Blanks are the only white space inside a line. -/
def OnlyBlanks (t : Text) : Prop := ∀ c ∈ t, isSpace c = true → c = ' '

theorem OnlyBlanks.append {t u : Text} (ht : OnlyBlanks t) (hu : OnlyBlanks u) :
    OnlyBlanks (t ++ u) := by
  intro c hc
  rcases List.mem_append.mp hc with hc | hc
  · exact ht c hc
  · exact hu c hc

theorem onlyBlanks_solid {t : Text} (h : Solid t) : OnlyBlanks t := by
  intro c hc hspace
  rw [h c hc] at hspace
  contradiction

instance (t : Text) : Decidable (OnlyBlanks t) := List.decidableBAll _ t

theorem onlyBlanks_recordLine {e : Text × Text} (h : Readable e) : OnlyBlanks (recordLine e) :=
  ((onlyBlanks_solid h.name).append (by decide)).append (onlyBlanks_solid h.value)

theorem Block.WellFormed.onlyBlanks {b : Block} (h : b.WellFormed) :
    ∀ l ∈ b.lines, OnlyBlanks l := by
  intro l hl
  rcases List.mem_append.mp hl with hl | hl
  · simp only [Block.header, List.mem_cons, List.not_mem_nil, or_false] at hl
    rcases hl with rfl | rfl | rfl | rfl
    · decide
    · exact OnlyBlanks.append (by decide) (onlyBlanks_solid h.size.1)
    · exact onlyBlanks_solid h.test.1
    · have hblank : OnlyBlanks " ".toList := by decide
      have hstart : OnlyBlanks "Core setting: ".toList := by decide
      exact (((((hstart.append (onlyBlanks_solid h.place)).append hblank).append
        (onlyBlanks_solid h.core_a)).append hblank).append
          (onlyBlanks_solid h.core_b)).append hblank |>.append (onlyBlanks_solid h.core_c.1)
  · obtain ⟨r, hr, hl⟩ := List.mem_flatMap.mp hl
    rcases List.mem_append.mp hl with hl | hl
    · obtain ⟨e, he, rfl⟩ := List.mem_map.mp hl
      exact onlyBlanks_recordLine (h.records r hr e he)
    · rw [List.mem_singleton.mp hl]
      decide

/-- A text file gives back the lines that were written. -/
theorem lines_written {ls : List Text} (h : ∀ l ∈ ls, OnlyBlanks l) :
    lines (universalNewlines (unlines ls)) = ended ls := by
  have hnewline : ∀ l ∈ ls, '\n' ∉ l := fun l hl hmem =>
    absurd (h l hl '\n' hmem (by decide)) (by decide)
  have hreturn : '\r' ∉ unlines ls := by
    intro hmem
    obtain ⟨l, hl, hmem⟩ := List.mem_flatMap.mp hmem
    rcases List.mem_append.mp hmem with hmem | hmem
    · exact absurd (h l hl '\r' hmem (by decide)) (by decide)
    · simp at hmem
  rw [universalNewlines_eq hreturn, lines_unlines hnewline]
  rfl

/-- The parser sees the lines that were written. -/
theorem parse_log_blocks {bs : List Block} (hwf : ∀ b ∈ bs, b.WellFormed) :
    parse_log (unlines (bs.flatMap Block.lines)) =
      parse_loop (ended (bs.flatMap Block.lines)) ∅ := by
  unfold parse_log
  rw [lines_written]
  intro l hl
  obtain ⟨b, hb, hl⟩ := List.mem_flatMap.mp hl
  exact (hwf b hb).onlyBlanks l hl

/-- **Reading a log**: if only the last block may be without a record, the
    parser collects the first record of each block. -/
theorem parse_log_collects {bs : List Block} (hwf : ∀ b ∈ bs, b.WellFormed)
    (hrec : ∀ b ∈ bs.dropLast, b.records ≠ []) :
    ∃ res, parse_log (unlines (bs.flatMap Block.lines)) = some res ∧
      Collected res (bs.map Block.reading) := by
  have hcollect : ∀ bs : List Block, (∀ b ∈ bs, b.WellFormed) → (∀ b ∈ bs, b.records ≠ []) →
      ∃ res, (∀ f, parse_loop (ended (bs.flatMap Block.lines) ++ f) ∅ = parse_loop f res) ∧
        Collected res (bs.map Block.reading) := fun bs hwf hrec => by
    simpa using parse_loop_blocks hwf hrec (collected_empty : Collected (∅ : TestRes) [])
  rw [parse_log_blocks hwf]
  rcases List.eq_nil_or_concat' bs with rfl | ⟨l, b, rfl⟩
  · refine ⟨∅, ?_, collected_empty⟩
    show parse_loop [] ∅ = _
    rw [parse_loop]
  · have hwfl : ∀ x ∈ l, x.WellFormed := fun x hx => hwf x (by simp [hx])
    have hb : b.WellFormed := hwf b (by simp)
    rw [List.dropLast_concat] at hrec
    -- only the last block may have no record
    by_cases hnone : b.records = []
    · obtain ⟨res, hloop, hcol⟩ := hcollect l hwfl hrec
      refine ⟨res.insert b.key (pushAll ((res.lookup b.key).getD ∅) []), ?_, ?_⟩
      · have hsplit : ended ((l ++ [b]).flatMap Block.lines) =
            ended (l.flatMap Block.lines) ++ ended b.lines := by
          simp [ended]
        rw [hsplit, hloop, hb.parse_loop_last hnone]
      · have hread : b.reading = (b.key, []) := by simp [Block.reading, hnone]
        rw [List.map_append, List.map_singleton, hread]
        exact hcol.add b.key []
    · obtain ⟨res, hloop, hcol⟩ := hcollect (l ++ [b]) hwf (by
        intro x hx
        rcases List.mem_append.mp hx with hx | hx
        · exact hrec x hx
        · rw [List.mem_singleton.mp hx]
          exact hnone)
      refine ⟨res, ?_, hcol⟩
      have hend := hloop []
      rw [List.append_nil, parse_loop] at hend
      exact hend

/-- **A log that cannot be read**: any other block without a record raises. -/
theorem parse_log_raises {bs : List Block} (hwf : ∀ b ∈ bs, b.WellFormed)
    (hnone : ∃ b ∈ bs.dropLast, b.records = []) :
    parse_log (unlines (bs.flatMap Block.lines)) = none := by
  rw [parse_log_blocks hwf]
  generalize (∅ : TestRes) = res
  induction bs generalizing res with
  | nil => simp at hnone
  | cons b bs ih =>
    have hb := hwf b (by simp)
    cases bs with
    | nil => simp at hnone
    | cons b' bs =>
      have hsplit : ended ((b :: b' :: bs).flatMap Block.lines) =
          ended b.lines ++ (ended b'.lines ++ ended (bs.flatMap Block.lines)) := by
        simp [ended]
      rw [hsplit]
      cases hrs : b.records with
      -- the parser raises at the header of the next block
      | nil => exact hb.parse_loop_raises hrs b' _ res
      | cons r rs =>
        rw [hb.parse_loop_block hrs]
        obtain ⟨x, hx, hxn⟩ := hnone
        have hx' : x ∈ (b' :: bs).dropLast := by
          rw [List.dropLast_cons_cons, List.mem_cons] at hx
          rcases hx with rfl | hx
          · rw [hxn] at hrs
            contradiction
          · exact hx
        have hrest := ih (fun y hy => hwf y (List.mem_cons_of_mem _ hy)) ⟨x, hx', hxn⟩
          (res.insert b.key (pushAll ((res.lookup b.key).getD ∅) (r.map readEntry)))
        simpa [ended] using hrest

end Pcnt
