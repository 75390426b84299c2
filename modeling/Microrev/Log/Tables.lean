import Microrev.Lib.Decimal
import Microrev.Lib.Frames

/-! # Tables (`parser.py`)

    The last stage of the script: one row for each key of `test_res`, with the
    scaled means of its counters, and for each test a table with the cycles at
    the three placements, by size. The columns are those of the last key only,
    and the tables keep the sizes of the first placement only. So counters and
    keys are dropped, unless these have them all.
-/

namespace Pcnt

open Text Decimal Frames

/-! ### The Script -/

def test_list : List Text := [
  "PRODUCER_CONSUMER".toList,
  "STORE_ON_MODIFIED".toList,
  "STORE_ON_EXCLUSIVE".toList,
  "STORE_ON_SHARED_OR_FORWARD".toList,
  "STORE_ON_INVALID".toList,
  "LOAD_FROM_MODIFIED".toList,
  "LOAD_FROM_EXCLUSIVE".toList,
  "LOAD_FROM_SHARED_OR_FORWARD".toList,
  "LOAD_FROM_INVALID".toList,
  "FLUSH".toList]

def place_list : List Text := ["GLOBAL".toList, "SOCKET".toList, "LOCAL".toList]

/-- `statistics.mean( cvalues )` as a float. -/
def statistics_mean (cvalues : List ℤ) : ℚ := roundDouble (cvalues.sum / cvalues.length)

/-- `float( format( x, ".2f" ) )`, where `x` may have become infinite. -/
def two_places (x : ℚ) : Cell :=
  if |x| < 2 ^ 1024 then .num (roundDouble (roundHalfEven (x * 100) / 100)) else .inf (x < 0)

/-- `float( format( statistics.mean( cvalues ) / float( dsize ) * 64, ".2f" ) )`
    where `size` is `int( dsize )`; `none` if there is no mean, if it does not fit
    into a float, or if the size is zero. -/
def scaled_mean (cvalues : List ℤ) (size : ℤ) : Option Cell :=
  if cvalues = [] ∨ 2 ^ 1024 ≤ |statistics_mean cvalues| ∨ size = 0 then none
  else
    -- dividing by an infinite size gives zero
    let quotient := if |roundDouble size| < 2 ^ 1024 then
      roundDouble (statistics_mean cvalues / roundDouble size) else 0
    some (two_places (roundDouble (quotient * 64)))

/-- The dictionary for one key: `tmpdict`. -/
def make_row (tname : Text) (tdict : List (Text × List ℤ)) : Option (List (Text × Cell)) := do
  let ttype ← (words tname)[0]?
  let ptype ← (words tname)[1]?
  let dsize ← (words tname)[2]?
  let size ← int_text dsize
  assignAll (fun cvalues => scaled_mean cvalues size) tdict
    [("Test".toList, .text ttype), ("Placement".toList, .text ptype), ("Size".toList, .num size)]

section
variable {F : Type} (pd : Pandas F)

/-- `res`: sizes and cycles of a test at a placement. -/
def select (df : F) (cyc_idx : Nat) (t pl : Text) : F :=
  let tmp := pd.mask df ((pd.rows df).map fun row =>
    row "Test".toList = .text t && row "Placement".toList = .text pl)
  pd.rename (pd.iloc tmp [2, cyc_idx]) "Cycles".toList (pl ++ " Cycles".toList)

/-- `joined_df` after the placements; `none` stands for the empty string. -/
def join_placements (df : F) (cyc_idx : Nat) (t : Text) : Option F :=
  place_list.foldl (fun joined_df pl =>
    match joined_df with
    | some joined_df => some (pd.merge joined_df (select pd df cyc_idx t pl) "Size".toList)
    | none => some (select pd df cyc_idx t pl)) none

/-- The files `csv/result_<t>.csv`, by their tests. -/
def save_tables (df : F) (cyc_idx : Nat) : List (Text × F) :=
  test_list.filterMap fun t =>
    (join_placements pd df cyc_idx t).bind fun joined_df =>
      if (pd.rows joined_df).length ≠ 0 then some (t, joined_df) else none

/-- `result.csv` and these files; `none` if the script ends with an exception. -/
def make_tables (test_res : List (Text × List (Text × List ℤ))) : Option (F × List (Text × F)) := do
  let dictlist ← test_res.mapM fun e => make_row e.1 e.2
  let tmpdict ← dictlist.getLast?
  let df := pd.DataFrame dictlist (tmpdict.map Prod.fst)
  let cyc_idx ← (pd.columns df).idxOf? "Cycles".toList
  some (df, save_tables pd df cyc_idx)

end

/-! ### What Should Be There -/

/-- A test at a placement, with a size. -/
structure Key where
  test : Text
  placement : Text
  size : BitVec 64
  test_mem : test ∈ test_list
  placement_mem : placement ∈ place_list

/-- `<TEST> <PLACEMENT> <SIZE>`. -/
def Key.text (k : Key) : Text :=
  k.test ++ " ".toList ++ k.placement ++ " ".toList ++ showInt k.size.toNat

/-- Results of at least one test, each with values for every counter, and with
    cycles. Keys are in the order in which they were inserted. -/
structure Results where
  runs : List (Key × List (Text × List ℤ))
  ne : runs ≠ []
  keys : (runs.map fun e => e.1.text).Nodup
  counters : ∀ e ∈ runs, (e.2.map Prod.fst).Nodup
  values : ∀ e ∈ runs, ∀ c ∈ e.2, c.2 ≠ []
  cycles : ∀ e ∈ runs, "Cycles".toList ∈ e.2.map Prod.fst

def Results.test_res (r : Results) : List (Text × List (Text × List ℤ)) :=
  r.runs.map fun e => (e.1.text, e.2)

section
variable {F : Type} (pd : Pandas F)

/-- The row is labelled with the key. -/
structure Labelled (k : Key) (row : Text → Cell) : Prop where
  test : row "Test".toList = .text k.test
  placement : row "Placement".toList = .text k.placement
  size : row "Size".toList = .num k.size.toNat

/-- Every scaled mean is in the files. -/
structure Complete (r : Results) (df : F) (csv : List (Text × F)) : Prop where
  result : ∀ e ∈ r.runs, ∀ c ∈ e.2, ∃ x, scaled_mean c.2 e.1.size.toNat = some x ∧
    c.1 ∈ pd.columns df ∧ ∃ row ∈ pd.rows df, Labelled e.1 row ∧ row c.1 = x
  csv : ∀ e ∈ r.runs, ∀ c ∈ e.2, c.1 = "Cycles".toList →
    ∃ x, scaled_mean c.2 e.1.size.toNat = some x ∧ ∃ f, (e.1.test, f) ∈ csv ∧
      e.1.placement ++ " Cycles".toList ∈ pd.columns f ∧ ∃ row ∈ pd.rows f,
        row "Size".toList = .num e.1.size.toNat ∧ row (e.1.placement ++ " Cycles".toList) = x

/-- The script writes all of them. -/
def DropsNothing (r : Results) : Prop :=
  ∃ df csv, make_tables pd r.test_res = some (df, csv) ∧ Complete pd r df csv

/-- When that is so. -/
structure Regular (r : Results) : Prop where
  /-- No size is zero, and no mean too large for a float. -/
  size : ∀ e ∈ r.runs, e.1.size ≠ 0
  range : ∀ e ∈ r.runs, ∀ c ∈ e.2, |statistics_mean c.2| < 2 ^ 1024
  /-- No counter takes the place of the label. -/
  names : ∀ e ∈ r.runs, ∀ c ∈ e.2, c.1 ≠ "Test".toList ∧ c.1 ≠ "Placement".toList
  sizes : ∀ e ∈ r.runs, ∀ c ∈ e.2, c.1 = "Size".toList →
    scaled_mean c.2 e.1.size.toNat = some (.num e.1.size.toNat)
  /-- The last key has all counters. -/
  columns : ∀ e ∈ r.runs, ∀ c ∈ e.2, c.1 = "Size".toList ∨
    c.1 ∈ (r.runs.getLast r.ne).2.map Prod.fst
  /-- Every size of a test is there for the first placement. -/
  global : ∀ e ∈ r.runs, ∃ g ∈ r.runs,
    g.1.test = e.1.test ∧ g.1.placement = "GLOBAL".toList ∧ g.1.size = e.1.size

end

/-! ### The Rows -/

theorem words_key (k : Key) : words k.text = [k.test, k.placement, showInt k.size.toNat] := by
  have htests : ∀ t ∈ test_list, ' ' ∉ t := by decide
  have hplaces : ∀ pl ∈ place_list, ' ' ∉ pl := by decide
  have hsize : ' ' ∉ showInt k.size.toNat := not_mem_of_solid (intNumeral _).solid_text (by decide)
  have htext : k.text = k.test ++ ' ' :: (k.placement ++ ' ' :: showInt k.size.toNat) := by
    simp [Key.text]
  rw [htext, words_cons (htests _ k.test_mem), words_cons (hplaces _ k.placement_mem),
    words_solid hsize]

/-- A key is known by its text. -/
theorem Key.text_injective : Function.Injective Key.text := by
  intro k k' h
  have hwords := congrArg words h
  rw [words_key, words_key] at hwords
  simp only [List.cons.injEq, and_true] at hwords
  obtain ⟨htest, hplacement, hsize⟩ := hwords
  have hk := k.size.isLt
  have hk' := k'.size.isLt
  have hread : int_text (showInt k.size.toNat) = int_text (showInt k'.size.toNat) :=
    congrArg int_text hsize
  rw [int_text_showInt (by omega), int_text_showInt (by omega)] at hread
  have hnat : k.size.toNat = k'.size.toNat := by exact_mod_cast Option.some.inj hread
  obtain ⟨test, placement, size, htest_mem, hplacement_mem⟩ := k
  obtain rfl : test = k'.test := htest
  obtain rfl : placement = k'.placement := hplacement
  obtain rfl : size = k'.size := BitVec.eq_of_toNat_eq hnat
  rfl

/-- What a row has before the counters. -/
def Key.label (k : Key) : List (Text × Cell) :=
  [("Test".toList, .text k.test), ("Placement".toList, .text k.placement),
    ("Size".toList, .num k.size.toNat)]

theorem make_row_key (k : Key) (tdict : List (Text × List ℤ)) :
    make_row k.text tdict =
      assignAll (fun cvalues => scaled_mean cvalues k.size.toNat) tdict k.label := by
  have hsize : int_text (showInt k.size.toNat) = some (k.size.toNat : ℤ) := by
    apply int_text_showInt
    have hlt := k.size.isLt
    omega
  unfold make_row
  rw [words_key]
  simp only [List.getElem?_cons_zero, List.getElem?_cons_succ, Option.bind_eq_bind,
    Option.bind_some, hsize]
  rfl

/-- The cell of a run in a column. -/
def cellOf (e : Key × List (Text × List ℤ)) (c : Text) : Cell :=
  match e.2.lookup c with
  | some cvalues => (scaled_mean cvalues e.1.size.toNat).getD .nan
  | none => (e.1.label.lookup c).getD .nan

theorem cellOf_counter {e : Key × List (Text × List ℤ)} (hnodup : (e.2.map Prod.fst).Nodup)
    {c : Text × List ℤ} (hc : c ∈ e.2) {x : Cell} (hx : scaled_mean c.2 e.1.size.toNat = some x) :
    cellOf e c.1 = x := by
  unfold cellOf
  rw [lookup_of_mem hnodup hc]
  exact congrArg (fun o => o.getD .nan) hx

theorem cellOf_label {e : Key × List (Text × List ℤ)} {c : Text} (hc : c ∉ e.2.map Prod.fst) :
    cellOf e c = (e.1.label.lookup c).getD .nan := by
  unfold cellOf
  rw [lookup_eq_none hc]

/-- Columns of a table whose last row is for this run. -/
def columnsOf (e : Key × List (Text × List ℤ)) : List Text :=
  e.1.label.map Prod.fst ++ newKeys (e.1.label.map Prod.fst) (e.2.map Prod.fst)

theorem mem_columnsOf {e : Key × List (Text × List ℤ)} {c : Text} :
    c ∈ columnsOf e ↔ c ∈ ["Test".toList, "Placement".toList, "Size".toList] ∨
      c ∈ e.2.map Prod.fst := by
  have hlabel : e.1.label.map Prod.fst = ["Test".toList, "Placement".toList, "Size".toList] := rfl
  unfold columnsOf
  rw [hlabel, List.mem_append, mem_newKeys]
  tauto

theorem columnsOf_nodup {e : Key × List (Text × List ℤ)} (h : (e.2.map Prod.fst).Nodup) :
    (columnsOf e).Nodup := by
  unfold columnsOf
  rw [List.nodup_append]
  have hlabel : (e.1.label.map Prod.fst).Nodup := by
    show ["Test".toList, "Placement".toList, "Size".toList].Nodup
    decide
  refine ⟨hlabel, h.filter _, ?_⟩
  intro a ha b hb hab
  exact (mem_newKeys.mp hb).2 (hab ▸ ha)

/-- All scaled means can be computed. -/
def Computable (r : Results) : Prop :=
  ∀ e ∈ r.runs, ∀ c ∈ e.2, (scaled_mean c.2 e.1.size.toNat).isSome

section
variable {F : Type} {pd : Pandas F} {r : Results} {df : F}

/-- The frame that is made of the results. -/
structure TableOf (pd : Pandas F) (r : Results) (df : F) : Prop where
  columns : pd.columns df = columnsOf (r.runs.getLast r.ne)
  of_run : ∀ e ∈ r.runs, ∃ row ∈ pd.rows df, ∀ c ∈ pd.columns df, row c = cellOf e c
  of_row : ∀ row ∈ pd.rows df, ∃ e ∈ r.runs, ∀ c ∈ pd.columns df, row c = cellOf e c

/-- The dictionary of a run has its cells. -/
theorem lookup_make_row {e : Key × List (Text × List ℤ)} (hnodup : (e.2.map Prod.fst).Nodup)
    {d : List (Text × Cell)} (h : make_row e.1.text e.2 = some d) (c : Text) :
    (d.lookup c).getD .nan = cellOf e c := by
  rw [make_row_key] at h
  rw [lookup_assignAll hnodup h]
  unfold cellOf
  cases e.2.lookup c <;> rfl

theorem keys_make_row {e : Key × List (Text × List ℤ)} (hnodup : (e.2.map Prod.fst).Nodup)
    {d : List (Text × Cell)} (h : make_row e.1.text e.2 = some d) :
    d.map Prod.fst = columnsOf e := by
  rw [make_row_key] at h
  exact keys_assignAll hnodup h

/-- **The first table**: a row for each key. -/
theorem make_tables_spec (hpd : Lawful pd) (h : Computable r) :
    ∃ df cyc_idx, make_tables pd r.test_res = some (df, save_tables pd df cyc_idx) ∧
      TableOf pd r df ∧ (pd.columns df)[cyc_idx]? = some "Cycles".toList := by
  have hrow : ∀ e ∈ r.runs, (make_row e.1.text e.2).isSome := by
    intro e he
    rw [make_row_key, assignAll_isSome]
    exact h e he
  obtain ⟨dictlist, hdicts, hall⟩ := mapM_forall₂ hrow
  obtain ⟨tmpdict, hlast, htmpdict⟩ := getLast_right hall r.ne
  have hlastmem : r.runs.getLast r.ne ∈ r.runs := List.getLast_mem r.ne
  have hkeys : tmpdict.map Prod.fst = columnsOf (r.runs.getLast r.ne) :=
    keys_make_row (r.counters _ hlastmem) htmpdict
  have hcolumns : pd.columns (pd.DataFrame dictlist (tmpdict.map Prod.fst)) =
      columnsOf (r.runs.getLast r.ne) := by
    rw [hkeys]
    exact hpd.columns_DataFrame _ _ (columnsOf_nodup (r.counters _ hlastmem))
  have hcycles : "Cycles".toList ∈ pd.columns (pd.DataFrame dictlist (tmpdict.map Prod.fst)) := by
    rw [hcolumns, mem_columnsOf]
    exact .inr (r.cycles _ hlastmem)
  obtain ⟨cyc_idx, hidx⟩ := Option.isSome_iff_exists.mp (List.isSome_idxOf?.mpr hcycles)
  have hrows := hpd.rows_DataFrame dictlist (tmpdict.map Prod.fst)
  rw [← hkeys] at hcolumns
  refine ⟨_, cyc_idx, ?_, ⟨hcolumns.trans hkeys, ?_, ?_⟩, ?_⟩
  · have hmap : r.test_res.mapM (fun e => make_row e.1 e.2) = some dictlist := by
      unfold Results.test_res
      rw [List.mapM_map]
      exact hdicts
    unfold make_tables
    simp only [hmap, hlast, hidx, Option.bind_eq_bind, Option.bind_some]
  · intro e he
    obtain ⟨d, hd, hed⟩ := exists_right hall e he
    obtain ⟨row, hrow, hcells⟩ := exists_right hrows d hd
    refine ⟨row, hrow, ?_⟩
    intro c hc
    rw [hcells c (hcolumns ▸ hc), lookup_make_row (r.counters e he) hed]
  · intro row hrow
    obtain ⟨d, hd, hcells⟩ := exists_left hrows row hrow
    obtain ⟨e, he, hed⟩ := exists_left hall d hd
    refine ⟨e, he, ?_⟩
    intro c hc
    rw [hcells c (hcolumns ▸ hc), lookup_make_row (r.counters e he) hed]
  · obtain ⟨hlt, hget, -⟩ := List.idxOf?_eq_some_iff.mp hidx
    rw [List.getElem?_eq_getElem hlt, hget]

/-! ### The Tables of a Test -/

/-- What is known about the frame when the tables are made. -/
structure Indexed (pd : Pandas F) (df : F) (cyc_idx : Nat) : Prop where
  nodup : (pd.columns df).Nodup
  size : (pd.columns df)[2]? = some "Size".toList
  cycles : (pd.columns df)[cyc_idx]? = some "Cycles".toList

theorem TableOf.indexed (h : TableOf pd r df) {cyc_idx : Nat}
    (hidx : (pd.columns df)[cyc_idx]? = some "Cycles".toList) : Indexed pd df cyc_idx where
  nodup := by
    rw [h.columns]
    exact columnsOf_nodup (r.counters _ (List.getLast_mem r.ne))
  size := by
    rw [h.columns]
    rfl
  cycles := hidx

section
variable {cyc_idx : Nat} {t pl : Text}

/-- The rows of a test at a placement. -/
def selected (pd : Pandas F) (df : F) (t pl : Text) : F :=
  pd.mask df ((pd.rows df).map fun row =>
    row "Test".toList = .text t && row "Placement".toList = .text pl)

theorem mem_selected (hpd : Lawful pd) {row : Text → Cell} :
    row ∈ pd.rows (selected pd df t pl) ↔ row ∈ pd.rows df ∧
      row "Test".toList = .text t ∧ row "Placement".toList = .text pl := by
  unfold selected
  rw [hpd.rows_mask _ _ (List.length_map _), filter_mask, List.mem_filter, Bool.and_eq_true,
    decide_eq_true_eq, decide_eq_true_eq]

theorem Indexed.columns_iloc (hpd : Lawful pd) (h : Indexed pd df cyc_idx) :
    pd.columns (pd.iloc (selected pd df t pl) [2, cyc_idx]) = ["Size".toList, "Cycles".toList] := by
  have hcolumns : pd.columns (selected pd df t pl) = pd.columns df := hpd.columns_mask _ _
  have hlt : ∀ i ∈ [2, cyc_idx], i < (pd.columns (selected pd df t pl)).length := by
    rw [hcolumns]
    simp only [List.forall_mem_cons, List.not_mem_nil, false_imp_iff, implies_true, and_true]
    exact ⟨(List.getElem?_eq_some_iff.mp h.size).1, (List.getElem?_eq_some_iff.mp h.cycles).1⟩
  rw [hpd.columns_iloc _ _ hlt, hcolumns, List.filterMap_cons_some h.size,
    List.filterMap_cons_some h.cycles]
  rfl

theorem Indexed.columns_select (hpd : Lawful pd) (h : Indexed pd df cyc_idx) :
    pd.columns (select pd df cyc_idx t pl) = ["Size".toList, pl ++ " Cycles".toList] := by
  show pd.columns (pd.rename (pd.iloc (selected pd df t pl) [2, cyc_idx]) _ _) = _
  rw [hpd.columns_rename, h.columns_iloc hpd, List.map_cons, List.map_cons, if_neg (by decide),
    if_pos rfl]
  rfl

/-- A row of the selection has size and cycles of a row of the frame. -/
theorem Indexed.rows_select (hpd : Lawful pd) (h : Indexed pd df cyc_idx) (hpl : pl ∈ place_list) :
    (∀ row ∈ pd.rows (selected pd df t pl), ∃ b ∈ pd.rows (select pd df cyc_idx t pl),
      b "Size".toList = row "Size".toList ∧ b (pl ++ " Cycles".toList) = row "Cycles".toList) ∧
    ∀ b ∈ pd.rows (select pd df cyc_idx t pl), ∃ row ∈ pd.rows (selected pd df t pl),
      b "Size".toList = row "Size".toList := by
  have hnew : pl ++ " Cycles".toList ∉ ["Size".toList, "Cycles".toList] := by
    have hplaces : ∀ pl ∈ place_list,
        pl ++ " Cycles".toList ∉ ["Size".toList, "Cycles".toList] := by
      decide
    exact hplaces pl hpl
  have hcolumns : pd.columns (pd.iloc (selected pd df t pl) [2, cyc_idx]) =
      ["Size".toList, "Cycles".toList] := h.columns_iloc hpd
  have hnodup : (pd.columns (selected pd df t pl)).Nodup := by
    have hmask : pd.columns (selected pd df t pl) = pd.columns df := hpd.columns_mask _ _
    rw [hmask]
    exact h.nodup
  have hiloc := hpd.rows_iloc (selected pd df t pl) [2, cyc_idx] hnodup
  rw [hcolumns] at hiloc
  have hrename := hpd.rows_rename (pd.iloc (selected pd df t pl) [2, cyc_idx]) "Cycles".toList
    (pl ++ " Cycles".toList) (hcolumns ▸ hnew)
  rw [hcolumns] at hrename
  have hcells : ∀ a b : Text → Cell, (∀ c ∈ ["Size".toList, "Cycles".toList],
      b (if c = "Cycles".toList then pl ++ " Cycles".toList else c) = a c) →
      b "Size".toList = a "Size".toList ∧ b (pl ++ " Cycles".toList) = a "Cycles".toList := by
    intro a b hab
    have hsize := hab "Size".toList (by simp)
    have hcycles := hab "Cycles".toList (by simp)
    rw [if_neg (by decide)] at hsize
    rw [if_pos rfl] at hcycles
    exact ⟨hsize, hcycles⟩
  constructor
  · intro row hrow
    obtain ⟨a, ha, hrowa⟩ := exists_right hiloc row hrow
    obtain ⟨b, hb, hab⟩ := exists_right hrename a ha
    obtain ⟨hsize, hcycles⟩ := hcells a b hab
    exact ⟨b, hb, hsize.trans (hrowa _ (by simp)), hcycles.trans (hrowa _ (by simp))⟩
  · intro b hb
    obtain ⟨a, ha, hab⟩ := exists_left hrename b hb
    obtain ⟨row, hrow, hrowa⟩ := exists_left hiloc a ha
    exact ⟨row, hrow, (hcells a b hab).1.trans (hrowa _ (by simp))⟩

/-- The frames of the placements behind the first one. -/
def others (pd : Pandas F) (df : F) (cyc_idx : Nat) (t : Text) : List F :=
  [select pd df cyc_idx t "SOCKET".toList, select pd df cyc_idx t "LOCAL".toList]

/-- The table of a test is a chain of left joins. -/
theorem join_placements_eq (pd : Pandas F) (df : F) (cyc_idx : Nat) (t : Text) :
    join_placements pd df cyc_idx t = some (joinAll pd "Size".toList
      (select pd df cyc_idx t "GLOBAL".toList) (others pd df cyc_idx t)) := rfl

theorem Indexed.chain (hpd : Lawful pd) (h : Indexed pd df cyc_idx) (t : Text) :
    Chain pd "Size".toList (select pd df cyc_idx t "GLOBAL".toList) (others pd df cyc_idx t) where
  has := by
    show ∀ f ∈ place_list.map fun pl => select pd df cyc_idx t pl, "Size".toList ∈ pd.columns f
    rw [List.forall_mem_map]
    intro pl _
    rw [h.columns_select hpd]
    exact List.mem_cons_self
  disjoint := by
    have hplaces : ∀ pl ∈ place_list, ∀ pl' ∈ place_list, pl ≠ pl' →
        ∀ c ∈ ["Size".toList, pl ++ " Cycles".toList],
          c ∈ ["Size".toList, pl' ++ " Cycles".toList] → c = "Size".toList := by
      decide
    have hne : place_list.Pairwise (· ≠ ·) := by decide
    show (place_list.map fun pl => select pd df cyc_idx t pl).Pairwise _
    rw [List.pairwise_map]
    apply hne.imp_of_mem
    intro pl pl' hpl hpl' hdiff
    rw [h.columns_select hpd, h.columns_select hpd]
    exact hplaces pl hpl pl' hpl' hdiff

/-- **Sizes of the first placement**: every row of the table of a test has the
    size of a row for this test at the first placement. -/
theorem Indexed.table_left (hpd : Lawful pd) (h : Indexed pd df cyc_idx) {f : F}
    (hf : join_placements pd df cyc_idx t = some f) :
    ∀ row ∈ pd.rows f, ∃ a ∈ pd.rows (selected pd df t "GLOBAL".toList),
      row "Size".toList = a "Size".toList := by
  obtain rfl := Option.some.inj ((join_placements_eq pd df cyc_idx t).symm.trans hf)
  intro row hrow
  obtain ⟨b, hb, hrowb⟩ := joinAll_left hpd (h.chain hpd t) row hrow
  obtain ⟨a, ha, hba⟩ := (h.rows_select hpd (by decide)).2 b hb
  refine ⟨a, ha, ?_⟩
  rw [hrowb _ ((h.chain hpd t).has _ List.mem_cons_self), hba]

/-- **Cycles at every placement** are there, if the size is there for the
    first placement. -/
theorem Indexed.table_matches (hpd : Lawful pd) (h : Indexed pd df cyc_idx) (hpl : pl ∈ place_list)
    {a b : Text → Cell} (ha : a ∈ pd.rows (selected pd df t "GLOBAL".toList))
    (hb : b ∈ pd.rows (selected pd df t pl)) (hab : a "Size".toList = b "Size".toList) :
    ∃ f, join_placements pd df cyc_idx t = some f ∧ pl ++ " Cycles".toList ∈ pd.columns f ∧
      ∃ row ∈ pd.rows f, row "Size".toList = b "Size".toList ∧
        row (pl ++ " Cycles".toList) = b "Cycles".toList := by
  have hchain := h.chain hpd t
  obtain ⟨first, hfirst, hfirsta, -⟩ := (h.rows_select (t := t) hpd (by decide)).1 a ha
  obtain ⟨cells, hcells, hsize, hcycles⟩ := (h.rows_select (t := t) hpd hpl).1 b hb
  -- the placement is the first one, or a match is found in one of the others
  have hrow : (∀ c ∈ pd.columns (select pd df cyc_idx t pl), c ∈ pd.columns (joinAll pd
        "Size".toList (select pd df cyc_idx t "GLOBAL".toList) (others pd df cyc_idx t))) ∧
      ∃ row ∈ pd.rows (joinAll pd "Size".toList (select pd df cyc_idx t "GLOBAL".toList)
        (others pd df cyc_idx t)),
        ∀ c ∈ pd.columns (select pd df cyc_idx t pl), row c = cells c := by
    rcases List.mem_cons.mp hpl with rfl | hother
    · obtain ⟨hcolumns, hrows⟩ := joinAll_keeps hpd hchain
      exact ⟨hcolumns, hrows cells hcells⟩
    · have hmem : select pd df cyc_idx t pl ∈ others pd df cyc_idx t :=
        List.mem_map_of_mem (f := fun pl => select pd df cyc_idx t pl) hother
      obtain ⟨hcolumns, hrows⟩ := joinAll_matches hpd hchain hmem
      exact ⟨hcolumns, hrows first hfirst cells hcells (by rw [hfirsta, hab, hsize])⟩
  obtain ⟨hcolumns, row, hmem, hrow⟩ := hrow
  rw [h.columns_select hpd] at hcolumns hrow
  refine ⟨_, join_placements_eq pd df cyc_idx t, hcolumns _ (by simp), row, hmem, ?_, ?_⟩
  · rw [hrow _ (by simp), hsize]
  · rw [hrow _ (by simp), hcycles]

/-- A table with a row is saved. -/
theorem mem_save_tables {f : F} (ht : t ∈ test_list) (hf : join_placements pd df cyc_idx t = some f)
    {row : Text → Cell} (hrow : row ∈ pd.rows f) : (t, f) ∈ save_tables pd df cyc_idx := by
  have hlen : (pd.rows f).length ≠ 0 := (List.length_pos_of_mem hrow).ne'
  unfold save_tables
  rw [List.mem_filterMap]
  refine ⟨t, ht, ?_⟩
  rw [hf, Option.bind_some, if_pos hlen]

theorem of_mem_save_tables {f : F} (h : (t, f) ∈ save_tables pd df cyc_idx) :
    join_placements pd df cyc_idx t = some f := by
  unfold save_tables at h
  obtain ⟨t', -, h⟩ := List.mem_filterMap.mp h
  obtain ⟨f', hf', h⟩ := Option.bind_eq_some_iff.mp h
  split at h
  · obtain ⟨rfl, rfl⟩ := Prod.mk.inj (Option.some.inj h)
    exact hf'
  · simp at h

end

/-! ### What Is Dropped -/

theorem scaled_mean_isSome {cvalues : List ℤ} {size : ℤ} :
    (scaled_mean cvalues size).isSome ↔
      cvalues ≠ [] ∧ |statistics_mean cvalues| < 2 ^ 1024 ∧ size ≠ 0 := by
  have hguard : ¬ (cvalues = [] ∨ 2 ^ 1024 ≤ |statistics_mean cvalues| ∨ size = 0) ↔
      cvalues ≠ [] ∧ |statistics_mean cvalues| < 2 ^ 1024 ∧ size ≠ 0 := by
    rw [not_or, not_or, not_le]
  rw [← hguard]
  unfold scaled_mean
  split
  · next h => simp [h]
  · next h => simp [h]

/-- A mean is not a text. -/
theorem scaled_mean_ne_text {cvalues : List ℤ} {size : ℤ} (t : Text) :
    scaled_mean cvalues size ≠ some (.text t) := by
  have htwo : ∀ x, two_places x ≠ .text t := by
    intro x
    unfold two_places
    split <;> simp
  unfold scaled_mean
  split
  · simp
  · intro h
    exact htwo _ (Option.some.inj h)

/-- The exact mean is no larger than the values are. -/
theorem abs_mean_le {cvalues : List ℤ} {b : ℚ} (hb : 0 ≤ b) (h : ∀ v ∈ cvalues, |(v : ℚ)| ≤ b) :
    |(cvalues.sum / cvalues.length : ℚ)| ≤ b := by
  have hsum : |(cvalues.sum : ℚ)| ≤ cvalues.length * b := by
    induction cvalues with
    | nil => simp
    | cons v vs ih =>
      have hrest := ih fun x hx => h x (by simp [hx])
      have hv := h v (by simp)
      rw [List.sum_cons, List.length_cons, Int.cast_add, Nat.cast_succ]
      calc |(v : ℚ) + vs.sum| ≤ |(v : ℚ)| + |(vs.sum : ℚ)| := abs_add_le _ _
        _ ≤ (vs.length + 1) * b := by linarith
  rw [abs_div, Nat.abs_cast]
  exact div_le_of_le_mul₀ (Nat.cast_nonneg _) hb (by linarith)

/-- The float is about as large. -/
theorem abs_statistics_mean_le {cvalues : List ℤ} {b : ℚ} (hb : 0 ≤ b)
    (h : ∀ v ∈ cvalues, |(v : ℚ)| ≤ b) : |statistics_mean cvalues| ≤ 2 * b := by
  have hmean := abs_mean_le hb h
  calc |statistics_mean cvalues| ≤ 2 * |(cvalues.sum / cvalues.length : ℚ)| :=
        abs_roundDouble_le _
    _ ≤ 2 * b := by linarith

/-- Twice the largest value that is ever read fits into a float. -/
theorem twice_read_fits : (2 : ℚ) * 10 ^ 201 < 2 ^ 1024 :=
  calc (2 : ℚ) * 10 ^ 201 ≤ 2 * (2 ^ 4) ^ 201 := by gcongr; norm_num
    _ = 2 ^ (4 * 201 + 1) := by rw [← pow_mul]; exact (pow_succ' _ _).symm
    _ < 2 ^ 1024 := pow_lt_pow_right₀ (by norm_num) (by norm_num)

/-- No counter changes the label of the run. -/
structure KeepsLabel (e : Key × List (Text × List ℤ)) : Prop where
  names : ∀ c ∈ e.2, c.1 ≠ "Test".toList ∧ c.1 ≠ "Placement".toList
  sizes : ∀ c ∈ e.2, c.1 = "Size".toList →
    scaled_mean c.2 e.1.size.toNat = some (.num e.1.size.toNat)

theorem KeepsLabel.labelled {e : Key × List (Text × List ℤ)} (h : KeepsLabel e)
    (hnodup : (e.2.map Prod.fst).Nodup) (htable : TableOf pd r df) {row : Text → Cell}
    (hrow : ∀ c ∈ pd.columns df, row c = cellOf e c) : Labelled e.1 row := by
  have hcolumn : ∀ c ∈ ["Test".toList, "Placement".toList, "Size".toList], c ∈ pd.columns df := by
    intro c hc
    rw [htable.columns, mem_columnsOf]
    exact .inl hc
  have hother : ∀ n : Text, (∀ c ∈ e.2, c.1 ≠ n) → n ∉ e.2.map Prod.fst := by
    intro n hn hmem
    obtain ⟨c, hc, hcn⟩ := List.mem_map.mp hmem
    exact hn c hc hcn
  constructor
  · rw [hrow _ (hcolumn _ (by simp)), cellOf_label (hother _ fun c hc => (h.names c hc).1)]
    rfl
  · rw [hrow _ (hcolumn _ (by simp)), cellOf_label (hother _ fun c hc => (h.names c hc).2)]
    rfl
  · rw [hrow _ (hcolumn _ (by simp))]
    by_cases hsize : "Size".toList ∈ e.2.map Prod.fst
    · obtain ⟨c, hc, hcn⟩ := List.mem_map.mp hsize
      rw [← hcn]
      exact cellOf_counter hnodup hc (h.sizes c hc hcn)
    · rw [cellOf_label hsize]
      rfl

/-- If everything is in the files, no label was changed. -/
theorem Complete.keepsLabel {csv : List (Text × F)} (h : Complete pd r df csv)
    {e : Key × List (Text × List ℤ)} (he : e ∈ r.runs) : KeepsLabel e := by
  constructor
  · intro c hc
    obtain ⟨x, hx, -, row, -, hlabel, hcell⟩ := h.result e he c hc
    constructor
    · intro hname
      rw [hname, hlabel.test] at hcell
      exact scaled_mean_ne_text _ (hcell ▸ hx)
    · intro hname
      rw [hname, hlabel.placement] at hcell
      exact scaled_mean_ne_text _ (hcell ▸ hx)
  · intro c hc hname
    obtain ⟨x, hx, -, row, -, hlabel, hcell⟩ := h.result e he c hc
    rw [hname, hlabel.size] at hcell
    rw [hx, hcell]

/-- **Complete only if regular.** -/
theorem DropsNothing.regular (hpd : Lawful pd) (h : DropsNothing pd r) : Regular r := by
  obtain ⟨df, csv, hmake, hcomplete⟩ := h
  have hcomputable : Computable r := by
    intro e he c hc
    obtain ⟨x, hx, -⟩ := hcomplete.result e he c hc
    rw [hx]
    rfl
  obtain ⟨df', cyc_idx, hmake', htable, hidx⟩ := make_tables_spec hpd hcomputable
  obtain ⟨rfl, rfl⟩ := Prod.mk.inj (Option.some.inj (hmake'.symm.trans hmake))
  have hindexed := htable.indexed hidx
  have hcycles : ∀ e ∈ r.runs, ∃ c ∈ e.2, c.1 = "Cycles".toList := by
    intro e he
    exact List.mem_map.mp (r.cycles e he)
  constructor
  · intro e he hzero
    obtain ⟨c, hc, -⟩ := hcycles e he
    have hsize := (scaled_mean_isSome.mp (hcomputable e he c hc)).2.2
    rw [hzero] at hsize
    exact hsize rfl
  · exact fun e he c hc => (scaled_mean_isSome.mp (hcomputable e he c hc)).2.1
  · exact fun e he => (hcomplete.keepsLabel he).names
  · exact fun e he => (hcomplete.keepsLabel he).sizes
  · intro e he c hc
    obtain ⟨x, hx, hcolumn, -⟩ := hcomplete.result e he c hc
    obtain ⟨htest, hplacement⟩ := (hcomplete.keepsLabel he).names c hc
    rw [htable.columns, mem_columnsOf] at hcolumn
    rcases hcolumn with hlabel | hlast
    · simp only [List.mem_cons, List.not_mem_nil, or_false] at hlabel
      exact .inl ((hlabel.resolve_left htest).resolve_left hplacement)
    · exact .inr hlast
  · intro e he
    obtain ⟨c, hc, hname⟩ := hcycles e he
    obtain ⟨x, -, f, hf, -, row, hrow, hsize, -⟩ := hcomplete.csv e he c hc hname
    obtain ⟨a, ha, hrowa⟩ := hindexed.table_left hpd (of_mem_save_tables hf) row hrow
    obtain ⟨hmem, htest, hplacement⟩ := (mem_selected hpd).mp ha
    obtain ⟨g, hg, hcells⟩ := htable.of_row a hmem
    have hlabel := (hcomplete.keepsLabel hg).labelled (r.counters g hg) htable hcells
    rw [hlabel.test] at htest
    rw [hlabel.placement] at hplacement
    rw [hsize, hlabel.size] at hrowa
    refine ⟨g, hg, Cell.text.inj htest, Cell.text.inj hplacement, ?_⟩
    have hnat : g.1.size.toNat = e.1.size.toNat := by exact_mod_cast (Cell.num.inj hrowa).symm
    exact BitVec.eq_of_toNat_eq hnat

/-- **Regular results are complete.** -/
theorem Regular.dropsNothing (hpd : Lawful pd) (h : Regular r) : DropsNothing pd r := by
  have hcomputable : Computable r := by
    intro e he c hc
    rw [scaled_mean_isSome]
    refine ⟨r.values e he c hc, h.range e he c hc, ?_⟩
    intro hzero
    have hnat : e.1.size.toNat = 0 := by exact_mod_cast hzero
    exact h.size e he (BitVec.eq_of_toNat_eq hnat)
  obtain ⟨df, cyc_idx, hmake, htable, hidx⟩ := make_tables_spec hpd hcomputable
  have hindexed := htable.indexed hidx
  have hlabel : ∀ e ∈ r.runs, ∃ row ∈ pd.rows df,
      (∀ c ∈ pd.columns df, row c = cellOf e c) ∧ Labelled e.1 row := by
    intro e he
    obtain ⟨row, hrow, hcells⟩ := htable.of_run e he
    have hkeeps : KeepsLabel e := ⟨h.names e he, h.sizes e he⟩
    exact ⟨row, hrow, hcells, hkeeps.labelled (r.counters e he) htable hcells⟩
  have hcolumn : ∀ e ∈ r.runs, ∀ c ∈ e.2, c.1 ∈ pd.columns df := by
    intro e he c hc
    rw [htable.columns, mem_columnsOf]
    rcases h.columns e he c hc with hsize | hlast
    · exact .inl (by simp [hsize])
    · exact .inr hlast
  refine ⟨df, _, hmake, ?_, ?_⟩
  · intro e he c hc
    obtain ⟨x, hx⟩ := Option.isSome_iff_exists.mp (hcomputable e he c hc)
    obtain ⟨row, hrow, hcells, hlabelled⟩ := hlabel e he
    have hcolumn := hcolumn e he c hc
    refine ⟨x, hx, hcolumn, row, hrow, hlabelled, ?_⟩
    rw [hcells _ hcolumn, cellOf_counter (r.counters e he) hc hx]
  · intro e he c hc hname
    obtain ⟨x, hx⟩ := Option.isSome_iff_exists.mp (hcomputable e he c hc)
    obtain ⟨b, hb, hbcells, hblabel⟩ := hlabel e he
    obtain ⟨g, hg, htest, hplacement, hsize⟩ := h.global e he
    obtain ⟨a, ha, -, halabel⟩ := hlabel g hg
    have hasel : a ∈ pd.rows (selected pd df e.1.test "GLOBAL".toList) := by
      rw [mem_selected hpd]
      exact ⟨ha, htest ▸ halabel.test, hplacement ▸ halabel.placement⟩
    have hbsel : b ∈ pd.rows (selected pd df e.1.test e.1.placement) := by
      rw [mem_selected hpd]
      exact ⟨hb, hblabel.test, hblabel.placement⟩
    have hab : a "Size".toList = b "Size".toList := by
      rw [halabel.size, hblabel.size, hsize]
    obtain ⟨f, hf, hfcolumn, row, hrow, hrowsize, hrowcycles⟩ :=
      hindexed.table_matches hpd e.1.placement_mem hasel hbsel hab
    refine ⟨x, hx, f, mem_save_tables e.1.test_mem hf hrow, hfcolumn, row, hrow, ?_, ?_⟩
    · rw [hrowsize, hblabel.size]
    · rw [hrowcycles, ← hname, hbcells _ (hcolumn e he c hc),
        cellOf_counter (r.counters e he) hc hx]

/-- **Nothing is dropped** exactly if the results are regular. -/
theorem tables_drop_nothing_iff (hpd : Lawful pd) (r : Results) :
    DropsNothing pd r ↔ Regular r :=
  ⟨DropsNothing.regular hpd, Regular.dropsNothing hpd⟩

end

/-! ### Two Logs -/

/-- Cycles of a flush of 64 bytes. -/
def flushRun (pl : Text) (hpl : pl ∈ place_list) (cycles : ℤ) : Key × List (Text × List ℤ) :=
  (⟨"FLUSH".toList, pl, 64, by decide, hpl⟩, [("Cycles".toList, [cycles])])

/-- At the first and at the last placement. -/
def globalAndLocal : Results where
  runs := [flushRun "GLOBAL".toList (by decide) 100, flushRun "LOCAL".toList (by decide) 120]
  ne := by simp
  keys := by decide
  counters := by decide
  values := by decide
  cycles := by decide

/-- At the last placement only. -/
def localOnly : Results where
  runs := [flushRun "LOCAL".toList (by decide) 120]
  ne := by simp
  keys := by decide
  counters := by decide
  values := by decide
  cycles := by decide

/-- Both placements are in the table. -/
theorem tables_global_and_local : DropsNothing plainPandas globalAndLocal := by
  apply (tables_drop_nothing_iff plainPandas_lawful globalAndLocal).mpr
  constructor
  · decide
  · decide +kernel
  · decide
  · decide +kernel
  · decide
  · decide

/-- Nothing is in the table for the test, which is not even written. -/
theorem tables_drop_local_only :
    (make_tables plainPandas localOnly.test_res).map (fun t => t.2.map Prod.fst) = some [] ∧
    ¬ DropsNothing plainPandas localOnly := by
  constructor
  · decide +kernel
  · intro h
    obtain ⟨g, hg, -, hplacement, -⟩ := (h.regular plainPandas_lawful).global
      (flushRun "LOCAL".toList (by decide) 120) (by simp [localOnly])
    rw [List.mem_singleton.mp hg] at hplacement
    exact absurd hplacement (by decide)

end Pcnt
