import Microrev.Log.Tables
import Microrev.Log.Labelled

/-! # The Table by Size (`a_parser.py`)

    The labels of the other parsing script are sizes. It makes one row for
    each of them, with the means of the counters; cycles are divided by the
    size. Like `parser.py` it takes the columns of the last row for all. The
    table has everything exactly if the last label has all counters, and no
    counter is called `Size`.
-/

namespace Pcnt

open Text Decimal Grouping Frames

namespace AParser

/-! ### The Script -/

/-- `"Cycle" in cname or "CYC" in cname`. -/
def isCycles (cname : Text) : Bool :=
  decide ("Cycle".toList <:+: cname) || decide ("CYC".toList <:+: cname)

/-- `statistics.mean( cvalues ) / int( dsize )` for a mean that is an integer. -/
def integral_mean_per (cvalues : List ℤ) (size : ℤ) : ℚ :=
  roundDouble ((cvalues.sum / cvalues.length : ℤ) / size)

/-- For any other mean, which is a float. -/
def float_mean_per (cvalues : List ℤ) (size : ℤ) : ℚ :=
  roundDouble (statistics_mean cvalues / roundDouble size)

/-- `float( format( .., ".2f" ) )` of the mean, or of the mean by size; `none`
    if there is no mean, if a number does not fit into a float, or if cycles
    are divided by zero. -/
def cell (cname : Text) (cvalues : List ℤ) (size : ℤ) : Option Cell :=
  if cvalues = [] then none
  else if isCycles cname then
    if size = 0 then none
    else if (cvalues.length : ℤ) ∣ cvalues.sum then
      if |integral_mean_per cvalues size| < 2 ^ 1024 then
        some (two_places (integral_mean_per cvalues size))
      else none
    else if |statistics_mean cvalues| < 2 ^ 1024 ∧ |roundDouble size| < 2 ^ 1024 then
      some (two_places (float_mean_per cvalues size))
    else none
  else if |statistics_mean cvalues| < 2 ^ 1024 then some (two_places (statistics_mean cvalues))
  else none

/-- The dictionary for one label: `tmpdict`. The cell of a counter depends on
    its name. -/
def make_row (tname : Text) (tdict : List (Text × List ℤ)) : Option (List (Text × Cell)) := do
  let size ← int_text tname
  assignAll (fun c => cell c.1 c.2 size) (tdict.map fun c => (c.1, c))
    [("Size".toList, .num size)]

/-- `result.csv`; `none` if the script ends with an exception, also for want
    of a last `tmpdict`. -/
def make_table {F : Type} (pd : Pandas F) (test_res : List (Text × List (Text × List ℤ))) :
    Option F := do
  let dictlist ← test_res.mapM fun e => make_row e.1 e.2
  let tmpdict ← dictlist.getLast?
  some (pd.DataFrame dictlist (tmpdict.map Prod.fst))

/-! ### What Should Be There -/

section
variable {F : Type} (pd : Pandas F)

/-- The row of a label: its size and all of its cells. -/
structure RowFor (df : F) (e : Text × List (Text × List ℤ)) (row : Text → Cell) : Prop where
  size : ∃ size, int_text e.1 = some size ∧ row "Size".toList = .num size
  cells : ∀ c ∈ e.2, ∀ size, int_text e.1 = some size →
    c.1 ∈ pd.columns df ∧ cell c.1 c.2 size = some (row c.1)

/-- The script writes a row for each label, in order, and nothing is missing. -/
def RowForEach (test_res : List (Text × List (Text × List ℤ))) : Prop :=
  ∃ df, make_table pd test_res = some df ∧ List.Forall₂ (RowFor pd df) test_res (pd.rows df)

end

/-- When that is so. -/
structure Sized (test_res : List (Text × List (Text × List ℤ))) : Prop where
  ne : test_res ≠ []
  /-- Every label is a number. -/
  labels : ∀ e ∈ test_res, (int_text e.1).isSome
  /-- All cells can be computed. -/
  cells : ∀ e ∈ test_res, ∀ c ∈ e.2, ∀ size, int_text e.1 = some size →
    (cell c.1 c.2 size).isSome
  /-- No counter takes the place of the size. -/
  sizes : ∀ e ∈ test_res, ∀ c ∈ e.2, c.1 = "Size".toList → ∀ size, int_text e.1 = some size →
    cell c.1 c.2 size = some (.num size)
  /-- The last label has all counters. -/
  columns : ∀ e ∈ test_res, ∀ c ∈ e.2, c.1 = "Size".toList ∨
    ∀ l, test_res.getLast? = some l → c.1 ∈ l.2.map Prod.fst

/-! ### One Row -/

section
variable {tname : Text} {tdict : List (Text × List ℤ)} {d : List (Text × Cell)}

/-- The names of the values are those of the dictionary. -/
theorem keys_tagged (tdict : List (Text × List ℤ)) :
    (tdict.map fun c => (c.1, c)).map Prod.fst = tdict.map Prod.fst := by
  rw [List.map_map]
  rfl

theorem make_row_eq {size : ℤ} (hsize : int_text tname = some size) :
    make_row tname tdict = assignAll (fun c => cell c.1 c.2 size)
      (tdict.map fun c => (c.1, c)) [("Size".toList, .num size)] := by
  unfold make_row
  rw [hsize]
  rfl

theorem make_row_isSome : (make_row tname tdict).isSome ↔
    ∃ size, int_text tname = some size ∧ ∀ c ∈ tdict, (cell c.1 c.2 size).isSome := by
  cases hsize : int_text tname with
  | none =>
    unfold make_row
    rw [hsize]
    simp
  | some size =>
    rw [make_row_eq hsize, assignAll_isSome, List.forall_mem_map]
    simp

/-- What a row has for a counter. -/
theorem lookup_counter (hnodup : (tdict.map Prod.fst).Nodup) {size : ℤ}
    (hsize : int_text tname = some size) (h : make_row tname tdict = some d)
    {c : Text × List ℤ} (hc : c ∈ tdict) : d.lookup c.1 = cell c.1 c.2 size := by
  rw [make_row_eq hsize] at h
  have hmem : (c.1, c) ∈ tdict.map fun c => (c.1, c) :=
    List.mem_map_of_mem (f := fun c => (c.1, c)) hc
  rw [lookup_assignAll ((keys_tagged tdict).symm ▸ hnodup) h,
    lookup_of_mem ((keys_tagged tdict).symm ▸ hnodup) hmem]

theorem lookup_size (hnodup : (tdict.map Prod.fst).Nodup) {size : ℤ}
    (hsize : int_text tname = some size) (h : make_row tname tdict = some d)
    (hother : "Size".toList ∉ tdict.map Prod.fst) : d.lookup "Size".toList = some (.num size) := by
  rw [make_row_eq hsize] at h
  rw [lookup_assignAll ((keys_tagged tdict).symm ▸ hnodup) h,
    lookup_eq_none ((keys_tagged tdict).symm ▸ hother)]
  exact List.lookup_cons_self

/-- The names of a row. -/
theorem mem_keys_row (hnodup : (tdict.map Prod.fst).Nodup) (h : make_row tname tdict = some d)
    (k : Text) : k ∈ d.map Prod.fst ↔ k = "Size".toList ∨ k ∈ tdict.map Prod.fst := by
  obtain ⟨size, hsize, -⟩ := make_row_isSome.mp (by rw [h]; rfl)
  rw [make_row_eq hsize] at h
  rw [keys_assignAll ((keys_tagged tdict).symm ▸ hnodup) h, keys_tagged, List.mem_append,
    mem_newKeys]
  simp only [List.map_cons, List.map_nil, List.mem_singleton]
  tauto

theorem row_keys_nodup (hnodup : (tdict.map Prod.fst).Nodup) (h : make_row tname tdict = some d) :
    (d.map Prod.fst).Nodup := by
  obtain ⟨size, hsize, -⟩ := make_row_isSome.mp (by rw [h]; rfl)
  rw [make_row_eq hsize] at h
  rw [keys_assignAll ((keys_tagged tdict).symm ▸ hnodup) h, keys_tagged, List.nodup_append]
  refine ⟨List.nodup_singleton _, hnodup.filter _, ?_⟩
  intro a ha b hb hab
  exact (mem_newKeys.mp hb).2 (hab ▸ ha)

end

/-! ### All Rows -/

section
variable {F : Type} {pd : Pandas F} {test_res : List (Text × List (Text × List ℤ))} {df : F}

/-- **The table**: its rows are those of the labels, cut to the columns of the
    last one. -/
theorem make_table_spec (hpd : Lawful pd) (hnodup : ∀ e ∈ test_res, (e.2.map Prod.fst).Nodup)
    (h : make_table pd test_res = some df) :
    (∃ l d, test_res.getLast? = some l ∧ make_row l.1 l.2 = some d ∧
      pd.columns df = d.map Prod.fst) ∧
    List.Forall₂ (fun e row => ∃ d, make_row e.1 e.2 = some d ∧
      ∀ k ∈ pd.columns df, row k = (d.lookup k).getD .nan) test_res (pd.rows df) := by
  obtain ⟨dictlist, hdicts, h⟩ := Option.bind_eq_some_iff.mp h
  obtain ⟨tmpdict, hlast, h⟩ := Option.bind_eq_some_iff.mp h
  obtain rfl := Option.some.inj h
  have hall := forall₂_of_mapM hdicts
  have hne : test_res ≠ [] := by
    rintro rfl
    cases hall
    simp at hlast
  obtain ⟨d, hd, hrow⟩ := getLast_right hall hne
  obtain rfl := Option.some.inj (hlast.symm.trans hd)
  have hcolumns : pd.columns (pd.DataFrame dictlist (tmpdict.map Prod.fst)) =
      tmpdict.map Prod.fst :=
    hpd.columns_DataFrame _ _ (row_keys_nodup (hnodup _ (List.getLast_mem hne)) hrow)
  refine ⟨⟨_, tmpdict, List.getLast?_eq_some_getLast hne, hrow, hcolumns⟩, ?_⟩
  rw [hcolumns]
  exact forall₂_through hall (hpd.rows_DataFrame dictlist (tmpdict.map Prod.fst))

theorem make_table_isSome (hne : test_res ≠ [])
    (hrows : ∀ e ∈ test_res, (make_row e.1 e.2).isSome) : (make_table pd test_res).isSome := by
  obtain ⟨dictlist, hdicts, hall⟩ := mapM_forall₂ hrows
  obtain ⟨tmpdict, hlast, -⟩ := getLast_right hall hne
  unfold make_table
  rw [hdicts, Option.bind_eq_bind, Option.bind_some, hlast]
  rfl

/-- The columns are the size and the counters of the last label. -/
theorem mem_columns (hpd : Lawful pd) (hnodup : ∀ e ∈ test_res, (e.2.map Prod.fst).Nodup)
    (h : make_table pd test_res = some df) (k : Text) : k ∈ pd.columns df ↔
      k = "Size".toList ∨ ∃ l, test_res.getLast? = some l ∧ k ∈ l.2.map Prod.fst := by
  obtain ⟨⟨l, d, hlast, hrow, hcolumns⟩, -⟩ := make_table_spec hpd hnodup h
  have hmem : l ∈ test_res := List.mem_of_getLast? hlast
  rw [hcolumns, mem_keys_row (hnodup l hmem) hrow, hlast]
  simp

theorem RowForEach.sized (hpd : Lawful pd) (hnodup : ∀ e ∈ test_res, (e.2.map Prod.fst).Nodup)
    (h : RowForEach pd test_res) : Sized test_res := by
  obtain ⟨df, hmake, hrows⟩ := h
  obtain ⟨⟨l, d, hlast, -, -⟩, -⟩ := make_table_spec hpd hnodup hmake
  have hrow := exists_right hrows
  constructor
  case ne =>
    rintro rfl
    simp at hlast
  case labels =>
    intro e he
    obtain ⟨row, -, ⟨size, hsize, -⟩, -⟩ := hrow e he
    rw [hsize]
    rfl
  case cells =>
    intro e he c hc size hsize
    obtain ⟨row, -, -, hcells⟩ := hrow e he
    rw [(hcells c hc size hsize).2]
    rfl
  case sizes =>
    intro e he c hc hname size hsize
    obtain ⟨row, -, ⟨size', hsize', hcell⟩, hcells⟩ := hrow e he
    obtain rfl := Option.some.inj (hsize.symm.trans hsize')
    rw [(hcells c hc size hsize).2, hname, hcell]
  case columns =>
    intro e he c hc
    obtain ⟨row, -, ⟨size, hsize, -⟩, hcells⟩ := hrow e he
    rcases (mem_columns hpd hnodup hmake c.1).mp (hcells c hc size hsize).1 with hname | hmem
    · exact .inl hname
    · obtain ⟨l', hlast', hmem⟩ := hmem
      right
      intro l'' hlast''
      obtain rfl := Option.some.inj (hlast'.symm.trans hlast'')
      exact hmem

theorem Sized.rowForEach (hpd : Lawful pd) (hnodup : ∀ e ∈ test_res, (e.2.map Prod.fst).Nodup)
    (h : Sized test_res) : RowForEach pd test_res := by
  have hsome : ∀ e ∈ test_res, (make_row e.1 e.2).isSome := by
    intro e he
    obtain ⟨size, hsize⟩ := Option.isSome_iff_exists.mp (h.labels e he)
    exact make_row_isSome.mpr ⟨size, hsize, fun c hc => h.cells e he c hc size hsize⟩
  have hmade : (make_table pd test_res).isSome := make_table_isSome h.ne hsome
  obtain ⟨df, hmake⟩ := Option.isSome_iff_exists.mp hmade
  obtain ⟨-, hrows⟩ := make_table_spec hpd hnodup hmake
  refine ⟨df, hmake, ?_⟩
  have hcolumn := mem_columns hpd hnodup hmake
  refine ((List.forall₂_and_left _ _).mpr ⟨fun e he => he, hrows⟩).imp ?_
  rintro e row ⟨he, d, hd, hcells⟩
  constructor
  case size =>
    obtain ⟨size, hsize⟩ := Option.isSome_iff_exists.mp (h.labels e he)
    refine ⟨size, hsize, ?_⟩
    rw [hcells _ ((hcolumn _).mpr (.inl rfl))]
    by_cases hmem : "Size".toList ∈ e.2.map Prod.fst
    · -- a counter of this name has the size for its mean
      obtain ⟨c, hc, hname⟩ := List.mem_map.mp hmem
      rw [← hname, lookup_counter (hnodup e he) hsize hd hc, h.sizes e he c hc hname size hsize]
      rfl
    · rw [lookup_size (hnodup e he) hsize hd hmem]
      rfl
  case cells =>
    intro c hc size hsize
    have hin : c.1 ∈ pd.columns df := by
      rw [hcolumn]
      rcases h.columns e he c hc with hname | hlast
      · exact .inl hname
      · exact .inr ⟨_, List.getLast?_eq_some_getLast h.ne, hlast _
          (List.getLast?_eq_some_getLast h.ne)⟩
    obtain ⟨x, hx⟩ := Option.isSome_iff_exists.mp (h.cells e he c hc size hsize)
    refine ⟨hin, ?_⟩
    rw [hcells _ hin, lookup_counter (hnodup e he) hsize hd hc, hx]
    rfl

/-- **Nothing is missing** exactly if every label is a number, every cell can
    be computed, and the last label has all counters. -/
theorem row_for_each_iff (hpd : Lawful pd) (hnodup : ∀ e ∈ test_res, (e.2.map Prod.fst).Nodup) :
    RowForEach pd test_res ↔ Sized test_res :=
  ⟨RowForEach.sized hpd hnodup, Sized.rowForEach hpd hnodup⟩

end

/-! ### Small Values -/

/-- Values as they are read from the log give a cell, for any positive size of
    64 bits. -/
theorem cell_isSome {cname : Text} {cvalues : List ℤ} {size : ℕ} (hne : cvalues ≠ [])
    (hsmall : ∀ v ∈ cvalues, |(v : ℚ)| ≤ 10 ^ 201) (hpos : 0 < size) (hsize : size < 2 ^ 64) :
    (cell cname cvalues size).isSome := by
  have hmean : |statistics_mean cvalues| < 2 ^ 1024 :=
    (abs_statistics_mean_le (by positivity) hsmall).trans_lt twice_read_fits
  have hcast : ((size : ℤ) : ℚ) = size := Int.cast_natCast size
  have hone : (1 : ℚ) ≤ size := by exact_mod_cast hpos
  have hfloat : |roundDouble ((size : ℤ) : ℚ)| < 2 ^ 1024 := by
    have hlt : (size : ℚ) < 2 ^ 64 := by exact_mod_cast hsize
    have hround := abs_roundDouble_le (size : ℚ)
    rw [Nat.abs_cast] at hround
    rw [hcast]
    calc |roundDouble (size : ℚ)| ≤ 2 ^ 65 := by linarith
      _ < 2 ^ 1024 := pow_lt_pow_right₀ (by norm_num) (by norm_num)
  have hintegral : (cvalues.length : ℤ) ∣ cvalues.sum →
      |integral_mean_per cvalues size| < 2 ^ 1024 := by
    intro hdvd
    have hlen : ((cvalues.length : ℤ) : ℚ) ≠ 0 := by
      simpa using hne
    have hexact := abs_mean_le (by positivity) hsmall
    unfold integral_mean_per
    rw [Int.cast_div hdvd hlen, Int.cast_natCast, hcast]
    have hround := abs_roundDouble_le ((cvalues.sum : ℚ) / cvalues.length / size)
    have hper : |(cvalues.sum : ℚ) / cvalues.length / size| ≤ 10 ^ 201 := by
      rw [abs_div, Nat.abs_cast]
      exact (div_le_self (abs_nonneg _) hone).trans hexact
    exact (hround.trans (by linarith)).trans_lt twice_read_fits
  have hzero : (size : ℤ) ≠ 0 := by exact_mod_cast hpos.ne'
  unfold cell
  rw [if_neg hne]
  by_cases hcycles : isCycles cname
  · rw [if_pos hcycles, if_neg hzero]
    by_cases hdvd : (cvalues.length : ℤ) ∣ cvalues.sum
    · rw [if_pos hdvd, if_pos (hintegral hdvd)]
      rfl
    · rw [if_neg hdvd, if_pos ⟨hmean, hfloat⟩]
      rfl
  · rw [if_neg hcycles, if_pos hmean]
    rfl

/-! ### Two Labels -/

/-- Cycles, and a counter of misses, for two sizes. -/
def twoSizes : List (Text × List (Text × List ℤ)) :=
  [("64".toList, [("Cycles".toList, [640, 641]), ("PAPI_L1_DCM".toList, [7])]),
    ("32".toList, [("Cycles".toList, [320]), ("PAPI_L1_DCM".toList, [5, 6])])]

/-- Nothing is missing in their table. -/
theorem row_for_each_two_sizes : RowForEach plainPandas twoSizes := by
  have hlabels : ∀ e ∈ twoSizes, int_text e.1 = some ((64 : ℕ) : ℤ) ∨
      int_text e.1 = some ((32 : ℕ) : ℤ) := by decide +kernel
  have hvalues : ∀ e ∈ twoSizes, ∀ c ∈ e.2, c.2 ≠ [] ∧ ∀ v ∈ c.2, v.natAbs ≤ 700 := by decide
  have hnames : ∀ e ∈ twoSizes, ∀ c ∈ e.2, c.1 ≠ "Size".toList ∧
      ∀ l ∈ twoSizes.getLast?, c.1 ∈ l.2.map Prod.fst := by decide
  apply (row_for_each_iff plainPandas_lawful (by decide)).mpr
  constructor
  case ne => decide
  case labels =>
    intro e he
    rcases hlabels e he with h | h <;> rw [h] <;> rfl
  case cells =>
    intro e he c hc size hsize
    obtain ⟨hne, hsmall⟩ := hvalues e he c hc
    have hbound : ∀ v ∈ c.2, |(v : ℚ)| ≤ 10 ^ 201 := by
      intro v hv
      have hle : ((v.natAbs : ℕ) : ℚ) ≤ 700 := by exact_mod_cast hsmall v hv
      rw [Nat.cast_natAbs, Int.cast_abs] at hle
      exact hle.trans (by norm_num)
    rcases hlabels e he with h | h
    · obtain rfl := Option.some.inj (h.symm.trans hsize)
      exact cell_isSome hne hbound (by decide) (by decide)
    · obtain rfl := Option.some.inj (h.symm.trans hsize)
      exact cell_isSome hne hbound (by decide) (by decide)
  case sizes => exact fun e he c hc hname => absurd hname (hnames e he c hc).1
  case columns => exact fun e he c hc => .inr fun l hl => (hnames e he c hc).2 l hl

end AParser

end Pcnt
