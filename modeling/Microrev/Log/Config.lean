import Microrev.Lib.Stream
import Microrev.Log.RunTest

/-! # The Configuration (`parse_cfg`)

    The eight lines of `arch.cfg` are read into one string, and no read is
    checked. If the file ends early, behind a newline, the next conversion
    finds no digit and throws. If it ends without a newline, its last line is
    used for all variables that are left.
-/

namespace Pcnt

open Text IStream

/-! ### Parsing -/

/-- The variables that are configured. -/
structure ArchConfig extends CoreConfig where
  shared_data_size : BitVec 64
  cache_size : BitVec 64
  cache_line_size : BitVec 64

/-- The assignments; the sizes are converted to `uint64_t`. -/
def assign (shared_data_size cache_size cache_line_size core_src core_socket0 core_socket1
    core_global0 core_global1 : ℤ) : ArchConfig where
  shared_data_size := BitVec.ofInt 64 shared_data_size
  cache_size := BitVec.ofInt 64 cache_size
  cache_line_size := BitVec.ofInt 64 cache_line_size
  core_src := core_src
  core_socket0 := core_socket0
  core_socket1 := core_socket1
  core_global0 := core_global0
  core_global1 := core_global1

/-- `none` if it exits or throws. There may be no file. -/
def parse_cfg (file : Option Text) : Option ArchConfig := do
  let text ← file
  let infile := ofText text
  let (infile, rline) := infile.getline []
  let shared_data_size ← stoll rline
  let (infile, rline) := infile.getline rline
  let cache_size ← stoll rline
  let (infile, rline) := infile.getline rline
  let cache_line_size ← stoi rline
  let (infile, rline) := infile.getline rline
  let core_src ← stoi rline
  let (infile, rline) := infile.getline rline
  let core_socket0 ← stoi rline
  let (infile, rline) := infile.getline rline
  let core_socket1 ← stoi rline
  let (infile, rline) := infile.getline rline
  let core_global0 ← stoi rline
  let (_, rline) := infile.getline rline
  let core_global1 ← stoi rline
  some (assign shared_data_size cache_size cache_line_size core_src core_socket0 core_socket1
    core_global0 core_global1)

/-- The values of the variables, in the order of the lines. -/
def ArchConfig.values (cfg : ArchConfig) : List ℤ :=
  [cfg.shared_data_size.toNat, cfg.cache_size.toNat, cfg.cache_line_size.toNat, cfg.core_src,
    cfg.core_socket0, cfg.core_socket1, cfg.core_global0, cfg.core_global1]

/-- Every variable is the leading integer of its line. -/
structure ReadFrom (cfg : ArchConfig) (text : Text) : Prop where
  eight : 8 ≤ (lines text).length
  values : cfg.values.map some = ((lines text).take 8).map fun l => leadingInt (chomp l)

/-- Only complete texts are accepted, and all of their lines are used. -/
structure NeverTruncated (text : Text) : Prop where
  accepted : ∀ cfg, parse_cfg (some text) = some cfg → ReadFrom cfg text
  rejected : (lines text).length < 8 → parse_cfg (some text) = none

/-! ### One Line after the Other -/

/-- How the lines are converted. -/
def conversions : List (Text → Option ℤ) := [stoll, stoll, stoi, stoi, stoi, stoi, stoi, stoi]

def ofValues : List ℤ → Option ArchConfig
  | [shared_data_size, cache_size, cache_line_size, core_src, core_socket0, core_socket1,
      core_global0, core_global1] =>
    some (assign shared_data_size cache_size cache_line_size core_src core_socket0 core_socket1
      core_global0 core_global1)
  | _ => none

theorem parse_cfg_eq (text : Text) :
    parse_cfg (some text) = (convert conversions (ofText text) []).bind ofValues := by
  simp only [parse_cfg, conversions, convert, Option.bind_eq_bind, Option.bind_assoc,
    Option.bind_some]
  rfl

theorem stoll_of_conversion {f : Text → Option ℤ} (hf : f ∈ conversions) {t : Text} {v : ℤ}
    (h : f t = some v) : stoll t = some v := by
  have hcases : f = stoll ∨ f = stoi := by simpa [conversions] using hf
  rcases hcases with rfl | rfl
  · exact h
  · exact stoll_of_stoi h

/-- The variables have the values that were read, unless a size is negative. -/
theorem values_ofValues {vs : List ℤ} {cfg : ArchConfig} (h : ofValues vs = some cfg)
    (hrange : ∀ v ∈ vs, -2 ^ 63 ≤ v ∧ v < 2 ^ 63) :
    cfg.values = vs ↔ ∀ v ∈ vs.take 3, 0 ≤ v := by
  have hword : ∀ v : ℤ, -2 ^ 63 ≤ v ∧ v < 2 ^ 63 →
      (((BitVec.ofInt 64 v).toNat : ℤ) = v ↔ 0 ≤ v) := by
    intro v hv
    rw [BitVec.toNat_ofInt]
    omega
  unfold ofValues at h
  split at h
  · obtain rfl := Option.some.inj h
    simp only [List.forall_mem_cons] at hrange
    obtain ⟨ha, hb, hc, -⟩ := hrange
    simp only [ArchConfig.values, assign, List.cons.injEq, and_true, hword _ ha, hword _ hb,
      hword _ hc, List.take_succ_cons, List.take_zero, List.forall_mem_cons, List.not_mem_nil,
      false_imp_iff, implies_true]
  · simp at h

/-! ### What Is Accepted -/

/-- All eight lines are there and can be converted. -/
structure Readable8 (text : Text) : Prop where
  eight : 8 ≤ (lines text).length
  lines : ∀ p ∈ conversions.zip (lines text), (p.1 (chomp p.2)).isSome

/-- Lines are missing, but those before can be converted, and so can what
    stands behind the last newline. -/
structure ReadableShort (text : Text) : Prop where
  few : (lines text).length < 8
  lines : ∀ p ∈ conversions.zip (lines text), (p.1 (chomp p.2)).isSome
  last : (stoi (leftover text)).isSome

theorem stoi_mem_drop {k : Nat} (h : k < 8) : stoi ∈ conversions.drop k := by
  have hlast : stoi ∈ (conversions.drop k).drop (7 - k) := by
    rw [List.drop_drop, Nat.add_sub_cancel' (Nat.le_of_lt_succ h)]
    simp [conversions]
  exact List.mem_of_mem_drop hlast

theorem convert_eight {text : Text} {vs : List ℤ}
    (h : convert conversions (ofText text) [] = some vs) : vs.length = 8 := by
  have hvalues := congrArg List.length (convert_stoll (fun _ hf _ _ => stoll_of_conversion hf) h)
  rw [List.length_map, List.length_map, length_reads] at hvalues
  exact hvalues

theorem parse_cfg_eq_some {text : Text} {cfg : ArchConfig} :
    parse_cfg (some text) = some cfg ↔
      ∃ vs, convert conversions (ofText text) [] = some vs ∧ ofValues vs = some cfg := by
  rw [parse_cfg_eq, Option.bind_eq_some_iff]

/-- **What is accepted**: complete texts, and some that are not. -/
theorem parse_cfg_accepts (text : Text) :
    (∃ cfg, parse_cfg (some text) = some cfg) ↔ Readable8 text ∨ ReadableShort text := by
  have hread : (∃ cfg, parse_cfg (some text) = some cfg) ↔
      (convert conversions (ofText text) []).isSome := by
    rw [Option.isSome_iff_exists]
    constructor
    · rintro ⟨cfg, hcfg⟩
      obtain ⟨vs, hvs, -⟩ := parse_cfg_eq_some.mp hcfg
      exact ⟨vs, hvs⟩
    · rintro ⟨vs, hvs⟩
      match vs, convert_eight hvs with
      | [_, _, _, _, _, _, _, _], _ => exact ⟨_, parse_cfg_eq_some.mpr ⟨_, hvs, rfl⟩⟩
  rw [hread, convert_ofText_isSome]
  constructor
  · intro ⟨hlines, hrest⟩
    by_cases h : 8 ≤ (lines text).length
    · exact .inl ⟨h, hlines⟩
    · have hfew : (lines text).length < 8 := Nat.lt_of_not_le h
      exact .inr ⟨hfew, hlines, hrest stoi (stoi_mem_drop hfew)⟩
  · rintro (h | h)
    · refine ⟨h.lines, ?_⟩
      rw [List.drop_of_length_le h.eight]
      simp
    · refine ⟨h.lines, ?_⟩
      obtain ⟨v, hv⟩ := Option.isSome_iff_exists.mp h.last
      intro f hf
      have hcases : f = stoll ∨ f = stoi := by
        simpa [conversions] using List.mem_of_mem_drop hf
      rcases hcases with rfl | rfl
      · rw [stoll_of_stoi hv]
        rfl
      · exact h.last

/-- The values that are read from a complete text. -/
theorem values_eight {text : Text} (height : 8 ≤ (lines text).length) {vs : List ℤ}
    (h : convert conversions (ofText text) [] = some vs) :
    vs.map some = ((lines text).take 8).map (fun l => leadingInt (chomp l)) ∧
      ∀ v ∈ vs, -2 ^ 63 ≤ v ∧ v < 2 ^ 63 := by
  have hlen : conversions.length ≤ ((lines text).map chomp).length := by
    simpa [conversions] using height
  have hstoll := convert_stoll (fun _ hf _ _ => stoll_of_conversion hf) h
  rw [reads_ofText, List.take_append_of_le_length hlen, ← List.map_take, List.map_map] at hstoll
  constructor
  · rw [hstoll]
    apply List.map_congr_left
    intro l hl
    have hmem : stoll (chomp l) ∈ vs.map some := hstoll ▸ List.mem_map_of_mem hl
    obtain ⟨v, -, hv⟩ := List.mem_map.mp hmem
    exact (leadingInt_of_stoll (by rw [← hv]; rfl)).symm
  · intro v hv
    have hmem := List.mem_map_of_mem (f := some) hv
    rw [hstoll] at hmem
    obtain ⟨l, -, hl⟩ := List.mem_map.mp hmem
    exact (stoll_eq_some.mp hl).2

/-- The sizes are not negative. -/
def SizesNonneg (text : Text) : Prop :=
  ∀ l ∈ (lines text).take 3, ∀ v, leadingInt (chomp l) = some v → 0 ≤ v

/-- An accepted complete text is read properly exactly if no size is negative. -/
theorem readFrom_iff {text : Text} (height : 8 ≤ (lines text).length) {cfg : ArchConfig}
    (h : parse_cfg (some text) = some cfg) : ReadFrom cfg text ↔ SizesNonneg text := by
  obtain ⟨vs, hvs, hcfg⟩ := parse_cfg_eq_some.mp h
  obtain ⟨hvalues, hrange⟩ := values_eight height hvs
  have hsizes : (vs.take 3).map some = ((lines text).take 3).map fun l => leadingInt (chomp l) := by
    have htake := congrArg (List.take 3) hvalues
    rwa [← List.map_take, ← List.map_take, List.take_take] at htake
  have hnonneg : SizesNonneg text ↔ ∀ v ∈ vs.take 3, 0 ≤ v := by
    constructor
    · intro hs v hv
      have hmem := List.mem_map_of_mem (f := some) hv
      rw [hsizes] at hmem
      obtain ⟨l, hl, hlv⟩ := List.mem_map.mp hmem
      exact hs l hl v hlv
    · intro hs l hl v hlv
      have hmem : leadingInt (chomp l) ∈ (vs.take 3).map some := hsizes ▸ List.mem_map_of_mem hl
      rw [hlv] at hmem
      obtain ⟨u, hu, huv⟩ := List.mem_map.mp hmem
      obtain rfl := Option.some.inj huv
      exact hs u hu
  rw [hnonneg, ← values_ofValues hcfg hrange]
  constructor
  · intro hread
    have hsame := hread.values.trans hvalues.symm
    exact List.map_injective_iff.mpr (Option.some_injective ℤ) hsame
  · intro hsame
    exact ⟨height, hsame ▸ hvalues⟩

/-- **Truncated texts are accepted** if what stands behind the last newline
    can be read for all missing lines; all other texts are handled properly,
    except for negative sizes. -/
theorem never_truncated_iff (text : Text) :
    NeverTruncated text ↔ ¬ ReadableShort text ∧ (Readable8 text → SizesNonneg text) := by
  constructor
  · intro h
    constructor
    · intro hshort
      obtain ⟨cfg, hcfg⟩ := (parse_cfg_accepts text).mpr (.inr hshort)
      rw [h.rejected hshort.few] at hcfg
      contradiction
    · intro hread
      obtain ⟨cfg, hcfg⟩ := (parse_cfg_accepts text).mpr (.inl hread)
      exact (readFrom_iff hread.eight hcfg).mp (h.accepted cfg hcfg)
  · rintro ⟨hshort, hsizes⟩
    have hread : ∀ cfg, parse_cfg (some text) = some cfg → Readable8 text := fun cfg hcfg =>
      ((parse_cfg_accepts text).mp ⟨cfg, hcfg⟩).resolve_right hshort
    constructor
    · intro cfg hcfg
      have h8 := hread cfg hcfg
      exact (readFrom_iff h8.eight hcfg).mpr (hsizes h8)
    · intro hfew
      by_contra hsome
      obtain ⟨cfg, hcfg⟩ := Option.ne_none_iff_exists'.mp hsome
      exact absurd (hread cfg hcfg).eight (Nat.not_le_of_lt hfew)

/-- `arch.cfg` without its last two lines, and without a newline at its end. -/
def sixLines : Text := "4096\n4096\n64\n1\n2\n3".toList

/-- It is accepted, with the same core for three roles. -/
theorem six_lines_accepted : (parse_cfg (some sixLines)).map ArchConfig.values =
    some [4096, 4096, 64, 1, 2, 3, 3, 3] ∧ ¬ NeverTruncated sixLines := by
  have hrun : (parse_cfg (some sixLines)).map ArchConfig.values =
      some [4096, 4096, 64, 1, 2, 3, 3, 3] := by decide +kernel
  refine ⟨hrun, ?_⟩
  intro h
  rw [h.rejected (by decide +kernel)] at hrun
  contradiction

end Pcnt
