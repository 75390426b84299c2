import Microrev.Bench.Coverage

/-! # Two Line Sizes

    The setup functions are called with their default stride of 64 bytes,
    the bodies with the `cache_line_size` of the configuration. The one
    decides how many nodes and flags there are, the other how many of them
    are used.
-/

namespace Pcnt

open Interleaving Loop

/-! ### What Is Used -/

/-- The loop of a body, as its wrapper calls it. -/
def Body.called (b : Body) (g : Shared) : List Instr :=
  code b.round (b.bound g g.cache_line_size)

/-- How many nodes the pointers run round, from the head. -/
noncomputable def ringSize (g : Shared) : Nat :=
  (Set.range fun k => g.mem.load^[k] g.shared_data).ncard

/-- All bodies that chase pointers make one step for every node, those that
    use flags only if the flags are there. -/
def StepsAgree (g : Shared) : Prop :=
  ∀ b ∈ [Body.reader_, .writer_, .producer_, .consumer_],
    advances (b.called g) = ringSize g ∧
    (b.HasFlags g g.cache_line_size → ∃ f, Executed g b g.cache_line_size f) ∧
      ∀ f, Executed g b g.cache_line_size f → (loads f.trace).length = ringSize g

/-- `producer_` and `consumer_` access flags only that there are. -/
def FlagsInside (g : Shared) : Prop :=
  ∀ b ∈ [Body.producer_, .consumer_], b.HasFlags g g.cache_line_size

section
variable {addr size stride : BitVec 64} {path : List Nat} {g g' : Shared}

theorem RingAt.ringSize_eq (h : RingAt addr size stride path g) :
    ringSize g = nodeCount size stride := by
  unfold ringSize
  rw [h.data, h.ring.circuit.ncard_range h.ring.start, List.length_map, h.path_length]

theorem flags_inside_iff_le : FlagsInside g ↔ g.line_cnt g.cache_line_size ≤ g.wrflag.length := by
  constructor
  · intro h
    exact (Body.hasFlags_iff g (b := .producer_) (by decide) _).mp (h .producer_ (by decide))
  · exact fun h b hb => (b.hasFlags_iff g hb _).mpr h

theorem RingAt.steps_agree_iff (h : RingAt addr size stride path g) (hroom : Room size stride) :
    StepsAgree g ↔ g.line_cnt g.cache_line_size = nodeCount size stride := by
  have hsteps : ∀ b ≠ Body.flusher_, ∀ f, Executed g b g.cache_line_size f →
      (loads f.trace).length = g.line_cnt g.cache_line_size := by
    intro b hb f hf
    rw [hf.trace hroom h, b.loads_acts g hb, List.length_map, List.length_range]
  have hcalled : ∀ b ≠ Body.flusher_, advances (b.called g) = g.line_cnt g.cache_line_size := by
    intro b hb
    rw [Body.called, b.bound_eq g hb, advances_code (b.advances_round hb)]
  unfold StepsAgree
  rw [h.ringSize_eq]
  constructor
  · intro hall
    rw [← hcalled .reader_ (by decide)]
    exact (hall .reader_ (by decide)).1
  · intro heq b hb
    have hne : b ≠ .flusher_ := by
      rintro rfl
      simp at hb
    refine ⟨(hcalled b hne).trans heq, exists_executed, ?_⟩
    intro f hf
    rw [hsteps b hne f hf, heq]

end

/-! ### When They Agree -/

section
variable {draws : Draws} {fuel : Nat} {addr : BitVec 64} {g g' : Shared}

theorem SetUp.line_size (h : SetUp draws fuel addr g.shared_data_size 64 g g') :
    g'.cache_line_size = g.cache_line_size := by
  rcases h with h | h
  · obtain ⟨r, -, rfl⟩ := Option.map_eq_some_iff.mp h
    rfl
  · unfold Pcnt.pr_co_setup at h
    split at h
    · simp at h
    · obtain ⟨r, -, rfl⟩ := Option.map_eq_some_iff.mp h
      rfl

/-- Dividing by more gives less. -/
theorem div_le_div_iff_of_dvd {s c d : Nat} (hs : 0 < s) (hc : 0 < c) (hcs : c ∣ s) (hds : d ∣ s)
    (hd : 0 < d) : s / c ≤ s / d ↔ d ≤ c := by
  rw [Nat.le_div_iff_mul_le hd]
  obtain ⟨m, rfl⟩ := hcs
  rw [Nat.mul_div_cancel_left _ hc, Nat.mul_comm c m]
  exact Nat.mul_le_mul_left_iff (Nat.pos_of_mul_pos_left hs)

theorem SetUp.line_cnt_eq (h : SetUp draws fuel addr g.shared_data_size 64 g g') :
    g'.line_cnt g'.cache_line_size = g.shared_data_size.toNat / g.cache_line_size.toNat := by
  unfold Shared.line_cnt
  rw [h.line_size, h.data_size, BitVec.toNat_udiv]

/-- **Line sizes**: the numbers of steps and nodes agree, and the flags
    suffice, exactly if the configured line size is the default stride. -/
theorem lines_agree_iff (hsize : 0 < g.shared_data_size.toNat)
    (hline : 0 < g.cache_line_size.toNat)
    (hwhole : g.cache_line_size.toNat ∣ g.shared_data_size.toNat)
    (hdefault : 64 ∣ g.shared_data_size.toNat)
    (hsetup : SetUp draws fuel addr g.shared_data_size 64 g g') :
    (StepsAgree g' ∧
      (pr_co_setup draws fuel addr g.shared_data_size 64 g = some g' → FlagsInside g')) ↔
    g.cache_line_size = 64 := by
  have hroom : Room g.shared_data_size 64 := .of_sixteen hsize (by decide) hdefault
  obtain ⟨path, hring⟩ := hsetup.ringAt hroom
  have hcount := hroom.count_eq
  rw [hring.steps_agree_iff hroom, hsetup.line_cnt_eq, hcount]
  constructor
  · rintro ⟨heq, -⟩
    have hle := (div_le_div_iff_of_dvd hsize hline hwhole hdefault (by decide)).mp heq.le
    have hge := (div_le_div_iff_of_dvd hsize (by decide) hdefault hwhole hline).mp heq.ge
    exact BitVec.eq_of_toNat_eq (Nat.le_antisymm hge hle)
  · intro hsame
    refine ⟨by rw [hsame], ?_⟩
    intro hflags
    rw [flags_inside_iff_le, hsetup.line_cnt_eq, (pr_co_setup_flags hflags).1,
      List.length_replicate, BitVec.toNat_udiv, hsame]

/-- The flags alone suffice for lines of 64 bytes or more. -/
theorem flags_inside_iff (hsize : 0 < g.shared_data_size.toNat)
    (hline : 0 < g.cache_line_size.toNat)
    (hwhole : g.cache_line_size.toNat ∣ g.shared_data_size.toNat)
    (hdefault : 64 ∣ g.shared_data_size.toNat)
    (hsetup : pr_co_setup draws fuel addr g.shared_data_size 64 g = some g') :
    FlagsInside g' ↔ 64 ≤ g.cache_line_size.toNat := by
  rw [flags_inside_iff_le, SetUp.line_cnt_eq (.pr_co_setup hsetup), (pr_co_setup_flags hsetup).1,
    List.length_replicate, BitVec.toNat_udiv]
  exact div_le_div_iff_of_dvd hsize hline hwhole hdefault (by decide)

end

/-- Four lines of 64 bytes. -/
theorem lines_agree_four_lines :
    ∃ g, pr_co_setup (fun _ _ => 0) 300 4096 256 64 fourLines = some g ∧ StepsAgree g ∧
      FlagsInside g := by
  obtain ⟨g, hg, -⟩ := pr_co_setup_four_lines
  have hset : pr_co_setup (fun _ _ => 0) 300 4096 fourLines.shared_data_size 64 fourLines =
    some g := hg
  obtain ⟨hsteps, hflags⟩ := (lines_agree_iff (by decide) (by decide) (by decide) (by decide)
    (.pr_co_setup hset)).mpr rfl
  exact ⟨g, hg, hsteps, hflags hset⟩

/-- The same 64 bytes, configured as lines of 32. -/
def twoHalves : Shared := { oneLine with cache_line_size := 32 }

/-- Two steps for one node, and two flags are used of one. -/
theorem lines_disagree_two_halves :
    ∃ g, pr_co_setup (fun _ _ => 0) 65 4096 64 64 twoHalves = some g ∧
      ¬ StepsAgree g ∧ ¬ FlagsInside g := by
  have hroom : Room 64 64 := .of_sixteen (by decide) (by decide) (by decide)
  obtain ⟨mem, path, hsetup, -⟩ := pr_co_setup_spec (fun _ _ => 0) (hroom.fits (by decide)) 4096
    twoHalves (show _ < 65 by decide) (by decide)
  have hset : SetUp (fun _ _ => 0) 65 4096 twoHalves.shared_data_size 64 twoHalves _ :=
    .pr_co_setup hsetup
  obtain ⟨path', hring⟩ := hset.ringAt hroom
  refine ⟨_, hsetup, ?_, ?_⟩
  · rw [hring.steps_agree_iff hroom, hset.line_cnt_eq]
    decide
  · rw [flags_inside_iff_le, hset.line_cnt_eq, (pr_co_setup_flags hsetup).1,
      List.length_replicate]
    decide

end Pcnt
