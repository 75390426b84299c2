import Microrev.Bench.Coverage

/-! # Stores Outside the Array

    `setup` and `pr_co_setup` allocate `size` bytes and store one pointer
    more, behind them. `shared_iter` is left there, so the first payload of
    `producer_` goes behind the array as well. All other stores are to nodes.
    The bytes outside stay as they were exactly when those two words held
    these values before, the second one only if a `producer_` is entered at
    all: where an execution does not find its flags, none comes after it.
-/

namespace Pcnt

open Lts Interleaving Loop

/-- The bytes outside the `size` bytes at `addr` are the same. -/
def SameOutside (addr size : BitVec 64) (mem mem' : Memory) : Prop :=
  ∀ b : BitVec 64, size.toNat ≤ (b - addr).toNat → mem' b = mem b

section
variable {addr size stride : BitVec 64} {path : List Nat} {g₀ : Shared} {mem mem' : Memory}

theorem SameOutside.load (h : SameOutside addr size mem mem') {p : Nat} (hp : size.toNat ≤ p)
    (hfit : p ≤ 2 ^ 64 - 8) :
    mem'.load (addr + BitVec.ofNat 64 p) = mem.load (addr + BitVec.ofNat 64 p) := by
  apply Memory.load_congr
  intro k hk
  apply h
  have haddr := addr.isLt
  simp only [BitVec.toNat_sub, BitVec.toNat_add, BitVec.toNat_ofNat]
  omega

/-- A store that does not show outside. -/
def Harmless (addr size : BitVec 64) (mem : Memory) (p : Nat) (v : BitVec 64) : Prop :=
  p + 8 ≤ size.toNat ∨
    (size.toNat ≤ p ∧ p ≤ 2 ^ 64 - 8 ∧ mem.load (addr + BitVec.ofNat 64 p) = v)

theorem SameOutside.store (h : SameOutside addr size mem mem') {p : Nat} {v : BitVec 64}
    (hv : Harmless addr size mem p v) :
    SameOutside addr size mem (mem'.store (addr + BitVec.ofNat 64 p) v) := by
  rcases hv with hin | ⟨hout, hfit, hload⟩
  · intro b hb
    rw [Memory.store_behind _ _ (by omega), h b hb]
  · rw [Memory.store_eq_self ((h.load hout hfit).trans hload)]
    exact h

/-! ### Harmless Executions -/

/-- All stores of a body are harmless. -/
def AllHarmless (addr size : BitVec 64) (mem : Memory) (trace : List Act) : Prop :=
  ∀ a v, (a, v) ∈ stores trace → ∃ p, a = addr + BitVec.ofNat 64 p ∧ Harmless addr size mem p v

theorem FrameStep.outside {g g' : Shared} {f f' : Frame} {total : List Act}
    (hf : OnWalk g₀ total f) (hall : AllHarmless addr size mem total)
    (hg : SameOutside addr size mem g.mem) (h : FrameStep g f g' f') :
    SameOutside addr size mem g'.mem := by
  cases h with
  | @mark iter rest trace =>
    have hmem : (iter + 8, (1 : BitVec 64)) ∈ stores total := by
      rw [← hf.ahead, stores_append]
      exact List.mem_append_right _ List.mem_cons_self
    obtain ⟨p, hp, hharmless⟩ := hall _ _ hmem
    rw [hp]
    exact hg.store hharmless
  | decrement => exact hg
  | advance => exact hg
  | test_and_set => exact hg
  | clflush => exact hg

/-- Executions one after the other, if those are harmless that are entered:
    all before them have found their flags. -/
theorem sequentially_outside (hroom : Room size stride) (hring : RingAt addr size stride path g₀)
    {cs : List (Body × BitVec 64)} (hg : SameOutside addr size mem g₀.mem)
    (hall : ∀ i c, cs[i]? = some c → (∀ d ∈ cs.take i, d.1.HasFlags g₀ d.2) →
      AllHarmless addr size mem (c.1.acts g₀ c.2))
    {s : Config Shared Execution} (h : Reachable (sequentially g₀ cs) s) :
    SameOutside addr size mem s.shared.mem := by
  induction h with
  | init h0 =>
    rw [h0]
    exact hg
  | @step s s' i hs hst ih =>
    obtain ⟨⟨hi, hact⟩, hturn⟩ := hst
    have hreach := interleaved_of_inTurn hs
    obtain ⟨-, hexecs⟩ := concurrently_ok hroom hring hreach
    have hcalls := concurrently_calls hreach
    have hflags : ∀ d ∈ cs.take i, d.1.HasFlags g₀ d.2 := by
      intro d hd
      rw [← hcalls, ← List.map_take] at hd
      obtain ⟨e, he, rfl⟩ := List.mem_map.mp hd
      exact (hexecs e (List.mem_of_mem_take he)).hasFlags (hturn.finished_of_mem he)
    have hcall := congrArg (·[i]?) hcalls
    simp only [List.getElem?_map, hi, Option.map_some] at hcall
    have hexec := hexecs _ (List.mem_of_getElem? hi)
    cases hact with
    | enter => exact ih
    | access hst => exact hst.outside (hexec.walk _ rfl) (hall i _ hcall.symm hflags) ih

/-- The payload of a node is inside. -/
theorem Room.payload_harmless (h : Room size stride) {k : Nat} (hk : k < nodeCount size stride)
    (v : BitVec 64) : Harmless addr size mem (k * stride.toNat + 8) v := by
  have hlt := h.node_lt hk
  exact .inl (by omega)

theorem Room.payload_behind (h : Room size stride) :
    node addr stride (nodeCount size stride) + 8 = addr + BitVec.ofNat 64 (size.toNat + 8) := by
  rw [payload_eq, h.count_mul]

/-- Only a `mark` stores. -/
theorem stores_acts {g : Shared} {is : List Instr} (h : Instr.mark ∉ is) (iter : BitVec 64) :
    stores (acts g iter is) = [] := by
  induction is generalizing iter with
  | nil => rfl
  | cons i is ih =>
    rw [List.mem_cons, not_or] at h
    cases i with
    | mark => exact absurd rfl h.1
    | advance => exact ih h.2 _
    | clflush _ => exact ih h.2 _
    | decrement _ => exact ih h.2 _
    | test_and_set _ => exact ih h.2 _

theorem Body.mark_notMem {b : Body} (hp : b ≠ .producer_) (hw : b ≠ .writer_) (n : Nat) :
    Instr.mark ∉ code b.round n := by
  unfold code
  rw [List.mem_flatMap]
  rintro ⟨i, -, hi⟩
  cases b with
  | producer_ => exact hp rfl
  | writer_ => exact hw rfl
  | flusher_ | consumer_ | reader_ => simp [Body.round] at hi

/-- Only `producer_` needs something behind the array to be right. -/
theorem RingAt.allHarmless (hring : RingAt addr size stride path g₀) (hroom : Room size stride)
    {b : Body} (c : BitVec 64)
    (h : b = .producer_ → mem.load (addr + BitVec.ofNat 64 (size.toNat + 8)) = 1) :
    AllHarmless addr size mem (b.acts g₀ c) := by
  intro a v hmem
  by_cases hp : b = .producer_
  · subst hp
    rw [stores_producer] at hmem
    obtain ⟨k, -, heq⟩ := List.mem_map.mp hmem
    obtain ⟨rfl, rfl⟩ := Prod.mk.inj heq
    rw [hring.iterate hroom]
    refine ⟨_, payload_eq addr _, ?_⟩
    rcases Nat.lt_or_eq_of_le (hring.stopAt_le hroom k) with hlt | hend
    · exact hroom.payload_harmless hlt 1
    -- the slot behind the last node
    · have hle := hroom.size_le
      rw [hend, hroom.count_mul]
      exact .inr ⟨by omega, by omega, h rfl⟩
  by_cases hw : b = .writer_
  · subst hw
    rw [stores_writer] at hmem
    obtain ⟨k, -, heq⟩ := List.mem_map.mp hmem
    obtain ⟨rfl, rfl⟩ := Prod.mk.inj heq
    rw [← Function.iterate_succ_apply, hring.iterate hroom]
    exact ⟨_, payload_eq addr _, hroom.payload_harmless (hring.stopAt_succ_lt hroom k) 1⟩
  · unfold Body.acts at hmem
    rw [stores_acts (b.mark_notMem hp hw _)] at hmem
    exact absurd hmem List.not_mem_nil

/-! ### What Is Stored Behind the Array -/

variable {draws : Draws} {fuel : Nat} {g g' : Shared}

/-- The pointer to the head. -/
theorem SetUp.outside_iff (h : SetUp draws fuel addr size stride g g') (hroom : Room size stride) :
    SameOutside addr size g.mem g'.mem ↔ g.mem.load (addr + size) = addr := by
  constructor
  · intro hsame
    obtain ⟨path, hring⟩ := h.ringAt hroom
    have hle := hroom.size_le
    have hend : addr + BitVec.ofNat 64 size.toNat = addr + size := by simp
    have hword := hsame.load le_rfl (by omega)
    rw [hend, ← hroom.node_end, hring.ring.behind, hroom.node_end] at hword
    exact hword.symm
  · intro hload b hb
    rw [h.behind hroom hb, Memory.store_eq_self hload]

/-- Alone, an execution ends if it finds its flags. -/
theorem ends_alone (hroom : Room size stride) (hring : RingAt addr size stride path g₀)
    {b : Body} {c : BitVec 64} (hb : b.HasFlags g₀ c) {g : Shared}
    (hg : Kept addr size stride g₀ g) :
    CanReach (alone ExecStep) (g, ⟨b, c, none⟩) fun p =>
      Kept addr size stride g₀ p.1 ∧ p.2.finished := by
  obtain ⟨q, hreach, iter, -, trace, hq⟩ := body_alone ∅ 0 b c
    (World.mk g (fun _ _ => .invalid) [] (fun _ => 0) fun _ => 0) .make (hg.hasFlags hb)
  have hcall : ExecOk g₀ [(b, c)] ⟨b, c, none⟩ := .of_call (c := (b, c)) List.mem_cons_self
  exact ⟨q, hreach, (alone_ok hroom hring hg hcall hreach).1, _, by rw [hq], rfl⟩

/-- One of the executions is of `b`, and all before it find their flags. -/
def Entered (g : Shared) (stride : BitVec 64) (b : Body) (bodies : List Body) : Prop :=
  ∃ pre post, bodies = pre ++ b :: post ∧ ∀ c ∈ pre, c.HasFlags g stride

/-- The first access of `producer_`. -/
theorem producer_starts (hroom : Room size stride) {g : Shared}
    (hg : g.shared_data_size = size) :
    ∃ rest, code Body.producer_.round (Body.producer_.bound g stride) = .mark :: rest := by
  have hbound : Body.producer_.bound g stride = nodeCount size stride := hroom.line_cnt hg
  obtain ⟨d, hd⟩ := Nat.exists_eq_add_one_of_ne_zero hroom.count_pos.ne'
  rw [hbound, hd, code, List.range_succ_eq_map, List.flatMap_cons]
  exact ⟨_, rfl⟩

/-- An execution of `producer_` stores behind the array when it is entered. -/
theorem producer_stores_behind (hring : RingAt addr size stride path g₀) (hroom : Room size stride)
    (hg : g₀.shared_data_size = size) {bodies : List Body}
    (hentered : Entered g₀ stride .producer_ bodies) :
    ∃ s, Reachable (sequentially g₀ (bodies.map fun b => (b, stride))) s ∧
      s.shared.mem.load (addr + BitVec.ofNat 64 (size.toNat + 8)) = 1 := by
  obtain ⟨pre, post, rfl, hflags⟩ := hentered
  generalize hcs : ((pre ++ .producer_ :: post).map fun b => (b, stride)) = cs
  have hthreads : (calls g₀ cs).threads = pre.map (fun b => ⟨b, stride, none⟩) ++
      ⟨.producer_, stride, none⟩ :: post.map (fun b => ⟨b, stride, none⟩) := by
    rw [← hcs, calls, List.map_map, List.map_append]
    rfl
  -- all calls before this one
  have halone : ∀ e ∈ (calls g₀ cs).threads.take pre.length, ∀ g, Kept addr size stride g₀ g →
      CanReach (alone ExecStep) (g, e) fun p =>
        Kept addr size stride g₀ p.1 ∧ p.2.finished := by
    intro e he g hkept
    rw [hthreads, List.take_left' (by simp)] at he
    obtain ⟨b, hb, rfl⟩ := List.mem_map.mp he
    exact ends_alone hroom hring (hflags b hb) hkept
  have hlen : pre.length ≤ (calls g₀ cs).threads.length := by simp [hthreads]
  obtain ⟨s, hs, hturns⟩ := can_take_turns hlen halone (.refl g₀)
  have hreach : Reachable (sequentially g₀ cs) s := (Reachable.init rfl).reaches hs
  have hkept := hturns.shared
  have hthread : s.threads[pre.length]? = some ⟨.producer_, stride, none⟩ := by
    rw [hturns.later _ le_rfl, hthreads]
    simp
  -- its own first store
  obtain ⟨rest, hrest⟩ := producer_starts hroom (hkept.data_size.trans hg)
  have hfirst := (can_enter .producer_ stride s.shared).bind fun q hq => (hrest ▸ hq).mark
  obtain ⟨⟨g, e⟩, hstore, rfl, -⟩ := hfirst
  refine ⟨_, hreach.reaches (reaches_of_alone hthread hturns.turn hstore), ?_⟩
  show (s.shared.mem.store (s.shared.shared_iter + 8) 1).load _ = 1
  rw [hkept.iter, hring.iter, hroom.payload_behind]
  exact Memory.load_store_same _ _ _

/-- From `g'` on, and through any sequence of executions, the bytes outside
    the array are those that `g` had. -/
def StaysInside (addr stride : BitVec 64) (g g' : Shared) (bodies : List Body) : Prop :=
  ∀ s, Reachable (sequentially g' (bodies.map fun b => (b, stride))) s →
    SameOutside addr g.shared_data_size g.mem s.shared.mem

variable {bodies : List Body}

theorem SetUp.stays_inside_iff (hsetup : SetUp draws fuel addr g.shared_data_size stride g g')
    (hroom : Room g.shared_data_size stride) :
    StaysInside addr stride g g' bodies ↔
      g.mem.load (addr + g.shared_data_size) = addr ∧
        (Entered g' stride .producer_ bodies →
          g.mem.load (addr + g.shared_data_size + 8) = 1) := by
  have hle := hroom.size_le
  obtain ⟨path, hring⟩ := hsetup.ringAt hroom
  have hpayload : addr + g.shared_data_size + 8 =
      addr + BitVec.ofNat 64 (g.shared_data_size.toNat + 8) := by
    rw [← hroom.payload_behind, hroom.node_end]
  rw [hpayload, ← hsetup.outside_iff hroom]
  constructor
  · intro hall
    refine ⟨hall _ (.init rfl), ?_⟩
    intro hentered
    obtain ⟨s, hs, hload⟩ := producer_stores_behind hring hroom hsetup.data_size hentered
    rw [← hload]
    exact ((hall s hs).load (by omega) (by omega)).symm
  · rintro ⟨hsame, hword⟩ s hs
    refine sequentially_outside hroom hring hsame ?_ hs
    intro i c hc hflags
    rw [List.getElem?_map] at hc
    obtain ⟨b, hb, rfl⟩ := Option.map_eq_some_iff.mp hc
    refine hring.allHarmless hroom stride ?_
    rintro rfl
    apply hword
    -- the bodies before this one are those that have found their flags
    obtain ⟨hi, hget⟩ := List.getElem?_eq_some_iff.mp hb
    refine ⟨bodies.take i, bodies.drop (i + 1), ?_, ?_⟩
    · rw [← hget, List.getElem_cons_drop, List.take_append_drop]
    · intro d hd
      rw [← List.map_take] at hflags
      exact hflags (d, stride) (List.mem_map_of_mem hd)

/-- `setup` leaves the flags alone. -/
theorem setup_entered_iff
    (h : setup draws fuel addr g.shared_data_size stride g = some g') (b : Body) :
    Entered g' stride b bodies ↔ Entered g stride b bodies := by
  obtain ⟨r, -, rfl⟩ := Option.map_eq_some_iff.mp h
  have hflags : ∀ c : Body, c.HasFlags { g with
      mem := r.1
      shared_data := addr
      shared_iter := r.2 } stride ↔ c.HasFlags g stride := by
    intro c
    cases c <;> rfl
  simp only [Entered, hflags]

/-- After `pr_co_setup` all flags are there. -/
theorem pr_co_setup_entered_iff
    (h : pr_co_setup draws fuel addr g.shared_data_size stride g = some g') (b : Body) :
    Entered g' stride b bodies ↔ b ∈ bodies := by
  have hflags : ∀ c : Body, c.HasFlags g' stride := by
    intro c
    by_cases hc : c ∈ [Body.producer_, .consumer_]
    · exact pr_co_setup_hasFlags h hc
    · exact Body.hasFlags g' hc stride
  simp only [Entered, hflags, implies_true, and_true]
  exact List.mem_iff_append.symm

/-- **Bounds**: the bytes outside the array stay as they were exactly if the
    word behind it held the pointer to the head before, and the next word a 1
    if a `producer_` is entered: after `pr_co_setup` every one is, after
    `setup` those before which nobody misses a flag. -/
theorem stores_inside_iff (hsize : 0 < g.shared_data_size.toNat) (hstride : stride.toNat % 16 = 0)
    (hwhole : stride.toNat ∣ g.shared_data_size.toNat) (bodies : List Body) :
    (setup draws fuel addr g.shared_data_size stride g = some g' →
      (StaysInside addr stride g g' bodies ↔
        g.mem.load (addr + g.shared_data_size) = addr ∧
          (Entered g stride .producer_ bodies →
            g.mem.load (addr + g.shared_data_size + 8) = 1))) ∧
    (pr_co_setup draws fuel addr g.shared_data_size stride g = some g' →
      (StaysInside addr stride g g' bodies ↔
        g.mem.load (addr + g.shared_data_size) = addr ∧
          (.producer_ ∈ bodies → g.mem.load (addr + g.shared_data_size + 8) = 1))) := by
  have hroom := Room.of_sixteen hsize hstride hwhole
  constructor
  · intro hsetup
    rw [← setup_entered_iff hsetup]
    exact SetUp.stays_inside_iff (.setup hsetup) hroom
  · intro hsetup
    rw [← pr_co_setup_entered_iff hsetup]
    exact SetUp.stays_inside_iff (.pr_co_setup hsetup) hroom

/-- Four lines, and both words behind them as they have to be: there are no
    flags for a `producer_` after `setup`, and four after `pr_co_setup`. -/
theorem stores_inside_four_lines :
    ∃ g, (∃ g', setup (fun _ _ => 0) 300 4096 256 64 g = some g' ∧
        StaysInside 4096 64 g g' [.writer_, .producer_]) ∧
      ∃ g', pr_co_setup (fun _ _ => 0) 300 4096 256 64 g = some g' ∧
        StaysInside 4096 64 g g' [.consumer_, .producer_] := by
  have hapart : Memory.Apart (4096 + 256) (4096 + 256 + 8) := by
    unfold Memory.Apart
    decide
  obtain ⟨g, hsize, hend, hnext⟩ : ∃ g : Shared, g.shared_data_size = 256 ∧
      g.mem.load (4096 + 256) = 4096 ∧ g.mem.load (4096 + 256 + 8) = 1 :=
    ⟨{ fourLines with mem := (fourLines.mem.store (4096 + 256 + 8) 1).store (4096 + 256) 4096 },
      rfl, Memory.load_store_same _ _ _,
      (Memory.load_store_apart _ _ hapart).trans (Memory.load_store_same _ _ _)⟩
  have hwords : g.mem.load (4096 + g.shared_data_size) = 4096 ∧
      g.mem.load (4096 + g.shared_data_size + 8) = 1 := by
    rw [hsize]
    exact ⟨hend, hnext⟩
  obtain ⟨mem, path, hset, -⟩ :=
    setup_spec (fun _ _ => 0) fourLines_layout.fits 4096 g (show _ < 300 by decide)
  obtain ⟨mem', path', hprco, -⟩ :=
    pr_co_setup_spec (fun _ _ => 0) fourLines_layout.fits 4096 g (show _ < 300 by decide)
      (by decide)
  refine ⟨g, ⟨_, hset, ?_⟩, _, hprco, ?_⟩
  · rw [← hsize] at hset ⊢
    exact ((stores_inside_iff (by rw [hsize]; decide) (by decide) (by rw [hsize]; decide)
      [.writer_, .producer_]).1 hset).mpr ⟨hwords.1, fun _ => hwords.2⟩
  · rw [← hsize] at hprco ⊢
    exact ((stores_inside_iff (by rw [hsize]; decide) (by decide) (by rw [hsize]; decide)
      [.consumer_, .producer_]).2 hprco).mpr ⟨hwords.1, fun _ => hwords.2⟩

/-- With nothing behind the line, `setup` itself changes that. -/
theorem setup_spills_one_line :
    ∃ g, setup (fun _ _ => 0) 2 4096 64 64 oneLine = some g ∧
      ¬ StaysInside 4096 64 oneLine g [] := by
  obtain ⟨g, hg⟩ := setup_one_line
  refine ⟨g, hg, ?_⟩
  intro hall
  have hroom : Room 64 64 := .of_sixteen (by decide) (by decide) (by decide)
  have hload := (SetUp.outside_iff (.setup hg) hroom).mp (hall _ (.init rfl))
  exact absurd hload (by decide)

end

end Pcnt
