import Microrev.Bench.Executions

/-! # Which Nodes an Execution Reaches

    `shared_iter` stands behind the last node, so the first load of every
    execution is from there, and `n` loads reach only `n - 1` of the `n`
    nodes. `writer_` stores after it has loaded, which brings its stores to
    all nodes; `producer_` stores before, and starts behind the array.
-/

namespace Pcnt

open Lts Interleaving Loop

/-! ### The Accesses of a Loop -/

section
variable (g : Shared)

/-- The number of pointers that some code loads. -/
def advances (is : List Instr) : Nat := is.count .advance

theorem acts_append (iter : BitVec 64) (is js : List Instr) :
    acts g iter (is ++ js) = acts g iter is ++ acts g (g.mem.load^[advances is] iter) js := by
  induction is generalizing iter with
  | nil => rfl
  | cons i is ih =>
    cases i with
    | advance =>
      have hcount : advances (.advance :: is) = advances is + 1 := List.count_cons_self
      rw [hcount, Function.iterate_succ_apply]
      exact congrArg (Act.load iter :: ·) (ih (g.mem.load iter))
    | mark => exact congrArg (Act.store (iter + 8) 1 :: ·) (ih iter)
    | clflush k => exact congrArg (Act.flush _ :: ·) (ih iter)
    | decrement _ => exact ih iter
    | test_and_set _ => exact ih iter

theorem code_succ (round : Nat → List Instr) (n : Nat) :
    code round (n + 1) = code round n ++ round n := by
  unfold code
  rw [List.range_succ, List.flatMap_append, List.flatMap_singleton]

theorem advances_code {round : Nat → List Instr} (hone : ∀ i, advances (round i) = 1) (n : Nat) :
    advances (code round n) = n := by
  induction n with
  | zero => rfl
  | succ n ih =>
    unfold advances at hone ih ⊢
    rw [code_succ, List.count_append, ih, hone]

/-- A loop that advances once in every iteration. -/
theorem acts_code {round : Nat → List Instr} (hone : ∀ i, advances (round i) = 1)
    (iter : BitVec 64) (n : Nat) :
    acts g iter (code round n) =
      (List.range n).flatMap fun k => acts g (g.mem.load^[k] iter) (round k) := by
  induction n with
  | zero => rfl
  | succ n ih =>
    rw [code_succ, acts_append, advances_code hone, ih, List.range_succ, List.flatMap_append,
      List.flatMap_singleton]

theorem Body.advances_round {b : Body} (hb : b ≠ .flusher_) (i : Nat) :
    advances (b.round i) = 1 := by
  cases b with
  | flusher_ => exact absurd rfl hb
  | producer_ | consumer_ | writer_ | reader_ => rfl

theorem Body.bound_eq {b : Body} (hb : b ≠ .flusher_) (stride : BitVec 64) :
    b.bound g stride = g.line_cnt stride := by
  cases b with
  | flusher_ => exact absurd rfl hb
  | producer_ | consumer_ | writer_ | reader_ => rfl

/-- The flags are used in order, one in every iteration. -/
theorem Body.mem_flags {b : Body} (hb : b ∈ [Body.producer_, .consumer_]) (stride : BitVec 64)
    (i : Nat) : i ∈ (code b.round (b.bound g stride)).filterMap Instr.flag ↔
      i < g.line_cnt stride := by
  have hround : ∀ k, (b.round k).filterMap Instr.flag = [k] := by
    intro k
    simp only [List.mem_cons, List.not_mem_nil, or_false] at hb
    rcases hb with rfl | rfl
    · rfl
    · rfl
  have hne : b ≠ .flusher_ := by
    rintro rfl
    simp at hb
  unfold code
  rw [b.bound_eq g hne, List.filterMap_flatMap]
  simp only [hround, List.mem_flatMap, List.mem_range, List.mem_singleton]
  constructor
  · rintro ⟨k, hk, rfl⟩
    exact hk
  · exact fun hi => ⟨i, hi, rfl⟩

theorem Body.hasFlags_iff {b : Body} (hb : b ∈ [Body.producer_, .consumer_])
    (stride : BitVec 64) : b.HasFlags g stride ↔ g.line_cnt stride ≤ g.wrflag.length := by
  constructor
  · intro h
    by_contra hmany
    have hlt := h _ ((b.mem_flags g hb stride g.wrflag.length).mpr (Nat.lt_of_not_le hmany))
    omega
  · intro h i hi
    exact Nat.lt_of_lt_of_le ((b.mem_flags g hb stride i).mp hi) h

/-- The other bodies use no flags. -/
theorem Body.hasFlags {b : Body} (hb : b ∉ [Body.producer_, .consumer_]) (stride : BitVec 64) :
    b.HasFlags g stride := by
  intro i hi
  obtain ⟨instr, hinstr, hflag⟩ := List.mem_filterMap.mp hi
  obtain ⟨k, -, hk⟩ := List.mem_flatMap.mp hinstr
  cases b with
  | producer_ | consumer_ => simp at hb
  | flusher_ | writer_ | reader_ =>
    simp only [Body.round, List.mem_cons, List.not_mem_nil, or_false] at hk
    rcases hk with rfl | rfl
    all_goals simp [Instr.flag] at hflag

/-- Accesses of one kind, if every iteration makes one of them. -/
theorem Body.filterMap_acts {α : Type} {kind : Act → Option α} {f : BitVec 64 → α} {b : Body}
    (hb : b ≠ .flusher_)
    (hround : ∀ k iter, (Pcnt.acts g iter (b.round k)).filterMap kind = [f iter])
    (stride : BitVec 64) :
    (b.acts g stride).filterMap kind =
      (List.range (g.line_cnt stride)).map fun k => f (g.mem.load^[k] g.shared_iter) := by
  unfold Body.acts
  rw [acts_code g (b.advances_round hb), b.bound_eq g hb, List.filterMap_flatMap]
  simp only [hround, ← List.map_eq_flatMap]

/-- All bodies but `flusher_` load along the walk. -/
theorem Body.loads_acts {b : Body} (hb : b ≠ .flusher_) (stride : BitVec 64) :
    loads (b.acts g stride) =
      (List.range (g.line_cnt stride)).map fun k => g.mem.load^[k] g.shared_iter := by
  have hround : ∀ k iter, loads (Pcnt.acts g iter (b.round k)) = [iter] := by
    intro k iter
    cases b with
    | flusher_ => exact absurd rfl hb
    | producer_ | consumer_ | writer_ | reader_ => rfl
  unfold loads at hround ⊢
  exact b.filterMap_acts g hb hround stride

/-- `writer_` stores where its loads lead. -/
theorem stores_writer (stride : BitVec 64) :
    stores (Body.writer_.acts g stride) =
      (List.range (g.line_cnt stride)).map fun k =>
        (g.mem.load^[k] (g.mem.load g.shared_iter) + 8, 1) := by
  have hround : ∀ k iter, stores (acts g iter (Body.writer_.round k)) =
      [(g.mem.load iter + 8, 1)] := fun _ _ => rfl
  unfold stores at hround ⊢
  rw [Body.filterMap_acts g (by decide) hround stride]
  simp only [← Function.iterate_succ_apply', Function.iterate_succ_apply]

/-- `producer_` stores where its loads are from. -/
theorem stores_producer (stride : BitVec 64) :
    stores (Body.producer_.acts g stride) =
      (List.range (g.line_cnt stride)).map fun k => (g.mem.load^[k] g.shared_iter + 8, 1) := by
  have hround : ∀ k iter, stores (acts g iter (Body.producer_.round k)) = [(iter + 8, 1)] :=
    fun _ _ => rfl
  unfold stores at hround ⊢
  exact Body.filterMap_acts g (by decide) hround stride

end

/-! ### Executions by Themselves -/

/-- The bodies as functions on the process. -/
def Body.op (cores : Finset Int) (core : Int) (stride : BitVec 64) :
    Body → Op World PAPILLCounter
  | .flusher_ => Pcnt.flusher_ cores core
  | .producer_ => Pcnt.producer_ cores core stride
  | .consumer_ => Pcnt.consumer_ cores core stride
  | .writer_ => Pcnt.writer_ cores core stride
  | .reader_ => Pcnt.reader_ cores core stride

/-- An execution with the given code left. -/
structure At (b : Body) (stride : BitVec 64) (g : Shared) (iter : BitVec 64) (rest : List Instr)
    (p : Shared × Execution) : Prop where
  shared : p.1 = g
  frame : ∃ trace, p.2 = ⟨b, stride, some ⟨iter, rest, trace⟩⟩

/-- An execution that has finished, with `g` for the shared data. -/
def Done (b : Body) (stride : BitVec 64) (g : Shared) (p : Shared × Execution) : Prop :=
  ∃ iter, At b stride g iter [] p

section
variable {b : Body} {stride : BitVec 64} {g : Shared} {iter : BitVec 64} {rest : List Instr}
variable {p : Shared × Execution}

theorem At.access (h : At b stride g iter rest p) {g' : Shared} {iter' : BitVec 64}
    {rest' : List Instr}
    (hst : ∀ trace, ∃ trace', FrameStep g ⟨iter, rest, trace⟩ g' ⟨iter', rest', trace'⟩) :
    CanReach (alone ExecStep) p (At b stride g' iter' rest') := by
  obtain ⟨g, e⟩ := p
  obtain ⟨rfl, trace, rfl⟩ := h
  obtain ⟨trace', hst⟩ := hst trace
  exact .step (t := (g', ⟨b, stride, some ⟨iter', rest', trace'⟩⟩)) (l := ()) (.access hst)
    (.here ⟨rfl, trace', rfl⟩)

theorem At.mark (h : At b stride g iter (.mark :: rest) p) :
    CanReach (alone ExecStep) p
      (At b stride { g with mem := g.mem.store (iter + 8) 1 } iter rest) :=
  h.access fun _ => ⟨_, .mark⟩

theorem At.advance (h : At b stride g iter (.advance :: rest) p) :
    CanReach (alone ExecStep) p (At b stride g (g.mem.load iter) rest) :=
  h.access fun _ => ⟨_, .advance⟩

theorem At.decrement {i : Nat} {f : Int} (h : At b stride g iter (.decrement i :: rest) p)
    (hf : g.wrflag[i]? = some f) :
    CanReach (alone ExecStep) p
      (At b stride { g with wrflag := g.wrflag.set i (f - 1) } iter rest) :=
  h.access fun _ => ⟨_, .decrement hf⟩

theorem At.clflush {i : Nat} (h : At b stride g iter (.clflush i :: rest) p) :
    CanReach (alone ExecStep) p (At b stride g iter rest) :=
  h.access fun _ => ⟨_, .clflush⟩

/-- The exchange that reads a nonzero value. -/
theorem At.leave {i : Nat} {f : Int} (h : At b stride g iter (.test_and_set i :: rest) p)
    (hne : f ≠ 0) (hf : g.wrflag[i]? = some f) :
    CanReach (alone ExecStep) p (At b stride { g with wrflag := g.wrflag.set i 1 } iter rest) := by
  refine h.access fun trace => ⟨trace, ?_⟩
  have hst : FrameStep g ⟨iter, .test_and_set i :: rest, trace⟩ _
      ⟨iter, if f = 0 then .test_and_set i :: rest else rest, trace⟩ := .test_and_set hf
  rwa [if_neg hne] at hst

/-- With nobody else running, the second exchange ends the loop. -/
theorem At.test_and_set {i : Nat} (h : At b stride g iter (.test_and_set i :: rest) p)
    (hi : i < g.wrflag.length) :
    CanReach (alone ExecStep) p (At b stride { g with wrflag := g.wrflag.set i 1 } iter rest) := by
  have hf := List.getElem?_eq_getElem hi
  by_cases hzero : g.wrflag[i] = 0
  · rw [hzero] at hf
    have hagain : CanReach (alone ExecStep) p
        (At b stride { g with wrflag := g.wrflag.set i 1 } iter (.test_and_set i :: rest)) :=
      h.access fun trace => ⟨trace, .test_and_set (f := 0) hf⟩
    apply hagain.bind
    intro q hq
    have hend := hq.leave Int.one_ne_zero (List.getElem?_set_self hi)
    rwa [List.set_set] at hend
  · exact h.leave hzero hf

/-- A loop, if every round of it can be done, and keeps what the rounds need. -/
theorem At.loop {State : Type} (shared : State → Shared) (iter : State → BitVec 64)
    (ok : State → Prop) {body : Nat → State → State} {n : Nat} {s : State}
    (hround : ∀ k < n, ∀ s rest p, ok s →
      At b stride (shared s) (iter s) (b.round k ++ rest) p →
      CanReach (alone ExecStep) p (At b stride (shared (body k s)) (iter (body k s)) rest))
    (hok : ∀ k s, ok s → ok (body k s)) (hs : ok s)
    (h : At b stride (shared s) (iter s) (code b.round n) p) :
    CanReach (alone ExecStep) p (Done b stride (shared (upTo body n s))) := by
  have hall : ∀ k, ok (upTo body k s) := fun k =>
    upTo_spec (fun _ t => ok t) (fun k t _ ht => hok k t ht) hs
  have hstart : At b stride (shared s) (iter s) ((List.range' 0 (n - 0)).flatMap b.round) p := by
    rwa [code, List.range_eq_range'] at h
  have hend : CanReach (alone ExecStep) p (At b stride (shared (upTo body n s))
      (iter (upTo body n s)) ((List.range' n (n - n)).flatMap b.round)) := by
    refine CanReach.loop (fun k => At b stride (shared (upTo body k s)) (iter (upTo body k s))
      ((List.range' k (n - k)).flatMap b.round)) ?_ (Nat.zero_le n) hstart
    intro k q hk hq
    apply hround k hk _ _ q (hall k)
    obtain ⟨d, hd⟩ := Nat.exists_eq_add_one_of_ne_zero (Nat.sub_ne_zero_of_lt hk)
    rw [hd, List.range'_succ, List.flatMap_cons] at hq
    rwa [show n - (k + 1) = d by omega]
  apply hend.bind
  intro q hq
  rw [Nat.sub_self] at hq
  exact .here ⟨_, hq⟩

theorem can_enter (b : Body) (stride : BitVec 64) (g : Shared) :
    CanReach (alone ExecStep) (g, ⟨b, stride, none⟩)
      (At b stride g g.shared_iter (code b.round (b.bound g stride))) :=
  .step (t := (g, ⟨b, stride, some (.begin g b stride)⟩)) (l := ()) .enter (.here ⟨rfl, [], rfl⟩)

/-- The number of flags, which no round changes. -/
def Chase.flagCount (s : Chase) : Nat := s.world.shared.wrflag.length

/-- A body that chases the pointers, if every round of it can be done. -/
theorem chase_alone {body : Nat → Chase → Chase} (w : World)
    (hbound : b.bound w.shared stride = w.shared.line_cnt stride)
    (hround : ∀ k < w.shared.line_cnt stride, ∀ (s : Chase) rest p,
      s.flagCount = w.shared.wrflag.length →
      At b stride s.world.shared s.iter (b.round k ++ rest) p →
      CanReach (alone ExecStep) p (At b stride (body k s).world.shared (body k s).iter rest))
    (hflags : ∀ k s, (body k s).flagCount = s.flagCount) :
    CanReach (alone ExecStep) (w.shared, ⟨b, stride, none⟩)
      (Done b stride (upTo body (w.shared.line_cnt stride) (.begin w)).world.shared) := by
  apply (can_enter b stride w.shared).bind
  intro q hq
  rw [hbound] at hq
  exact At.loop (fun s : Chase => s.world.shared) Chase.iter
    (fun s => s.flagCount = w.shared.wrflag.length) hround
    (fun k s hs => (hflags k s).trans hs) rfl hq

variable (cores : Finset Int) (core : Int)

theorem At.writer_round {s : Chase} {k : Nat}
    (h : At b stride s.world.shared s.iter (Body.writer_.round k ++ rest) p) :
    CanReach (alone ExecStep) p (At b stride (Pcnt.writer_round cores core s).world.shared
      (Pcnt.writer_round cores core s).iter rest) :=
  h.advance.bind fun _ hq => hq.mark

theorem decrementFlag_flags (k : Nat) (w : World) :
    (decrementFlag k w).shared.wrflag.length = w.shared.wrflag.length := by
  unfold decrementFlag
  split
  · exact List.length_set
  · rfl

theorem producer_round_flags (k : Nat) (s : Chase) :
    (Pcnt.producer_round cores core k s).flagCount = s.flagCount :=
  decrementFlag_flags k _

theorem At.producer_round {s : Chase} {k : Nat} (hk : k < s.flagCount)
    (h : At b stride s.world.shared s.iter (Body.producer_.round k ++ rest) p) :
    CanReach (alone ExecStep) p (At b stride (Pcnt.producer_round cores core k s).world.shared
      (Pcnt.producer_round cores core k s).iter rest) := by
  obtain ⟨f, hf⟩ : ∃ f, s.world.shared.wrflag[k]? = some f := ⟨_, List.getElem?_eq_getElem hk⟩
  have hflag : (decrementFlag k ((s.mark cores core).advance cores core).world) =
      ((s.mark cores core).advance cores core).world.setFlag k (f - 1) := by
    unfold decrementFlag
    rw [show ((s.mark cores core).advance cores core).world.shared.wrflag[k]? = some f from hf]
  unfold Pcnt.producer_round
  simp only [hflag]
  exact h.mark.bind fun _ h1 => h1.advance.bind fun _ h2 => h2.decrement hf

theorem spin_flags {k fuel : Nat} {w w' : World} (h : spin k fuel w = some w') :
    w'.shared.wrflag.length = w.shared.wrflag.length := by
  induction fuel generalizing w with
  | zero => simp [spin] at h
  | succ fuel ih =>
    unfold spin at h
    split at h
    · split at h
      · exact (ih h).trans List.length_set
      · rw [← Option.some.inj h]
        exact List.length_set
    · simp at h

theorem consumer_round_flags (k : Nat) (s : Chase) :
    (Pcnt.consumer_round cores core k s).flagCount = s.flagCount := by
  show ((spin k 2 s.world).getD s.world).shared.wrflag.length = _
  cases h : spin k 2 s.world with
  | none => rfl
  | some w => exact spin_flags h

theorem At.consumer_round {s : Chase} {k : Nat} (hk : k < s.flagCount)
    (h : At b stride s.world.shared s.iter (Body.consumer_.round k ++ rest) p) :
    CanReach (alone ExecStep) p (At b stride (Pcnt.consumer_round cores core k s).world.shared
      (Pcnt.consumer_round cores core k s).iter rest) := by
  have hspin : (spin k 2 s.world).getD s.world = s.world.setFlag k 1 := by
    rw [spin_ends hk 0]
    rfl
  unfold Pcnt.consumer_round Chase.advance World.loadWord World.access
  simp only [hspin]
  exact (h.test_and_set hk).bind fun _ hq => hq.advance

/-- **By itself** an execution does to the shared data what the body does, if
    the body finds its flags. -/
theorem body_alone (b : Body) (stride : BitVec 64) (w : World) (pc : PAPILLCounter)
    (h : b.HasFlags w.shared stride) :
    CanReach (alone ExecStep) (w.shared, ⟨b, stride, none⟩)
      (Done b stride (b.op cores core stride (w, pc)).1.shared) := by
  cases b with
  | flusher_ =>
    apply (can_enter .flusher_ stride w.shared).bind
    intro q hq
    have hround : ∀ k < w.shared.shared_data_size.toNat, ∀ (v : World) rest p, True →
        At .flusher_ stride v.shared w.shared.shared_iter (Body.flusher_.round k ++ rest) p →
        CanReach (alone ExecStep) p (At .flusher_ stride
          (v.clflush cores core (w.shared.shared_data + BitVec.ofNat 64 k)).shared
          w.shared.shared_iter rest) := fun _ _ _ _ _ _ h => h.clflush
    exact At.loop World.shared (fun _ => w.shared.shared_iter) (fun _ => True) hround
      (fun _ _ h => h) trivial hq
  | producer_ =>
    have hle := (Body.hasFlags_iff w.shared (by decide) stride).mp h
    show CanReach _ _ (Done .producer_ stride (sample _ (w, pc)).1.shared)
    rw [sample_world.1]
    exact chase_alone w.rdtsc.2 rfl
      (fun k hk _ _ _ hs h => h.producer_round cores core (hs ▸ Nat.lt_of_lt_of_le hk hle))
      (producer_round_flags cores core)
  | consumer_ =>
    have hle := (Body.hasFlags_iff w.shared (by decide) stride).mp h
    show CanReach _ _ (Done .consumer_ stride (sample _ (w, pc)).1.shared)
    rw [sample_world.1]
    exact chase_alone w rfl
      (fun k hk _ _ _ hs h => h.consumer_round cores core (hs ▸ Nat.lt_of_lt_of_le hk hle))
      (consumer_round_flags cores core)
  | writer_ =>
    show CanReach _ _ (Done .writer_ stride (sample _ (w, pc)).1.shared)
    rw [sample_world.1]
    exact chase_alone w.rdtsc.2 rfl (fun k _ _ _ _ _ h => At.writer_round cores core (k := k) h)
      fun _ _ => rfl
  | reader_ =>
    show CanReach _ _ (Done .reader_ stride (sample _ (w, pc)).1.shared)
    rw [sample_world.1]
    exact chase_alone w.rdtsc.2 rfl (fun _ _ _ _ _ _ h => h.advance) fun _ _ => rfl

end

/-! ### Whole Executions -/

/-- `f` is what an execution that nobody else takes part in ends with. -/
def Executed (g : Shared) (b : Body) (stride : BitVec 64) (f : Frame) : Prop :=
  ∃ s, Reachable (concurrently g [(b, stride)]) s ∧
    ∃ e ∈ s.threads, e.frame = some f ∧ f.rest = []

/-- Executions end, if they find their flags. -/
theorem exists_executed {g : Shared} {b : Body} {stride : BitVec 64} (h : b.HasFlags g stride) :
    ∃ f, Executed g b stride f := by
  obtain ⟨⟨g', e⟩, hreach, iter, -, trace, rfl⟩ := body_alone ∅ 0 b stride
    ⟨g, fun _ _ => .invalid, [], fun _ => 0, fun _ => 0⟩ .make h
  have hturn : Turn Execution.finished (calls g [(b, stride)]) 0 :=
    fun j hj => absurd hj (Nat.not_lt_zero j)
  have hreaches : Reaches (sequentially g [(b, stride)]) (calls g [(b, stride)]) _ :=
    reaches_of_alone (i := 0) rfl hturn hreach
  exact ⟨_, _, interleaved_of_inTurn ((Reachable.init rfl).reaches hreaches), _,
    List.mem_singleton.mpr rfl, rfl, rfl⟩

section
variable {addr size stride : BitVec 64} {path : List Nat} {g : Shared}

theorem Executed.trace (hroom : Room size stride) (hring : RingAt addr size stride path g)
    {b : Body} {c : BitVec 64} {f : Frame} (h : Executed g b c f) : f.trace = b.acts g c := by
  obtain ⟨s, hs, e, he, hf, hrest⟩ := h
  have hok := (concurrently_ok hroom hring hs).2 e he
  obtain ⟨hb, hc⟩ := Prod.mk.inj (List.mem_singleton.mp hok.call)
  have hahead := (hok.walk f hf).ahead
  rw [hrest, hb, hc] at hahead
  simpa [acts] using hahead

theorem Room.line_cnt (h : Room size stride) (hg : g.shared_data_size = size) :
    g.line_cnt stride = nodeCount size stride := by
  rw [Shared.line_cnt, hg, BitVec.toNat_udiv, h.count_eq]

/-- The loads are from each node once, and from nowhere else. -/
def LoadsEachNode (addr size stride : BitVec 64) (f : Frame) : Prop :=
  (loads f.trace).Perm ((List.range (nodeCount size stride)).map (node addr stride))

/-- The stores are to the payload of each node once, and nowhere else. -/
def StoresEachNode (addr size stride : BitVec 64) (f : Frame) : Prop :=
  (stores f.trace).Perm
    ((List.range (nodeCount size stride)).map fun k => (node addr stride k + 8, 1))

/-- The place behind the last node is not a node. -/
theorem RingAt.iter_ne_node (hring : RingAt addr size stride path g) (hroom : Room size stride)
    {k : Nat} (hk : k < nodeCount size stride) : g.shared_iter ≠ node addr stride k := by
  intro heq
  rw [hring.iter] at heq
  have hsame := (hroom.fits hring.few).strided.node_injective addr le_rfl hk.le heq
  omega

/-- The first load is from behind the last node. -/
theorem loads_miss (hring : RingAt addr size stride path g) (hroom : Room size stride)
    (hg : g.shared_data_size = size) {b : Body} (hb : b ≠ .flusher_) {f : Frame}
    (h : Executed g b stride f) : ¬ LoadsEachNode addr size stride f := by
  intro hperm
  have hfirst : g.shared_iter ∈ loads f.trace := by
    rw [h.trace hroom hring, b.loads_acts g hb, hroom.line_cnt hg]
    exact List.mem_map.mpr ⟨0, List.mem_range.mpr hroom.count_pos, rfl⟩
  obtain ⟨k, hk, heq⟩ := List.mem_map.mp (hperm.mem_iff.mp hfirst)
  exact hring.iter_ne_node hroom (List.mem_range.mp hk) heq.symm

/-- The first store of `producer_` is behind the last node. -/
theorem producer_misses (hring : RingAt addr size stride path g) (hroom : Room size stride)
    (hg : g.shared_data_size = size) {f : Frame} (h : Executed g .producer_ stride f) :
    ¬ StoresEachNode addr size stride f := by
  intro hperm
  have hfirst : (g.shared_iter + 8, (1 : BitVec 64)) ∈ stores f.trace := by
    rw [h.trace hroom hring, stores_producer, hroom.line_cnt hg]
    exact List.mem_map.mpr ⟨0, List.mem_range.mpr hroom.count_pos, rfl⟩
  obtain ⟨k, hk, heq⟩ := List.mem_map.mp (hperm.mem_iff.mp hfirst)
  have hnode := (BitVec.add_left_inj 8).mp (Prod.mk.inj heq).1
  exact hring.iter_ne_node hroom (List.mem_range.mp hk) hnode.symm

/-- `pr_co_setup` provides a flag for every line. -/
theorem pr_co_setup_hasFlags {draws : Draws} {fuel : Nat} {g g' : Shared}
    (h : pr_co_setup draws fuel addr g.shared_data_size stride g = some g') {b : Body}
    (hb : b ∈ [Body.producer_, .consumer_]) : b.HasFlags g' stride := by
  obtain ⟨hflags, hdata⟩ := pr_co_setup_flags h
  rw [b.hasFlags_iff g' hb, hflags, List.length_replicate, Shared.line_cnt, hdata]

/-- **No coverage**: an execution of `reader_`, `consumer_` or `producer_`
    after a setup function has not reached every node once. That of `reader_`
    always ends, those of the other two after `pr_co_setup`. -/
theorem no_coverage {draws : Draws} {fuel : Nat} {g g' : Shared}
    (hsize : 0 < g.shared_data_size.toNat) (hstride : stride.toNat % 16 = 0)
    (hwhole : stride.toNat ∣ g.shared_data_size.toNat)
    (hsetup : SetUp draws fuel addr g.shared_data_size stride g g') :
    ((∃ f, Executed g' .reader_ stride f) ∧ ∀ f, Executed g' .reader_ stride f →
      ¬ LoadsEachNode addr g.shared_data_size stride f) ∧
    ((pr_co_setup draws fuel addr g.shared_data_size stride g = some g' →
        ∃ f, Executed g' .consumer_ stride f) ∧ ∀ f, Executed g' .consumer_ stride f →
      ¬ LoadsEachNode addr g.shared_data_size stride f) ∧
    ((pr_co_setup draws fuel addr g.shared_data_size stride g = some g' →
        ∃ f, Executed g' .producer_ stride f) ∧ ∀ f, Executed g' .producer_ stride f →
      ¬ StoresEachNode addr g.shared_data_size stride f) := by
  have hroom := Room.of_sixteen hsize hstride hwhole
  obtain ⟨path, hring⟩ := hsetup.ringAt hroom
  have hdata := hsetup.data_size
  have hreader : ∃ f, Executed g' .reader_ stride f :=
    exists_executed (Body.hasFlags g' (by decide) stride)
  refine ⟨⟨hreader, ?_⟩, ⟨?_, ?_⟩, ?_, ?_⟩
  · exact fun f hf => loads_miss hring hroom hdata (by decide) hf
  · exact fun h => exists_executed (pr_co_setup_hasFlags h (by decide))
  · exact fun f hf => loads_miss hring hroom hdata (by decide) hf
  · exact fun h => exists_executed (pr_co_setup_hasFlags h (by decide))
  · exact fun f hf => producer_misses hring hroom hdata hf

/-- A consumer and a producer on four lines. -/
theorem no_coverage_four_lines :
    ∃ g, pr_co_setup (fun _ _ => 0) 300 4096 256 64 fourLines = some g ∧
      (∃ f, Executed g .consumer_ 64 f ∧ ¬ LoadsEachNode 4096 256 64 f) ∧
      ∃ f, Executed g .producer_ 64 f ∧ ¬ StoresEachNode 4096 256 64 f := by
  obtain ⟨g, hg, -⟩ := pr_co_setup_four_lines
  have hset : pr_co_setup (fun _ _ => 0) 300 4096 fourLines.shared_data_size 64 fourLines =
    some g := hg
  obtain ⟨-, ⟨hconsumer, hloads⟩, hproducer, hstores⟩ :=
    no_coverage (by decide) (by decide) (by decide) (.pr_co_setup hset)
  obtain ⟨f, hf⟩ := hconsumer hset
  obtain ⟨f', hf'⟩ := hproducer hset
  exact ⟨g, hg, ⟨f, hf, hloads f hf⟩, f', hf', hstores f' hf'⟩

/-- Four lines: the reader loads from behind the last one. -/
theorem reader_leaves_array :
    ∃ g, SetUp (fun _ _ => 0) 5 4096 256 64 fourLines g ∧
      ∃ f, Executed g .reader_ 64 f ∧ (loads f.trace).head? = some (4096 + 256) ∧
        ¬ LoadsEachNode 4096 256 64 f := by
  obtain ⟨g, hg, hlines⟩ := setup_four_lines
  have hroom : Room 256 64 := .of_sixteen (by decide) (by decide) (by decide)
  obtain ⟨path, hring⟩ := SetUp.ringAt (.setup hg) hroom
  obtain ⟨f, hf⟩ := exists_executed (Body.hasFlags g (b := .reader_) (by decide) 64)
  refine ⟨g, .setup hg, f, hf, ?_, loads_miss hring hroom (SetUp.data_size (.setup hg))
    (by decide) hf⟩
  rw [hf.trace hroom hring, Body.loads_acts g (by decide), hlines]
  exact congrArg some (hring.iter.trans (hroom.node_end 4096))

/-! ### Stores of the Writer -/

theorem stores_writer_ring (hring : RingAt addr size stride path g) (c : BitVec 64) :
    stores (Body.writer_.acts g c) =
      ((List.range (g.line_cnt c)).map fun k => g.mem.load^[k] addr).map fun a => (a + 8, 1) := by
  rw [stores_writer, hring.iter, hring.ring.behind, List.map_map]
  rfl

theorem payload_pair_injective : Function.Injective fun a : BitVec 64 => (a + 8, (1 : BitVec 64)) :=
  fun _ _ heq => (BitVec.add_left_inj 8).mp (Prod.mk.inj heq).1

/-- **Balance**: after `setup` of `n` nodes, the `m` stores of `writer_` go to
    the payloads of the nodes, `m / n` times to each, rounded down or up. -/
theorem writer_balanced {draws : Draws} {fuel : Nat} {g g' : Shared}
    (hsize : 0 < g.shared_data_size.toNat) (hlt : g.shared_data_size.toNat < 2 ^ 63)
    (hge : 16 ≤ stride.toNat) (hdvd : stride.toNat % 8 = 0)
    (hwhole : stride.toNat ∣ g.shared_data_size.toNat)
    (hsetup : SetUp draws fuel addr g.shared_data_size stride g g')
    (cache_line_size : BitVec 64) {n m : Nat}
    (hn : n = g.shared_data_size.toNat / stride.toNat)
    (hm : m = g.shared_data_size.toNat / cache_line_size.toNat) :
    (∃ f, Executed g' .writer_ cache_line_size f) ∧
    ∀ f, Executed g' .writer_ cache_line_size f →
      (∀ k < n, (stores f.trace).count (node addr stride k + 8, 1) = m / n ∨
        (stores f.trace).count (node addr stride k + 8, 1) = (m + n - 1) / n) ∧
      (∀ p ∈ stores f.trace, ∃ k < n, p = (node addr stride k + 8, 1)) ∧
      (cache_line_size = stride →
        ∀ k < n, (stores f.trace).count (node addr stride k + 8, 1) = 1) := by
  have hroom : Room g.shared_data_size stride := ⟨hsize, by omega, hge, hdvd, hwhole⟩
  obtain ⟨path, hring⟩ := hsetup.ringAt hroom
  have hcount : g'.line_cnt cache_line_size = m := by
    rw [Shared.line_cnt, hsetup.data_size, BitVec.toNat_udiv, hm]
  rw [← hroom.count_eq] at hn
  have hlen : (path.map (node addr stride)).length = n := by
    rw [List.length_map, hring.path_length, hn]
  have hmem : ∀ k < n, node addr stride k ∈ path.map (node addr stride) :=
    fun k hk => List.mem_map_of_mem (hring.mem_path.mpr (hn ▸ hk))
  refine ⟨exists_executed (Body.hasFlags g' (by decide) cache_line_size), ?_⟩
  intro f hf
  have hcircuit := hring.ring.circuit
  have hstores := stores_writer_ring hring cache_line_size
  rw [hf.trace hroom hring, hstores, hcount]
  refine ⟨?_, ?_, ?_⟩
  · intro k hk
    rw [List.count_map_of_injective _ _ payload_pair_injective (node addr stride k), ← hlen]
    exact hcircuit.balanced hring.ring.start (hmem k hk) m
  · intro p hp
    obtain ⟨a, ha, rfl⟩ := List.mem_map.mp hp
    obtain ⟨j, -, rfl⟩ := List.mem_map.mp ha
    obtain ⟨k, hk, heq⟩ := List.mem_map.mp (hcircuit.stays hring.ring.start j)
    exact ⟨k, hn ▸ hring.mem_path.mp hk, by rw [heq]⟩
  · rintro rfl k hk
    rw [List.count_map_of_injective _ _ payload_pair_injective (node addr cache_line_size k)]
    obtain ⟨i, hi, heq⟩ := List.getElem_of_mem (hmem k hk)
    have hvisits := hcircuit.count_visits hring.ring.start (List.getElem?_eq_getElem hi) m
    rw [heq, hlen] at hvisits
    have hmn : m = n := by rw [hn, hroom.count_eq, hm]
    rw [hvisits, hmn, Nat.div_self (by omega), Nat.mod_self, if_neg (Nat.not_lt_zero i)]

/-- Six stores to four lines. -/
theorem writer_balanced_six_stores :
    ∃ g, SetUp (fun _ _ => 0) 5 4096 256 64 fourLines g ∧
      ∃ f, Executed g .writer_ 40 f ∧ (stores f.trace).length = 6 ∧
        ∀ k < 4, (stores f.trace).count (node 4096 64 k + 8, 1) = 1 ∨
          (stores f.trace).count (node 4096 64 k + 8, 1) = 2 := by
  obtain ⟨g, hg, -⟩ := setup_four_lines
  have hsetup : SetUp (fun _ _ => 0) 5 4096 fourLines.shared_data_size 64 fourLines g := .setup hg
  obtain ⟨⟨f, hf⟩, hbalance⟩ := writer_balanced (by decide) (by decide) (by decide) (by decide)
    (by decide) hsetup 40 (n := 4) (m := 6) (by decide) (by decide)
  have hroom : Room 256 64 := .of_sixteen (by decide) (by decide) (by decide)
  obtain ⟨path, hring⟩ := hsetup.ringAt hroom
  refine ⟨g, .setup hg, f, hf, ?_, (hbalance f hf).1⟩
  rw [hf.trace hroom hring, stores_writer, List.length_map, List.length_range, Shared.line_cnt,
    hsetup.data_size]
  decide

end

end Pcnt
