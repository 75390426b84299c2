import Microrev.Lib.Interleaving
import Microrev.Ring.Setup
import Microrev.Bench.Bodies

/-! # Concurrent Executions of the Bodies

    Any number of executions of `flusher_`, `producer_`, `consumer_`,
    `writer_` and `reader_` over the same shared data, one step for every
    access to memory that the others see too. Each reads `shared_iter` when
    it is entered, and goes on from there with pointers that it loads. At a
    flag that `wrflag` does not have there is no step: the access is
    undefined, and without any flags the process dies.

    The stores go to payloads, never to pointers. So the ring that was set up
    stays as it is, and every execution makes the accesses that it would make
    alone.
-/

namespace Pcnt

open Lts Interleaving

/-! ### Executions -/

inductive Body where
  | flusher_
  | producer_
  | consumer_
  | writer_
  | reader_
  deriving DecidableEq

/-- An access of a loop body; `i` is the loop index. -/
inductive Instr where
  /-- `*( iter + 1 ) = (char*)1`. -/
  | mark
  /-- `iter = ( (char**)*iter )`. -/
  | advance
  /-- `__sync_fetch_and_add( &wrflag[i], -1 )`. -/
  | decrement (i : Nat)
  /-- `while( !__sync_lock_test_and_set( &wrflag[i], 1 ) )`. -/
  | test_and_set (i : Nat)
  /-- `_mm_clflush( (void*)&shared_data[i] )`. -/
  | clflush (i : Nat)
  deriving DecidableEq

/-- The accesses of iteration `i`, in order. -/
def Body.round : Body → Nat → List Instr
  | .flusher_, i => [.clflush i]
  | .producer_, i => [.mark, .advance, .decrement i]
  | .consumer_, i => [.test_and_set i, .advance]
  | .writer_, _ => [.advance, .mark]
  | .reader_, _ => [.advance]

/-- The number of iterations. -/
def Body.bound (b : Body) (g : Shared) (stride : BitVec 64) : Nat :=
  match b with
  | .flusher_ => g.shared_data_size.toNat
  | .producer_ | .consumer_ | .writer_ | .reader_ => g.line_cnt stride

/-- The accesses of `n` iterations. -/
def code (round : Nat → List Instr) (n : Nat) : List Instr := (List.range n).flatMap round

/-- The index of the flag that is accessed. -/
def Instr.flag : Instr → Option Nat
  | .decrement i | .test_and_set i => some i
  | .mark | .advance | .clflush _ => none

/-- All flags that the body accesses are there. -/
def Body.HasFlags (b : Body) (g : Shared) (stride : BitVec 64) : Prop :=
  ∀ i ∈ (code b.round (b.bound g stride)).filterMap Instr.flag, i < g.wrflag.length

/-- An access to the shared data that has been made. -/
inductive Act where
  | load (a : BitVec 64)
  | store (a v : BitVec 64)
  | flush (a : BitVec 64)
  deriving DecidableEq

/-- An execution that has been entered. -/
structure Frame where
  iter : BitVec 64
  /-- What is left of the loop. -/
  rest : List Instr
  /-- History: the accesses to the shared data so far. -/
  trace : List Act

/-- `iter = shared_iter`, and the loop bound. -/
def Frame.begin (g : Shared) (b : Body) (stride : BitVec 64) : Frame where
  iter := g.shared_iter
  rest := code b.round (b.bound g stride)
  trace := []

/-- A call of a body, with its frame once it has been entered. -/
structure Execution where
  body : Body
  stride : BitVec 64
  frame : Option Frame

def Execution.finished (e : Execution) : Prop := ∃ f, e.frame = some f ∧ f.rest = []

/-- The next access of an execution. -/
inductive FrameStep : Shared → Frame → Shared → Frame → Prop where
  | mark {g : Shared} {iter : BitVec 64} {rest : List Instr} {trace : List Act} :
      FrameStep g ⟨iter, .mark :: rest, trace⟩
        { g with mem := g.mem.store (iter + 8) 1 } ⟨iter, rest, trace ++ [.store (iter + 8) 1]⟩
  | advance {g : Shared} {iter : BitVec 64} {rest : List Instr} {trace : List Act} :
      FrameStep g ⟨iter, .advance :: rest, trace⟩
        g ⟨g.mem.load iter, rest, trace ++ [.load iter]⟩
  | decrement {g : Shared} {iter : BitVec 64} {rest : List Instr} {trace : List Act} {i : Nat}
      {f : Int} : g.wrflag[i]? = some f →
      FrameStep g ⟨iter, .decrement i :: rest, trace⟩
        { g with wrflag := g.wrflag.set i (f - 1) } ⟨iter, rest, trace⟩
  | test_and_set {g : Shared} {iter : BitVec 64} {rest : List Instr} {trace : List Act} {i : Nat}
      {f : Int} : g.wrflag[i]? = some f →
      FrameStep g ⟨iter, .test_and_set i :: rest, trace⟩ { g with wrflag := g.wrflag.set i 1 }
        ⟨iter, if f = 0 then .test_and_set i :: rest else rest, trace⟩
  | clflush {g : Shared} {iter : BitVec 64} {rest : List Instr} {trace : List Act} {i : Nat} :
      FrameStep g ⟨iter, .clflush i :: rest, trace⟩
        g ⟨iter, rest, trace ++ [.flush (g.shared_data + BitVec.ofNat 64 i)]⟩

/-- An execution is entered, or makes its next access. -/
inductive ExecStep : Shared → Execution → Shared → Execution → Prop where
  | enter {g : Shared} {b : Body} {stride : BitVec 64} :
      ExecStep g ⟨b, stride, none⟩ g ⟨b, stride, some (.begin g b stride)⟩
  | access {g g' : Shared} {b : Body} {stride : BitVec 64} {f f' : Frame} :
      FrameStep g f g' f' → ExecStep g ⟨b, stride, some f⟩ g' ⟨b, stride, some f'⟩

/-- No call has been entered yet. -/
def calls (g : Shared) (cs : List (Body × BitVec 64)) : Config Shared Execution where
  shared := g
  threads := cs.map fun c => ⟨c.1, c.2, none⟩

/-- The calls, with their accesses in any order. -/
def concurrently (g : Shared) (cs : List (Body × BitVec 64)) :
    System (Config Shared Execution) Nat :=
  interleaved ExecStep (calls g cs)

/-- The calls, one after the other. -/
def sequentially (g : Shared) (cs : List (Body × BitVec 64)) :
    System (Config Shared Execution) Nat :=
  inTurn ExecStep Execution.finished (calls g cs)

/-! ### What an Execution Does Alone -/

/-- The nodes that are loaded from. -/
def loads (trace : List Act) : List (BitVec 64) :=
  trace.filterMap fun
    | .load a => some a
    | _ => none

/-- What is stored where. -/
def stores (trace : List Act) : List (BitVec 64 × BitVec 64) :=
  trace.filterMap fun
    | .store a v => some (a, v)
    | _ => none

@[simp] theorem loads_append (s t : List Act) : loads (s ++ t) = loads s ++ loads t :=
  List.filterMap_append

@[simp] theorem stores_append (s t : List Act) : stores (s ++ t) = stores s ++ stores t :=
  List.filterMap_append

/-- The accesses of some code, from `iter` on, if nobody changes a pointer. -/
def acts (g : Shared) : BitVec 64 → List Instr → List Act
  | _, [] => []
  | iter, .mark :: rest => .store (iter + 8) 1 :: acts g iter rest
  | iter, .advance :: rest => .load iter :: acts g (g.mem.load iter) rest
  | iter, .decrement _ :: rest => acts g iter rest
  | iter, .test_and_set _ :: rest => acts g iter rest
  | iter, .clflush i :: rest => .flush (g.shared_data + BitVec.ofNat 64 i) :: acts g iter rest

/-- All accesses of an execution. -/
def Body.acts (b : Body) (g : Shared) (stride : BitVec 64) : List Act :=
  Pcnt.acts g g.shared_iter (code b.round (b.bound g stride))

/-! ### The Ring Survives -/

section
variable {addr size stride : BitVec 64} {path : List Nat} {g₀ : Shared}

/-- What no access changes. -/
structure Kept (addr size stride : BitVec 64) (g₀ g : Shared) : Prop where
  iter : g.shared_iter = g₀.shared_iter
  data : g.shared_data = g₀.shared_data
  data_size : g.shared_data_size = g₀.shared_data_size
  flag_count : g.wrflag.length = g₀.wrflag.length
  pointers : ∀ k ≤ nodeCount size stride,
    g.mem.load (node addr stride k) = g₀.mem.load (node addr stride k)

theorem Kept.refl (g : Shared) : Kept addr size stride g g :=
  ⟨rfl, rfl, rfl, rfl, fun _ _ => rfl⟩

/-- An execution is on the walk from `shared_iter`, and on its way to make the
    accesses `total`. -/
structure OnWalk (g₀ : Shared) (total : List Act) (f : Frame) : Prop where
  loads : loads f.trace = (List.range (loads f.trace).length).map fun k =>
    g₀.mem.load^[k] g₀.shared_iter
  iter : f.iter = g₀.mem.load^[(Pcnt.loads f.trace).length] g₀.shared_iter
  ahead : f.trace ++ acts g₀ f.iter f.rest = total

theorem Kept.bound_eq {g : Shared} (h : Kept addr size stride g₀ g) (b : Body) (s : BitVec 64) :
    b.bound g s = b.bound g₀ s := by
  cases b <;> simp only [Body.bound, Shared.line_cnt, h.data_size]

theorem Kept.begin {g : Shared} (h : Kept addr size stride g₀ g) (b : Body) (s : BitVec 64) :
    OnWalk g₀ (b.acts g₀ s) (.begin g b s) where
  loads := rfl
  iter := h.iter
  ahead := by
    show acts g₀ g.shared_iter (code b.round (b.bound g s)) = _
    rw [h.iter, h.bound_eq]
    rfl

theorem OnWalk.on_node {total : List Act} {f : Frame} (hroom : Room size stride)
    (hring : RingAt addr size stride path g₀) (h : OnWalk g₀ total f) :
    ∃ k ≤ nodeCount size stride, f.iter = node addr stride k :=
  ⟨_, hring.stopAt_le hroom _, h.iter.trans (hring.iterate hroom _)⟩

/-- The payloads are apart from the pointers. -/
theorem Kept.mark {g : Shared} (h : Kept addr size stride g₀ g) (hroom : Room size stride)
    {j : Nat} (hj : j ≤ nodeCount size stride) :
    Kept addr size stride g₀ { g with mem := g.mem.store (node addr stride j + 8) 1 } :=
  { h with
    pointers := by
      intro k hk
      rw [Memory.load_store_apart _ _ (hroom.payload_apart addr hj hk)]
      exact h.pointers k hk }

theorem Kept.flag {g : Shared} (h : Kept addr size stride g₀ g) (i : Nat) (f : Int) :
    Kept addr size stride g₀ { g with wrflag := g.wrflag.set i f } :=
  { h with flag_count := List.length_set.trans h.flag_count }

theorem Kept.hasFlags {g : Shared} (h : Kept addr size stride g₀ g) {b : Body} {s : BitVec 64}
    (hb : b.HasFlags g₀ s) : b.HasFlags g s := by
  unfold Body.HasFlags
  rw [h.bound_eq, h.flag_count]
  exact hb

section
variable {total : List Act} {iter : BitVec 64} {rest : List Instr} {trace : List Act}

theorem OnWalk.mark (h : OnWalk g₀ total ⟨iter, .mark :: rest, trace⟩) :
    OnWalk g₀ total ⟨iter, rest, trace ++ [.store (iter + 8) 1]⟩ where
  loads := by simpa [Pcnt.loads] using h.loads
  iter := by simpa [Pcnt.loads] using h.iter
  ahead := by
    rw [← h.ahead, List.append_assoc]
    rfl

theorem OnWalk.advance (h : OnWalk g₀ total ⟨iter, .advance :: rest, trace⟩) :
    OnWalk g₀ total ⟨g₀.mem.load iter, rest, trace ++ [.load iter]⟩ := by
  have hiter : iter = g₀.mem.load^[(Pcnt.loads trace).length] g₀.shared_iter := h.iter
  have hlen : (Pcnt.loads (trace ++ [.load iter])).length = (Pcnt.loads trace).length + 1 := by
    rw [loads_append, List.length_append]
    rfl
  constructor
  case loads =>
    rw [hlen, List.range_succ, List.map_append, ← h.loads, List.map_singleton, ← hiter,
      loads_append]
    rfl
  case iter => rw [hlen, Function.iterate_succ_apply', ← hiter]
  case ahead =>
    rw [← h.ahead, List.append_assoc]
    rfl

theorem OnWalk.clflush {i : Nat} (h : OnWalk g₀ total ⟨iter, .clflush i :: rest, trace⟩) :
    OnWalk g₀ total
      ⟨iter, rest, trace ++ [.flush (g₀.shared_data + BitVec.ofNat 64 i)]⟩ where
  loads := by simpa [Pcnt.loads] using h.loads
  iter := by simpa [Pcnt.loads] using h.iter
  ahead := by
    rw [← h.ahead, List.append_assoc]
    rfl

/-- Accesses to the flags are not part of the trace. -/
theorem OnWalk.flag {rest' : List Instr} (h : OnWalk g₀ total ⟨iter, rest, trace⟩)
    (hrest : acts g₀ iter rest' = acts g₀ iter rest) : OnWalk g₀ total ⟨iter, rest', trace⟩ where
  loads := h.loads
  iter := h.iter
  ahead := (congrArg (trace ++ ·) hrest).trans h.ahead

end

/-- **One access**: nothing is lost of the ring, and the execution stays on
    the walk. -/
theorem FrameStep.keeps (hroom : Room size stride) (hring : RingAt addr size stride path g₀)
    {g g' : Shared} {f f' : Frame} {total : List Act} (hg : Kept addr size stride g₀ g)
    (hf : OnWalk g₀ total f) (h : FrameStep g f g' f') :
    Kept addr size stride g₀ g' ∧ OnWalk g₀ total f' := by
  obtain ⟨k, hk, hnode⟩ := hf.on_node hroom hring
  cases h with
  | mark =>
    simp only at hnode
    exact ⟨hnode ▸ hg.mark hroom hk, hf.mark⟩
  | advance =>
    -- the pointer that is loaded is the one that was set up
    have hload : g.mem.load _ = g₀.mem.load _ := hnode ▸ hg.pointers k hk
    rw [hload]
    exact ⟨hg, hf.advance⟩
  | decrement => exact ⟨hg.flag _ _, hf.flag rfl⟩
  | test_and_set =>
    refine ⟨hg.flag _ _, hf.flag ?_⟩
    split
    · rfl
    · rfl
  | clflush =>
    rw [hg.data]
    exact ⟨hg, hf.clflush⟩

/-- What is still to do of the flags, after one access: it has been to a flag
    that is there. -/
theorem FrameStep.flags {g g' : Shared} {f f' : Frame} (h : FrameStep g f g' f') :
    ∀ i ∈ f.rest.filterMap Instr.flag,
      i < g.wrflag.length ∨ i ∈ f'.rest.filterMap Instr.flag := by
  intro i hi
  cases h with
  | mark | advance | clflush => exact .inr hi
  | decrement hf =>
    rcases List.mem_cons.mp hi with rfl | hrest
    · exact .inl (List.getElem?_eq_some_iff.mp hf).1
    · exact .inr hrest
  | test_and_set hf =>
    rcases List.mem_cons.mp hi with rfl | hrest
    · exact .inl (List.getElem?_eq_some_iff.mp hf).1
    · right
      split
      · exact List.mem_cons_of_mem _ hrest
      · exact hrest

/-- An execution of one of the calls, on its walk if it has been entered. -/
structure ExecOk (g₀ : Shared) (cs : List (Body × BitVec 64)) (e : Execution) : Prop where
  call : (e.body, e.stride) ∈ cs
  walk : ∀ f, e.frame = some f → OnWalk g₀ (e.body.acts g₀ e.stride) f
  /-- A flag that is not there has not been accessed yet. -/
  flags : ∀ f, e.frame = some f →
    ∀ i ∈ (code e.body.round (e.body.bound g₀ e.stride)).filterMap Instr.flag,
      i < g₀.wrflag.length ∨ i ∈ f.rest.filterMap Instr.flag

/-- Before it is entered. -/
theorem ExecOk.of_call {cs : List (Body × BitVec 64)} {c : Body × BitVec 64} (h : c ∈ cs) :
    ExecOk g₀ cs ⟨c.1, c.2, none⟩ :=
  ⟨h, (fun _ hf => nomatch hf), fun _ hf => nomatch hf⟩

/-- An execution that ends has found its flags. -/
theorem ExecOk.hasFlags {cs : List (Body × BitVec 64)} {e : Execution} (h : ExecOk g₀ cs e)
    (hfin : e.finished) : e.body.HasFlags g₀ e.stride := by
  obtain ⟨f, hf, hrest⟩ := hfin
  intro i hi
  rcases h.flags f hf i hi with hlt | hleft
  · exact hlt
  · rw [hrest] at hleft
    exact absurd hleft List.not_mem_nil

theorem ExecStep.keeps (hroom : Room size stride) (hring : RingAt addr size stride path g₀)
    {cs : List (Body × BitVec 64)} {g g' : Shared} {e e' : Execution}
    (hg : Kept addr size stride g₀ g) (he : ExecOk g₀ cs e) (h : ExecStep g e g' e') :
    Kept addr size stride g₀ g' ∧ ExecOk g₀ cs e' := by
  cases h with
  | enter =>
    refine ⟨hg, he.call, ?_, ?_⟩
    · intro f hf
      obtain rfl := Option.some.inj hf
      exact hg.begin _ _
    · intro f hf i hi
      obtain rfl := Option.some.inj hf
      rw [← hg.bound_eq] at hi
      exact .inr hi
  | access hst =>
    obtain ⟨hg', hf'⟩ := hst.keeps hroom hring hg (he.walk _ rfl)
    refine ⟨hg', he.call, ?_, ?_⟩
    · intro f hf
      obtain rfl := Option.some.inj hf
      exact hf'
    · intro f hf i hi
      obtain rfl := Option.some.inj hf
      rcases he.flags _ rfl i hi with hlt | hleft
      · exact .inl hlt
      · rw [← hg.flag_count]
        exact hst.flags i hleft

theorem calls_ok (cs : List (Body × BitVec 64)) : ∀ e ∈ (calls g₀ cs).threads, ExecOk g₀ cs e := by
  intro e he
  obtain ⟨c, hc, rfl⟩ := List.mem_map.mp he
  exact .of_call hc

theorem concurrently_ok (hroom : Room size stride) (hring : RingAt addr size stride path g₀)
    {cs : List (Body × BitVec 64)} {s : Config Shared Execution}
    (h : Reachable (concurrently g₀ cs) s) :
    Kept addr size stride g₀ s.shared ∧ ∀ e ∈ s.threads, ExecOk g₀ cs e :=
  thread_invariant (Kept addr size stride g₀) (ExecOk g₀ cs) (.refl g₀) (calls_ok cs)
    (fun _ _ _ _ hg he => ExecStep.keeps hroom hring hg he) h

/-- Each execution is one of its call. -/
theorem concurrently_calls {cs : List (Body × BitVec 64)} {s : Config Shared Execution}
    (h : Reachable (concurrently g₀ cs) s) :
    (s.threads.map fun e => (e.body, e.stride)) = cs := by
  have htags := thread_tags (fun e : Execution => (e.body, e.stride)) (by
    intro g e g' e' hst
    cases hst with
    | enter | access => rfl) h
  rw [htags, calls, List.map_map]
  exact List.map_id cs

/-- Somebody who runs alone. -/
theorem alone_ok (hroom : Room size stride) (hring : RingAt addr size stride path g₀)
    {cs : List (Body × BitVec 64)} {p q : Shared × Execution}
    (hg : Kept addr size stride g₀ p.1) (he : ExecOk g₀ cs p.2)
    (h : Reaches (alone ExecStep) p q) : Kept addr size stride g₀ q.1 ∧ ExecOk g₀ cs q.2 := by
  induction h with
  | refl => exact ⟨hg, he⟩
  | tail _ hst ih =>
    obtain ⟨_, hst⟩ := hst
    exact ExecStep.keeps hroom hring ih.1 ih.2 hst

/-- The ring is as it was set up, and all executions follow it alike. -/
structure Survives (addr size stride : BitVec 64) (g₀ : Shared) (s : Config Shared Execution) :
    Prop where
  shared_iter : s.shared.shared_iter = g₀.shared_iter
  /-- The pointers of the nodes. -/
  nodes : ∀ k < nodeCount size stride,
    s.shared.mem.load (node addr stride k) = g₀.mem.load (node addr stride k)
  /-- The pointer that `shared_iter` points to. -/
  slot : s.shared.mem.load g₀.shared_iter = g₀.mem.load g₀.shared_iter
  /-- What has been loaded from, whenever the execution was entered. -/
  sequence : ∀ e ∈ s.threads, ∀ f, e.frame = some f → loads f.trace =
    (List.range (loads f.trace).length).map fun k => g₀.mem.load^[k] g₀.shared_iter

/-- **The ring survives** any executions in any order. -/
theorem ring_survives {draws : Draws} {fuel : Nat} {g : Shared} {s : Config Shared Execution}
    (hsize : 0 < size.toNat) (hlt : size.toNat < 2 ^ 63) (hge : 16 ≤ stride.toNat)
    (hdvd : stride.toNat % 8 = 0) (hwhole : stride.toNat ∣ size.toNat)
    (hsetup : SetUp draws fuel addr size stride g g₀) (cs : List (Body × BitVec 64))
    (h : Reachable (concurrently g₀ cs) s) : Survives addr size stride g₀ s := by
  have hroom : Room size stride := ⟨hsize, by omega, hge, hdvd, hwhole⟩
  obtain ⟨path, hring⟩ := hsetup.ringAt hroom
  obtain ⟨hkept, hexecs⟩ := concurrently_ok hroom hring h
  refine ⟨hkept.iter, fun k hk => hkept.pointers k hk.le, ?_, ?_⟩
  · rw [hring.iter]
    exact hkept.pointers _ le_rfl
  · exact fun e he f hf => ((hexecs e he).walk f hf).loads

/-- A writer comes into its second iteration on four lines, and a reader
    through its first. -/
theorem mid_walk {g : Shared} (hlines : g.line_cnt 64 = 4) :
    ∃ s, Reachable (concurrently g [(.writer_, 64), (.reader_, 64)]) s ∧
      (s.threads.map fun e => e.frame.map fun f =>
        ((loads f.trace).length, (stores f.trace).length, f.rest.length)) =
          [some (2, 1, 5), some (1, 0, 3)] := by
  have hwriter : Frame.begin g .writer_ 64 = ⟨g.shared_iter, code Body.writer_.round 4, []⟩ := by
    rw [← hlines]
    rfl
  have hreader : Frame.begin g .reader_ 64 = ⟨g.shared_iter, code Body.reader_.round 4, []⟩ := by
    rw [← hlines]
    rfl
  have h0 : Reachable (concurrently g [(.writer_, 64), (.reader_, 64)])
    (calls g [(.writer_, 64), (.reader_, 64)]) := .init rfl
  have h1 := h0.step (.thread (i := 0) rfl .enter)
  have h2 : Reachable (concurrently g [(.writer_, 64), (.reader_, 64)])
      ⟨g, [⟨.writer_, 64, some (.begin g .writer_ 64)⟩,
        ⟨.reader_, 64, some (.begin g .reader_ 64)⟩]⟩ :=
    h1.step (.thread (i := 1) rfl .enter)
  rw [hwriter, hreader] at h2
  have h3 := h2.step (.thread (i := 0) rfl (.access .advance))
  have h4 := h3.step (.thread (i := 0) rfl (.access .mark))
  have h5 := h4.step (.thread (i := 1) rfl (.access .advance))
  have h6 := h5.step (.thread (i := 0) rfl (.access .advance))
  exact ⟨_, h6, rfl⟩

/-- What the writer and the reader on their way have loaded, stored and still
    to do; the ring is as it was. -/
theorem ring_survives_mid_walk :
    ∃ g s, SetUp (fun _ _ => 0) 5 4096 256 64 fourLines g ∧
      Reachable (concurrently g [(.writer_, 64), (.reader_, 64)]) s ∧
      (s.threads.map fun e => e.frame.map fun f =>
        ((loads f.trace).length, (stores f.trace).length, f.rest.length)) =
          [some (2, 1, 5), some (1, 0, 3)] ∧
      Survives 4096 256 64 g s := by
  obtain ⟨g, hsetup, hlines⟩ := setup_four_lines
  obtain ⟨s, hs, hcounts⟩ := mid_walk hlines
  exact ⟨g, s, .setup hsetup, hs, hcounts, ring_survives (by decide) (by decide) (by decide)
    (by decide) (by decide) (.setup hsetup) _ hs⟩

end

end Pcnt
