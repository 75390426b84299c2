import Microrev.Bench.Counter

/-! # Benchmark Bodies (`BENCHMARK_INIT`)

    `flusher`, `reader`, `writer`, `producer` and `consumer`, executed by one
    core at a time, as the harness runs them. Accesses to the shared data go
    through the caches; those to `wrflag` and to local variables do not, they
    are to other lines.
-/

namespace Pcnt

open Loop Coherence

/-! ### Accesses -/

/-- Lines have 64 bytes. -/
def lineOf (a : BitVec 64) : BitVec 64 := a >>> 6

/-- The lines of the word at `a`: of its first and of its last byte. -/
def wordLines (a : BitVec 64) : List (BitVec 64) := [lineOf a, lineOf (a + 7)]

section
variable (cores : Finset Int) (core : Int)

/-- `core` accesses the caches. -/
def World.access (as : List (Access (BitVec 64))) (w : World) : World :=
  { w with cache := accesses cores core w.cache as }

/-- `*p`. -/
def World.loadWord (p : BitVec 64) (w : World) : BitVec 64 × World :=
  (w.shared.mem.load p, w.access cores core ((wordLines p).map .load))

/-- `*p = v`. -/
def World.storeWord (p v : BitVec 64) (w : World) : World :=
  { w.access cores core ((wordLines p).map .store) with
    shared := { w.shared with mem := w.shared.mem.store p v } }

/-- `_mm_clflush( p )`. -/
def World.clflush (p : BitVec 64) (w : World) : World :=
  w.access cores core [.flush (lineOf p)]

/-- Replace the flag of line `i`. -/
def World.setFlag (i : Nat) (f : Int) (w : World) : World :=
  { w with shared := { w.shared with wrflag := w.shared.wrflag.set i f } }

/-! ### Bodies -/

/-- What the four timed bodies have in common: between `start` and `read`
    the section `f` runs, and gives the value to be pushed. -/
def sample (f : World → World × BitVec 64) : Op World PAPILLCounter := fun wc =>
  let wc := PAPILLCounter.start wc
  let r := f wc.1
  let wc := PAPILLCounter.read (r.1, wc.2)
  (wc.1, wc.2.push_cycles r.2)

/-- The local variable `iter`, and the process. -/
structure Chase where
  iter : BitVec 64
  world : World

/-- `iter = shared_iter`. -/
def Chase.begin (w : World) : Chase := ⟨w.shared.shared_iter, w⟩

/-- `iter = ( (char**)*iter )`. -/
def Chase.advance (s : Chase) : Chase :=
  let r := s.world.loadWord cores core s.iter
  ⟨r.1, r.2⟩

/-- `*( iter + 1 ) = (char*)1`. -/
def Chase.mark (s : Chase) : Chase :=
  { s with world := s.world.storeWord cores core (s.iter + 8) 1 }

def flusher_ : Op World PAPILLCounter := fun wc =>
  let base := wc.1.shared.shared_data
  (upTo (fun i w => w.clflush cores core (base + BitVec.ofNat 64 i))
    wc.1.shared.shared_data_size.toNat wc.1, wc.2)

def reader_ (stride : BitVec 64) : Op World PAPILLCounter := sample fun w =>
  let start := w.rdtsc
  let s := upTo (fun _ => Chase.advance cores core) (w.shared.line_cnt stride)
    (.begin start.2)
  let finish := s.world.rdtsc
  (finish.2, finish.1 - start.1)

def writer_round (s : Chase) : Chase := (s.advance cores core).mark cores core

def writer_ (stride : BitVec 64) : Op World PAPILLCounter := sample fun w =>
  let start := w.rdtsc
  let s := upTo (fun _ => writer_round cores core) (w.shared.line_cnt stride) (.begin start.2)
  let finish := s.world.rdtsc
  (finish.2, finish.1 - start.1)

/-- `__sync_fetch_and_add( &wrflag[i], -1 )`, on a flag that is there: callers
    have to provide one for every line. -/
def decrementFlag (i : Nat) (w : World) : World :=
  match w.shared.wrflag[i]? with
  | some f => w.setFlag i (f - 1)
  | none => w

def producer_round (i : Nat) (s : Chase) : Chase :=
  let s := (s.mark cores core).advance cores core
  { s with world := decrementFlag i s.world }

def producer_ (stride : BitVec 64) : Op World PAPILLCounter := sample fun w =>
  let start := w.rdtsc
  let s := upTo (producer_round cores core) (w.shared.line_cnt stride) (.begin start.2)
  (s.world, start.1)

/-- `while( !__sync_lock_test_and_set( &wrflag[i], 1 ) )`, for at most `fuel`
    exchanges. -/
def spin (i : Nat) : Nat → World → Option World
  | 0, _ => none
  | fuel + 1, w =>
    match w.shared.wrflag[i]? with
    | some f => if f = 0 then spin i fuel (w.setFlag i 1) else some (w.setFlag i 1)
    | none => none

/-- The first exchange leaves a 1 there, so with nobody else running the
    second one ends the loop. -/
theorem spin_ends {i : Nat} {w : World} (h : i < w.shared.wrflag.length) (fuel : Nat) :
    spin i (fuel + 2) w = some (w.setFlag i 1) := by
  have hset : (w.setFlag i 1).setFlag i 1 = w.setFlag i 1 := by
    simp [World.setFlag]
  have hone : (w.setFlag i 1).shared.wrflag[i]? = some 1 := by
    simp [World.setFlag, h]
  obtain ⟨f, hf⟩ : ∃ f, w.shared.wrflag[i]? = some f := ⟨_, List.getElem?_eq_getElem h⟩
  by_cases h0 : f = 0
  · simp [spin, hf, h0, hone, hset]
  · simp [spin, hf, h0]

/-- On a flag that is there two exchanges are enough, by `spin_ends`. -/
def consumer_round (i : Nat) (s : Chase) : Chase :=
  Chase.advance cores core { s with world := (spin i 2 s.world).getD s.world }

def consumer_ (stride : BitVec 64) : Op World PAPILLCounter := sample fun w =>
  let s := upTo (consumer_round cores core) (w.shared.line_cnt stride) (.begin w)
  let finish := s.world.rdtsc
  (finish.2, finish.1)

def producer : Op World PAPILLCounter := fun wc =>
  producer_ cores core wc.1.shared.cache_line_size wc

def consumer : Op World PAPILLCounter := fun wc =>
  consumer_ cores core wc.1.shared.cache_line_size wc

def reader : Op World PAPILLCounter := fun wc =>
  reader_ cores core wc.1.shared.cache_line_size wc

def writer : Op World PAPILLCounter := fun wc =>
  writer_ cores core wc.1.shared.cache_line_size wc

def flusher : Op World PAPILLCounter := flusher_ cores core

/-! ### What Bodies Do to Counters and Log -/

variable {cores core}

theorem read_measured (wc : World × PAPILLCounter) (h : wc.2.cset ≠ []) :
    (PAPILLCounter.read wc).2.measured.length = wc.2.cset.length := by
  unfold PAPILLCounter.read
  rw [if_pos (List.length_pos_of_ne_nil h)]
  simp

theorem read_vec (wc : World × PAPILLCounter) :
    (PAPILLCounter.read wc).2.vec_cycles_measured = wc.2.vec_cycles_measured := by
  unfold PAPILLCounter.read
  split <;> rfl

theorem measures_sample {f : World → World × BitVec 64} (h : ∀ w, (f w).1.dump = w.dump) :
    Measures (sample f) where
  dump wc := (keeps_read.dump _).trans (h wc.1)
  cset wc := keeps_read.cset _
  label wc := keeps_read.label _
  cycles wc := keeps_read.cycles _
  vec wc := by
    refine ⟨(f wc.1).2, ?_⟩
    show (PAPILLCounter.read ((f wc.1).1, wc.2)).2.vec_cycles_measured ++ _ = _
    rw [read_vec]
    rfl
  measured wc hne := read_measured ((f wc.1).1, wc.2) hne

/-- The clock and the counts are not shared data. -/
theorem sample_world {f : World → World × BitVec 64} {wc : World × PAPILLCounter} :
    (sample f wc).1.shared = (f wc.1).1.shared ∧ (sample f wc).1.cache = (f wc.1).1.cache := by
  show (PAPILLCounter.read ((f wc.1).1, wc.2)).1.shared = _ ∧
    (PAPILLCounter.read ((f wc.1).1, wc.2)).1.cache = _
  unfold PAPILLCounter.read
  split <;> exact ⟨rfl, rfl⟩

/-- A loop whose rounds do not print. -/
theorem upTo_dump {n : Nat} {body : Nat → Chase → Chase} {s : Chase}
    (h : ∀ k s, (body k s).world.dump = s.world.dump) :
    (upTo body n s).world.dump = s.world.dump :=
  upTo_spec (fun _ t => t.world.dump = s.world.dump) (fun k t _ ht => (h k t).trans ht) rfl

theorem decrementFlag_dump (i : Nat) (w : World) : (decrementFlag i w).dump = w.dump := by
  unfold decrementFlag
  split <;> rfl

theorem spin_dump {i fuel : Nat} {w w' : World} (h : spin i fuel w = some w') :
    w'.dump = w.dump := by
  induction fuel generalizing w with
  | zero => simp [spin] at h
  | succ fuel ih =>
    unfold spin at h
    split at h
    · split at h
      · have hrest : w'.dump = (w.setFlag i 1).dump := ih h
        exact hrest
      · rw [← Option.some.inj h]
        rfl
    · simp at h

theorem keeps_flusher : Keeps (flusher cores core) where
  dump wc := upTo_spec (fun _ (w : World) => w.dump = wc.1.dump) (fun _ _ _ h => h) rfl
  cset _ := rfl
  label _ := rfl
  cycles _ := rfl

theorem measures_reader_ (stride : BitVec 64) : Measures (reader_ cores core stride) :=
  measures_sample fun _ => upTo_dump fun _ _ => rfl

theorem measures_writer_ (stride : BitVec 64) : Measures (writer_ cores core stride) :=
  measures_sample fun _ => upTo_dump fun _ _ => rfl

theorem measures_producer_ (stride : BitVec 64) : Measures (producer_ cores core stride) :=
  measures_sample fun _ => upTo_dump fun _ _ => decrementFlag_dump _ _

theorem measures_consumer_ (stride : BitVec 64) : Measures (consumer_ cores core stride) :=
  measures_sample fun _ => upTo_dump fun i s => by
    show ((spin i 2 s.world).getD s.world).dump = s.world.dump
    cases h : spin i 2 s.world with
    | none => rfl
    | some w => exact spin_dump h

/-- A body whose stride is read from the process. -/
theorem Measures.at_stride {body : BitVec 64 → Op World PAPILLCounter}
    (h : ∀ stride, Measures (body stride)) :
    Measures fun wc => body wc.1.shared.cache_line_size wc where
  dump wc := (h _).dump wc
  cset wc := (h _).cset wc
  label wc := (h _).label wc
  cycles wc := (h _).cycles wc
  vec wc := (h _).vec wc
  measured wc := (h _).measured wc

theorem measures_reader : Measures (reader cores core) := .at_stride measures_reader_

theorem measures_writer : Measures (writer cores core) := .at_stride measures_writer_

theorem measures_producer : Measures (producer cores core) := .at_stride measures_producer_

theorem measures_consumer : Measures (consumer cores core) := .at_stride measures_consumer_

end

end Pcnt
