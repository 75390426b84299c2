import Microrev.Log.Labelled
import Microrev.Ring.InPlace

/-! # The Read Latency Benchmark (`rd_latency.cpp`)

    The measuring part of `time_rd_latency` is commented out: a call builds
    the ring in the global array and measures nothing. Without events and
    without times there is nothing to print either, so in every interleaving
    the benchmark ends with its ring in place, and nothing in the log.
-/

namespace Pcnt

open Lts Text

namespace RdLatency

/-! ### The Program -/

/-- `malloc` gives an address that depends on the process; there is fuel for
    all rounds. -/
def time_rd_latency (draws : Draws) (arr : BitVec 64) (malloc : World → BitVec 64)
    (size stride : BitVec 64) : Op World PAPILLCounter := fun wc =>
  match init_stride draws (size.toNat + 1) wc.1.shared.mem arr (malloc wc.1) size stride with
  | some (mem, _) => ({ wc.1 with shared := { wc.1.shared with mem := mem } }, wc.2)
  | none => wc

/-- `cbench.counters_with_priority_schedule( vec, 0 )`, where `arr` is what
    `main` has allocated. -/
def call (draws : Draws) (arr : BitVec 64) (malloc : World → BitVec 64) :
    Call World PAPILLCounter (List Text) where
  kind := .priority
  svec := [⟨1, time_rd_latency draws arr malloc 131072 64, [], "128KB"⟩]
  warmup := 0

section
variable {papi : Papi} {draws : Draws} {arr : BitVec 64} {malloc : World → BitVec 64} {w : World}
variable {s : State World PAPILLCounter (List Text)} {counters : List PAPILLCounter}

/-! ### The Run -/

/-- The body does nothing to its counter, nor to the log. -/
theorem time_rd_latency_quiet (size stride : BitVec 64) (wc : World × PAPILLCounter) :
    (time_rd_latency draws arr malloc size stride wc).2 = wc.2 ∧
      (time_rd_latency draws arr malloc size stride wc).1.dump = wc.1.dump := by
  unfold time_rd_latency
  split <;> exact ⟨rfl, rfl⟩

/-- Nothing to print. -/
theorem stats_silent {pc : PAPILLCounter} (hset : pc.cset = []) (hvec : pc.vec_cycles_measured = [])
    (w : World) : statsCalls papi [pc] w = w := by
  show (PAPILLCounter.stats papi (w, pc)).1 = w
  unfold PAPILLCounter.stats PAPILLCounter.stats_to_stream
  rw [if_pos ⟨by rw [hset]; rfl, by rw [hvec]; rfl⟩]
  simp

/-- A schedule without events, whose body leaves the counter alone. -/
theorem series_one (papi : Papi) {op : Op World PAPILLCounter}
    (hquiet : ∀ wc, (op wc).2 = wc.2) (core_id : Int) (label : String) (w : World) :
    ∃ pc : PAPILLCounter,
      pc.cset = [] ∧ pc.vec_cycles_measured = [] ∧
      series (papiApi papi) 0 [⟨core_id, op, [], label⟩] w = ((op (w, pc)).1, [pc]) := by
  refine ⟨{ PAPILLCounter.make with core_id := core_id, label := label }, rfl, rfl, ?_⟩
  simp [series, counter_thread_fn, addEvents, papiApi, freshCounter, PAPILLCounter.add,
    PAPILLCounter.make, PAPILLCounter.reset, PAPILLCounter.end_, hquiet]

/-- A benchmark that takes no times leaves behind what its body has done. -/
theorem silent_run {op : Op World PAPILLCounter} (hquiet : ∀ wc, (op wc).2 = wc.2) {core_id : Int}
    {label : String}
    (h : Reachable (harness (papiApi papi) [⟨.priority, [⟨core_id, op, [], label⟩], 0⟩] w) s)
    (hidle : s.pc = .idle) (htodo : s.todo = []) (hret : s.returned = [counters]) :
    ∃ pc, statsCalls papi counters s.world = (op (w, pc)).1 := by
  obtain ⟨hworld, hreturned⟩ := series_called rfl h hidle htodo
  obtain ⟨pc, hset, hvec, hseries⟩ := series_one papi hquiet core_id label w
  rw [hseries] at hworld hreturned
  have hcounters : [pc] = counters := (List.cons.inj (hreturned.symm.trans hret)).1
  exact ⟨pc, by rw [← hcounters, stats_silent hset hvec, ← hworld]⟩

/-- The ring that the body leaves. -/
theorem time_rd_latency_ring {size stride : BitVec 64} (hroom : Room size stride)
    (hsmall : size.toNat < 2 ^ 31) (wc : World × PAPILLCounter)
    (hapart : ∀ b : BitVec 64, (b - arr).toNat < size.toNat →
      size.toNat + 8 ≤ (b - malloc wc.1).toNat) :
    InPlaceRing (time_rd_latency draws arr malloc size stride wc).1.shared.mem arr size stride := by
  obtain ⟨mem, hrun, hring⟩ := init_stride_ring draws hroom hsmall wc.1.shared.mem arr
    (malloc wc.1) hapart (Nat.lt_succ_self size.toNat)
  unfold time_rd_latency
  rw [hrun]
  exact hring

/-- **A silent benchmark**: whatever the threads do, the array is a ring when
    `main` ends, and the log is what it was. -/
theorem main_silent (h : Reachable (harness (papiApi papi) [call draws arr malloc] w) s)
    (hidle : s.pc = .idle) (htodo : s.todo = []) (hret : s.returned = [counters])
    (hapart : ∀ b : BitVec 64, (b - arr).toNat < 131072 → 131072 + 8 ≤ (b - malloc w).toNat) :
    (statsCalls papi counters s.world).dump = w.dump ∧
      InPlaceRing (statsCalls papi counters s.world).shared.mem arr 131072 64 := by
  have hquiet : ∀ wc, (time_rd_latency draws arr malloc 131072 64 wc).2 = wc.2 :=
    fun wc => (time_rd_latency_quiet 131072 64 wc).1
  obtain ⟨pc, hfinal⟩ := silent_run hquiet h hidle htodo hret
  rw [hfinal]
  constructor
  · exact (time_rd_latency_quiet 131072 64 (w, pc)).2
  · have hsize : (131072 : BitVec 64).toNat = 131072 := by decide
    have hroom : Room (131072 : BitVec 64) 64 :=
      .of_sixteen (by decide) (by decide) (Nat.dvd_of_mod_eq_zero (by decide))
    apply time_rd_latency_ring hroom
    · rw [hsize]
      decide
    · intro b hb
      rw [hsize] at hb ⊢
      exact hapart b hb

end

/-- An array at 4096, and a list at 262144. -/
theorem far_apart (b : BitVec 64) (hb : (b - 4096).toNat < 131072) :
    131072 + 8 ≤ (b - 262144).toNat := by
  have hlt := b.isLt
  have harr : (4096 : BitVec 64).toNat = 4096 := by decide
  have hlist : (262144 : BitVec 64).toNat = 262144 := by decide
  rw [BitVec.toNat_sub, harr] at hb
  rw [BitVec.toNat_sub, hlist]
  omega

theorem main_silent_apart : ∃ s counters,
    Reachable (harness (papiApi plainPapi) [call (fun _ _ => 0) 4096 fun _ => 262144]
        (coldStart oneLine)) s ∧ s.returned = [counters] ∧
      (statsCalls plainPapi counters s.world).dump = [] ∧
      InPlaceRing (statsCalls plainPapi counters s.world).shared.mem 4096 131072 64 := by
  have hk : (call (fun _ _ => 0) 4096 fun _ => 262144).kind = .priority := rfl
  obtain ⟨s, hs, hidle, htodo, hret⟩ := series_returns (papiApi plainPapi) hk (coldStart oneLine)
  obtain ⟨hdump, hring⟩ := main_silent hs hidle htodo hret far_apart
  exact ⟨s, _, hs, hret, hdump, hring⟩

end RdLatency

end Pcnt
