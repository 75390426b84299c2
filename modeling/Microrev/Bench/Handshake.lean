import Microrev.Lib.Transition
import Microrev.Ring.LinkedList

/-! # Producer and Consumer

    `producer_` and `consumer_` as two threads over the shared ring and the
    flags `wrflag`, one step for every atomic access, in any number of
    rounds. In each round both run once, from `shared_iter` over `line_cnt`
    lines.

    The consumer leaves the spin loop of a line as soon as it exchanges a
    nonzero flag, and the flags start out as 1: that the producer has been
    there first is not what the loop waits for. This file works out in which
    runs the handover is nevertheless in order.
-/

namespace Pcnt

open Lts

/-! ### The Two Threads -/

/-- Where `producer_` is in an iteration. -/
inductive ProducerPc where
  /-- `*( iter + 1 ) = (char*)1`, or past the loop. -/
  | payload
  /-- `iter = ( (char**)*iter )`. -/
  | advance
  /-- `__sync_fetch_and_add( &wrflag[i], -1 )`. -/
  | decrement
  deriving DecidableEq

structure Producer where
  i : Nat
  iter : BitVec 64
  pc : ProducerPc

/-- Where `consumer_` is in an iteration. -/
inductive ConsumerPc where
  /-- `while( !__sync_lock_test_and_set( &wrflag[i], 1 ) )`, or past the loop. -/
  | spin
  /-- `iter = ( (char**)*iter )`. -/
  | advance
  deriving DecidableEq

structure Consumer where
  i : Nat
  iter : BitVec 64
  pc : ConsumerPc

structure Handover where
  shared : Shared
  producer : Producer
  consumer : Consumer
  /-- History: `wrflag` when the round began. -/
  flags : List Int
  /-- History: how often the consumer has tried its current line. -/
  tries : Nat

inductive HandoverLabel where
  | payload
  | produce_advance
  | decrement
  | test_and_set
  | consume_advance
  /-- Both are through: the next round begins. -/
  | next_round
  deriving DecidableEq

/-- A round begins: both functions read `shared_iter`. -/
def Handover.begin (g : Shared) : Handover where
  shared := g
  producer := ⟨0, g.shared_iter, .payload⟩
  consumer := ⟨0, g.shared_iter, .spin⟩
  flags := g.wrflag
  tries := 0

/-- One atomic access. -/
inductive HandoverStep (stride : BitVec 64) : Handover → HandoverLabel → Handover → Prop where
  | payload {s : Handover} : s.producer.pc = .payload → s.producer.i < s.shared.line_cnt stride →
      HandoverStep stride s .payload
        { s with shared := { s.shared with mem := s.shared.mem.store (s.producer.iter + 8) 1 }
                 producer := { s.producer with pc := .advance } }
  | produce_advance {s : Handover} : s.producer.pc = .advance →
      HandoverStep stride s .produce_advance
        { s with producer :=
                  { s.producer with iter := s.shared.mem.load s.producer.iter, pc := .decrement } }
  | decrement {s : Handover} {f : Int} : s.producer.pc = .decrement →
      s.shared.wrflag[s.producer.i]? = some f →
      HandoverStep stride s .decrement
        { s with shared := { s.shared with wrflag := s.shared.wrflag.set s.producer.i (f - 1) }
                 producer := { s.producer with i := s.producer.i + 1, pc := .payload } }
  | test_and_set {s : Handover} {f : Int} : s.consumer.pc = .spin →
      s.consumer.i < s.shared.line_cnt stride → s.shared.wrflag[s.consumer.i]? = some f →
      HandoverStep stride s .test_and_set
        { s with shared := { s.shared with wrflag := s.shared.wrflag.set s.consumer.i 1 }
                 -- the loop goes on while the old value is 0
                 consumer := { s.consumer with pc := if f = 0 then .spin else .advance }
                 tries := s.tries + 1 }
  | consume_advance {s : Handover} : s.consumer.pc = .advance →
      HandoverStep stride s .consume_advance
        { s with consumer := ⟨s.consumer.i + 1, s.shared.mem.load s.consumer.iter, .spin⟩
                 tries := 0 }
  | next_round {s : Handover} : s.producer.pc = .payload → s.shared.line_cnt stride ≤ s.producer.i →
      s.consumer.pc = .spin → s.shared.line_cnt stride ≤ s.consumer.i →
      HandoverStep stride s .next_round (Handover.begin s.shared)

/-- Rounds of `producer_` and `consumer_` on the given shared data. -/
def handover (stride : BitVec 64) (g : Shared) : System Handover HandoverLabel where
  init := fun s => s = Handover.begin g
  step := HandoverStep stride

/-! ### What the Flags Mean -/

/-- How many spin loops the consumer has left in this round. -/
def Consumer.left (c : Consumer) : Nat :=
  match c.pc with
  | .spin => c.i
  | .advance => c.i + 1

/-- **Handover in order**: the consumer has left the spin loops only of lines
    that the producer has written and decremented in this round. The
    producer decrements flag `i` last in its iteration `i`. -/
def InOrder (s : Handover) : Prop := s.consumer.left ≤ s.producer.i

/-- The consumer has tried line `j` in this round. -/
def Handover.tried (s : Handover) (j : Nat) : Prop :=
  j < s.consumer.i ∨ (j = s.consumer.i ∧ 0 < s.tries)

/-- A flag that the producer has not reached in this round is 1 once the
    consumer has tried it, and what it was at the start before that. -/
structure FlagInv (s : Handover) : Prop where
  tried : ∀ j, s.producer.i ≤ j → s.tried j → ∀ f, s.shared.wrflag[j]? = some f → f = 1
  untried : ∀ j, s.producer.i ≤ j → ¬ s.tried j → s.shared.wrflag[j]? = s.flags[j]?
  advancing : s.consumer.pc = .advance → 0 < s.tries

theorem flag_inv_begin (g : Shared) : FlagInv (Handover.begin g) where
  tried j _ ht := by
    simp [Handover.tried, Handover.begin] at ht
  untried _ _ _ := rfl
  advancing := by simp [Handover.begin]

section
variable {stride : BitVec 64} {s s' : Handover} {l : HandoverLabel} {g : Shared}

theorem flag_inv_step (hinv : FlagInv s) (h : HandoverStep stride s l s') : FlagInv s' := by
  cases h with
  | payload hp _ | produce_advance hp => exact ⟨hinv.tried, hinv.untried, hinv.advancing⟩
  | @decrement f hp hf =>
    -- the producer has now reached this flag
    refine ⟨?_, ?_, hinv.advancing⟩
    · intro j hj ht fj hfj
      rw [List.getElem?_set_ne (by simp only at hj; omega)] at hfj
      exact hinv.tried j (by simp only at hj; omega) ht fj hfj
    · intro j hj ht
      rw [List.getElem?_set_ne (by simp only at hj; omega)]
      exact hinv.untried j (by simp only at hj; omega) ht
  | @test_and_set f hp hlt hf =>
    refine ⟨?_, ?_, fun _ => Nat.succ_pos _⟩
    · intro j hj ht fj hfj
      -- this try leaves a 1, whatever was there
      by_cases hji : j = s.consumer.i
      · subst hji
        simp only [List.getElem?_set_self (List.getElem?_eq_some_iff.mp hf).1,
          Option.some.injEq] at hfj
        exact hfj.symm
      · rw [List.getElem?_set_ne (Ne.symm hji)] at hfj
        refine hinv.tried j hj (.inl ?_) fj hfj
        simp only [Handover.tried] at ht
        omega
    · intro j hj ht
      simp only [Handover.tried] at ht
      rw [List.getElem?_set_ne (by omega)]
      apply hinv.untried j hj
      unfold Handover.tried
      omega
  | consume_advance hp =>
    -- a line is left after at least one try, so the same lines have been tried
    have hpos := hinv.advancing hp
    have hsame : ∀ j, (j < s.consumer.i + 1 ∨ (j = s.consumer.i + 1 ∧ 0 < 0)) ↔ s.tried j := by
      intro j
      unfold Handover.tried
      omega
    refine ⟨fun j hj ht => hinv.tried j hj ((hsame j).mp ht),
      fun j hj ht => hinv.untried j hj fun h => ht ((hsame j).mpr h), by simp⟩
  | next_round _ _ _ _ => exact flag_inv_begin s.shared

theorem flag_inv (h : Reachable (handover stride g) s) : FlagInv s := by
  refine h.invariant ?_ ?_
  · rintro s rfl
    exact flag_inv_begin g
  · intro s l s' hinv hstep
    exact flag_inv_step hinv hstep

/-! ### When the Handover is in Order -/

/-- A try in time: the producer has decremented the flag in this round; or it
    is the first try of the round and the flag was 0 when the round began, so
    that the consumer goes on spinning. All other accesses are in time. -/
def InTime (s : Handover) : HandoverLabel → Prop
  | .test_and_set => s.consumer.i < s.producer.i ∨
    (s.tries = 0 ∧ s.flags[s.consumer.i]? = some 0)
  | _ => True

/-- **Step lemma**: a step keeps the order exactly when it is in time. -/
theorem inOrder_step (hinv : FlagInv s) (hord : InOrder s) (h : HandoverStep stride s l s') :
    InOrder s' ↔ InTime s l := by
  cases h with
  | payload hp _ | produce_advance hp => exact iff_of_true hord trivial
  | decrement hp hf =>
    refine iff_of_true ?_ trivial
    unfold InOrder at hord ⊢
    exact Nat.le_succ_of_le hord
  | @test_and_set f hp hlt hf =>
    have hle : s.consumer.i ≤ s.producer.i := by
      simpa [InOrder, Consumer.left, hp] using hord
    unfold InOrder InTime
    by_cases hzero : f = 0
    · subst hzero
      apply iff_of_true (by simpa [Consumer.left] using hle)
      by_cases hreached : s.consumer.i < s.producer.i
      · exact .inl hreached
      · -- a flag of 0 that the producer has not reached has not been tried
        have hge : s.producer.i ≤ s.consumer.i := by omega
        have htries : s.tries = 0 := by
          by_contra hpos
          have := hinv.tried _ hge (.inr ⟨rfl, Nat.pos_of_ne_zero hpos⟩) 0 hf
          simp at this
        refine .inr ⟨htries, ?_⟩
        rw [← hinv.untried _ hge (by unfold Handover.tried; omega)]
        exact hf
    -- any other value lets the consumer through
    · simp only [Consumer.left, hzero, if_false]
      constructor
      · exact fun hlt' => .inl hlt'
      · rintro (hreached | ⟨htries, hflag⟩)
        · exact hreached
        · by_contra hnot
          have huntried := hinv.untried s.consumer.i (by omega) (by unfold Handover.tried; omega)
          rw [hflag, hf] at huntried
          exact hzero (Option.some.inj huntried)
  | consume_advance hp =>
    refine iff_of_true ?_ trivial
    simpa [InOrder, Consumer.left, hp] using hord
  | next_round _ _ _ _ =>
    refine iff_of_true ?_ trivial
    simp [InOrder, Consumer.left, Handover.begin]

theorem inOrder_begin (g : Shared) : InOrder (Handover.begin g) := by
  simp [InOrder, Consumer.left, Handover.begin]

/-- **Handover**: on any shared data, a run of any number of rounds hands
    over in order in all its states exactly when all its tries are in time. -/
theorem handover_in_order {steps : List (Handover × HandoverLabel)}
    (hrun : Run (handover stride g) (Handover.begin g) steps s) :
    ((∀ p ∈ steps, InOrder p.1) ∧ InOrder s) ↔ ∀ p ∈ steps, InTime p.1 p.2 := by
  refine Run.all_iff ?_ hrun (.init rfl) (inOrder_begin g)
  intro s l s' hr hord hstep
  exact inOrder_step (flag_inv hr) hord hstep

/-- A flag that is not 0 lets the consumer through at once. -/
theorem early_exit {f : Int} (hlines : 0 < g.line_cnt stride) (hflag : g.wrflag[0]? = some f)
    (hf : f ≠ 0) : ∃ s, Reachable (handover stride g) s ∧ ¬ InOrder s := by
  have hstart : Reachable (handover stride g) (Handover.begin g) := .init rfl
  refine ⟨_, hstart.step (.test_and_set rfl hlines hflag), ?_⟩
  simp [InOrder, Consumer.left, Handover.begin, hf]

end

/-- On one line whose flag is 1, the producer goes first and the consumer
    leaves its spin loop at its second try. -/
theorem producer_first {g : Shared} (hlines : 0 < g.line_cnt 64) (hflag : g.wrflag = [1]) :
    ∃ steps s, Run (handover 64 g) (Handover.begin g) steps s ∧ s.consumer.left = 1 ∧
      ∀ p ∈ steps, InTime p.1 p.2 := by
  have h0 : Run (handover 64 g) (Handover.begin g) [] _ := .nil _
  have h1 := h0.snoc (.payload rfl hlines)
  have h2 := h1.snoc (.produce_advance rfl)
  have h3 := h2.snoc (.decrement rfl (show g.wrflag[0]? = some 1 by rw [hflag]; rfl))
  have h4 := h3.snoc (.test_and_set rfl hlines (show (g.wrflag.set 0 0)[0]? = some 0 by
    rw [hflag]; rfl))
  have h5 := h4.snoc (.test_and_set rfl hlines (show ((g.wrflag.set 0 0).set 0 1)[0]? = some 1 by
    rw [hflag]; rfl))
  exact ⟨_, _, h5, rfl, by simp [InTime, Handover.begin]⟩

/-- One line, and a round in which the producer goes first. -/
theorem handover_in_order_producer_first :
    ∃ g s steps, pr_co_setup (fun _ _ => 0) 100 4096 64 64 oneLine = some g ∧
      Run (handover 64 g) (Handover.begin g) steps s ∧ s.consumer.left = 1 ∧ InOrder s := by
  obtain ⟨g, hsetup, hlines, hflag⟩ := pr_co_setup_one_line
  obtain ⟨steps, s, hrun, hleft, htime⟩ := producer_first hlines hflag
  exact ⟨g, s, steps, hsetup, hrun, hleft, ((handover_in_order hrun).mpr htime).2⟩

/-- One line, first round: the consumer gets past its spin loop before the
    producer has done anything. -/
theorem consumer_overtakes :
    ∃ g, pr_co_setup (fun _ _ => 0) 100 4096 64 64 oneLine = some g ∧
      ¬ ∀ s, Reachable (handover 64 g) s → InOrder s := by
  obtain ⟨g, hsetup, hlines, hflag⟩ := pr_co_setup_one_line
  refine ⟨g, hsetup, ?_⟩
  intro hall
  obtain ⟨s, hs, hbad⟩ := early_exit (f := 1) hlines (by rw [hflag]; rfl) (by decide)
  exact hbad (hall s hs)

end Pcnt
