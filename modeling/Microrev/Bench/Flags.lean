import Microrev.Bench.Handshake

/-! # Flags over Many Rounds

    `wrflag` is never cleared between rounds: the producer decrements each
    flag once in a round, whatever it finds, the consumer overwrites it with
    1 at every try, and the next round starts with what is left. This file
    shows that the flags nevertheless stay between -1 and 1, and that the
    consumer gets past every line at its third try at the latest.
-/

namespace Pcnt

open Lts

/-! ### The Range of a Flag -/

/-- Both functions are through with their lines. -/
def Handover.RoundOver (stride : BitVec 64) (s : Handover) : Prop :=
  s.producer.pc = .payload ∧ s.shared.line_cnt stride ≤ s.producer.i ∧
    s.consumer.pc = .spin ∧ s.shared.line_cnt stride ≤ s.consumer.i

/-- What `FlagInv` leaves open: flags that the producer has decremented in
    this round, and the number of tries. -/
structure RangeInv (n : Nat) (s : Handover) : Prop where
  flags_length : s.flags.length = n
  length : s.shared.wrflag.length = n
  flags : ∀ f ∈ s.flags, f = 0 ∨ f = 1
  tried : ∀ j < s.producer.i, s.tried j → ∀ f, s.shared.wrflag[j]? = some f → f = 0 ∨ f = 1
  untried : ∀ j < s.producer.i, ¬ s.tried j →
    s.shared.wrflag[j]? = s.flags[j]?.map (· - 1)
  spinning : s.consumer.pc = .spin → s.tries ≤ 2
  /-- The second try has left a 1 behind the decrement. -/
  twice : s.consumer.pc = .spin → s.tries = 2 →
    s.consumer.i < s.producer.i ∧ s.shared.wrflag[s.consumer.i]? = some 1
  advancing : s.tries ≤ 3

section
variable {stride : BitVec 64} {s s' : Handover} {l : HandoverLabel} {g : Shared} {n : Nat}

/-- A round begins with flags of 0 and 1. -/
theorem range_inv_begin (hlen : g.wrflag.length = n) (hflags : ∀ f ∈ g.wrflag, f = 0 ∨ f = 1) :
    RangeInv n (Handover.begin g) where
  flags_length := hlen
  length := hlen
  flags := hflags
  tried j hj := absurd hj (Nat.not_lt_zero j)
  untried j hj := absurd hj (Nat.not_lt_zero j)
  spinning _ := Nat.zero_le 2
  twice _ htwo := absurd htwo (by simp [Handover.begin])
  advancing := Nat.zero_le 3

/-- A flag is between -1 and 1. -/
theorem RangeInv.range (hflag : FlagInv s) (h : RangeInv n s) :
    ∀ f ∈ s.shared.wrflag, f = -1 ∨ f = 0 ∨ f = 1 := by
  intro f hf
  obtain ⟨j, hj⟩ := List.mem_iff_getElem?.mp hf
  by_cases hdone : j < s.producer.i
  · by_cases ht : s.tried j
    · exact .inr (h.tried j hdone ht f hj)
    · rw [h.untried j hdone ht, Option.map_eq_some_iff] at hj
      obtain ⟨v, hv, rfl⟩ := hj
      have hv := h.flags v (List.mem_of_getElem? hv)
      omega
  · by_cases ht : s.tried j
    · exact .inr (.inr (hflag.tried j (by omega) ht f hj))
    · rw [hflag.untried j (by omega) ht] at hj
      exact .inr (h.flags f (List.mem_of_getElem? hj))

/-- At the end of a round all flags have been tried and decremented. -/
theorem RangeInv.round_over (h : RangeInv n s) (hover : s.RoundOver stride)
    (hn : s.shared.line_cnt stride = n) : ∀ f ∈ s.shared.wrflag, f = 0 ∨ f = 1 := by
  intro f hf
  obtain ⟨j, hj⟩ := List.mem_iff_getElem?.mp hf
  obtain ⟨-, hprod, -, hcons⟩ := hover
  obtain ⟨hlt, -⟩ := List.getElem?_eq_some_iff.mp hj
  have hlen := h.length
  exact h.tried j (by omega) (.inl (by omega)) f hj

/-- The producer decrements the flag it has come to. -/
theorem range_inv_decrement (hflag : FlagInv s) (h : RangeInv n s) {f : Int}
    (hf : s.shared.wrflag[s.producer.i]? = some f) :
    RangeInv n
      { s with shared := { s.shared with wrflag := s.shared.wrflag.set s.producer.i (f - 1) }
               producer := { s.producer with i := s.producer.i + 1, pc := .payload } } := by
  have hlt : s.producer.i < s.shared.wrflag.length := (List.getElem?_eq_some_iff.mp hf).1
  constructor
  case flags_length => exact h.flags_length
  case length => simpa using h.length
  case flags => exact h.flags
  case tried =>
    intro j hj ht f' hf'
    rcases Nat.lt_succ_iff_lt_or_eq.mp hj with hlt' | rfl
    · rw [List.getElem?_set_ne (Nat.ne_of_gt hlt')] at hf'
      exact h.tried j hlt' ht f' hf'
    · -- it has been tried, so it was 1
      have hone := hflag.tried _ le_rfl ht f hf
      simp only [List.getElem?_set_self hlt, Option.some.injEq] at hf'
      omega
  case untried =>
    intro j hj ht
    rcases Nat.lt_succ_iff_lt_or_eq.mp hj with hlt' | rfl
    · rw [List.getElem?_set_ne (Nat.ne_of_gt hlt')]
      exact h.untried j hlt' ht
    · have hsame := hflag.untried _ le_rfl ht
      rw [List.getElem?_set_self hlt, ← hsame, hf]
      rfl
  case spinning => exact h.spinning
  case twice =>
    intro hp htwo
    obtain ⟨hreached, hone⟩ := h.twice hp htwo
    refine ⟨Nat.lt_succ_of_lt hreached, ?_⟩
    show (s.shared.wrflag.set s.producer.i (f - 1))[s.consumer.i]? = some 1
    rw [List.getElem?_set_ne (Nat.ne_of_gt hreached)]
    exact hone
  case advancing => exact h.advancing

/-- The consumer tries its line. It spins on after a 0 only: at its first
    try, or at its second one if the producer came in between. -/
theorem range_inv_test_and_set (hflag : FlagInv s) (h : RangeInv n s) {f : Int}
    (hp : s.consumer.pc = .spin) (hf : s.shared.wrflag[s.consumer.i]? = some f) :
    RangeInv n
      { s with shared := { s.shared with wrflag := s.shared.wrflag.set s.consumer.i 1 }
               consumer := { s.consumer with pc := if f = 0 then .spin else .advance }
               tries := s.tries + 1 } := by
  have hlt : s.consumer.i < s.shared.wrflag.length := (List.getElem?_eq_some_iff.mp hf).1
  have hspin := h.spinning hp
  -- a 0 after a try was left by a decrement, and it is no third try
  have hzero : f = 0 → 0 < s.tries → s.tries = 1 ∧ s.consumer.i < s.producer.i := by
    rintro rfl hpos
    have htried : s.tried s.consumer.i := .inr ⟨rfl, hpos⟩
    constructor
    · by_contra hne
      obtain ⟨-, hone⟩ := h.twice hp (by omega)
      rw [hf] at hone
      simp at hone
    · by_contra hge
      have := hflag.tried _ (by omega) htried 0 hf
      simp at this
  have hkeep : ∀ j, j ≠ s.consumer.i →
      ((j < s.consumer.i ∨ (j = s.consumer.i ∧ 0 < s.tries + 1)) ↔ s.tried j) := by
    intro j hne
    unfold Handover.tried
    omega
  constructor
  case flags_length => exact h.flags_length
  case length => simpa using h.length
  case flags => exact h.flags
  case tried =>
    intro j hj ht f' hf'
    by_cases hji : j = s.consumer.i
    · subst hji
      simp only [List.getElem?_set_self hlt, Option.some.injEq] at hf'
      exact .inr hf'.symm
    · rw [List.getElem?_set_ne (Ne.symm hji)] at hf'
      exact h.tried j hj ((hkeep j hji).mp ht) f' hf'
  case untried =>
    intro j hj ht
    have hji : j ≠ s.consumer.i := fun heq => ht (.inr ⟨heq, Nat.succ_pos _⟩)
    rw [List.getElem?_set_ne (Ne.symm hji)]
    exact h.untried j hj fun htried => ht ((hkeep j hji).mpr htried)
  case spinning =>
    intro hpc
    have hf0 : f = 0 := by
      by_contra hne
      simp [hne] at hpc
    show s.tries + 1 ≤ 2
    rcases Nat.eq_zero_or_pos s.tries with hnone | hpos
    · omega
    · have := hzero hf0 hpos
      omega
  case twice =>
    intro hpc htwo
    have hf0 : f = 0 := by
      by_contra hne
      simp [hne] at hpc
    have htries : s.tries + 1 = 2 := htwo
    refine ⟨(hzero hf0 (by omega)).2, ?_⟩
    show (s.shared.wrflag.set s.consumer.i 1)[s.consumer.i]? = some 1
    rw [List.getElem?_set_self hlt]
  case advancing =>
    show s.tries + 1 ≤ 3
    omega

/-- The consumer goes on to the next line. -/
theorem range_inv_advance (hflag : FlagInv s) (h : RangeInv n s)
    (hp : s.consumer.pc = .advance) :
    RangeInv n
      { s with consumer := ⟨s.consumer.i + 1, s.shared.mem.load s.consumer.iter, .spin⟩
               tries := 0 } := by
  have hpos := hflag.advancing hp
  have hsame : ∀ j, (j < s.consumer.i + 1 ∨ (j = s.consumer.i + 1 ∧ 0 < 0)) ↔ s.tried j := by
    intro j
    unfold Handover.tried
    omega
  exact
    { flags_length := h.flags_length
      length := h.length
      flags := h.flags
      tried := fun j hj ht => h.tried j hj ((hsame j).mp ht)
      untried := fun j hj ht => h.untried j hj fun htried => ht ((hsame j).mpr htried)
      spinning := fun _ => Nat.zero_le 2
      twice := fun _ htwo => absurd htwo (by simp)
      advancing := Nat.zero_le 3 }

theorem range_inv_step (hn : s.shared.line_cnt stride = n) (hflag : FlagInv s)
    (h : RangeInv n s) (hstep : HandoverStep stride s l s') : RangeInv n s' := by
  cases hstep with
  | payload _ _ | produce_advance _ =>
    exact ⟨h.flags_length, h.length, h.flags, h.tried, h.untried, h.spinning, h.twice,
      h.advancing⟩
  | decrement _ hf => exact range_inv_decrement hflag h hf
  | test_and_set hp _ hf => exact range_inv_test_and_set hflag h hp hf
  | consume_advance hp => exact range_inv_advance hflag h hp
  | next_round hpp hpi hcp hci =>
    exact range_inv_begin h.length (h.round_over ⟨hpp, hpi, hcp, hci⟩ hn)

/-- The number of lines does not change. -/
theorem line_cnt_step (hstep : HandoverStep stride s l s') :
    s'.shared.line_cnt stride = s.shared.line_cnt stride := by
  cases hstep <;> rfl

theorem line_cnt_eq (h : Reachable (handover stride g) s) :
    s.shared.line_cnt stride = g.line_cnt stride := by
  induction h with
  | init h0 => rw [h0]; rfl
  | step _ hstep ih => rw [line_cnt_step hstep, ih]

theorem range_inv (hlen : g.wrflag.length = g.line_cnt stride)
    (hflags : ∀ f ∈ g.wrflag, f = 0 ∨ f = 1) (h : Reachable (handover stride g) s) :
    RangeInv (g.line_cnt stride) s := by
  have hknown : ∀ s, Reachable (handover stride g) s →
      FlagInv s ∧ s.shared.line_cnt stride = g.line_cnt stride := fun s hs =>
    ⟨flag_inv hs, line_cnt_eq hs⟩
  refine h.invariant_of hknown ?_ ?_
  · rintro s rfl
    exact range_inv_begin hlen hflags
  · rintro s l s' ⟨hflag, hn⟩ hinv hstep
    exact range_inv_step hn hflag hinv hstep

/-! ### Rounds after `pr_co_setup` -/

/-- What holds of the flags and of the consumer at any time. -/
structure FlagsOk (stride : BitVec 64) (s : Handover) : Prop where
  range : ∀ f ∈ s.shared.wrflag, f = -1 ∨ f = 0 ∨ f = 1
  round_over : s.RoundOver stride → ∀ f ∈ s.shared.wrflag, f = 0 ∨ f = 1
  /-- No line takes more than three tries. -/
  tries : s.tries ≤ 3
  /-- While the consumer is still in a spin loop it has tried twice at most,
      and it can try again. -/
  spinning : s.consumer.pc = .spin → s.consumer.i < s.shared.line_cnt stride →
    s.tries ≤ 2 ∧ ∃ s', HandoverStep stride s .test_and_set s'

/-- **Flags stay in range**: in any number of rounds after `pr_co_setup`
    every flag is between -1 and 1, it is 0 or 1 at the end of a round, and
    the consumer leaves every spin loop at its third try at the latest. -/
theorem flags_stay_in_range {draws : Draws} {fuel : Nat} {addr : BitVec 64} {g g' : Shared}
    (hsetup : pr_co_setup draws fuel addr g.shared_data_size stride g = some g')
    (h : Reachable (handover stride g') s) : FlagsOk stride s := by
  have hflags : g'.wrflag = List.replicate (g'.line_cnt stride) 1 := by
    obtain ⟨hflags, hsize⟩ := pr_co_setup_flags hsetup
    rw [hflags, Shared.line_cnt, hsize]
  have hrange := range_inv (by rw [hflags, List.length_replicate]) (by
    intro f hf
    rw [hflags] at hf
    exact .inr (List.eq_of_mem_replicate hf)) h
  have hlines := line_cnt_eq h
  constructor
  case range => exact hrange.range (flag_inv h)
  case round_over => exact fun hover => hrange.round_over hover hlines
  case tries => exact hrange.advancing
  case spinning =>
    intro hp hi
    have hlt : s.consumer.i < s.shared.wrflag.length := by
      rw [hrange.length, ← hlines]
      exact hi
    exact ⟨hrange.spinning hp, _, .test_and_set hp hi (List.getElem?_eq_getElem hlt)⟩

/-! ### Rounds End -/

/-- `fs` is `gs` with `F` applied to the first `k` flags. -/
def Replaced (F : Int → Int) (gs : List Int) (k : Nat) (fs : List Int) : Prop :=
  ∀ j, fs[j]? = if j < k then gs[j]?.map F else gs[j]?

theorem Replaced.refl (F : Int → Int) (gs : List Int) : Replaced F gs 0 gs := fun _ => rfl

section
variable {F : Int → Int} {gs fs : List Int} {k : Nat}

theorem Replaced.get (h : Replaced F gs k fs) : fs[k]? = gs[k]? := by
  rw [h, if_neg (Nat.lt_irrefl k)]

theorem Replaced.next (h : Replaced F gs k fs) {f : Int} (hf : fs[k]? = some f) :
    Replaced F gs (k + 1) (fs.set k (F f)) := by
  intro j
  rcases Nat.lt_trichotomy j k with hlt | rfl | hgt
  · rw [List.getElem?_set_ne (by omega), h, if_pos hlt, if_pos (by omega)]
  · rw [List.getElem?_set_self (List.getElem?_eq_some_iff.mp hf).1, if_pos (by omega), ← h.get, hf]
    rfl
  · rw [List.getElem?_set_ne (by omega), h, if_neg (by omega), if_neg (by omega)]

theorem Replaced.all (h : Replaced F gs gs.length fs) : fs = gs.map F := by
  apply List.ext_getElem?
  intro j
  rw [h, List.getElem?_map]
  split
  · rfl
  · next hge => rw [List.getElem?_eq_none (Nat.le_of_not_lt hge), Option.map_none]

end

/-- Since `s` the producer has been through its first `k` lines, and nobody
    else has done anything. -/
structure Produced (s : Handover) (k : Nat) (t : Handover) : Prop where
  i : t.producer.i = k
  pc : t.producer.pc = .payload
  consumer : t.consumer = s.consumer
  tries : t.tries = s.tries
  history : t.flags = s.flags
  data_size : t.shared.shared_data_size = s.shared.shared_data_size
  wrflag : Replaced (· - 1) s.shared.wrflag k t.shared.wrflag

/-- The same for the consumer. -/
structure Consumed (s : Handover) (k : Nat) (t : Handover) : Prop where
  i : t.consumer.i = k
  pc : t.consumer.pc = .spin
  producer : t.producer = s.producer
  tries : t.tries = 0
  history : t.flags = s.flags
  data_size : t.shared.shared_data_size = s.shared.shared_data_size
  wrflag : Replaced (fun _ => 1) s.shared.wrflag k t.shared.wrflag

section
variable {t : Handover} {k : Nat}

theorem Produced.next (h : Produced s k t) (hk : k < s.shared.line_cnt stride)
    (hlen : s.shared.line_cnt stride = s.shared.wrflag.length) :
    CanReach (handover stride g) t (Produced s (k + 1)) := by
  obtain ⟨rfl, hpc, hcons, htries, hhist, hsize, hflags⟩ := h
  have hlines : t.producer.i < t.shared.line_cnt stride := by rwa [Shared.line_cnt, hsize]
  obtain ⟨f, hf⟩ : ∃ f, t.shared.wrflag[t.producer.i]? = some f := by
    rw [hflags.get]
    exact ⟨_, List.getElem?_eq_getElem (hlen ▸ hk)⟩
  exact .step (.payload hpc hlines) (.step (.produce_advance rfl) (.step (.decrement rfl hf)
    (.here ⟨rfl, rfl, hcons, htries, hhist, hsize, hflags.next hf⟩)))

/-- The producer comes to the end of a round by itself. -/
theorem can_produce (hi : s.producer.i = 0) (hpc : s.producer.pc = .payload)
    (hlen : s.shared.line_cnt stride = s.shared.wrflag.length) :
    CanReach (handover stride g) s (Produced s (s.shared.line_cnt stride)) :=
  CanReach.loop (Produced s) (fun _ _ hk h => h.next hk hlen) (Nat.zero_le _)
    ⟨hi, hpc, rfl, rfl, rfl, rfl, .refl _ _⟩

/-- The consumer leaves a line by itself after one try or two. -/
theorem Consumed.next (h : Consumed s k t) (hk : k < s.shared.line_cnt stride)
    (hlen : s.shared.line_cnt stride = s.shared.wrflag.length) :
    CanReach (handover stride g) t (Consumed s (k + 1)) := by
  obtain ⟨rfl, hpc, hprod, -, hhist, hsize, hflags⟩ := h
  have hlines : t.consumer.i < t.shared.line_cnt stride := by rwa [Shared.line_cnt, hsize]
  obtain ⟨f, hf⟩ : ∃ f, t.shared.wrflag[t.consumer.i]? = some f := by
    rw [hflags.get]
    exact ⟨_, List.getElem?_eq_getElem (hlen ▸ hk)⟩
  have hafter := hflags.next hf
  by_cases hzero : f = 0
  · subst hzero
    have hone : (t.shared.wrflag.set t.consumer.i 1)[t.consumer.i]? = some 1 :=
      List.getElem?_set_self (List.getElem?_eq_some_iff.mp hf).1
    refine .step (.test_and_set hpc hlines hf) (.step (.test_and_set rfl hlines hone)
      (.step (.consume_advance rfl) (.here ⟨rfl, rfl, hprod, rfl, hhist, hsize, ?_⟩)))
    show Replaced _ _ _ ((t.shared.wrflag.set t.consumer.i 1).set t.consumer.i 1)
    rwa [List.set_set]
  · exact .step (.test_and_set hpc hlines hf) (.step (.consume_advance (if_neg hzero))
      (.here ⟨rfl, rfl, hprod, rfl, hhist, hsize, hafter⟩))

/-- The consumer comes to the end of a round by itself. -/
theorem can_consume (hi : s.consumer.i = 0) (hpc : s.consumer.pc = .spin) (htries : s.tries = 0)
    (hlen : s.shared.line_cnt stride = s.shared.wrflag.length) :
    CanReach (handover stride g) s (Consumed s (s.shared.line_cnt stride)) :=
  CanReach.loop (Consumed s) (fun _ _ hk h => h.next hk hlen) (Nat.zero_le _)
    ⟨hi, hpc, rfl, htries, rfl, rfl, .refl _ _⟩

/-- A round with the consumer first leaves what the producer makes of ones. -/
theorem consumer_goes_first {g' : Shared} (hlen : g'.line_cnt stride = g'.wrflag.length) :
    CanReach (handover stride g) (Handover.begin g') fun s => s.RoundOver stride ∧
      s.shared.shared_data_size = g'.shared_data_size ∧ s.flags = g'.wrflag ∧
      s.shared.wrflag = g'.wrflag.map fun _ => 0 := by
  apply (can_consume (s := Handover.begin g') rfl rfl rfl hlen).bind
  intro s hs
  have hlines : s.shared.line_cnt stride = g'.line_cnt stride := by
    rw [Shared.line_cnt, hs.data_size]
    rfl
  have hflags : s.shared.wrflag = g'.wrflag.map fun _ => 1 := (hlen ▸ hs.wrflag).all
  have hcount : s.shared.line_cnt stride = s.shared.wrflag.length := by
    rw [hlines, hlen, hflags, List.length_map]
  apply (can_produce (s := s) (by rw [hs.producer]; rfl) (by rw [hs.producer]; rfl) hcount).bind
  intro t ht
  have hlines' : t.shared.line_cnt stride = s.shared.line_cnt stride := by
    rw [Shared.line_cnt, ht.data_size]
    rfl
  have hlast : t.shared.wrflag = s.shared.wrflag.map (· - 1) := (hcount ▸ ht.wrflag).all
  refine .here ⟨⟨ht.pc, (hlines'.trans ht.i.symm).le, ?_, ?_⟩, ht.data_size.trans hs.data_size,
    ht.history.trans hs.history, ?_⟩
  · rw [ht.consumer, hs.pc]
  · rw [ht.consumer, hs.i, hlines', hlines]
    exact le_rfl
  · rw [hlast, hflags, List.map_map]
    rfl

end

end

/-- The end of a second round on four lines, and then the consumer after its
    first try of the third. -/
theorem third_round {g : Shared} (hlines : g.line_cnt 64 = 4) (hflag : g.wrflag = [1, 1, 1, 1]) :
    ∃ s t, Reachable (handover 64 g) s ∧ s.RoundOver 64 ∧ s.flags = [0, 0, 0, 0] ∧
      Reachable (handover 64 g) t ∧ t.consumer.pc = .spin ∧ t.tries = 1 := by
  have h0 : Reachable (handover 64 g) (Handover.begin g) := .init rfl
  obtain ⟨s, hs, hover, hsize, -, hzero⟩ := h0.can
    (consumer_goes_first (hlines.trans (by rw [hflag]; rfl)))
  rw [hflag] at hzero
  have hcount : s.shared.line_cnt 64 = 4 := by rw [Shared.line_cnt, hsize, ← hlines]; rfl
  have hs' := hs.step (.next_round hover.1 hover.2.1 hover.2.2.1 hover.2.2.2)
  obtain ⟨t, ht, hover', hsize', hflags, hzero'⟩ := hs'.can
    (consumer_goes_first (hcount.trans (by rw [hzero]; rfl)))
  rw [hzero] at hflags hzero'
  have hcount' : 0 < t.shared.line_cnt 64 := by
    rw [Shared.line_cnt, hsize', ← Shared.line_cnt, hcount]
    decide
  have ht' := ht.step (.next_round hover'.1 hover'.2.1 hover'.2.2.1 hover'.2.2.2)
  have htry := ht'.step (.test_and_set (f := 0) rfl hcount' (by
    show t.shared.wrflag[0]? = some 0
    rw [hzero']
    rfl))
  exact ⟨t, _, ht, hover', hflags, htry, rfl, rfl⟩

/-- Four lines, at the end of the second round and in the third. -/
theorem flags_stay_in_range_third_round :
    ∃ g s t, pr_co_setup (fun _ _ => 0) 300 4096 256 64 fourLines = some g ∧
      (Reachable (handover 64 g) s ∧ s.RoundOver 64 ∧ s.flags = [0, 0, 0, 0] ∧ FlagsOk 64 s) ∧
      Reachable (handover 64 g) t ∧ t.consumer.pc = .spin ∧ t.tries = 1 ∧ FlagsOk 64 t := by
  obtain ⟨g, hsetup, hlines, hflag⟩ := pr_co_setup_four_lines
  have hsize : pr_co_setup (fun _ _ => 0) 300 4096 fourLines.shared_data_size 64 fourLines =
    some g := hsetup
  obtain ⟨s, t, hs, hover, hflags, ht, hpc, htries⟩ := third_round hlines hflag
  exact ⟨g, s, t, hsetup, ⟨hs, hover, hflags, flags_stay_in_range hsize hs⟩, ht, hpc, htries,
    flags_stay_in_range hsize ht⟩

end Pcnt
