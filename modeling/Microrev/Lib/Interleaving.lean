import Mathlib.Data.List.Basic
import Microrev.Lib.Transition

/-! # Threads over Shared State

    Threads with local states take atomic steps on one shared state, in any
    order, or in turn: each only when all those before it have finished.

    * **Thread-wise rule**: a property of the shared state and one of the
      local states that every step of a thread preserves together hold in
      every reachable state.
    * **Tags**: what no step changes about a thread stays with its index.
    * **Alone**: what a thread can do by itself it can do among others.
    * **In turn**: if the first threads, each alone, can finish and keep an
      invariant of the shared state, they can finish one after the other.
-/

namespace Interleaving

open Lts

/-- The shared state and the local state of each thread. -/
structure Config (Global Local : Type*) where
  shared : Global
  threads : List Local

variable {Global Local : Type*} {act : Global → Local → Global → Local → Prop}

/-- Thread `i` takes a step. -/
inductive Step (act : Global → Local → Global → Local → Prop) :
    Config Global Local → Nat → Config Global Local → Prop where
  | thread {s : Config Global Local} {i : Nat} {l l' : Local} {g : Global} :
      s.threads[i]? = some l → act s.shared l g l' → Step act s i ⟨g, s.threads.set i l'⟩

/-- The threads in any order. -/
def interleaved (act : Global → Local → Global → Local → Prop) (start : Config Global Local) :
    System (Config Global Local) Nat where
  init s := s = start
  step := Step act

/-- All threads before `i` have finished. -/
def Turn (finished : Local → Prop) (s : Config Global Local) (i : Nat) : Prop :=
  ∀ j < i, ∀ l, s.threads[j]? = some l → finished l

theorem Turn.finished_of_mem {finished : Local → Prop} {s : Config Global Local} {i : Nat}
    (h : Turn finished s i) {l : Local} (hl : l ∈ s.threads.take i) : finished l := by
  obtain ⟨j, hj⟩ := List.mem_iff_getElem?.mp hl
  rw [List.getElem?_take] at hj
  split at hj
  · next hlt => exact h j hlt l hj
  · simp at hj

/-- The threads one after the other. -/
def inTurn (act : Global → Local → Global → Local → Prop) (finished : Local → Prop)
    (start : Config Global Local) : System (Config Global Local) Nat where
  init s := s = start
  step s i s' := Step act s i s' ∧ Turn finished s i

variable {finished : Local → Prop} {start s : Config Global Local}

/-- One after the other is one of the orders. -/
theorem interleaved_of_inTurn (h : Reachable (inTurn act finished start) s) :
    Reachable (interleaved act start) s := by
  induction h with
  | init h0 => exact .init h0
  | step _ hst ih => exact ih.step hst.1

/-- **Thread-wise rule**. -/
theorem thread_invariant (glob : Global → Prop) (loc : Local → Prop)
    (hglob : glob start.shared) (hloc : ∀ l ∈ start.threads, loc l)
    (hstep : ∀ g l g' l', glob g → loc l → act g l g' l' → glob g' ∧ loc l')
    (h : Reachable (interleaved act start) s) :
    glob s.shared ∧ ∀ l ∈ s.threads, loc l := by
  have hone : ∀ s i s', (glob s.shared ∧ ∀ l ∈ s.threads, loc l) → Step act s i s' →
      glob s'.shared ∧ ∀ l ∈ s'.threads, loc l := by
    rintro s i _ ⟨hg, hl⟩ ⟨hi, hact⟩
    obtain ⟨hg', hl'⟩ := hstep _ _ _ _ hg (hl _ (List.mem_of_getElem? hi)) hact
    refine ⟨hg', ?_⟩
    intro l hmem
    rcases List.mem_or_eq_of_mem_set hmem with hold | rfl
    · exact hl l hold
    · exact hl'
  have hall : (fun s => glob s.shared ∧ ∀ l ∈ s.threads, loc l) s :=
    h.invariant (fun s h0 => h0 ▸ ⟨hglob, hloc⟩) hone
  exact hall

/-- **Tags**: each thread keeps its own. -/
theorem thread_tags {Tag : Type*} (tag : Local → Tag)
    (hstep : ∀ g l g' l', act g l g' l' → tag l' = tag l)
    (h : Reachable (interleaved act start) s) : s.threads.map tag = start.threads.map tag := by
  have hone : ∀ s i s', s.threads.map tag = start.threads.map tag → Step act s i s' →
      s'.threads.map tag = start.threads.map tag := by
    rintro s i _ htags ⟨hi, hact⟩
    obtain ⟨hlt, rfl⟩ := List.getElem?_eq_some_iff.mp hi
    rw [List.map_set, hstep _ _ _ _ hact, ← List.map_set, List.set_getElem_self, htags]
  have hall : (fun s => s.threads.map tag = start.threads.map tag) s :=
    h.invariant (fun s h0 => h0 ▸ rfl) hone
  exact hall

/-! ### Alone -/

/-- One thread by itself. -/
def alone (act : Global → Local → Global → Local → Prop) : System (Global × Local) Unit where
  init _ := True
  step p _ q := act p.1 p.2 q.1 q.2

/-- Among others, when it is its turn. -/
theorem reaches_of_alone {g' : Global} {l l' : Local} {i : Nat} (hi : s.threads[i]? = some l)
    (hturn : Turn finished s i) (h : Reaches (alone act) (s.shared, l) (g', l')) :
    Reaches (inTurn act finished start) s ⟨g', s.threads.set i l'⟩ := by
  obtain ⟨hlt, hget⟩ := List.getElem?_eq_some_iff.mp hi
  have hends : ∀ q, Reaches (alone act) (s.shared, l) q →
      Reaches (inTurn act finished start) s ⟨q.1, s.threads.set i q.2⟩ := by
    intro q hq
    induction hq with
    | refl =>
      rw [← hget, List.set_getElem_self]
      exact .refl s
    | @tail q r _ hst ih =>
      obtain ⟨_, hact⟩ := hst
      refine ih.tail ⟨i, ?_, ?_⟩
      · have hstep : Step act ⟨q.1, s.threads.set i q.2⟩ i _ :=
          .thread (List.getElem?_set_self hlt) hact
        rwa [List.set_set] at hstep
      · intro j hj m hm
        rw [List.getElem?_set_ne (Nat.ne_of_gt hj)] at hm
        exact hturn j hj m hm
  exact hends (g', l') h

/-! ### In Turn -/

/-- After `k` turns: the first `k` threads have finished, and the others have
    not moved. -/
structure Turns (inv : Global → Prop) (finished : Local → Prop) (start : Config Global Local)
    (k : Nat) (s : Config Global Local) : Prop where
  shared : inv s.shared
  turn : Turn finished s k
  later : ∀ j, k ≤ j → s.threads[j]? = start.threads[j]?

/-- **In turn**: if each of the first threads, alone, can finish and keep the
    invariant, they can do so one after the other. -/
theorem can_take_turns {inv : Global → Prop} {k : Nat} (hk : k ≤ start.threads.length)
    (halone : ∀ l ∈ start.threads.take k, ∀ g, inv g →
      CanReach (alone act) (g, l) fun p => inv p.1 ∧ finished p.2)
    (hstart : inv start.shared) :
    CanReach (inTurn act finished start) start (Turns inv finished start k) := by
  refine CanReach.loop (Turns inv finished start) ?_ (Nat.zero_le k) ?_
  · intro j s hj h
    obtain ⟨l, hl⟩ : ∃ l, start.threads[j]? = some l := ⟨_, List.getElem?_eq_getElem (by omega)⟩
    have hmem : l ∈ start.threads.take k :=
      List.mem_of_getElem? ((List.getElem?_take_of_lt hj).trans hl)
    have hlj := (h.later j (Nat.le_refl j)).trans hl
    have hlt := (List.getElem?_eq_some_iff.mp hlj).1
    obtain ⟨⟨g', l'⟩, hreach, hinv, hl'⟩ := halone l hmem s.shared h.shared
    refine ⟨_, reaches_of_alone hlj h.turn hreach, hinv, ?_, ?_⟩
    · intro i hi m hm
      rcases Nat.lt_succ_iff_lt_or_eq.mp hi with hlt' | rfl
      · rw [List.getElem?_set_ne (Nat.ne_of_gt hlt')] at hm
        exact h.turn i hlt' m hm
      · rw [List.getElem?_set_self hlt] at hm
        rwa [← Option.some.inj hm]
    · intro i hi
      rw [List.getElem?_set_ne (by omega)]
      exact h.later i (by omega)
  · exact ⟨hstart, fun j hj => absurd hj (Nat.not_lt_zero j), fun _ _ => rfl⟩

end Interleaving
