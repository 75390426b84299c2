import Mathlib.Data.Finset.Erase
import Mathlib.Data.Finset.Insert

/-! # Monitors: a Mutex with a Condition Variable

    The state of one mutex and one condition variable shared by actors of
    any type: who owns the mutex, and who is in the wait set. An actor in the
    wait set is blocked until a notification or a spurious wakeup takes it
    out; it then has to acquire the mutex again.

    `Owned` is the discipline that ties the owner to the program counters of
    the actors. It is preserved by every operation, so a client only has to
    say, for each of its steps, which operation the step performs.
-/

/-- One mutex and one condition variable. -/
structure Monitor (Actor : Type*) where
  /-- The actor that holds the mutex. -/
  owner : Option Actor
  /-- The actors blocked on the condition variable. -/
  waiting : Finset Actor

namespace Monitor

variable {Actor : Type*}

/-! ### Operations -/

/-- A fresh monitor: unlocked, nobody waits. -/
def fresh : Monitor Actor := { owner := none, waiting := ∅ }

/-- `lock()`, once the mutex is free. -/
def acquire (m : Monitor Actor) (a : Actor) : Monitor Actor := { m with owner := some a }

/-- `unlock()`. -/
def release (m : Monitor Actor) : Monitor Actor := { m with owner := none }

/-- `cv.notify_all()`. -/
def notifyAll (m : Monitor Actor) : Monitor Actor := { m with waiting := ∅ }

/-- `cv.wait(lock)`: give up the mutex and enter the wait set, atomically. -/
def wait [DecidableEq Actor] (m : Monitor Actor) (a : Actor) : Monitor Actor :=
  { owner := none, waiting := insert a m.waiting }

/-- Take one actor out of the wait set. -/
def wake [DecidableEq Actor] (m : Monitor Actor) (a : Actor) : Monitor Actor :=
  { m with waiting := m.waiting.erase a }

/-- `cv.notify_one()`: wakes an arbitrary waiter; lost when nobody waits. -/
def NotifyOne [DecidableEq Actor] (m m' : Monitor Actor) : Prop :=
  (m.waiting = ∅ ∧ m' = m) ∨ ∃ a ∈ m.waiting, m' = m.wake a

@[simp] theorem fresh_owner : (fresh : Monitor Actor).owner = none := rfl

@[simp] theorem fresh_waiting : (fresh : Monitor Actor).waiting = ∅ := rfl

@[simp] theorem acquire_owner (m : Monitor Actor) (a : Actor) : (m.acquire a).owner = some a := rfl

@[simp] theorem acquire_waiting (m : Monitor Actor) (a : Actor) :
    (m.acquire a).waiting = m.waiting := rfl

@[simp] theorem release_owner (m : Monitor Actor) : m.release.owner = none := rfl

@[simp] theorem release_waiting (m : Monitor Actor) : m.release.waiting = m.waiting := rfl

@[simp] theorem notifyAll_owner (m : Monitor Actor) : m.notifyAll.owner = m.owner := rfl

@[simp] theorem notifyAll_waiting (m : Monitor Actor) : m.notifyAll.waiting = ∅ := rfl

/-! ### The Wait Set -/

section wait_set
variable [DecidableEq Actor] {m m' : Monitor Actor} {a : Actor}

@[simp] theorem wait_owner : (m.wait a).owner = none := rfl

@[simp] theorem wait_waiting : (m.wait a).waiting = insert a m.waiting := rfl

@[simp] theorem wake_owner : (m.wake a).owner = m.owner := rfl

@[simp] theorem wake_waiting : (m.wake a).waiting = m.waiting.erase a := rfl

theorem NotifyOne.owner (h : NotifyOne m m') : m'.owner = m.owner := by
  rcases h with ⟨_, rfl⟩ | ⟨a, _, rfl⟩ <;> rfl

/-- A notification only ever shrinks the wait set. -/
theorem NotifyOne.subset (h : NotifyOne m m') : m'.waiting ⊆ m.waiting := by
  rcases h with ⟨_, rfl⟩ | ⟨a, _, rfl⟩
  · exact Finset.Subset.refl _
  · exact Finset.erase_subset _ _

/-- With at most one possible waiter, `notify_one` leaves nobody waiting. -/
theorem NotifyOne.empties (h : NotifyOne m m') (honly : ∀ b ∈ m.waiting, b = a) :
    m'.waiting = ∅ := by
  rcases h with ⟨he, rfl⟩ | ⟨b, hb, rfl⟩
  · exact he
  · obtain rfl := honly b hb
    rw [wake_waiting, Finset.eq_empty_iff_forall_notMem]
    intro c hc
    rw [Finset.mem_erase] at hc
    exact hc.1 (honly c hc.2)

/-- `notify_one` is never blocked. -/
theorem NotifyOne.exists (m : Monitor Actor) : ∃ m', NotifyOne m m' := by
  rcases m.waiting.eq_empty_or_nonempty with h | ⟨a, ha⟩
  · exact ⟨m, .inl ⟨h, rfl⟩⟩
  · exact ⟨m.wake a, .inr ⟨a, ha, rfl⟩⟩

end wait_set

/-! ### Lock Discipline -/

/-- The owner of the mutex is exactly the actor that `holds` describes. -/
def Owned (m : Monitor Actor) (holds : Actor → Prop) : Prop :=
  ∀ a, m.owner = some a ↔ holds a

section discipline
variable {m m' : Monitor Actor} {holds holds' : Actor → Prop} {a b : Actor}

/-- **Mutual exclusion**: at most one actor holds the mutex. -/
theorem Owned.unique (h : Owned m holds) (ha : holds a) (hb : holds b) : a = b := by
  have hab := ((h a).mpr ha).symm.trans ((h b).mpr hb)
  exact Option.some.inj hab

theorem Owned.not_holds (h : Owned m holds) (hfree : m.owner = none) (a : Actor) :
    ¬ holds a := by
  intro ha
  have := (h a).mpr ha
  simp [hfree] at this

theorem Owned.of_fresh (h : ∀ a, ¬ holds a) : Owned (fresh : Monitor Actor) holds := by
  intro a
  simp [h a]

/-- A step that leaves the owner and everybody's hold on the mutex alone. -/
theorem Owned.stay (h : Owned m holds) (howner : m'.owner = m.owner)
    (hsame : ∀ b, holds' b ↔ holds b) : Owned m' holds' := by
  intro b
  rw [howner, hsame b]
  exact h b

/-- An acquiring step of `a`. -/
theorem Owned.acquire (h : Owned m holds) (hfree : m.owner = none) (hself : holds' a)
    (hother : ∀ b, b ≠ a → (holds' b ↔ holds b)) : Owned (m.acquire a) holds' := by
  intro b
  by_cases hb : b = a
  · subst hb
    simpa using hself
  · have hnot := h.not_holds hfree b
    simp [hother b hb, hnot, Ne.symm hb]

/-- A step in which `a`, the owner, gives the mutex up. -/
theorem Owned.give_up (h : Owned m holds) (ha : holds a) (howner : m'.owner = none)
    (hself : ¬ holds' a) (hother : ∀ b, b ≠ a → (holds' b ↔ holds b)) : Owned m' holds' := by
  intro b
  by_cases hb : b = a
  · subst hb
    simpa [howner] using hself
  · have hnot : ¬ holds b := fun hb' => hb (h.unique hb' ha)
    simp [hother b hb, hnot, howner]

end discipline

end Monitor
