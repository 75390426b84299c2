import Mathlib.Logic.Relation

/-! # Labelled Transition Systems

    States, labels, and a step relation between them. The module has the
    rules that the rest of the development uses:

    * **Invariants**: a property that holds initially and is preserved by
      every step holds in every reachable state.
    * **Reaching**: composing finite stretches of steps, and loops of them.
    * **Runs**: finite executions that record the state and the label of
      each step, for statements about the order of events.
-/

namespace Lts

/-- A labelled transition system. -/
structure System (State Label : Type*) where
  /-- The initial states. -/
  init : State → Prop
  /-- `step s l s'`: the system moves from `s` to `s'` with label `l`. -/
  step : State → Label → State → Prop

variable {State Label : Type*} {sys : System State Label}

/-! ### Reachability -/

/-- The states that some finite execution ends in. -/
inductive Reachable (sys : System State Label) : State → Prop where
  | init {s : State} : sys.init s → Reachable sys s
  | step {s s' : State} {l : Label} : Reachable sys s → sys.step s l s' → Reachable sys s'

/-- **Invariant rule**: initially true and preserved by every step. -/
theorem Reachable.invariant {inv : State → Prop}
    (hinit : ∀ s, sys.init s → inv s)
    (hstep : ∀ s l s', inv s → sys.step s l s' → inv s')
    {s : State} (h : Reachable sys s) : inv s := by
  induction h with
  | init h0 => exact hinit _ h0
  | step _ hst ih => exact hstep _ _ _ ih hst

/-- **Relative invariant rule**: the step case may use an invariant that is
    already known of every reachable state. -/
theorem Reachable.invariant_of {inv known : State → Prop}
    (hknown : ∀ s, Reachable sys s → known s)
    (hinit : ∀ s, sys.init s → inv s)
    (hstep : ∀ s l s', known s → inv s → sys.step s l s' → inv s')
    {s : State} (h : Reachable sys s) : inv s := by
  induction h with
  | init h0 => exact hinit _ h0
  | step hr hst ih => exact hstep _ _ _ (hknown _ hr) ih hst

/-- Some step, whatever its label. -/
def System.next (sys : System State Label) (s s' : State) : Prop :=
  ∃ l, sys.step s l s'

/-- `s'` is reached from `s` by finitely many steps. -/
def Reaches (sys : System State Label) : State → State → Prop :=
  Relation.ReflTransGen sys.next

theorem Reaches.refl (s : State) : Reaches sys s s := Relation.ReflTransGen.refl

theorem Reaches.trans {s t u : State} (h1 : Reaches sys s t) (h2 : Reaches sys t u) :
    Reaches sys s u :=
  Relation.ReflTransGen.trans h1 h2

/-- One step, then the rest. -/
theorem Reaches.head {s t u : State} {l : Label} (h1 : sys.step s l t) (h2 : Reaches sys t u) :
    Reaches sys s u :=
  Relation.ReflTransGen.head ⟨l, h1⟩ h2

/-- What is reached from a reachable state is reachable. -/
theorem Reachable.reaches {s s' : State} (h : Reachable sys s) (hr : Reaches sys s s') :
    Reachable sys s' := by
  induction hr with
  | refl => exact h
  | tail _ hst ih =>
    obtain ⟨l, hst⟩ := hst
    exact ih.step hst

/-! ### Possibility -/

/-- From `s`, some finite execution ends in a state with `P`. -/
def CanReach (sys : System State Label) (s : State) (P : State → Prop) : Prop :=
  ∃ s', Reaches sys s s' ∧ P s'

theorem CanReach.here {P : State → Prop} {s : State} (h : P s) : CanReach sys s P :=
  ⟨s, Reaches.refl s, h⟩

/-- Take a step first. -/
theorem CanReach.step {P : State → Prop} {s t : State} {l : Label} (h : sys.step s l t)
    (hr : CanReach sys t P) : CanReach sys s P := by
  obtain ⟨u, hu, hP⟩ := hr
  exact ⟨u, hu.head h, hP⟩

/-- Go somewhere first. -/
theorem CanReach.bind {P Q : State → Prop} {s : State} (h : CanReach sys s P)
    (hr : ∀ t, P t → CanReach sys t Q) : CanReach sys s Q := by
  obtain ⟨t, ht, hP⟩ := h
  obtain ⟨u, hu, hQ⟩ := hr t hP
  exact ⟨u, ht.trans hu, hQ⟩

/-- **Loop rule**: if a state with `inv k` leads to one with `inv (k + 1)` as
    long as `k < n`, then `inv k` leads to `inv n`. -/
theorem CanReach.loop (inv : Nat → State → Prop) {n : Nat}
    (hstep : ∀ k s, k < n → inv k s → CanReach sys s (inv (k + 1)))
    {k : Nat} (hk : k ≤ n) {s : State} (h : inv k s) : CanReach sys s (inv n) := by
  obtain ⟨d, rfl⟩ := Nat.exists_eq_add_of_le hk
  induction d generalizing k s with
  | zero => exact .here h
  | succ d ih =>
    apply (hstep k s (by omega) h).bind
    intro t ht
    rw [show k + (d + 1) = k + 1 + d by omega] at hstep ⊢
    exact ih ht hstep (by omega)

/-- What can be reached from a reachable state is reachable. -/
theorem Reachable.can {P : State → Prop} {s : State} (h : Reachable sys s)
    (hr : CanReach sys s P) : ∃ s', Reachable sys s' ∧ P s' := by
  obtain ⟨s', hs', hP⟩ := hr
  exact ⟨s', h.reaches hs', hP⟩

/-! ### Runs -/

/-- `Run sys s steps s'`: an execution from `s` to `s'`; `steps` lists, in
    order, the state each step starts in and its label. -/
inductive Run (sys : System State Label) : State → List (State × Label) → State → Prop where
  | nil (s : State) : Run sys s [] s
  | snoc {s t u : State} {steps : List (State × Label)} {l : Label} :
      Run sys s steps t → sys.step t l u → Run sys s (steps ++ [(t, l)]) u

/-- A run from an initial state ends in a reachable state. -/
theorem Run.reachable {s s' : State} {steps : List (State × Label)}
    (h : Run sys s steps s') (h0 : Reachable sys s) : Reachable sys s' := by
  induction h with
  | nil => exact h0
  | snoc _ hst ih => exact ih.step hst

/-- **Step-wise rule for runs**: if from reachable states with `P` a step
    keeps `P` on its target exactly when it meets `C`, then along a run from
    a state with `P`, all states have `P` exactly when all steps meet `C`. -/
theorem Run.all_iff {P : State → Prop} {C : State → Label → Prop}
    (hstep : ∀ s l s', Reachable sys s → P s → sys.step s l s' → (P s' ↔ C s l))
    {s s' : State} {steps : List (State × Label)}
    (h : Run sys s steps s') (h0 : Reachable sys s) (hP : P s) :
    ((∀ p ∈ steps, P p.1) ∧ P s') ↔ ∀ p ∈ steps, C p.1 p.2 := by
  induction h with
  | nil => simpa using hP
  | @snoc t u steps l hrun hst ih =>
    have hr := hrun.reachable h0
    constructor
    · rintro ⟨hall, hu⟩
      have ht : P t := hall (t, l) (by simp)
      have hpre := ih.mp ⟨fun p hp => hall p (by simp [hp]), ht⟩
      intro p hp
      rcases List.mem_append.mp hp with hp | hp
      · exact hpre p hp
      · obtain rfl := List.mem_singleton.mp hp
        exact (hstep t l u hr ht hst).mp hu
    · intro hall
      obtain ⟨hpre, ht⟩ := ih.mpr (fun p hp => hall p (by simp [hp]))
      have hu : P u := (hstep t l u hr ht hst).mpr (hall (t, l) (by simp))
      refine ⟨?_, hu⟩
      intro p hp
      rcases List.mem_append.mp hp with hp | hp
      · exact hpre p hp
      · obtain rfl := List.mem_singleton.mp hp
        exact ht

end Lts
