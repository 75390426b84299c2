import Mathlib.Data.List.Basic
import Mathlib.Data.List.Count
import Mathlib.Algebra.BigOperators.Group.List.Lemmas

/-! # Scripts

    A script is a list of statements. Each is a step from one state to
    another that gives some results; executing the list puts the steps in a
    row and collects what they give. A loop is a list made by `flatMap`, so
    the rule for loops asks for one pass and gives the whole loop. Steps are
    relations: a statement may have many outcomes, or none.
-/

namespace Script

variable {Stmt State Out X Shape : Type*}

/-- The statements in a row. -/
inductive Exec (step : Stmt → State → List Out → State → Prop) :
    List Stmt → State → List Out → State → Prop where
  | nil {s : State} : Exec step [] s [] s
  | cons {a : Stmt} {as : List Stmt} {s t u : State} {os os' : List Out} :
      step a s os t → Exec step as t os' u → Exec step (a :: as) s (os ++ os') u

variable {step : Stmt → State → List Out → State → Prop}
variable {a : Stmt} {as bs : List Stmt} {s t u : State} {os os' : List Out}

/-! ### Composition -/

theorem exec_cons_iff : Exec step (a :: as) s os u ↔
    ∃ os1 t os2, step a s os1 t ∧ Exec step as t os2 u ∧ os = os1 ++ os2 := by
  constructor
  · intro h
    cases h with
    | cons hstep hrest => exact ⟨_, _, _, hstep, hrest, rfl⟩
  · rintro ⟨os1, t, os2, hstep, hrest, rfl⟩
    exact .cons hstep hrest

theorem exec_append_iff : Exec step (as ++ bs) s os u ↔
    ∃ os1 t os2, Exec step as s os1 t ∧ Exec step bs t os2 u ∧ os = os1 ++ os2 := by
  induction as generalizing s os with
  | nil =>
    constructor
    · exact fun h => ⟨[], s, os, .nil, h, rfl⟩
    · rintro ⟨os1, t, os2, hnil, h, rfl⟩
      cases hnil
      exact h
  | cons a as ih =>
    constructor
    · intro h
      obtain ⟨os1, t, os2, hstep, hrest, rfl⟩ := exec_cons_iff.mp h
      obtain ⟨os3, v, os4, has, hbs, rfl⟩ := ih.mp hrest
      exact ⟨os1 ++ os3, v, os4, .cons hstep has, hbs, (List.append_assoc ..).symm⟩
    · rintro ⟨os1, t, os2, has, hbs, rfl⟩
      obtain ⟨os3, v, os4, hstep, hrest, rfl⟩ := exec_cons_iff.mp has
      rw [List.append_assoc]
      exact .cons hstep (ih.mpr ⟨os4, t, os2, hrest, hbs, rfl⟩)

theorem exec_singleton_iff : Exec step [a] s os t ↔ step a s os t := by
  constructor
  · intro h
    obtain ⟨os1, v, os2, hstep, hnil, rfl⟩ := exec_cons_iff.mp h
    cases hnil
    rwa [List.append_nil]
  · intro h
    have hexec : Exec step [a] s (os ++ []) t := .cons h .nil
    rwa [List.append_nil] at hexec

/-! ### Rules -/

/-- **Invariant rule**: what every statement of the script keeps holds at the
    end. -/
theorem Exec.invariant (inv : State → Prop)
    (hstep : ∀ a ∈ as, ∀ s os t, inv s → step a s os t → inv t)
    (h : Exec step as s os u) (hinv : inv s) : inv u := by
  induction h with
  | nil => exact hinv
  | cons hst _ ih =>
    exact ih (fun b hb => hstep b (List.mem_cons_of_mem _ hb))
      (hstep _ List.mem_cons_self _ _ _ hinv hst)

/-- **Loop rule**: if every pass keeps the invariant and gives results of a
    known shape, the loop gives these results pass by pass. -/
theorem Exec.loop (inv : State → Prop) {xs : List X} {body : X → List Stmt} {shape : Out → Shape}
    {out : X → List Shape}
    (hbody : ∀ x ∈ xs, ∀ s os t, inv s → Exec step (body x) s os t →
      inv t ∧ os.map shape = out x)
    (h : Exec step (xs.flatMap body) s os u) (hinv : inv s) :
    inv u ∧ os.map shape = xs.flatMap out := by
  induction xs generalizing s os with
  | nil =>
    cases h
    exact ⟨hinv, rfl⟩
  | cons x xs ih =>
    rw [List.flatMap_cons] at h
    obtain ⟨os1, t, os2, hx, hxs, rfl⟩ := exec_append_iff.mp h
    obtain ⟨ht, hos1⟩ := hbody x List.mem_cons_self _ _ _ hinv hx
    obtain ⟨hu, hos2⟩ := ih (fun y hy => hbody y (List.mem_cons_of_mem _ hy)) hxs ht
    exact ⟨hu, by rw [List.map_append, hos1, hos2, List.flatMap_cons]⟩

/-- A loop over single statements. -/
theorem Exec.loop_map (inv : State → Prop) {xs : List X} {stmt : X → Stmt} {shape : Out → Shape}
    {out : X → List Shape}
    (hstep : ∀ x ∈ xs, ∀ s os t, inv s → step (stmt x) s os t → inv t ∧ os.map shape = out x)
    (h : Exec step (xs.map stmt) s os u) (hinv : inv s) :
    inv u ∧ os.map shape = xs.flatMap out := by
  rw [List.map_eq_flatMap] at h
  exact h.loop inv
    (fun x hx s os t hs hone => hstep x hx s os t hs (exec_singleton_iff.mp hone)) hinv

/-- **Loop rule**, one result for each pass: the invariant knows the results
    so far. -/
theorem Exec.loop_each (past : List Out) (inv : List Out → State → Prop) {xs : List X}
    {body : X → List Stmt} {R : X → Out → Prop}
    (hbody : ∀ x ∈ xs, ∀ past s os t, inv past s → Exec step (body x) s os t →
      ∃ o, os = [o] ∧ R x o ∧ inv (past ++ [o]) t)
    (h : Exec step (xs.flatMap body) s os u) (hinv : inv past s) :
    List.Forall₂ R xs os ∧ inv (past ++ os) u := by
  induction xs generalizing past s os with
  | nil =>
    cases h
    exact ⟨.nil, by rwa [List.append_nil]⟩
  | cons x xs ih =>
    rw [List.flatMap_cons] at h
    obtain ⟨os1, t, os2, hx, hxs, rfl⟩ := exec_append_iff.mp h
    obtain ⟨o, rfl, hR, ht⟩ := hbody x List.mem_cons_self _ _ _ _ hinv hx
    obtain ⟨hall, hu⟩ := ih _ (fun y hy => hbody y (List.mem_cons_of_mem _ hy)) hxs ht
    rw [List.append_assoc] at hu
    exact ⟨.cons hR hall, hu⟩

/-- **Progress rule**: a script can be executed to its end if every statement
    can be from any state with the invariant, and keeps it. -/
theorem exec_can (inv : State → Prop)
    (hstep : ∀ a ∈ as, ∀ s, inv s → ∃ os t, step a s os t ∧ inv t) {s : State} (hs : inv s) :
    ∃ os u, Exec step as s os u := by
  induction as generalizing s with
  | nil => exact ⟨[], s, .nil⟩
  | cons a as ih =>
    obtain ⟨os, t, hst, ht⟩ := hstep a List.mem_cons_self s hs
    obtain ⟨os', u, hrest⟩ := ih (fun b hb => hstep b (List.mem_cons_of_mem _ hb)) ht
    exact ⟨os ++ os', u, .cons hst hrest⟩

/-- If every statement can be executed anywhere, the script can. -/
theorem exec_can_anywhere (hstep : ∀ a ∈ as, ∀ s, ∃ os t, step a s os t) (s : State) :
    ∃ os u, Exec step as s os u := by
  refine exec_can (fun _ => True) (fun a ha s _ => ?_) trivial
  obtain ⟨os, t, hst⟩ := hstep a ha s
  exact ⟨os, t, hst, trivial⟩

/-! ### Counting Passes -/

variable [BEq Shape] {sh : Shape}

/-- A result that only one pass gives. -/
theorem count_flatMap_of_mem [LawfulBEq Shape] [DecidableEq X] {xs : List X}
    {out : X → List Shape} (hnodup : xs.Nodup) {x : X} (hx : x ∈ xs)
    (hother : ∀ y ∈ xs, y ≠ x → sh ∉ out y) :
    (xs.flatMap out).count sh = (out x).count sh := by
  have hzero : ∀ y, y ≠ x → y ∈ xs → (List.count sh ∘ out) y = 0 := fun y hne hy =>
    List.count_eq_zero.mpr (hother y hy hne)
  rw [List.count_flatMap, List.sum_map_eq_nsmul_single x _ hzero, hnodup.count, if_pos hx,
    one_nsmul]
  rfl

/-- A result that all passes give alike. -/
theorem count_flatMap_const {xs : List X} {out : List Shape} :
    (xs.flatMap fun _ => out).count sh = xs.length * out.count sh := by
  rw [List.count_flatMap]
  simp [Function.comp_def]

end Script
