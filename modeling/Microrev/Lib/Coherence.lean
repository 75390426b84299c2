import Mathlib.Data.Finset.Basic
import Mathlib.Logic.Function.Basic

/-! # MESI Coherence

    The textbook step of an invalidation protocol, line by line, and what a
    sequence of accesses by one core leaves behind: a line it stored to is
    its own, a line it only loaded is as after the first load, a line it
    flushed is nowhere, every other line is as before.
-/

/-- The state of a line at a core. -/
inductive Mesi where
  | modified
  | exclusive
  | shared
  | invalid
  deriving DecidableEq

/-- The state of every line at every core. -/
abbrev Cache (Line Core : Type*) := Line → Core → Mesi

/-- What a core does to a line. -/
inductive Access (Line : Type*) where
  | load (l : Line)
  | store (l : Line)
  | flush (l : Line)

namespace Coherence

variable {Line Core : Type*} [DecidableEq Line] [DecidableEq Core]
variable {cores : Finset Core} {c : Core} {l : Line} {as : List (Access Line)}

/-! ### The Protocol -/

/-- A line that only `c` holds, modified. -/
def ownedBy (c : Core) : Core → Mesi := fun d => if d = c then .modified else .invalid

/-- A line that only `c` holds, clean. -/
def exclusiveTo (c : Core) : Core → Mesi := fun d => if d = c then .exclusive else .invalid

/-- A line that nobody holds. -/
def nowhere : Core → Mesi := fun _ => .invalid

/-- One line, when core `c` loads it. -/
def afterLoad (cores : Finset Core) (c : Core) (s : Core → Mesi) : Core → Mesi :=
  if s c ≠ .invalid then s
  else if ∃ d ∈ cores, d ≠ c ∧ s d ≠ .invalid then
    fun d => if d = c ∨ s d ≠ .invalid then .shared else s d
  else Function.update s c .exclusive

/-- One access by core `c`. -/
def access (cores : Finset Core) (c : Core) (cache : Cache Line Core) :
    Access Line → Cache Line Core
  | .load l => Function.update cache l (afterLoad cores c (cache l))
  | .store l => Function.update cache l (ownedBy c)
  | .flush l => Function.update cache l nowhere

/-- Accesses by core `c`, one after the other. -/
def accesses (cores : Finset Core) (c : Core) (cache : Cache Line Core)
    (as : List (Access Line)) : Cache Line Core :=
  as.foldl (access cores c) cache

/-! ### One Access -/

theorem afterLoad_hit {s : Core → Mesi} (h : s c ≠ .invalid) : afterLoad cores c s = s := by
  simp [afterLoad, h]

theorem afterLoad_self (s : Core → Mesi) : afterLoad cores c s c ≠ .invalid := by
  unfold afterLoad
  split_ifs with h1 h2
  · exact h1
  · simp
  · simp

theorem afterLoad_nowhere : afterLoad cores c nowhere = exclusiveTo c := by
  funext d
  simp [afterLoad, nowhere, exclusiveTo, Function.update_apply]

/-- Loading a line that another core has modified. -/
theorem afterLoad_ownedBy {a : Core} (ha : a ∈ cores) (hne : a ≠ c) :
    afterLoad cores c (ownedBy a) = fun d => if d = c ∨ d = a then .shared else .invalid := by
  have hmiss : ownedBy a c = .invalid := by simp [ownedBy, hne.symm]
  have hother : ∃ d ∈ cores, d ≠ c ∧ ownedBy a d ≠ .invalid := ⟨a, ha, hne, by simp [ownedBy]⟩
  unfold afterLoad
  rw [if_neg (not_not.mpr hmiss), if_pos hother]
  funext d
  by_cases hd : d = a <;> simp [ownedBy, hd]

theorem ownedBy_self : ownedBy c c ≠ .invalid := by simp [ownedBy]

/-! ### Many Accesses -/

theorem accesses_append (cache : Cache Line Core) (as bs : List (Access Line)) :
    accesses cores c cache (as ++ bs) = accesses cores c (accesses cores c cache as) bs :=
  List.foldl_append

/-- An access to another line. -/
theorem access_other {cache : Cache Line Core} {x : Access Line} (hl : x ≠ .load l)
    (hs : x ≠ .store l) (hf : x ≠ .flush l) : access cores c cache x l = cache l := by
  cases x with
  | load m => exact Function.update_of_ne (fun h => hl (by rw [h])) _ _
  | store m => exact Function.update_of_ne (fun h => hs (by rw [h])) _ _
  | flush m => exact Function.update_of_ne (fun h => hf (by rw [h])) _ _

/-- The line is only loaded, and the core holds it already. -/
theorem accesses_hit {cache : Cache Line Core} (hs : .store l ∉ as) (hf : .flush l ∉ as)
    (hit : cache l c ≠ .invalid) : accesses cores c cache as l = cache l := by
  induction as generalizing cache with
  | nil => rfl
  | cons x as ih =>
    obtain ⟨hxs, hs⟩ := List.ne_and_not_mem_of_not_mem_cons hs
    obtain ⟨hxf, hf⟩ := List.ne_and_not_mem_of_not_mem_cons hf
    have hstep : access cores c cache x l = cache l := by
      by_cases hx : x = .load l
      · subst hx
        simp [access, afterLoad_hit hit]
      · exact access_other hx hxs.symm hxf.symm
    show accesses cores c (access cores c cache x) as l = cache l
    rw [ih hs hf (by rw [hstep]; exact hit), hstep]

/-- The line is not accessed. -/
theorem accesses_other {cache : Cache Line Core} (hl : .load l ∉ as) (hs : .store l ∉ as)
    (hf : .flush l ∉ as) : accesses cores c cache as l = cache l := by
  induction as generalizing cache with
  | nil => rfl
  | cons x as ih =>
    obtain ⟨hxl, hl⟩ := List.ne_and_not_mem_of_not_mem_cons hl
    obtain ⟨hxs, hs⟩ := List.ne_and_not_mem_of_not_mem_cons hs
    obtain ⟨hxf, hf⟩ := List.ne_and_not_mem_of_not_mem_cons hf
    show accesses cores c (access cores c cache x) as l = cache l
    rw [ih hl hs hf, access_other hxl.symm hxs.symm hxf.symm]

/-- **Stored lines** belong to the core. -/
theorem accesses_stored {cache : Cache Line Core} (hf : .flush l ∉ as) (h : .store l ∈ as) :
    accesses cores c cache as l = ownedBy c := by
  induction as generalizing cache with
  | nil => simp at h
  | cons x as ih =>
    have hf' := List.not_mem_of_not_mem_cons hf
    show accesses cores c (access cores c cache x) as l = ownedBy c
    by_cases hs : .store l ∈ as
    · exact ih hf' hs
    · -- the last store to the line; what follows can only be hits
      obtain rfl : x = .store l := by
        rcases List.mem_cons.mp h with h | h
        · exact h.symm
        · exact absurd h hs
      have howned : access cores c cache (.store l) l = ownedBy c := Function.update_self _ _ _
      rw [accesses_hit hs hf' (by rw [howned]; exact ownedBy_self), howned]

/-- **Flushed lines** are nowhere. -/
theorem accesses_flushed {cache : Cache Line Core} (hl : .load l ∉ as) (hs : .store l ∉ as)
    (h : .flush l ∈ as) : accesses cores c cache as l = nowhere := by
  induction as generalizing cache with
  | nil => simp at h
  | cons x as ih =>
    have hl' := List.not_mem_of_not_mem_cons hl
    have hs' := List.not_mem_of_not_mem_cons hs
    show accesses cores c (access cores c cache x) as l = nowhere
    by_cases hf : .flush l ∈ as
    · exact ih hl' hs' hf
    · obtain rfl : x = .flush l := by
        rcases List.mem_cons.mp h with h | h
        · exact h.symm
        · exact absurd h hf
      rw [accesses_other hl' hs' hf]
      exact Function.update_self _ _ _

/-- **Loaded lines** are as after the first load. -/
theorem accesses_loaded {cache : Cache Line Core} (hs : .store l ∉ as) (hf : .flush l ∉ as)
    (h : .load l ∈ as) : accesses cores c cache as l = afterLoad cores c (cache l) := by
  induction as generalizing cache with
  | nil => simp at h
  | cons x as ih =>
    obtain ⟨hxs, hs'⟩ := List.ne_and_not_mem_of_not_mem_cons hs
    obtain ⟨hxf, hf'⟩ := List.ne_and_not_mem_of_not_mem_cons hf
    show accesses cores c (access cores c cache x) as l = afterLoad cores c (cache l)
    by_cases hx : x = .load l
    · subst hx
      have hload : access cores c cache (.load l) l = afterLoad cores c (cache l) :=
        Function.update_self _ _ _
      rw [accesses_hit hs' hf' (by rw [hload]; exact afterLoad_self _), hload]
    · have hrest : .load l ∈ as := by
        rcases List.mem_cons.mp h with h | h
        · exact absurd h.symm hx
        · exact h
      rw [ih hs' hf' hrest, access_other hx hxs.symm hxf.symm]

end Coherence
