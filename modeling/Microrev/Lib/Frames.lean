import Mathlib.Data.Rat.Defs
import Mathlib.Data.List.Basic
import Mathlib.Data.List.Forall2
import Microrev.Lib.Text

/-! # Dictionaries and Data Frames

    Dictionaries that keep the order of their keys, and data frames that are
    built from them. A frame is seen through its columns and its rows; about
    the package that builds, selects and joins frames only the laws below are
    known. A chain of left joins has the rows of its first frame: what has no
    match there is lost.
-/

namespace Frames

/-! ### Dictionaries in Order -/

section
variable {α β : Type*}

/-- `d[ k ] = v`. -/
def assign : List (Text × β) → Text → β → List (Text × β)
  | [], k, v => [(k, v)]
  | e :: d, k, v => if e.1 = k then (k, v) :: d else e :: assign d k v

/-- One assignment after the other; `f` may raise an exception. -/
def assignAll (f : α → Option β) (es : List (Text × α)) (d : List (Text × β)) :
    Option (List (Text × β)) :=
  es.foldlM (fun d e => (f e.2).map (assign d e.1)) d

/-- The keys in `ks` that are not in `old`. -/
def newKeys (old ks : List Text) : List Text := ks.filter fun k => !old.contains k

theorem mem_newKeys {old ks : List Text} {k : Text} : k ∈ newKeys old ks ↔ k ∈ ks ∧ k ∉ old := by
  simp [newKeys]

theorem lookup_cons_if (e : Text × β) (d : List (Text × β)) (j : Text) :
    (e :: d).lookup j = if j = e.1 then some e.2 else d.lookup j := by
  by_cases h : j = e.1
  · rw [if_pos h, h]
    exact List.lookup_cons_self
  · rw [if_neg h, List.lookup_cons, beq_eq_false_iff_ne.mpr h]

theorem lookup_assign (d : List (Text × β)) (k : Text) (v : β) (j : Text) :
    (assign d k v).lookup j = if j = k then some v else d.lookup j := by
  induction d with
  | nil => exact lookup_cons_if (k, v) [] j
  | cons e d ih =>
    unfold assign
    by_cases he : e.1 = k
    · rw [if_pos he, lookup_cons_if, lookup_cons_if, he]
      by_cases hj : j = k <;> simp [hj]
    · rw [if_neg he, lookup_cons_if, lookup_cons_if, ih]
      by_cases hj : j = e.1
      · simp [hj, he]
      · simp [hj]

theorem keys_assign (d : List (Text × β)) (k : Text) (v : β) :
    (assign d k v).map Prod.fst =
      if k ∈ d.map Prod.fst then d.map Prod.fst else d.map Prod.fst ++ [k] := by
  induction d with
  | nil => simp [assign]
  | cons e d ih =>
    unfold assign
    by_cases he : e.1 = k
    · simp [he]
    · rw [if_neg he, List.map_cons, ih]
      by_cases hk : k ∈ d.map Prod.fst
      · simp [hk]
      · simp [hk, Ne.symm he]

theorem lookup_of_mem {es : List (Text × α)} (hnodup : (es.map Prod.fst).Nodup) {e : Text × α}
    (he : e ∈ es) : es.lookup e.1 = some e.2 := by
  induction es with
  | nil => simp at he
  | cons x es ih =>
    rw [List.map_cons, List.nodup_cons] at hnodup
    rcases List.mem_cons.mp he with rfl | he
    · exact List.lookup_cons_self
    · have hne : e.1 ≠ x.1 := by
        intro heq
        exact hnodup.1 (heq ▸ List.mem_map_of_mem he)
      rw [lookup_cons_if, if_neg hne]
      exact ih hnodup.2 he

theorem lookup_eq_none {es : List (Text × α)} {k : Text} (hk : k ∉ es.map Prod.fst) :
    es.lookup k = none := by
  rw [List.lookup_eq_none_iff]
  intro e he
  rw [bne_iff_ne]
  rintro rfl
  exact hk (List.mem_map_of_mem he)

variable {f : α → Option β} {es : List (Text × α)} {d d' : List (Text × β)}

theorem assignAll_cons {e : Text × α} :
    assignAll f (e :: es) d = (f e.2).bind fun v => assignAll f es (assign d e.1 v) := by
  unfold assignAll
  rw [List.foldlM_cons]
  cases f e.2 <;> rfl

theorem assignAll_isSome : (assignAll f es d).isSome ↔ ∀ e ∈ es, (f e.2).isSome := by
  induction es generalizing d with
  | nil => simp [assignAll]
  | cons e es ih =>
    rw [assignAll_cons, List.forall_mem_cons]
    cases hf : f e.2 with
    | none => simp
    | some v => simpa using ih

/-- What has been assigned is found, and the rest is as before. -/
theorem lookup_assignAll (hnodup : (es.map Prod.fst).Nodup) (h : assignAll f es d = some d')
    (k : Text) : d'.lookup k = match es.lookup k with
      | some a => f a
      | none => d.lookup k := by
  induction es generalizing d with
  | nil =>
    obtain rfl := Option.some.inj h
    rfl
  | cons e es ih =>
    rw [List.map_cons, List.nodup_cons] at hnodup
    rw [assignAll_cons] at h
    obtain ⟨v, hv, h⟩ := Option.bind_eq_some_iff.mp h
    rw [ih hnodup.2 h, lookup_cons_if, lookup_assign]
    by_cases hk : k = e.1
    · rw [hk, lookup_eq_none hnodup.1, if_pos rfl, if_pos rfl]
      exact hv.symm
    · rw [if_neg hk, if_neg hk]

/-- New keys come behind the old ones. -/
theorem keys_assignAll (hnodup : (es.map Prod.fst).Nodup) (h : assignAll f es d = some d') :
    d'.map Prod.fst = d.map Prod.fst ++ newKeys (d.map Prod.fst) (es.map Prod.fst) := by
  induction es generalizing d with
  | nil =>
    obtain rfl := Option.some.inj h
    simp [newKeys]
  | cons e es ih =>
    rw [List.map_cons, List.nodup_cons] at hnodup
    rw [assignAll_cons] at h
    obtain ⟨v, hv, h⟩ := Option.bind_eq_some_iff.mp h
    rw [ih hnodup.2 h, keys_assign, List.map_cons]
    unfold newKeys
    by_cases hk : e.1 ∈ d.map Prod.fst
    · rw [if_pos hk, List.filter_cons_of_neg (by simpa using hk)]
    · have hother : ∀ k ∈ es.map Prod.fst, (!(d.map Prod.fst ++ [e.1]).contains k) =
          !(d.map Prod.fst).contains k := by
        intro k hmem
        have hne : k ≠ e.1 := by
          rintro rfl
          exact hnodup.1 hmem
        simp [hne]
      rw [if_neg hk, List.filter_congr hother, List.append_assoc,
        List.filter_cons_of_pos (by simpa using hk), List.singleton_append]

end

/-! ### Row by Row -/

section
variable {α β : Type*} {R : α → β → Prop} {l : List α} {l' : List β}

theorem exists_right (h : List.Forall₂ R l l') : ∀ a ∈ l, ∃ b ∈ l', R a b := by
  induction h with
  | nil => simp
  | @cons a b l l' hab _ ih =>
    rw [List.forall_mem_cons]
    constructor
    · exact ⟨b, List.mem_cons_self, hab⟩
    · intro x hx
      obtain ⟨y, hy, hxy⟩ := ih x hx
      exact ⟨y, List.mem_cons_of_mem b hy, hxy⟩

theorem exists_left (h : List.Forall₂ R l l') : ∀ b ∈ l', ∃ a ∈ l, R a b :=
  exists_right h.flip

theorem getLast_right (h : List.Forall₂ R l l') (hne : l ≠ []) :
    ∃ b, l'.getLast? = some b ∧ R (l.getLast hne) b := by
  induction h with
  | nil => contradiction
  | @cons a b l l' hab hrest ih =>
    cases hrest with
    | nil => exact ⟨b, rfl, hab⟩
    | cons hxy hrest =>
      obtain ⟨y, hy, hlast⟩ := ih (by simp)
      exact ⟨y, hy, hlast⟩

/-- A loop that computes a row for every element. -/
theorem mapM_forall₂ {f : α → Option β} (h : ∀ a ∈ l, (f a).isSome) :
    ∃ bs, l.mapM f = some bs ∧ List.Forall₂ (fun a b => f a = some b) l bs := by
  induction l with
  | nil => exact ⟨[], rfl, .nil⟩
  | cons a l ih =>
    rw [List.forall_mem_cons] at h
    obtain ⟨b, hb⟩ := Option.isSome_iff_exists.mp h.1
    obtain ⟨bs, hbs, hall⟩ := ih h.2
    refine ⟨b :: bs, ?_, .cons hb hall⟩
    rw [List.mapM_cons, hb, hbs]
    rfl

theorem forall₂_of_mapM {f : α → Option β} (h : l.mapM f = some l') :
    List.Forall₂ (fun a b => f a = some b) l l' := by
  induction l generalizing l' with
  | nil =>
    obtain rfl := Option.some.inj h
    exact .nil
  | cons a l ih =>
    rw [List.mapM_cons] at h
    obtain ⟨b, hb, h⟩ := Option.bind_eq_some_iff.mp h
    obtain ⟨bs, hbs, h⟩ := Option.bind_eq_some_iff.mp h
    obtain rfl := Option.some.inj h
    exact .cons hb (ih hbs)

/-- Through a list in the middle. -/
theorem forall₂_through {γ : Type*} {S : β → γ → Prop} {l'' : List γ} (h : List.Forall₂ R l l')
    (h' : List.Forall₂ S l' l'') : List.Forall₂ (fun a c => ∃ b, R a b ∧ S b c) l l'' := by
  induction h generalizing l'' with
  | nil =>
    cases h'
    exact .nil
  | cons hab _ ih =>
    cases h' with
    | cons hbc hrest => exact .cons ⟨_, hab, hbc⟩ (ih hrest)

/-- Selecting by a mask that was computed row by row. -/
theorem filter_mask (l : List α) (p : α → Bool) :
    ((l.zip (l.map p)).filter Prod.snd).map Prod.fst = l.filter p := by
  induction l with
  | nil => rfl
  | cons a l ih =>
    rw [List.map_cons, List.zip_cons_cons, List.filter_cons, List.filter_cons]
    by_cases hp : p a <;> simp [hp, ih]

end

/-! ### Data Frames -/

/-- A cell; integers and floats are compared as numbers. -/
inductive Cell where
  | text (t : Text)
  | num (x : ℚ)
  | inf (negative : Bool)
  /-- Also where nothing was given. -/
  | nan
  deriving DecidableEq

/-- The package; frames are seen through their columns and rows. -/
structure Pandas (F : Type*) where
  columns : F → List Text
  rows : F → List (Text → Cell)
  /-- `pd.DataFrame( ds, columns = ks )`. -/
  DataFrame : List (List (Text × Cell)) → List Text → F
  /-- `f[ mask ]`. -/
  mask : F → List Bool → F
  /-- `f.iloc[ :, is ]`. -/
  iloc : F → List Nat → F
  /-- `f.rename( columns = { old : new } )`. -/
  rename : F → Text → Text → F
  /-- `l.merge( r, on = on, how = 'left' )`. -/
  merge : F → F → Text → F

section
variable {F : Type*} (pd : Pandas F)

/-- Two frames have no column in common except for `on`. -/
structure Joinable (on : Text) (l r : F) : Prop where
  left : on ∈ pd.columns l
  right : on ∈ pd.columns r
  disjoint : ∀ c ∈ pd.columns l, c ∈ pd.columns r → c = on

/-- What is known about the package. -/
structure Lawful : Prop where
  columns_DataFrame : ∀ ds ks, ks.Nodup → pd.columns (pd.DataFrame ds ks) = ks
  rows_DataFrame : ∀ ds ks, List.Forall₂
    (fun d row => ∀ k ∈ ks, row k = (d.lookup k).getD .nan) ds (pd.rows (pd.DataFrame ds ks))
  columns_mask : ∀ f m, pd.columns (pd.mask f m) = pd.columns f
  rows_mask : ∀ f m, m.length = (pd.rows f).length →
    pd.rows (pd.mask f m) = (((pd.rows f).zip m).filter Prod.snd).map Prod.fst
  columns_iloc : ∀ f is, (∀ i ∈ is, i < (pd.columns f).length) →
    pd.columns (pd.iloc f is) = is.filterMap fun i => (pd.columns f)[i]?
  rows_iloc : ∀ f is, (pd.columns f).Nodup → List.Forall₂
    (fun a b => ∀ c ∈ pd.columns (pd.iloc f is), b c = a c) (pd.rows f) (pd.rows (pd.iloc f is))
  columns_rename : ∀ f old new,
    pd.columns (pd.rename f old new) = (pd.columns f).map fun c => if c = old then new else c
  rows_rename : ∀ f old new, new ∉ pd.columns f → List.Forall₂
    (fun a b => ∀ c ∈ pd.columns f, b (if c = old then new else c) = a c)
    (pd.rows f) (pd.rows (pd.rename f old new))
  columns_merge : ∀ l r on, Joinable pd on l r →
    pd.columns (pd.merge l r on) = pd.columns l ++ (pd.columns r).filter (· ≠ on)
  /-- Every row extends one of the left frame. -/
  merge_left : ∀ l r on, Joinable pd on l r → ∀ row ∈ pd.rows (pd.merge l r on),
    ∃ a ∈ pd.rows l, ∀ c ∈ pd.columns l, row c = a c
  /-- Every row of the left frame is extended. -/
  merge_keeps : ∀ l r on, Joinable pd on l r → ∀ a ∈ pd.rows l,
    ∃ row ∈ pd.rows (pd.merge l r on), ∀ c ∈ pd.columns l, row c = a c
  /-- Also by every row of the right frame that it matches. -/
  merge_matches : ∀ l r on, Joinable pd on l r → ∀ a ∈ pd.rows l, ∀ b ∈ pd.rows r, a on = b on →
    ∃ row ∈ pd.rows (pd.merge l r on),
      (∀ c ∈ pd.columns l, row c = a c) ∧ ∀ c ∈ pd.columns r, row c = b c

/-! ### Chains of Left Joins -/

/-- The frames of the list are joined to the first one. -/
def joinAll (on : Text) (f : F) (rs : List F) : F := rs.foldl (fun l r => pd.merge l r on) f

/-- The frames have no columns in common except for `on`. -/
structure Chain (on : Text) (f : F) (rs : List F) : Prop where
  has : ∀ r ∈ f :: rs, on ∈ pd.columns r
  disjoint : (f :: rs).Pairwise fun l r => ∀ c ∈ pd.columns l, c ∈ pd.columns r → c = on

end

section
variable {F : Type*} {pd : Pandas F} {on : Text} {f r : F} {rs : List F}

theorem Chain.joinable (h : Chain pd on f (r :: rs)) : Joinable pd on f r where
  left := h.has f (by simp)
  right := h.has r (by simp)
  disjoint := (List.pairwise_cons.mp h.disjoint).1 r (by simp)

theorem Chain.merge (hpd : Lawful pd) (h : Chain pd on f (r :: rs)) :
    Chain pd on (pd.merge f r on) rs := by
  have hcolumns := hpd.columns_merge f r on h.joinable
  obtain ⟨hfirst, hrest⟩ := List.pairwise_cons.mp h.disjoint
  obtain ⟨hsecond, hrest⟩ := List.pairwise_cons.mp hrest
  constructor
  · rw [List.forall_mem_cons, hcolumns]
    exact ⟨List.mem_append_left _ h.joinable.left, fun x hx => h.has x (by simp [hx])⟩
  · refine List.pairwise_cons.mpr ⟨?_, hrest⟩
    intro x hx c hc hcx
    rw [hcolumns] at hc
    rcases List.mem_append.mp hc with hc | hc
    · exact hfirst x (by simp [hx]) c hc hcx
    · exact hsecond x hx c (List.mem_of_mem_filter hc) hcx

theorem columns_subset_merge (hpd : Lawful pd) (h : Joinable pd on f r) {c : Text}
    (hc : c ∈ pd.columns f) : c ∈ pd.columns (pd.merge f r on) := by
  rw [hpd.columns_merge f r on h]
  exact List.mem_append_left _ hc

/-- The columns of the right frame are there as well. -/
theorem columns_right_merge (hpd : Lawful pd) (h : Joinable pd on f r) {c : Text}
    (hc : c ∈ pd.columns r) : c ∈ pd.columns (pd.merge f r on) := by
  rw [hpd.columns_merge f r on h]
  by_cases hon : c = on
  · exact List.mem_append_left _ (hon ▸ h.left)
  · exact List.mem_append_right _ (by simp [hc, hon])

/-- **No new rows**: every row of the chain extends one of the first frame. -/
theorem joinAll_left (hpd : Lawful pd) (h : Chain pd on f rs) :
    ∀ row ∈ pd.rows (joinAll pd on f rs), ∃ a ∈ pd.rows f, ∀ c ∈ pd.columns f, row c = a c := by
  induction rs generalizing f with
  | nil => exact fun row hrow => ⟨row, hrow, fun _ _ => rfl⟩
  | cons r rs ih =>
    intro row hrow
    obtain ⟨b, hb, hrowb⟩ := ih (h.merge hpd) row hrow
    obtain ⟨a, ha, hba⟩ := hpd.merge_left f r on h.joinable b hb
    refine ⟨a, ha, ?_⟩
    intro c hc
    rw [hrowb c (columns_subset_merge hpd h.joinable hc), hba c hc]

/-- **No row is lost** of the first frame. -/
theorem joinAll_keeps (hpd : Lawful pd) (h : Chain pd on f rs) :
    (∀ c ∈ pd.columns f, c ∈ pd.columns (joinAll pd on f rs)) ∧
    ∀ a ∈ pd.rows f, ∃ row ∈ pd.rows (joinAll pd on f rs), ∀ c ∈ pd.columns f, row c = a c := by
  induction rs generalizing f with
  | nil => exact ⟨fun _ hc => hc, fun a ha => ⟨a, ha, fun _ _ => rfl⟩⟩
  | cons r rs ih =>
    obtain ⟨hcolumns, hrows⟩ := ih (h.merge hpd)
    constructor
    · exact fun c hc => hcolumns c (columns_subset_merge hpd h.joinable hc)
    · intro a ha
      obtain ⟨b, hb, hba⟩ := hpd.merge_keeps f r on h.joinable a ha
      obtain ⟨row, hrow, hrowb⟩ := hrows b hb
      refine ⟨row, hrow, ?_⟩
      intro c hc
      rw [hrowb c (columns_subset_merge hpd h.joinable hc), hba c hc]

/-- **Matches are found** in every frame of the chain. -/
theorem joinAll_matches (hpd : Lawful pd) (h : Chain pd on f rs) (hr : r ∈ rs) :
    (∀ c ∈ pd.columns r, c ∈ pd.columns (joinAll pd on f rs)) ∧
    ∀ a ∈ pd.rows f, ∀ b ∈ pd.rows r, a on = b on →
      ∃ row ∈ pd.rows (joinAll pd on f rs), ∀ c ∈ pd.columns r, row c = b c := by
  induction rs generalizing f with
  | nil => simp at hr
  | cons x rs ih =>
    have hjoin := h.joinable
    rcases List.mem_cons.mp hr with rfl | hr
    · obtain ⟨hcolumns, hrows⟩ := joinAll_keeps hpd (h.merge hpd)
      constructor
      · exact fun c hc => hcolumns c (columns_right_merge hpd hjoin hc)
      · intro a ha b hb hab
        obtain ⟨m, hm, -, hmb⟩ := hpd.merge_matches f r on hjoin a ha b hb hab
        obtain ⟨row, hrow, hrowm⟩ := hrows m hm
        refine ⟨row, hrow, ?_⟩
        intro c hc
        rw [hrowm c (columns_right_merge hpd hjoin hc), hmb c hc]
    · obtain ⟨hcolumns, hrows⟩ := ih (h.merge hpd) hr
      refine ⟨hcolumns, ?_⟩
      intro a ha b hb hab
      obtain ⟨m, hm, hma⟩ := hpd.merge_keeps f x on hjoin a ha
      exact hrows m hm b hb ((hma on hjoin.left).trans hab)

end

/-! ### A Package -/

/-- A frame as it is seen. -/
structure Frame where
  columns : List Text
  rows : List (Text → Cell)

/-- Frames that are nothing else than what is seen of them. -/
def plainPandas : Pandas Frame where
  columns := Frame.columns
  rows := Frame.rows
  DataFrame ds ks := ⟨ks, ds.map fun d k => (d.lookup k).getD .nan⟩
  mask f m := ⟨f.columns, ((f.rows.zip m).filter Prod.snd).map Prod.fst⟩
  iloc f is := ⟨is.filterMap fun i => f.columns[i]?, f.rows⟩
  rename f old new :=
    ⟨f.columns.map fun c => if c = old then new else c,
      f.rows.map fun row c => if c = new then row old else row c⟩
  merge l r on :=
    ⟨l.columns ++ r.columns.filter (· ≠ on),
      l.rows.flatMap fun a =>
        match r.rows.filter fun b => a on = b on with
        | [] => [fun c => if c ∈ l.columns then a c else .nan]
        | bs => bs.map fun b c => if c ∈ l.columns then a c else b c⟩

/-- A row of a join extends a row of the left frame, alone or by a match. -/
theorem mem_plain_merge {l r : Frame} {on : Text} {row : Text → Cell} :
    row ∈ (plainPandas.merge l r on).rows ↔ ∃ a ∈ l.rows,
      ((∀ b ∈ r.rows, a on ≠ b on) ∧ row = fun c => if c ∈ l.columns then a c else .nan) ∨
      ∃ b ∈ r.rows, a on = b on ∧ row = fun c => if c ∈ l.columns then a c else b c := by
  show row ∈ List.flatMap _ l.rows ↔ _
  rw [List.mem_flatMap]
  apply exists_congr
  intro a
  apply and_congr_right
  intro _
  have hmem : ∀ b, b ∈ (r.rows.filter fun b => a on = b on) ↔ b ∈ r.rows ∧ a on = b on := by
    intro b
    simp
  generalize (r.rows.filter fun b => decide (a on = b on)) = bs at hmem
  cases bs with
  | nil =>
    have hno : ∀ b ∈ r.rows, a on ≠ b on := fun b hb hab => by simpa using (hmem b).mpr ⟨hb, hab⟩
    simp only [List.mem_singleton]
    constructor
    · exact fun hrow => .inl ⟨hno, hrow⟩
    · rintro (⟨-, hrow⟩ | ⟨b, hb, hab, -⟩)
      · exact hrow
      · exact absurd hab (hno b hb)
  | cons b0 bs =>
    simp only [List.mem_map]
    constructor
    · rintro ⟨b, hb, hrow⟩
      obtain ⟨hbr, hab⟩ := (hmem b).mp hb
      exact .inr ⟨b, hbr, hab, hrow.symm⟩
    · rintro (⟨hno, -⟩ | ⟨b, hb, hab, hrow⟩)
      · obtain ⟨hbr, hab⟩ := (hmem b0).mp List.mem_cons_self
        exact absurd hab (hno b0 hbr)
      · exact ⟨b, (hmem b).mpr ⟨hb, hab⟩, hrow.symm⟩

theorem plainPandas_lawful : Lawful plainPandas where
  columns_DataFrame _ _ _ := rfl
  rows_DataFrame ds ks := by
    show List.Forall₂ _ ds (ds.map _)
    rw [List.forall₂_map_right_iff, List.forall₂_same]
    exact fun _ _ _ _ => rfl
  columns_mask _ _ := rfl
  rows_mask _ _ _ := rfl
  columns_iloc _ _ _ := rfl
  rows_iloc f is _ := by
    show List.Forall₂ _ f.rows f.rows
    rw [List.forall₂_same]
    exact fun _ _ _ _ => rfl
  columns_rename _ _ _ := rfl
  rows_rename f old new hnew := by
    show List.Forall₂ _ f.rows (f.rows.map _)
    rw [List.forall₂_map_right_iff, List.forall₂_same]
    intro row _ c hc
    by_cases hold : c = old
    · simp [hold]
    · have hne : c ≠ new := by
        rintro rfl
        exact hnew hc
      simp [hold, hne]
  columns_merge _ _ _ _ := rfl
  merge_left l r on _ row hrow := by
    obtain ⟨a, ha, hcases⟩ := mem_plain_merge.mp hrow
    refine ⟨a, ha, ?_⟩
    rcases hcases with ⟨-, rfl⟩ | ⟨b, -, -, rfl⟩
    · exact fun c hc => if_pos hc
    · exact fun c hc => if_pos hc
  merge_keeps l r on _ a ha := by
    by_cases h : ∃ b ∈ r.rows, a on = b on
    · obtain ⟨b, hb, hab⟩ := h
      exact ⟨_, mem_plain_merge.mpr ⟨a, ha, .inr ⟨b, hb, hab, rfl⟩⟩, fun c hc => if_pos hc⟩
    · have hno : ∀ b ∈ r.rows, a on ≠ b on := fun b hb hab => h ⟨b, hb, hab⟩
      exact ⟨_, mem_plain_merge.mpr ⟨a, ha, .inl ⟨hno, rfl⟩⟩, fun c hc => if_pos hc⟩
  merge_matches l r on hjoin a ha b hb hab := by
    refine ⟨_, mem_plain_merge.mpr ⟨a, ha, .inr ⟨b, hb, hab, rfl⟩⟩, fun c hc => if_pos hc, ?_⟩
    intro c hc
    by_cases hleft : c ∈ l.columns
    · obtain rfl := hjoin.disjoint c hleft hc
      exact (if_pos hleft).trans hab
    · exact if_neg hleft

end Frames
