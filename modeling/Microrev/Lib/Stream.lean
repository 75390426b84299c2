import Mathlib.Data.List.DropRight
import Mathlib.Algebra.Order.Ring.Int
import Microrev.Lib.Decimal

/-! # Reading Numbers Line by Line

    Input streams of C++: `getline` into one string, and `stoll` and `stoi` on
    it. A stream that has come to its end leaves the string alone. So a program
    that reads lines without checking the stream sees the lines of the text,
    and then, over and over, what stands behind the last newline.
-/

open Text Decimal

/-- An input stream: what is to be read, `eofbit` and `failbit`. -/
structure IStream where
  rest : Text
  eof : Bool
  fail : Bool
  deriving DecidableEq

namespace IStream

/-! ### Streams -/

def ofText (t : Text) : IStream where
  rest := t
  eof := false
  fail := false

/-- `getline( s, rline, '\n' )`: the stream and the string afterwards. -/
def getline (s : IStream) (rline : Text) : IStream × Text :=
  if s.eof || s.fail then ({ s with fail := true }, rline)
  else match s.rest.dropWhile (· != '\n') with
    | [] => (⟨[], true, s.rest.isEmpty⟩, s.rest)
    | _ :: rest => (⟨rest, false, false⟩, s.rest.takeWhile (· != '\n'))

/-- What the string is after each of `n` calls. -/
def reads : Nat → IStream → Text → List Text
  | 0, _, _ => []
  | n + 1, s, rline =>
    (s.getline rline).2 :: reads n (s.getline rline).1 (s.getline rline).2

@[simp] theorem length_reads (n : Nat) (s : IStream) (rline : Text) :
    (reads n s rline).length = n := by
  induction n generalizing s rline with
  | zero => rfl
  | succ n ih => rw [reads, List.length_cons, ih]

/-- A line without the newline that ends it. -/
def chomp (l : Text) : Text := l.takeWhile (· != '\n')

/-- What stands behind the last newline. -/
def leftover (t : Text) : Text := t.rtakeWhile (· != '\n')

theorem ne_newline {l : Text} (h : '\n' ∉ l) : ∀ c ∈ l, (c != '\n') = true := by
  intro c hc
  rw [bne_iff_ne]
  rintro rfl
  exact h hc

theorem chomp_line {l : Text} (h : '\n' ∉ l) (t : Text) : chomp (l ++ '\n' :: t) = l := by
  unfold chomp
  rw [List.takeWhile_append_of_pos (ne_newline h)]
  simp

theorem chomp_eq_self {l : Text} (h : '\n' ∉ l) : chomp l = l :=
  List.takeWhile_eq_self_iff.mpr (ne_newline h)

theorem leftover_eq_self {l : Text} (h : '\n' ∉ l) : leftover l = l :=
  List.rtakeWhile_eq_self_iff.mpr (ne_newline h)

theorem leftover_line (l t : Text) : leftover (l ++ '\n' :: t) = leftover t := by
  unfold leftover List.rtakeWhile
  rw [List.reverse_append, List.reverse_cons, List.append_assoc]
  by_cases h : '\n' ∈ t
  · obtain ⟨a, b, hab⟩ := List.append_of_mem (List.mem_reverse.mpr h)
    rw [hab]
    simp [List.takeWhile_append]
  · have hall : ∀ c ∈ t.reverse, (c != '\n') = true :=
      fun c hc => ne_newline h c (List.mem_reverse.mp hc)
    rw [List.takeWhile_append_of_pos hall, List.takeWhile_eq_self_iff.mpr hall]
    simp

theorem lines_single {l : Text} (h : '\n' ∉ l) (hne : l ≠ []) : lines l = [l] := by
  induction l with
  | nil => contradiction
  | cons c l ih =>
    obtain ⟨hc, hl⟩ := List.ne_and_not_mem_of_not_mem_cons h
    unfold lines
    rw [if_neg hc.symm]
    cases l with
    | nil => rfl
    | cons d l => rw [ih hl (by simp)]

/-- A text is cut at its first newline. -/
theorem first_line (t : Text) : '\n' ∉ t ∨ ∃ l u, '\n' ∉ l ∧ t = l ++ '\n' :: u := by
  by_cases h : '\n' ∈ t
  · obtain ⟨l, u, heq, hl⟩ := List.eq_append_cons_of_mem h
    exact .inr ⟨l, u, hl, heq⟩
  · exact .inl h

/-! ### Reading Lines -/

theorem getline_line {l : Text} (h : '\n' ∉ l) (t rline : Text) :
    (ofText (l ++ '\n' :: t)).getline rline = (ofText t, l) := by
  have hdrop : (l ++ '\n' :: t).dropWhile (· != '\n') = '\n' :: t := by
    rw [List.dropWhile_append_of_pos (ne_newline h)]
    simp
  have htake := chomp_line h t
  unfold chomp at htake
  unfold getline ofText
  simp [hdrop, htake]

theorem getline_last {l : Text} (h : '\n' ∉ l) (rline : Text) :
    (ofText l).getline rline = (⟨[], true, l.isEmpty⟩, l) := by
  have hdrop : l.dropWhile (· != '\n') = [] := List.dropWhile_eq_nil_iff.mpr (ne_newline h)
  unfold getline ofText
  simp [hdrop]

/-- At the end the string stays as it is. -/
theorem reads_ended {s : IStream} (h : s.eof = true) (n : Nat) (rline : Text) :
    reads n s rline = List.replicate n rline := by
  induction n generalizing s with
  | zero => rfl
  | succ n ih =>
    have hline : s.getline rline = ({ s with fail := true }, rline) := by simp [getline, h]
    rw [reads, hline, List.replicate_succ]
    exact congrArg (rline :: ·) (ih h)

/-- **The lines, and then the rest**: what is read from a text, however many
    lines it has. -/
theorem reads_ofText (n : Nat) (t rline : Text) :
    reads n (ofText t) rline =
      ((lines t).map chomp ++ List.replicate n (leftover t)).take n := by
  induction n generalizing t rline with
  | zero => simp [reads]
  | succ n ih =>
    rcases first_line t with h | ⟨l, u, hl, rfl⟩
    · rw [reads, getline_last h, reads_ended rfl, leftover_eq_self h]
      rcases eq_or_ne t [] with rfl | hne
      · simp [lines, List.replicate_succ]
      · simp [lines_single h hne, chomp_eq_self h, List.replicate_succ']
    · rw [reads, getline_line hl, ih, lines_cons hl, leftover_line, List.map_cons,
        chomp_line hl, List.cons_append, List.take_succ_cons]
      congr 1
      have hlen : n ≤ ((lines u).map chomp ++ List.replicate n (leftover u)).length := by simp
      rw [List.replicate_succ', ← List.append_assoc]
      exact (List.take_append_of_le_length hlen).symm

/-! ### Numbers -/

/-- `isspace` in the C locale. -/
def isspace (c : Char) : Bool := c == ' ' || (decide ('\t' ≤ c) && decide (c ≤ '\r'))

/-- The longest leading integer, none if there is no digit. -/
def leadingInt (t : Text) : Option ℤ :=
  let r := readSign (t.dropWhile isspace)
  let ds := r.2.takeWhile Char.isDigit
  if ds = [] then none else some (signedValue r.1 ds)

/-- `stoll`: none if it throws. -/
def stoll (t : Text) : Option ℤ :=
  (leadingInt t).filter fun v => decide (-2 ^ 63 ≤ v ∧ v < 2 ^ 63)

/-- `stoi`: none if it throws. -/
def stoi (t : Text) : Option ℤ :=
  (leadingInt t).filter fun v => decide (-2 ^ 31 ≤ v ∧ v < 2 ^ 31)

theorem stoll_eq_some {t : Text} {v : ℤ} :
    stoll t = some v ↔ leadingInt t = some v ∧ -2 ^ 63 ≤ v ∧ v < 2 ^ 63 := by
  simp [stoll, Option.filter_eq_some_iff]

theorem stoi_eq_some {t : Text} {v : ℤ} :
    stoi t = some v ↔ leadingInt t = some v ∧ -2 ^ 31 ≤ v ∧ v < 2 ^ 31 := by
  simp [stoi, Option.filter_eq_some_iff]

theorem leadingInt_of_stoll {t : Text} (h : (stoll t).isSome) : leadingInt t = stoll t := by
  obtain ⟨v, hv⟩ := Option.isSome_iff_exists.mp h
  rw [hv, (stoll_eq_some.mp hv).1]

/-- Whatever `stoi` takes, `stoll` takes as well. -/
theorem stoll_of_stoi {t : Text} {v : ℤ} (h : stoi t = some v) : stoll t = some v := by
  obtain ⟨hv, hlo, hhi⟩ := stoi_eq_some.mp h
  exact stoll_eq_some.mpr ⟨hv, by omega, by omega⟩

/-- Lines that are read and converted, each by its own function. -/
def convert : List (Text → Option ℤ) → IStream → Text → Option (List ℤ)
  | [], _, _ => some []
  | f :: fs, s, rline => do
    let (s, rline) := s.getline rline
    let v ← f rline
    let vs ← convert fs s rline
    some (v :: vs)

/-- It succeeds if every conversion does on what is read for it. -/
theorem convert_isSome {fs : List (Text → Option ℤ)} {s : IStream} {rline : Text} :
    (convert fs s rline).isSome ↔
      ∀ p ∈ fs.zip (reads fs.length s rline), (p.1 p.2).isSome := by
  induction fs generalizing s rline with
  | nil => simp [convert]
  | cons f fs ih =>
    rw [List.length_cons, reads, List.zip_cons_cons, List.forall_mem_cons, ← ih]
    show ((f (s.getline rline).2).bind fun v =>
      (convert fs (s.getline rline).1 (s.getline rline).2).bind fun vs => some (v :: vs)).isSome ↔ _
    simp [Option.isSome_iff_exists, Option.bind_eq_some_iff]

/-- A list is paired with another one that is padded at its end. -/
theorem forall_zip_padded {α β : Type*} {P : α × β → Prop} (fs : List α) (as : List β) (x : β)
    {n : Nat} (hn : fs.length ≤ n) :
    (∀ p ∈ fs.zip (as ++ List.replicate n x), P p) ↔
      (∀ p ∈ fs.zip as, P p) ∧ ∀ f ∈ fs.drop as.length, P (f, x) := by
  induction fs generalizing as n with
  | nil => simp
  | cons f fs ih =>
    rw [List.length_cons] at hn
    cases as with
    | nil =>
      obtain ⟨m, rfl⟩ := Nat.exists_eq_add_of_lt (Nat.lt_of_lt_of_le (Nat.succ_pos _) hn)
      have hrest := ih [] (n := m) (by omega)
      simp only [Nat.zero_add, List.nil_append, List.replicate_succ, List.zip_cons_cons,
        List.forall_mem_cons, List.zip_nil_right, List.length_nil, List.drop_zero] at hrest ⊢
      rw [hrest]
      simp
    | cons a as =>
      have hrest := ih as (show fs.length ≤ n by omega)
      simp only [List.cons_append, List.zip_cons_cons, List.forall_mem_cons, List.length_cons,
        List.drop_succ_cons]
      rw [hrest, and_assoc]

theorem zip_take_right {α β : Type*} (fs : List α) (as : List β) {n : Nat} (hn : fs.length ≤ n) :
    fs.zip (as.take n) = fs.zip as := by
  induction fs generalizing as n with
  | nil => simp
  | cons f fs ih =>
    obtain ⟨m, rfl⟩ := Nat.exists_eq_add_of_lt (Nat.lt_of_lt_of_le (Nat.succ_pos _) hn)
    rw [List.length_cons] at hn
    cases as with
    | nil => simp
    | cons a as =>
      rw [Nat.zero_add, List.take_succ_cons, List.zip_cons_cons, List.zip_cons_cons,
        ih as (by omega)]

/-- **What has to be readable**: the lines, and what stands behind the last
    newline if there are not enough of them. -/
theorem convert_ofText_isSome (fs : List (Text → Option ℤ)) (t rline : Text) :
    (convert fs (ofText t) rline).isSome ↔
      (∀ p ∈ fs.zip (lines t), (p.1 (chomp p.2)).isSome) ∧
        ∀ f ∈ fs.drop (lines t).length, (f (leftover t)).isSome := by
  rw [convert_isSome, reads_ofText, zip_take_right _ _ le_rfl, forall_zip_padded _ _ _ le_rfl,
    List.length_map, List.zip_map_right, List.forall_mem_map]
  rfl

/-- Conversions that take less than `stoll` give the values of `stoll`. -/
theorem convert_stoll {fs : List (Text → Option ℤ)}
    (hf : ∀ f ∈ fs, ∀ t v, f t = some v → stoll t = some v) {s : IStream} {rline : Text}
    {vs : List ℤ} (h : convert fs s rline = some vs) :
    vs.map some = (reads fs.length s rline).map stoll := by
  induction fs generalizing s rline vs with
  | nil =>
    obtain rfl := Option.some.inj h
    rfl
  | cons f fs ih =>
    obtain ⟨v, hv, h⟩ := Option.bind_eq_some_iff.mp h
    obtain ⟨vs', hvs', h⟩ := Option.bind_eq_some_iff.mp h
    obtain rfl := Option.some.inj h
    have hfirst : stoll (s.getline rline).2 = some v := hf f List.mem_cons_self _ v hv
    have hrest : vs'.map some =
        (reads fs.length (s.getline rline).1 (s.getline rline).2).map stoll :=
      ih (fun g hg => hf g (List.mem_cons_of_mem _ hg)) hvs'
    rw [List.length_cons, reads, List.map_cons, List.map_cons, hrest, hfirst]

end IStream
