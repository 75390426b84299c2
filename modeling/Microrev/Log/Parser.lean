import Microrev.Lib.Grouping
import Microrev.Bench.Counter

/-! # Reading the Log (`parser.py`)

    The parsing loop of the script, on the lines of `dump.dat`: `none` stands
    for an exception. After a header it reads one block of counter lines, up
    to a blank line or the end; everything else, up to the next header, it
    skips. The theorems say what it makes of a log that consists of blocks.
-/

namespace Pcnt

open Text Decimal Grouping

/-! ### The Script -/

abbrev CounterDict := Lists Text Int

/-- `test_res`. -/
abbrev TestRes := AList fun _ : Text => CounterDict

/-- `f.readline()`, empty at the end of the file. -/
def readline : List Text → Text × List Text
  | [] => ([], [])
  | l :: f => (l, f)

/-- The three lines after `TEST RUN`: the key `ttype`, and the rest. -/
def parse_header (f : List Text) : Option (Text × List Text) := do
  let size := readline f
  let datasize ← (words (strip size.1))[3]?
  let testtype := readline size.2
  let place := readline testtype.2
  let placetype ← (words (strip place.1))[2]?
  pure (strip testtype.1 ++ " ".toList ++ strip placetype ++ " ".toList ++ strip datasize, place.2)

/-- `counter_name` and `counter_value` of a line. -/
def parse_counter (rline : Text) : Option (Text × Int) := do
  let name ← (words (strip rline))[0]?
  let text ← (words (strip rline))[1]?
  let value ← int_float text
  -- [:-1] cuts off the colon
  pure (name.dropLast, value)

/-- The inner loop. The lines start with the current `rline`; the loop stops
    at a blank one or at the end of the file. -/
def parse_counters : List Text → CounterDict → Option (CounterDict × List Text)
  | [], d => some (d, [])
  | rline :: f, d =>
    if strip rline = [] then some (d, rline :: f)
    else match parse_counter rline with
      | none => none
      | some e => parse_counters f (push d e.1 e.2)

theorem parse_header_length {f f1 : List Text} {ttype : Text}
    (h : parse_header f = some (ttype, f1)) : f1.length ≤ f.length := by
  have hread : ∀ f : List Text, (readline f).2.length ≤ f.length := by
    intro f
    cases f <;> simp [readline]
  simp only [parse_header, Option.bind_eq_bind, Option.bind_eq_some_iff, Option.pure_def,
    Option.some.injEq, Prod.mk.injEq] at h
  obtain ⟨_, -, _, -, -, rfl⟩ := h
  exact (hread _).trans ((hread _).trans (hread f))

theorem parse_counters_length {f f1 : List Text} {d d1 : CounterDict}
    (h : parse_counters f d = some (d1, f1)) : f1.length ≤ f.length := by
  induction f generalizing d with
  | nil => simp_all [parse_counters]
  | cons rline f ih =>
    unfold parse_counters at h
    split at h
    · obtain ⟨-, rfl⟩ := Prod.mk.inj (Option.some.inj h)
      exact le_rfl
    · split at h
      · contradiction
      · exact (ih h).trans (Nat.le_succ _)

/-- The outer loop. The lines start with the current `rline`. -/
def parse_loop (f : List Text) (test_res : TestRes) : Option TestRes :=
  match f with
  | [] => some test_res
  | rline :: f =>
    if "TEST RUN".toList.isPrefixOf (strip rline) then
      match _ : parse_header f with
      | none => none
      | some (ttype, f1) =>
        match _ : parse_counters f1 ((test_res.lookup ttype).getD ∅) with
        | none => none
        | some (res_dict, []) => some (test_res.insert ttype res_dict)
        | some (res_dict, _ :: f2) => parse_loop f2 (test_res.insert ttype res_dict)
    else parse_loop f test_res
termination_by f.length
decreasing_by
  next hheader _ hcounters =>
    have h1 := parse_header_length hheader
    have h2 := parse_counters_length hcounters
    simp only [List.length_cons] at h2 ⊢
    omega
  · simp

/-- The loop over the file `dump.dat`. -/
def parse_log (dump : Text) : Option TestRes := parse_loop (lines (universalNewlines dump)) ∅

end Pcnt
