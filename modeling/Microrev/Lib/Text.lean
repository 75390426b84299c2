import Mathlib.Data.List.DropRight

/-! # Texts, Line by Line

    Texts as lists of characters, with the string functions of Python that
    a line-oriented reader uses: reading lines, `strip`, `split` on blanks,
    `startswith`. The lemmas say what these functions give on texts that
    were put together from lines and words.
-/

/-- A text. -/
abbrev Text := List Char

namespace Text

/-! ### Functions -/

/-- `str.isspace` for one character. -/
def isSpace (c : Char) : Bool :=
  c.toNat ∈ [0x9, 0xA, 0xB, 0xC, 0xD, 0x1C, 0x1D, 0x1E, 0x1F, 0x20, 0x85, 0xA0, 0x1680,
    0x2000, 0x2001, 0x2002, 0x2003, 0x2004, 0x2005, 0x2006, 0x2007, 0x2008, 0x2009, 0x200A,
    0x2028, 0x2029, 0x202F, 0x205F, 0x3000]

/-- `str.strip()`. -/
def strip (t : Text) : Text := (t.dropWhile isSpace).rdropWhile isSpace

/-- `str.split( " " )`. -/
def words (t : Text) : List Text := t.splitOn ' '

/-- What a text file gives to `readline`: every line with the newline that
    ends it. Only the last one may lack it. -/
def lines : Text → List Text
  | [] => []
  | c :: t =>
    if c = '\n' then [c] :: lines t
    else match lines t with
      | [] => [[c]]
      | l :: ls => (c :: l) :: ls

/-- Reading in text mode turns `\r` and `\r\n` into `\n`. -/
def universalNewlines : Text → Text
  | [] => []
  | '\r' :: '\n' :: t => '\n' :: universalNewlines t
  | '\r' :: t => '\n' :: universalNewlines t
  | c :: t => c :: universalNewlines t

/-- The text that has the given lines. -/
def unlines (ls : List Text) : Text := ls.flatMap fun l => l ++ ['\n']

/-- Without white space. -/
def Solid (t : Text) : Prop := ∀ c ∈ t, isSpace c = false

instance (t : Text) : Decidable (Solid t) := List.decidableBAll _ t

/-! ### Lines -/

@[simp] theorem unlines_nil : unlines [] = [] := rfl

@[simp] theorem unlines_cons (l : Text) (ls : List Text) :
    unlines (l :: ls) = l ++ '\n' :: unlines ls := by
  simp [unlines]

@[simp] theorem unlines_append (ls ls' : List Text) :
    unlines (ls ++ ls') = unlines ls ++ unlines ls' := by
  simp [unlines]

/-- The first line ends at the first newline. -/
theorem lines_cons {l : Text} (h : '\n' ∉ l) (t : Text) :
    lines (l ++ '\n' :: t) = (l ++ ['\n']) :: lines t := by
  induction l with
  | nil => simp [lines]
  | cons c l ih =>
    obtain ⟨hc, hl⟩ := List.ne_and_not_mem_of_not_mem_cons h
    simp [lines, Ne.symm hc, ih hl]

theorem lines_unlines {ls : List Text} (h : ∀ l ∈ ls, '\n' ∉ l) :
    lines (unlines ls) = ls.map fun l => l ++ ['\n'] := by
  induction ls with
  | nil => rfl
  | cons l ls ih =>
    rw [unlines_cons, lines_cons (h l (by simp)), ih fun l hl => h l (by simp [hl])]
    rfl

theorem universalNewlines_eq {t : Text} (h : '\r' ∉ t) : universalNewlines t = t := by
  induction t with
  | nil => rfl
  | cons c t ih =>
    obtain ⟨hc, ht⟩ := List.ne_and_not_mem_of_not_mem_cons h
    unfold universalNewlines
    split
    · contradiction
    · next heq =>
      obtain ⟨rfl, -⟩ := List.cons.inj heq
      contradiction
    · next heq =>
      obtain ⟨rfl, -⟩ := List.cons.inj heq
      contradiction
    · next heq =>
      obtain ⟨rfl, rfl⟩ := List.cons.inj heq
      rw [ih ht]

/-! ### Stripping -/

theorem not_mem_of_solid {t : Text} {c : Char} (h : Solid t) (hc : isSpace c = true) : c ∉ t := by
  intro hmem
  rw [h c hmem] at hc
  contradiction

/-- A text that begins and ends with something solid is what is left when
    the newline behind it is stripped. -/
theorem strip_line {a b : Text} (mid : Text) (ha : Solid a) (hb : Solid b) (hna : a ≠ [])
    (hnb : b ≠ []) : strip (a ++ mid ++ b ++ ['\n']) = a ++ mid ++ b := by
  obtain ⟨c, a, rfl⟩ := List.exists_cons_of_ne_nil hna
  obtain ⟨b, d, rfl⟩ := List.eq_nil_or_concat b |>.resolve_left hnb
  have hc : isSpace c = false := ha c (by simp)
  have hd : isSpace d = false := hb d (by simp)
  have hdrop : (c :: a ++ mid ++ b.concat d ++ ['\n']).dropWhile isSpace =
      (c :: a ++ mid ++ b) ++ [d] ++ ['\n'] := by
    simp [hc]
  unfold strip
  rw [hdrop, List.rdropWhile_concat_pos _ _ _ (by decide),
    List.rdropWhile_concat_neg _ _ _ (by simp [hd])]
  simp

theorem strip_solid {t : Text} (h : Solid t) (hne : t ≠ []) : strip (t ++ ['\n']) = t := by
  obtain ⟨c, t, rfl⟩ := List.exists_cons_of_ne_nil hne
  cases t with
  | nil =>
    have hc : isSpace c = false := h c (by simp)
    simp [strip, hc, List.rdropWhile, show isSpace '\n' = true by decide]
  | cons d t =>
    have hsplit := strip_line [] (a := [c]) (b := d :: t) (fun x hx => h x (by simp_all))
      (fun x hx => h x (List.mem_cons_of_mem c hx)) (by simp) (by simp)
    simpa using hsplit

/-! ### Words -/

theorem words_cons {w : Text} (h : ' ' ∉ w) (t : Text) : words (w ++ ' ' :: t) = w :: words t := by
  unfold words
  exact List.splitOn_append_cons_self_of_not_mem h t

theorem words_solid {w : Text} (h : ' ' ∉ w) : words w = [w] := by
  unfold words
  exact List.splitOn_eq_singleton h

end Text
