import Mathlib.Data.Int.Notation
import Mathlib.Data.List.TakeWhile

/-!
# Lines and columns of a text

The text of a buffer is the list of its characters, and a position the number of characters
before it. A newline starts a new line at column zero, a tab leads to the next multiple of the tab
width, and any other character takes the columns that its display takes.

## Main definitions

* `Elisp.Display`, `Elisp.Display.column`: the column behind a text.
* `Elisp.endOfLine`, `Elisp.insertText`, `Elisp.markerAfterInsert`.

## Main results

* `Elisp.Display.column_append_spaces`: a space takes one column.
* `Elisp.Display.column_le_column_append`: the column grows along a line.
-/

namespace DotEmacs.Elisp

/-! ### Columns -/

/-- How the characters of a text are displayed. -/
structure Display where
  tabWidth : ℕ
  tabWidth_pos : 0 < tabWidth
  /-- The columns that a character other than a tab or a newline takes. -/
  charWidth : Char → ℕ
  charWidth_space : charWidth ' ' = 1

namespace Display

variable (d : Display)

/-- The column behind a character that stands at a given column. -/
def advance (column : ℕ) (c : Char) : ℕ :=
  if c = '\n' then 0
  else if c = '\t' then (column / d.tabWidth + 1) * d.tabWidth
  else column + d.charWidth c

/-- The column behind a text. -/
def column (text : List Char) : ℕ := text.foldl d.advance 0

theorem column_append (text text' : List Char) :
    d.column (text ++ text') = text'.foldl d.advance (d.column text) := List.foldl_append

theorem foldl_advance_spaces (n column : ℕ) :
    (List.replicate n ' ').foldl d.advance column = column + n := by
  induction n generalizing column with
  | zero => rfl
  | succ n ih =>
      have hspace : d.advance column ' ' = column + 1 := by
        simp [advance, d.charWidth_space]
      rw [List.replicate_succ, List.foldl_cons, hspace, ih]
      omega

/-- A space takes one column. -/
theorem column_append_spaces (text : List Char) (n : ℕ) :
    d.column (text ++ List.replicate n ' ') = d.column text + n := by
  rw [column_append, foldl_advance_spaces]

theorem le_advance (column : ℕ) {c : Char} (hc : c ≠ '\n') : column ≤ d.advance column c := by
  rw [advance, if_neg hc]
  split_ifs
  · have hmod := Nat.div_add_mod column d.tabWidth
    have hlt := Nat.mod_lt column d.tabWidth_pos
    rw [Nat.add_mul, Nat.mul_comm (column / d.tabWidth)]
    omega
  · omega

theorem le_foldl_advance (column : ℕ) {text : List Char} (h : '\n' ∉ text) :
    column ≤ text.foldl d.advance column := by
  induction text generalizing column with
  | nil => exact Nat.le_refl column
  | cons c text ih =>
      rw [List.mem_cons, not_or] at h
      exact Nat.le_trans (d.le_advance column (Ne.symm h.1)) (ih _ h.2)

/-- The column grows along a line. -/
theorem column_le_column_append (text : List Char) {text' : List Char} (h : '\n' ∉ text') :
    d.column text ≤ d.column (text ++ text') := by
  rw [column_append]
  exact d.le_foldl_advance _ h

end Display

/-! ### Positions -/

/-- The part of a text that is in front of its first newline. -/
def firstLine (text : List Char) : List Char := text.takeWhile (· ≠ '\n')

/-- The position to which `end-of-line` moves from the position `p`. -/
def endOfLine (text : List Char) (p : ℕ) : ℕ := p + (firstLine (text.drop p)).length

/-- The text with `s` inserted at the position `p`. -/
def insertText (text : List Char) (p : ℕ) (s : List Char) : List Char :=
  text.take p ++ s ++ text.drop p

/-- Where a marker of insertion type `t` is after `n` characters are inserted at `p`. -/
def markerAfterInsert (marker p n : ℕ) : ℕ := if p ≤ marker then marker + n else marker

theorem newline_notMem_firstLine (text : List Char) : '\n' ∉ firstLine text := by
  intro h
  simpa using List.mem_takeWhile_imp h

theorem firstLine_append_of_notMem {text : List Char} (h : '\n' ∉ text) (text' : List Char) :
    firstLine (text ++ text') = text ++ firstLine text' := by
  refine List.takeWhile_append_of_pos fun c hc => ?_
  simpa using fun heq : c = '\n' => h (heq ▸ hc)

theorem firstLine_of_notMem {text : List Char} (h : '\n' ∉ text) : firstLine text = text := by
  have hnil : firstLine [] = [] := rfl
  have happend := firstLine_append_of_notMem h []
  rwa [hnil, List.append_nil] at happend

/-- A text is its first line and what is behind it: nothing, or a newline and more text. -/
theorem exists_eq_firstLine_append (text : List Char) :
    ∃ rest, text = firstLine text ++ rest ∧ (rest = [] ∨ ∃ rest', rest = '\n' :: rest') := by
  induction text with
  | nil => exact ⟨[], rfl, Or.inl rfl⟩
  | cons c text ih =>
      by_cases hc : c = '\n'
      · subst hc
        exact ⟨'\n' :: text, rfl, Or.inr ⟨text, rfl⟩⟩
      · obtain ⟨rest, heq, hrest⟩ := ih
        refine ⟨rest, ?_, hrest⟩
        rw [firstLine, List.takeWhile_cons_of_pos (by simpa using hc), List.cons_append]
        exact congrArg (c :: ·) heq

/-- Where `end-of-line` moves to from the end of a text with another text behind it. -/
theorem endOfLine_append (x y : List Char) :
    endOfLine (x ++ y) x.length = (x ++ firstLine y).length := by
  rw [endOfLine, List.drop_left, List.length_append]

theorem insertText_append (x y s : List Char) :
    insertText (x ++ y) x.length s = x ++ s ++ y := by
  simp [insertText]

end DotEmacs.Elisp
