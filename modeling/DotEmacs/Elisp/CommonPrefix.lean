import Mathlib.Data.List.Infix
import Mathlib.Data.Nat.Notation
import Mathlib.Tactic.SplitIfs

/-!
# What texts have in common at their beginning

Texts are compared by a key for each character: the character itself, or what it is in upper case.
`try-completion` finds a text that begins with just those texts that all of some texts begin with.

## Main definitions

* `Elisp.StartsWith`: a text begins with another, by key.
* `Elisp.tryCompletion`: the longest common beginning of several texts.

## Main results

* `Elisp.startsWith_tryCompletion_iff`: what begins all the texts begins their common beginning.
-/

namespace DotEmacs.Elisp

variable {α β : Type} (key : α → β)

/-- The text `u` begins the text `v`, by key. -/
def StartsWith (u v : List α) : Prop := u.map key <+: v.map key

variable {key} {u v w : List α} {n : ℕ}

theorem startsWith_cons {a b : α} :
    StartsWith key (a :: u) (b :: v) ↔ key a = key b ∧ StartsWith key u v := by
  rw [StartsWith, List.map_cons, List.map_cons, List.cons_prefix_cons]
  rfl

theorem startsWith_take_iff : StartsWith key u (v.take n) ↔ StartsWith key u v ∧ u.length ≤ n := by
  rw [StartsWith, List.map_take, List.prefix_take_iff, List.length_map]
  rfl

section Common

variable [DecidableEq β] (key) (replace : Bool)

/-- The number of characters that two texts have in common at their beginning, by key. -/
def commonLength : List α → List α → ℕ
  | a :: u, b :: v => if key a = key b then commonLength u v + 1 else 0
  | _, _ => 0

/-- One text more in `try-completion`: `best` is the text of which `size` characters are common to
all so far. If case does not count, a text of which all is common replaces a longer one. -/
def tryNext : List α × ℕ → List α → List α × ℕ
  | (best, size), elt =>
      let size' := min size (commonLength key best elt)
      if replace ∧ size' = elt.length ∧ size' < best.length then (elt, size') else (best, size')

/-- `(try-completion "" …)` on several texts. -/
def tryCompletion (first : List α) (rest : List (List α)) : List α :=
  let (best, size) := rest.foldl (tryNext key replace) (first, first.length)
  best.take size

variable {key replace}

/-- What begins one text begins another if it is no longer than what they have in common. -/
theorem startsWith_iff_length_le (h : StartsWith key u v) :
    StartsWith key u w ↔ u.length ≤ commonLength key v w := by
  induction u generalizing v w with
  | nil => exact ⟨fun _ => Nat.zero_le _, fun _ => List.nil_prefix⟩
  | cons a u ih =>
      match v, w with
      | [], _ => simp [StartsWith] at h
      | b :: v, [] => simp [StartsWith, commonLength]
      | b :: v, c :: w =>
          obtain ⟨hab, huv⟩ := startsWith_cons.mp h
          rw [startsWith_cons, commonLength, hab]
          split_ifs with hbc
          · rw [List.length_cons, Nat.add_le_add_iff_right, ← ih huv]
            exact and_iff_right hbc
          · simp [hbc]

/-- What begins what is common so far and one text more. -/
theorem startsWith_take_min_iff :
    StartsWith key u (v.take (min n (commonLength key v w))) ↔
      StartsWith key u (v.take n) ∧ StartsWith key u w := by
  rw [startsWith_take_iff, startsWith_take_iff, Nat.le_min, and_assoc]
  exact and_congr_right fun h => and_congr_right' (startsWith_iff_length_le h).symm

/-- A text of which all is common is what is common, by key. -/
theorem map_take_eq_of_length_eq (h : min n (commonLength key v w) = w.length)
    (hlt : min n (commonLength key v w) < v.length) :
    (v.take (min n (commonLength key v w))).map key = w.map key := by
  have hstarts : StartsWith key (v.take (min n (commonLength key v w))) w :=
    (startsWith_take_min_iff.mp List.prefix_rfl).2
  refine List.IsPrefix.eq_of_length hstarts ?_
  rw [List.length_map, List.length_map, List.length_take, Nat.min_eq_left hlt.le, h]

theorem startsWith_tryNext_iff (best elt : List α) (size : ℕ) :
    StartsWith key u ((tryNext key replace (best, size) elt).1.take
        (tryNext key replace (best, size) elt).2) ↔
      StartsWith key u (best.take size) ∧ StartsWith key u elt := by
  rw [tryNext, ← startsWith_take_min_iff]
  split_ifs with h
  · rw [StartsWith, StartsWith, map_take_eq_of_length_eq h.2.1 h.2.2, h.2.1, List.take_length]
  · rfl

/-- **What begins all the texts begins their common beginning**, and the other way round. -/
theorem startsWith_tryCompletion_iff (first : List α) (rest : List (List α)) :
    StartsWith key u (tryCompletion key replace first rest) ↔
      ∀ v ∈ first :: rest, StartsWith key u v := by
  suffices h : ∀ acc : List α × ℕ,
      StartsWith key u ((rest.foldl (tryNext key replace) acc).1.take
        (rest.foldl (tryNext key replace) acc).2) ↔
      StartsWith key u (acc.1.take acc.2) ∧ ∀ v ∈ rest, StartsWith key u v by
    rw [tryCompletion, List.forall_mem_cons, h, List.take_length]
  induction rest with
  | nil => simp
  | cons elt rest ih =>
      rintro ⟨best, size⟩
      rw [List.foldl_cons, ih, startsWith_tryNext_iff, List.forall_mem_cons, and_assoc]

end Common

end DotEmacs.Elisp
