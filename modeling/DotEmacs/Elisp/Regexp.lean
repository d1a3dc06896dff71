import Mathlib.Computability.Language

/-!
# Regular expressions

Regular expressions with character classes, their languages, and a matcher by derivatives. Searching
a text for a regular expression succeeds if it matches some part of the text.

## Main definitions

* `Elisp.Regexp`, `Elisp.Regexp.language`: regular expressions and what they match.
* `Elisp.Regexp.stringMatch`: whether some part of a text is matched.

## Main results

* `Elisp.Regexp.matchesAll_iff`: the matcher decides the language.
* `Elisp.Regexp.stringMatch_iff`: searching finds what there is.
-/

namespace DotEmacs.Elisp

open Computability

/-- Regular expressions. A character class is given by its test. -/
inductive Regexp (α : Type)
  | none
  | empty
  | char (p : α → Bool)
  | seq (r s : Regexp α)
  | alt (r s : Regexp α)
  | star (r : Regexp α)

namespace Regexp

variable {α : Type}

/-- The texts that a regular expression matches. -/
def language : Regexp α → Language α
  | none => 0
  | empty => 1
  | char p => {l | ∃ a, p a = true ∧ l = [a]}
  | seq r s => r.language * s.language
  | alt r s => r.language + s.language
  | star r => r.language∗

/-- Whether a regular expression matches the empty text. -/
def nullable : Regexp α → Bool
  | none => false
  | empty => true
  | char _ => false
  | seq r s => r.nullable && s.nullable
  | alt r s => r.nullable || s.nullable
  | star _ => true

/-- What has to match behind a character. -/
def deriv (a : α) : Regexp α → Regexp α
  | none => none
  | empty => none
  | char p => if p a then empty else none
  | seq r s =>
      if r.nullable then alt (seq (r.deriv a) s) (s.deriv a) else seq (r.deriv a) s
  | alt r s => alt (r.deriv a) (s.deriv a)
  | star r => seq (r.deriv a) (star r)

/-- Whether a regular expression matches all of a text. -/
def matchesAll (r : Regexp α) (text : List α) : Bool :=
  (text.foldl (fun r a => r.deriv a) r).nullable

/-- `(string-match r text)`, as a test. -/
def stringMatch (r : Regexp α) (text : List α) : Bool :=
  text.tails.any fun behind => behind.inits.any r.matchesAll

variable {r s : Regexp α} {a : α} {l text : List α}

theorem nullable_iff : r.nullable = true ↔ [] ∈ r.language := by
  induction r with
  | none => exact iff_of_false Bool.false_ne_true (Language.notMem_zero [])
  | empty => exact iff_of_true rfl rfl
  | char p =>
      refine iff_of_false Bool.false_ne_true ?_
      rintro ⟨a, -, h⟩
      exact List.cons_ne_nil a [] h.symm
  | seq r s ihr ihs =>
      rw [nullable, Bool.and_eq_true, ihr, ihs, language, Language.mem_mul]
      constructor
      · rintro ⟨hr, hs⟩
        exact ⟨[], hr, [], hs, rfl⟩
      · rintro ⟨u, hu, v, hv, huv⟩
        obtain ⟨rfl, rfl⟩ := List.append_eq_nil_iff.mp huv
        exact ⟨hu, hv⟩
  | alt r s ihr ihs => rw [nullable, Bool.or_eq_true, ihr, ihs, language, Language.mem_add]
  | star r ih => exact iff_of_true rfl (Language.nil_mem_kstar _)

/-- A character in front of a concatenation comes from the first part, or that is empty. -/
theorem cons_mem_mul_iff {L M : Language α} :
    a :: l ∈ L * M ↔
      (∃ u v, u ++ v = l ∧ a :: u ∈ L ∧ v ∈ M) ∨ [] ∈ L ∧ a :: l ∈ M := by
  rw [Language.mem_mul]
  constructor
  · rintro ⟨u, hu, v, hv, huv⟩
    cases u with
    | nil => exact Or.inr ⟨hu, huv ▸ hv⟩
    | cons b u =>
        obtain ⟨rfl, rfl⟩ := List.cons_eq_cons.mp huv
        exact Or.inl ⟨u, v, rfl, hu, hv⟩
  · rintro (⟨u, v, rfl, hu, hv⟩ | ⟨hu, hv⟩)
    · exact ⟨a :: u, hu, v, hv, rfl⟩
    · exact ⟨[], hu, a :: l, hv, rfl⟩

/-- A character in front of a repetition comes from the first repeated part. -/
theorem cons_mem_kstar_iff {L : Language α} :
    a :: l ∈ L∗ ↔ ∃ u v, u ++ v = l ∧ a :: u ∈ L ∧ v ∈ L∗ := by
  constructor
  · intro h
    obtain ⟨S, hS, hmem⟩ := Language.mem_kstar_iff_exists_nonempty.mp h
    cases S with
    | nil => exact absurd hS (List.cons_ne_nil a l)
    | cons w S =>
        obtain ⟨b, u, rfl⟩ := List.exists_cons_of_ne_nil (hmem w List.mem_cons_self).2
        obtain ⟨rfl, hl⟩ := List.cons_eq_cons.mp hS
        exact ⟨u, S.flatten, hl.symm, (hmem _ List.mem_cons_self).1,
          Language.join_mem_kstar fun y hy => (hmem y (List.mem_cons_of_mem _ hy)).1⟩
  · rintro ⟨u, v, rfl, hu, hv⟩
    rw [← Language.one_add_self_mul_kstar_eq_kstar]
    exact Or.inr (Language.mem_mul.mpr ⟨a :: u, hu, v, hv, rfl⟩)

/-- A concatenation whose first part is what has to match behind a character. -/
theorem mem_mul_iff_of_forall {L M N : Language α} (h : ∀ u, u ∈ L ↔ a :: u ∈ N) :
    l ∈ L * M ↔ ∃ u v, u ++ v = l ∧ a :: u ∈ N ∧ v ∈ M := by
  rw [Language.mem_mul]
  constructor
  · rintro ⟨u, hu, v, hv, huv⟩
    exact ⟨u, v, huv, (h u).mp hu, hv⟩
  · rintro ⟨u, v, huv, hu, hv⟩
    exact ⟨u, (h u).mpr hu, v, hv, huv⟩

/-- Behind a character the derivative matches what the regular expression matches with it. -/
theorem mem_deriv_iff : l ∈ (r.deriv a).language ↔ a :: l ∈ r.language := by
  induction r generalizing l with
  | none => exact Iff.rfl
  | empty => exact iff_of_false (Language.notMem_zero l) (List.cons_ne_nil a l)
  | char p =>
      have hchar : a :: l ∈ (char p).language ↔ p a = true ∧ l = [] := by
        constructor
        · rintro ⟨b, hb, h⟩
          obtain ⟨rfl, rfl⟩ := List.cons_eq_cons.mp h
          exact ⟨hb, rfl⟩
        · rintro ⟨ha, rfl⟩
          exact ⟨a, ha, rfl⟩
      rw [deriv, hchar]
      split_ifs with ha
      · exact (and_iff_right ha).symm
      · exact iff_of_false (Language.notMem_zero l) fun h => ha h.1
  | seq r s ihr ihs =>
      have hseq := mem_mul_iff_of_forall (l := l) (M := s.language) fun u => ihr (l := u)
      rw [deriv, language, cons_mem_mul_iff, ← nullable_iff]
      split_ifs with hr
      · rw [language, Language.mem_add, language, hseq, ihs]
        exact or_congr_right (and_iff_right hr).symm
      · rw [language, hseq]
        exact (or_iff_left fun h => hr h.1).symm
  | alt r s ihr ihs => exact or_congr ihr ihs
  | star r ih =>
      rw [deriv, language, language, cons_mem_kstar_iff]
      exact mem_mul_iff_of_forall fun u => ih

/-- **The matcher decides the language.** -/
theorem matchesAll_iff : r.matchesAll l = true ↔ l ∈ r.language := by
  induction l generalizing r with
  | nil => exact nullable_iff
  | cons a l ih => rw [← mem_deriv_iff, ← ih]; rfl

/-- **Searching finds what there is.** -/
theorem stringMatch_iff :
    r.stringMatch text = true ↔ ∃ u v w, u ++ v ++ w = text ∧ v ∈ r.language := by
  simp only [stringMatch, List.any_eq_true, List.mem_tails, List.mem_inits, matchesAll_iff]
  constructor
  · rintro ⟨behind, ⟨u, rfl⟩, v, ⟨w, rfl⟩, hv⟩
    exact ⟨u, v, w, List.append_assoc u v w, hv⟩
  · rintro ⟨u, v, w, rfl, hv⟩
    exact ⟨v ++ w, ⟨u, (List.append_assoc u v w).symm⟩, v, ⟨w, rfl⟩, hv⟩

end Regexp

end DotEmacs.Elisp
