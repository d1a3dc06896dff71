import Mathlib.Data.List.Sort
import Mathlib.Order.RelClasses

/-!
# Stable sorting

Sorting by a predicate that says when one element has to stand before another. Elements neither of
which has to stand before the other keep their order. For a strict weak order this determines the
result, whatever the algorithm; in particular sorting goes with selecting elements.

## Main definitions

* `Elisp.sort`: the sorted list.

## Main results

* `Elisp.filter_sort`: to sort and then select is to select and then sort.
-/

namespace DotEmacs.Elisp

variable {α : Type} (lt : α → α → Prop) [DecidableRel lt] (l : List α)

/-- `(sort l lt)`. -/
def sort : List α := l.insertionSort fun a b => ¬ lt b a

@[simp] theorem sort_nil : sort lt [] = [] := rfl

theorem sort_cons (a : α) :
    sort lt (a :: l) = (sort lt l).orderedInsert (fun a b => ¬ lt b a) a := rfl

theorem perm_sort : (sort lt l).Perm l := List.perm_insertionSort _ l

@[simp] theorem mem_sort {a : α} : a ∈ sort lt l ↔ a ∈ l := (perm_sort lt l).mem_iff

variable {lt l}

/-- A list that is in order is left as it is. -/
theorem sort_eq_self (h : l.Pairwise fun a b => ¬ lt b a) : sort lt l = l := h.insertionSort_eq

variable [IsOrderConnected α lt]

instance isTrans_notLt : IsTrans α fun a b => ¬ lt b a where
  trans _ _ _ hab hbc := IsOrderConnected.neg_trans hbc hab

variable (lt)

/-- To insert an element and then select is to select and then insert, if it is selected. -/
theorem filter_orderedInsert (p : α → Bool) (a : α) (h : l.Pairwise fun a b => ¬ lt b a) :
    (l.orderedInsert (fun a b => ¬ lt b a) a).filter p =
      if p a then (l.filter p).orderedInsert (fun a b => ¬ lt b a) a else l.filter p := by
  induction l with
  | nil => cases hp : p a <;> simp [hp]
  | cons b l ih =>
      rw [List.pairwise_cons] at h
      by_cases hba : lt b a
      · rw [List.orderedInsert_of_not_le _ _ (not_not.mpr hba), List.filter_cons, ih h.2]
        cases hb : p b <;> cases ha : p a <;> simp [hb, hba]
      · rw [List.orderedInsert_cons_of_le _ _ hba, List.filter_cons]
        -- everything that is selected from the list stays behind the element
        have hle : ∀ c ∈ (b :: l).filter p, ¬ lt c a := by
          intro c hc
          rcases List.mem_cons.mp (List.mem_filter.mp hc).1 with rfl | hcl
          · exact hba
          · exact IsOrderConnected.neg_trans (h.1 c hcl) hba
        cases hf : (b :: l).filter p with
        | nil => rfl
        | cons c m =>
            rw [hf] at hle
            rw [List.orderedInsert_cons_of_le _ _ (hle c List.mem_cons_self)]

variable [Std.Asymm lt]

instance total_notLt : Std.Total fun a b => ¬ lt b a where
  total a b := by
    by_cases h : lt b a
    · exact Or.inr (asymm h)
    · exact Or.inl h

theorem pairwise_sort (l : List α) : (sort lt l).Pairwise fun a b => ¬ lt b a :=
  List.pairwise_insertionSort _ l

/-- **To sort and then select is to select and then sort.** -/
theorem filter_sort (p : α → Bool) (l : List α) :
    (sort lt l).filter p = sort lt (l.filter p) := by
  induction l with
  | nil => rfl
  | cons a l ih =>
      rw [sort_cons, filter_orderedInsert lt p a (pairwise_sort lt l), ih]
      cases hp : p a <;> simp [hp, sort_cons]

/-! ### Sorting by a key -/

section Key

variable {κ : Type} [LinearOrder κ] (key : α → κ)

instance asymm_keyLt : Std.Asymm fun a b => key a < key b where
  asymm _ _ := lt_asymm

instance isOrderConnected_keyLt : IsOrderConnected α fun a b => key a < key b where
  conn _ b _ hac := (lt_or_ge _ (key b)).imp_right fun hba => hba.trans_lt hac

end Key

end DotEmacs.Elisp
