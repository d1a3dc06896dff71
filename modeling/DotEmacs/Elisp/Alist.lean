import Mathlib.Data.List.Induction
import Mathlib.Data.List.Nodup
import Mathlib.Tactic.SplitIfs

/-!
# Association lists and `add-to-list`

In an association list the first entry for a key is the one that counts. `add-to-list` puts an
element in front of a list unless the list has it already, so a list that grows by it alone keeps
the order in which its elements were added *first*. The element in front is the last of the new
ones: nothing new was added after it.

## Main definitions

* `Elisp.insertAll`: the list after adding elements in turn.
* `Elisp.LastNew`: the last element that was new when it was added.

## Main results

* `Elisp.lookup_cons_eq_ite`: looking a key up, one entry at a time.
* `Elisp.filter_fst_of_nodup`: the entries for a key, where each key has one.
* `Elisp.LastNew.insertAll_eq_cons`: the last new element is in front.
* `Elisp.exists_lastNew`: there is one, unless nothing was new.
-/

namespace DotEmacs.Elisp

/-! ### Association lists -/

section Lookup

variable {κ ν : Type} [DecidableEq κ]

theorem lookup_cons_eq_ite (k : κ) (d : ν) (l : List (κ × ν)) (k' : κ) :
    ((k, d) :: l).lookup k' = if k' = k then some d else l.lookup k' := by
  rw [List.lookup_cons]
  split_ifs with h
  · rw [h, beq_self_eq_true]
  · rw [beq_false_of_ne h]

theorem mem_of_lookup_eq_some {k : κ} {d : ν} {l : List (κ × ν)} (h : l.lookup k = some d) :
    (k, d) ∈ l := by
  induction l with
  | nil => simp at h
  | cons x l ih =>
      obtain ⟨k₀, d₀⟩ := x
      rw [lookup_cons_eq_ite] at h
      split_ifs at h with hk
      · rw [hk, Option.some.inj h]
        exact List.mem_cons_self
      · exact List.mem_cons_of_mem _ (ih h)

/-- In a list with one entry for each key, the entries for a key are what the key is found at. -/
theorem filter_fst_of_nodup {l : List (κ × ν)} (hl : (l.map Prod.fst).Nodup) (k : κ) :
    (l.filter (·.1 = k)).map Prod.snd = (l.lookup k).toList := by
  induction l with
  | nil => rfl
  | cons x l ih =>
      obtain ⟨k₀, d₀⟩ := x
      rw [List.map_cons, List.nodup_cons] at hl
      rw [lookup_cons_eq_ite]
      split_ifs with hk
      · subst hk
        have hnone : l.filter (·.1 = k) = [] := by
          rw [List.filter_eq_nil_iff]
          intro y hy
          simpa using fun heq : y.1 = k => hl.1 (List.mem_map.mpr ⟨y, hy, heq⟩)
        rw [List.filter_cons_of_pos (by simp), hnone]
        rfl
      · rw [List.filter_cons_of_neg (by simpa using fun heq => hk heq.symm), ih hl.2]

omit [DecidableEq κ] in
theorem findSome?_congr {f g : κ → Option ν} {l : List κ} (h : ∀ k ∈ l, f k = g k) :
    l.findSome? f = l.findSome? g := by
  induction l with
  | nil => rfl
  | cons k l ih =>
      obtain ⟨hk, hl⟩ := List.forall_mem_cons.mp h
      rw [List.findSome?_cons, List.findSome?_cons, hk, ih hl]

end Lookup

/-! ### Adding to a list again and again -/

variable {α : Type} [BEq α]

/-- The list after adding the elements of `es` in turn. -/
def insertAll (l es : List α) : List α := es.foldl (fun l x => l.insert x) l

@[simp] theorem insertAll_nil (l : List α) : insertAll l [] = l := rfl

@[simp] theorem insertAll_cons (l : List α) (x : α) (es : List α) :
    insertAll l (x :: es) = insertAll (l.insert x) es := rfl

theorem insertAll_append (l es fs : List α) :
    insertAll l (es ++ fs) = insertAll (insertAll l es) fs := List.foldl_append

variable [LawfulBEq α]

@[simp] theorem mem_insertAll {l es : List α} {y : α} :
    y ∈ insertAll l es ↔ y ∈ es ∨ y ∈ l := by
  induction es generalizing l with
  | nil => simp
  | cons x es ih =>
      rw [insertAll_cons, ih, List.mem_insert_iff, List.mem_cons]
      tauto

/-- Adding elements that the list has changes nothing. -/
theorem insertAll_eq_self {l : List α} : {es : List α} → (∀ x ∈ es, x ∈ l) → insertAll l es = l
  | [], _ => rfl
  | x :: es, h => by
      obtain ⟨hx, hes⟩ := List.forall_mem_cons.mp h
      rw [insertAll_cons, List.insert_of_mem hx, insertAll_eq_self hes]

/-- The element `e` was new when it was added, and what was added after it was not. -/
def LastNew (l es : List α) (e : α) : Prop :=
  ∃ pre post, es = pre ++ e :: post ∧ e ∉ l ∧ e ∉ pre ∧ ∀ x ∈ post, x ∈ e :: pre ∨ x ∈ l

omit [BEq α] [LawfulBEq α] in
theorem LastNew.mem {l es : List α} {e : α} (h : LastNew l es e) : e ∈ es := by
  obtain ⟨pre, post, rfl, -⟩ := h
  simp

/-- **The last new element is in front.** -/
theorem LastNew.insertAll_eq_cons {l es : List α} {e : α} (h : LastNew l es e) :
    ∃ l', insertAll l es = e :: l' := by
  obtain ⟨pre, post, rfl, hl, hpre, hpost⟩ := h
  have hnew : e ∉ insertAll l pre := by
    rw [mem_insertAll, not_or]
    exact ⟨hpre, hl⟩
  have hold : ∀ x ∈ post, x ∈ e :: insertAll l pre := by
    intro x hx
    rw [List.mem_cons, mem_insertAll, ← or_assoc, ← List.mem_cons]
    exact hpost x hx
  refine ⟨insertAll l pre, ?_⟩
  rw [insertAll_append, insertAll_cons, List.insert_of_not_mem hnew, insertAll_eq_self hold]

/-- There is a last new element, unless the list had all that was added. -/
theorem exists_lastNew {l es : List α} (h : ¬ ∀ x ∈ es, x ∈ l) : ∃ e, LastNew l es e := by
  induction es using List.reverseRecOn with
  | nil => exact absurd (by simp) h
  | append_singleton es x ih =>
      by_cases hx : x ∈ es ∨ x ∈ l
      · have hes : ¬ ∀ y ∈ es, y ∈ l := by
          intro hall
          refine h fun y hy => ?_
          rcases List.mem_append.mp hy with hy | hy
          · exact hall y hy
          · rw [List.mem_singleton.mp hy]
            exact hx.elim (hall x) id
        obtain ⟨e, pre, post, rfl, hl, hpre, hpost⟩ := ih hes
        refine ⟨e, pre, post ++ [x], by simp, hl, hpre, fun y hy => ?_⟩
        rcases List.mem_append.mp hy with hy | hy
        · exact hpost y hy
        · rw [List.mem_singleton.mp hy]
          refine hx.elim (fun hx => ?_) Or.inr
          rcases List.mem_append.mp hx with hx | hx
          · exact Or.inl (List.mem_cons_of_mem e hx)
          · exact (List.mem_cons.mp hx).elim (fun heq => by simp [heq]) (hpost x)
      · rw [not_or] at hx
        exact ⟨x, es, [], rfl, hx.2, hx.1, by simp⟩

end DotEmacs.Elisp
