import Mathlib.Data.List.Nodup
import Mathlib.Data.List.Range
import Mathlib.Data.Nat.Notation
import Mathlib.Logic.Function.Basic
import Mathlib.Tactic.SplitIfs

/-!
# Merging the answers of several backends

A group of backends is asked for candidates, and each backend answers with a list or with a
function that delivers the list later. `company--merge-async` puts the lists together in the order
of the backends. When an answer is late it returns such a function itself: a loop gives every pair
a cell of its own, and whenever an answer is there its value is taken off the list of pending
answers; once that list is empty the cells are merged and the callback is called.

Late answers may come in any order, and also while the loop is still running. Answers are taken off
by `delq`, so by identity: two backends that answer `nil` are taken off together. The callback is
called exactly once, with everything in order, if and only if the answer that comes last shares its
identity with no other. Otherwise the list is reversed in place more than once, and cells are lost.

## Main definitions

* `Company.Pair`: an answer and the function that is applied to its list.
* `Company.mergeNow`: what is merged when all answers are lists.
* `Company.Merging`, `Company.Merging.Reachable`: the state of a merge, and the states reached by
  any interleaving of the loop and the late answers.

## Main results

* `Company.Merging.delivered_eq_singleton_iff`: when the callback is called exactly once.
* `Company.Merging.delivered_eq_of_nodup`: if no two answers are identical, it is called once all
  answers are there, and not before.
* `Company.Merging.exists_complete`: from the start, all answers can come.
* `Company.Merging.Reachable.derived`: whatever the callback is called with comes from the answers.
-/

namespace DotEmacs.Company

variable {α β : Type}

/-- The answer of a backend, with the function that is applied to its list. The answer has an
identity as a Lisp object; it is the list `result`, or if it is late, a function that will deliver
that list. -/
structure Pair (α : Type) where
  identity : ℕ
  late : Bool
  result : α
  mapper : α → α

/-- The values that are merged, in order. -/
def Pair.value (p : Pair α) : α := p.mapper p.result

/-- `company--merge-async` on pairs none of which is late.

Source: `company.el`, lines 1037–1042. -/
def mergeNow (merger : List α → β) (pairs : List (Pair α)) : β := merger (pairs.map Pair.value)

/-- The variables of the function that `company--merge-async` returns. The cells are counted in the
order in which they are made; `finished` is no variable, but tells which answers have come, the
last one first. -/
structure Merging (α β : Type) where
  /-- What the cells hold. -/
  cell : ℕ → α
  /-- The cells of the list `lst`. -/
  lst : List ℕ
  /-- The answers that are still pending, by their identities. -/
  pending : List ℕ
  /-- How many pairs the loop has come to. -/
  dispatched : ℕ
  finished : List ℕ
  /-- What the callback has been called with. -/
  delivered : List β

namespace Merging

variable (nil : α) (merger : List α → β) (pairs : List (Pair α))

/-- Before the loop.

Source: `company.el`, lines 1046–1047. -/
def start : Merging α β where
  cell _ := nil
  lst := []
  pending := pairs.map Pair.identity
  dispatched := 0
  finished := []
  delivered := []

/-- `(nreverse lst)`: the list that it returns, and the list that the variable is left with, which
begins at the cell that was the first and is now the last. -/
def nreverse (lst : List ℕ) : List ℕ × List ℕ := (lst.reverse, lst.take 1)

/-- The function `finisher`.

Source: `company.el`, lines 1048–1052. -/
def finisher (s : Merging α β) : Merging α β :=
  if s.pending = [] then
    { s with
      lst := (nreverse s.lst).2
      delivered := s.delivered ++ [merger ((nreverse s.lst).1.map s.cell)] }
  else s

/-- The function `this-finisher` of the pair with the cell `i`, called with its answer.

Source: `company.el`, lines 1058–1061. -/
def thisFinisher (i : ℕ) (p : Pair α) (s : Merging α β) : Merging α β :=
  finisher merger
    { s with
      pending := s.pending.filter (· ≠ p.identity)
      cell := Function.update s.cell i p.value
      finished := i :: s.finished }

/-- The body of the loop for its next pair, up to the start of the fetcher.

Source: `company.el`, lines 1053–1065. -/
def dispatch (p : Pair α) (s : Merging α β) : Merging α β :=
  let s' := { s with
    cell := Function.update s.cell s.dispatched nil
    lst := s.dispatched :: s.lst
    dispatched := s.dispatched + 1 }
  if p.late then s' else thisFinisher merger s.dispatched p s'

/-- The states that are reached when the loop takes its steps and late answers come in between, in
any order, each once and not before the loop has come to its pair. -/
inductive Reachable : Merging α β → Prop
  | start : Reachable (start nil pairs)
  | dispatch {s : Merging α β} {p : Pair α} (h : Reachable s) (hp : pairs[s.dispatched]? = some p) :
      Reachable (dispatch nil merger p s)
  | answer {s : Merging α β} {i : ℕ} {p : Pair α} (h : Reachable s) (hp : pairs[i]? = some p)
      (hi : i < s.dispatched) (hlate : p.late) (hnew : i ∉ s.finished) :
      Reachable (thisFinisher merger i p s)

/-- The loop is over and all answers are there. -/
def Complete (s : Merging α β) : Prop :=
  s.dispatched = pairs.length ∧ ∀ i < pairs.length, i ∈ s.finished

/-! ### Steps -/

variable {nil merger pairs} {s : Merging α β} {i : ℕ} {p : Pair α}

theorem finisher_of_pending (h : s.pending ≠ []) : finisher merger s = s := if_neg h

@[simp] theorem pending_finisher : (finisher merger s).pending = s.pending := by
  rw [finisher]
  split_ifs <;> rfl

@[simp] theorem cell_finisher : (finisher merger s).cell = s.cell := by
  rw [finisher]
  split_ifs <;> rfl

@[simp] theorem dispatched_finisher : (finisher merger s).dispatched = s.dispatched := by
  rw [finisher]
  split_ifs <;> rfl

@[simp] theorem finished_finisher : (finisher merger s).finished = s.finished := by
  rw [finisher]
  split_ifs <;> rfl

@[simp] theorem dispatched_thisFinisher :
    (thisFinisher merger i p s).dispatched = s.dispatched := dispatched_finisher

@[simp] theorem finished_thisFinisher :
    (thisFinisher merger i p s).finished = i :: s.finished := finished_finisher

@[simp] theorem dispatched_dispatch :
    (dispatch nil merger p s).dispatched = s.dispatched + 1 := by
  rw [dispatch]
  split_ifs
  · rfl
  · exact dispatched_thisFinisher

theorem finished_dispatch :
    (dispatch nil merger p s).finished =
      if p.late then s.finished else s.dispatched :: s.finished := by
  rw [dispatch]
  split_ifs
  · rfl
  · exact finished_thisFinisher

theorem delivered_finisher (h : s.pending = []) :
    (finisher merger s).delivered = s.delivered ++ [merger (s.lst.reverse.map s.cell)] := by
  rw [finisher, if_pos h, nreverse]

/-! ### The invariant -/

/-- What holds in every state that is reached: the answers that have come are those of pairs the
loop has come to; pending is what shares its identity with none of them; and as long as something
is pending, the list has all the cells and the callback has not been called. -/
structure Sound (pairs : List (Pair α)) (s : Merging α β) : Prop where
  dispatched_le : s.dispatched ≤ pairs.length
  finished_lt : ∀ i ∈ s.finished, i < s.dispatched
  mem_pending : ∀ x, x ∈ s.pending ↔
    x ∈ pairs.map Pair.identity ∧ ∀ i ∈ s.finished, ∀ p, pairs[i]? = some p → p.identity ≠ x
  cell_eq : ∀ i ∈ s.finished, ∀ p, pairs[i]? = some p → s.cell i = p.value
  quiet : s.pending ≠ [] →
    s.delivered = [] ∧ s.lst = (List.range s.dispatched).reverse
  delivered_ne_nil : s.pending = [] → pairs ≠ [] → s.delivered ≠ []

theorem sound_start : Sound pairs (start nil pairs : Merging α β) where
  dispatched_le := Nat.zero_le _
  finished_lt := by simp [start]
  mem_pending := by simp [start]
  cell_eq := by simp [start]
  quiet _ := ⟨rfl, rfl⟩
  delivered_ne_nil hp hne := absurd (List.map_eq_nil_iff.mp hp) hne

/-- The step of the loop before the answer, which is the whole step for a pair that is late. -/
theorem Sound.push (nil : α) (h : Sound pairs s) (hp : pairs[s.dispatched]? = some p) :
    Sound pairs { s with
      cell := Function.update s.cell s.dispatched nil
      lst := s.dispatched :: s.lst
      dispatched := s.dispatched + 1 } where
  dispatched_le := (List.getElem?_eq_some_iff.mp hp).1
  finished_lt i hi := Nat.lt_succ_of_lt (h.finished_lt i hi)
  mem_pending := h.mem_pending
  cell_eq i hi q hq :=
    (Function.update_of_ne (Nat.ne_of_lt (h.finished_lt i hi)) _ _).trans (h.cell_eq i hi q hq)
  quiet hpending := by
    obtain ⟨hdelivered, hlst⟩ := h.quiet hpending
    exact ⟨hdelivered, by simp [hlst, List.range_succ]⟩
  delivered_ne_nil := h.delivered_ne_nil

/-- An answer comes. -/
theorem Sound.thisFinisher (h : Sound pairs s) (hp : pairs[i]? = some p) (hi : i < s.dispatched) :
    Sound pairs (thisFinisher merger i p s) := by
  have hmem : ∀ x, x ∈ s.pending.filter (· ≠ p.identity) ↔
      x ∈ pairs.map Pair.identity ∧
        ∀ j ∈ i :: s.finished, ∀ q, pairs[j]? = some q → q.identity ≠ x := by
    intro x
    rw [List.mem_filter, h.mem_pending, List.forall_mem_cons, hp]
    simp only [Option.some.injEq, forall_eq', decide_not, Bool.not_eq_true',
      decide_eq_false_iff_not]
    rw [ne_comm (a := p.identity)]
    tauto
  constructor
  case dispatched_le => simpa [Merging.thisFinisher] using h.dispatched_le
  case finished_lt =>
    simp only [Merging.thisFinisher, finished_finisher, dispatched_finisher]
    exact List.forall_mem_cons.mpr ⟨hi, h.finished_lt⟩
  case mem_pending =>
    simp only [Merging.thisFinisher, finished_finisher, pending_finisher]
    exact hmem
  case cell_eq =>
    simp only [Merging.thisFinisher, finished_finisher, cell_finisher]
    intro j hj q hq
    by_cases hji : j = i
    · subst hji
      rw [Function.update_self, Option.some.inj (hp.symm.trans hq)]
    · rw [Function.update_of_ne hji]
      exact h.cell_eq j ((List.mem_cons.mp hj).resolve_left hji) q hq
  case quiet =>
    intro hpending
    rw [Merging.thisFinisher, pending_finisher] at hpending
    have hbefore : s.pending ≠ [] := fun hnil => hpending (by simp [hnil])
    rw [Merging.thisFinisher, finisher_of_pending hpending]
    exact h.quiet hbefore
  case delivered_ne_nil =>
    intro hpending _
    rw [Merging.thisFinisher, pending_finisher] at hpending
    rw [Merging.thisFinisher, delivered_finisher hpending]
    simp

theorem Reachable.sound (h : Reachable nil merger pairs s) : Sound pairs s := by
  induction h with
  | start => exact sound_start
  | @dispatch s p _ hp ih =>
      have hpush : Sound pairs _ := ih.push nil hp
      rw [Merging.dispatch]
      split_ifs
      · exact hpush
      · exact hpush.thisFinisher hp (Nat.lt_succ_self _)
  | answer _ hp hi _ _ ih => exact ih.thisFinisher hp hi

/-! ### The last answer -/

/-- The answer that has come last shares its identity with no other. -/
def LastIsOwn (pairs : List (Pair α)) (s : Merging α β) : Prop :=
  ∀ i ∈ s.finished.head?, ∀ p, pairs[i]? = some p →
    ∀ j q, pairs[j]? = some q → j ≠ i → q.identity ≠ p.identity

/-- Once all answers are there, nothing is pending. -/
theorem Sound.pending_eq_nil (h : Sound pairs s) (hc : s.Complete pairs) : s.pending = [] := by
  rw [List.eq_nil_iff_forall_not_mem]
  intro x hx
  obtain ⟨hmem, hne⟩ := (h.mem_pending x).mp hx
  obtain ⟨p, hp, rfl⟩ := List.mem_map.mp hmem
  obtain ⟨i, hi⟩ := List.mem_iff_getElem?.mp hp
  exact hne i (hc.2 i (List.getElem?_eq_some_iff.mp hi).1) p hi rfl

/-- Once all answers are there, the cells hold the values in the order of the pairs. -/
theorem Sound.map_cell_range (h : Sound pairs s) (hc : s.Complete pairs) :
    (List.range pairs.length).map s.cell = pairs.map Pair.value := by
  refine List.ext_getElem (by simp) fun i hi hi' => ?_
  have hlt : i < pairs.length := by simpa using hi
  rw [List.getElem_map, List.getElem_range, List.getElem_map]
  exact h.cell_eq i (hc.2 i hlt) _ (List.getElem?_eq_getElem hlt)

/-- The answer that comes last is delivered with all others, if it shares its identity with none,
and otherwise the callback has been called before. -/
theorem Sound.delivered_last (h : Sound pairs s) (hp : pairs[i]? = some p)
    (hi : i < s.dispatched) (hnew : i ∉ s.finished)
    (hc : (Merging.thisFinisher merger i p s).Complete pairs) :
    ((∀ j q, pairs[j]? = some q → j ≠ i → q.identity ≠ p.identity) →
        (Merging.thisFinisher merger i p s).delivered = [mergeNow merger pairs]) ∧
      (∀ j q, pairs[j]? = some q → j ≠ i → q.identity = p.identity →
        1 < (Merging.thisFinisher merger i p s).delivered.length) := by
  have hafter : Sound pairs (Merging.thisFinisher merger i p s) := h.thisFinisher hp hi
  have hpending := hafter.pending_eq_nil hc
  have hcell := hafter.map_cell_range hc
  have hfinished : ∀ j < pairs.length, j ∈ i :: s.finished := by
    simpa [Merging.thisFinisher] using hc.2
  rw [Merging.thisFinisher, pending_finisher] at hpending
  rw [Merging.thisFinisher, cell_finisher] at hcell
  rw [Merging.thisFinisher, delivered_finisher hpending]
  constructor
  · intro hown
    have hbefore : s.pending ≠ [] := by
      refine List.ne_nil_of_mem ((h.mem_pending p.identity).mpr ⟨?_, fun j hj q hq => ?_⟩)
      · exact List.mem_map_of_mem (List.mem_of_getElem? hp)
      · exact hown j q hq fun hji => hnew (hji ▸ hj)
    obtain ⟨hdelivered, hlst⟩ := h.quiet hbefore
    have hall : s.dispatched = pairs.length := by
      simpa [Merging.thisFinisher] using hc.1
    rw [hdelivered, hlst, List.reverse_reverse, hall, hcell, List.nil_append, mergeNow]
  · intro j q hq hji hid
    have hbefore : s.pending = [] := by
      rw [List.eq_nil_iff_forall_not_mem]
      intro x hx
      obtain ⟨hmem, hne⟩ := (h.mem_pending x).mp hx
      obtain ⟨r, hr, rfl⟩ := List.mem_map.mp hmem
      obtain ⟨m, hm⟩ := List.mem_iff_getElem?.mp hr
      have hj : j ∈ s.finished :=
        (List.mem_cons.mp (hfinished j (List.getElem?_eq_some_iff.mp hq).1)).resolve_left hji
      rcases List.mem_cons.mp (hfinished m (List.getElem?_eq_some_iff.mp hm).1) with rfl | hmem
      · obtain rfl := Option.some.inj (hm.symm.trans hp)
        exact hne j hj q hq hid
      · exact hne m hmem r hm rfl
    have hne := h.delivered_ne_nil hbefore (List.ne_nil_of_mem (List.mem_of_getElem? hp))
    have hpos := List.length_pos_of_ne_nil hne
    simp only [List.length_append, List.length_singleton]
    omega

/-- A state with all answers is reached by an answer. -/
theorem Reachable.exists_last (h : Reachable nil merger pairs s) (hc : s.Complete pairs)
    (hne : pairs ≠ []) : ∃ t i p, Sound pairs t ∧ pairs[i]? = some p ∧ i < t.dispatched ∧
      i ∉ t.finished ∧ s = Merging.thisFinisher merger i p t := by
  cases h with
  | start =>
      have hzero : 0 < pairs.length := List.length_pos_of_ne_nil hne
      exact absurd (hc.2 0 hzero) List.not_mem_nil
  | @dispatch t p ht hp =>
      have hnew : t.dispatched ∉ t.finished := fun hmem =>
        absurd (ht.sound.finished_lt _ hmem) (Nat.lt_irrefl _)
      rw [Merging.dispatch] at hc ⊢
      split_ifs at hc ⊢ with hlate
      · exact absurd (hc.2 _ (List.getElem?_eq_some_iff.mp hp).1) hnew
      · exact ⟨_, _, p, ht.sound.push nil hp, hp, Nat.lt_succ_self _, hnew, rfl⟩
  | @answer t i p ht hp hi _ hnew => exact ⟨t, i, p, ht.sound, hp, hi, hnew, rfl⟩

theorem lastIsOwn_thisFinisher (hp : pairs[i]? = some p) :
    (thisFinisher merger i p s).LastIsOwn pairs ↔
      ∀ j q, pairs[j]? = some q → j ≠ i → q.identity ≠ p.identity := by
  simp [LastIsOwn, thisFinisher, hp]

/-- With an identity of its own, the last answer brings the callback. -/
theorem Reachable.delivered_of_lastIsOwn (h : Reachable nil merger pairs s)
    (hc : s.Complete pairs) (hne : pairs ≠ []) (hown : s.LastIsOwn pairs) :
    s.delivered = [mergeNow merger pairs] := by
  obtain ⟨t, i, p, ht, hp, hi, hnew, rfl⟩ := h.exists_last hc hne
  exact (ht.delivered_last hp hi hnew hc).1 ((lastIsOwn_thisFinisher hp).mp hown)

/-- Without one, the callback has been called before. -/
theorem Reachable.one_lt_length_delivered (h : Reachable nil merger pairs s)
    (hc : s.Complete pairs) (hne : pairs ≠ []) (hown : ¬ s.LastIsOwn pairs) :
    1 < s.delivered.length := by
  obtain ⟨t, i, p, ht, hp, hi, hnew, rfl⟩ := h.exists_last hc hne
  rw [lastIsOwn_thisFinisher hp] at hown
  push Not at hown
  obtain ⟨j, q, hq, hji, hid⟩ := hown
  exact (ht.delivered_last hp hi hnew hc).2 j q hq hji hid

theorem eq_of_identity_eq (hid : (pairs.map Pair.identity).Nodup) {j : ℕ} {q : Pair α}
    (hp : pairs[i]? = some p) (hq : pairs[j]? = some q) (heq : q.identity = p.identity) :
    j = i := by
  obtain ⟨hi, rfl⟩ := List.getElem?_eq_some_iff.mp hp
  obtain ⟨hj, rfl⟩ := List.getElem?_eq_some_iff.mp hq
  rw [← List.length_map Pair.identity] at hi hj
  exact (@List.Nodup.getElem_inj_iff _ _ hid j hj i hi).mp (by simpa using heq)

/-- Where no two answers are identical, the last one is identical with no other. -/
theorem lastIsOwn_of_nodup (hid : (pairs.map Pair.identity).Nodup) (s : Merging α β) :
    s.LastIsOwn pairs :=
  fun _ _ _ hp _ _ hq hji heq => hji (eq_of_identity_eq hid hp hq heq)

/-- **One callback.** When all answers are there, the callback has been called with everything in
order and never else, exactly if the answer that came last shares its identity with no other; and
otherwise it has been called more than once. -/
theorem delivered_eq_singleton_iff (h : Reachable nil merger pairs s) (hc : s.Complete pairs)
    (hne : pairs ≠ []) :
    (s.delivered = [mergeNow merger pairs] ↔ s.LastIsOwn pairs) ∧
      (1 < s.delivered.length ↔ ¬ s.LastIsOwn pairs) := by
  by_cases hown : s.LastIsOwn pairs
  · rw [h.delivered_of_lastIsOwn hc hne hown]
    exact ⟨iff_of_true rfl hown, iff_of_false (by simp) (not_not_intro hown)⟩
  · have hlong := h.one_lt_length_delivered hc hne hown
    refine ⟨iff_of_false (fun heq => ?_) hown, iff_of_true hlong hown⟩
    rw [heq, List.length_singleton] at hlong
    omega

/-- Two answers, of which the first is late. -/
def lateFirst : List (Pair (List ℕ)) := [⟨0, true, [1], id⟩, ⟨1, false, [2], id⟩]

/-- The state in which the late answer has come after the loop. -/
def afterLateFirst : Merging (List ℕ) (List ℕ) :=
  thisFinisher List.flatten 0 ⟨0, true, [1], id⟩
    (dispatch [] List.flatten ⟨1, false, [2], id⟩
      (dispatch [] List.flatten ⟨0, true, [1], id⟩ (start [] lateFirst)))

theorem reachable_afterLateFirst : Reachable [] List.flatten lateFirst afterLateFirst :=
  .answer (.dispatch (.dispatch .start rfl) rfl) rfl (by decide) rfl (by decide)

theorem complete_afterLateFirst : afterLateFirst.Complete lateFirst := by
  refine ⟨rfl, fun i hi => ?_⟩
  have hlt : i < 2 := hi
  have hfinished : afterLateFirst.finished = [0, 1] := by decide
  rw [hfinished]
  simp only [List.mem_cons, List.not_mem_nil]
  omega

/-- The callback has been called once, and the first answer is in front. -/
theorem delivered_afterLateFirst :
    (afterLateFirst.delivered = [[1, 2]] ↔ afterLateFirst.LastIsOwn lateFirst) ∧
      (1 < afterLateFirst.delivered.length ↔ ¬ afterLateFirst.LastIsOwn lateFirst) :=
  delivered_eq_singleton_iff reachable_afterLateFirst complete_afterLateFirst (by decide)

/-- When a late answer comes before the loop goes on, and the answers of the two other backends
are both `nil`, the callback is called twice, and the second time the first answer is lost. -/
example : (dispatch [] List.flatten ⟨1, false, [], id⟩
    (dispatch [] List.flatten ⟨1, false, [], id⟩
      (thisFinisher List.flatten 0 ⟨0, true, [1], id⟩
        (dispatch [] List.flatten ⟨0, true, [1], id⟩
          (start [] [⟨0, true, [1], id⟩, ⟨1, false, [], id⟩, ⟨1, false, [], id⟩])))) :
    Merging (List ℕ) (List ℕ)).delivered = [[1], []] := by
  decide

/-- **No callback before the end.** If no two answers are identical, the callback is called once
all answers are there, with what is merged when none is late, and not before. -/
theorem delivered_eq_of_nodup (h : Reachable nil merger pairs s) (hne : pairs ≠ [])
    (hid : (pairs.map Pair.identity).Nodup) :
    (s.Complete pairs → s.delivered = [mergeNow merger pairs]) ∧
      (¬ s.Complete pairs → s.delivered = []) := by
  constructor
  · exact fun hc => h.delivered_of_lastIsOwn hc hne (lastIsOwn_of_nodup hid s)
  · intro hc
    refine (h.sound.quiet fun hpending => hc ?_).1
    have hall : ∀ i < pairs.length, i ∈ s.finished := by
      intro i hi
      by_contra hnot
      have hmem : pairs[i].identity ∈ s.pending := by
        refine (h.sound.mem_pending _).mpr ⟨List.mem_map_of_mem (List.getElem_mem hi),
          fun j hj q hq heq => ?_⟩
        obtain rfl := eq_of_identity_eq hid (List.getElem?_eq_getElem hi) hq heq
        exact hnot hj
      simp [hpending] at hmem
    refine ⟨Nat.le_antisymm h.sound.dispatched_le ?_, hall⟩
    have hpos := List.length_pos_of_ne_nil hne
    have hlt := h.sound.finished_lt _ (hall (pairs.length - 1) (by omega))
    omega

/-- The state inside the loop, behind the pair whose answer is late. -/
def beforeLateFirst : Merging (List ℕ) (List ℕ) :=
  dispatch [] List.flatten ⟨0, true, [1], id⟩ (start [] lateFirst)

theorem reachable_beforeLateFirst : Reachable [] List.flatten lateFirst beforeLateFirst :=
  .dispatch .start rfl

/-- Inside the loop there is no callback, nor behind the loop as long as the late answer is not
there; then there is one. -/
theorem delivered_lateFirst :
    beforeLateFirst.delivered = [] ∧
      (dispatch [] List.flatten ⟨1, false, [2], id⟩ beforeLateFirst).delivered = [] ∧
      afterLateFirst.delivered = [[1, 2]] := by
  have hbehind : Reachable [] List.flatten lateFirst
      (dispatch [] List.flatten ⟨1, false, [2], id⟩ beforeLateFirst) :=
    .dispatch reachable_beforeLateFirst rfl
  refine ⟨?_, ?_, ?_⟩
  · exact (delivered_eq_of_nodup reachable_beforeLateFirst (by decide) (by decide)).2
      fun hc => absurd hc.1 (by decide)
  · exact (delivered_eq_of_nodup hbehind (by decide) (by decide)).2
      fun hc => absurd (hc.2 0 (by decide)) (by decide)
  · exact (delivered_eq_of_nodup reachable_afterLateFirst (by decide) (by decide)).1
      complete_afterLateFirst

/-! ### Runs to the end -/

variable (nil merger pairs)

/-- The loop comes to every pair, and to its answer if that is not late. -/
theorem exists_dispatched {n : ℕ} (hn : n ≤ pairs.length) :
    ∃ s : Merging α β, Reachable nil merger pairs s ∧ s.dispatched = n ∧
      ∀ i < n, ∀ p, pairs[i]? = some p → p.late = false → i ∈ s.finished := by
  induction n with
  | zero => exact ⟨_, .start, rfl, fun i hi => absurd hi (Nat.not_lt_zero i)⟩
  | succ n ih =>
      obtain ⟨s, hs, rfl, hnow⟩ := ih (Nat.le_of_succ_le hn)
      have hp : pairs[s.dispatched]? = some pairs[s.dispatched] := List.getElem?_eq_getElem hn
      refine ⟨_, hs.dispatch hp, dispatched_dispatch, fun i hi q hq hlate => ?_⟩
      rw [finished_dispatch]
      rcases Nat.lt_succ_iff_lt_or_eq.mp hi with hlt | rfl
      · have hmem := hnow i hlt q hq hlate
        split_ifs
        · exact hmem
        · exact List.mem_cons_of_mem _ hmem
      · obtain rfl := Option.some.inj (hp.symm.trans hq)
        rw [if_neg (by simp [hlate])]
        exact List.mem_cons_self

/-- **No merge gets stuck.** Behind the loop the late answers can come, one after the other, until
all are there. -/
theorem exists_complete : ∃ s : Merging α β, Reachable nil merger pairs s ∧ s.Complete pairs := by
  obtain ⟨s₀, hs₀, hall₀, hnow₀⟩ := exists_dispatched nil merger pairs (Nat.le_refl _)
  have hanswers : ∀ n ≤ pairs.length, ∃ s : Merging α β, Reachable nil merger pairs s ∧
      s.dispatched = pairs.length ∧ s₀.finished ⊆ s.finished ∧ ∀ i < n, i ∈ s.finished := by
    intro n hn
    induction n with
    | zero => exact ⟨s₀, hs₀, hall₀, List.Subset.refl _, fun i hi => absurd hi (Nat.not_lt_zero i)⟩
    | succ n ih =>
        obtain ⟨s, hs, hall, hsub, hlt⟩ := ih (Nat.le_of_succ_le hn)
        have hp : pairs[n]? = some pairs[n] := List.getElem?_eq_getElem hn
        by_cases hmem : n ∈ s.finished
        · exact ⟨s, hs, hall, hsub, Nat.forall_lt_succ_right.mpr ⟨hlt, hmem⟩⟩
        · have hlate : pairs[n].late := by
            by_contra hnot
            exact hmem (hsub (hnow₀ n hn _ hp (Bool.eq_false_iff.mpr hnot)))
          refine ⟨_, hs.answer hp (hall.symm ▸ hn) hlate hmem, ?_, ?_, ?_⟩
          · rw [dispatched_thisFinisher, hall]
          · rw [finished_thisFinisher]
            exact List.subset_cons_of_subset _ hsub
          · rw [finished_thisFinisher]
            exact Nat.forall_lt_succ_right.mpr
              ⟨fun i hi => List.mem_cons_of_mem _ (hlt i hi), List.mem_cons_self⟩
  obtain ⟨s, hs, hall, -, hfinished⟩ := hanswers _ (Nat.le_refl _)
  exact ⟨s, hs, hall, hfinished⟩

variable {nil merger pairs}

/-! ### What the callback is called with -/

/-- What a cell can hold: nothing yet, or the value of a pair. -/
def IsCell (nil : α) (pairs : List (Pair α)) (x : α) : Prop := x = nil ∨ ∃ p ∈ pairs, x = p.value

/-- The cells hold values of pairs, and the callback is called with such values merged, although
not always with all of them. -/
structure Derived (nil : α) (merger : List α → β) (pairs : List (Pair α)) (s : Merging α β) :
    Prop where
  cell : ∀ i, IsCell nil pairs (s.cell i)
  delivered : ∀ v ∈ s.delivered, ∃ l, (∀ x ∈ l, IsCell nil pairs x) ∧ v = merger l

theorem Derived.finisher (h : Derived nil merger pairs s) :
    Derived nil merger pairs (Merging.finisher merger s) := by
  rw [Merging.finisher]
  split_ifs
  · refine ⟨h.cell, fun v hv => ?_⟩
    rcases List.mem_append.mp hv with hv | hv
    · exact h.delivered v hv
    · refine ⟨(nreverse s.lst).1.map s.cell, fun x hx => ?_, List.mem_singleton.mp hv⟩
      obtain ⟨i, -, rfl⟩ := List.mem_map.mp hx
      exact h.cell i
  · exact h

theorem Derived.update (h : Derived nil merger pairs s) {x : α} (hx : IsCell nil pairs x)
    (i j : ℕ) : IsCell nil pairs (Function.update s.cell i x j) := by
  by_cases hji : j = i
  · rwa [hji, Function.update_self]
  · rw [Function.update_of_ne hji]
    exact h.cell j

theorem Derived.thisFinisher (h : Derived nil merger pairs s) (hp : pairs[i]? = some p) (j : ℕ) :
    Derived nil merger pairs (Merging.thisFinisher merger j p s) := by
  have hvalue : IsCell nil pairs p.value := Or.inr ⟨p, List.mem_of_getElem? hp, rfl⟩
  exact Derived.finisher ⟨h.update hvalue j, h.delivered⟩

/-- **Nothing is made up.** In every interleaving, whatever the callback is called with is merged
from values of pairs. -/
theorem Reachable.derived (h : Reachable nil merger pairs s) : Derived nil merger pairs s := by
  induction h with
  | start => exact ⟨fun _ => Or.inl rfl, fun v hv => absurd hv List.not_mem_nil⟩
  | @dispatch s p _ hp ih =>
      have hpush : Derived nil merger pairs { s with
          cell := Function.update s.cell s.dispatched nil
          lst := s.dispatched :: s.lst
          dispatched := s.dispatched + 1 } :=
        ⟨ih.update (Or.inl rfl) s.dispatched, ih.delivered⟩
      rw [Merging.dispatch]
      split_ifs
      · exact hpush
      · exact hpush.thisFinisher hp s.dispatched
  | @answer s i p _ hp _ _ _ ih => exact ih.thisFinisher hp i

end Merging

end DotEmacs.Company
