import DotEmacs.Company.CompletionInvariant
import Mathlib.Algebra.Ring.Int.Defs

/-!
# The selected candidate

Moving the selection goes around in a circle, as it is configured: any number of moves is one move
by all of them together. While the user goes on typing, a candidate that was selected on purpose
stays selected, wherever it is among the new candidates, until it is not among them; then the first
candidate is selected, and the selection counts as not changed.

## Main definitions

* `Company.Action.isEdit`: any command but those of company.
* `Company.Completion.Same`: candidates that the mechanism takes for the same.
* `Company.Completion.Chosen`, `Company.Completion.Unchosen`: whether the selected candidate was
  selected on purpose.
* `Company.Completion.Lost`: no candidate is the same as an old one.

## Main results

* `Company.Completion.selectNext_run`: moving the selection any number of times.
* `Company.Completion.chosen_of_edits`: what is selected after any number of other commands.
-/

namespace DotEmacs.Company

variable {ε : Type} {σ : Settings} {B : Backends ε}

/-- A command that is not one of company. -/
def Action.isEdit : Action ε → Prop
  | .other _ _ _ _ _ => True
  | _ => False

namespace Completion

variable {s : Completion ε} {A : Completion ε → Action ε → Prop}

/-- Two candidates have the same text, and the current backend annotates them alike. -/
def Same (B : Backends ε) (s : Completion ε) (c d : Candidate) : Prop :=
  c.text = d.text ∧ Replies.annotation (s.replies B) c = Replies.annotation (s.replies B) d

/-! ### Moving the selection -/

/-- The selection has been moved to a place, on a command. -/
def movedTo (s : Completion ε) (place : ℕ) (changed : Bool) : Completion ε :=
  { s with selection := place, selectionChanged := changed, manualAction := true }

theorem Active.selectNext_eq (h : s.Active) (hwrap : σ.selectionWrapAround = true) (arg : ℤ) :
    s.selectNext σ B arg =
      s.movedTo ((arg + s.selection) % s.candidates.length).toNat
        (s.selectionChanged || (arg + s.selection) % s.candidates.length ≠ s.selection) := by
  have hplace : placeOf true ((s.setManualAction true).candidatesLength.getD 0 : ℕ)
      (arg + s.selection) = (arg + s.selection) % s.candidates.length := by
    change placeOf true (s.candidatesLength.getD 0 : ℕ) _ = _
    rw [h.getD_candidatesLength]
    rfl
  rw [selectNext, h.whenBegun_eq, hwrap]
  change (s.setManualAction true).setSelection true (arg + s.selection) false = _
  have hselection : (s.setManualAction true).selection = s.selection := rfl
  rw [setSelection, hplace, hselection]
  by_cases hsame : (arg + s.selection) % (s.candidates.length : ℤ) = s.selection
  · rw [if_neg (by simpa using hsame), hsame, Int.toNat_natCast, decide_eq_false (not_not.mpr rfl),
      Bool.or_false]
    rfl
  · rw [if_pos (Or.inr hsame), decide_eq_true hsame, Bool.or_true]
    rfl

theorem Active.movedTo (h : s.Active) {place : ℕ} (hplace : place < s.candidates.length)
    (changed : Bool) : (s.movedTo place changed).Active :=
  { h with selection := hplace }

/-- Moving on from the place where a move led to is moving by both together. -/
theorem emod_toNat_emod {n : ℤ} (hpos : 0 < n) (a b : ℤ) :
    (a + (b % n).toNat) % n = (a + b) % n := by
  rw [Int.toNat_of_nonneg (Int.emod_nonneg b hpos.ne'), Int.add_emod_emod]

section

variable [DecidableEq ε]

theorem Active.step_selectNext (h : s.Active) (hpoint : s.point = some s.text.point)
    (hwrap : σ.selectionWrapAround = true) (arg : ℤ) :
    s.step σ B (.selectNext arg) =
      s.movedTo ((arg + s.selection) % s.candidates.length).toNat
        (s.selectionChanged || (arg + s.selection) % s.candidates.length ≠ s.selection) := by
  change (s.selectNext σ B arg).postCommand σ B false = _
  rw [h.selectNext_eq hwrap, postCommand_false]
  exact if_pos hpoint

/-- **Moving the selection** any number of times leads to where one move by all of them together
leads, and changes nothing else but that there was a command of the user. -/
theorem selectNext_run (hwrap : σ.selectionWrapAround = true) (h : Reachable σ B A s)
    (hs : s.Active) {args : List ℤ} (hargs : args ≠ []) :
    ∃ changed, (changed = false → s.selectionChanged = false ∧
        (args.sum + s.selection) % s.candidates.length = s.selection) ∧
      args.foldl (fun s arg => s.step σ B (.selectNext arg)) s =
        s.movedTo ((args.sum + s.selection) % s.candidates.length).toNat changed := by
  have hpoint := (Reachable.settled h).point_eq hs
  have hpos : (0 : ℤ) < s.candidates.length :=
    Int.natCast_pos.mpr (List.length_pos_of_ne_nil hs.candidates)
  clear h
  induction args generalizing s with
  | nil => exact absurd rfl hargs
  | cons arg args ih =>
      have hnonneg := Int.emod_nonneg (arg + s.selection) hpos.ne'
      have hlt := Int.emod_lt_of_pos (arg + s.selection) hpos
      have hplace : ((arg + s.selection) % (s.candidates.length : ℤ)).toNat <
          s.candidates.length := by omega
      rw [List.foldl_cons, hs.step_selectNext hpoint hwrap]
      generalize hchanged : (s.selectionChanged ||
        decide ((arg + s.selection) % (s.candidates.length : ℤ) ≠ s.selection)) = changed
      have hkept : changed = false → s.selectionChanged = false ∧
          (arg + s.selection) % s.candidates.length = s.selection := by
        rintro rfl
        simpa using hchanged
      rcases eq_or_ne args [] with rfl | hne
      · rw [List.sum_singleton]
        exact ⟨changed, hkept, rfl⟩
      · obtain ⟨changed', hkept', hrun⟩ := ih (hs.movedTo hplace changed) hne hpoint hpos
        have hsum : (args.sum + (((arg + s.selection) % (s.candidates.length : ℤ)).toNat : ℕ)) %
            (s.candidates.length : ℤ) =
            ((arg :: args).sum + s.selection) % s.candidates.length := by
          rw [emod_toNat_emod hpos, List.sum_cons, add_left_comm, add_assoc]
        refine ⟨changed', fun hfalse => ?_, ?_⟩
        · -- no move changed the selection, so each came back to where it was
          obtain ⟨hfirst, hrest⟩ := hkept' hfalse
          obtain ⟨hold, hsame⟩ := hkept hfirst
          refine ⟨hold, ?_⟩
          rw [← hsum]
          refine hrest.trans ?_
          change (((arg + s.selection) % (s.candidates.length : ℤ)).toNat : ℤ) = _
          rw [Int.toNat_of_nonneg hnonneg, hsame]
        · rw [hrun, ← hsum]
          rfl

theorem selectNext_run_session :
    ∃ changed, (changed = false → (session ['b'] [.manualBegin]).selectionChanged = false ∧
        ([2, -1].sum + ((session ['b'] [.manualBegin]).selection : ℤ)) %
          (session ['b'] [.manualBegin]).candidates.length =
            (session ['b'] [.manualBegin]).selection) ∧
      [2, -1].foldl (fun s arg => s.step (configuredSettings id) wordBackends (.selectNext arg))
          (session ['b'] [.manualBegin]) =
        (session ['b'] [.manualBegin]).movedTo 1 changed :=
  selectNext_run (A := fun _ _ => True) rfl (reachable_session _ _ (by simp))
    ⟨rfl, rfl, by decide, rfl, by decide, rfl, rfl⟩ (List.cons_ne_nil 2 [-1])

end

/-! ### Going on typing -/

/-- A candidate with a text is selected, on purpose. -/
def Chosen (s : Completion ε) (text : List Char) : Prop :=
  s.selectionChanged = true ∧ ∃ c, s.candidates[s.selection]? = some c ∧ c.text = text

/-- The first candidate is selected, as it is when nothing was chosen. -/
def Unchosen (s : Completion ε) : Prop :=
  s.selectionChanged = false ∧ s.selection = 0

/-- No candidate is the same as an old one. -/
def Lost (B : Backends ε) (s : Completion ε) (old : Candidate) : Prop :=
  ∀ d ∈ s.candidates, ¬ Same B s d old

/-- Where the selection is after an update: at a candidate that is the same as the one selected
before, or at the first one, if there is no such candidate. -/
theorem restoredSelection_cases {selected : Candidate} (hchanged : s.selectionChanged = true)
    (hselected : s.candidates[s.selection]? = some selected) (cs : List Candidate) :
    ((s.restoredSelection B cs).2 = true ∧
        ∃ d, cs[(s.restoredSelection B cs).1]? = some d ∧ Same B s d selected) ∨
      (s.restoredSelection B cs = (0, false) ∧ ∀ d ∈ cs, ¬ Same B s d selected) := by
  rw [restoredSelection, if_pos hchanged, hselected]
  dsimp only
  split
  · rename_i i hi
    obtain ⟨hlt, hsame, -⟩ := List.findIdx?_eq_some_iff_getElem.mp hi
    exact Or.inl ⟨rfl, cs[i], List.getElem?_eq_getElem hlt, by simpa [Same] using hsame⟩
  · rename_i hnone
    refine Or.inr ⟨rfl, fun d hd hsame => ?_⟩
    have hnot := List.findIdx?_eq_none_iff.mp hnone d hd
    exact absurd hsame (by simpa [Same] using hnot)

/-- `company-post-command` keeps the chosen candidate, if it is among the candidates still. -/
theorem Active.chosen_postCommand (h : s.Active) {selected : Candidate}
    (hchanged : s.selectionChanged = true) (hselected : s.candidates[s.selection]? = some selected)
    (hs : (s.postCommand σ B false).Active) :
    (s.postCommand σ B false).Chosen selected.text ∨
      (s.postCommand σ B false).Unchosen ∧ Lost B (s.postCommand σ B false) selected := by
  rw [postCommand_false] at hs ⊢
  split_ifs at hs ⊢
  · exact Or.inl ⟨hchanged, selected, hselected, rfl⟩
  rcases h.perform_cases (σ := σ) (B := B) σ.minimumPrefixLength with ⟨text, heq⟩ |
    ⟨t, c, cache, -, -, -, heq⟩ | ⟨cache, -, -, heq⟩
  · rw [heq] at hs
    exact absurd rfl hs.candidates
  · rw [heq]
    rcases restoredSelection_cases (B := B) (s := (s.setCache cache).setPrefix t) hchanged
      hselected c with ⟨hkept, d, hd, hsame⟩ | ⟨hlost, hnone⟩
    · exact Or.inl ⟨hkept, d, hd, hsame.1⟩
    · exact Or.inr ⟨⟨congrArg Prod.snd hlost, congrArg Prod.fst hlost⟩, hnone⟩
  · rw [heq]
    exact Or.inl ⟨hchanged, selected, hselected, rfl⟩

/-- `company-post-command` leaves the first candidate selected if nothing was chosen. -/
theorem Active.unchosen_postCommand (h : s.Active) (hs : s.Unchosen)
    (hactive : (s.postCommand σ B false).Active) : (s.postCommand σ B false).Unchosen := by
  rw [postCommand_false] at hactive ⊢
  split_ifs at hactive ⊢
  · exact hs
  rcases h.perform_cases (σ := σ) (B := B) σ.minimumPrefixLength with ⟨text, heq⟩ |
    ⟨t, c, cache, -, -, -, heq⟩ | ⟨cache, -, -, heq⟩
  · rw [heq] at hactive
    exact absurd rfl hactive.candidates
  · have hrestored : ((s.setCache cache).setPrefix t).restoredSelection B c = (0, false) :=
      if_neg (Bool.eq_false_iff.mp hs.1)
    rw [heq]
    exact ⟨congrArg Prod.snd hrestored, congrArg Prod.fst hrestored⟩
  · rw [heq]
    exact hs

/-- The state that another command leaves, before `company-post-command`. -/
def edited (s : Completion ε) (text : BufferText) (completable : Bool) (companyBackends : List ε) :
    Completion ε :=
  { s with text := text, completable := completable, companyBackends := companyBackends }

theorem Idle.edited (h : s.Idle) (text : BufferText) (completable : Bool)
    (companyBackends : List ε) : (s.edited text completable companyBackends).Idle :=
  { h with }

variable [DecidableEq ε]

/-- A completion goes on behind another command only if there was one before. -/
theorem step_of_isEdit (hs : s.Settled) {a : Action ε} (ha : a.isEdit)
    (hactive : (s.step σ B a).Active) : s.Active ∧
      ∃ text completable companyBackends, (s.edited text completable companyBackends).Active ∧
        s.step σ B a = (s.edited text completable companyBackends).postCommand σ B false := by
  cases a with
  | other text completable companyBackends continues quit =>
      by_cases hcancel : s.candidates ≠ [] ∧ (! continues) = true
      · have hact : s.act σ B (.other text completable companyBackends continues quit) =
            s.cancel.edited text completable companyBackends := by
          rw [act, if_pos hcancel]
          rfl
        have hidle := (idle_cancel s).edited text completable companyBackends
        change ((s.act σ B _).postCommand σ B quit).Active at hactive
        rw [hact, hidle.postCommand] at hactive
        exact absurd hactive hidle.not_active
      · have hact : s.act σ B (.other text completable companyBackends continues quit) =
            s.edited text completable companyBackends := by
          rw [act, if_neg hcancel]
          rfl
        change ((s.act σ B _).postCommand σ B quit).Active at hactive
        rw [hact] at hactive
        rcases hs with hidle | ⟨h, -⟩
        · have hedited := hidle.edited text completable companyBackends
          rw [hedited.postCommand] at hactive
          exact absurd hactive hedited.not_active
        · have hedited : (s.edited text completable companyBackends).Active := { h with }
          refine ⟨h, text, completable, companyBackends, hedited, ?_⟩
          change (s.act σ B _).postCommand σ B quit = _
          rw [hact]
          cases quit with
          | false => rfl
          | true =>
              rw [postCommand_true, if_neg hedited.candidates, (idle_cancel _).postCommand]
                at hactive
              exact absurd hactive (idle_cancel _).not_active
  | _ => exact absurd ha id

theorem Reachable.run (h : Reachable σ B (fun _ _ => True) s) (actions : List (Action ε)) :
    Reachable σ B (fun _ _ => True) (actions.foldl (Completion.step σ B) s) := by
  induction actions using List.reverseRecOn with
  | nil => exact h
  | append_singleton actions a ih =>
      rw [List.foldl_concat]
      exact ih.step trivial

/-- **What stays selected.** In every state that commands lead to with a completion in which a
candidate was chosen, after any number of other commands behind which the completion goes on, the
selected candidate has the same text as before; or the first candidate is selected and the
selection counts as not changed, and behind one of the commands there was no candidate that is the
same as the one selected until then, which had that text. -/
theorem chosen_of_edits (h : Reachable σ B (fun _ _ => True) s) {text : List Char}
    (hs : s.Chosen text) {edits : List (Action ε)} (hedits : ∀ a ∈ edits, a.isEdit)
    (hactive : (edits.foldl (step σ B) s).Active) :
    (edits.foldl (step σ B) s).Chosen text ∨
      (edits.foldl (step σ B) s).Unchosen ∧ ∃ before a later old, edits = before ++ a :: later ∧
        (before.foldl (step σ B) s).selectionChanged = true ∧
        (before.foldl (step σ B) s).candidates[(before.foldl (step σ B) s).selection]? =
          some old ∧
        old.text = text ∧ Lost B ((before ++ [a]).foldl (step σ B) s) old := by
  induction edits using List.reverseRecOn with
  | nil => exact Or.inl hs
  | append_singleton edits a ih =>
      rw [List.foldl_concat] at hactive ⊢
      obtain ⟨hbefore, newText, completable, companyBackends, hedited, hstep⟩ :=
        step_of_isEdit (Reachable.run h edits).settled (hedits a (by simp)) hactive
      rw [hstep] at hactive ⊢
      rcases ih (fun b hb => hedits b (List.mem_append_left _ hb)) hbefore with
        ⟨hchanged, old, hold, htext⟩ | ⟨hunchosen, before, b, later, old, hsplit, hlost⟩
      · -- the candidate is still selected: this command keeps it or is the one that loses it
        rcases hedited.chosen_postCommand (σ := σ) (B := B) hchanged hold hactive with
          hkept | ⟨hunchosen, hlost⟩
        · exact Or.inl (htext ▸ hkept)
        · refine Or.inr ⟨hunchosen, edits, a, [], old, rfl, hchanged, hold, htext, ?_⟩
          rw [List.foldl_concat, hstep]
          exact hlost
      · -- it was lost at an earlier command, and is not chosen again
        refine Or.inr ⟨hedited.unchosen_postCommand hunchosen hactive, before, b, later ++ [a], old,
          ?_, hlost⟩
        rw [hsplit, List.append_assoc, List.cons_append]

theorem chosen_of_edits_session :
    let s := session [] [.manualBegin, .selectNext 1]
    let edits := [.other ⟨['b'], []⟩ true [false] true false]
    let r := edits.foldl (step (configuredSettings id) wordBackends) s
    r.Chosen ['b', 'b'] ∨
      r.Unchosen ∧ ∃ before a later old, edits = before ++ a :: later ∧
        (before.foldl (step (configuredSettings id) wordBackends) s).selectionChanged = true ∧
        (before.foldl (step (configuredSettings id) wordBackends) s).candidates[
          (before.foldl (step (configuredSettings id) wordBackends) s).selection]? = some old ∧
        old.text = ['b', 'b'] ∧
        Lost wordBackends
          ((before ++ [a]).foldl (step (configuredSettings id) wordBackends) s) old :=
  chosen_of_edits (reachable_session _ _ (by simp)) ⟨by decide, word ['b', 'b'], by decide, rfl⟩
    (List.forall_mem_singleton.mpr trivial)
    ⟨by decide, by decide, by decide, by decide, by decide, by decide, by decide⟩

end Completion

end DotEmacs.Company
