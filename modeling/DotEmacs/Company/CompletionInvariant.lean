import DotEmacs.Company.Completion
import Mathlib.Logic.Relation

/-!
# What holds of a completion at any time

Between commands a buffer is either idle, with the variables of the mechanism reset but for the
prefix, the cache and what belongs to searches, or completing: then there is a backend and a prefix,
the selection is the place of a candidate, and `company-point` is point. This holds after any
sequence of commands, whatever the backends reply.

What each function can do to a state is said once, for those that branch the most, and the
invariant follows for all commands.

## Main definitions

* `Company.Completion.Idle`, `Company.Completion.Active`, `Company.Completion.Settled`.

## Main results

* `Company.Completion.companyContinue_cases`, `Company.Completion.beginNew_cases`: what becomes of a
  state when a completion goes on, and when one is to begin.
* `Company.Completion.settled_run`: the invariant.
-/

namespace DotEmacs.Company

namespace Completion

variable {ε : Type} {σ : Settings} {B : Backends ε} {s : Completion ε}

/-- No completion is going on. The prefix and the cache can be left over from an attempt to begin,
and the search string, the filtering flag and the old selection from a search. -/
structure Idle (s : Completion ε) : Prop where
  backend : s.backend = none
  candidates : s.candidates = []
  candidatesLength : s.candidatesLength = none
  common : s.common = none
  selection : s.selection = 0
  selectionChanged : s.selectionChanged = false
  manualAction : s.manualAction = false
  manualPrefix : s.manualPrefix = none
  pointMax : s.pointMax = none
  point : s.point = none
  searchMode : s.searchMode = false

/-- A completion is going on. -/
structure Active (s : Completion ε) : Prop where
  backend : s.backend.isSome
  prefixText : s.prefixText.isSome
  candidates : s.candidates ≠ []
  candidatesLength : s.candidatesLength = some s.candidates.length
  selection : s.selection < s.candidates.length
  point : s.point.isSome
  pointMax : s.pointMax.isSome

/-- Idle, or active with `company-point` at point. -/
def Settled (s : Completion ε) : Prop := s.Idle ∨ s.Active ∧ s.point = some s.text.point

theorem Settled.idle_or_active (h : s.Settled) : s.Idle ∨ s.Active := h.imp_right And.left

theorem Idle.not_active (h : s.Idle) : ¬ s.Active := fun hactive => hactive.candidates h.candidates

theorem Settled.point_eq (h : s.Settled) (hs : s.Active) : s.point = some s.text.point :=
  (h.resolve_left fun hidle => hidle.not_active hs).2

theorem idle_initial (text : BufferText) (companyBackends : List ε) :
    (initial text companyBackends).Idle :=
  ⟨rfl, rfl, rfl, rfl, rfl, rfl, rfl, rfl, rfl, rfl, rfl⟩

theorem idle_cancel (s : Completion ε) : s.cancel.Idle :=
  ⟨rfl, rfl, rfl, rfl, rfl, rfl, rfl, rfl, rfl, rfl, rfl⟩

/-! ### Candidates and the selection -/

theorem restoredSelection_lt {c : List Candidate} (hc : c ≠ []) :
    (s.restoredSelection B c).1 < c.length := by
  have hpos : 0 < c.length := List.length_pos_of_ne_nil hc
  rw [restoredSelection]
  split_ifs
  · split
    · split
      · rename_i i hi
        exact (List.findIdx?_eq_some_iff_getElem.mp hi).1
      · exact hpos
    · exact hpos
  · exact hpos

theorem placeOf_nonneg {length : ℤ} (h : 0 < length) (wrapAround : Bool) (selection : ℤ) :
    0 ≤ placeOf wrapAround length selection := by
  rw [placeOf]
  split_ifs
  · exact Int.emod_nonneg _ h.ne'
  · exact le_max_left _ _

theorem placeOf_lt {length : ℤ} (h : 0 < length) (wrapAround : Bool) (selection : ℤ) :
    placeOf wrapAround length selection < length := by
  rw [placeOf]
  split_ifs
  · exact Int.emod_lt_of_pos _ h
  · omega

theorem Active.getD_candidatesLength (h : s.Active) :
    s.candidatesLength.getD 0 = s.candidates.length := by
  rw [h.candidatesLength, Option.getD_some]

/-- What `company-set-selection` does to a completion. -/
theorem Active.setSelection_eq (h : s.Active) (wrapAround : Bool) (selection : ℤ)
    (forceUpdate : Bool) :
    ∃ place changed, place < s.candidates.length ∧
      s.setSelection wrapAround selection forceUpdate =
        { s with selection := place, selectionChanged := changed } := by
  have hpos : (0 : ℤ) < s.candidates.length :=
    Int.natCast_pos.mpr (List.length_pos_of_ne_nil h.candidates)
  have hnonneg := placeOf_nonneg hpos wrapAround selection
  have hlt := placeOf_lt hpos wrapAround selection
  rw [Completion.setSelection, h.getD_candidatesLength]
  split_ifs
  · exact ⟨_, true, by omega, rfl⟩
  · exact ⟨s.selection, s.selectionChanged, h.selection, rfl⟩

/-! ### What a completion can become -/

/-- The predicate that a search string is turned into. -/
def searchPredicate (σ : Settings) (ss : List Char) : Candidate → Bool :=
  fun candidate => σ.searchMatches ss candidate.text

/-- The candidates for a prefix, filtered by a search string or not, and the cache, as asking the
backend of a state gives them. -/
def Calculates (σ : Settings) (B : Backends ε) (s : Completion ε) (ignoreCase : Bool)
    (filter : Option (List Char)) (cache : Cache) (t : List Char) (c : List Candidate)
    (cache' : Cache) : Prop :=
  ∃ forced, calculateCandidates σ.upcase σ.transformers (s.replies B) forced ignoreCase
    (filter.map (searchPredicate σ)) t cache = (c, cache')

theorem replies_eq {b : ε} (h : s.backend = some b) : s.replies B = B.replies b s.text := by
  rw [replies, h]

theorem str?_of_goodPrefixP {length : ℕ} {manualPrefix : Option Prefix} {reply : Prefix}
    (h : goodPrefixP length manualPrefix reply = true) : ∃ t, reply.str? = some t := by
  cases reply with
  | nil | stop => simp [goodPrefixP] at h
  | text t | counted t _ | always t => exact ⟨t, rfl⟩

theorem calculate_spec (s : Completion ε) (t : List Char) (ignoreCase : Bool) :
    ∃ c cache, s.calculate σ B none t ignoreCase = (c, s.setCache cache) ∧
      Calculates σ B s ignoreCase none s.candidatesCache t c cache :=
  ⟨_, _, rfl, _, rfl⟩

theorem finish_eq_some {result : Candidate} {s' : Completion ε}
    (h : s.finish B result = some s') : ∃ text, s' = s.cancel.setText text := by
  obtain ⟨text, -, rfl⟩ := Option.map_eq_some_iff.mp h
  cases s.prefixText with
  | none => exact ⟨_, rfl⟩
  | some t =>
      cases s.backend with
      | none => exact ⟨_, rfl⟩
      | some b => exact ⟨_, rfl⟩

theorem autoCompleteSelection_eq (s : Completion ε) :
    ∃ text, s.autoCompleteSelection B = s.cancel.setText text := by
  rw [autoCompleteSelection]
  dsimp only
  split
  · exact ⟨_, rfl⟩
  · rename_i s' h
    obtain ⟨result, -, hfinish⟩ := Option.bind_eq_some_iff.mp h
    obtain ⟨text, rfl⟩ := finish_eq_some hfinish
    exact ⟨_, rfl⟩

theorem continueFailed_cases (newPrefix : Option (List Char)) :
    s.continueFailed σ B newPrefix = (s.cancel, false) ∨ s.continueFailed σ B newPrefix =
      (s.deleteInput, true) := by
  rw [continueFailed]
  split_ifs
  · exact Or.inl rfl
  · exact Or.inr rfl
  · exact Or.inl rfl

theorem continueWith_cases (s : Completion ε) (newPrefix : Option (List Char)) (ignoreCase : Bool)
    (c : List Candidate) :
    (∃ text, (text = s.text ∨ s.point.getD 0 < s.text.point ∧
        σ.autoComplete (s.text.before.drop (s.point.getD 0)) = true) ∧
      s.continueWith σ B newPrefix ignoreCase c = (s.cancel.setText text, false)) ∨
    (c ≠ [] ∧ s.continueWith σ B newPrefix ignoreCase c =
      ((s.setPrefix (newPrefix.getD [])).updateCandidates σ B c, true)) ∨
    (s.incrementalP = true ∧ s.continueWith σ B newPrefix ignoreCase c =
      (s.deleteInput, true)) := by
  rw [continueWith]
  split_ifs with hunique hc hauto hincremental
  · exact Or.inl ⟨s.text, Or.inl rfl, rfl⟩
  · exact Or.inr (Or.inl ⟨hc, rfl⟩)
  · obtain ⟨text, htext⟩ := autoCompleteSelection_eq (B := B) s
    exact Or.inl ⟨text, Or.inr hauto, by rw [htext]⟩
  · exact Or.inl ⟨s.text, Or.inl rfl, rfl⟩
  · rcases continueFailed_cases newPrefix with h | h
    · exact Or.inl ⟨s.text, Or.inl rfl, h⟩
    · exact Or.inr (Or.inr ⟨by simpa using hincremental, h⟩)

/-- **What going on does.** The completion ends, with its text unless the selected candidate is
inserted; or it has new candidates for the new prefix, which begins where the old one did; or what
was typed behind it is taken away again. -/
theorem companyContinue_cases (s : Completion ε) :
    (∃ text, (text = s.text ∨ s.point.getD 0 < s.text.point ∧
        σ.autoComplete (s.text.before.drop (s.point.getD 0)) = true) ∧
      s.companyContinue σ B = (s.cancel.setText text, false)) ∨
    (∃ t c cache, (s.replies B).prefixReply.str? = some t ∧
      (s.text.point : ℤ) - t.length = s.point.getD 0 - (s.prefixText.getD []).length ∧
      Calculates σ B s (s.ignoresCase B) none (s.flushedCache B) t c cache ∧ c ≠ [] ∧
      s.companyContinue σ B =
        (((s.setCache cache).setPrefix t).updateCandidates σ B c, true)) ∨
    (∃ cache, (cache = s.flushedCache B ∨
        ∃ t c, Calculates σ B s (s.ignoresCase B) none (s.flushedCache B) t c cache) ∧
      s.incrementalP = true ∧ s.companyContinue σ B =
        ((s.setCache cache).deleteInput, true)) := by
  rw [companyContinue]
  dsimp only
  split_ifs with h
  · obtain ⟨hgood, hpoint⟩ := h
    obtain ⟨t, ht⟩ := str?_of_goodPrefixP hgood
    have hnew : (s.setCache (s.flushedCache B)).newPrefix σ B = some t := by
      rw [newPrefix]
      exact (if_pos hgood).trans ht
    obtain ⟨c, cache, hcalculate, hcalculates⟩ := calculate_spec (σ := σ) (B := B)
      (s.setCache (s.flushedCache B)) t
      ((s.setCache (s.flushedCache B)).ignoresCase B)
    rw [hnew] at hpoint ⊢
    rw [Option.getD_some, hcalculate]
    rcases continueWith_cases ((s.setCache (s.flushedCache B)).setCache cache) (some t) _ c
      with h | ⟨hc, h⟩ | ⟨hi, h⟩
    · exact Or.inl h
    · exact Or.inr (Or.inl ⟨t, c, cache, ht, hpoint, hcalculates, hc, h⟩)
    · exact Or.inr (Or.inr ⟨cache, Or.inr ⟨t, c, hcalculates⟩, hi, h⟩)
  · rcases continueWith_cases (s.setCache (s.flushedCache B))
      ((s.setCache (s.flushedCache B)).newPrefix σ B)
      ((s.setCache (s.flushedCache B)).ignoresCase B) [] with h | ⟨hc, -⟩ | ⟨hi, h⟩
    · exact Or.inl h
    · exact absurd rfl hc
    · exact Or.inr (Or.inr ⟨_, Or.inl rfl, hi, h⟩)

theorem firstBackend_eq_some {b : ε} (h : s.firstBackend B = some b) :
    s.backend = some b ∨ s.backend = none ∧ b ∈ s.companyBackends := by
  have hmem := List.mem_of_find?_eq_some h
  cases hbackend : s.backend with
  | none => exact Or.inr ⟨rfl, by simpa [hbackend] using hmem⟩
  | some b' => exact Or.inl (by simpa [hbackend, eq_comm] using hmem)

/-- **What beginning does.** Nothing; or nothing is left over, because there is but one candidate
and it is there already; or the first backend with a prefix is asked, and finds no candidates or
the completion begins with them. -/
theorem beginNew_cases (s : Completion ε) (minimumPrefixLength : ℕ) :
    s.beginNew σ B minimumPrefixLength = s ∨ s.beginNew σ B minimumPrefixLength = s.cancel ∨
    ∃ b t c cache, (s.backend = some b ∨ s.backend = none ∧ b ∈ s.companyBackends) ∧
      (B.replies b s.text).prefixReply.str? = some t ∧
      Calculates σ B (s.setBackend b t) (s.ignoresCase B) none s.candidatesCache t c cache ∧
      (c = [] ∧ s.beginNew σ B minimumPrefixLength = (s.setBackend b t).setCache cache ∨
        c ≠ [] ∧ ∃ manualPrefix, s.beginNew σ B minimumPrefixLength =
          (((s.setBackend b t).setCache cache).setManualPrefix
            manualPrefix).updateCandidates σ B c) := by
  rw [beginNew]
  cases hfirst : s.firstBackend B with
  | none => exact Or.inl rfl
  | some b =>
      have hb := firstBackend_eq_some hfirst
      dsimp only
      rw [beginWith]
      split_ifs with hgood
      · obtain ⟨t, ht⟩ := str?_of_goodPrefixP hgood
        obtain ⟨c, cache, hcalculate, hcalculates⟩ := calculate_spec (σ := σ) (B := B)
          (s.setBackend b t) t (s.ignoresCase B)
        simp only [ht, Option.getD_some, hcalculate]
        split_ifs with hunique hc hmanual
        · exact Or.inr (Or.inl rfl)
        · exact Or.inr (Or.inr ⟨b, t, c, cache, hb, ht, hcalculates, Or.inl ⟨hc, rfl⟩⟩)
        · exact Or.inr (Or.inr ⟨b, t, c, cache, hb, ht, hcalculates, Or.inr ⟨hc, _, rfl⟩⟩)
        · exact Or.inr (Or.inr ⟨b, t, c, cache, hb, ht, hcalculates, Or.inr ⟨hc, _, rfl⟩⟩)
      · exact Or.inl rfl

/-! ### Moves -/

variable (σ B)

/-- The small steps that allowed actions are made of. The relation is an overapproximation: what it
keeps of a function is what the invariants need. During a completion the text is changed by other
commands, and the backend by `company-begin-backend`. -/
inductive Move (allowed : Completion ε → Action ε → Prop) : Completion ε → Completion ε → Prop
  /-- A completion ends, and the text may be another then. -/
  | ended {s : Completion ε} (text : BufferText) :
      Move allowed s (s.cancel.setText text)
  /-- No candidates were found to begin with. -/
  | failed {s : Completion ε} {b : ε} {t : List Char} {ignoreCase : Bool} {cache : Cache}
      (h : s.Idle)
      (hc : Calculates σ B (s.setBackend b t) ignoreCase none s.candidatesCache t [] cache) :
      Move allowed s ((s.setCache cache).setPrefix t)
  /-- A completion begins. -/
  | begun {s : Completion ε} {b : ε} {t : List Char} {ignoreCase : Bool} {c : List Candidate}
      {cache : Cache} (manualAction : Bool) (manualPrefix : Option Prefix) (h : s.Idle)
      (ht : (B.replies b s.text).prefixReply.str? = some t)
      (hcalculates :
        Calculates σ B (s.setBackend b t) ignoreCase none s.candidatesCache t c cache)
      (hc : c ≠ []) :
      Move allowed s (((((s.setBackend b t).setCache cache).setManualAction
        manualAction).setManualPrefix manualPrefix).updateCandidates σ B c).setPoint
  /-- A completion goes on with a new prefix. -/
  | continued {s : Completion ε} {t : List Char} {c : List Candidate} {cache : Cache}
      (h : s.Active) (ht : (s.replies B).prefixReply.str? = some t)
      (hcalculates : Calculates σ B s (s.ignoresCase B) none (s.flushedCache B) t c cache)
      (hc : c ≠ []) : Move allowed s
        (((s.setCache cache).setPrefix t).updateCandidates σ B c).setPoint
  /-- What was typed is taken away, since a match is required. -/
  | takenBack {s : Completion ε} {cache : Cache} (h : s.Active)
      (hcache : cache = s.flushedCache B ∨
        ∃ t c, Calculates σ B s (s.ignoresCase B) none (s.flushedCache B) t c cache)
      (hincremental : s.incrementalP = true) :
      Move allowed s (s.setCache cache).deleteInput.setPoint
  /-- The candidates for the prefix are filtered anew. -/
  | filtered {s : Completion ε} {filter : Option (List Char)} {c : List Candidate} {cache : Cache}
      (h : s.Active)
      (hcalculates : Calculates σ B s (s.ignoresCase B) filter s.candidatesCache
        (s.prefixText.getD []) c cache)
      (hc : c ≠ []) : Move allowed s ((s.setCache cache).updateCandidates σ B c)
  /-- No candidates match a filter. -/
  | unfiltered {s : Completion ε} {filter : Option (List Char)} {c : List Candidate}
      {cache : Cache} (h : s.Active)
      (hcalculates : Calculates σ B s (s.ignoresCase B) filter s.candidatesCache
        (s.prefixText.getD []) c cache) :
      Move allowed s (s.setCache cache)
  | selected {s : Completion ε} {selection : ℕ} (changed : Bool) (h : s.Active)
      (hlt : selection < s.candidates.length) :
      Move allowed s { s with selection := selection, selectionChanged := changed }
  /-- The common part of several candidates is inserted. -/
  | inserted {s : Completion ε} {text : BufferText} (h : s.Active)
      (hpoint : s.point = some s.text.point)
      (hlength : 1 < s.candidates.length ∨ s.common ≠ s.candidates.head?.map Candidate.text)
      (hinsert : s.insertCandidate B (s.common.getD []) = some text) :
      Move allowed s (s.setText text)
  | acted {s : Completion ε} (h : s.Active) : Move allowed s (s.setManualAction true)
  | searched {s : Completion ε} (mode : Bool) (string : List Char) (filtering : Bool)
      (oldSelection : ℕ) (oldChanged : Bool) (hmode : s.candidates = [] → mode = false) :
      Move allowed s { s with
        searchMode := mode
        searchString := string
        searchFiltering := filtering
        searchOldSelection := oldSelection
        searchOldChanged := oldChanged }
  | switched {s : Completion ε} {b : ε} (h : s.Active) (hallowed : allowed s (.beginBackend b)) :
      Move allowed s (s.chooseBackend (some b))
  | edited {s : Completion ε} {text : BufferText} {completable : Bool} {companyBackends : List ε}
      (quit : Bool)
      (hallowed : s.Active → allowed s (.other text completable companyBackends true quit) ∧
        s.point = some s.text.point) :
      Move allowed s
        { s with text := text, completable := completable, companyBackends := companyBackends }

/-- Any number of moves. -/
abbrev Moves (allowed : Completion ε → Action ε → Prop) : Completion ε → Completion ε → Prop :=
  Relation.ReflTransGen (Move σ B allowed)

variable {σ B} {s' : Completion ε} {A : Completion ε → Action ε → Prop}

/-- Every move leaves a state that is idle or active. -/
theorem Move.idle_or_active (h : Move σ B A s s') (hs : s.Idle ∨ s.Active) :
    s'.Idle ∨ s'.Active := by
  cases h with
  | ended text => exact Or.inl ⟨rfl, rfl, rfl, rfl, rfl, rfl, rfl, rfl, rfl, rfl, rfl⟩
  | failed h hc => exact Or.inl { h with }
  | begun manualAction manualPrefix h ht hcalculates hc =>
      exact Or.inr ⟨rfl, rfl, hc, rfl, restoredSelection_lt hc, rfl, rfl⟩
  | continued h ht hcalculates hc =>
      exact Or.inr ⟨h.backend, rfl, hc, rfl, restoredSelection_lt hc, rfl, rfl⟩
  | takenBack h hcache hincremental => exact Or.inr { h with point := rfl, pointMax := rfl }
  | filtered h hcalculates hc =>
      exact Or.inr ⟨h.backend, h.prefixText, hc, rfl, restoredSelection_lt hc, h.point, h.pointMax⟩
  | unfiltered h hcalculates => exact Or.inr { h with }
  | selected changed h hlt => exact Or.inr { h with selection := hlt }
  | inserted h hpoint hlength hinsert => exact Or.inr { h with }
  | acted h => exact Or.inr { h with }
  | searched mode string filtering oldSelection oldChanged hmode =>
      rcases hs with h | h
      · exact Or.inl { h with searchMode := hmode h.candidates }
      · exact Or.inr { h with }
  | switched h hallowed => exact Or.inr { h with backend := rfl }
  | edited quit hallowed =>
      rcases hs with h | h
      · exact Or.inl { h with }
      · exact Or.inr { h with }

theorem Moves.idle_or_active (h : Moves σ B A s s') (hs : s.Idle ∨ s.Active) :
    s'.Idle ∨ s'.Active := by
  induction h with
  | refl => exact hs
  | tail _ hmove ih => exact hmove.idle_or_active ih

theorem Moves.induct {p : Completion ε → Prop} (h : Moves σ B A s s')
    (hs : s.Idle ∨ s.Active) (hp : p s)
    (hmove : ∀ s s', s.Idle ∨ s.Active → Move σ B A s s' → p s → p s') : p s' := by
  induction h with
  | refl => exact hp
  | tail hmoves hlast ih => exact hmove _ _ (Moves.idle_or_active hmoves hs) hlast ih

/-! ### The functions of the mechanism are made of moves -/

theorem chooseBackend_of_eq {b : Option ε} (h : s.backend = b) : s.chooseBackend b = s := by
  cases s
  cases h
  rfl

theorem setManualAction_of_eq {value : Bool} (h : s.manualAction = value) :
    s.setManualAction value = s := by
  cases s
  cases h
  rfl

/-- **What a command leaves of a completion**: nothing, or new candidates for a new prefix, or what
was typed is taken away. -/
theorem Active.perform_cases (h : s.Active) (minimumPrefixLength : ℕ) :
    (∃ text, s.perform σ B minimumPrefixLength false = s.cancel.setText text) ∨
    (∃ t c cache, (s.replies B).prefixReply.str? = some t ∧
      Calculates σ B s (s.ignoresCase B) none (s.flushedCache B) t c cache ∧ c ≠ [] ∧
      s.perform σ B minimumPrefixLength false =
        (((s.setCache cache).setPrefix t).updateCandidates σ B c).setPoint) ∨
    ∃ cache, (cache = s.flushedCache B ∨
        ∃ t c, Calculates σ B s (s.ignoresCase B) none (s.flushedCache B) t c cache) ∧
      s.incrementalP = true ∧ s.perform σ B minimumPrefixLength false =
        (s.setCache cache).deleteInput.setPoint := by
  rw [Completion.perform, if_pos h.candidates]
  rcases companyContinue_cases (σ := σ) (B := B) s with ⟨text, -, heq⟩ |
    ⟨t, c, cache, ht, -, hcalculates, hc, heq⟩ | ⟨cache, hcache, hincremental, heq⟩
  · rw [heq]
    exact Or.inl ⟨text, rfl⟩
  · rw [heq]
    exact Or.inr (Or.inl ⟨t, c, cache, ht, hcalculates, hc, if_neg hc⟩)
  · rw [heq]
    exact Or.inr (Or.inr ⟨cache, hcache, hincremental, if_neg h.candidates⟩)

/-- Behind a command a completion goes on, and ends or has `company-point` at point. -/
theorem Active.perform (h : s.Active) (minimumPrefixLength : ℕ) :
    Move σ B A s (s.perform σ B minimumPrefixLength false) ∧
      ((s.perform σ B minimumPrefixLength false).candidates ≠ [] →
        (s.perform σ B minimumPrefixLength false).point =
          some (s.perform σ B minimumPrefixLength false).text.point) := by
  rcases h.perform_cases (σ := σ) (B := B) minimumPrefixLength with ⟨text, heq⟩ |
    ⟨t, c, cache, ht, hcalculates, hc, heq⟩ | ⟨cache, hcache, hincremental, heq⟩
  · rw [heq]
    exact ⟨Move.ended text, fun hne => absurd rfl hne⟩
  · rw [heq]
    exact ⟨Move.continued h ht hcalculates hc, fun _ => rfl⟩
  · rw [heq]
    exact ⟨Move.takenBack h hcache hincremental, fun _ => rfl⟩

theorem perform_of_nil (h : s.candidates = []) (minimumPrefixLength : ℕ) :
    s.perform σ B minimumPrefixLength false = s.chooseBackend none := by
  rw [Completion.perform, if_neg (not_not.mpr h)]
  exact if_pos h

theorem perform_begin_of_nil (h : s.candidates = []) (minimumPrefixLength : ℕ) :
    s.perform σ B minimumPrefixLength true =
      if (s.beginNew σ B minimumPrefixLength).candidates = [] then
        (s.beginNew σ B minimumPrefixLength).chooseBackend none
      else (s.beginNew σ B minimumPrefixLength).setPoint := by
  rw [Completion.perform, if_neg (not_not.mpr h)]
  rfl

theorem Moves.idle_of_nil (h : Moves σ B A s s') (hs : s.Idle) (hnil : s'.candidates = []) :
    s'.Idle :=
  (h.idle_or_active (Or.inl hs)).resolve_right fun hactive => hactive.candidates hnil

/-- An attempt to begin, from an idle state in which a backend may have been chosen. -/
theorem Idle.perform (h : s.Idle) (backend : Option ε) (manualAction : Bool)
    (minimumPrefixLength : ℕ) (shouldComplete : Bool) {q : Completion ε}
    (hq : q = (s.chooseBackend backend).setManualAction manualAction) :
    ∃ r, Moves σ B A s r ∧
      (r.Idle ∧ (∃ m, (m = manualAction ∨ m = false) ∧
          q.perform σ B minimumPrefixLength shouldComplete = r.setManualAction m) ∨
        r.Active ∧ r.point = some r.text.point ∧
          q.perform σ B minimumPrefixLength shouldComplete = r) := by
  have hnil : q.candidates = [] := hq ▸ h.candidates
  have hkeep : q.chooseBackend none = s.setManualAction manualAction := by
    rw [hq, ← chooseBackend_of_eq h.backend]
    rfl
  cases shouldComplete with
  | false =>
      refine ⟨s, Relation.ReflTransGen.refl, Or.inl ⟨h, manualAction, Or.inl rfl, ?_⟩⟩
      rw [perform_of_nil hnil, hkeep]
  | true =>
      rw [perform_begin_of_nil hnil]
      rcases beginNew_cases (σ := σ) (B := B) q minimumPrefixLength with heq | heq |
        ⟨b, t, c, cache, -, ht, hcalculates, ⟨rfl, heq⟩ | ⟨hc, manualPrefix, heq⟩⟩
      · refine ⟨s, Relation.ReflTransGen.refl, Or.inl ⟨h, manualAction, Or.inl rfl, ?_⟩⟩
        rw [heq, if_pos hnil, hkeep]
      · have hmoves : Moves σ B A s (s.cancel.setText s.text) :=
          Relation.ReflTransGen.single (Move.ended s.text)
        refine ⟨_, hmoves, Or.inl ⟨hmoves.idle_of_nil h rfl, false, Or.inr rfl, ?_⟩⟩
        rw [heq, hq]
        exact if_pos rfl
      · have hmoves : Moves σ B A s ((s.setCache cache).setPrefix t) :=
          Relation.ReflTransGen.single (Move.failed (b := b) h (hq ▸ hcalculates))
        refine ⟨_, hmoves, Or.inl ⟨hmoves.idle_of_nil h h.candidates, manualAction,
          Or.inl rfl, ?_⟩⟩
        have hfailed : ((q.setBackend b t).setCache cache).candidates = [] := hnil
        rw [heq, if_pos hfailed, hq]
        nth_rewrite 2 [← chooseBackend_of_eq h.backend]
        rfl
      · have hmove : Move σ B A s (((((s.setBackend b t).setCache cache).setManualAction
            manualAction).setManualPrefix manualPrefix).updateCandidates σ B c).setPoint := by
          rw [hq] at ht hcalculates
          exact Move.begun manualAction manualPrefix h ht hcalculates hc
        have hactive := (hmove.idle_or_active (Or.inl h)).resolve_left fun hidle =>
          hc hidle.candidates
        refine ⟨_, Relation.ReflTransGen.single hmove, Or.inr ⟨hactive, rfl, ?_⟩⟩
        have hbegun : ((((q.setBackend b t).setCache cache).setManualPrefix
            manualPrefix).updateCandidates σ B c).candidates ≠ [] := hc
        rw [heq, if_neg hbegun, hq]
        rfl

theorem setManualAction_setManualAction (s : Completion ε) (m m' : Bool) :
    (s.setManualAction m).setManualAction m' = s.setManualAction m' := rfl

theorem Idle.autoBegin (h : s.Idle) (minimumPrefixLength : ℕ) :
    Moves σ B A s (s.autoBegin σ B minimumPrefixLength) := by
  have hq : s = (s.chooseBackend none).setManualAction false := by
    rw [chooseBackend_of_eq h.backend, setManualAction_of_eq h.manualAction]
  obtain ⟨r, hmoves, ⟨hr, m, hm, heq⟩ | ⟨-, -, heq⟩⟩ :=
    h.perform (σ := σ) (B := B) (A := A) none false minimumPrefixLength s.completable hq
  · rw [Completion.autoBegin, if_pos h.candidates, heq,
      setManualAction_of_eq (hr.manualAction.trans (hm.elim Eq.symm Eq.symm))]
    exact hmoves
  · rw [Completion.autoBegin, if_pos h.candidates, heq]
    exact hmoves

/-- An idle state, in which a backend may have been chosen, begins on a command or is idle again. -/
theorem Idle.manualBegin (h : s.Idle) (backend : Option ε) :
    Moves σ B A s ((s.chooseBackend backend).manualBegin σ B) ∧
      ((s.chooseBackend backend).manualBegin σ B).Settled := by
  obtain ⟨r, hmoves, ⟨hr, m, -, heq⟩ | ⟨hr, hpoint, heq⟩⟩ :=
    h.perform (σ := σ) (B := B) (A := A) backend true 0 s.completable rfl
  · have hauto : ((s.chooseBackend backend).setManualAction true).autoBegin σ B 0 =
        r.setManualAction m := (if_pos h.candidates).trans heq
    rw [Completion.manualBegin, hauto]
    rw [if_pos (show (r.setManualAction m).candidates = [] from hr.candidates),
      setManualAction_setManualAction, setManualAction_of_eq hr.manualAction]
    exact ⟨hmoves, Or.inl hr⟩
  · have hauto : ((s.chooseBackend backend).setManualAction true).autoBegin σ B 0 = r :=
      (if_pos h.candidates).trans heq
    rw [Completion.manualBegin, hauto]
    rw [if_neg hr.candidates]
    exact ⟨hmoves, Or.inr ⟨hr, hpoint⟩⟩

theorem Active.manualBegin_eq (h : s.Active) : s.manualBegin σ B = s.setManualAction true := by
  have hauto : (s.setManualAction true).autoBegin σ B 0 = s.setManualAction true :=
    if_neg h.candidates
  rw [Completion.manualBegin, hauto]
  exact if_neg h.candidates

theorem Active.whenBegun_eq (h : s.Active) (f : Completion ε → Completion ε) :
    s.whenBegun σ B f = f (s.setManualAction true) := by
  rw [whenBegun, h.manualBegin_eq]
  exact if_neg h.candidates

theorem Settled.manualBegin (hs : s.Settled) :
    Moves σ B A s (s.manualBegin σ B) ∧ (s.manualBegin σ B).Settled := by
  rcases hs with h | ⟨h, hpoint⟩
  · have hmoves := h.manualBegin (σ := σ) (B := B) (A := A) none
    rwa [chooseBackend_of_eq h.backend] at hmoves
  · rw [h.manualBegin_eq]
    exact ⟨Relation.ReflTransGen.single (Move.acted h), Or.inr ⟨{ h with }, hpoint⟩⟩

theorem moves_beginBackend {b : ε} (hs : s.Idle ∨ s.Active)
    (hallowed : s.Active → A s (.beginBackend b)) :
    Moves σ B A s (s.beginBackend σ B b) := by
  rcases hs with h | h
  · exact (h.manualBegin (some b)).1
  · have hswitched : (s.chooseBackend (some b)).Active := { h with backend := rfl }
    rw [Completion.beginBackend, hswitched.manualBegin_eq]
    exact (Relation.ReflTransGen.single (Move.switched h (hallowed h))).tail (Move.acted hswitched)

theorem moves_whenBegun {f : Completion ε → Completion ε} (hs : s.Settled)
    (hf : ∀ s', s'.Active → s'.point = some s'.text.point → Moves σ B A s' (f s')) :
    Moves σ B A s (s.whenBegun σ B f) := by
  obtain ⟨hmoves, hsettled⟩ := hs.manualBegin (σ := σ) (B := B) (A := A)
  rw [whenBegun]
  split_ifs with hnil
  · exact hmoves
  · obtain ⟨hactive, hpoint⟩ := hsettled.resolve_left fun hidle => hnil hidle.candidates
    exact hmoves.trans (hf _ hactive hpoint)

/-! ### Every command is made of moves -/

theorem Active.moves_setSelection (h : s.Active) (wrapAround : Bool) (selection : ℤ)
    (forceUpdate : Bool) :
    Moves σ B A s (s.setSelection wrapAround selection forceUpdate) := by
  obtain ⟨place, changed, hlt, heq⟩ := h.setSelection_eq wrapAround selection forceUpdate
  rw [heq]
  exact Relation.ReflTransGen.single (Move.selected changed h hlt)

theorem moves_cancel : Moves σ B A s s.cancel :=
  Relation.ReflTransGen.single (Move.ended s.text)

theorem moves_finish (result : Candidate) :
    Moves σ B A s ((s.finish B result).getD s) := by
  cases hfinish : s.finish B result with
  | none => exact Relation.ReflTransGen.refl
  | some s' =>
      obtain ⟨text, rfl⟩ := finish_eq_some hfinish
      exact Relation.ReflTransGen.single (Move.ended text)

/-- Inserting the candidate at a place, as `company-finish` does, or ending without. -/
theorem moves_finishAt (i : ℕ) :
    Moves σ B A s (match s.candidates[i]? with
      | some result => (s.finish B result).getD s
      | none => s.cancel) := by
  cases s.candidates[i]? with
  | none => exact moves_cancel
  | some result => exact moves_finish result

theorem moves_selectNext (hs : s.Settled) (arg : ℤ) :
    Moves σ B A s (s.selectNext σ B arg) :=
  moves_whenBegun hs fun _ h _ => h.moves_setSelection _ _ _

theorem moves_selectNextOrAbort (hs : s.Settled) (arg : ℤ) :
    Moves σ B A s (s.selectNextOrAbort σ B arg) := by
  rw [selectNextOrAbort]
  split
  · split_ifs
    · exact moves_selectNext hs arg
    · exact moves_cancel
  · exact Relation.ReflTransGen.refl

theorem moves_nextPage (hs : s.Settled) : Moves σ B A s (s.nextPage σ B) := by
  refine moves_whenBegun hs fun s' h hpoint => ?_
  split_ifs
  · exact h.moves_setSelection _ _ _
  · exact h.moves_setSelection _ _ _

theorem moves_previousPage (hs : s.Settled) :
    Moves σ B A s (s.previousPage σ B) := by
  refine moves_whenBegun hs fun s' h hpoint => ?_
  split_ifs
  · exact h.moves_setSelection _ _ _
  · exact h.moves_setSelection _ _ _

theorem moves_completeSelection (hs : s.Settled) :
    Moves σ B A s (s.completeSelection σ B) :=
  moves_whenBegun hs fun _ _ _ => moves_finishAt _

theorem moves_completeCommon (hs : s.Settled) :
    Moves σ B A s (s.completeCommon σ B) := by
  refine moves_whenBegun hs fun s' h hpoint => ?_
  split_ifs with hsole
  · exact moves_completeSelection (Or.inr ⟨h, hpoint⟩)
  · cases hinsert : s'.insertCandidate B (s'.common.getD []) with
    | none => exact Relation.ReflTransGen.refl
    | some text =>
        have hlength : 1 < s'.candidates.length ∨
            s'.common ≠ s'.candidates.head?.map Candidate.text := by
          rw [not_and_or, not_le] at hsole
          exact hsole
        exact Relation.ReflTransGen.single (Move.inserted h hpoint hlength hinsert)

theorem moves_complete (hs : s.Settled) (again : Bool) :
    Moves σ B A s (s.complete σ B again) := by
  refine moves_whenBegun hs fun s' h hpoint => ?_
  split_ifs
  · exact moves_completeSelection (Or.inr ⟨h, hpoint⟩)
  · exact moves_completeCommon (Or.inr ⟨h, hpoint⟩)

theorem moves_completeNumber (hs : s.Settled) (n offset : ℕ) :
    Moves σ B A s (s.completeNumber σ B n offset) := by
  refine moves_whenBegun hs fun s' _ _ => ?_
  split_ifs
  · exact Relation.ReflTransGen.refl
  · exact moves_finishAt _

theorem moves_beginUntil (next : List ε) (hs : s.Idle ∨ s.Active) :
    Moves σ B A s
      (next.foldl (fun s b => if s.candidates = [] then s.beginBackend σ B b else s) s) := by
  induction next generalizing s with
  | nil => exact Relation.ReflTransGen.refl
  | cons b next ih =>
      have hmoves : Moves σ B A s
          (if s.candidates = [] then s.beginBackend σ B b else s) := by
        split_ifs with hnil
        · exact moves_beginBackend hs fun h => absurd hnil h.candidates
        · exact Relation.ReflTransGen.refl
      rw [List.foldl_cons]
      exact hmoves.trans (ih (hmoves.idle_or_active hs))

/-- The completion has ended when others are begun with, so that no backend is switched. -/
theorem moves_otherBackend [DecidableEq ε] (backward : Bool) :
    Moves σ B A s (s.otherBackend σ B backward) :=
  moves_cancel.trans (moves_beginUntil _ (Or.inl (idle_cancel s)))

/-- Filtering leaves a completion active, whether or not something matches. -/
theorem Active.searchUpdatePredicate (h : s.Active) (ss : List Char) :
    Moves σ B A s (s.searchUpdatePredicate σ B ss).1 ∧
      (s.searchUpdatePredicate σ B ss).1.Active := by
  obtain ⟨filter, hfilter⟩ : ∃ filter : Option (List Char),
      (if ss ≠ [] ∧ s.searchFiltering then
        some fun candidate : Candidate => σ.searchMatches ss candidate.text else none) =
      filter.map (searchPredicate σ) := by
    split_ifs
    · exact ⟨some ss, rfl⟩
    · exact ⟨none, rfl⟩
  obtain ⟨c, cache, hcalculate, hcalculates⟩ :
      ∃ c cache, s.calculate σ B (filter.map (searchPredicate σ)) (s.prefixText.getD [])
        (s.ignoresCase B) = (c, s.setCache cache) ∧
      Calculates σ B s (s.ignoresCase B) filter s.candidatesCache (s.prefixText.getD []) c cache :=
    ⟨_, _, rfl, _, rfl⟩
  rw [Completion.searchUpdatePredicate, hfilter, hcalculate]
  dsimp only
  split_ifs with hc
  · exact ⟨Relation.ReflTransGen.single (Move.unfiltered h hcalculates), { h with }⟩
  · exact ⟨Relation.ReflTransGen.single (Move.filtered h hcalculates hc),
      ⟨h.backend, h.prefixText, hc, rfl, restoredSelection_lt hc, h.point, h.pointMax⟩⟩

theorem Active.searched (h : s.Active) (string : List Char) (filtering : Bool) :
    Move σ B A s { s with searchString := string, searchFiltering := filtering } :=
  Move.searched s.searchMode string filtering s.searchOldSelection s.searchOldChanged fun hnil =>
    absurd hnil h.candidates

theorem Active.moves_searchUpdateString (h : s.Active) (new : List Char) :
    Moves σ B A s (s.searchUpdateString σ new) := by
  rw [searchUpdateString]
  split
  · exact Relation.ReflTransGen.refl
  · have hsearched : ({ s with searchString := new }).Active := { h with }
    exact (Relation.ReflTransGen.single (h.searched new s.searchFiltering)).trans
      (hsearched.moves_setSelection _ _ _)

/-- The candidates are filtered anew, and the first match behind is selected, unless the filter
signals. -/
theorem Active.moves_searchFilter (h : s.Active) (ss : List Char) :
    Moves σ B A s (s.searchFilter σ B ss) := by
  rw [searchFilter]
  obtain ⟨hmoves, hactive⟩ := h.searchUpdatePredicate (σ := σ) (B := B) (A := A) ss
  split_ifs
  · exact hmoves.trans (hactive.moves_searchUpdateString ss)
  · exact hmoves

theorem Active.moves_searchUpdate (h : s.Active) (ss : List Char) :
    Moves σ B A s (s.searchUpdate σ B ss) := by
  rw [searchUpdate]
  split_ifs
  · exact h.moves_searchFilter ss
  · exact h.moves_searchUpdateString ss

/-- Nothing is searched while no completion is going on. -/
theorem active_of_searchMode (hs : s.Idle ∨ s.Active) (h : s.searchMode = true) : s.Active :=
  hs.resolve_left fun hidle => by simp [hidle.searchMode] at h

theorem moves_searchPrintingChar (hs : s.Idle ∨ s.Active) (c : Char) :
    Moves σ B A s (s.searchPrintingChar σ B c) := by
  rw [searchPrintingChar]
  split_ifs with h
  · exact (active_of_searchMode hs h).moves_searchUpdate _
  · exact Relation.ReflTransGen.refl

theorem moves_searchDeleteChar (hs : s.Idle ∨ s.Active) :
    Moves σ B A s (s.searchDeleteChar σ B) := by
  rw [searchDeleteChar]
  split_ifs with h
  · exact (active_of_searchMode hs h.1).moves_searchUpdate _
  · exact Relation.ReflTransGen.refl

theorem moves_searchRepeatForward (hs : s.Idle ∨ s.Active) :
    Moves σ B A s (s.searchRepeatForward σ) := by
  rw [searchRepeatForward]
  split_ifs with h
  · split
    · exact Relation.ReflTransGen.refl
    · exact (active_of_searchMode hs h.1).moves_setSelection _ _ _
  · exact Relation.ReflTransGen.refl

theorem moves_searchRepeatBackward (hs : s.Idle ∨ s.Active) :
    Moves σ B A s (s.searchRepeatBackward σ) := by
  rw [searchRepeatBackward]
  split_ifs with h
  · split
    · exact Relation.ReflTransGen.refl
    · exact (active_of_searchMode hs h.1).moves_setSelection _ _ _
  · exact Relation.ReflTransGen.refl

theorem moves_searchToggleFiltering (hs : s.Idle ∨ s.Active) :
    Moves σ B A s (s.searchToggleFiltering σ B) := by
  rw [searchToggleFiltering]
  split_ifs with h
  · have hactive := active_of_searchMode hs h
    have htoggled : ({ s with searchFiltering := ! s.searchFiltering }).Active := { hactive with }
    exact (Relation.ReflTransGen.single (hactive.searched s.searchString
      (! s.searchFiltering))).trans (htoggled.moves_searchFilter s.searchString)
  · exact Relation.ReflTransGen.refl

theorem moves_searchModeOn (hs : s.Settled) :
    Moves σ B A s (s.searchModeOn σ B) := by
  have hmoves := (hs.manualBegin (σ := σ) (B := B) (A := A)).1
  rw [searchModeOn]
  split_ifs with hnil
  · exact hmoves.tail (Move.searched false _ _ _ _ fun _ => rfl)
  · exact hmoves.tail (Move.searched true _ _ _ _ fun h => absurd h hnil)

/-- Turning off the search mode forgets the search, and shows all candidates again. -/
theorem Active.searchModeOff (h : s.Active) :
    Moves σ B A s (s.searchModeOff σ B).1 ∧ (s.searchModeOff σ B).1.Active := by
  have hmove : Move σ B A s { s with
      searchMode := false
      searchString := []
      searchFiltering := false
      searchOldSelection := 0
      searchOldChanged := false } := Move.searched false [] false 0 false fun _ => rfl
  have hactive := (hmove.idle_or_active (Or.inr h)).resolve_left fun hidle =>
    h.candidates hidle.candidates
  rw [Completion.searchModeOff]
  dsimp only
  rw [if_pos h.backend]
  obtain ⟨hmoves, hoff⟩ := hactive.searchUpdatePredicate (σ := σ) (B := B) (A := A) []
  exact ⟨(Relation.ReflTransGen.single hmove).trans hmoves, hoff⟩

theorem moves_searchAbort (hs : s.Idle ∨ s.Active) :
    Moves σ B A s (s.searchAbort σ B) := by
  rw [searchAbort]
  split_ifs with h
  · obtain ⟨hmoves, hactive⟩ :=
      (active_of_searchMode hs h).searchModeOff (σ := σ) (B := B) (A := A)
    dsimp only
    split_ifs
    · obtain ⟨place, changed, hlt, heq⟩ := hactive.setSelection_eq σ.selectionWrapAround
        (s.searchModeOff σ B).1.searchOldSelection true
      rw [heq]
      exact hmoves.tail (Move.selected _ hactive hlt)
    · exact hmoves
  · exact Relation.ReflTransGen.refl

theorem moves_searchOtherChar (hs : s.Idle ∨ s.Active) :
    Moves σ B A s (s.searchOtherChar σ B) := by
  rw [searchOtherChar]
  split_ifs with h
  · exact (active_of_searchMode hs h).searchModeOff.1
  · exact Relation.ReflTransGen.refl

theorem moves_filterCandidates (hs : s.Settled) :
    Moves σ B A s (s.filterCandidates σ B) := by
  have hmoves := moves_searchModeOn (σ := σ) (B := B) (A := A) hs
  refine hmoves.tail (Move.searched _ _ true _ _ fun hnil => ?_)
  rcases hmoves.idle_or_active hs.idle_or_active with h | h
  · exact h.searchMode
  · exact absurd hnil h.candidates

/-! ### Actions -/

theorem postCommand_false (s : Completion ε) : s.postCommand σ B false =
    if s.point = some s.text.point then s else s.perform σ B σ.minimumPrefixLength false := by
  rw [postCommand]
  simp only [Bool.false_eq_true, and_false, if_false]

theorem postCommand_true (s : Completion ε) : s.postCommand σ B true =
    if s.candidates = [] then s.postCommand σ B false else s.cancel.postCommand σ B false := by
  rw [postCommand_false, postCommand_false, postCommand]
  simp only [and_true]
  split_ifs <;> first | rfl | contradiction

theorem Idle.postCommand (h : s.Idle) (quit : Bool) : s.postCommand σ B quit = s := by
  have hfalse : s.postCommand σ B false = s := by
    have hpoint : s.point ≠ some s.text.point := by
      rw [h.point]
      exact (Option.some_ne_none _).symm
    rw [postCommand_false, if_neg hpoint, perform_of_nil h.candidates,
      chooseBackend_of_eq h.backend]
  cases quit with
  | false => exact hfalse
  | true => rw [postCommand_true, if_pos h.candidates, hfalse]

theorem Active.postCommand (h : s.Active) :
    Moves σ B A s (s.postCommand σ B false) ∧ (s.postCommand σ B false).Settled := by
  rw [postCommand_false]
  split_ifs with hpoint
  · exact ⟨Relation.ReflTransGen.refl, Or.inr ⟨h, hpoint⟩⟩
  · obtain ⟨hmove, hsettled⟩ :=
      h.perform (σ := σ) (B := B) (A := A) σ.minimumPrefixLength
    refine ⟨Relation.ReflTransGen.single hmove, ?_⟩
    exact (hmove.idle_or_active (Or.inr h)).imp_right fun hactive =>
      ⟨hactive, hsettled hactive.candidates⟩

/-- What `company-post-command` does is made of moves, and settles the state. -/
theorem postCommand_spec (hs : s.Idle ∨ s.Active) (quit : Bool) :
    Moves σ B A s (s.postCommand σ B quit) ∧ (s.postCommand σ B quit).Settled := by
  rcases hs with h | h
  · rw [h.postCommand]
    exact ⟨Relation.ReflTransGen.refl, Or.inl h⟩
  · cases quit with
    | false => exact h.postCommand
    | true =>
        rw [postCommand_true, if_neg h.candidates, (idle_cancel s).postCommand]
        exact ⟨moves_cancel, Or.inl (idle_cancel s)⟩

variable [DecidableEq ε]

theorem moves_act {a : Action ε} (hs : s.Settled) (ha : A s a) :
    Moves σ B A s (s.act σ B a) := by
  cases a with
  | other text completable companyBackends continues quit =>
      rw [act]
      split_ifs with hcancel
      · exact moves_cancel.tail (Move.edited quit fun h =>
          absurd (idle_cancel s).candidates h.candidates)
      · refine Relation.ReflTransGen.single (Move.edited quit fun h => ?_)
        have hcontinues : continues = true := by
          by_contra hcontinues
          exact hcancel ⟨h.candidates, by simpa using hcontinues⟩
        rw [hcontinues] at ha
        exact ⟨ha, hs.point_eq h⟩
  | idleBegin =>
      rcases hs with h | ⟨h, -⟩
      · exact h.autoBegin _
      · rw [act, autoBegin, if_neg h.candidates]
  | manualBegin => exact hs.manualBegin.1
  | abort => exact moves_cancel
  | beginBackend b => exact moves_beginBackend hs.idle_or_active fun _ => ha
  | otherBackend backward => exact moves_otherBackend backward
  | selectNext arg => exact moves_selectNext hs arg
  | selectNextOrAbort arg => exact moves_selectNextOrAbort hs arg
  | nextPage => exact moves_nextPage hs
  | previousPage => exact moves_previousPage hs
  | completeSelection => exact moves_completeSelection hs
  | completeCommon => exact moves_completeCommon hs
  | complete again => exact moves_complete hs again
  | completeNumber n offset => exact moves_completeNumber hs n offset
  | searchCandidates => exact moves_searchModeOn hs
  | filterCandidates => exact moves_filterCandidates hs
  | searchPrintingChar c => exact moves_searchPrintingChar hs.idle_or_active c
  | searchDeleteChar => exact moves_searchDeleteChar hs.idle_or_active
  | searchRepeatForward => exact moves_searchRepeatForward hs.idle_or_active
  | searchRepeatBackward => exact moves_searchRepeatBackward hs.idle_or_active
  | searchToggleFiltering => exact moves_searchToggleFiltering hs.idle_or_active
  | searchAbort => exact moves_searchAbort hs.idle_or_active
  | searchOtherChar => exact moves_searchOtherChar hs.idle_or_active

/-- **A step is made of moves.** -/
theorem step_spec {a : Action ε} (hs : s.Settled) (ha : A s a) :
    Moves σ B A s (s.step σ B a) ∧ (s.step σ B a).Settled := by
  have hact : Moves σ B A s (s.act σ B a) := moves_act hs ha
  obtain ⟨hpost, hsettled⟩ := postCommand_spec (σ := σ) (B := B) (A := A)
    (hact.idle_or_active hs.idle_or_active) _
  exact ⟨hact.trans hpost, hsettled⟩

theorem Reachable.settled (h : Reachable σ B A s) : s.Settled := by
  induction h with
  | initial text companyBackends => exact Or.inl (idle_initial text companyBackends)
  | step h ha ih => exact (step_spec ih ha).2

/-- **The invariant.** After every sequence of commands, whatever the backends reply, the buffer is
idle (see `Idle` for the variables that are reset), or a completion is going on with the selection
at one of its candidates and `company-point` at point. -/
theorem settled_run (text : BufferText) (companyBackends : List ε) (actions : List (Action ε)) :
    (actions.foldl (step σ B) (initial text companyBackends)).Settled := by
  have hreachable : Reachable σ B (fun _ _ => True)
      (actions.foldl (step σ B) (initial text companyBackends)) := by
    induction actions using List.reverseRecOn with
    | nil => exact Reachable.initial _ _
    | append_singleton actions a ih =>
        rw [List.foldl_concat]
        exact ih.step trivial
  exact hreachable.settled

/-- What holds at first and is kept by every move from a state that is idle or active holds after
every sequence of allowed actions. -/
theorem Reachable.induct {p : Completion ε → Prop} (h : Reachable σ B A s)
    (hinitial : ∀ text companyBackends, p (Completion.initial text companyBackends))
    (hmove : ∀ s s', s.Idle ∨ s.Active → Move σ B A s s' → p s → p s') : p s := by
  induction h with
  | initial text companyBackends => exact hinitial text companyBackends
  | step h ha ih =>
      have hs := Reachable.settled h
      exact (step_spec hs ha).1.induct hs.idle_or_active ih hmove

end Completion

end DotEmacs.Company
