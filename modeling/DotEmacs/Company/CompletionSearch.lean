import DotEmacs.Company.CompletionCandidates

/-!
# Searching the candidates

While candidates are searched, each character that is typed is added to the search string if a
candidate matches the longer one, from the selected candidate on. Typing a search string finds what
looking for all of it at once finds. Going on to the next match and back to the one before leads
back to where it began. Aborting the search does not: the selection before the search has been
forgotten when it is looked up.

## Main definitions

* `Company.Settings.SearchMonotone`: what matches a search string matches a beginning of it.
* `Company.Completion.Fits`, `Company.Completion.Passes`: a candidate is found, or passed over.
* `Company.Completion.typed`: characters of a search string typed one after the other.

## Main results

* `Company.Completion.typed_eq_found_iff`: when a search string is found, and where.
* `Company.Completion.typed_configuredSettings`: the same for the flexible regexp.
* `Company.Completion.repeat_back`: the next match and back, or the match before and back.
* `Company.Completion.step_searchAbort`: all candidates, and the first selected, after aborting.
-/

namespace DotEmacs.Company

variable {ε : Type} {σ : Settings} {B : Backends ε}

/-- What matches a search string matches a beginning of it. -/
def Settings.SearchMonotone (σ : Settings) : Prop :=
  ∀ u v text, σ.searchMatches (u ++ v) text = true → σ.searchMatches u text = true

/-- What is shown without a filter is something, if what is shown with it is. -/
theorem Settings.KeepsSome.ne_nil (hσ : σ.KeepsSome) {predicate : Option (Candidate → Bool)}
    {l : List Candidate} (h : postprocessCandidates σ.transformers predicate l ≠ []) :
    postprocessCandidates σ.transformers none l ≠ [] := by
  intro hnil
  obtain rfl := hσ.eq_nil hnil
  cases predicate with
  | none => exact h hnil
  | some p => exact h hnil

namespace Completion

variable {s : Completion ε} {A : Completion ε → Action ε → Prop}
variable {text u v : List Char} {n i pos : ℕ} {lines : List Candidate}

/-! ### The first candidate that matches -/

/-- A candidate matches a search string behind a prefix of a given length. -/
def Fits (σ : Settings) (text : List Char) (n : ℕ) (line : Candidate) : Prop :=
  n ≤ line.text.length ∧ σ.searchMatches text (line.text.drop n) = true

/-- A candidate does not match, and is passed over. -/
def Passes (σ : Settings) (text : List Char) (n : ℕ) (line : Candidate) : Prop :=
  n ≤ line.text.length ∧ σ.searchMatches text (line.text.drop n) = false

theorem search_of_fits {line : Candidate} (h : Fits σ text n line) :
    search σ text n (line :: lines) = some 0 := by
  rw [search, if_neg (not_lt.mpr h.1), if_pos h.2]

theorem search_of_passes {line : Candidate} (h : Passes σ text n line) :
    search σ text n (line :: lines) = (search σ text n lines).map (· + 1) := by
  rw [search, if_neg (not_lt.mpr h.1), h.2, if_neg Bool.false_ne_true]

theorem fits_or_passes (σ : Settings) (text : List Char) {line : Candidate}
    (h : n ≤ line.text.length) :
    Fits σ text n line ∨ Passes σ text n line :=
  (Bool.eq_false_or_eq_true _).imp (fun hm => ⟨h, hm⟩) fun hm => ⟨h, hm⟩

theorem search_append_of_passes {earlier : List Candidate}
    (h : ∀ line ∈ earlier, Passes σ text n line) :
    search σ text n (earlier ++ lines) =
      (search σ text n lines).map (· + earlier.length) := by
  induction earlier with
  | nil => simp
  | cons line earlier ih =>
      have hline := h line List.mem_cons_self
      rw [List.cons_append, search_of_passes hline,
        ih fun l hl => h l (List.mem_cons_of_mem _ hl), Option.map_map]
      rfl

theorem search_eq_some_iff : search σ text n lines = some i ↔
    ∃ earlier line later, lines = earlier ++ line :: later ∧ earlier.length = i ∧
      (∀ l ∈ earlier, Passes σ text n l) ∧ Fits σ text n line := by
  constructor
  · intro h
    induction lines generalizing i with
    | nil => exact absurd h (Option.some_ne_none i).symm
    | cons line lines ih =>
        have hlength : n ≤ line.text.length := by
          by_contra hshort
          rw [search, if_pos (not_le.mp hshort)] at h
          exact Option.some_ne_none i h.symm
        rcases fits_or_passes σ text hlength with hfits | hpasses
        · rw [search_of_fits hfits, Option.some.injEq] at h
          exact ⟨[], line, lines, rfl, h, fun _ hl => absurd hl List.not_mem_nil, hfits⟩
        · rw [search_of_passes hpasses, Option.map_eq_some_iff] at h
          obtain ⟨j, hj, rfl⟩ := h
          obtain ⟨earlier, line', later, rfl, rfl, hearlier, hfits⟩ := ih hj
          exact ⟨line :: earlier, line', later, rfl, rfl,
            List.forall_mem_cons.mpr ⟨hpasses, hearlier⟩, hfits⟩
  · rintro ⟨earlier, line, later, rfl, rfl, hearlier, hfits⟩
    rw [search_append_of_passes hearlier, search_of_fits hfits, Option.map_some, Nat.zero_add]

theorem lt_length_of_search (h : search σ text n lines = some i) : i < lines.length := by
  obtain ⟨earlier, line, later, rfl, rfl, -, -⟩ := search_eq_some_iff.mp h
  simp

/-- What does not match a beginning of a search string does not match all of it. -/
theorem Passes.append (hσ : σ.SearchMonotone) {line : Candidate} (h : Passes σ u n line) :
    Passes σ (u ++ v) n line := by
  refine ⟨h.1, Bool.eq_false_iff.mpr fun hmatch => ?_⟩
  exact Bool.false_ne_true (h.2.symm.trans (hσ u v _ hmatch))

/-- Looking for a longer search string can begin where a shorter one is found. -/
theorem search_append (hσ : σ.SearchMonotone) (u v : List Char) (n : ℕ) (lines : List Candidate) :
    search σ (u ++ v) n lines =
      (search σ u n lines).bind fun i =>
        (search σ (u ++ v) n (lines.drop i)).map (· + i) := by
  induction lines with
  | nil => rfl
  | cons line lines ih =>
      by_cases hlength : n ≤ line.text.length
      · rcases fits_or_passes σ u hlength with hfits | hpasses
        · rw [search_of_fits hfits, Option.bind_some, List.drop_zero]
          exact Option.map_id'.symm
        · rw [search_of_passes (hpasses.append hσ), search_of_passes hpasses, ih,
            Option.map_bind, Option.bind_map]
          refine Option.bind_congr fun i _ => ?_
          rw [Function.comp_apply, Function.comp_apply, Option.map_map, List.drop_succ_cons]
          rfl
      · rw [search, search, if_pos (not_le.mp hlength), if_pos (not_le.mp hlength)]
        rfl

/-! ### Typing a search string -/

/-- Candidates are searched, without being filtered. -/
structure Searching (s : Completion ε) : Prop where
  active : s.Active
  point : s.point = some s.text.point
  searchMode : s.searchMode = true
  searchFiltering : s.searchFiltering = false

/-- A search string has been found at a place. -/
def found (s : Completion ε) (string : List Char) (place : ℕ) : Completion ε :=
  { s with searchString := string, selection := place, selectionChanged := true }

theorem placeOf_of_lt {length place : ℕ} (h : place < length) (wrapAround : Bool) :
    placeOf wrapAround length place = place := by
  rw [placeOf]
  split_ifs
  · exact Int.emod_eq_of_lt (Int.natCast_nonneg place) (Int.ofNat_lt.mpr h)
  · omega

theorem Active.setSelection_of_lt (h : s.Active) {place : ℕ} (hplace : place < s.candidates.length)
    (wrapAround : Bool) :
    s.setSelection wrapAround place true =
      { s with selection := place, selectionChanged := true } := by
  rw [Completion.setSelection, h.getD_candidatesLength, placeOf_of_lt hplace, if_pos (Or.inl rfl),
    Int.toNat_natCast]

theorem postCommand_of_point (h : s.point = some s.text.point) :
    s.postCommand σ B false = s := by
  rw [postCommand_false, if_pos h]

/-- The place that a search finds from the selection on is that of a candidate. -/
theorem add_lt_length_of_search
    (h : search σ text n (s.candidates.drop s.selection) = some pos) :
    s.selection + pos < s.candidates.length := by
  have hlt := lt_length_of_search h
  rw [List.length_drop] at hlt
  omega

theorem Active.searchUpdateString_eq (h : s.Active) (new : List Char) :
    s.searchUpdateString σ new =
      (search σ new (s.prefixText.getD []).length (s.candidates.drop s.selection)).elim s
        fun pos => s.found new (s.selection + pos) := by
  rw [searchUpdateString]
  cases hsearch : search σ new (s.prefixText.getD []).length (s.candidates.drop s.selection) with
  | none => rfl
  | some pos =>
      have hnew : ({ s with searchString := new }).Active := { h with }
      exact hnew.setSelection_of_lt (add_lt_length_of_search hsearch) σ.selectionWrapAround

theorem Searching.found (h : s.Searching) (string : List Char) {place : ℕ}
    (hplace : place < s.candidates.length) : (s.found string place).Searching :=
  ⟨{ h.active with selection := hplace }, h.point, h.searchMode, h.searchFiltering⟩

variable [DecidableEq ε]

/-- Characters of a search string, typed one after the other. -/
def typed (σ : Settings) (B : Backends ε) (s : Completion ε) (ss : List Char) : Completion ε :=
  ss.foldl (fun s c => s.step σ B (.searchPrintingChar c)) s

/-- One character is added to the search string, if a candidate matches then. -/
theorem Searching.step_searchPrintingChar (h : s.Searching) (c : Char) :
    s.step σ B (.searchPrintingChar c) =
      (search σ (s.searchString ++ [c]) (s.prefixText.getD []).length
        (s.candidates.drop s.selection)).elim s
          fun pos => s.found (s.searchString ++ [c]) (s.selection + pos) := by
  have hact : s.act σ B (.searchPrintingChar c) =
      s.searchUpdateString σ (s.searchString ++ [c]) := by
    rw [act, searchPrintingChar, if_pos h.searchMode, searchUpdate, h.searchFiltering]
    exact if_neg Bool.false_ne_true
  change (s.act σ B (.searchPrintingChar c)).postCommand σ B false = _
  rw [hact, h.active.searchUpdateString_eq]
  cases search σ (s.searchString ++ [c]) (s.prefixText.getD []).length
      (s.candidates.drop s.selection) with
  | none => exact postCommand_of_point h.point
  | some pos => exact postCommand_of_point h.point

/-- Characters are only added to the search string. -/
theorem Searching.length_searchString_typed_le (h : s.Searching) (ss : List Char) :
    (typed σ B s ss).searchString.length ≤ s.searchString.length + ss.length := by
  induction ss generalizing s with
  | nil => exact le_rfl
  | cons c ss ih =>
      rw [typed, List.foldl_cons, h.step_searchPrintingChar, List.length_cons]
      cases hsearch : search σ (s.searchString ++ [c]) (s.prefixText.getD []).length
          (s.candidates.drop s.selection) with
      | none => exact (ih h).trans (by omega)
      | some pos =>
          refine (ih (h.found _ (add_lt_length_of_search hsearch))).trans (le_of_eq ?_)
          rw [Completion.found, List.length_append, List.length_singleton]
          omega

/-- What is found at once is found when it is typed. -/
theorem Searching.typed_of_search (hσ : σ.SearchMonotone) (h : s.Searching) {ss : List Char}
    (hss : ss ≠ [])
    (hsearch : search σ (s.searchString ++ ss) (s.prefixText.getD []).length
      (s.candidates.drop s.selection) = some pos) :
    typed σ B s ss = s.found (s.searchString ++ ss) (s.selection + pos) := by
  induction ss generalizing s pos with
  | nil => exact absurd rfl hss
  | cons c ss ih =>
      rw [typed, List.foldl_cons, h.step_searchPrintingChar]
      rcases eq_or_ne ss [] with rfl | hne
      · rw [hsearch]
        rfl
      · rw [List.append_cons, search_append hσ, Option.bind_eq_some_iff] at hsearch
        obtain ⟨i, hi, hrest⟩ := hsearch
        obtain ⟨j, hj, rfl⟩ := Option.map_eq_some_iff.mp hrest
        rw [List.drop_drop] at hj
        rw [hi, Option.elim_some, List.append_cons s.searchString c ss, Nat.add_comm j,
          ← Nat.add_assoc]
        exact ih (h.found _ (add_lt_length_of_search hi)) hne hj

/-- What is not found at once is not found when it is typed: not all characters are taken. -/
theorem Searching.length_searchString_typed_lt (hσ : σ.SearchMonotone) (h : s.Searching)
    {ss : List Char} (hss : ss ≠ [])
    (hsearch : search σ (s.searchString ++ ss) (s.prefixText.getD []).length
      (s.candidates.drop s.selection) = none) :
    (typed σ B s ss).searchString.length < s.searchString.length + ss.length := by
  induction ss generalizing s with
  | nil => exact absurd rfl hss
  | cons c ss ih =>
      rw [typed, List.foldl_cons, h.step_searchPrintingChar, List.length_cons]
      cases hi : search σ (s.searchString ++ [c]) (s.prefixText.getD []).length
          (s.candidates.drop s.selection) with
      | none => exact (h.length_searchString_typed_le ss).trans_lt (by omega)
      | some i =>
          rw [List.append_cons, search_append hσ, hi, Option.bind_some, Option.map_eq_none_iff,
            List.drop_drop] at hsearch
          have hne : ss ≠ [] := by
            rintro rfl
            obtain ⟨earlier, line, later, hlines, rfl, -, hfits⟩ := search_eq_some_iff.mp hi
            rw [← List.drop_drop, hlines, List.drop_left, List.append_nil,
              search_of_fits hfits] at hsearch
            exact Option.some_ne_none 0 hsearch
          refine (ih (h.found _ (add_lt_length_of_search hi)) hne hsearch).trans_eq ?_
          rw [Completion.found, List.length_append, List.length_singleton]
          omega

/-- **Typing a search string** character by character finds it where looking for all of it at once
finds it, and finds it only then. -/
theorem Searching.typed_eq_found_iff (hσ : σ.SearchMonotone) (h : s.Searching) {ss : List Char}
    (hss : ss ≠ []) (pos : ℕ) :
    typed σ B s ss = s.found (s.searchString ++ ss) (s.selection + pos) ↔
      search σ (s.searchString ++ ss) (s.prefixText.getD []).length
        (s.candidates.drop s.selection) = some pos := by
  constructor
  · intro htyped
    cases hsearch : search σ (s.searchString ++ ss) (s.prefixText.getD []).length
        (s.candidates.drop s.selection) with
    | none =>
        have hlt := h.length_searchString_typed_lt (B := B) hσ hss hsearch
        rw [htyped, Completion.found, List.length_append] at hlt
        exact absurd hlt (lt_irrefl _)
    | some i =>
        rw [h.typed_of_search hσ hss hsearch] at htyped
        have hselection := congrArg Completion.selection htyped
        rw [Nat.add_left_cancel hselection]
  · exact h.typed_of_search hσ hss

theorem searchMonotone_configuredSettings (upcase : Char → Char) :
    (configuredSettings upcase).SearchMonotone := by
  intro u v text h
  refine (stringMatch_searchFlexRegexp_iff u text).mpr ?_
  refine List.Sublist.trans ?_ ((stringMatch_searchFlexRegexp_iff (u ++ v) text).mp h)
  rw [List.map_append]
  exact List.sublist_append_left _ _

/-- The characters of a text come in a candidate in this order, behind a prefix of a given
length. -/
def HasInOrder (upcase : Char → Char) (text : List Char) (n : ℕ) (line : Candidate) : Prop :=
  (text.map upcase).Sublist ((line.text.drop n).map upcase)

instance decidableHasInOrder (upcase : Char → Char) (text : List Char) (n : ℕ)
    (line : Candidate) : Decidable (HasInOrder upcase text n line) :=
  inferInstanceAs (Decidable (List.Sublist _ _))

theorem Reachable.searching (h : Reachable σ B A s) (hmode : s.searchMode = true)
    (hfiltering : s.searchFiltering = false) : s.Searching := by
  rcases Reachable.settled h with hidle | ⟨hactive, hpoint⟩
  · exact absurd (hidle.searchMode.symm.trans hmode) Bool.false_ne_true
  · exact ⟨hactive, hpoint, hmode, hfiltering⟩

/-- **Typing a search string as it is configured.** In every state that commands lead to, typing
characters while candidates are searched adds them all to the search string, and selects the first
candidate from the selected one on that has the characters of the search string behind the prefix
in this order; if there is none, or a candidate before is shorter than the prefix, some characters
are not taken. -/
theorem typed_configuredSettings {upcase : Char → Char}
    (h : Reachable (configuredSettings upcase) B A s) (hmode : s.searchMode = true)
    (hfiltering : s.searchFiltering = false) {ss : List Char} (hss : ss ≠ []) (pos : ℕ) :
    typed (configuredSettings upcase) B s ss =
        s.found (s.searchString ++ ss) (s.selection + pos) ↔
      ∃ passed line rest, s.candidates.drop s.selection = passed ++ line :: rest ∧
        passed.length = pos ∧
        (∀ l ∈ passed, (s.prefixText.getD []).length ≤ l.text.length ∧
          ¬ HasInOrder upcase (s.searchString ++ ss) (s.prefixText.getD []).length l) ∧
        (s.prefixText.getD []).length ≤ line.text.length ∧
        HasInOrder upcase (s.searchString ++ ss) (s.prefixText.getD []).length line := by
  rw [(Reachable.searching h hmode hfiltering).typed_eq_found_iff
    (searchMonotone_configuredSettings upcase) hss, search_eq_some_iff]
  have hmatches (line : Candidate) :
      (configuredSettings upcase).searchMatches (s.searchString ++ ss)
        (line.text.drop (s.prefixText.getD []).length) = true ↔
      HasInOrder upcase (s.searchString ++ ss) (s.prefixText.getD []).length line :=
    stringMatch_searchFlexRegexp_iff _ _
  simp only [Fits, Passes, ← hmatches, Bool.not_eq_true]

theorem typed_configuredSettings_session :
    typed (configuredSettings id) wordBackends (session ['b'] [.manualBegin, .searchCandidates])
        ['b'] =
      (session ['b'] [.manualBegin, .searchCandidates]).found ['b'] 1 :=
  (typed_configuredSettings (A := fun _ _ => True)
    (reachable_session _ _ (by simp)) (by decide) (by decide)
    (List.cons_ne_nil 'b' []) 1).mpr
      ⟨[word ['b', 'a']], word ['b', 'b'], [], by decide, rfl, by decide, by decide, by decide⟩

/-! ### To the next match and back -/

section

omit [DecidableEq ε]

/-- A candidate has been selected. -/
def selectAt (s : Completion ε) (place : ℕ) : Completion ε :=
  { s with selection := place, selectionChanged := true }

theorem Active.searchRepeatForward_eq (h : s.Active) (hmode : s.searchMode = true)
    (hstring : s.searchString ≠ []) :
    s.searchRepeatForward σ =
      (search σ s.searchString (s.prefixText.getD []).length
        (s.candidates.drop (s.selection + 1))).elim s fun pos =>
          s.selectAt (s.selection + pos + 1) := by
  rw [searchRepeatForward, if_pos ⟨hmode, hstring⟩]
  cases hsearch : search σ s.searchString (s.prefixText.getD []).length
      (s.candidates.drop (s.selection + 1)) with
  | none => rfl
  | some pos =>
      have hlt := lt_length_of_search hsearch
      rw [List.length_drop] at hlt
      have hplace : s.selection + pos + 1 < s.candidates.length := by omega
      exact h.setSelection_of_lt hplace σ.selectionWrapAround

theorem Active.searchRepeatBackward_eq (h : s.Active) (hmode : s.searchMode = true)
    (hstring : s.searchString ≠ []) :
    s.searchRepeatBackward σ =
      (search σ s.searchString (s.prefixText.getD []).length
        (s.candidates.take s.selection).reverse).elim s fun pos =>
          s.selectAt (s.selection - pos - 1) := by
  have hselection := h.selection
  have hearlier : s.candidates.reverse.drop (s.candidatesLength.getD 0 - s.selection) =
      (s.candidates.take s.selection).reverse := by
    rw [h.getD_candidatesLength, List.drop_reverse, Nat.sub_sub_self hselection.le]
  rw [searchRepeatBackward, if_pos ⟨hmode, hstring⟩, hearlier]
  cases hsearch : search σ s.searchString (s.prefixText.getD []).length
      (s.candidates.take s.selection).reverse with
  | none => rfl
  | some pos =>
      have hlt := lt_length_of_search hsearch
      rw [List.length_reverse, List.length_take] at hlt
      have hplace : s.selection - pos - 1 < s.candidates.length := by omega
      have hcast : (s.selection : ℤ) - pos - 1 = (s.selection - pos - 1 : ℕ) := by omega
      change s.setSelection σ.selectionWrapAround (s.selection - pos - 1 : ℤ) true = _
      rw [hcast]
      exact h.setSelection_of_lt hplace σ.selectionWrapAround

/-- Going on selects the next match. -/
theorem Active.searchRepeatForward_of_eq (h : s.Active) (hmode : s.searchMode = true)
    (hstring : s.searchString ≠ []) {earlier passed rest : List Candidate} {line line' : Candidate}
    (heq : s.candidates = earlier ++ line :: (passed ++ line' :: rest))
    (hselection : s.selection = earlier.length)
    (hpassed : ∀ l ∈ passed, Passes σ s.searchString (s.prefixText.getD []).length l)
    (hfits : Fits σ s.searchString (s.prefixText.getD []).length line') :
    s.searchRepeatForward σ = s.selectAt (s.selection + passed.length + 1) := by
  have hdrop : s.candidates.drop (s.selection + 1) = passed ++ line' :: rest := by
    rw [heq, hselection, List.drop_append]
    simp
  rw [h.searchRepeatForward_eq hmode hstring, hdrop, search_append_of_passes hpassed,
    search_of_fits hfits, Option.map_some, Option.elim_some, Nat.zero_add]

/-- Going back selects the match before. -/
theorem Active.searchRepeatBackward_of_eq (h : s.Active) (hmode : s.searchMode = true)
    (hstring : s.searchString ≠ []) {earlier passed rest : List Candidate} {line line' : Candidate}
    (heq : s.candidates = earlier ++ line :: (passed ++ line' :: rest))
    (hselection : s.selection = earlier.length + passed.length + 1)
    (hpassed : ∀ l ∈ passed, Passes σ s.searchString (s.prefixText.getD []).length l)
    (hfits : Fits σ s.searchString (s.prefixText.getD []).length line) :
    s.searchRepeatBackward σ = s.selectAt earlier.length := by
  have htake : (s.candidates.take s.selection).reverse =
      passed.reverse ++ line :: earlier.reverse := by
    have hlength : s.selection = (earlier ++ line :: passed).length := by
      rw [hselection, List.length_append, List.length_cons, Nat.add_assoc]
    rw [heq, ← List.cons_append, ← List.append_assoc, hlength, List.take_left,
      List.reverse_append, List.reverse_cons, List.append_assoc, List.singleton_append]
  have hpassed' : ∀ l ∈ passed.reverse,
      Passes σ s.searchString (s.prefixText.getD []).length l := fun l hl =>
    hpassed l (List.mem_reverse.mp hl)
  rw [h.searchRepeatBackward_eq hmode hstring, htake, search_append_of_passes hpassed',
    search_of_fits hfits, Option.map_some, Option.elim_some, Nat.zero_add, List.length_reverse,
    hselection]
  congr 1
  omega

/-- The candidates before the selected one, that one, and those behind. -/
theorem Active.exists_split (h : s.Active) : ∃ earlier line rest,
    s.candidates = earlier ++ line :: rest ∧ s.selection = earlier.length := by
  have hselection := h.selection
  refine ⟨s.candidates.take s.selection, s.candidates[s.selection],
    s.candidates.drop (s.selection + 1), ?_, ?_⟩
  · rw [← List.drop_eq_getElem_cons hselection, List.take_append_drop]
  · rw [List.length_take, min_eq_left hselection.le]

theorem Active.selectAt (h : s.Active) {place : ℕ} (hplace : place < s.candidates.length) :
    (s.selectAt place).Active :=
  { h with selection := hplace }

end

theorem Active.step_searchRepeatForward (h : s.Active) (hpoint : s.point = some s.text.point)
    (hmode : s.searchMode = true) (hstring : s.searchString ≠ []) :
    s.step σ B .searchRepeatForward = s.searchRepeatForward σ := by
  change (s.searchRepeatForward σ).postCommand σ B false = _
  rw [h.searchRepeatForward_eq hmode hstring]
  cases search σ s.searchString (s.prefixText.getD []).length
      (s.candidates.drop (s.selection + 1)) with
  | none => exact postCommand_of_point hpoint
  | some pos => exact postCommand_of_point hpoint

theorem Active.step_searchRepeatBackward (h : s.Active) (hpoint : s.point = some s.text.point)
    (hmode : s.searchMode = true) (hstring : s.searchString ≠ []) :
    s.step σ B .searchRepeatBackward = s.searchRepeatBackward σ := by
  change (s.searchRepeatBackward σ).postCommand σ B false = _
  rw [h.searchRepeatBackward_eq hmode hstring]
  cases search σ s.searchString (s.prefixText.getD []).length
      (s.candidates.take s.selection).reverse with
  | none => exact postCommand_of_point hpoint
  | some pos => exact postCommand_of_point hpoint

/-- **To the next match and back.** In every state that commands lead to in which a search string
matches the selected candidate, going on to another match and back to the one before, or back and
on again, leads to the same selection, and changes nothing but that the selection counts as
changed. -/
theorem repeat_back (h : Reachable σ B A s) (hmode : s.searchMode = true)
    (hstring : s.searchString ≠ [])
    (hfits : ∀ line, s.candidates[s.selection]? = some line →
      Fits σ s.searchString (s.prefixText.getD []).length line) :
    ((s.step σ B .searchRepeatForward).selection ≠ s.selection →
      (s.step σ B .searchRepeatForward).step σ B .searchRepeatBackward =
        { s with selectionChanged := true }) ∧
    ((s.step σ B .searchRepeatBackward).selection ≠ s.selection →
      (s.step σ B .searchRepeatBackward).step σ B .searchRepeatForward =
        { s with selectionChanged := true }) := by
  obtain hidle | ⟨hactive, hpoint⟩ := Reachable.settled h
  · exact absurd (hidle.searchMode.symm.trans hmode) Bool.false_ne_true
  obtain ⟨earlier, line, rest, heq, hselection⟩ := hactive.exists_split
  have hline : Fits σ s.searchString (s.prefixText.getD []).length line := by
    refine hfits line ?_
    rw [heq, hselection, List.getElem?_append_right le_rfl, Nat.sub_self, List.getElem?_cons_zero]
  rw [hactive.step_searchRepeatForward hpoint hmode hstring,
    hactive.step_searchRepeatBackward hpoint hmode hstring]
  constructor
  · intro hne
    cases hsearch : search σ s.searchString (s.prefixText.getD []).length
        (s.candidates.drop (s.selection + 1)) with
    | none =>
        rw [hactive.searchRepeatForward_eq hmode hstring, hsearch] at hne
        exact absurd rfl hne
    | some pos =>
        have hdrop : s.candidates.drop (s.selection + 1) = rest := by
          rw [heq, hselection, List.drop_append]
          simp
        rw [hdrop] at hsearch
        obtain ⟨passed, line', rest', rfl, -, hpassed, hline'⟩ := search_eq_some_iff.mp hsearch
        have hplace : s.selection + passed.length + 1 < s.candidates.length := by
          simp only [heq, hselection, List.length_append, List.length_cons]
          omega
        have hnext := hactive.selectAt hplace
        rw [hactive.searchRepeatForward_of_eq hmode hstring heq hselection hpassed hline',
          hnext.step_searchRepeatBackward hpoint hmode hstring,
          hnext.searchRepeatBackward_of_eq hmode hstring heq (by rw [← hselection]; rfl) hpassed
            hline, ← hselection]
        rfl
  · intro hne
    cases hsearch : search σ s.searchString (s.prefixText.getD []).length
        (s.candidates.take s.selection).reverse with
    | none =>
        rw [hactive.searchRepeatBackward_eq hmode hstring, hsearch] at hne
        exact absurd rfl hne
    | some pos =>
        have htake : s.candidates.take s.selection = earlier := by
          rw [heq, hselection, List.take_left]
        rw [htake] at hsearch
        obtain ⟨passed, line', before, hreverse, -, hpassed, hline'⟩ :=
          search_eq_some_iff.mp hsearch
        have hearlier : earlier = before.reverse ++ line' :: passed.reverse := by
          rw [← List.reverse_reverse earlier, hreverse, List.reverse_append, List.reverse_cons,
            List.append_assoc, List.singleton_append]
        have hpassed' : ∀ l ∈ passed.reverse,
            Passes σ s.searchString (s.prefixText.getD []).length l := fun l hl =>
          hpassed l (List.mem_reverse.mp hl)
        rw [hearlier, List.append_assoc, List.cons_append] at heq
        have hlength : s.selection = before.reverse.length + passed.reverse.length + 1 := by
          rw [hselection, hearlier, List.length_append, List.length_cons, Nat.add_assoc]
        have hplace : before.reverse.length < s.candidates.length := by
          simp only [heq, List.length_append, List.length_cons]
          omega
        have hprevious := hactive.selectAt hplace
        rw [hactive.searchRepeatBackward_of_eq hmode hstring heq hlength hpassed' hline',
          hprevious.step_searchRepeatForward hpoint hmode hstring,
          hprevious.searchRepeatForward_of_eq hmode hstring heq rfl hpassed' hline]
        change s.selectAt (before.reverse.length + passed.reverse.length + 1) = _
        rw [← hlength]
        rfl

theorem repeat_back_session :
    ((session [] [.manualBegin, .searchCandidates, .searchPrintingChar 'b']).step
        (configuredSettings id) wordBackends .searchRepeatForward).step
        (configuredSettings id) wordBackends .searchRepeatBackward =
      { session [] [.manualBegin, .searchCandidates, .searchPrintingChar 'b'] with
        selectionChanged := true } :=
  (repeat_back (A := fun _ _ => True) (reachable_session _ _ (by simp)) (by decide) (by decide)
    (by
      intro line hline
      obtain rfl : word ['b', 'a'] = line := Option.some.inj hline
      exact ⟨by decide, by decide⟩)).1 (by decide)

/-! ### Aborting a search -/

variable {r : ε → Replies}

omit [DecidableEq ε] in
theorem searchUpdatePredicate_nil {c : List Candidate} {cache : Cache}
    (h : s.calculate σ B none (s.prefixText.getD []) (s.ignoresCase B) = (c, s.setCache cache))
    (hc : c ≠ []) :
    s.searchUpdatePredicate σ B [] = ((s.setCache cache).updateCandidates σ B c, true) := by
  rw [searchUpdatePredicate, if_neg (fun hand => hand.1 rfl), h]
  exact if_neg hc

/-- The search is forgotten, with the selection before it. -/
def forgetSearch (s : Completion ε) : Completion ε :=
  { s with
    searchMode := false
    searchString := []
    searchFiltering := false
    searchOldSelection := 0
    searchOldChanged := false }

/-- **Aborting a search** shows all candidates for the prefix again, wherever the search has led,
with the first one selected: what was selected before the search is not selected again. Transformers
are never to leave nothing of something (`Settings.KeepsSome`), backends are to answer the same
wherever they are asked, in time and coherently, with equal texts together
(`Backends.Steady`), and the user is not to begin with a backend while a completion is going on. -/
theorem step_searchAbort (hσ : σ.KeepsSome) (hB : B.Steady σ r)
    (hswitch : ∀ s b, s.Active → ¬ A s (.beginBackend b)) (h : Reachable σ B A s)
    (hmode : s.searchMode = true) :
    ∃ b t c cache, s.backend = some b ∧ s.prefixText = some t ∧
      c = postprocessCandidates σ.transformers none ((r b).asked t) ∧
      s.step σ B .searchAbort =
        { s.forgetSearch with
          candidatesCache := cache
          candidates := c
          candidatesLength := some c.length
          common := commonOf σ t (r b).ignoreCase.toBool c
          selection := 0
          selectionChanged := false } := by
  obtain hidle | ⟨hactive, hpoint⟩ := Reachable.settled h
  · exact absurd (hidle.searchMode.symm.trans hmode) Bool.false_ne_true
  obtain ⟨b, hb⟩ := Option.isSome_iff_exists.mp hactive.backend
  have hfresh := Reachable.fresh hσ hB hswitch h b hb
  obtain ⟨t, filter, ht, heq⟩ := hfresh.candidates
  have hne : postprocessCandidates σ.transformers none ((r b).asked t) ≠ [] :=
    hσ.ne_nil (heq ▸ hactive.candidates)
  have hbackend : s.forgetSearch.backend = some b := hb
  have ht' : s.forgetSearch.prefixText.getD [] = t := congrArg (Option.getD · []) ht
  obtain ⟨c, cache, hcalculate, hcalculates⟩ :=
    calculate_spec (σ := σ) (B := B) s.forgetSearch t (s.forgetSearch.ignoresCase B)
  obtain ⟨rfl, -⟩ := hcalculates.steady hB hbackend hfresh.cache
  have hoff : s.searchModeOff σ B =
      ((s.forgetSearch.setCache cache).updateCandidates σ B _, true) :=
    (if_pos hactive.backend).trans
      (searchUpdatePredicate_nil (ht'.symm ▸ hcalculate) hne)
  refine ⟨b, t, _, cache, hb, ht, rfl, ?_⟩
  have hshown : ((s.forgetSearch.setCache cache).updateCandidates σ B
      (postprocessCandidates σ.transformers none ((r b).asked t))).Active :=
    ⟨hactive.backend, hactive.prefixText, hne, rfl, restoredSelection_lt hne, hactive.point,
      hactive.pointMax⟩
  have hselect := hshown.setSelection_of_lt (List.length_pos_of_ne_nil hne) σ.selectionWrapAround
  have hcommon : ((s.forgetSearch.setCache cache).updateCandidates σ B
      (postprocessCandidates σ.transformers none ((r b).asked t))).common =
      commonOf σ t (r b).ignoreCase.toBool
        (postprocessCandidates σ.transformers none ((r b).asked t)) := by
    rw [← ignoresCase_of_steady hB hbackend, ← ht']
    rfl
  change (s.searchAbort σ B).postCommand σ B false = _
  rw [← hcommon, searchAbort, if_pos hmode, hoff]
  refine Eq.trans (congrArg (fun s : Completion ε =>
    ({ s with selectionChanged := false } : Completion ε).postCommand σ B false) hselect) ?_
  exact postCommand_of_point hpoint

theorem step_searchAbort_session :
    let s := session ['b'] [.manualBegin, .selectNext 1, .searchCandidates]
    ∃ b t c cache, s.backend = some b ∧ s.prefixText = some t ∧
      c = postprocessCandidates [] none ((wordReplies b).asked t) ∧
      s.step (configuredSettings id) wordBackends .searchAbort =
        { s.forgetSearch with
          candidatesCache := cache
          candidates := c
          candidatesLength := some c.length
          common := commonOf (configuredSettings id) t (wordReplies b).ignoreCase.toBool c
          selection := 0
          selectionChanged := false } :=
  step_searchAbort (A := fun s a => s.Active → ∀ b, a ≠ .beginBackend b)
    (fun _ htr => absurd htr List.not_mem_nil) steady_wordBackends (fun _ b hs ha => ha hs b rfl)
    (reachable_session _ _ (by simp)) (by decide)

end Completion

end DotEmacs.Company
