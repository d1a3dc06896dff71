import DotEmacs.Company.CompletionInvariant

/-!
# What a completion does to the text

A completion remembers the prefix, and where point was. As long as point is there, what stands
before point is the prefix, but perhaps for case: the common part of the candidates can have been
inserted with other capitals. To complete is then to replace just that text, whatever commands have
led to the state, if backends give as prefix what stands before point, and if other commands that
leave the completion and point alone leave the text before point alone.

## Main definitions

* `Company.Backends.PrefixBeforePoint`: what backends are asked to give as prefix.
* `Company.Completion.KeepsTextBefore`: what other commands are asked to leave alone.
* `Company.Completion.completed`: what stands in place of the prefix after completing.
* `Company.Completion.UpdatedIn`: the state in which the candidates were updated last.

## Main results

* `Company.Completion.insertCandidate_eq`: inserting a candidate changes the prefix only.
* `Company.Completion.common_of_reachable`: the common part, in any state that commands lead to.
* `Company.Completion.step_completeSelection`: completing, in any state that commands lead to.
-/

namespace DotEmacs.Company

open Elisp

variable {ε : Type} {σ : Settings} {B : Backends ε}

/-- Backends give as prefix what stands before point. -/
def Backends.PrefixBeforePoint (B : Backends ε) : Prop :=
  ∀ b text t, (B.replies b text).prefixReply.str? = some t → t <:+ text.before

namespace Completion

variable {s s' : Completion ε} {A : Completion ε → Action ε → Prop} {rest x t : List Char}

/-- Other commands that leave a completion and point alone leave the text before point alone. -/
def KeepsTextBefore (A : Completion ε → Action ε → Prop) : Prop :=
  ∀ s text completable companyBackends quit,
    A s (.other text completable companyBackends true quit) → text.point = s.text.point →
    text.before = s.text.before

/-! ### The common part -/

theorem commonOf_of_length_le_one (t : List Char) (ignoreCase : Bool) {c : List Candidate}
    (h : c.length ≤ 1) : commonOf σ t ignoreCase c = c.head?.map Candidate.text := by
  match c, h with
  | [], _ => rfl
  | [_], _ => rfl

theorem startsWith_iff (upcase : Char → Char) (ignoreCase : Bool) (t text : List Char) :
    startsWith upcase ignoreCase t text = true ↔ StartsWith (caseKey upcase ignoreCase) t text := by
  cases ignoreCase with
  | true => exact List.isPrefixOf_iff_prefix
  | false =>
      rw [StartsWith, caseKey, if_neg Bool.false_ne_true, List.map_id, List.map_id]
      exact List.isPrefixOf_iff_prefix

theorem map_prefix_of_startsWith {ignoreCase : Bool} {t text : List Char}
    (h : StartsWith (caseKey σ.upcase ignoreCase) t text) :
    t.map σ.upcase <+: text.map σ.upcase := by
  cases ignoreCase with
  | true => exact h
  | false =>
      rw [StartsWith, caseKey, if_neg Bool.false_ne_true, List.map_id, List.map_id] at h
      exact h.map σ.upcase

/-- The common part of several candidates is the longest text that begins all of them, if it
begins with the prefix. -/
theorem commonOf_of_one_lt_length (t : List Char) (ignoreCase : Bool) {c : List Candidate}
    (h : 1 < c.length) : ∃ longest,
      (∀ u, StartsWith (caseKey σ.upcase ignoreCase) u longest ↔
        ∀ d ∈ c, StartsWith (caseKey σ.upcase ignoreCase) u d.text) ∧
      commonOf σ t ignoreCase c =
        if startsWith σ.upcase ignoreCase t longest then some longest else none := by
  match c, h with
  | c :: d :: cs, _ =>
      refine ⟨_, fun u => ?_, commonOf.eq_3 σ t ignoreCase c (d :: cs) (by simp)⟩
      rw [startsWith_tryCompletion_iff, ← List.map_cons, List.forall_mem_map]

/-! ### Inserting a candidate -/

/-- What stands in place of the text `x` before point after completing with a candidate, where the
prefix is `t`. -/
def completed (keepPrefix : Bool) (t x candidate : List Char) : List Char :=
  if candidate = [] then x
  else if keepPrefix then x ++ candidate.drop t.length
  else if t = candidate then x
  else candidate

theorem deleteBefore_length {text : BufferText} (h : text.before = rest ++ x) :
    text.deleteBefore x.length = some { text with before := rest } := by
  rw [BufferText.deleteBefore, h, List.length_append, if_pos (Nat.le_add_left _ _),
    Nat.add_sub_cancel, List.take_left']
  rfl

/-- **Inserting a candidate** replaces what stands in place of the prefix, or signals if the prefix
is kept and the candidate is shorter. -/
theorem insertCandidate_eq (ht : s.prefixText = some t) (hbefore : s.text.before = rest ++ x)
    (hlength : x.length = t.length) (candidate : List Char) :
    s.insertCandidate B candidate =
      if candidate ≠ [] ∧ (s.replies B).ignoreCase = .keepPrefix ∧ candidate.length < t.length then
        none
      else
        some ⟨rest ++ completed ((s.replies B).ignoreCase = .keepPrefix) t x candidate,
          s.text.after⟩ := by
  have hsame : some s.text = some ⟨rest ++ x, s.text.after⟩ := by rw [← hbefore]
  rw [insertCandidate, ht, Option.getD_some]
  by_cases hnil : candidate = []
  · simp only [hnil, List.length_nil, if_true, ne_eq, not_true, false_and, if_false, completed,
      hsame]
  have hpos : candidate.length ≠ 0 := mt List.length_eq_zero_iff.mp hnil
  simp only [hnil, hpos, ne_eq, not_false_eq_true, true_and, if_false, completed]
  by_cases hkeep : (s.replies B).ignoreCase = .keepPrefix
  · simp only [hkeep, true_and, if_true, decide_true]
    by_cases hshort : candidate.length < t.length
    · rw [if_neg (not_le.mpr hshort), if_pos hshort]
    · rw [if_pos (not_lt.mp hshort), if_neg hshort, BufferText.insert, hbefore, List.append_assoc]
  · simp only [hkeep, false_and, if_false, decide_false, Bool.false_eq_true]
    split_ifs
    · exact hsame
    · rw [← hlength, deleteBefore_length hbefore]
      rfl

theorem length_completed_eq {keepPrefix : Bool} {candidate : List Char}
    (h : (completed keepPrefix t x candidate).length = x.length) (hlength : x.length = t.length) :
    completed keepPrefix t x candidate = x ∨ completed keepPrefix t x candidate = candidate ∧
      candidate.length = t.length := by
  rw [completed] at h ⊢
  split_ifs at h ⊢
  · exact Or.inl rfl
  · rw [List.length_append, Nat.add_eq_left, List.length_eq_zero_iff] at h
    exact Or.inl (by rw [h, List.append_nil])
  · exact Or.inl rfl
  · exact Or.inr ⟨rfl, h.trans hlength⟩

/-! ### The prefix stands before point -/

/-- What stands before point is the prefix, but perhaps for case. -/
def PrefixAtPoint (σ : Settings) (s : Completion ε) : Prop :=
  ∃ rest x, s.text.before = rest ++ x ∧ x.map σ.upcase = (s.prefixText.getD []).map σ.upcase

theorem prefixAtPoint_of_suffix (h : s.prefixText.getD [] <:+ s.text.before) :
    s.PrefixAtPoint σ := by
  obtain ⟨rest, hrest⟩ := h
  exact ⟨rest, _, hrest.symm, rfl⟩

/-- A state that a run passes through, perhaps within a command. -/
def Passed (σ : Settings) (B : Backends ε) (A : Completion ε → Action ε → Prop)
    (u : Completion ε) : Prop :=
  ∃ text companyBackends, Moves σ B A (initial text companyBackends) u

/-- The candidates of a state were updated last in `u`, and the completion has gone on from there
with them and with the prefix; with the backend too, unless `company-begin-backend` chose another.
The common part is the one that was computed then, from what the backend said about case. -/
structure UpdatedIn (σ : Settings) (B : Backends ε) (A : Completion ε → Action ε → Prop)
    (s u : Completion ε) : Prop where
  passed : Passed σ B A u
  moves : Moves σ B A u s
  candidates : u.candidates = s.candidates
  prefixText : u.prefixText = s.prefixText
  backend : (∀ s b, s.Active → ¬ A s (.beginBackend b)) → u.backend = s.backend
  common : s.common = commonOf σ (s.prefixText.getD []) (u.ignoresCase B) s.candidates

theorem UpdatedIn.refl (hpassed : Passed σ B A s)
    (h : s.common = commonOf σ (s.prefixText.getD []) (s.ignoresCase B) s.candidates) :
    UpdatedIn σ B A s s :=
  ⟨hpassed, Relation.ReflTransGen.refl, rfl, rfl, fun _ => rfl, h⟩

theorem Idle.updatedIn (h : s.Idle) (hpassed : Passed σ B A s) : UpdatedIn σ B A s s :=
  UpdatedIn.refl hpassed (by rw [h.common, h.candidates]; rfl)

theorem updatedIn_initial (text : BufferText) (companyBackends : List ε) :
    UpdatedIn σ B A (initial text companyBackends) (initial text companyBackends) :=
  (idle_initial _ _).updatedIn ⟨text, companyBackends, Relation.ReflTransGen.refl⟩

theorem Move.updatedIn (h : Move σ B A s s') {u : Completion ε} (hu : UpdatedIn σ B A s u) :
    ∃ u', UpdatedIn σ B A s' u' := by
  have hmoves := hu.moves.tail h
  have hpassed : Passed σ B A s' := by
    obtain ⟨text, companyBackends, hbefore⟩ := hu.passed
    exact ⟨text, companyBackends, hbefore.trans hmoves⟩
  cases h with
  | ended text => exact ⟨_, Idle.updatedIn { idle_cancel s with } hpassed⟩
  | failed hidle hc => exact ⟨_, Idle.updatedIn { hidle with } hpassed⟩
  | begun manualAction manualPrefix hidle ht hcalculates hc =>
      exact ⟨_, UpdatedIn.refl hpassed rfl⟩
  | continued hactive ht hcalculates hc => exact ⟨_, UpdatedIn.refl hpassed rfl⟩
  | takenBack hactive hcache hincremental => exact ⟨u, { hu with moves := hmoves }⟩
  | filtered hactive hcalculates hc => exact ⟨_, UpdatedIn.refl hpassed rfl⟩
  | unfiltered hactive hcalculates => exact ⟨u, { hu with moves := hmoves }⟩
  | selected changed hactive hlt => exact ⟨u, { hu with moves := hmoves }⟩
  | inserted hactive hpoint hlength hinsert => exact ⟨u, { hu with moves := hmoves }⟩
  | acted hactive => exact ⟨u, { hu with moves := hmoves }⟩
  | searched mode string filtering oldSelection oldChanged hmode =>
      exact ⟨u, { hu with moves := hmoves }⟩
  | switched hactive hallowed =>
      exact ⟨u, { hu with
        moves := hmoves
        backend := fun hswitch => absurd hallowed (hswitch _ _ hactive) }⟩
  | edited quit hallowed => exact ⟨u, { hu with moves := hmoves }⟩

/-- What is common to several candidates, and is not the sole candidate, begins with the prefix. -/
theorem UpdatedIn.map_prefix {u : Completion ε} (h : UpdatedIn σ B A s u)
    (hmany : 1 < s.candidates.length ∨ s.common ≠ s.candidates.head?.map Candidate.text)
    {common : List Char} (hcommon : s.common = some common) :
    (s.prefixText.getD []).map σ.upcase <+: common.map σ.upcase := by
  have hlength : 1 < s.candidates.length := by
    by_contra hsole
    refine hmany.elim hsole fun hne => hne ?_
    rw [h.common, commonOf_of_length_le_one _ _ (not_lt.mp hsole)]
  obtain ⟨longest, -, hlongest⟩ :=
    commonOf_of_one_lt_length (σ := σ) (s.prefixText.getD []) (u.ignoresCase B) hlength
  rw [h.common, hlongest] at hcommon
  split_ifs at hcommon with hstarts
  rw [← Option.some.inj hcommon]
  exact map_prefix_of_startsWith ((startsWith_iff _ _ _ _).mp hstarts)

/-- Inserting the common part leaves the prefix before point, or moves point. -/
theorem PrefixAtPoint.inserted (h : s.PrefixAtPoint σ) (hactive : s.Active)
    {u : Completion ε} (hu : UpdatedIn σ B A s u) {text : BufferText}
    (hmany : 1 < s.candidates.length ∨ s.common ≠ s.candidates.head?.map Candidate.text)
    (hinsert : s.insertCandidate B (s.common.getD []) = some text)
    (hsame : text.point = s.text.point) : (s.setText text).PrefixAtPoint σ := by
  obtain ⟨t, ht⟩ := Option.isSome_iff_exists.mp hactive.prefixText
  obtain ⟨rest, x, hbefore, hx⟩ := h
  rw [ht, Option.getD_some] at hx
  have hxt : x.length = t.length := by simpa using congrArg List.length hx
  rw [insertCandidate_eq ht hbefore hxt] at hinsert
  split_ifs at hinsert
  obtain rfl := Option.some.inj hinsert
  have hcompleted : (completed ((s.replies B).ignoreCase = .keepPrefix) t x
      (s.common.getD [])).length = x.length := by
    simpa [BufferText.point, hbefore] using hsame
  refine ⟨rest, _, rfl, ?_⟩
  change _ = List.map σ.upcase (s.prefixText.getD [])
  rw [ht, Option.getD_some]
  rcases length_completed_eq hcompleted hxt with heq | ⟨heq, hlength⟩
  · rw [heq, hx]
  · rw [heq]
    cases hsome : s.common with
    | none =>
        rw [hsome, Option.getD_none, List.length_nil] at hlength
        rw [List.length_eq_zero_iff.mp hlength.symm, Option.getD_none]
    | some common =>
        rw [hsome, Option.getD_some] at hlength
        have hstarts := hu.map_prefix hmany hsome
        rw [ht, Option.getD_some] at hstarts
        refine (List.IsPrefix.eq_of_length hstarts ?_).symm
        rw [List.length_map, List.length_map, hlength]

/-- The prefix stands before point as long as point is where it was. -/
def PrefixStands (σ : Settings) (s : Completion ε) : Prop :=
  s.point = some s.text.point → s.PrefixAtPoint σ

theorem Idle.prefixStands (h : s.Idle) : s.PrefixStands σ := fun hpoint =>
  absurd (h.point.symm.trans hpoint) (Option.some_ne_none _).symm

theorem Move.prefixStands (h : Move σ B A s s') (hB : B.PrefixBeforePoint)
    (hA : KeepsTextBefore A) (hs : s.Idle ∨ s.Active) {u : Completion ε}
    (hu : UpdatedIn σ B A s u) (hstands : s.PrefixStands σ) : s'.PrefixStands σ := by
  cases h with
  | ended text => exact Idle.prefixStands { idle_cancel s with }
  | failed hidle hc => exact Idle.prefixStands { hidle with }
  | begun manualAction manualPrefix hidle ht hcalculates hc =>
      exact fun _ => prefixAtPoint_of_suffix (hB _ _ _ ht)
  | continued hactive ht hcalculates hc =>
      obtain ⟨b, hb⟩ := Option.isSome_iff_exists.mp hactive.backend
      rw [replies_eq hb] at ht
      exact fun _ => prefixAtPoint_of_suffix (hB _ _ _ ht)
  | takenBack hactive hcache hincremental =>
      rw [incrementalP, Bool.and_eq_true, Bool.and_eq_true] at hincremental
      exact fun _ => prefixAtPoint_of_suffix (List.isSuffixOf_iff_suffix.mp hincremental.2)
  | filtered hactive hcalculates hc => exact hstands
  | unfiltered hactive hcalculates => exact hstands
  | selected changed hactive hlt => exact hstands
  | inserted hactive hpoint hlength hinsert =>
      exact fun hnew => (hstands hpoint).inserted hactive hu hlength hinsert
        (Option.some.inj (hnew.symm.trans hpoint))
  | acted hactive => exact hstands
  | searched mode string filtering oldSelection oldChanged hmode => exact hstands
  | switched hactive hallowed => exact hstands
  | edited quit hallowed =>
      rcases hs with hidle | hactive
      · exact Idle.prefixStands { hidle with }
      · obtain ⟨ha, hpoint⟩ := hallowed hactive
        intro hnew
        obtain ⟨rest, x, hbefore, hx⟩ := hstands hpoint
        refine ⟨rest, x, ?_, hx⟩
        exact (hA _ _ _ _ _ ha (Option.some.inj (hnew.symm.trans hpoint))).trans hbefore

variable [DecidableEq ε]

theorem updatedIn_of_reachable (h : Reachable σ B A s) : ∃ u, UpdatedIn σ B A s u :=
  h.induct (p := fun s => ∃ u, UpdatedIn σ B A s u)
    (fun _ _ => ⟨_, updatedIn_initial _ _⟩) fun _ _ _ hmove ⟨_, hu⟩ => hmove.updatedIn hu

/-- **The common part.** In every state that commands lead to, `company-common` is the sole
candidate, or the longest text that begins all of several candidates if that begins with the prefix,
or nothing. Whether case counts is what the backend replied when the candidates were updated last,
in a state that a run has passed and from which the completion has gone on with the same candidates
and prefix, and with the same backend unless `company-begin-backend` is called meanwhile. -/
theorem common_of_reachable (h : Reachable σ B A s) :
    ∃ u, Passed σ B A u ∧ Moves σ B A u s ∧ u.candidates = s.candidates ∧
      u.prefixText = s.prefixText ∧
      ((∀ s b, s.Active → ¬ A s (.beginBackend b)) → u.backend = s.backend) ∧
      (s.candidates.length ≤ 1 → s.common = s.candidates.head?.map Candidate.text) ∧
      (1 < s.candidates.length → ∃ longest,
        (∀ x, StartsWith (caseKey σ.upcase (u.ignoresCase B)) x longest ↔
          ∀ d ∈ s.candidates, StartsWith (caseKey σ.upcase (u.ignoresCase B)) x d.text) ∧
        s.common = if startsWith σ.upcase (u.ignoresCase B) (s.prefixText.getD []) longest then
          some longest else none) := by
  obtain ⟨u, hu⟩ := updatedIn_of_reachable h
  refine ⟨u, hu.passed, hu.moves, hu.candidates, hu.prefixText, hu.backend, ?_⟩
  rw [hu.common]
  exact ⟨commonOf_of_length_le_one _ _, commonOf_of_one_lt_length _ _⟩

theorem common_session :
    let σ := configuredSettings id
    let B := wordBackends
    let A : Completion Bool → Action Bool → Prop := fun s a => s.Active → ∀ b, a ≠ .beginBackend b
    let s := session ['b'] [.manualBegin, .selectNext 1]
    ∃ u, Passed σ B A u ∧ Moves σ B A u s ∧ u.candidates = s.candidates ∧
      u.prefixText = s.prefixText ∧
      ((∀ s b, s.Active → ¬ A s (.beginBackend b)) → u.backend = s.backend) ∧
      (s.candidates.length ≤ 1 → s.common = s.candidates.head?.map Candidate.text) ∧
      (1 < s.candidates.length → ∃ longest,
        (∀ x, StartsWith (caseKey σ.upcase (u.ignoresCase B)) x longest ↔
          ∀ d ∈ s.candidates, StartsWith (caseKey σ.upcase (u.ignoresCase B)) x d.text) ∧
        s.common = if startsWith σ.upcase (u.ignoresCase B) (s.prefixText.getD []) longest then
          some longest else none) :=
  common_of_reachable (reachable_session _ _ (by simp))

theorem prefixStands_of_reachable (hB : B.PrefixBeforePoint) (hA : KeepsTextBefore A)
    (h : Reachable σ B A s) : s.PrefixStands σ :=
  (h.induct (p := fun s => (∃ u, UpdatedIn σ B A s u) ∧ s.PrefixStands σ)
    (fun _ _ => ⟨⟨_, updatedIn_initial _ _⟩, (idle_initial _ _).prefixStands⟩)
    fun _ _ hs hmove ⟨⟨_, hu⟩, hstands⟩ =>
      ⟨hmove.updatedIn hu, hmove.prefixStands hB hA hs hu hstands⟩).2

/-- **To complete is to replace the prefix.** Let backends give as prefix what stands before point
(`Backends.PrefixBeforePoint`), and let other commands that leave a completion and point alone leave
the text before point alone (`KeepsTextBefore`). In every state that commands lead to with a
completion going on, what stands before point is the prefix, but perhaps for case. Completing puts
the selected candidate in its place, or what is missing of it behind if the backend keeps the
prefix, leaves all other text to what the backend does then, and ends the completion; unless the
prefix is kept and the candidate is shorter, which signals and changes nothing but
`company--manual-action`. -/
theorem step_completeSelection (hB : B.PrefixBeforePoint) (hA : KeepsTextBefore A)
    (h : Reachable σ B A s) (hs : s.Active) :
    ∃ b t result rest x, s.backend = some b ∧ s.prefixText = some t ∧
      s.candidates[s.selection]? = some result ∧
      s.text.before = rest ++ x ∧ x.map σ.upcase = t.map σ.upcase ∧
      s.step σ B .completeSelection =
        let keepPrefix : Bool := (B.replies b s.text).ignoreCase = .keepPrefix
        if result.text ≠ [] ∧ keepPrefix ∧ result.text.length < t.length then
          s.setManualAction true
        else
          s.cancel.setText (B.postCompletion b result
            ⟨rest ++ completed keepPrefix t x result.text, s.text.after⟩) := by
  have hpoint : s.point = some s.text.point := h.settled.point_eq hs
  obtain ⟨b, hb⟩ := Option.isSome_iff_exists.mp hs.backend
  obtain ⟨t, ht⟩ := Option.isSome_iff_exists.mp hs.prefixText
  obtain ⟨rest, x, hbefore, hx⟩ := prefixStands_of_reachable hB hA h hpoint
  rw [ht, Option.getD_some] at hx
  have hxt : x.length = t.length := by simpa using congrArg List.length hx
  obtain ⟨result, hresult⟩ : ∃ result, s.candidates[s.selection]? = some result :=
    ⟨_, List.getElem?_eq_getElem hs.selection⟩
  refine ⟨b, t, result, rest, x, hb, ht, hresult, hbefore, hx, ?_⟩
  have hcomplete : s.completeSelection σ B =
      ((s.setManualAction true).finish B result).getD (s.setManualAction true) := by
    have hacted : (s.setManualAction true).candidates[(s.setManualAction true).selection]? =
        some result := hresult
    rw [completeSelection, hs.whenBegun_eq, hacted]
  have hinsert := insertCandidate_eq (B := B) (s := s.setManualAction true) ht hbefore hxt
    result.text
  have hreplies : (s.setManualAction true).replies B = B.replies b s.text := replies_eq hb
  rw [hreplies] at hinsert
  change (s.completeSelection σ B).postCommand σ B false = _
  rw [hcomplete, finish, hinsert]
  simp only [decide_eq_true_eq]
  split_ifs
  · exact (postCommand_false _).trans (if_pos hpoint)
  · have hfields : (s.setManualAction true).prefixText = some t ∧
        (s.setManualAction true).backend = some b := ⟨ht, hb⟩
    have hidle (text : BufferText) : (s.cancel.setText text).Idle := { idle_cancel s with }
    simp only [Option.map_some, Option.getD_some, hfields.1, hfields.2]
    exact (hidle _).postCommand false

theorem step_completeSelection_session :
    let s := session ['b'] [.manualBegin, .selectNext 1]
    ∃ b t result rest x, s.backend = some b ∧ s.prefixText = some t ∧
      s.candidates[s.selection]? = some result ∧
      s.text.before = rest ++ x ∧
      x.map (configuredSettings id).upcase = t.map (configuredSettings id).upcase ∧
      s.step (configuredSettings id) wordBackends .completeSelection =
        let keepPrefix : Bool := (wordBackends.replies b s.text).ignoreCase = .keepPrefix
        if result.text ≠ [] ∧ keepPrefix ∧ result.text.length < t.length then
          s.setManualAction true
        else
          s.cancel.setText (wordBackends.postCompletion b result
            ⟨rest ++ completed keepPrefix t x result.text, s.text.after⟩) :=
  step_completeSelection (A := fun s a => ∀ text completable companyBackends quit,
      a = .other text completable companyBackends true quit → text.before = s.text.before)
    (by rintro b text t ⟨⟩; exact List.suffix_refl _)
    (fun _ _ _ _ _ ha _ => ha _ _ _ _ rfl)
    (reachable_session _ _ (by simp)) ⟨rfl, rfl, by decide, rfl, by decide, rfl, rfl⟩

end Completion

end DotEmacs.Company
