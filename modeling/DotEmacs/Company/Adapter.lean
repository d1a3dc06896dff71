import DotEmacs.Company.Candidates
import DotEmacs.Company.MergeAsync
import DotEmacs.Company.Registration

/-!
# Groups of backends as one backend

A group answers like a backend. Its prefix is that of the first backend before `:with` that has
one. Its candidates are those of all its backends that have the same prefix, one backend after the
other; with `:separate` in the group the candidates of each backend are preprocessed by themselves,
and the group says that it is sorted. Each candidate carries the backend that it comes from as a
text property, except for the first backend of the group, and commands on a candidate go to the
backend that it carries. If an answer is late, the candidates are what the callback of
`company--merge-async` is called with.

A backend is initialised when it is first needed. A backend whose initialisation signals is out of
the group for good.

The registration of a backend puts it and `:with` in front of a group. From then on it alone decides
on the prefix; if it cannot be initialised, the group never has a prefix again.

## Main definitions

* `Company.initMembers`: the members of a group that can be used.
* `Company.groupReplies`, `Company.multiBackendAdapter`: the replies of a group.
* `Company.Delivers`, `Company.DeliversAll`: the lists that late answers are merged into.

## Main results

* `Company.onCandidate_multiBackendAdapter`: commands on a candidate go to the backend that it
  comes from, also in any later state.
* `Company.prefixReply_registerAll`: the last registered backend decides on the prefix.
* `Company.delivered_adapterPairs_iff`: when late answers are merged into the list of all.
* `Company.candidates_suffix_registerAll`: registrations only put candidates in front.
-/

namespace DotEmacs.Company

open Elisp

/-! ### Initialisation -/

/-- The property `company-init` of a backend. -/
inductive InitState
  | unset
  | t
  | failed
  deriving DecidableEq, Repr

section Init

variable (initSignals : Backend → Bool)

/-- `company-init-backend` on a symbol, with its value.

Source: `company.el`, lines 695–712. -/
def initBackend (b : Backend) (inits : Backend → InitState) : Bool × (Backend → InitState) :=
  if initSignals b then (false, Function.update inits b .failed)
  else (true, Function.update inits b .t)

/-- `company--maybe-init-backend` on a symbol, with its value.

Source: `company.el`, lines 719–723. -/
def maybeInitBackend (b : Backend) (inits : Backend → InitState) :
    Bool × (Backend → InitState) :=
  match inits b with
  | .t => (true, inits)
  | .failed => (false, inits)
  | .unset => initBackend initSignals b inits

/-- The members of a group that are used: the keywords, and the backends that can be initialised.

Source: `company.el`, lines 977–980. -/
def initMembers : List Member → (Backend → InitState) → List Member × (Backend → InitState)
  | [], inits => ([], inits)
  | .backend b :: ms, inits =>
      let (value, inits') := maybeInitBackend initSignals b inits
      let (ms', inits'') := initMembers ms inits'
      (if value then .backend b :: ms' else ms', inits'')
  | m :: ms, inits =>
      let (ms', inits') := initMembers ms inits
      (m :: ms', inits')

/-- Whether a backend is initialised or can be. -/
def succeeds (inits : Backend → InitState) (b : Backend) : Bool :=
  match inits b with
  | .t => true
  | .failed => false
  | .unset => ! initSignals b

/-- Whether a member is used. -/
def Member.used (inits : Backend → InitState) (m : Member) : Bool :=
  m.backend?.all (succeeds initSignals inits)

variable {initSignals} {inits : Backend → InitState}

theorem maybeInitBackend_fst (b : Backend) :
    (maybeInitBackend initSignals b inits).1 = succeeds initSignals inits b := by
  rw [maybeInitBackend, succeeds]
  cases inits b with
  | t => rfl
  | failed => rfl
  | unset => cases h : initSignals b <;> simp [initBackend, h]

/-- Initialising a backend does not change which backends can be used. -/
@[simp] theorem succeeds_maybeInitBackend (b : Backend) :
    succeeds initSignals (maybeInitBackend initSignals b inits).2 = succeeds initSignals inits := by
  funext c
  rw [maybeInitBackend]
  cases hb : inits b with
  | t => rfl
  | failed => rfl
  | unset =>
      by_cases hcb : c = b
      · subst hcb
        cases h : initSignals c <;> simp [initBackend, succeeds, h, hb]
      · cases h : initSignals b <;> simp [initBackend, succeeds, h, hcb]

/-- The members that are used are settled before the initialisation begins, and it leaves them the
same. -/
theorem initMembers_eq (ms : List Member) (inits : Backend → InitState) :
    (initMembers initSignals ms inits).1 = ms.filter (Member.used initSignals inits) ∧
      succeeds initSignals (initMembers initSignals ms inits).2 = succeeds initSignals inits := by
  induction ms generalizing inits with
  | nil => exact ⟨rfl, rfl⟩
  | cons m ms ih =>
      cases m with
      | backend b =>
          obtain ⟨hms, hsucc⟩ := ih (maybeInitBackend initSignals b inits).2
          have hused : Member.used initSignals (maybeInitBackend initSignals b inits).2 =
              Member.used initSignals inits := by
            funext m
            rw [Member.used, Member.used, succeeds_maybeInitBackend]
          refine ⟨?_, by rw [initMembers]; exact hsucc.trans (succeeds_maybeInitBackend b)⟩
          rw [initMembers, List.filter_cons]
          simp only [maybeInitBackend_fst, hms, hused]
          rfl
      | colonWith | colonSeparate =>
          obtain ⟨hms, hsucc⟩ := ih inits
          exact ⟨by simp only [initMembers, hms]; rfl, hsucc⟩

end Init

/-! ### The replies of a group -/

namespace Answer

/-- The list of an answer, now or later. -/
def list : Answer → List Candidate
  | .now c => c
  | .later c _ => c

def late : Answer → Bool
  | .now _ => false
  | .later _ _ => true

/-- Whether the list of an answer is there in time. -/
def inTime : Answer → Bool
  | .now _ => true
  | .later _ inTime => inTime

end Answer

section Group

variable (replies : Backend → Replies) (ms : List Member)

/-- The backends among members of a group. -/
def backendsOf : List Backend := ms.filterMap Member.backend?

/-- The backends before `:with`. -/
def prefixBackends : List Backend := backendsOf (ms.takeWhile (· ≠ .colonWith))

/-- `company--multi-candidates-mapper`.

Source: `company.el`, lines 1022–1034. -/
def multiCandidatesMapper (backend : Backend) (separate tag : Bool) (candidates : List Candidate) :
    List Candidate :=
  let candidates :=
    if separate then preprocessCandidates (replies backend) candidates else candidates
  if tag then candidates.map fun str => { str with backend := some backend } else candidates

/-- The backends that are asked for candidates: those that have the prefix. -/
def askedBackends (prefixText : List Char) : List Backend :=
  (backendsOf ms).filter fun b => (replies b).prefixReply.str? = some prefixText

/-- What `company--merge-async` merges for one backend. -/
def block (prefixText : List Char) (b : Backend) : List Candidate :=
  multiCandidatesMapper replies b (.colonSeparate ∈ ms) ((backendsOf ms).head? ≠ some b)
    ((replies b).candidates prefixText).list

/-- Whether an answer that the candidates are merged from is late. -/
def anyLate (prefixText : List Char) : Bool :=
  (askedBackends replies ms prefixText).any fun b => ((replies b).candidates prefixText).late

/-- The pairs that `company--multi-backend-adapter-candidates` gives to `company--merge-async`,
for answers of given identities.

Source: `company.el`, lines 1007–1019. -/
def adapterPairs (identity : ℕ → ℕ) (prefixText : List Char) : List (Pair (List Candidate)) :=
  (askedBackends replies ms prefixText).mapIdx fun i b =>
    { identity := identity i
      late := ((replies b).candidates prefixText).late
      result := ((replies b).candidates prefixText).list
      mapper := multiCandidatesMapper replies b (.colonSeparate ∈ ms)
        ((backendsOf ms).head? ≠ some b) }

/-- The callback for a late answer is called with a list, in some interleaving. -/
def Delivers (prefixText : List Char) (merged : List Candidate) : Prop :=
  ∃ identity s, Merging.Reachable [] List.flatten (adapterPairs replies ms identity prefixText) s ∧
    merged ∈ s.delivered

/-- The callback for a late answer is called with a list when all answers are there, the last of
which is identical with no other. -/
def DeliversAll (prefixText : List Char) (merged : List Candidate) : Prop :=
  ∃ identity s, Merging.Reachable [] List.flatten (adapterPairs replies ms identity prefixText) s ∧
    s.Complete (adapterPairs replies ms identity prefixText) ∧
    Merging.LastIsOwn (adapterPairs replies ms identity prefixText) s ∧ merged ∈ s.delivered

variable (merged : List Char → List Candidate × Bool)

/-- `company--multi-backend-adapter-candidates`. If an answer is late, the list is one that the
callback is called with, `merged`, which comes in time or not.

Source: `company.el`, lines 1006–1020. -/
def multiBackendAdapterCandidates (prefixText : List Char) : Answer :=
  if anyLate replies ms prefixText then .later (merged prefixText).1 (merged prefixText).2
  else .now ((askedBackends replies ms prefixText).flatMap (block replies ms prefixText))

/-- The first value that is not `none`. -/
def firstValue {α : Type} (none : α) [DecidableEq α] (f : Backend → α) (bs : List Backend) : α :=
  ((bs.map f).find? (· ≠ none)).getD none

/-- What `company--multi-backend-adapter` returns for each command, on the members that are used.
A command on a candidate goes to the backend that the candidate carries, and otherwise to the first
one. A group of no backends cannot pass on a command, and is never asked for one, since it has no
prefix.

Source: `company.el`, lines 981–1004. -/
def groupReplies : Replies where
  prefixReply := firstValue .nil (fun b => (replies b).prefixReply) (prefixBackends ms)
  candidates := multiBackendAdapterCandidates replies ms merged
  sorted := .colonSeparate ∈ ms
  duplicates := .colonSeparate ∉ ms
  ignoreCase := firstValue .nil (fun b => (replies b).ignoreCase) (backendsOf ms)
  noCache prefixText := firstValue false (fun b => (replies b).noCache prefixText) (backendsOf ms)
  requireMatch := firstValue .nil (fun b => (replies b).requireMatch) (backendsOf ms)
  onCandidate command arg :=
    if arg.text.length = 0 then .nil
    else match arg.backend.or (backendsOf ms).head? with
      | some backend => (replies backend).onCandidate command arg
      | none => .nil

variable (initSignals : Backend → Bool)

/-- `company--multi-backend-adapter`: the replies of a group, and the initialisation that asking
for one of them leaves.

Source: `company.el`, lines 976–1004. -/
def multiBackendAdapter (inits : Backend → InitState) : Replies × (Backend → InitState) :=
  let (ms', inits') := initMembers initSignals ms inits
  (groupReplies replies ms' merged, inits')

/-- The initialisation that a sequence of calls of the adapter leaves, each for some group. -/
def initsAfter (groups : List (List Member)) (inits : Backend → InitState) : Backend → InitState :=
  groups.foldl (fun inits ms => (initMembers initSignals ms inits).2) inits

variable {replies ms merged initSignals} {inits : Backend → InitState} {p : List Char}

theorem multiBackendAdapter_fst :
    (multiBackendAdapter replies ms merged initSignals inits).1 =
      groupReplies replies (ms.filter (Member.used initSignals inits)) merged :=
  congrArg (fun ms' => groupReplies replies ms' merged) (initMembers_eq ms inits).1

theorem succeeds_initsAfter (groups : List (List Member)) :
    succeeds initSignals (initsAfter initSignals groups inits) = succeeds initSignals inits := by
  induction groups generalizing inits with
  | nil => rfl
  | cons ms groups ih => exact ih.trans (initMembers_eq ms inits).2

/-- Which members of a group are used does not change any more. -/
theorem used_initsAfter (groups : List (List Member)) :
    Member.used initSignals (initsAfter initSignals groups inits) =
      Member.used initSignals inits := by
  funext m
  rw [Member.used, Member.used, succeeds_initsAfter]

/-! ### The merged list -/

theorem map_value_adapterPairs (identity : ℕ → ℕ) :
    (adapterPairs replies ms identity p).map Pair.value =
      (askedBackends replies ms p).map (block replies ms p) := by
  refine List.ext_getElem (by simp [adapterPairs]) fun i _ _ => ?_
  simp [adapterPairs, Pair.value, block]

theorem mergeNow_adapterPairs (identity : ℕ → ℕ) :
    mergeNow List.flatten (adapterPairs replies ms identity p) =
      (askedBackends replies ms p).flatMap (block replies ms p) := by
  rw [mergeNow, map_value_adapterPairs, List.flatMap_def]

theorem adapterPairs_ne_nil (identity : ℕ → ℕ) (h : askedBackends replies ms p ≠ []) :
    adapterPairs replies ms identity p ≠ [] := by
  simpa [adapterPairs] using h

/-- **Late answers are merged into the list of all.** Once all answers are there, in whatever order
they have come, the callback has been called with the candidates of all backends and only once if
and only if the last answer is identical with no other. -/
theorem delivered_adapterPairs_iff {identity : ℕ → ℕ}
    {s : Merging (List Candidate) (List Candidate)}
    (h : Merging.Reachable [] List.flatten (adapterPairs replies ms identity p) s)
    (hc : s.Complete (adapterPairs replies ms identity p))
    (hne : askedBackends replies ms p ≠ []) :
    s.delivered = [(askedBackends replies ms p).flatMap (block replies ms p)] ↔
      Merging.LastIsOwn (adapterPairs replies ms identity p) s := by
  have hpairs := adapterPairs_ne_nil identity hne
  rw [← mergeNow_adapterPairs identity]
  refine ⟨fun heq => ?_, h.delivered_of_lastIsOwn hc hpairs⟩
  by_contra hown
  have hlong := h.one_lt_length_delivered hc hpairs hown
  rw [heq, List.length_singleton] at hlong
  omega

theorem askedBackends_ne_nil (h : anyLate replies ms p) : askedBackends replies ms p ≠ [] := by
  obtain ⟨b, hb, -⟩ := List.any_eq_true.mp h
  exact List.ne_nil_of_mem hb

/-- The callback can be called with the list of all, whatever the backends answer. -/
theorem deliversAll_flatMap (h : anyLate replies ms p) :
    DeliversAll replies ms p ((askedBackends replies ms p).flatMap (block replies ms p)) := by
  have hid : ((adapterPairs replies ms id p).map Pair.identity).Nodup := by
    have hmap : (adapterPairs replies ms id p).map Pair.identity =
        List.range (askedBackends replies ms p).length :=
      List.ext_getElem (by simp [adapterPairs]) fun i _ _ => by simp [adapterPairs]
    exact hmap ▸ List.nodup_range
  obtain ⟨s, hs, hc⟩ := Merging.exists_complete [] List.flatten (adapterPairs replies ms id p)
  have hown := Merging.lastIsOwn_of_nodup hid s
  refine ⟨id, s, hs, hc, hown, ?_⟩
  rw [(delivered_adapterPairs_iff hs hc (askedBackends_ne_nil h)).mpr hown]
  exact List.mem_singleton_self _

theorem DeliversAll.delivers {l : List Candidate} (h : DeliversAll replies ms p l) :
    Delivers replies ms p l := by
  obtain ⟨identity, s, hs, -, -, hmem⟩ := h
  exact ⟨identity, s, hs, hmem⟩

/-- A list that all answers are merged into is that of all backends. -/
theorem list_of_deliversAll
    (h : anyLate replies ms p → DeliversAll replies ms p (merged p).1) :
    (multiBackendAdapterCandidates replies ms merged p).list =
      (askedBackends replies ms p).flatMap (block replies ms p) := by
  rw [multiBackendAdapterCandidates]
  split_ifs with hlate
  · obtain ⟨identity, s, hreachable, hcomplete, hown, hmem⟩ := h hlate
    have hne := askedBackends_ne_nil hlate
    rw [(delivered_adapterPairs_iff hreachable hcomplete hne).mpr hown] at hmem
    exact List.mem_singleton.mp hmem
  · rfl

/-- Each candidate of a group is one of its backends', also when the callback for a late answer is
called before all are there, or without some. -/
theorem exists_block_of_mem_list
    (h : anyLate replies ms p → Delivers replies ms p (merged p).1) {c : Candidate}
    (hc : c ∈ (multiBackendAdapterCandidates replies ms merged p).list) :
    ∃ b ∈ askedBackends replies ms p, c ∈ block replies ms p b := by
  rw [multiBackendAdapterCandidates] at hc
  split_ifs at hc with hlate
  · obtain ⟨identity, s, hreachable, hmem⟩ := h hlate
    obtain ⟨l, hl, heq⟩ := hreachable.derived.delivered _ hmem
    have hflatten : c ∈ l.flatten := heq ▸ hc
    obtain ⟨x, hx, hcx⟩ := List.mem_flatten.mp hflatten
    rcases hl x hx with rfl | ⟨pair, hpair, rfl⟩
    · exact absurd hcx List.not_mem_nil
    · have hvalue : pair.value ∈ (adapterPairs replies ms identity p).map Pair.value :=
        List.mem_map_of_mem hpair
      rw [map_value_adapterPairs] at hvalue
      obtain ⟨b, hb, hblock⟩ := List.mem_map.mp hvalue
      exact ⟨b, hb, hblock ▸ hcx⟩
  · exact List.mem_flatMap.mp hc

/-! ### Commands on a candidate -/

/-- A candidate of a block is one of the backend, and carries the backend unless it is the first
of the group. -/
theorem mem_block {b : Backend} {c : Candidate} (h : c ∈ block replies ms p b) :
    ∃ d ∈ ((replies b).candidates p).list, c.text = d.text ∧ c.properties = d.properties ∧
      c.backend = if (backendsOf ms).head? = some b then d.backend else some b := by
  have hmem : ∀ d, d ∈ (if Member.colonSeparate ∈ ms then
      preprocessCandidates (replies b) ((replies b).candidates p).list
      else ((replies b).candidates p).list) → d ∈ ((replies b).candidates p).list := by
    intro d hd
    split_ifs at hd
    · exact mem_of_mem_preprocessCandidates hd
    · exact hd
  simp only [block, multiCandidatesMapper, decide_eq_true_eq] at h
  by_cases hhead : (backendsOf ms).head? = some b
  · simp only [hhead, ne_eq, not_true, if_false] at h
    exact ⟨c, hmem c h, rfl, rfl, by rw [if_pos hhead]⟩
  · simp only [hhead, ne_eq, not_false_eq_true, if_true, List.mem_map] at h
    obtain ⟨d, hd, rfl⟩ := h
    exact ⟨d, hmem d hd, rfl, rfl, by rw [if_neg hhead]⟩

/-- **Commands on a candidate go to the backend that it comes from.** Let every backend answer with
nonempty candidates that carry no backend. Then each candidate that is left of the answer of a
group comes from one of its backends, and whatever groups are asked in between and whatever the
backends reply then, the group passes every command on the candidate to that backend. A late answer
is any list that the callback for it is called with. -/
theorem onCandidate_multiBackendAdapter
    (hplain : ∀ b, ∀ d ∈ ((replies b).candidates p).list, d.backend = none ∧ d.text ≠ [])
    (hmerged : anyLate replies (ms.filter (Member.used initSignals inits)) p →
      Delivers replies (ms.filter (Member.used initSignals inits)) p (merged p).1)
    {c : Candidate}
    (hc : c ∈ preprocessCandidates (multiBackendAdapter replies ms merged initSignals inits).1
      ((multiBackendAdapter replies ms merged initSignals inits).1.candidates p).list) :
    ∃ b ∈ backendsOf ms, (replies b).prefixReply.str? = some p ∧
      (∃ d ∈ ((replies b).candidates p).list, d.text = c.text ∧ d.properties = c.properties) ∧
      ∀ (groups : List (List Member)) (replies' : Backend → Replies)
        (merged' : List Char → List Candidate × Bool) (command : Symbol),
        (multiBackendAdapter replies' ms merged' initSignals
            (initsAfter initSignals groups inits)).1.onCandidate command c =
          (replies' b).onCandidate command c := by
  replace hc := mem_of_mem_preprocessCandidates hc
  rw [multiBackendAdapter_fst] at hc
  obtain ⟨b, hb, hcb⟩ := exists_block_of_mem_list hmerged hc
  obtain ⟨hused, hprefix⟩ := List.mem_filter.mp hb
  obtain ⟨d, hd, htext, hproperties, hbackend⟩ := mem_block hcb
  obtain ⟨hnone, hne⟩ := hplain b d hd
  refine ⟨b, (List.filter_sublist.filterMap _).subset hused, by simpa using hprefix,
    ⟨d, hd, htext.symm, hproperties.symm⟩, fun groups replies' merged' command => ?_⟩
  have hlength : ¬ c.text.length = 0 := by rwa [htext, List.length_eq_zero_iff]
  -- the first backend of the group is the same in any later state
  have hor : c.backend.or (backendsOf (ms.filter (Member.used initSignals inits))).head? =
      some b := by
    by_cases hhead : (backendsOf (ms.filter (Member.used initSignals inits))).head? = some b
    · rw [hbackend, if_pos hhead, hnone, hhead, Option.none_or]
    · rw [hbackend, if_neg hhead, Option.some_or]
  rw [multiBackendAdapter_fst, used_initsAfter]
  simp only [groupReplies, hlength, if_false, hor]

/-- Backends that select from `ab` and `ba` at the prefix `a`. -/
def selectingBackends (_ : Backend) : Replies :=
  { selectingReplies with prefixReply := .text ['a'] }

/-- Backends of which `company-capf` answers late and `company-cmake` at once. -/
def lateReplies (b : Backend) : Replies :=
  if b = ⟨"company-capf"⟩ then
    { selectingBackends b with
      candidates := fun p => .later ((selectingReplies.candidates p).list) true }
  else if b = ⟨"company-cmake"⟩ then selectingBackends b
  else selectingReplies

/-- The commands on the second of two equal candidates go to the second backend, when the first one
has answered late. -/
theorem onCandidate_second :
    let second : Backend := ⟨"company-cmake"⟩
    let ms : List Member := [.backend ⟨"company-capf"⟩, .colonSeparate, .backend second]
    let c : Candidate := ⟨['a', 'b'], some second, .nil⟩
    ∃ b ∈ backendsOf ms, (lateReplies b).prefixReply.str? = some ['a'] ∧
      (∃ d ∈ ((lateReplies b).candidates ['a']).list,
        d.text = c.text ∧ d.properties = c.properties) ∧
      ∀ (groups : List (List Member)) (replies' : Backend → Replies)
        (merged' : List Char → List Candidate × Bool) (command : Symbol),
        (multiBackendAdapter replies' ms merged' (fun _ => false)
            (initsAfter (fun _ => false) groups fun _ => .unset)).1.onCandidate command c =
          (replies' b).onCandidate command c := by
  have hlist : ∀ d ∈ (selectingReplies.candidates ['a']).list, d.backend = none ∧ d.text ≠ [] := by
    decide
  have hplain : ∀ b, ∀ d ∈ ((lateReplies b).candidates ['a']).list,
      d.backend = none ∧ d.text ≠ [] := by
    intro b
    rw [lateReplies]
    split_ifs <;> exact hlist
  let merged : List Char → List Candidate × Bool := fun _ =>
    ([⟨['a', 'b'], none, .nil⟩, ⟨['a', 'b'], some ⟨"company-cmake"⟩, .nil⟩], true)
  let answering := (multiBackendAdapter lateReplies
    [.backend ⟨"company-capf"⟩, .colonSeparate, .backend ⟨"company-cmake"⟩] merged
    (fun _ => false) fun _ => .unset).1
  have hc : (⟨['a', 'b'], some ⟨"company-cmake"⟩, .nil⟩ : Candidate) ∈
      preprocessCandidates answering (answering.candidates ['a']).list := by decide
  exact onCandidate_multiBackendAdapter hplain
    (fun hlate => (deliversAll_flatMap hlate).delivers) hc

/-! ### Registered backends -/

theorem head_registerAll (g : Group) {bs : List Backend} {b : Backend} (h : bs.getLast? = some b) :
    (g.registerAll bs).head = b := by
  obtain ⟨cs, rfl⟩ := List.getLast?_eq_some_iff.mp h
  rw [Group.registerAll, List.foldl_append]
  exact Group.head_register _ b

/-- The registrations leave a group alone, or put something in front of it that begins with a
backend and `:with`. -/
theorem registerAll_eq_self_or (g : Group) (bs : List Backend) :
    g.registerAll bs = g ∨ ∃ ms, (g.registerAll bs).tail = .colonWith :: ms := by
  induction bs generalizing g with
  | nil => exact Or.inl rfl
  | cons b bs ih =>
      rcases ih (g.register b) with h | h
      · by_cases hb : g.head = b
        · rw [Group.register_of_head_eq g hb] at h
          exact Or.inl (by rw [Group.registerAll_cons, Group.register_of_head_eq g hb, h])
        · rw [Group.register_of_head_ne g hb] at h
          refine Or.inr ⟨g.members, ?_⟩
          rw [Group.registerAll_cons, Group.register_of_head_ne g hb, h]
          rfl
      · exact Or.inr h

/-- Behind `:with` no backend has a say on the prefix. -/
theorem prefixBackends_used (b : Backend) (ms : List Member) :
    prefixBackends ((.backend b :: .colonWith :: ms).filter (Member.used initSignals inits)) =
      if succeeds initSignals inits b then [b] else [] := by
  have hwith : (Member.colonWith :: ms).filter (Member.used initSignals inits) =
      .colonWith :: ms.filter (Member.used initSignals inits) := List.filter_cons_of_pos rfl
  rw [List.filter_cons, hwith]
  have hused : Member.used initSignals inits (.backend b) = succeeds initSignals inits b := rfl
  rw [hused]
  split_ifs <;> simp [prefixBackends, backendsOf, Member.backend?]

theorem firstValue_singleton {α : Type} [DecidableEq α] (none : α) (f : Backend → α)
    (b : Backend) : firstValue none f [b] = f b := by
  by_cases h : f b = none <;> simp [firstValue, h]

/-- **The backend that is registered last decides on the prefix.** If a sequence of registrations
changes a group, the prefix of the group is that of the last backend, whatever the others reply.
If that backend cannot be initialised, the group never has a prefix. -/
theorem prefixReply_registerAll (g : Group) (bs : List Backend) (h : g.registerAll bs ≠ g) :
    ∃ b, bs.getLast? = some b ∧
      (multiBackendAdapter replies (g.registerAll bs).members merged initSignals
          inits).1.prefixReply =
        if succeeds initSignals inits b then (replies b).prefixReply else .nil := by
  obtain ⟨b, hb⟩ : ∃ b, bs.getLast? = some b := by
    cases hlast : bs.getLast? with
    | some b => exact ⟨b, rfl⟩
    | none => exact absurd (by rw [List.getLast?_eq_none_iff.mp hlast]; rfl) h
  obtain ⟨ms, hms⟩ := (registerAll_eq_self_or g bs).resolve_left h
  refine ⟨b, hb, ?_⟩
  rw [multiBackendAdapter_fst, Group.members, hms, head_registerAll g hb]
  simp only [groupReplies, prefixBackends_used]
  split_ifs
  · exact firstValue_singleton _ _ b
  · rfl

theorem prefixReply_cmake :
    Group.configured.registerAll [⟨"company-cmake"⟩] ≠ Group.configured ∧
    ∃ b, [(⟨"company-cmake"⟩ : Backend)].getLast? = some b ∧
      (multiBackendAdapter selectingBackends
          (Group.configured.registerAll [⟨"company-cmake"⟩]).members (fun _ => ([], true))
          (fun _ => false) fun _ => .unset).1.prefixReply =
        if succeeds (fun _ => false) (fun _ => .unset) b then (selectingBackends b).prefixReply
        else .nil :=
  ⟨by decide, prefixReply_registerAll _ _ (by decide)⟩

/-- A candidate without the backend that it carries. -/
def Candidate.untagged (c : Candidate) : Candidate := { c with backend := none }

theorem map_untagged_block {ms ms' : List Member} {b : Backend}
    (h : Member.colonSeparate ∈ ms ↔ Member.colonSeparate ∈ ms') :
    (block replies ms p b).map Candidate.untagged =
      (block replies ms' p b).map Candidate.untagged := by
  have htag : ∀ (tag : Bool) (l : List Candidate),
      (if tag then l.map fun str => { str with backend := some b } else l).map Candidate.untagged =
        l.map Candidate.untagged := by
    intro tag l
    cases tag with
    | false => rfl
    | true => exact List.map_map
  simp only [block, multiCandidatesMapper, htag, h]

/-- **Registrations only put candidates in front.** What a group with `:separate` offers for a
prefix is, but for the backends that the candidates carry, the end of what it offers for that
prefix after any sequence of registrations. Answers that are late must be all there, and the last
one must be identical with no other. -/
theorem candidates_suffix_registerAll (g : Group) (hseparate : .colonSeparate ∈ g.members)
    (bs : List Backend) {p : List Char} {merged merged' : List Char → List Candidate × Bool}
    (hmerged : anyLate replies (g.members.filter (Member.used initSignals inits)) p →
      DeliversAll replies (g.members.filter (Member.used initSignals inits)) p (merged p).1)
    (hmerged' : anyLate replies ((g.registerAll bs).members.filter (Member.used initSignals inits))
        p →
      DeliversAll replies ((g.registerAll bs).members.filter (Member.used initSignals inits)) p
        (merged' p).1) :
    let before := (multiBackendAdapter replies g.members merged initSignals inits).1
    let after :=
      (multiBackendAdapter replies (g.registerAll bs).members merged' initSignals inits).1
    (preprocessCandidates before (before.candidates p).list).map Candidate.untagged <:+
      (preprocessCandidates after (after.candidates p).list).map Candidate.untagged := by
  obtain ⟨front, hfront⟩ := Group.members_suffix_registerAll g bs
  set used := Member.used initSignals inits with hused
  have hbefore : Member.colonSeparate ∈ g.members.filter used :=
    List.mem_filter.mpr ⟨hseparate, rfl⟩
  have hafter : Member.colonSeparate ∈ (g.registerAll bs).members.filter used := by
    rw [← hfront, List.filter_append]
    exact List.mem_append_right _ hbefore
  have hshown : ∀ (ms : List Member) (merged : List Char → List Candidate × Bool),
      Member.colonSeparate ∈ ms →
      (anyLate replies ms p → DeliversAll replies ms p (merged p).1) →
      preprocessCandidates (groupReplies replies ms merged)
          ((groupReplies replies ms merged).candidates p).list =
        (askedBackends replies ms p).flatMap (block replies ms p) := by
    intro ms merged hms hall
    rw [preprocessCandidates_eq_self (by simpa [groupReplies] using hms)
      (by simpa [groupReplies] using hms)]
    exact list_of_deliversAll hall
  simp only [multiBackendAdapter_fst, ← hused]
  rw [hshown _ _ hbefore hmerged, hshown _ _ hafter hmerged', List.map_flatMap, List.map_flatMap]
  have hblock : ∀ b, (block replies ((g.registerAll bs).members.filter used) p b).map
      Candidate.untagged = (block replies (g.members.filter used) p b).map Candidate.untagged :=
    fun b => map_untagged_block (iff_of_true hafter hbefore)
  simp only [hblock]
  refine ⟨(askedBackends replies (front.filter used) p).flatMap fun b =>
    (block replies (g.members.filter used) p b).map Candidate.untagged, ?_⟩
  rw [← hfront, List.filter_append, ← List.flatMap_append]
  simp only [askedBackends, backendsOf, List.filterMap_append, List.filter_append]

/-- The answer of the backend `company-capf`, which is late, is the end of what the group offers
when another backend is in front of it. -/
theorem candidates_suffix_cmake :
    let merged : List Char → List Candidate × Bool := fun _ => ([⟨['a', 'b'], none, .nil⟩], true)
    let merged' : List Char → List Candidate × Bool := fun _ =>
      ([⟨['a', 'b'], none, .nil⟩, ⟨['a', 'b'], some ⟨"company-capf"⟩, .nil⟩], true)
    let before := (multiBackendAdapter lateReplies Group.configured.members merged
      (fun _ => false) fun _ => .unset).1
    let after := (multiBackendAdapter lateReplies
      (Group.configured.registerAll [⟨"company-cmake"⟩]).members merged' (fun _ => false)
      fun _ => .unset).1
    (before.candidates ['a']).late ∧ (after.candidates ['a']).late ∧
      (preprocessCandidates before (before.candidates ['a']).list).map Candidate.untagged <:+
        (preprocessCandidates after (after.candidates ['a']).list).map Candidate.untagged :=
  ⟨by decide, by decide, candidates_suffix_registerAll Group.configured (by decide)
    [⟨"company-cmake"⟩] deliversAll_flatMap deliversAll_flatMap⟩

end Group

end DotEmacs.Company
