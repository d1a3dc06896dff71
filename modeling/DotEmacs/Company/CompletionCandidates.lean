import DotEmacs.Company.CompletionInvariant

/-!
# What a completion shows

The cache survives commands, searches and failed attempts to begin, and every list that is shown
can come from it. As long as the user does not switch backends under a completion, what is shown
and what is cached was offered by the current backend. If moreover each backend answers the same
wherever it is asked, in time, coherently, and with equal texts together, then what is shown is at
all times what asking the backend for the current prefix gives, sorted, without duplicates, filtered
and transformed.

## Main definitions

* `Company.Cache.Empty`: a cache with nothing to complete from.
* `Company.Backends.Offers`: a candidate comes from a backend.
* `Company.Backends.Steady`: the answers depend on the prefix only.

## Main results

* `Company.Completion.offers_of_reachable`: candidates and cache belong to the current backend.
* `Company.Completion.candidates_eq_of_reachable`: the candidates are what asking again gives.
-/

namespace DotEmacs.Company

variable {ε : Type} {σ : Settings} {B : Backends ε}

/-! ### Queries -/

/-- The transformers leave no candidates out entirely, where there are some. -/
def Settings.KeepsSome (σ : Settings) : Prop :=
  ∀ tr ∈ σ.transformers, ∀ l, tr l = [] → l = []

/-- The transformers add no candidates. -/
def Settings.AddsNone (σ : Settings) : Prop :=
  ∀ tr ∈ σ.transformers, ∀ l, tr l ⊆ l

/-- A cache without candidates for any prefix. -/
def Cache.Empty (cache : Cache) : Prop := ∀ p, cache.entry p = []

/-- A backend offers a candidate, in some text and for some prefix. -/
def Backends.Offers (B : Backends ε) (b : ε) (c : Candidate) : Prop :=
  ∃ text forced p, c ∈ fetchCandidates (B.replies b text) forced p

/-- The candidates for a prefix when a backend is asked and nothing is cached. -/
def Replies.asked (r : Replies) (p : List Char) : List Candidate :=
  preprocessCandidates r (fetchCandidates r false p)

/-- Each backend answers the same in every text, except where the prefix is, in time, and
coherently; one that sorts the candidates itself keeps equal texts together. -/
structure Backends.Steady (σ : Settings) (B : Backends ε) (r : ε → Replies) : Prop where
  replies : ∀ b text, ∃ reply, B.replies b text = { r b with prefixReply := reply }
  inTime : ∀ b forced p, fetchCandidates (r b) forced p = fetchCandidates (r b) false p
  coherent : ∀ b, Coherent σ.upcase (r b) false (r b).ignoreCase.toBool
  adjacent : ∀ b, (r b).sorted = true → (r b).duplicates = true →
    ∀ p, Adjacent (fetchCandidates (r b) false p)

theorem Settings.KeepsSome.eq_nil (h : σ.KeepsSome) {l : List Candidate}
    (hl : postprocessCandidates σ.transformers none l = []) : l = [] := by
  rw [Settings.KeepsSome] at h
  rw [postprocessCandidates] at hl
  generalize σ.transformers = transformers at h hl
  induction transformers generalizing l with
  | nil => exact hl
  | cons tr transformers ih =>
      refine h tr List.mem_cons_self l (ih (fun tr' htr' => ?_) hl)
      exact h tr' (List.mem_cons_of_mem tr htr')

theorem Settings.AddsNone.subset (h : σ.AddsNone) (predicate : Option (Candidate → Bool))
    (l : List Candidate) : postprocessCandidates σ.transformers predicate l ⊆ l := by
  have hfold (m : List Candidate) : σ.transformers.foldl (fun c tr => tr c) m ⊆ m := by
    rw [Settings.AddsNone] at h
    generalize σ.transformers = transformers at h
    induction transformers generalizing m with
    | nil => exact List.Subset.refl m
    | cons tr transformers ih =>
        have htail : ∀ tr' ∈ transformers, ∀ l, tr' l ⊆ l := fun tr' htr' =>
          h tr' (List.mem_cons_of_mem tr htr')
        exact List.Subset.trans (ih (tr m) htail) (h tr List.mem_cons_self m)
  cases predicate with
  | none => exact hfold l
  | some p => exact List.Subset.trans (hfold _) fun _ => List.mem_of_mem_filter

theorem Cache.Empty.longest (cache : Cache) (h : cache.Empty) (p : List Char) :
    cache.longest p = none := by
  rw [Cache.longest, List.findSome?_eq_none_iff]
  intro i _
  simp [h (p.take (p.length - i))]

theorem stripAfter_withPrefix (r : Replies) (reply : Prefix) (str : Candidate)
    (annos : Option (List Elisp.Obj)) (l : List Candidate) :
    stripAfter { r with prefixReply := reply } str annos l = stripAfter r str annos l := by
  induction l generalizing str annos with
  | nil => rfl
  | cons str2 c2 ih =>
      simp only [stripAfter, ih]
      rfl

theorem preprocessCandidates_withPrefix (r : Replies) (reply : Prefix) (l : List Candidate) :
    preprocessCandidates { r with prefixReply := reply } l = preprocessCandidates r l := by
  have hstrip (l : List Candidate) :
      stripDuplicates { r with prefixReply := reply } l = stripDuplicates r l := by
    cases l with
    | nil => rfl
    | cons str c2 => exact congrArg _ (stripAfter_withPrefix r reply str none c2)
  rw [preprocessCandidates, hstrip]
  rfl

theorem Backends.Steady.asked_eq {r : ε → Replies} (hB : B.Steady σ r) (b : ε)
    (text : BufferText) (forced : Bool) (p : List Char) :
    preprocessCandidates (B.replies b text) (fetchCandidates (B.replies b text) forced p) =
      (r b).asked p := by
  obtain ⟨reply, hreply⟩ := hB.replies b text
  rw [hreply, preprocessCandidates_withPrefix]
  exact congrArg _ (hB.inTime b forced p)

section Queries

variable {upcase : Char → Char} {transformers : List (List Candidate → List Candidate)}
variable {r : Replies} {forced ignoreCase : Bool} {cache : Cache}

/-- With an empty cache the backend is asked, whether case counts or not. -/
theorem calculateCandidates_of_empty (h : cache.Empty) (predicate : Option (Candidate → Bool))
    (p : List Char) :
    calculateCandidates upcase transformers r forced ignoreCase predicate p cache =
      (postprocessCandidates transformers predicate
        (preprocessCandidates r (fetchCandidates r forced p)),
      (p, preprocessCandidates r (fetchCandidates r forced p)) :: cache) := by
  rw [calculateCandidates, if_neg (not_not.mpr (h p)), h.longest]

/-- What holds of all cached candidates and of all that the backend answers with holds of the
result of a query, and of all that is cached then. -/
theorem forall_calculateCandidates {P : Candidate → Prop} (hσ : σ.AddsNone)
    (upcase : Char → Char) (ignoreCase : Bool) (predicate : Option (Candidate → Bool))
    (p : List Char) (hcache : ∀ q, ∀ c ∈ cache.entry q, P c)
    (hfetch : ∀ c ∈ fetchCandidates r forced p, P c) :
    (∀ c ∈ (calculateCandidates upcase σ.transformers r forced ignoreCase predicate p cache).1,
      P c) ∧
    ∀ q, ∀ c ∈ (calculateCandidates upcase σ.transformers r forced ignoreCase predicate p
      cache).2.entry q, P c := by
  rw [calculateCandidates]
  split_ifs with hentry
  · exact ⟨fun c hc => hcache p c (hσ.subset predicate _ hc), hcache⟩
  · cases hlongest : cache.longest p with
    | some prev =>
        obtain ⟨q, -, rfl, -⟩ := Cache.exists_of_longest hlongest
        exact ⟨fun c hc => hcache q c (List.mem_of_mem_filter (hσ.subset predicate _ hc)), hcache⟩
    | none =>
        have hnew : ∀ c ∈ preprocessCandidates r (fetchCandidates r forced p), P c :=
          fun c hc => hfetch c (mem_of_mem_preprocessCandidates hc)
        refine ⟨fun c hc => hnew c (hσ.subset predicate _ hc), fun q => ?_⟩
        rw [Cache.entry_cons]
        split_ifs
        · exact hnew
        · exact hcache q

end Queries

namespace Completion

variable {s s' : Completion ε} {A : Completion ε → Action ε → Prop}

/-! ### While no completion is going on, there is nothing to complete from -/

theorem Calculates.of_empty {ignoreCase : Bool} {cache cache' : Cache} {t : List Char}
    {c : List Candidate} (h : Calculates σ B s ignoreCase none cache t c cache')
    (hcache : cache.Empty) : ∃ forced,
      c = postprocessCandidates σ.transformers none
        (preprocessCandidates (s.replies B) (fetchCandidates (s.replies B) forced t)) ∧
      cache' =
        (t, preprocessCandidates (s.replies B)
          (fetchCandidates (s.replies B) forced t)) :: cache := by
  obtain ⟨forced, heq⟩ := h
  rw [Option.map_none, calculateCandidates_of_empty hcache, Prod.mk.injEq] at heq
  exact ⟨forced, heq.1.symm, heq.2.symm⟩

theorem Move.empty (h : Move σ B A s s') (hσ : σ.KeepsSome)
    (hempty : s.candidates = [] → s.candidatesCache.Empty) :
    s'.candidates = [] → s'.candidatesCache.Empty := by
  intro hnil
  cases h with
  | ended text => exact fun _ => rfl
  | failed hidle hc =>
      obtain ⟨forced, hpost, rfl⟩ := hc.of_empty (hempty hidle.candidates)
      intro p
      change Cache.entry ((_, _) :: _) p = []
      rw [Cache.entry_cons, hσ.eq_nil hpost.symm, hempty hidle.candidates p, ite_self]
  | begun manualAction manualPrefix hidle ht hcalculates hc => exact absurd hnil hc
  | continued hactive ht hcalculates hc => exact absurd hnil hc
  | takenBack hactive hcache hincremental => exact absurd hnil hactive.candidates
  | filtered hactive hcalculates hc => exact absurd hnil hc
  | unfiltered hactive hcalculates => exact absurd hnil hactive.candidates
  | selected changed hactive hlt => exact hempty hnil
  | inserted hactive hpoint hlength hinsert => exact hempty hnil
  | acted hactive => exact hempty hnil
  | searched mode string filtering oldSelection oldChanged hmode => exact hempty hnil
  | switched hactive hallowed => exact hempty hnil
  | edited quit hallowed => exact hempty hnil

/-! ### Candidates belong to the current backend -/

/-- What is shown and what is cached was offered by a backend. -/
structure OwnedBy (B : Backends ε) (b : ε) (s : Completion ε) : Prop where
  candidates : ∀ c ∈ s.candidates, B.Offers b c
  cache : ∀ p, ∀ c ∈ s.candidatesCache.entry p, B.Offers b c

/-- A query adds candidates of the current backend only. -/
theorem Calculates.offers (hσ : σ.AddsNone) {b : ε} (hb : s.backend = some b) {ignoreCase : Bool}
    {filter : Option (List Char)} {cache cache' : Cache} {t : List Char} {c : List Candidate}
    (h : Calculates σ B s ignoreCase filter cache t c cache')
    (hcache : ∀ p, ∀ d ∈ cache.entry p, B.Offers b d) :
    (∀ d ∈ c, B.Offers b d) ∧ ∀ p, ∀ d ∈ cache'.entry p, B.Offers b d := by
  obtain ⟨forced, heq⟩ := h
  have hfetch : ∀ d ∈ fetchCandidates (s.replies B) forced t, B.Offers b d := by
    rw [replies_eq hb]
    exact fun d hd => ⟨s.text, forced, t, hd⟩
  have hall := forall_calculateCandidates hσ σ.upcase ignoreCase (filter.map (searchPredicate σ)) t
    hcache hfetch
  rwa [heq] at hall

theorem OwnedBy.flushedCache {b : ε} (h : s.OwnedBy B b) :
    ∀ p, ∀ c ∈ (s.flushedCache B).entry p, B.Offers b c := by
  rw [Completion.flushedCache]
  split_ifs
  · exact fun _ _ hc => absurd hc List.not_mem_nil
  · exact h.cache

theorem Move.ownedBy (h : Move σ B A s s') (hσ : σ.AddsNone)
    (hswitch : ∀ s b, s.Active → ¬ A s (.beginBackend b))
    (hempty : s.candidates = [] → s.candidatesCache.Empty)
    (howned : ∀ b, s.backend = some b → s.OwnedBy B b) :
    ∀ b, s'.backend = some b → s'.OwnedBy B b := by
  intro b hb
  cases h with
  | ended text => exact absurd hb (Option.some_ne_none b).symm
  | failed hidle hc => exact absurd (hidle.backend.symm.trans hb) (Option.some_ne_none b).symm
  | @begun b' t ignoreCase c cache manualAction manualPrefix hidle ht hcalculates hc =>
      obtain rfl : b' = b := Option.some.inj hb
      have hcache : ∀ p, ∀ d ∈ s.candidatesCache.entry p, B.Offers b' d := fun p d hd => by
        rw [hempty hidle.candidates p] at hd
        exact absurd hd List.not_mem_nil
      obtain ⟨hcandidates, hcached⟩ := hcalculates.offers hσ rfl hcache
      exact ⟨hcandidates, hcached⟩
  | continued hactive ht hcalculates hc =>
      obtain ⟨hcandidates, hcached⟩ := hcalculates.offers hσ hb (howned b hb).flushedCache
      exact ⟨hcandidates, hcached⟩
  | takenBack hactive hcache hincremental =>
      refine ⟨(howned b hb).candidates, ?_⟩
      rcases hcache with rfl | ⟨t, c, hcalculates⟩
      · exact (howned b hb).flushedCache
      · exact (hcalculates.offers hσ (show s.backend = some b from hb)
          (howned b hb).flushedCache).2
  | filtered hactive hcalculates hc =>
      obtain ⟨hcandidates, hcached⟩ := hcalculates.offers hσ hb (howned b hb).cache
      exact ⟨hcandidates, hcached⟩
  | unfiltered hactive hcalculates =>
      exact ⟨(howned b hb).candidates, (hcalculates.offers hσ hb (howned b hb).cache).2⟩
  | selected changed hactive hlt => exact ⟨(howned b hb).candidates, (howned b hb).cache⟩
  | inserted hactive hpoint hlength hinsert => exact ⟨(howned b hb).candidates, (howned b hb).cache⟩
  | acted hactive => exact ⟨(howned b hb).candidates, (howned b hb).cache⟩
  | searched mode string filtering oldSelection oldChanged hmode =>
      exact ⟨(howned b hb).candidates, (howned b hb).cache⟩
  | switched hactive hallowed => exact absurd hallowed (hswitch s _ hactive)
  | edited quit hallowed => exact ⟨(howned b hb).candidates, (howned b hb).cache⟩

/-- **Candidates come from the current backend.** If transformers only select, and some where there
are some, and if the user does not begin with a backend while a completion is going on, then after
every sequence of commands all candidates that are shown, and all that are cached for later
prefixes, were offered by the current backend; and none are cached if there is none. -/
theorem offers_of_reachable [DecidableEq ε] (hKeeps : σ.KeepsSome) (hAdds : σ.AddsNone)
    (hswitch : ∀ s b, s.Active → ¬ A s (.beginBackend b)) (h : Reachable σ B A s) :
    (s.candidates = [] → s.candidatesCache.Empty) ∧
      ∀ b, s.backend = some b → s.OwnedBy B b :=
  h.induct (p := fun s => (s.candidates = [] → s.candidatesCache.Empty) ∧
      ∀ b, s.backend = some b → s.OwnedBy B b)
    (fun _ _ => ⟨fun _ _ => rfl, fun b hb => absurd hb (Option.some_ne_none b).symm⟩)
    fun _ _ _ hmove hp => ⟨hmove.empty hKeeps hp.1, hmove.ownedBy hAdds hswitch hp.1 hp.2⟩

theorem offers_of_reachable_session :
    let s := session ['b'] [.manualBegin, .selectNext 1]
    (s.candidates = [] → s.candidatesCache.Empty) ∧
      ∀ b, s.backend = some b → s.OwnedBy wordBackends b :=
  offers_of_reachable (σ := configuredSettings id)
    (A := fun s a => s.Active → ∀ b, a ≠ .beginBackend b)
    (fun _ htr => absurd htr List.not_mem_nil) (fun _ htr => absurd htr List.not_mem_nil)
    (fun _ b hs ha => ha hs b rfl)
    (reachable_session _ _ (by simp))

/-- What is shown is left when a backend is begun with under a completion. -/
example :
    let s := session ['b'] [.manualBegin, .beginBackend true]
    s.backend = some true ∧ s.candidates = [word ['b', 'a'], word ['b', 'b']] := by
  decide

/-! ### Candidates are what asking again gives -/

variable {r : ε → Replies}

/-- What is shown is what the backend replies to the prefix, filtered by what is searched or not,
and the cache has nothing but replies of the backend. -/
structure Fresh (σ : Settings) (r : Replies) (s : Completion ε) : Prop where
  candidates : ∃ (t : List Char) (filter : Option (List Char)), s.prefixText = some t ∧
    s.candidates = postprocessCandidates σ.transformers
      (filter.map (searchPredicate σ)) (r.asked t)
  cache : s.candidatesCache.Faithful r false

theorem ignoresCase_of_steady (hB : B.Steady σ r) {b : ε} (hb : s.backend = some b) :
    s.ignoresCase B = (r b).ignoreCase.toBool := by
  obtain ⟨reply, hreply⟩ := hB.replies b s.text
  rw [ignoresCase, replies_eq hb, hreply]

theorem Calculates.steady (hB : B.Steady σ r) {b : ε} (hb : s.backend = some b)
    {filter : Option (List Char)} {cache cache' : Cache} {t : List Char} {c : List Candidate}
    (h : Calculates σ B s (s.ignoresCase B) filter cache t c cache')
    (hcache : cache.Faithful (r b) false) :
    c = postprocessCandidates σ.transformers (filter.map (searchPredicate σ)) ((r b).asked t) ∧
      cache'.Faithful (r b) false := by
  obtain ⟨forced, heq⟩ := h
  obtain ⟨reply, hreply⟩ := hB.replies b s.text
  have hcalculate : calculateCandidates σ.upcase σ.transformers (s.replies B) forced
      (s.ignoresCase B) (filter.map (searchPredicate σ)) t cache =
      calculateCandidates σ.upcase σ.transformers (r b) false (r b).ignoreCase.toBool
        (filter.map (searchPredicate σ)) t cache := by
    rw [calculateCandidates, calculateCandidates, replies_eq hb, hB.asked_eq,
      ignoresCase_of_steady hB hb]
    rfl
  obtain ⟨hc, hfaithful⟩ := calculateCandidates_eq (hB.coherent b) (hB.adjacent b) hcache
    σ.transformers (filter.map (searchPredicate σ)) t
  rw [← hcalculate, heq] at hc hfaithful
  exact ⟨hc, hfaithful⟩

theorem Fresh.flushedCache {r : Replies} (h : s.Fresh σ r) :
    (s.flushedCache B).Faithful r false := by
  rw [Completion.flushedCache]
  split_ifs
  · exact fun _ hp => absurd rfl hp
  · exact h.cache

theorem Move.fresh (h : Move σ B A s s') (hB : B.Steady σ r)
    (hswitch : ∀ s b, s.Active → ¬ A s (.beginBackend b))
    (hempty : s.candidates = [] → s.candidatesCache.Empty)
    (hfresh : ∀ b, s.backend = some b → s.Fresh σ (r b)) :
    ∀ b, s'.backend = some b → s'.Fresh σ (r b) := by
  intro b hb
  cases h with
  | ended text => exact absurd hb (Option.some_ne_none b).symm
  | failed hidle hc => exact absurd (hidle.backend.symm.trans hb) (Option.some_ne_none b).symm
  | @begun b' t ignoreCase c cache manualAction manualPrefix hidle ht hcalculates hc =>
      obtain rfl : b' = b := Option.some.inj hb
      obtain ⟨forced, hpost, hcache⟩ := hcalculates.of_empty (hempty hidle.candidates)
      have hreplies : (s.setBackend b' t).replies B = B.replies b' s.text := rfl
      rw [hreplies, hB.asked_eq] at hpost hcache
      refine ⟨⟨t, none, rfl, hpost⟩, fun p hp => ?_⟩
      change cache.entry p ≠ [] at hp
      change cache.entry p = (r b').asked p
      rw [hcache, Cache.entry_cons] at hp ⊢
      split_ifs at hp ⊢ with hpt
      · rw [hpt]
      · exact absurd (hempty hidle.candidates p) hp
  | @continued t c cache hactive ht hcalculates hc =>
      obtain ⟨hcandidates, hcached⟩ := hcalculates.steady hB hb (hfresh b hb).flushedCache
      exact ⟨⟨t, none, rfl, hcandidates⟩, hcached⟩
  | takenBack hactive hcache hincremental =>
      refine ⟨(hfresh b hb).candidates, ?_⟩
      rcases hcache with rfl | ⟨t, c, hcalculates⟩
      · exact (hfresh b hb).flushedCache
      · exact (hcalculates.steady hB (show s.backend = some b from hb)
          (hfresh b hb).flushedCache).2
  | filtered hactive hcalculates hc =>
      obtain ⟨hcandidates, hcached⟩ := hcalculates.steady hB hb (hfresh b hb).cache
      obtain ⟨t, -, ht, -⟩ := (hfresh b hb).candidates
      rw [ht] at hcandidates
      exact ⟨⟨t, _, ht, hcandidates⟩, hcached⟩
  | unfiltered hactive hcalculates =>
      exact ⟨(hfresh b hb).candidates, (hcalculates.steady hB hb (hfresh b hb).cache).2⟩
  | selected changed hactive hlt => exact ⟨(hfresh b hb).candidates, (hfresh b hb).cache⟩
  | inserted hactive hpoint hlength hinsert => exact ⟨(hfresh b hb).candidates, (hfresh b hb).cache⟩
  | acted hactive => exact ⟨(hfresh b hb).candidates, (hfresh b hb).cache⟩
  | searched mode string filtering oldSelection oldChanged hmode =>
      exact ⟨(hfresh b hb).candidates, (hfresh b hb).cache⟩
  | switched hactive hallowed => exact absurd hallowed (hswitch s _ hactive)
  | edited quit hallowed => exact ⟨(hfresh b hb).candidates, (hfresh b hb).cache⟩

theorem Reachable.fresh [DecidableEq ε] (hσ : σ.KeepsSome) (hB : B.Steady σ r)
    (hswitch : ∀ s b, s.Active → ¬ A s (.beginBackend b)) (h : Reachable σ B A s) (b : ε)
    (hb : s.backend = some b) : s.Fresh σ (r b) := by
  obtain ⟨-, hfresh⟩ := h.induct (p := fun s => (s.candidates = [] → s.candidatesCache.Empty) ∧
      ∀ b, s.backend = some b → s.Fresh σ (r b))
    (fun _ _ => ⟨fun _ _ => rfl, fun b hb => absurd hb (Option.some_ne_none b).symm⟩)
    fun _ _ _ hmove hp => ⟨hmove.empty hσ hp.1, hmove.fresh hB hswitch hp.1 hp.2⟩
  exact hfresh b hb

/-- **What is shown is what asking again gives.** Let transformers never leave nothing of something
(`Settings.KeepsSome`), let each backend answer the same wherever it is asked, in time and
coherently, with equal texts together if it sorts them itself and has duplicates
(`Backends.Steady`), and let the user not begin with a backend while a completion is going on. Then
after every sequence of commands the candidates of a completion are the preprocessed answer of the
current backend to the current prefix, filtered by some search string or not, and transformed. -/
theorem candidates_eq_of_reachable [DecidableEq ε] (hσ : σ.KeepsSome) (hB : B.Steady σ r)
    (hswitch : ∀ s b, s.Active → ¬ A s (.beginBackend b)) (h : Reachable σ B A s) (hs : s.Active) :
    ∃ (b : ε) (t : List Char) (filter : Option (List Char)), s.backend = some b ∧
      s.prefixText = some t ∧ s.candidates =
      postprocessCandidates σ.transformers (filter.map (searchPredicate σ)) ((r b).asked t) := by
  obtain ⟨b, hb⟩ := Option.isSome_iff_exists.mp hs.backend
  obtain ⟨t, filter, ht, heq⟩ := (Reachable.fresh hσ hB hswitch h b hb).candidates
  exact ⟨b, t, filter, hb, ht, heq⟩

/-- The word backends are steady. -/
theorem steady_wordBackends : wordBackends.Steady (configuredSettings id) wordReplies where
  replies _ text := ⟨.text text.before, rfl⟩
  inTime _ _ _ := rfl
  coherent _ := coherent_of_allCompletions fun _ => rfl
  adjacent _ hs := absurd hs Bool.false_ne_true

theorem candidates_eq_of_reachable_session :
    let s := session ['b'] [.manualBegin, .selectNext 1]
    ∃ (b : Bool) (t : List Char) (filter : Option (List Char)), s.backend = some b ∧
      s.prefixText = some t ∧ s.candidates =
      postprocessCandidates (configuredSettings id).transformers
        (filter.map (searchPredicate (configuredSettings id))) ((wordReplies b).asked t) :=
  candidates_eq_of_reachable (A := fun s a => s.Active → ∀ b, a ≠ .beginBackend b)
    (fun _ htr => absurd htr List.not_mem_nil) steady_wordBackends (fun _ b hs ha => ha hs b rfl)
    (reachable_session _ _ (by simp))
    ⟨rfl, rfl, by decide, rfl, by decide, rfl, rfl⟩

end Completion

end DotEmacs.Company
