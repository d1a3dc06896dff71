import DotEmacs.Company.Hooks
import DotEmacs.Elisp.Sorting
import Mathlib.Data.Char
import Mathlib.Data.List.Lex

/-!
# The candidates for a prefix

What a backend answers is not shown as it is. Unless the backend says that its answer is sorted, it
is sorted by text; if the backend says that there may be duplicates, the candidates with a text and
an annotation that an earlier one has are dropped. The result is kept in a cache: when the user
types on, the candidates for the longer prefix are selected from those of the longest shorter
prefix in the cache, and the backend is not asked again. A prefix with no candidates counts as not
being in the cache at all.

The cache is right whenever the backend answers a longer prefix by a part of its answer to the
shorter one: then every query gives what asking the backend each time would have given.

Texts are lists of characters. Two candidates are `equal` when their texts are; annotations depend
on the text properties too.

## Main definitions

* `Company.Candidate`, `Company.Replies`: candidates, and what a backend replies.
* `Company.preprocessCandidates`, `Company.stripDuplicates`, `Company.postprocessCandidates`.
* `Company.calculateCandidates`: the candidates for a prefix, with the cache.
* `Company.Coherent`: the answers to longer prefixes are parts of the answers to shorter ones.

## Main results

* `Company.preprocessCandidates_spec`: one candidate is left for every text and annotation.
* `Company.calculateAll_eq`: the cache changes no query of any sequence.
-/

namespace DotEmacs.Company

open Elisp

/-! ### Backends and their replies -/

/-- A candidate: a string with its text properties. -/
structure Candidate where
  text : List Char
  /-- The text property `company-backend`. -/
  backend : Option Backend
  /-- The other text properties. -/
  properties : Obj
  deriving DecidableEq, Repr

/-- A reply to `prefix`: nil, `stop`, a string, or a cons of a string and the length that counts
for it or `t`. -/
inductive Prefix
  | nil
  | stop
  | text (s : List Char)
  | counted (s : List Char) (length : ℕ)
  | always (s : List Char)
  deriving DecidableEq, Repr

/-- `company--prefix-str`, if it is a string.

Source: `company.el`, lines 1067–1068. -/
def Prefix.str? : Prefix → Option (List Char)
  | .nil | .stop => none
  | .text s | .counted s _ | .always s => some s

/-- A reply to `ignore-case`. -/
inductive IgnoreCase
  | nil
  | t
  | keepPrefix
  deriving DecidableEq, Repr

/-- A reply to `require-match`: nil, `t`, `never`, or something else. -/
inductive RequireMatch
  | nil
  | t
  | never
  | other
  deriving DecidableEq, Repr

/-- A reply to `candidates`: a list, or a function that delivers it later. Unless company waits for
it, a late list can also come after the next input of the user. -/
inductive Answer
  | now (candidates : List Candidate)
  | later (candidates : List Candidate) (inTime : Bool)
  deriving DecidableEq, Repr

/-- The replies of a backend, in a given state of the current buffer. -/
structure Replies where
  prefixReply : Prefix
  candidates : List Char → Answer
  sorted : Bool
  duplicates : Bool
  ignoreCase : IgnoreCase
  noCache : List Char → Bool
  requireMatch : RequireMatch
  /-- The replies to the commands that take a candidate. -/
  onCandidate : Symbol → Candidate → Obj

/-- The annotation of a candidate. -/
def Replies.annotation (r : Replies) (c : Candidate) : Obj := r.onCandidate (.plain "annotation") c

/-- Whether company lets case decide when it compares texts. -/
def IgnoreCase.toBool (i : IgnoreCase) : Bool := i ≠ .nil

/-! ### Sorting and removing duplicates -/

section Preprocess

variable (r : Replies)

/-- The loop of `company--strip-duplicates` behind the candidate `str`, which is kept. The
annotations `annos` of the candidates kept so far with that text are looked up late.

Source: `company.el`, lines 1304–1322. -/
def stripAfter (str : Candidate) (annos : Option (List Obj)) : List Candidate → List Candidate
  | [] => []
  | str2 :: c2 =>
      if str.text ≠ str2.text then str2 :: stripAfter str2 none c2
      else
        let annos' := annos.getD [r.annotation str]
        if r.annotation str2 ∈ annos' then stripAfter str (some annos') c2
        else str2 :: stripAfter str2 (some (r.annotation str2 :: annos')) c2

/-- `company--strip-duplicates`.

Source: `company.el`, lines 1301–1322. -/
def stripDuplicates : List Candidate → List Candidate
  | [] => []
  | str :: c2 => str :: stripAfter r str none c2

/-- `company--preprocess-candidates`.

Source: `company.el`, lines 1286–1292. -/
def preprocessCandidates (candidates : List Candidate) : List Candidate :=
  let candidates :=
    if r.sorted then candidates else sort (fun c d => c.text < d.text) candidates
  if r.duplicates then stripDuplicates r candidates else candidates

/-- What distinguishes candidates for the user. -/
def Replies.key (c : Candidate) : List Char × Obj := (c.text, r.annotation c)

/-- Equal texts stand next to each other. -/
def Adjacent : List Candidate → Prop
  | [] => True
  | c :: l =>
      (∀ d ∈ l.head?, d.text ≠ c.text → ∀ e ∈ l, e.text ≠ c.text) ∧ Adjacent l

variable {r} {str : Candidate} {annos : Option (List Obj)} {l : List Candidate}

theorem stripAfter_sublist : (stripAfter r str annos l).Sublist l := by
  fun_induction stripAfter r str annos l with
  | case1 => exact List.Sublist.refl _
  | case2 str annos str2 c2 hne ih => exact ih.cons_cons str2
  | case3 str annos str2 c2 heq annos' hmem ih => exact ih.cons str2
  | case4 str annos str2 c2 heq annos' hmem ih => exact ih.cons_cons str2

theorem stripDuplicates_sublist : (stripDuplicates r l).Sublist l := by
  cases l with
  | nil => exact List.Sublist.refl _
  | cons str c2 => exact stripAfter_sublist.cons_cons str

/-- Behind a kept candidate, the first candidate with a given text and annotation stays, unless
one with these has been kept already. -/
theorem find?_stripAfter {k : List Char × Obj}
    (hk : k.1 = str.text → k.2 ∉ annos.getD [r.annotation str]) :
    (stripAfter r str annos l).find? (r.key · = k) = l.find? (r.key · = k) := by
  fun_induction stripAfter r str annos l with
  | case1 => rfl
  | case2 str annos str2 c2 hne ih =>
      by_cases hkey : r.key str2 = k
      · simp [hkey]
      · simp only [List.find?_cons, decide_eq_false hkey]
        exact ih fun htext hanno => hkey (Prod.ext htext.symm (List.mem_singleton.mp hanno).symm)
  | case3 str annos str2 c2 heq annos' hmem ih =>
      have hkey : r.key str2 ≠ k := by
        rintro rfl
        exact hk (not_not.mp heq).symm hmem
      rw [List.find?_cons_of_neg (by simpa using hkey)]
      exact ih hk
  | case4 str annos str2 c2 heq annos' hmem ih =>
      by_cases hkey : r.key str2 = k
      · simp [hkey]
      · simp only [List.find?_cons, decide_eq_false hkey]
        refine ih fun htext hanno => ?_
        rcases List.mem_cons.mp hanno with hanno | hanno
        · exact hkey (Prod.ext htext.symm hanno.symm)
        · exact hk (htext.trans (not_not.mp heq).symm) hanno

/-- The first candidate with a given text and annotation stays. -/
theorem find?_stripDuplicates (k : List Char × Obj) :
    (stripDuplicates r l).find? (r.key · = k) = l.find? (r.key · = k) := by
  cases l with
  | nil => rfl
  | cons str c2 =>
      by_cases hkey : r.key str = k
      · simp [stripDuplicates, hkey]
      · rw [stripDuplicates, List.find?_cons_of_neg (by simpa using hkey),
          List.find?_cons_of_neg (by simpa using hkey)]
        exact find?_stripAfter fun htext hanno =>
          hkey (Prod.ext htext.symm (List.mem_singleton.mp hanno).symm)

/-- Preprocessing adds no candidates. -/
theorem mem_of_mem_preprocessCandidates {c : Candidate} (h : c ∈ preprocessCandidates r l) :
    c ∈ l := by
  cases hs : r.sorted <;> cases hd : r.duplicates <;>
    simp only [preprocessCandidates, hs, hd, if_true, Bool.false_eq_true, if_false] at h
  · exact (mem_sort _ _).mp h
  · exact (mem_sort _ _).mp (stripDuplicates_sublist.subset h)
  · exact h
  · exact stripDuplicates_sublist.subset h

/-- Candidates that are sorted and without duplicates are left as they are. -/
theorem preprocessCandidates_eq_self (hsorted : r.sorted = true)
    (hduplicates : r.duplicates = false) (l : List Candidate) : preprocessCandidates r l = l := by
  simp [preprocessCandidates, hsorted, hduplicates]

/-! Removing duplicates that stand next to each other -/

theorem Adjacent.of_cons_cons {c d : Candidate} (h : Adjacent (c :: d :: l))
    (htext : c.text = d.text) : Adjacent (c :: l) := by
  obtain ⟨-, hd, hl⟩ := h
  refine ⟨?_, hl⟩
  rw [htext]
  exact hd

/-- Behind a candidate with another text, a text does not come again. -/
theorem Adjacent.text_ne {c d e : Candidate} (h : Adjacent (c :: d :: l))
    (htext : c.text ≠ d.text) (he : e ∈ l) : e.text ≠ c.text :=
  h.1 d rfl htext.symm e (List.mem_cons_of_mem d he)

/-- A list sorted by text has equal texts next to each other. -/
theorem adjacent_of_pairwise (h : l.Pairwise fun c d => ¬ d.text < c.text) : Adjacent l := by
  induction l with
  | nil => trivial
  | cons c l ih =>
      rw [List.pairwise_cons] at h
      refine ⟨fun d hd hne e he heq => ?_, ih h.2⟩
      obtain ⟨m, rfl⟩ : ∃ m, l = d :: m := by
        cases l with
        | nil => simp at hd
        | cons d' m => exact ⟨m, by simpa using hd⟩
      have hcd : c.text < d.text := lt_of_le_of_ne (not_lt.mp (h.1 d List.mem_cons_self)) hne.symm
      rcases List.mem_cons.mp he with rfl | hm
      · exact hne heq
      · exact (List.rel_of_pairwise_cons h.2 hm) (heq ▸ hcd)

theorem nodup_stripAfter (annos : Option (List Obj)) (h : Adjacent (str :: l)) :
    (∀ c ∈ stripAfter r str annos l, c.text = str.text →
      r.annotation c ∉ annos.getD [r.annotation str]) ∧
    ((stripAfter r str annos l).map r.key).Nodup := by
  fun_induction stripAfter r str annos l with
  | case1 => simp
  | case2 str annos str2 c2 hne ih =>
      obtain ⟨hnew, hnodup⟩ := ih h.2
      constructor
      · intro c hc htext
        rcases List.mem_cons.mp hc with rfl | hc
        · exact absurd htext.symm hne
        · exact absurd htext (h.text_ne hne (stripAfter_sublist.subset hc))
      · rw [List.map_cons, List.nodup_cons]
        refine ⟨fun hmem => ?_, hnodup⟩
        obtain ⟨c, hc, hkey⟩ := List.mem_map.mp hmem
        exact hnew c hc (Prod.ext_iff.mp hkey).1 (List.mem_singleton.mpr (Prod.ext_iff.mp hkey).2)
  | case3 str annos str2 c2 heq annos' hmem ih => exact ih (h.of_cons_cons (not_not.mp heq))
  | case4 str annos str2 c2 heq annos' hmem ih =>
      obtain ⟨hnew, hnodup⟩ := ih h.2
      constructor
      · intro c hc htext
        rcases List.mem_cons.mp hc with rfl | hc
        · exact hmem
        · exact fun hanno =>
            hnew c hc (htext.trans (not_not.mp heq)) (List.mem_cons_of_mem _ hanno)
      · rw [List.map_cons, List.nodup_cons]
        refine ⟨fun hmem => ?_, hnodup⟩
        obtain ⟨c, hc, hkey⟩ := List.mem_map.mp hmem
        refine hnew c hc (Prod.ext_iff.mp hkey).1 ?_
        exact List.mem_cons.mpr (Or.inl (Prod.ext_iff.mp hkey).2)

/-- No two candidates that are left have the same text and annotation. -/
theorem nodup_stripDuplicates (h : Adjacent l) : ((stripDuplicates r l).map r.key).Nodup := by
  cases l with
  | nil => exact List.nodup_nil
  | cons str c2 =>
      obtain ⟨hnew, hnodup⟩ := nodup_stripAfter (r := r) none h
      rw [stripDuplicates, List.map_cons, List.nodup_cons]
      refine ⟨fun hmem => ?_, hnodup⟩
      obtain ⟨c, hc, hkey⟩ := List.mem_map.mp hmem
      exact hnew c hc (Prod.ext_iff.mp hkey).1 (List.mem_singleton.mpr (Prod.ext_iff.mp hkey).2)

theorem stripAfter_of_forall_ne (h : ∀ c ∈ l, c.text ≠ str.text) :
    stripAfter r str annos l = stripDuplicates r l := by
  cases l with
  | nil => rfl
  | cons str2 c2 => exact if_pos (h str2 List.mem_cons_self).symm

/-- To remove duplicates and then select by text is to select and then remove duplicates. -/
theorem filter_stripAfter (p : List Char → Bool) (h : Adjacent (str :: l)) :
    (stripAfter r str annos l).filter (p ·.text) =
      if p str.text then stripAfter r str annos (l.filter (p ·.text))
      else stripDuplicates r (l.filter (p ·.text)) := by
  fun_induction stripAfter r str annos l with
  | case1 => simp [stripAfter, stripDuplicates]
  | case2 str annos str2 c2 hne ih =>
      rw [List.filter_cons, ih h.2, List.filter_cons]
      by_cases hp : p str2.text
      · simp [hp, stripAfter, stripDuplicates, hne]
      · have hbehind : ∀ c ∈ c2.filter (p ·.text), c.text ≠ str.text := fun c hc =>
          h.text_ne hne (List.mem_filter.mp hc).1
        simp [hp, stripAfter_of_forall_ne hbehind]
  | case3 str annos str2 c2 heq annos' hmem ih =>
      have hp2 : p str2.text = p str.text := congrArg p (not_not.mp heq).symm
      rw [ih (h.of_cons_cons (not_not.mp heq)), List.filter_cons, hp2]
      by_cases hp : p str.text
      · simp only [hp, if_true]
        rw [stripAfter, if_neg heq]
        exact (if_pos hmem).symm
      · simp [hp]
  | case4 str annos str2 c2 heq annos' hmem ih =>
      have hp2 : p str2.text = p str.text := congrArg p (not_not.mp heq).symm
      rw [List.filter_cons, ih h.2, List.filter_cons, hp2]
      by_cases hp : p str.text
      · simp only [hp, if_true]
        rw [stripAfter, if_neg heq]
        exact (if_neg hmem).symm
      · simp [hp]

theorem filter_stripDuplicates (p : List Char → Bool) (h : Adjacent l) :
    (stripDuplicates r l).filter (p ·.text) = stripDuplicates r (l.filter (p ·.text)) := by
  cases l with
  | nil => rfl
  | cons str c2 =>
      rw [stripDuplicates, List.filter_cons, filter_stripAfter p h, List.filter_cons]
      by_cases hp : p str.text <;> simp [hp, stripDuplicates]

/-- **Preprocessing leaves one candidate for every text and annotation.** If the backend leaves
the sorting to company and says that there may be duplicates, the result is sorted by text, no two
of its candidates have the same text and annotation, and for each text and annotation it contains
the first candidate of the answer with these, if there is any. -/
theorem preprocessCandidates_spec (l : List Candidate) (hsorted : r.sorted = false)
    (hduplicates : r.duplicates = true) :
    (preprocessCandidates r l).Pairwise (fun c d => ¬ d.text < c.text) ∧
    ((preprocessCandidates r l).map r.key).Nodup ∧
    ∀ k, (preprocessCandidates r l).find? (r.key · = k) = l.find? (r.key · = k) := by
  have hpairwise := pairwise_sort (fun c d : Candidate => c.text < d.text) l
  simp only [preprocessCandidates, hsorted, hduplicates, if_true, Bool.false_eq_true, if_false]
  refine ⟨hpairwise.sublist stripDuplicates_sublist,
    nodup_stripDuplicates (adjacent_of_pairwise hpairwise), fun k => ?_⟩
  rw [find?_stripDuplicates, ← List.head?_filter, filter_sort, ← List.head?_filter, sort_eq_self]
  refine List.pairwise_of_forall_mem_list fun c hc d hd => ?_
  have htext : c.text = d.text := by
    have hkey := (of_decide_eq_true (List.mem_filter.mp hc).2).trans
      (of_decide_eq_true (List.mem_filter.mp hd).2).symm
    exact (Prod.ext_iff.mp hkey).1
  rw [htext]
  exact lt_irrefl _

theorem preprocessCandidates_spec_ab :
    let r : Replies := ⟨.nil, fun _ => .now [], false, true, .nil, fun _ => false, .nil,
      fun _ c => c.properties⟩
    let b : Candidate := ⟨['b'], none, .nil⟩
    let a : Candidate := ⟨['a'], none, .nil⟩
    (preprocessCandidates r [b, a, b]).Pairwise (fun c d => ¬ d.text < c.text) ∧
    ((preprocessCandidates r [b, a, b]).map r.key).Nodup ∧
    ∀ k, (preprocessCandidates r [b, a, b]).find? (r.key · = k) = [b, a, b].find? (r.key · = k) :=
  preprocessCandidates_spec _ rfl rfl

/-- To preprocess and then select by text is to select and then preprocess, if a backend that sorts
the candidates itself keeps equal texts together. -/
theorem filter_preprocessCandidates (p : List Char → Bool)
    (h : r.sorted = true → r.duplicates = true → Adjacent l) :
    (preprocessCandidates r l).filter (p ·.text) =
      preprocessCandidates r (l.filter (p ·.text)) := by
  have hpairwise := pairwise_sort (fun c d : Candidate => c.text < d.text) l
  cases hs : r.sorted <;> cases hd : r.duplicates <;>
    simp only [preprocessCandidates, hs, hd, if_true, Bool.false_eq_true, if_false]
  · exact filter_sort _ _ l
  · rw [filter_stripDuplicates p (adjacent_of_pairwise hpairwise), filter_sort]
  · exact filter_stripDuplicates p (h hs hd)

end Preprocess

/-! ### The cache -/

section Calculate

variable (upcase : Char → Char) (transformers : List (List Candidate → List Candidate))
variable (r : Replies) (forced ignoreCase : Bool)

/-- `company--fetch-candidates`. Company waits for a late list if it must; otherwise it gives up
on the next input, and takes the answer for empty.

Source: `company.el`, lines 1252–1279. -/
def fetchCandidates (prefixText : List Char) : List Candidate :=
  match r.candidates prefixText with
  | .now c => c
  | .later c inTime => if forced || inTime then c else []

/-- Whether a text begins with a prefix, in the way in which `all-completions` compares them. -/
def startsWith (prefixText text : List Char) : Bool :=
  if ignoreCase then (prefixText.map upcase).isPrefixOf (text.map upcase)
  else prefixText.isPrefixOf text

/-- `all-completions`, on a list of strings. -/
def allCompletions (prefixText : List Char) (l : List Candidate) : List Candidate :=
  l.filter (startsWith upcase ignoreCase prefixText ·.text)

/-- `company--postprocess-candidates`, with `company--transform-candidates`.

Source: `company.el`, lines 1294–1299 and 1324–1328. -/
def postprocessCandidates (predicate : Option (Candidate → Bool)) (candidates : List Candidate) :
    List Candidate :=
  transformers.foldl (fun c tr => tr c) (match predicate with
    | some p => candidates.filter p
    | none => candidates)

/-- The values of `company-candidates-cache`. -/
abbrev Cache := List (List Char × List Candidate)

/-- The candidates that a cache has for a prefix; none if it has none. -/
def Cache.entry (cache : Cache) (prefixText : List Char) : List Candidate :=
  (cache.lookup prefixText).getD []

/-- The candidates for the longest part of a prefix that the cache has candidates for.

Source: `company.el`, lines 1227–1233. -/
def Cache.longest (cache : Cache) (prefixText : List Char) : Option (List Candidate) :=
  (List.range (prefixText.length + 1)).findSome? fun i =>
    let prev := cache.entry (prefixText.take (prefixText.length - i))
    if prev = [] then none else some prev

/-- `company-calculate-candidates`.

Source: `company.el`, lines 1223–1242. -/
def calculateCandidates (predicate : Option (Candidate → Bool)) (prefixText : List Char)
    (cache : Cache) : List Candidate × Cache :=
  if cache.entry prefixText ≠ [] then
    (postprocessCandidates transformers predicate (cache.entry prefixText), cache)
  else
    match cache.longest prefixText with
    | some prev =>
        let candidates := allCompletions upcase ignoreCase prefixText prev
        (postprocessCandidates transformers predicate candidates, cache)
    | none =>
        let candidates := preprocessCandidates r (fetchCandidates r forced prefixText)
        (postprocessCandidates transformers predicate candidates,
          (prefixText, candidates) :: cache)

/-- The results of a sequence of queries, each a prefix with a predicate, and the cache that they
leave. -/
def calculateAll : List (List Char × Option (Candidate → Bool)) → Cache →
    List (List Candidate) × Cache
  | [], cache => ([], cache)
  | (prefixText, predicate) :: queries, cache =>
      let (result, cache') :=
        calculateCandidates upcase transformers r forced ignoreCase predicate prefixText cache
      let (results, cache'') := calculateAll queries cache'
      (result :: results, cache'')

/-- The answer for a longer prefix consists of those candidates of the answer for a shorter one
that begin with the longer prefix. -/
def Coherent : Prop :=
  ∀ p q, p <+: q → fetchCandidates r forced q =
    allCompletions upcase ignoreCase q (fetchCandidates r forced p)

/-- Every entry of a cache is what asking the backend gives. -/
def Cache.Faithful (cache : Cache) : Prop :=
  ∀ p, cache.entry p ≠ [] → cache.entry p = preprocessCandidates r (fetchCandidates r forced p)

variable {upcase transformers r forced ignoreCase} {cache : Cache} {p q : List Char}

theorem startsWith_mono {text : List Char} (hpq : p <+: q)
    (h : startsWith upcase ignoreCase q text = true) :
    startsWith upcase ignoreCase p text = true := by
  rw [startsWith] at h ⊢
  split_ifs at h ⊢
  · rw [List.isPrefixOf_iff_prefix] at h ⊢
    exact (hpq.map upcase).trans h
  · rw [List.isPrefixOf_iff_prefix] at h ⊢
    exact hpq.trans h

/-- A backend that always selects from one list by the prefix is coherent. -/
theorem coherent_of_allCompletions {l : List Candidate}
    (h : ∀ p, fetchCandidates r forced p = allCompletions upcase ignoreCase p l) :
    Coherent upcase r forced ignoreCase := by
  intro p q hpq
  rw [h p, h q]
  simp only [allCompletions, List.filter_filter]
  refine List.filter_congr fun c _ => ?_
  cases hq : startsWith upcase ignoreCase q c.text
  · rfl
  · rw [startsWith_mono hpq hq]
    rfl

/-- What is found for a part of a prefix is an entry for some part of it. -/
theorem Cache.exists_of_longest {prev : List Candidate} (h : cache.longest p = some prev) :
    ∃ q, q <+: p ∧ cache.entry q = prev ∧ prev ≠ [] := by
  obtain ⟨i, -, hi⟩ := List.exists_of_findSome?_eq_some h
  refine ⟨p.take (p.length - i), List.take_prefix _ _, ?_⟩
  by_cases hprev : cache.entry (p.take (p.length - i)) = []
  · simp [hprev] at hi
  · simp only [hprev, if_false, Option.some.injEq] at hi
    exact ⟨hi, hi ▸ hprev⟩

theorem Cache.entry_cons (c : List Candidate) :
    Cache.entry ((p, c) :: cache) q = if q = p then c else cache.entry q := by
  by_cases h : q = p
  · simp [Cache.entry, h]
  · simp [Cache.entry, List.lookup_cons, beq_false_of_ne h, h]

/-- One query on a faithful cache gives what asking the backend gives, and leaves the cache
faithful. -/
theorem calculateCandidates_eq (hcoherent : Coherent upcase r forced ignoreCase)
    (hadjacent : r.sorted = true → r.duplicates = true → ∀ p, Adjacent (fetchCandidates r forced p))
    (hcache : cache.Faithful r forced) (transformers : List (List Candidate → List Candidate))
    (predicate : Option (Candidate → Bool)) (p : List Char) :
    (calculateCandidates upcase transformers r forced ignoreCase predicate p cache).1 =
        postprocessCandidates transformers predicate
          (preprocessCandidates r (fetchCandidates r forced p)) ∧
      (calculateCandidates upcase transformers r forced ignoreCase predicate p
        cache).2.Faithful r forced := by
  rw [calculateCandidates]
  split_ifs with hentry
  · exact ⟨by rw [hcache p hentry], hcache⟩
  · cases hlongest : cache.longest p with
    | some prev =>
        obtain ⟨q, hqp, hq, hprev⟩ := Cache.exists_of_longest hlongest
        have hpre : allCompletions upcase ignoreCase p prev =
            preprocessCandidates r (fetchCandidates r forced p) := by
          rw [← hq, hcache q (hq ▸ hprev), allCompletions,
            filter_preprocessCandidates _ fun hs hd => hadjacent hs hd q, hcoherent q p hqp]
          rfl
        exact ⟨congrArg (postprocessCandidates transformers predicate) hpre, hcache⟩
    | none =>
        refine ⟨rfl, fun q hq => ?_⟩
        rw [Cache.entry_cons] at hq ⊢
        split_ifs at hq ⊢ with hqp
        · rw [hqp]
        · exact hcache q hq

/-- **The cache changes no query.** Whatever prefixes the user comes to and whatever predicates
are in force on the way, every query gives what asking the backend again would give, if the
answers are coherent, and if a backend that sorts them itself and has duplicates keeps equal texts
together. -/
theorem calculateAll_eq (hcoherent : Coherent upcase r forced ignoreCase)
    (hadjacent : r.sorted = true → r.duplicates = true → ∀ p, Adjacent (fetchCandidates r forced p))
    (queries : List (List Char × Option (Candidate → Bool))) :
    (calculateAll upcase transformers r forced ignoreCase queries []).1 =
      queries.map fun q => postprocessCandidates transformers q.2
        (preprocessCandidates r (fetchCandidates r forced q.1)) := by
  suffices h : ∀ cache : Cache, cache.Faithful r forced →
      (calculateAll upcase transformers r forced ignoreCase queries cache).1 =
        queries.map fun q => postprocessCandidates transformers q.2
          (preprocessCandidates r (fetchCandidates r forced q.1)) from
    h [] fun _ hp => absurd rfl hp
  induction queries with
  | nil => exact fun _ _ => rfl
  | cons q queries ih =>
      intro cache hcache
      obtain ⟨heq, hfaithful⟩ :=
        calculateCandidates_eq hcoherent hadjacent hcache transformers q.2 q.1
      rw [calculateAll, List.map_cons, ← ih _ hfaithful, ← heq]

/-- A backend that selects from `ab` and `ba`. -/
def selectingReplies : Replies where
  prefixReply := .nil
  candidates p := .now <|
    allCompletions id false p [⟨['a', 'b'], none, .nil⟩, ⟨['b', 'a'], none, .nil⟩]
  sorted := false
  duplicates := true
  ignoreCase := .nil
  noCache _ := false
  requireMatch := .nil
  onCandidate _ _ := .nil

theorem calculateAll_selectingReplies :
    (calculateAll id [] selectingReplies false false [(['b'], none), (['b', 'a'], none)] []).1 =
      [(['b'], none), (['b', 'a'], none)].map fun q => postprocessCandidates [] q.2
        (preprocessCandidates selectingReplies (fetchCandidates selectingReplies false q.1)) :=
  calculateAll_eq (coherent_of_allCompletions fun _ => rfl)
    (fun hs => absurd hs Bool.false_ne_true) _

/-- Typing on behind `b` is answered from the cache, which still has its one entry. -/
example : calculateAll id [] selectingReplies false false [(['b'], none), (['b', 'a'], none)] [] =
    ([[⟨['b', 'a'], none, .nil⟩], [⟨['b', 'a'], none, .nil⟩]],
      [(['b'], [⟨['b', 'a'], none, .nil⟩])]) := by
  decide

end Calculate

end DotEmacs.Company
