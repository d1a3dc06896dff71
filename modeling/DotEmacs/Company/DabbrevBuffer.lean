import DotEmacs.Company.DabbrevSearch
import DotEmacs.Elisp.Occurrences
import Mathlib.Data.List.Flatten
import Mathlib.Data.List.Perm.Subperm

/-!
# The symbols that completion finds in a buffer

`company-dabbrev--search-buffer` looks for a regexp in two passes. Before point it goes backward
through the buffer in chunks of about 10000 characters that begin with a line, and forward in each
chunk; then it goes on behind point. Within comments and strings it skips to behind the next
character that can end one. It gives up when there is input or when time is over.

With the regexp of `company-dabbrev-code` the passes find together just what a single look at the
whole buffer finds: each symbol that begins with the prefix and is long enough, as often as it
occurs outside of comments and strings, but not the one at point. What comes in between can only
take some of them away.

## Main definitions

* `Company.SearchedBuffer`: a buffer, a regexp, and what else the search asks.
* `Company.companyDabbrevSearchBuffer`: the search.
* `Company.CodeBuffer`, `Company.companyDabbrevCodeCandidates`: the symbols of code.

## Main results

* `Company.companyDabbrevCodeCandidates_perm`: what is found when nothing interrupts the search.
* `Company.companyDabbrevCodeCandidates_subperm`: what is found anyhow.
-/

namespace DotEmacs.Company

open Elisp

/-! ### The search of one buffer -/

/-- A buffer as the search sees it, with its options, and a regexp: where a match ends that begins
at a position. -/
structure SearchedBuffer where
  text : List Char
  matchAt : ℕ → Option ℕ
  /-- A match of the regexp `\s>\|\s!\|\s"`. -/
  delimiter : Char → Bool
  /-- `company-in-string-or-comment` at a position. -/
  inStringOrComment : ℕ → Bool
  /-- Whether `company-dabbrev-ignore-invisible` is set and the text behind a position invisible. -/
  ignoredInvisible : ℕ → Bool
  /-- `company-dabbrev-minimum-length`. -/
  minimumLength : ℕ
  ignoreComments : Bool

/-- The points at which the search asks whether there is input or whether time is over. -/
inductive Check
  | chunkInput (tmpEnd : ℕ)
  | inputBefore (tmpEnd point : ℕ)
  | chunkTime (tmpEnd : ℕ)
  | inputBehind (point : ℕ)
  | timeBehind (counter point : ℕ)

namespace SearchedBuffer

variable (S : SearchedBuffer)

/-- `(buffer-substring-no-properties start end)`. -/
def substring (i e : ℕ) : List Char := (S.text.take e).drop i

/-- Whether `maybe-collect-match` takes a match.

Source: `company-dabbrev.el`, lines 111–117. -/
def takesMatch (i e : ℕ) : Bool :=
  S.minimumLength ≤ (S.substring i e).length && ! S.ignoredInvisible i

/-- `(re-search-forward "\\s>\\|\\s!\\|\\s\"" bound t)`: the position where it leaves point. -/
def skipDelimiter (point bound : ℕ) : ℕ :=
  match (List.range' point (bound - point)).find? fun d => S.text[d]?.any S.delimiter with
  | some d => d + 1
  | none => point

/-- Where the search goes on behind a match: in a comment or a string, behind a delimiter.

Source: `company-dabbrev.el`, lines 133–134 and 142–143. -/
def resume (e bound : ℕ) : ℕ :=
  if S.ignoreComments && S.inStringOrComment e then S.skipDelimiter e bound else e

/-- Whether a match is collected, if the search comes to it.

Source: `company-dabbrev.el`, lines 133–135 and 142–144. -/
def keeps (x : ℕ × ℕ) : Bool :=
  ! (S.ignoreComments && S.inStringOrComment x.2) && S.takesMatch x.1 x.2

/-- Both loops over the matches up to a bound: `stop` is what their condition asks first, and
`late` what `company-dabbrev--time-limit-while` asks behind, with the number of matches.

Source: `company-dabbrev.el`, lines 93–103, 131–135 and 139–144. -/
def collect (stop : ℕ → Bool) (late : ℕ → ℕ → Bool) (bound : ℕ) :
    ℕ → ℕ → ℕ → List (List Char) → List (List Char)
  | 0, _, _, symbols => symbols
  | fuel + 1, counter, point, symbols =>
      if stop point then symbols
      else match reSearchForward S.matchAt point bound with
        | none => symbols
        | some (i, e) =>
            let point := S.resume e bound
            let symbols := if S.keeps (i, e) then S.substring i e :: symbols else symbols
            if late (counter + 1) point then symbols
            else collect stop late bound fuel (counter + 1) point symbols

/-- `(forward-line 0)` at a position: the beginning of its line. -/
def lineBeginning (k : ℕ) : ℕ :=
  k - ((S.text.take k).reverse.takeWhile (· ≠ '\n')).length

/-- The chunk that ends at a position begins here.

Source: `company-dabbrev.el`, lines 124–126. -/
def chunkBeginning (tmpEnd : ℕ) : ℕ := S.lineBeginning (tmpEnd - 10000)

/-- The loop over the chunks before a position.

Source: `company-dabbrev.el`, lines 119–136. -/
def searchBefore (stops : Check → Bool) : ℕ → ℕ → List (List Char) → List (List Char)
  | 0, _, symbols => symbols
  | fuel + 1, tmpEnd, symbols =>
      if stops (.chunkInput tmpEnd) || tmpEnd = 0 then symbols
      else
        let point := S.chunkBeginning tmpEnd
        let symbols := S.collect (fun point => stops (.inputBefore tmpEnd point))
          (fun _ _ => false) tmpEnd (tmpEnd - point) 0 point symbols
        if stops (.chunkTime point) then symbols
        else searchBefore stops fuel point symbols

end SearchedBuffer

/-- `company-dabbrev--search-buffer`. Time is asked for behind every 25th match.

Source: `company-dabbrev.el`, lines 108–145. -/
def companyDabbrevSearchBuffer (S : SearchedBuffer) (stops : Check → Bool) (pos : Option ℕ)
    (symbols : List (List Char)) : List (List Char) :=
  let start := (pos.map (· - 1)).getD 0
  let symbols := S.searchBefore stops start start symbols
  let point := pos.getD 0
  S.collect (fun point => stops (.inputBehind point))
    (fun counter point => counter % 25 = 0 && stops (.timeBehind counter point))
    S.text.length (S.text.length - point) 0 point symbols

/-! ### What it finds -/

namespace SearchedBuffer

variable (S : SearchedBuffer)

/-- The occurrences that are to be collected from a position to a bound. -/
def wanted (p b : ℕ) : List (List Char) :=
  ((occurrences S.matchAt p b).filter S.keeps).map fun x => S.substring x.1 x.2

/-- The regexp matches whole pieces of lines: the matches do not overlap, and no newlines and no
delimiters are in them. -/
structure Piecewise : Prop where
  separate : Separate S.matchAt
  le_length : ∀ i e, S.matchAt i = some e → e ≤ S.text.length
  newline : ∀ i e k, S.matchAt i = some e → i ≤ k → k < e → S.text[k]? ≠ some '\n'
  delimiter : ∀ i e k, S.matchAt i = some e → i ≤ k → k < e →
    S.text[k]?.any S.delimiter = false

/-- Comments and strings, if they are ignored, go on up to the next delimiter. -/
def EndsAtDelimiters : Prop :=
  S.ignoreComments = true → ∀ e d, S.inStringOrComment e = true → e ≤ d →
    (∀ k, e ≤ k → k < d → S.text[k]?.any S.delimiter = false) → S.inStringOrComment d = true

variable {S} {p q b e fuel counter tmpEnd : ℕ} {symbols : List (List Char)}

theorem wanted_append (hpq : p ≤ q) (hqb : q ≤ b)
    (h : ∀ i e, p ≤ i → i < q → S.matchAt i = some e → e ≤ b → e ≤ q) :
    S.wanted p b = S.wanted p q ++ S.wanted q b := by
  rw [wanted, occurrences_append hpq hqb h, List.filter_append, List.map_append]
  rfl

theorem wanted_sublist (hpq : p ≤ q) : (S.wanted q b).Sublist (S.wanted p b) :=
  ((occurrences_sublist hpq).filter _).map _

theorem wanted_of_search_eq_none (h : reSearchForward S.matchAt p b = none) :
    S.wanted p b = [] := by
  rw [wanted, occurrences_eq_nil_of_search h]
  rfl

theorem Piecewise.wanted_of_search (hS : S.Piecewise) {i : ℕ}
    (h : reSearchForward S.matchAt p b = some (i, e)) :
    S.wanted p b = if S.keeps (i, e) then S.substring i e :: S.wanted e b else S.wanted e b := by
  obtain ⟨-, -, -, -, heq⟩ := hS.separate.occurrences_eq_cons h
  rw [wanted, heq, List.filter_cons]
  split_ifs with hkeeps
  · rfl
  · rfl

/-- The delimiter that is skipped to, if there is one. -/
theorem skipDelimiter_cases (S : SearchedBuffer) (heb : e ≤ b) : S.skipDelimiter e b = e ∨
    ∃ d, e ≤ d ∧ d < b ∧ S.skipDelimiter e b = d + 1 ∧ S.text[d]?.any S.delimiter = true ∧
      ∀ k, e ≤ k → k < d → S.text[k]?.any S.delimiter = false := by
  rw [skipDelimiter]
  cases hfind : (List.range' e (b - e)).find? fun d => S.text[d]?.any S.delimiter with
  | none => exact Or.inl rfl
  | some d =>
      obtain ⟨hd, hmem, hbefore⟩ := List.find?_range'_eq_some.mp hfind
      rw [List.mem_range'_1] at hmem
      refine Or.inr ⟨d, hmem.1, by omega, rfl, hd, fun k hk hkd => ?_⟩
      simpa using hbefore k hk hkd

theorem le_skipDelimiter (S : SearchedBuffer) (heb : e ≤ b) : e ≤ S.skipDelimiter e b := by
  rcases S.skipDelimiter_cases heb with h | ⟨d, hed, -, h, -⟩
  · exact h.ge
  · omega

/-- Nothing outside of comments and strings is skipped. -/
theorem Piecewise.wanted_skipDelimiter (hS : S.Piecewise) (hends : S.EndsAtDelimiters)
    (heb : e ≤ b) (hignore : S.ignoreComments = true) (he : S.inStringOrComment e = true) :
    S.wanted (S.skipDelimiter e b) b = S.wanted e b := by
  rcases S.skipDelimiter_cases heb with h | ⟨d, hed, hdb, h, hdelimiter, hnone⟩
  · rw [h]
  · have hbefore : ∀ i e', e ≤ i → i < d + 1 → S.matchAt i = some e' → e' ≤ d := by
      intro i e' _ hid hmatch
      by_contra hde
      rw [hS.delimiter i e' d hmatch (by omega) (by omega)] at hdelimiter
      exact Bool.false_ne_true hdelimiter
    have hnil : S.wanted e (d + 1) = [] := by
      rw [wanted, List.map_eq_nil_iff, List.filter_eq_nil_iff]
      rintro ⟨i, e'⟩ hmem
      obtain ⟨hei, hid, hmatch, -⟩ := mem_occurrences.mp hmem
      have hlt := hS.separate.lt i e' hmatch
      have hle := hbefore i e' hei hid hmatch
      have hin := hends hignore e e' he (by omega) fun k hk hke => hnone k hk (by omega)
      simp [keeps, hignore, hin]
    rw [h, wanted_append (p := e) (q := d + 1) (by omega) hdb, hnil, List.nil_append]
    exact fun i e' hi hid hmatch _ => (hbefore i e' hi hid hmatch).trans (Nat.le_succ d)

theorem le_resume (S : SearchedBuffer) (heb : e ≤ b) : e ≤ S.resume e b := by
  rw [resume]
  split_ifs
  · exact S.le_skipDelimiter heb
  · exact le_rfl

theorem Piecewise.wanted_resume (hS : S.Piecewise) (hends : S.EndsAtDelimiters) (heb : e ≤ b) :
    S.wanted (S.resume e b) b = S.wanted e b := by
  rw [resume]
  split_ifs with h
  · rw [Bool.and_eq_true] at h
    exact hS.wanted_skipDelimiter hends heb h.1 h.2
  · rfl

/-! ### The loops -/

/-- Whatever interrupts a loop, it adds some of the occurrences up to the bound. -/
theorem Piecewise.collect_sublist (hS : S.Piecewise) (stop : ℕ → Bool) (late : ℕ → ℕ → Bool)
    (b fuel counter p : ℕ) (symbols : List (List Char)) :
    ∃ c : List (List Char), S.collect stop late b fuel counter p symbols = c.reverse ++ symbols ∧
      c.Sublist (S.wanted p b) := by
  induction fuel generalizing counter p symbols with
  | zero => exact ⟨[], rfl, List.nil_sublist _⟩
  | succ fuel ih =>
      rw [collect]
      split_ifs
      · exact ⟨[], rfl, List.nil_sublist _⟩
      cases hsearch : reSearchForward S.matchAt p b with
      | none => exact ⟨[], rfl, List.nil_sublist _⟩
      | some x =>
          obtain ⟨i, e⟩ := x
          obtain ⟨-, -, heb, -, -⟩ := hS.separate.occurrences_eq_cons hsearch
          have hrest := wanted_sublist (S := S) (b := b) (S.le_resume heb)
          obtain ⟨c, hc, hsub⟩ := ih (counter + 1) (S.resume e b)
            (if S.keeps (i, e) then S.substring i e :: symbols else symbols)
          dsimp only
          rw [hS.wanted_of_search hsearch, hc]
          split_ifs with hlate hkeeps
          · exact ⟨[S.substring i e], rfl, (List.nil_sublist _).cons_cons _⟩
          · exact ⟨[], rfl, List.nil_sublist _⟩
          · exact ⟨S.substring i e :: c, by simp, (hsub.trans hrest).cons_cons _⟩
          · exact ⟨c, rfl, hsub.trans hrest⟩

/-- A loop that nothing interrupts adds all occurrences up to the bound. -/
theorem Piecewise.collect_eq (hS : S.Piecewise) (hends : S.EndsAtDelimiters)
    {stop : ℕ → Bool} {late : ℕ → ℕ → Bool} (hstop : ∀ p, stop p = false)
    (hlate : ∀ n p, late n p = false) (b fuel counter p : ℕ) (symbols : List (List Char))
    (hfuel : b - p ≤ fuel) :
    S.collect stop late b fuel counter p symbols = (S.wanted p b).reverse ++ symbols := by
  induction fuel generalizing counter p symbols with
  | zero =>
      have hnil : S.wanted p b = [] := by
        refine wanted_of_search_eq_none ?_
        rw [reSearchForward, Nat.le_zero.mp hfuel]
        rfl
      rw [hnil]
      rfl
  | succ fuel ih =>
      rw [collect, hstop, if_neg Bool.false_ne_true]
      cases hsearch : reSearchForward S.matchAt p b with
      | none =>
          rw [wanted_of_search_eq_none hsearch]
          rfl
      | some x =>
          obtain ⟨i, e⟩ := x
          obtain ⟨hpi, hie, heb, -, -⟩ := hS.separate.occurrences_eq_cons hsearch
          have hresume := S.le_resume heb
          dsimp only
          rw [hlate, if_neg Bool.false_ne_true, ih _ _ _ (by omega), hS.wanted_resume hends heb,
            hS.wanted_of_search hsearch]
          split_ifs
          · simp
          · rfl

/-- A line begins at the beginning of the text or behind a newline. -/
theorem lineBeginning_spec (S : SearchedBuffer) {k : ℕ} (hk : k ≤ S.text.length) :
    S.lineBeginning k ≤ k ∧
      (S.lineBeginning k = 0 ∨ S.text[S.lineBeginning k - 1]? = some '\n') := by
  refine ⟨Nat.sub_le _ _, ?_⟩
  have hparts := List.takeWhile_append_dropWhile (p := (· ≠ '\n')) (l := (S.text.take k).reverse)
  have hnot := List.head?_dropWhile_not (· ≠ '\n') (S.text.take k).reverse
  rw [lineBeginning]
  generalize (S.text.take k).reverse.takeWhile (· ≠ '\n') = line at hparts ⊢
  cases hrest : (S.text.take k).reverse.dropWhile (· ≠ '\n') with
  | nil =>
      rw [hrest, List.append_nil] at hparts
      rw [hparts, List.length_reverse, List.length_take, min_eq_left hk, Nat.sub_self]
      exact Or.inl rfl
  | cons c rest =>
      rw [hrest] at hparts hnot
      have hlength := congrArg List.length hparts
      rw [List.length_append, List.length_cons, List.length_reverse, List.length_take,
        min_eq_left hk] at hlength
      have htake : S.text.take k = rest.reverse ++ c :: line.reverse := by
        rw [← List.reverse_reverse (S.text.take k), ← hparts]
        simp
      have hc : c = '\n' := by simpa using hnot
      have hplace : k - line.length - 1 = rest.reverse.length := by
        rw [List.length_reverse]
        omega
      have hlt : rest.reverse.length < k := by
        rw [List.length_reverse]
        omega
      refine Or.inr ?_
      rw [hplace, ← List.getElem?_take_of_lt hlt, htake, List.getElem?_append_right le_rfl,
        Nat.sub_self, List.getElem?_cons_zero, hc]

theorem chunkBeginning_lt (htmp : tmpEnd ≠ 0) (hlength : tmpEnd ≤ S.text.length) :
    S.chunkBeginning tmpEnd < tmpEnd := by
  have hle := (S.lineBeginning_spec (k := tmpEnd - 10000) (by omega)).1
  rw [chunkBeginning]
  omega

/-- No occurrence reaches into a chunk from before. -/
theorem Piecewise.wanted_chunk (hS : S.Piecewise) (htmp : tmpEnd ≠ 0)
    (hlength : tmpEnd ≤ S.text.length) : S.wanted 0 tmpEnd =
      S.wanted 0 (S.chunkBeginning tmpEnd) ++ S.wanted (S.chunkBeginning tmpEnd) tmpEnd := by
  refine wanted_append (Nat.zero_le _) (chunkBeginning_lt htmp hlength).le ?_
  intro i e _ hi hmatch _
  by_contra hle
  rcases (S.lineBeginning_spec (k := tmpEnd - 10000) (by omega)).2 with h | h
  · rw [chunkBeginning, h] at hi
    exact Nat.not_lt_zero i hi
  · refine hS.newline i e (S.chunkBeginning tmpEnd - 1) hmatch ?_ ?_ h
    · omega
    · omega

/-- Whatever interrupts the first pass, it adds some of the occurrences. -/
theorem Piecewise.searchBefore_subperm (hS : S.Piecewise) (stops : Check → Bool) (fuel : ℕ)
    {tmpEnd : ℕ} (hlength : tmpEnd ≤ S.text.length) (symbols : List (List Char)) :
    ∃ c : List (List Char), S.searchBefore stops fuel tmpEnd symbols = c ++ symbols ∧
      c.Subperm (S.wanted 0 tmpEnd) := by
  induction fuel generalizing tmpEnd symbols with
  | zero => exact ⟨[], rfl, List.nil_subperm⟩
  | succ fuel ih =>
      rw [searchBefore]
      by_cases hstop : stops (.chunkInput tmpEnd) = true
      · rw [hstop]
        exact ⟨[], rfl, List.nil_subperm⟩
      by_cases htmp : tmpEnd = 0
      · rw [htmp]
        exact ⟨[], by simp, List.nil_subperm⟩
      have hlt := chunkBeginning_lt htmp hlength
      obtain ⟨c, hc, hsub⟩ := hS.collect_sublist (fun point => stops (.inputBefore tmpEnd point))
        (fun _ _ => false) tmpEnd (tmpEnd - S.chunkBeginning tmpEnd) 0 (S.chunkBeginning tmpEnd)
        symbols
      have hsubperm : c.reverse.Subperm (S.wanted (S.chunkBeginning tmpEnd) tmpEnd) :=
        (List.reverse_perm c).subperm.trans hsub.subperm
      obtain ⟨c', hc', hsub'⟩ := ih (hlt.le.trans hlength) (c.reverse ++ symbols)
      rw [if_neg (by simp [hstop, htmp]), hS.wanted_chunk htmp hlength]
      dsimp only
      rw [hc]
      split_ifs
      · exact ⟨c.reverse, rfl, hsubperm.trans (List.sublist_append_right _ _).subperm⟩
      · exact ⟨c' ++ c.reverse, by rw [hc', List.append_assoc], hsub'.append hsubperm⟩

/-- A first pass that nothing interrupts adds all occurrences. -/
theorem Piecewise.searchBefore_perm (hS : S.Piecewise) (hends : S.EndsAtDelimiters)
    {stops : Check → Bool} (hstops : ∀ check, stops check = false) (fuel : ℕ) {tmpEnd : ℕ}
    (hlength : tmpEnd ≤ S.text.length) (hfuel : tmpEnd ≤ fuel) (symbols : List (List Char)) :
    ∃ c : List (List Char), S.searchBefore stops fuel tmpEnd symbols = c ++ symbols ∧
      c.Perm (S.wanted 0 tmpEnd) := by
  have hnil : S.wanted 0 0 = [] := rfl
  induction fuel generalizing tmpEnd symbols with
  | zero =>
      obtain rfl := Nat.le_zero.mp hfuel
      exact ⟨[], rfl, hnil ▸ List.Perm.refl _⟩
  | succ fuel ih =>
      rw [searchBefore]
      by_cases htmp : tmpEnd = 0
      · obtain rfl := htmp
        exact ⟨[], by simp, hnil ▸ List.Perm.refl _⟩
      have hlt := chunkBeginning_lt htmp hlength
      obtain ⟨c', hc', hperm⟩ := ih (hlt.le.trans hlength) (by omega)
        ((S.wanted (S.chunkBeginning tmpEnd) tmpEnd).reverse ++ symbols)
      refine ⟨c' ++ (S.wanted (S.chunkBeginning tmpEnd) tmpEnd).reverse, ?_, ?_⟩
      · rw [if_neg (by simp [hstops, htmp])]
        dsimp only
        rw [hS.collect_eq hends (fun _ => hstops _) (fun _ _ => rfl) _ _ _ _ _ le_rfl, hstops,
          if_neg Bool.false_ne_true, hc', List.append_assoc]
      · rw [hS.wanted_chunk htmp hlength]
        exact hperm.append (List.reverse_perm _)

/-! ### Both passes -/

/-- Whether an occurrence is not at a position: it ends before it or begins behind it. -/
def awayFrom (pos : Option ℕ) (x : ℕ × ℕ) : Bool :=
  pos.all fun pos => x.2 < pos || pos ≤ x.1

/-- The occurrences that are to be collected from the whole buffer. -/
def wantedAround (S : SearchedBuffer) (pos : Option ℕ) : List (List Char) :=
  (((occurrences S.matchAt 0 S.text.length).filter (awayFrom pos)).filter S.keeps).map
    fun x => S.substring x.1 x.2

theorem nodup_occurrences (f : ℕ → Option ℕ) (p b : ℕ) : (occurrences f p b).Nodup := by
  refine List.Nodup.filterMap (fun i j x hi hj => ?_) List.nodup_range'
  exact (matchWithin_eq_some_iff.mp hi).1.symm.trans (matchWithin_eq_some_iff.mp hj).1

/-- What ends before a position, and what begins behind it. -/
theorem Piecewise.wanted_append_perm (hS : S.Piecewise) {pos : ℕ} (hpos : pos ≤ S.text.length) :
    (S.wanted 0 (pos - 1) ++ S.wanted pos S.text.length).Perm (S.wantedAround (some pos)) := by
  rw [wanted, wanted, ← List.map_append, ← List.filter_append]
  refine List.Perm.map _ (List.Perm.filter _ ?_)
  have hdisjoint : (occurrences S.matchAt 0 (pos - 1)).Disjoint
      (occurrences S.matchAt pos S.text.length) := by
    rintro ⟨i, e⟩ h h'
    obtain ⟨-, hi, -, -⟩ := mem_occurrences.mp h
    obtain ⟨hi', -, -, -⟩ := mem_occurrences.mp h'
    omega
  refine (List.perm_ext_iff_of_nodup
    ((nodup_occurrences _ _ _).append (nodup_occurrences _ _ _) hdisjoint)
    ((nodup_occurrences _ _ _).filter _)).mpr fun x => ?_
  obtain ⟨i, e⟩ := x
  rw [List.mem_append, List.mem_filter, mem_occurrences, mem_occurrences, mem_occurrences,
    awayFrom, Option.all_some, Bool.or_eq_true, decide_eq_true_eq, decide_eq_true_eq]
  constructor
  · rintro (⟨-, hi, hmatch, hle⟩ | ⟨hi, hlt, hmatch, hle⟩)
    · have hie := hS.separate.lt i e hmatch
      exact ⟨⟨Nat.zero_le i, by omega, hmatch, by omega⟩, Or.inl (by omega)⟩
    · exact ⟨⟨Nat.zero_le i, hlt, hmatch, hle⟩, Or.inr hi⟩
  · rintro ⟨⟨-, hlt, hmatch, hle⟩, he | hi⟩
    · have hie := hS.separate.lt i e hmatch
      exact Or.inl ⟨Nat.zero_le i, by omega, hmatch, by omega⟩
    · exact Or.inr ⟨hi, hlt, hmatch, hle⟩

theorem Piecewise.wanted_start_perm (hS : S.Piecewise) {pos : Option ℕ}
    (hpos : ∀ p ∈ pos, p ≤ S.text.length) :
    (S.wanted 0 ((pos.map (· - 1)).getD 0) ++ S.wanted (pos.getD 0) S.text.length).Perm
      (S.wantedAround pos) := by
  cases pos with
  | none =>
      have hall : (occurrences S.matchAt 0 S.text.length).filter (awayFrom none) =
          occurrences S.matchAt 0 S.text.length := List.filter_eq_self.mpr fun _ _ => rfl
      rw [wantedAround, hall]
      exact List.Perm.refl _
  | some pos => exact hS.wanted_append_perm (hpos pos rfl)

theorem start_le {pos : Option ℕ} (hpos : ∀ p ∈ pos, p ≤ S.text.length) :
    (pos.map (· - 1)).getD 0 ≤ S.text.length := by
  cases pos with
  | none => exact Nat.zero_le _
  | some p => exact (Nat.sub_le _ _).trans (hpos p rfl)

/-- **The search of a buffer** that nothing interrupts finds just what a look at the whole buffer
finds. -/
theorem Piecewise.companyDabbrevSearchBuffer_perm (hS : S.Piecewise) (hends : S.EndsAtDelimiters)
    {stops : Check → Bool} (hstops : ∀ check, stops check = false) {pos : Option ℕ}
    (hpos : ∀ p ∈ pos, p ≤ S.text.length) (symbols : List (List Char)) :
    ∃ c : List (List Char), companyDabbrevSearchBuffer S stops pos symbols = c ++ symbols ∧
      c.Perm (S.wantedAround pos) := by
  obtain ⟨c, hc, hperm⟩ := hS.searchBefore_perm hends hstops _ (start_le hpos) le_rfl symbols
  refine ⟨(S.wanted (pos.getD 0) S.text.length).reverse ++ c, ?_, ?_⟩
  · have hlate (n p : ℕ) : (n % 25 = 0 && stops (.timeBehind n p)) = false := by
      rw [hstops, Bool.and_false]
    rw [companyDabbrevSearchBuffer, hc, hS.collect_eq hends (fun _ => hstops _) hlate _ _ _ _ _
      le_rfl, List.append_assoc]
  · exact ((List.reverse_perm _).append hperm).trans
      (List.perm_append_comm.trans (hS.wanted_start_perm hpos))

/-- Whatever interrupts the search of a buffer, it finds nothing else. -/
theorem Piecewise.companyDabbrevSearchBuffer_subperm (hS : S.Piecewise) (stops : Check → Bool)
    {pos : Option ℕ} (hpos : ∀ p ∈ pos, p ≤ S.text.length) (symbols : List (List Char)) :
    ∃ c : List (List Char), companyDabbrevSearchBuffer S stops pos symbols = c ++ symbols ∧
      c.Subperm (S.wantedAround pos) := by
  obtain ⟨c, hc, hsub⟩ := hS.searchBefore_subperm stops ((pos.map (· - 1)).getD 0) (start_le hpos)
    symbols
  obtain ⟨c', hc', hsub'⟩ := hS.collect_sublist (fun point => stops (.inputBehind point))
    (fun counter point => counter % 25 = 0 && stops (.timeBehind counter point))
    S.text.length (S.text.length - pos.getD 0) 0 (pos.getD 0) (c ++ symbols)
  refine ⟨c'.reverse ++ c, ?_, ?_⟩
  · rw [companyDabbrevSearchBuffer, hc, hc', List.append_assoc]
  · have hboth := (((List.reverse_perm c').subperm.trans hsub'.subperm)).append hsub
    exact hboth.trans (List.perm_append_comm.trans (hS.wanted_start_perm hpos)).subperm

end SearchedBuffer

/-! ### Symbols of code -/

/-- A buffer as `company-dabbrev-code` sees it, with its options. -/
structure CodeBuffer where
  syntaxTable : SyntaxTable
  text : List Char
  inStringOrComment : ℕ → Bool
  ignoredInvisible : ℕ → Bool
  minimumLength : ℕ
  /-- `company-dabbrev-code-everywhere`, which counts where the search begins. -/
  everywhere : Bool

namespace CodeBuffer

variable (C : CodeBuffer) (t : List Char)

/-- Whether the text behind a position begins as the regexp says: with the prefix, or, if that is
empty, with a letter or another constituent of symbols.

Source: `company-dabbrev-code.el`, lines 73–75. -/
def begins (i : ℕ) : Bool :=
  if t = [] then
    C.text[i]?.any fun c =>
      ('a' ≤ c && c ≤ 'z') || ('A' ≤ c && c ≤ 'Z') || C.syntaxTable.syntaxClass c = .symbol
  else t.isPrefixOf (C.text.drop i)

/-- A match of the regexp of `company-dabbrev-code--make-regexp` at a position, with the case that
the text has: a symbol begins there as it is to, and the longest run of constituents behind the
beginning ends a symbol.

Source: `company-dabbrev-code.el`, lines 72–76. -/
def codeMatchAt (i : ℕ) : Option ℕ :=
  let e := C.syntaxTable.symbolEndFrom C.text (i + t.length)
  if C.syntaxTable.symbolStartP C.text i && C.begins t i && C.syntaxTable.symbolEndP C.text e then
    some e
  else none

/-- `company-grab-symbol` at a position.

Source: `company.el`, lines 902–909. -/
def companyGrabSymbol (pos : ℕ) : Option (List Char) :=
  if C.syntaxTable.symbolEndP C.text pos then
    some ((C.text.take pos).reverse.takeWhile C.syntaxTable.constituent).reverse
  else if C.syntaxTable.constituentAt C.text pos then none
  else some []

/-- The buffer and the regexp, as `company-dabbrev-code` passes them to the search from a buffer
with a value of `company-dabbrev-code-everywhere`.

Source: `company-dabbrev-code.el`, lines 91–99. -/
def searched (everywhere : Bool) : SearchedBuffer where
  text := C.text
  matchAt := C.codeMatchAt t
  delimiter c := (C.syntaxTable.syntaxClass c).isDelimiter
  inStringOrComment := C.inStringOrComment
  ignoredInvisible := C.ignoredInvisible
  minimumLength := C.minimumLength
  ignoreComments := ! everywhere

/-- The symbols of the buffer that begin as they are to, away from a position and outside of
comments and strings unless they are looked for everywhere, and are visible and long enough: each as
often as it occurs. -/
def symbolsFor (everywhere : Bool) (pos : Option ℕ) : List (List Char) :=
  ((occurrences (C.syntaxTable.symbolAt C.text) 0 C.text.length).filter fun x =>
      C.begins t x.1 && SearchedBuffer.awayFrom pos x && (C.searched t everywhere).keeps x).map
    fun x => (C.text.take x.2).drop x.1

variable {C t} {i e : ℕ} {everywhere : Bool}

theorem constituent_of_companyGrabSymbol {pos : ℕ} (h : C.companyGrabSymbol pos = some t) :
    ∀ c ∈ t, C.syntaxTable.constituent c = true := by
  rw [companyGrabSymbol] at h
  split_ifs at h
  · obtain rfl := Option.some.inj h
    exact fun c hc => List.mem_takeWhile_imp (List.mem_reverse.mp hc)
  · obtain rfl := Option.some.inj h
    exact fun _ hc => absurd hc List.not_mem_nil

/-- With a prefix that can begin a symbol, the regexp matches the symbols that begin so. -/
theorem codeMatchAt_eq_some_iff (ht : ∀ c ∈ t, C.syntaxTable.constituent c = true) :
    C.codeMatchAt t i = some e ↔
      C.syntaxTable.symbolAt C.text i = some e ∧ C.begins t i = true := by
  have hend (hbegins : C.begins t i = true) :
      C.syntaxTable.symbolEndFrom C.text (i + t.length) = C.syntaxTable.symbolEndFrom C.text i := by
    rw [begins] at hbegins
    split_ifs at hbegins with hnil
    · rw [hnil]
      rfl
    · exact SyntaxTable.symbolEndFrom_add ht (List.isPrefixOf_iff_prefix.mp hbegins)
  rw [codeMatchAt]
  constructor
  · intro h
    split_ifs at h with hand
    rw [Bool.and_eq_true, Bool.and_eq_true] at hand
    obtain ⟨⟨hstart, hbegins⟩, -⟩ := hand
    rw [hend hbegins, Option.some.injEq] at h
    exact ⟨SyntaxTable.symbolAt_eq_some_iff.mpr ⟨hstart, h⟩, hbegins⟩
  · rintro ⟨hsymbol, hbegins⟩
    obtain ⟨hstart, heq⟩ := SyntaxTable.symbolAt_eq_some_iff.mp hsymbol
    rw [hend hbegins, heq, hstart, hbegins, SyntaxTable.symbolEndP_of_symbolAt hsymbol]
    rfl

/-- The regexp of `company-dabbrev-code` matches whole pieces of lines. -/
theorem piecewise_searched (ht : ∀ c ∈ t, C.syntaxTable.constituent c = true) :
    (C.searched t everywhere).Piecewise := by
  have hsymbol (i e : ℕ) (h : C.codeMatchAt t i = some e) :
      C.syntaxTable.symbolAt C.text i = some e := ((codeMatchAt_eq_some_iff ht).mp h).1
  have hconstituent (i e k : ℕ) (h : C.codeMatchAt t i = some e) (hik : i ≤ k) (hke : k < e) :
      ∃ c, C.text[k]? = some c ∧ C.syntaxTable.constituent c = true :=
    (Option.any_eq_true _ _).mp (SyntaxTable.constituentAt_of_symbolAt (hsymbol i e h) hik hke)
  refine ⟨(SyntaxTable.separate_symbolAt _ _).mono hsymbol, fun i e h => ?_,
    fun i e k h hik hke => ?_, fun i e k h hik hke => ?_⟩
  · exact SyntaxTable.le_length_of_symbolAt (hsymbol i e h)
  · obtain ⟨c, hc, hclass⟩ := hconstituent i e k h hik hke
    change C.text[k]? ≠ some '\n'
    rw [hc]
    rintro ⟨⟩
    rw [SyntaxTable.constituent, C.syntaxTable.newline] at hclass
    exact Bool.false_ne_true hclass
  · obtain ⟨c, hc, hclass⟩ := hconstituent i e k h hik hke
    change C.text[k]?.any _ = false
    rw [hc]
    change (C.syntaxTable.syntaxClass c).isDelimiter = false
    rw [SyntaxTable.constituent] at hclass
    cases hcase : C.syntaxTable.syntaxClass c with
    | word | symbol | other => rfl
    | endComment | genericComment | stringQuote => simp [hcase, SyntaxClass.isConstituent] at hclass

theorem wantedAround_searched (ht : ∀ c ∈ t, C.syntaxTable.constituent c = true)
    (pos : Option ℕ) :
    (C.searched t everywhere).wantedAround pos = C.symbolsFor t everywhere pos := by
  have hoccurrences : occurrences (C.codeMatchAt t) 0 C.text.length =
      (occurrences (C.syntaxTable.symbolAt C.text) 0 C.text.length).filter
        fun x => C.begins t x.1 := by
    rw [occurrences, occurrences, List.filter_filterMap]
    refine List.filterMap_congr fun i _ => Option.ext fun x => ?_
    rw [Option.filter_eq_some_iff, matchWithin_eq_some_iff, matchWithin_eq_some_iff,
      codeMatchAt_eq_some_iff ht]
    constructor
    · rintro ⟨rfl, ⟨hsymbol, hbegins⟩, hle⟩
      exact ⟨⟨rfl, hsymbol, hle⟩, hbegins⟩
    · rintro ⟨⟨rfl, hsymbol, hle⟩, hbegins⟩
      exact ⟨rfl, ⟨hsymbol, hbegins⟩, hle⟩
  change (((occurrences (C.codeMatchAt t) 0 C.text.length).filter _).filter _).map _ = _
  rw [hoccurrences, List.filter_filter, List.filter_filter, symbolsFor]
  congr 2
  funext x
  rw [Bool.and_comm, Bool.and_comm ((C.searched t everywhere).keeps x), Bool.and_assoc]

end CodeBuffer

/-! ### The search of all buffers -/

section Search

variable {Buf : Type} [DecidableEq Buf] (S : Buffers Buf) (e : Editor Buf) (current : Buf)

/-- The candidates of `company-dabbrev-code` for a prefix, from the current buffer with point at a
position and from the other buffers.

Source: `company-dabbrev-code.el`, lines 91–99; `company-dabbrev.el`, lines 147–167. -/
def companyDabbrevCodeCandidates (contents : Buf → CodeBuffer) (stops : Buf → Check → Bool)
    (limitPassed : Buf → Bool) (pos : ℕ) (t : List Char) : List (List Char) :=
  let everywhere := (contents current).everywhere
  companyDabbrevSearch S e current (otherBufferModes S e current) limitPassed
    (fun buffer =>
      companyDabbrevSearchBuffer ((contents buffer).searched t everywhere) (stops buffer) none)
    (companyDabbrevSearchBuffer ((contents current).searched t everywhere) (stops current)
      (some pos) [])

/-- The search goes over buffers that it scans when nothing limits its time, and over all of them
if nothing does. -/
theorem companyDabbrevSearch_eq_foldl_scanned {α : Type} (limitPassed : Buf → Bool)
    (searchBuffer : Buf → α → α) (symbols : α) :
    ∃ buffers : List Buf, buffers.Sublist (scannedBuffers S e current) ∧
      ((∀ buffer, limitPassed buffer = false) → buffers = scannedBuffers S e current) ∧
      companyDabbrevSearch S e current (otherBufferModes S e current) limitPassed searchBuffer
        symbols = buffers.foldl (fun symbols buffer => searchBuffer buffer symbols) symbols := by
  by_cases hmodes : otherBufferModes S e current = .nil
  · refine ⟨[], List.nil_sublist _, fun _ => ?_, ?_⟩
    · rw [scannedBuffers, companyDabbrevSearch, if_pos hmodes]
    · rw [companyDabbrevSearch, if_pos hmodes]
      rfl
  · have hscanned : scannedBuffers S e current =
        (otherBuffers S current).filter (searches S e current (otherBufferModes S e current)) := by
      rw [scannedBuffers, companyDabbrevSearch_eq_foldl S e current hmodes, visited_false,
        List.foldl_append_eq_append, List.nil_append, ← List.flatMap_def, List.flatMap_singleton']
    rw [hscanned, companyDabbrevSearch_eq_foldl S e current hmodes]
    have hvisited : visited limitPassed (otherBuffers S current) <+: otherBuffers S current :=
      visited_prefix limitPassed _
    refine ⟨_, hvisited.sublist.filter _, fun hlimit => ?_, rfl⟩
    rw [funext hlimit, visited_false]

variable {S e current}

omit [DecidableEq Buf] in
theorem foldl_perm {f : Buf → List (List Char) → List (List Char)} {g : Buf → List (List Char)}
    {buffers : List Buf}
    (h : ∀ b ∈ buffers, ∀ symbols, ∃ c : List (List Char), f b symbols = c ++ symbols ∧
      c.Perm (g b)) (symbols : List (List Char)) :
    (buffers.foldl (fun symbols b => f b symbols) symbols).Perm
      (symbols ++ buffers.flatMap g) := by
  induction buffers generalizing symbols with
  | nil => simp
  | cons b buffers ih =>
      obtain ⟨c, hc, hperm⟩ := h b List.mem_cons_self symbols
      have hrest := ih (fun b' hb' => h b' (List.mem_cons_of_mem _ hb')) (c ++ symbols)
      rw [List.foldl_cons, hc, List.flatMap_cons, ← List.append_assoc]
      exact hrest.trans ((List.perm_append_comm.trans (hperm.append_left symbols)).append_right _)

omit [DecidableEq Buf] in
theorem foldl_subperm {f : Buf → List (List Char) → List (List Char)}
    {g : Buf → List (List Char)} {buffers : List Buf}
    (h : ∀ b ∈ buffers, ∀ symbols, ∃ c : List (List Char), f b symbols = c ++ symbols ∧
      c.Subperm (g b)) (symbols : List (List Char)) :
    (buffers.foldl (fun symbols b => f b symbols) symbols).Subperm
      (symbols ++ buffers.flatMap g) := by
  induction buffers generalizing symbols with
  | nil => simpa using List.Subperm.refl symbols
  | cons b buffers ih =>
      obtain ⟨c, hc, hsub⟩ := h b List.mem_cons_self symbols
      have hrest := ih (fun b' hb' => h b' (List.mem_cons_of_mem _ hb')) (c ++ symbols)
      rw [List.foldl_cons, hc, List.flatMap_cons, ← List.append_assoc]
      refine hrest.trans (List.Subperm.append ?_ (List.Subperm.refl _))
      exact List.perm_append_comm.subperm.trans ((List.Subperm.refl symbols).append hsub)

end Search

/-! ### A session -/

/-- Letters make up words, quotes delimit strings. -/
def letterTable : SyntaxTable where
  syntaxClass c :=
    if 'a' ≤ c && c ≤ 'z' then .word
    else if c = '\n' then .endComment
    else if c = '"' then .stringQuote
    else .other
  newline := rfl

/-- The buffers of a commit: in the message, point is behind the second word; in `main.c` there is
a string, which begins behind its fifth character. -/
def commitContents (buffer : String) : CodeBuffer where
  syntaxTable := letterTable
  text :=
    if buffer = "COMMIT_EDITMSG" then "foo fo\nfoo".toList
    else if buffer = "main.c" then "food \"fool\" foot".toList
    else []
  inStringOrComment k := buffer = "main.c" && 6 ≤ k && k ≤ 10
  ignoredInvisible _ := false
  minimumLength := 3
  everywhere := false

theorem endsAtDelimiters_commitContents (buffer : String) (t : List Char) (everywhere : Bool) :
    ((commitContents buffer).searched t everywhere).EndsAtDelimiters := by
  intro _ e d he hed hnone
  change (decide (buffer = "main.c") && decide (6 ≤ e) && decide (e ≤ 10)) = true at he
  change (decide (buffer = "main.c") && decide (6 ≤ d) && decide (d ≤ 10)) = true
  simp only [Bool.and_eq_true, decide_eq_true_eq] at he ⊢
  obtain ⟨⟨rfl, hle⟩, hge⟩ := he
  refine ⟨⟨rfl, by omega⟩, ?_⟩
  by_contra hlt
  have hquote : (commitContents "main.c").text[10]?.any
      (fun c => (letterTable.syntaxClass c).isDelimiter) = true := by decide
  exact Bool.false_ne_true ((hnone 10 hge (by omega)).symm.trans hquote)

theorem constituent_letterTable : ∀ c ∈ ['f', 'o'], letterTable.constituent c = true := by
  intro c hc
  rw [List.mem_pair] at hc
  rcases hc with rfl | rfl
  · decide
  · decide

/-- There is input when the search has gone on behind a position. -/
def inputAfter (pos : ℕ) : Check → Bool
  | .inputBehind point => decide (pos < point)
  | .chunkInput _ | .inputBefore _ _ | .chunkTime _ | .timeBehind _ _ => false

end DotEmacs.Company
