import DotEmacs.Elisp.Regexp
import Mathlib.Data.List.Permutation

/-!
# What a search string matches

While candidates are searched, a regexp is made of the search string. It can ask for the characters
of the search string in order with anything in between, or for its words, in their order or in any.
For words in any order the regexp has one alternative for each permutation of the words.

Characters are compared by a key, so that case need not count.

## Main definitions

* `Company.searchFlexRegexp`, `Company.searchWordsRegexp`, `Company.searchWordsInAnyOrderRegexp`.
* `Company.permutations`.

## Main results

* `Company.stringMatch_searchFlexRegexp_iff`: the flexible regexp finds just the texts of which the
  search string is a subsequence.
* `Company.permutations_spec`: distinct objects are put in every order, and in each order once.
* `Company.stringMatch_searchWordsInAnyOrderRegexp_iff_exists`: words in any order are words in
  some order.
* `Company.searchWordsInAnyOrder_spec`: the order in which words are typed is of no importance.
-/

namespace DotEmacs.Company

open Elisp Computability

variable (key : Char → Char)

/-- The regexp for one character. -/
def regexpChar (c : Char) : Regexp Char := .char fun d => key d = key c

/-- `(concat r …)`, for a list of regexps. -/
def regexpConcat (rs : List (Regexp Char)) : Regexp Char := rs.foldr .seq .empty

/-- `regexp-quote`. -/
def regexpQuote (text : List Char) : Regexp Char := regexpConcat (text.map (regexpChar key))

/-- `company-search-flex-regexp`.

Source: `company.el`, lines 1795–1802. -/
def searchFlexRegexp : List Char → Regexp Char
  | [] => .empty
  | c :: input =>
      (regexpQuote key [c]).seq <| regexpConcat <| input.map fun c =>
        (Regexp.star (.char fun d => key d ≠ key c)).seq (regexpQuote key [c])

variable {key} {c : Char} {r : Regexp Char} {text input : List Char}

/-! ### Parts of a text -/

/-- A regexp matches at the beginning of a text. -/
def LooksAt (r : Regexp Char) (text : List Char) : Prop :=
  ∃ v w, v ++ w = text ∧ v ∈ r.language

theorem looksAt_empty (text : List Char) : LooksAt .empty text := ⟨[], text, rfl, rfl⟩

theorem looksAt_seq {s : Regexp Char} :
    LooksAt (r.seq s) text ↔ ∃ u rest, u ++ rest = text ∧ u ∈ r.language ∧ LooksAt s rest := by
  constructor
  · rintro ⟨v, w, rfl, h⟩
    obtain ⟨u, hu, v, hv, rfl⟩ := Language.mem_mul.mp h
    exact ⟨u, v ++ w, (List.append_assoc u v w).symm, hu, v, w, rfl, hv⟩
  · rintro ⟨u, rest, rfl, hu, v, w, rfl, hv⟩
    exact ⟨u ++ v, w, List.append_assoc u v w, Language.mem_mul.mpr ⟨u, hu, v, hv, rfl⟩⟩

theorem stringMatch_iff_looksAt :
    r.stringMatch text = true ↔ ∃ u behind, u ++ behind = text ∧ LooksAt r behind := by
  rw [Regexp.stringMatch_iff]
  constructor
  · rintro ⟨u, v, w, rfl, hv⟩
    exact ⟨u, v ++ w, (List.append_assoc u v w).symm, v, w, rfl, hv⟩
  · rintro ⟨u, _, rfl, v, w, rfl, hv⟩
    exact ⟨u, v, w, List.append_assoc u v w, hv⟩

theorem mem_regexpQuote_iff {l : List Char} :
    l ∈ (regexpQuote key text).language ↔ l.map key = text.map key := by
  induction text generalizing l with
  | nil => exact List.map_eq_nil_iff.symm
  | cons c text ih =>
      have hquote : (regexpQuote key (c :: text)).language =
          (regexpChar key c).language * (regexpQuote key text).language := rfl
      rw [hquote, Language.mem_mul]
      constructor
      · rintro ⟨_, ⟨d, hd, rfl⟩, v, hv, rfl⟩
        rw [List.singleton_append, List.map_cons, List.map_cons, ih.mp hv, of_decide_eq_true hd]
      · intro h
        obtain ⟨d, v, rfl⟩ : ∃ d v, l = d :: v := by
          cases l with
          | nil => simp at h
          | cons d v => exact ⟨d, v, rfl⟩
        rw [List.map_cons, List.map_cons, List.cons_eq_cons] at h
        exact ⟨[d], ⟨d, decide_eq_true h.1, rfl⟩, v, ih.mpr h.2, rfl⟩

theorem looksAt_quote_seq :
    LooksAt ((regexpQuote key [c]).seq r) text ↔
      ∃ d rest, d :: rest = text ∧ key d = key c ∧ LooksAt r rest := by
  rw [looksAt_seq]
  constructor
  · rintro ⟨u, rest, rfl, hu, h⟩
    rw [mem_regexpQuote_iff] at hu
    obtain ⟨d, rfl⟩ : ∃ d, u = [d] :=
      List.length_eq_one_iff.mp (by simpa using congrArg List.length hu)
    exact ⟨d, rest, rfl, List.singleton_inj.mp hu, h⟩
  · rintro ⟨d, rest, rfl, hd, h⟩
    exact ⟨[d], rest, rfl, mem_regexpQuote_iff.mpr (List.singleton_inj.mpr hd), h⟩

theorem mem_star_char_iff {p : Char → Bool} {l : List Char} :
    l ∈ (Regexp.star (.char p)).language ↔ ∀ a ∈ l, p a = true := by
  rw [Regexp.language, Language.mem_kstar]
  constructor
  · rintro ⟨S, rfl, hS⟩ a ha
    obtain ⟨y, hy, hay⟩ := List.mem_flatten.mp ha
    obtain ⟨b, hb, rfl⟩ := hS y hy
    rwa [List.mem_singleton.mp hay]
  · intro h
    refine ⟨l.map fun a => [a], (List.flatMap_singleton' l).symm, ?_⟩
    rw [List.forall_mem_map]
    exact fun a ha => ⟨a, h a ha, rfl⟩

/-- Behind any number of characters of a class: the first character may be one of them. -/
theorem looksAt_star_seq_cons {p : Char → Bool} {d : Char} :
    LooksAt ((Regexp.star (.char p)).seq r) (d :: text) ↔
      LooksAt r (d :: text) ∨ p d = true ∧ LooksAt ((Regexp.star (.char p)).seq r) text := by
  rw [looksAt_seq, looksAt_seq]
  constructor
  · rintro ⟨u, rest, hurest, hu, h⟩
    rw [mem_star_char_iff] at hu
    cases u with
    | nil => exact Or.inl (hurest ▸ h)
    | cons e u =>
        obtain ⟨rfl, rfl⟩ := List.cons_eq_cons.mp hurest
        rw [List.forall_mem_cons] at hu
        exact Or.inr ⟨hu.1, u, rest, rfl, mem_star_char_iff.mpr hu.2, h⟩
  · rintro (h | ⟨hd, u, rest, rfl, hu, h⟩)
    · exact ⟨[], d :: text, rfl, mem_star_char_iff.mpr (by simp), h⟩
    · rw [mem_star_char_iff] at hu
      exact ⟨d :: u, rest, rfl, mem_star_char_iff.mpr (List.forall_mem_cons.mpr ⟨hd, hu⟩), h⟩

theorem looksAt_star_seq_nil {p : Char → Bool} :
    LooksAt ((Regexp.star (.char p)).seq r) [] ↔ LooksAt r [] := by
  rw [looksAt_seq]
  constructor
  · rintro ⟨u, rest, hurest, -, h⟩
    rwa [(List.append_eq_nil_iff.mp hurest).2] at h
  · exact fun h => ⟨[], [], rfl, mem_star_char_iff.mpr (by simp), h⟩

/-! ### Characters in order -/

/-- Each character is looked for behind the one before, where it comes first: this finds them if
they come in this order at all. -/
theorem looksAt_flex_iff (input text : List Char) :
    LooksAt (regexpConcat (input.map fun c =>
        (Regexp.star (.char fun d => key d ≠ key c)).seq (regexpQuote key [c]))) text ↔
      (input.map key).Sublist (text.map key) := by
  induction input generalizing text with
  | nil => exact iff_of_true (looksAt_empty text) (List.nil_sublist _)
  | cons c input ih =>
      have hassoc (r s t : Regexp Char) (text : List Char) :
          LooksAt ((r.seq s).seq t) text ↔ LooksAt (r.seq (s.seq t)) text := by
        simp only [LooksAt, Regexp.language, mul_assoc]
      have hcons (text : List Char) :
          LooksAt (regexpConcat ((c :: input).map fun c =>
            (Regexp.star (.char fun d => key d ≠ key c)).seq (regexpQuote key [c]))) text ↔
          LooksAt ((Regexp.star (.char fun d => key d ≠ key c)).seq ((regexpQuote key [c]).seq
            (regexpConcat (input.map fun c =>
              (Regexp.star (.char fun d => key d ≠ key c)).seq (regexpQuote key [c]))))) text :=
        hassoc _ _ _ text
      rw [hcons, List.map_cons]
      induction text with
      | nil =>
          rw [looksAt_star_seq_nil, looksAt_quote_seq, List.map_nil, List.sublist_nil]
          exact iff_of_false (by rintro ⟨d, rest, h, -⟩; exact List.cons_ne_nil d rest h)
            (List.cons_ne_nil _ _)
      | cons d text iht =>
          rw [looksAt_star_seq_cons, looksAt_quote_seq, List.map_cons]
          by_cases hd : key d = key c
          · rw [hd, List.cons_sublist_cons, ← ih]
            constructor
            · rintro (⟨d', rest, hrest, -, h⟩ | ⟨hne, -⟩)
              · rwa [(List.cons_eq_cons.mp hrest).2] at h
              · exact absurd rfl (of_decide_eq_true hne)
            · exact fun h => Or.inl ⟨d, text, rfl, hd, h⟩
          · rw [List.sublist_cons_iff]
            constructor
            · rintro (⟨d', rest, hrest, hd', -⟩ | ⟨-, h⟩)
              · exact absurd ((List.cons_eq_cons.mp hrest).1 ▸ hd') hd
              · exact Or.inl (iht.mp h)
            · rintro (h | ⟨r, hr, -⟩)
              · exact Or.inr ⟨decide_eq_true hd, iht.mpr h⟩
              · exact absurd (List.cons_eq_cons.mp hr).1.symm hd

/-- A subsequence begins somewhere. -/
theorem exists_of_cons_sublist (h : (key c :: input.map key).Sublist (text.map key)) :
    ∃ u d rest, u ++ d :: rest = text ∧ key d = key c ∧ (input.map key).Sublist (rest.map key) := by
  induction text with
  | nil => exact absurd (List.sublist_nil.mp h) (List.cons_ne_nil _ _)
  | cons e text ih =>
      rw [List.map_cons, List.sublist_cons_iff] at h
      rcases h with h | ⟨r, hr, h⟩
      · obtain ⟨u, d, rest, rfl, hd, h⟩ := ih h
        exact ⟨e :: u, d, rest, rfl, hd, h⟩
      · obtain ⟨he, rfl⟩ := List.cons_eq_cons.mp hr
        exact ⟨[], e, text, rfl, he.symm, h⟩

/-- **The flexible regexp finds subsequences.** A text is found if the characters of the search
string come in it in this order, with anything in between. -/
theorem stringMatch_searchFlexRegexp_iff (input text : List Char) :
    (searchFlexRegexp key input).stringMatch text = true ↔
      (input.map key).Sublist (text.map key) := by
  rw [stringMatch_iff_looksAt]
  cases input with
  | nil => exact iff_of_true ⟨[], text, rfl, looksAt_empty text⟩ (List.nil_sublist _)
  | cons c input =>
      rw [searchFlexRegexp]
      simp only [looksAt_quote_seq, looksAt_flex_iff]
      rw [List.map_cons]
      constructor
      · rintro ⟨u, _, rfl, d, rest, rfl, hd, h⟩
        rw [List.map_append, List.map_cons, hd]
        exact (h.cons_cons _).trans (List.sublist_append_right _ _)
      · intro h
        obtain ⟨u, d, rest, rfl, hd, h⟩ := exists_of_cons_sublist h
        exact ⟨u, d :: rest, rfl, d, rest, rfl, hd, h⟩

example : (searchFlexRegexp id ['a', 'c']).stringMatch ['b', 'a', 'b', 'c'] = true := by decide

/-! ### Words in any order -/

section Permutations

variable {α : Type} [DecidableEq α] {l l' : List α}

/-- `company--permutations`. Equality is that of `eql`.

Source: `company.el`, lines 1804–1811. -/
def permutations (l : List α) : List (List α) :=
  if l = [] then [[]]
  else l.attach.flatMap fun e => (permutations (l.erase e.1)).map (e.1 :: ·)
termination_by l.length
decreasing_by
  rw [List.length_erase_of_mem e.2]
  exact Nat.sub_one_lt (List.length_pos_of_mem e.2).ne'

theorem permutations_nil : permutations ([] : List α) = [[]] := by rw [permutations, if_pos rfl]

theorem permutations_of_ne_nil (h : l ≠ []) :
    permutations l = l.flatMap fun e => (permutations (l.erase e)).map (e :: ·) := by
  rw [permutations, if_neg h, List.flatMap_subtype
    (g := fun e => (permutations (l.erase e)).map (e :: ·)) fun _ _ => rfl, List.unattach_attach]

theorem mem_permutations : l' ∈ permutations l ↔ l'.Perm l := by
  induction hn : l.length generalizing l l' with
  | zero =>
      rw [List.length_eq_zero_iff.mp hn, permutations_nil, List.mem_singleton, List.perm_nil]
  | succ n ih =>
      have hne : l ≠ [] := by
        rintro rfl
        exact absurd hn (Nat.succ_ne_zero n).symm
      rw [permutations_of_ne_nil hne, List.mem_flatMap]
      have herase (e : α) (he : e ∈ l) (t : List α) :
          t ∈ permutations (l.erase e) ↔ t.Perm (l.erase e) :=
        ih (by rw [List.length_erase_of_mem he, hn, Nat.add_sub_cancel])
      constructor
      · rintro ⟨e, he, hl'⟩
        obtain ⟨t, ht, rfl⟩ := List.mem_map.mp hl'
        exact List.cons_perm_iff_perm_erase.mpr ⟨he, (herase e he t).mp ht⟩
      · intro h
        obtain ⟨e, t, rfl⟩ : ∃ e t, l' = e :: t := by
          cases l' with
          | nil => exact absurd h.nil_eq.symm hne
          | cons e t => exact ⟨e, t, rfl⟩
        obtain ⟨he, ht⟩ := List.cons_perm_iff_perm_erase.mp h
        exact ⟨e, he, List.mem_map.mpr ⟨t, (herase e he t).mpr ht, rfl⟩⟩

theorem nodup_permutations (h : l.Nodup) : (permutations l).Nodup := by
  induction hn : l.length generalizing l with
  | zero =>
      rw [List.length_eq_zero_iff.mp hn, permutations_nil]
      exact List.nodup_singleton []
  | succ n ih =>
      have hne : l ≠ [] := by
        rintro rfl
        exact absurd hn (Nat.succ_ne_zero n).symm
      rw [permutations_of_ne_nil hne, List.nodup_flatMap]
      refine ⟨fun e he => ?_, h.imp fun {e e'} hee' => ?_⟩
      · refine (ih (h.erase e) ?_).map (List.cons_injective)
        rw [List.length_erase_of_mem he, hn, Nat.add_sub_cancel]
      · rw [Function.onFun, List.disjoint_left]
        rintro t ht ht'
        obtain ⟨u, -, rfl⟩ := List.mem_map.mp ht
        obtain ⟨u', -, hu'⟩ := List.mem_map.mp ht'
        exact hee' (List.cons_eq_cons.mp hu').1.symm

/-- **Every permutation, once.** -/
theorem permutations_spec (h : l.Nodup) :
    (permutations l).Nodup ∧ ∀ l', l' ∈ permutations l ↔ l'.Perm l :=
  ⟨nodup_permutations h, fun _ => mem_permutations⟩

theorem permutations_spec_three :
    (permutations [1, 2, 3]).Nodup ∧ ∀ l', l' ∈ permutations [1, 2, 3] ↔ l'.Perm [1, 2, 3] :=
  permutations_spec (by decide)

end Permutations

variable (key)

/-- `(split-string input " +" t)`. -/
def searchWords (input : List Char) : List (List Char) :=
  (input.splitOnP (· = ' ')).filter (· ≠ [])

/-- `(mapconcat … words ".*")`, on the regexps of words. -/
def inOrderRegexp : List (List Char) → Regexp Char
  | [] => .empty
  | [word] => regexpQuote key word
  | word :: words =>
      (regexpQuote key word).seq <| (Regexp.star (.char (· ≠ '\n'))).seq <| inOrderRegexp words

/-- `(mapconcat … "\\|")`, on regexps. -/
def alternatives : List (Regexp Char) → Regexp Char
  | [] => .empty
  | [r] => r
  | r :: rs => r.alt (alternatives rs)

/-- `company-search-words-regexp`.

Source: `company.el`, lines 1782–1784. -/
def searchWordsRegexp (input : List Char) : Regexp Char := inOrderRegexp key (searchWords input)

/-- `company-search-words-in-any-order-regexp`. The groups of the words are distinct strings, which
their numbers stand for.

Source: `company.el`, lines 1786–1793. -/
def searchWordsInAnyOrderRegexp (input : List Char) : Regexp Char :=
  alternatives <| (permutations (searchWords input).zipIdx).map fun words =>
    inOrderRegexp key (words.map Prod.fst)

variable {key}

theorem stringMatch_alt {s : Regexp Char} :
    (r.alt s).stringMatch text = true ↔ r.stringMatch text = true ∨ s.stringMatch text = true := by
  simp only [Regexp.stringMatch_iff, Regexp.language, Language.mem_add, and_or_left, exists_or]

theorem stringMatch_alternatives {rs : List (Regexp Char)} (h : rs ≠ []) :
    (alternatives rs).stringMatch text = true ↔ ∃ r ∈ rs, r.stringMatch text = true := by
  induction rs with
  | nil => exact absurd rfl h
  | cons r rs ih =>
      cases rs with
      | nil => simp only [alternatives, List.mem_singleton, exists_eq_left]
      | cons r' rs =>
          have hcons : alternatives (r :: r' :: rs) = r.alt (alternatives (r' :: rs)) := rfl
          rw [hcons, stringMatch_alt, ih (List.cons_ne_nil r' rs)]
          simp only [List.mem_cons, exists_eq_or_imp]

/-- What can be put in order can be put in order with the numbers it carries. -/
theorem exists_perm_zipIdx {words words' : List (List Char)} (h : words.Perm words') :
    ∃ items : List (List Char × ℕ), items.Perm words'.zipIdx ∧ items.map Prod.fst = words := by
  have hzip : List.Forall₂ (fun word (item : List Char × ℕ) => word = item.1) words'
      words'.zipIdx := by
    rw [← List.forall₂_map_right_iff (R := Eq), List.zipIdx_map_fst, List.forall₂_eq_eq_eq]
  obtain ⟨items, hwords, hitems⟩ := List.perm_comp_forall₂ h hzip
  rw [← List.forall₂_map_right_iff (R := Eq), List.forall₂_eq_eq_eq] at hwords
  exact ⟨items, hitems, hwords.symm⟩

/-- A text is found if the words come in it in some order. -/
theorem stringMatch_searchWordsInAnyOrderRegexp_iff (input text : List Char) :
    (searchWordsInAnyOrderRegexp key input).stringMatch text = true ↔
      ∃ words, words.Perm (searchWords input) ∧
        (inOrderRegexp key words).stringMatch text = true := by
  have hsome : permutations (searchWords input).zipIdx ≠ [] :=
    List.ne_nil_of_mem (mem_permutations.mpr (List.Perm.refl _))
  rw [searchWordsInAnyOrderRegexp, stringMatch_alternatives (by simpa using hsome)]
  constructor
  · rintro ⟨r, hr, h⟩
    obtain ⟨items, hitems, rfl⟩ := List.mem_map.mp hr
    refine ⟨items.map Prod.fst, ?_, h⟩
    rw [← List.zipIdx_map_fst 0 (searchWords input)]
    exact (mem_permutations.mp hitems).map Prod.fst
  · rintro ⟨words, hwords, h⟩
    obtain ⟨items, hitems, rfl⟩ := exists_perm_zipIdx hwords
    exact ⟨_, List.mem_map_of_mem (mem_permutations.mpr hitems), h⟩

theorem searchWords_append {word rest : List Char} (hne : word ≠ []) (hspace : ' ' ∉ word) :
    searchWords (word ++ ' ' :: rest) = word :: searchWords rest := by
  have hword : ∀ c ∈ word, decide (c = ' ') = false := fun c hc =>
    decide_eq_false fun hcs => hspace (hcs ▸ hc)
  rw [searchWords, List.splitOnP_append_cons_of_forall_mem hword ' ' (decide_eq_true rfl),
    List.filter_cons_of_pos (by simpa using hne), searchWords]

/-- The words of a search string are nonempty, and without spaces. -/
theorem spec_of_mem_searchWords {word : List Char} (h : word ∈ searchWords input) :
    word ≠ [] ∧ ' ' ∉ word := by
  obtain ⟨hsplit, hne⟩ := List.mem_filter.mp h
  refine ⟨by simpa using hne, ?_⟩
  clear h hne
  induction input generalizing word with
  | nil =>
      rw [List.splitOnP_nil, List.mem_singleton] at hsplit
      exact hsplit ▸ List.not_mem_nil
  | cons c input ih =>
      obtain ⟨first, words, hinput⟩ :=
        List.exists_cons_of_ne_nil (List.splitOnP_ne_nil (fun c => decide (c = ' ')) input)
      rw [List.splitOnP_cons_eq_if_modifyHead, hinput] at hsplit
      rw [hinput] at ih
      split_ifs at hsplit with hc
      · rcases List.mem_cons.mp hsplit with rfl | hword
        · exact List.not_mem_nil
        · exact ih hword
      · rw [List.modifyHead_cons] at hsplit
        rcases List.mem_cons.mp hsplit with rfl | hword
        · rw [List.mem_cons, not_or]
          exact ⟨fun hsc => hc (decide_eq_true hsc.symm), ih List.mem_cons_self⟩
        · exact ih (List.mem_cons_of_mem _ hword)

/-- Nonempty words without spaces are the words of a search string. -/
theorem exists_searchWords_eq {words : List (List Char)}
    (h : ∀ word ∈ words, word ≠ [] ∧ ' ' ∉ word) : ∃ input, searchWords input = words := by
  induction words with
  | nil => exact ⟨[], rfl⟩
  | cons word words ih =>
      obtain ⟨⟨hne, hspace⟩, hwords⟩ := List.forall_mem_cons.mp h
      obtain ⟨rest, rfl⟩ := ih hwords
      exact ⟨word ++ ' ' :: rest, searchWords_append hne hspace⟩

/-- **Any order is some order.** The words of a search string are found in any order exactly if the
same words, typed in some order, are found in their order. -/
theorem stringMatch_searchWordsInAnyOrderRegexp_iff_exists (input text : List Char) :
    (searchWordsInAnyOrderRegexp key input).stringMatch text = true ↔
      ∃ input', (searchWords input').Perm (searchWords input) ∧
        (searchWordsRegexp key input').stringMatch text = true := by
  rw [stringMatch_searchWordsInAnyOrderRegexp_iff]
  constructor
  · rintro ⟨words, hwords, h⟩
    obtain ⟨input', rfl⟩ := exists_searchWords_eq fun word hword =>
      spec_of_mem_searchWords (hwords.mem_iff.mp hword)
    exact ⟨input', hwords, h⟩
  · rintro ⟨input', hwords, h⟩
    exact ⟨searchWords input', hwords, h⟩

/-- **Words in any order.** A text is found if the words come in it in some order; in which order
they were typed is of no importance. -/
theorem searchWordsInAnyOrder_spec (input text : List Char) :
    ((searchWordsInAnyOrderRegexp key input).stringMatch text = true ↔
      ∃ words, words.Perm (searchWords input) ∧
        (inOrderRegexp key words).stringMatch text = true) ∧
    ∀ input', (searchWords input').Perm (searchWords input) →
      (searchWordsInAnyOrderRegexp key input').stringMatch text =
        (searchWordsInAnyOrderRegexp key input).stringMatch text := by
  refine ⟨stringMatch_searchWordsInAnyOrderRegexp_iff input text, fun input' h => ?_⟩
  rw [Bool.eq_iff_iff, stringMatch_searchWordsInAnyOrderRegexp_iff,
    stringMatch_searchWordsInAnyOrderRegexp_iff]
  exact exists_congr fun words => and_congr_left' ⟨fun hw => hw.trans h, fun hw => hw.trans h.symm⟩

end DotEmacs.Company
