import Mathlib.Data.List.Range
import Mathlib.Data.List.TakeWhile

/-!
# Occurrences of a regexp, and symbols

A regexp is given by where a match that begins at a position ends, if there is one. Where the
occurrences of a regexp are not empty and do not overlap, those in a part of a text are the first
one and those behind it, and the text can be cut wherever no occurrence is cut.

A syntax table says which characters make up symbols, and which end comments and strings. A symbol
is a run of such characters, as long as can be.

## Main definitions

* `Elisp.occurrences`, `Elisp.reSearchForward`: all occurrences in a part of a text, and the first.
* `Elisp.Separate`: occurrences are not empty and do not overlap.
* `Elisp.SyntaxTable`, `Elisp.SyntaxTable.symbolAt`.

## Main results

* `Elisp.Separate.occurrences_eq_cons`: the first occurrence, and those behind it.
* `Elisp.occurrences_append`: the occurrences before and behind a cut.
* `Elisp.SyntaxTable.separate_symbolAt`: symbols do not overlap.
-/

namespace DotEmacs.Elisp

/-! ### Occurrences -/

section Occurrences

variable (matchAt : ℕ → Option ℕ)

/-- The match that begins at a position, unless it reaches behind a bound. -/
def matchWithin (bound i : ℕ) : Option (ℕ × ℕ) :=
  ((matchAt i).filter fun e => e ≤ bound).map fun e => (i, e)

/-- `re-search-forward` from a position to a bound: the beginning and the end of the match. -/
def reSearchForward (point bound : ℕ) : Option (ℕ × ℕ) :=
  (List.range' point (bound - point)).findSome? (matchWithin matchAt bound)

/-- All occurrences from a position to a bound. -/
def occurrences (point bound : ℕ) : List (ℕ × ℕ) :=
  (List.range' point (bound - point)).filterMap (matchWithin matchAt bound)

/-- No occurrence is empty, and none begins within another. -/
structure Separate : Prop where
  lt : ∀ i e, matchAt i = some e → i < e
  eq_none : ∀ i e j, matchAt i = some e → i < j → j < e → matchAt j = none

variable {matchAt} {p q b i e : ℕ}

theorem matchWithin_eq_some_iff {x : ℕ × ℕ} :
    matchWithin matchAt b i = some x ↔ x.1 = i ∧ matchAt i = some x.2 ∧ x.2 ≤ b := by
  rw [matchWithin, Option.map_eq_some_iff]
  constructor
  · rintro ⟨e, he, rfl⟩
    rw [Option.filter_eq_some_iff, decide_eq_true_eq] at he
    exact ⟨rfl, he⟩
  · rintro ⟨rfl, hmatch, hle⟩
    exact ⟨x.2, Option.filter_eq_some_iff.mpr ⟨hmatch, decide_eq_true hle⟩, rfl⟩

theorem mem_occurrences :
    (i, e) ∈ occurrences matchAt p b ↔ p ≤ i ∧ i < b ∧ matchAt i = some e ∧ e ≤ b := by
  rw [occurrences, List.mem_filterMap]
  constructor
  · rintro ⟨j, hj, hmatch⟩
    obtain ⟨rfl, hmatch⟩ := matchWithin_eq_some_iff.mp hmatch
    rw [List.mem_range'_1] at hj
    exact ⟨hj.1, by omega, hmatch⟩
  · rintro ⟨hp, hb, hmatch⟩
    exact ⟨i, List.mem_range'_1.mpr ⟨hp, by omega⟩, matchWithin_eq_some_iff.mpr ⟨rfl, hmatch⟩⟩

theorem head?_occurrences (matchAt : ℕ → Option ℕ) (p b : ℕ) :
    (occurrences matchAt p b).head? = reSearchForward matchAt p b :=
  List.head?_filterMap

theorem occurrences_eq_nil (h : ∀ i e, p ≤ i → matchAt i = some e → ¬ e ≤ b) :
    occurrences matchAt p b = [] := by
  refine List.eq_nil_iff_forall_not_mem.mpr fun x hx => ?_
  obtain ⟨hp, -, hmatch, hle⟩ := mem_occurrences.mp hx
  exact h _ _ hp hmatch hle

/-- A text can be cut where no occurrence is cut. -/
theorem occurrences_append (hpq : p ≤ q) (hqb : q ≤ b)
    (h : ∀ i e, p ≤ i → i < q → matchAt i = some e → e ≤ b → e ≤ q) :
    occurrences matchAt p b = occurrences matchAt p q ++ occurrences matchAt q b := by
  have hrange : List.range' p (b - p) = List.range' p (q - p) ++ List.range' q (b - q) := by
    have hsplit := @List.range'_append_1 p (q - p) (b - q)
    rw [Nat.add_sub_cancel' hpq] at hsplit
    rw [hsplit]
    congr 1
    omega
  rw [occurrences, hrange, List.filterMap_append]
  refine congrArg₂ _ (List.filterMap_congr fun i hi => ?_) rfl
  rw [List.mem_range'_1] at hi
  refine Option.ext fun x => ?_
  rw [matchWithin_eq_some_iff, matchWithin_eq_some_iff]
  refine and_congr_right fun _ => and_congr_right fun hmatch => ⟨fun hle => ?_, fun hle => ?_⟩
  · exact h i x.2 hi.1 (by omega) hmatch hle
  · exact hle.trans hqb

theorem occurrences_sublist (hpq : p ≤ q) :
    (occurrences matchAt q b).Sublist (occurrences matchAt p b) := by
  refine List.Sublist.filterMap _ (List.IsSuffix.sublist ?_)
  rcases le_total q b with hqb | hbq
  · refine ⟨List.range' p (q - p), ?_⟩
    have hsplit := @List.range'_append_1 p (q - p) (b - q)
    rw [Nat.add_sub_cancel' hpq] at hsplit
    rw [hsplit]
    congr 1
    omega
  · rw [Nat.sub_eq_zero_of_le hbq]
    exact List.nil_suffix

/-- **The first occurrence, and those behind it.** -/
theorem Separate.occurrences_eq_cons (h : Separate matchAt)
    (hsearch : reSearchForward matchAt p b = some (i, e)) :
    p ≤ i ∧ i < e ∧ e ≤ b ∧ matchAt i = some e ∧
      occurrences matchAt p b = (i, e) :: occurrences matchAt e b := by
  obtain ⟨before, j, behind, hrange, hmatch, hbefore⟩ := List.findSome?_eq_some_iff.mp hsearch
  obtain ⟨rfl, hie, heb⟩ := matchWithin_eq_some_iff.mp hmatch
  dsimp only at hrange hmatch hie heb
  have hlt := h.lt i e hie
  obtain ⟨k, hk, rfl, hbehind⟩ := List.range'_eq_append_iff.mp hrange
  obtain ⟨hpk, hpos, rfl⟩ := List.range'_eq_cons_iff.mp hbehind.symm
  have hrest : occurrences matchAt (i + 1) b = occurrences matchAt e b := by
    rw [occurrences_append hlt heb, occurrences_eq_nil (p := i + 1) (b := e), List.nil_append]
    · intro j e' hj hmatch' hle
      have hje := h.lt j e' hmatch'
      rw [h.eq_none i e j hie hj (by omega)] at hmatch'
      exact Option.some_ne_none e' hmatch'.symm
    · intro j e' hj hje hmatch' _
      rw [h.eq_none i e j hie hj hje] at hmatch'
      exact absurd hmatch'.symm (Option.some_ne_none e')
  refine ⟨by omega, hlt, heb, hie, ?_⟩
  have hlength : b - p - k - 1 = b - (i + 1) := by omega
  rw [occurrences, hrange, List.filterMap_append, List.filterMap_eq_nil_iff.mpr hbefore,
    List.nil_append, List.filterMap_cons_some hmatch, hlength]
  exact congrArg _ hrest

theorem occurrences_eq_nil_of_search (hsearch : reSearchForward matchAt p b = none) :
    occurrences matchAt p b = [] := by
  rw [← head?_occurrences] at hsearch
  exact List.head?_eq_none_iff.mp hsearch

/-- What matches less has occurrences that do not overlap, either. -/
theorem Separate.mono {f g : ℕ → Option ℕ} (h : Separate g)
    (hfg : ∀ i e, f i = some e → g i = some e) : Separate f where
  lt i e hi := h.lt i e (hfg i e hi)
  eq_none i e j hi hij hje := by
    refine Option.eq_none_iff_forall_ne_some.mpr fun e' hj => ?_
    exact Option.some_ne_none e' ((hfg j e' hj).symm.trans (h.eq_none i e j (hfg i e hi) hij hje))

end Occurrences

/-! ### Symbols -/

/-- The syntax classes that are told apart here. -/
inductive SyntaxClass
  | word
  | symbol
  | endComment
  | genericComment
  | stringQuote
  | other
  deriving DecidableEq, Repr

/-- Words and symbols are made of characters of these classes. -/
def SyntaxClass.isConstituent : SyntaxClass → Bool
  | .word | .symbol => true
  | .endComment | .genericComment | .stringQuote | .other => false

/-- Comments and strings end with characters of these classes. -/
def SyntaxClass.isDelimiter : SyntaxClass → Bool
  | .endComment | .genericComment | .stringQuote => true
  | .word | .symbol | .other => false

/-- The syntax classes of characters. A newline is not part of a symbol. -/
structure SyntaxTable where
  syntaxClass : Char → SyntaxClass
  newline : (syntaxClass '\n').isConstituent = false

namespace SyntaxTable

variable (T : SyntaxTable) (text : List Char)

def constituent (c : Char) : Bool := (T.syntaxClass c).isConstituent

/-- Whether a constituent of symbols stands behind a position. -/
def constituentAt (i : ℕ) : Bool := text[i]?.any T.constituent

/-- Whether a constituent of symbols stands before a position. -/
def constituentBefore (i : ℕ) : Bool := i ≠ 0 && T.constituentAt text (i - 1)

/-- A match of the regexp `\_<`. -/
def symbolStartP (i : ℕ) : Bool := T.constituentAt text i && ! T.constituentBefore text i

/-- A match of the regexp `\_>`. -/
def symbolEndP (i : ℕ) : Bool := T.constituentBefore text i && ! T.constituentAt text i

/-- Where the constituents of symbols behind a position end. -/
def symbolEndFrom (i : ℕ) : ℕ := i + ((text.drop i).takeWhile T.constituent).length

/-- The end of the symbol that begins at a position. -/
def symbolAt (i : ℕ) : Option ℕ :=
  if T.symbolStartP text i then some (T.symbolEndFrom text i) else none

variable {T text} {i e k : ℕ}

theorem symbolAt_eq_some_iff :
    T.symbolAt text i = some e ↔ T.symbolStartP text i = true ∧ T.symbolEndFrom text i = e := by
  rw [symbolAt]
  split_ifs with h
  · rw [Option.some.injEq]
    exact ⟨fun he => ⟨h, he⟩, And.right⟩
  · exact iff_of_false id fun hand => h hand.1

/-- The constituents of symbols behind a position, and what follows. -/
theorem getElem?_add (i k : ℕ) : text[i + k]? =
    ((text.drop i).takeWhile T.constituent ++ (text.drop i).dropWhile T.constituent)[k]? := by
  rw [List.takeWhile_append_dropWhile, List.getElem?_drop]

theorem constituentAt_of_lt (hik : i ≤ k) (hke : k < T.symbolEndFrom text i) :
    T.constituentAt text k = true := by
  obtain ⟨j, rfl⟩ := Nat.exists_eq_add_of_le hik
  have hlt : j < ((text.drop i).takeWhile T.constituent).length := by
    rw [symbolEndFrom] at hke
    omega
  rw [constituentAt, getElem?_add (T := T), List.getElem?_append_left hlt,
    List.getElem?_eq_getElem hlt, Option.any_some]
  exact List.mem_takeWhile_imp (List.getElem_mem hlt)

theorem constituentAt_symbolEndFrom (T : SyntaxTable) (text : List Char) (i : ℕ) :
    T.constituentAt text (T.symbolEndFrom text i) = false := by
  rw [constituentAt, symbolEndFrom, getElem?_add (T := T), List.getElem?_append_right le_rfl,
    Nat.sub_self, ← List.head?_eq_getElem?]
  have hnot := List.head?_dropWhile_not T.constituent (text.drop i)
  cases hhead : ((text.drop i).dropWhile T.constituent).head? with
  | none => rfl
  | some c =>
      rw [hhead] at hnot
      exact hnot

theorem symbolEndFrom_le_length (h : i ≤ text.length) : T.symbolEndFrom text i ≤ text.length := by
  have hle := (List.takeWhile_prefix (p := T.constituent) (l := text.drop i)).length_le
  rw [List.length_drop] at hle
  rw [symbolEndFrom]
  omega

theorem lt_length_of_constituentAt (h : T.constituentAt text i = true) : i < text.length := by
  rw [constituentAt, Option.any_eq_true] at h
  obtain ⟨c, hc, -⟩ := h
  exact (List.getElem?_eq_some_iff.mp hc).1

theorem lt_symbolEndFrom (h : T.constituentAt text i = true) : i < T.symbolEndFrom text i := by
  have hle : i ≤ T.symbolEndFrom text i := Nat.le_add_right _ _
  refine lt_of_le_of_ne hle fun heq => ?_
  have hend := constituentAt_symbolEndFrom T text i
  rw [← heq, h] at hend
  exact Bool.false_ne_true hend.symm

theorem symbolStartP_of_symbolAt (h : T.symbolAt text i = some e) :
    T.constituentAt text i = true ∧ T.constituentBefore text i = false := by
  have hstart := (symbolAt_eq_some_iff.mp h).1
  rwa [symbolStartP, Bool.and_eq_true, Bool.not_eq_true'] at hstart

/-- All characters of a symbol are constituents. -/
theorem constituentAt_of_symbolAt (h : T.symbolAt text i = some e) (hik : i ≤ k) (hke : k < e) :
    T.constituentAt text k = true := by
  obtain ⟨-, rfl⟩ := symbolAt_eq_some_iff.mp h
  exact constituentAt_of_lt hik hke

theorem le_length_of_symbolAt (h : T.symbolAt text i = some e) : e ≤ text.length := by
  obtain ⟨-, rfl⟩ := symbolAt_eq_some_iff.mp h
  exact symbolEndFrom_le_length (lt_length_of_constituentAt (symbolStartP_of_symbolAt h).1).le

/-- Symbols are not empty and do not overlap. -/
theorem separate_symbolAt (T : SyntaxTable) (text : List Char) : Separate (T.symbolAt text) where
  lt i e h := by
    obtain ⟨-, rfl⟩ := symbolAt_eq_some_iff.mp h
    exact lt_symbolEndFrom (symbolStartP_of_symbolAt h).1
  eq_none i e j h hij hje := by
    refine Option.eq_none_iff_forall_ne_some.mpr fun e' hj => ?_
    have hbefore := (symbolStartP_of_symbolAt hj).2
    rw [constituentBefore, constituentAt_of_symbolAt h (k := j - 1) (by omega) (by omega),
      Bool.and_true, decide_eq_false_iff_not, not_not] at hbefore
    omega

/-- A symbol ends where the regexp `\_>` matches. -/
theorem symbolEndP_of_symbolAt (h : T.symbolAt text i = some e) :
    T.symbolEndP text e = true := by
  have hlt := (separate_symbolAt T text).lt i e h
  rw [symbolEndP, constituentBefore, constituentAt_of_symbolAt h (k := e - 1) (by omega) (by omega),
    ← (symbolAt_eq_some_iff.mp h).2, constituentAt_symbolEndFrom T text i, Bool.not_false,
    Bool.and_true, Bool.and_true, decide_eq_true_eq, (symbolAt_eq_some_iff.mp h).2]
  exact Nat.ne_zero_of_lt hlt

/-- Constituents that stand behind a position do not change where the run of them ends. -/
theorem symbolEndFrom_add {t : List Char} (ht : ∀ c ∈ t, T.constituent c = true)
    (h : t <+: text.drop i) : T.symbolEndFrom text (i + t.length) = T.symbolEndFrom text i := by
  obtain ⟨rest, hrest⟩ := h
  have hdrop : text.drop (i + t.length) = rest := by
    rw [← List.drop_drop, ← hrest, List.drop_left]
  rw [symbolEndFrom, symbolEndFrom, hdrop, ← hrest, List.takeWhile_append_of_pos ht,
    List.length_append, Nat.add_assoc]

end SyntaxTable

end DotEmacs.Elisp
