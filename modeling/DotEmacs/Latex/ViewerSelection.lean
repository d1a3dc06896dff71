import DotEmacs.Elisp.LinkedHeap
import DotEmacs.Elisp.Object
import Mathlib.Data.List.TakeWhile

/-!
# The viewer of PDF files

Every LaTeX buffer that is opened runs `my-latex-hook`, which removes the `output-pdf` entries of
`TeX-view-program-selection` by `assq-delete-all` and adds its own by `add-to-list`. The removal
is in place, and its value is not used: the entries at the front, which are skipped and not taken
out, stay in the list that the variable holds. So the hook leaves a single `output-pdf` entry
exactly when there was none at the front, or the hook's own alone.

The hook's other calls turn minor modes on; they are left out.

## Main definitions

* `Latex.Entry`, `Latex.findViewer`: the entries, and the search of AUCTeX among them.
* `Latex.Selection`, `Latex.myLatexHook`: the variable with the cells of its list, and the hook.
* `Latex.SelectsViewer`: what an execution of the hook is expected to leave.
* `Latex.executions`: the executions of the hook in a run.

## Main results

* `Latex.contents_myLatexHook`: the list that an execution of the hook leaves.
* `Latex.selectsViewer_iff`: when one execution meets the expectation.
* `Latex.forall_executions_iff`: when all executions of a run do.
-/

namespace DotEmacs.Latex

open Elisp

/-! ### Entries -/

/-- The key of an entry: a predicate symbol, or a list of them. -/
inductive Key
  | symbol (p : Symbol)
  | symbols (ps : List Symbol)
  deriving DecidableEq, Repr

/-- An entry of `TeX-view-program-selection`: a key and the name of a viewer. -/
structure Entry where
  key : Key
  viewer : String
  deriving DecidableEq, Repr

def outputPdf : Symbol := .plain "output-pdf"

/-- The entry of a viewer for PDF files. -/
def pdfEntry (viewer : String) : Entry := ⟨.symbol outputPdf, viewer⟩

/-- The entry that the hook adds. -/
def sumatraPdf : Entry := pdfEntry "Sumatra PDF"

/-- The entries whose key is the symbol `output-pdf`. -/
def isPdf (e : Entry) : Bool := e.key = .symbol outputPdf

/-- `TeX-view-match-predicate`, for given truth values of the predicate symbols.

Source: `tex.el`, lines 1450–1465. -/
def texViewMatchPredicate (holds : Symbol → Bool) : Key → Bool
  | .symbol p => holds p
  | .symbols ps => ps.all holds

/-- The search of `TeX-view-command-raw` for a viewer.

Source: `tex.el`, lines 1469–1474. -/
def findViewer (holds : Symbol → Bool) : List Entry → Option String
  | [] => none
  | entry :: selection =>
      if texViewMatchPredicate holds entry.key then some entry.viewer
      else findViewer holds selection

/-! ### The variable -/

/-- The value of `TeX-view-program-selection`, as the first of the cons cells of its list. -/
structure Selection where
  heap : LinkedHeap Entry
  value : Option ℕ
  value_lt : ∀ a ∈ value, a < heap.size

namespace Selection

variable (s : Selection)

/-- The entries of the list. -/
def contents : List Entry := s.heap.values s.value

/-- `(push entry TeX-view-program-selection)`. -/
def push (entry : Entry) : Selection where
  heap := s.heap.alloc entry s.value s.value_lt
  value := some s.heap.size
  value_lt a ha := by
    obtain rfl := Option.mem_some_iff.mp ha
    exact Nat.lt_succ_self _

/-- `(add-to-list 'TeX-view-program-selection entry)`. -/
def addToList (entry : Entry) : Selection := if entry ∈ s.contents then s else s.push entry

/-- `(assq-delete-all key TeX-view-program-selection)`: the value that it returns, and the
variable after it. -/
def assqDeleteAll (key : Symbol) : Option ℕ × Selection :=
  let removed := s.heap.unlink (fun entry => entry.key = .symbol key) s.value
  (removed.1,
    { heap := removed.2
      value := s.value
      value_lt := fun a ha => (s.heap.size_unlink _ s.value).symm ▸ s.value_lt a ha })

@[simp] theorem contents_push (entry : Entry) : (s.push entry).contents = entry :: s.contents :=
  s.heap.values_alloc_size entry s.value_lt

/-- The variable with an empty list. -/
def empty : Selection where
  heap := .empty sumatraPdf
  value := none
  value_lt := fun a ha => absurd ha (Option.not_mem_none a)

/-- The variable with a given list. -/
def ofList (entries : List Entry) : Selection :=
  entries.foldr (fun entry s => s.push entry) empty

/-- Every list of entries is the value of the variable in some state. -/
@[simp] theorem contents_ofList (entries : List Entry) : (ofList entries).contents = entries := by
  induction entries with
  | nil => rfl
  | cons entry entries ih => rw [ofList, List.foldr_cons, contents_push, ← ofList, ih]

/-- On the variable `add-to-list` is insertion without duplication. -/
theorem contents_addToList (entry : Entry) :
    (s.addToList entry).contents = s.contents.insert entry := by
  rw [addToList]
  split_ifs with h
  · rw [List.insert_of_mem h]
  · rw [contents_push, List.insert_of_not_mem h]

end Selection

/-- `my-latex-hook`.

Source: `init/programming/languages/init-prog-lang-tex.el`, lines 46–56. -/
def myLatexHook (s : Selection) : Selection :=
  (s.assqDeleteAll outputPdf).2.addToList sumatraPdf

/-- The `output-pdf` entries at the front of the list. -/
def Selection.front (s : Selection) : List Entry := s.contents.takeWhile isPdf

/-- What an execution of the hook leaves: its entry, unless it is there, before the `output-pdf`
entries at the front and the entries with other keys. -/
theorem contents_myLatexHook (s : Selection) :
    (myLatexHook s).contents =
      (s.front ++ s.contents.filter fun e => !isPdf e).insert sumatraPdf := by
  rw [myLatexHook, Selection.contents_addToList]
  exact congrArg (List.insert sumatraPdf) (s.heap.values_unlink_snd isPdf s.value)

/-! ### One execution -/

/-- What an execution of the hook is expected to leave: its entry is the only one for
`output-pdf` and the first of all, the entries with other keys stay in order, a repeated execution
changes nothing, and AUCTeX finds the viewer for every PDF file. -/
structure SelectsViewer (before after : Selection) : Prop where
  filter_isPdf : after.contents.filter isPdf = [sumatraPdf]
  head? : after.contents.head? = some sumatraPdf
  filter_not_isPdf : (after.contents.filter fun e => !isPdf e) =
    before.contents.filter fun e => !isPdf e
  repeated : (myLatexHook after).contents = after.contents
  findViewer_eq : ∀ holds : Symbol → Bool, holds outputPdf →
    findViewer holds after.contents = some "Sumatra PDF"

theorem isPdf_of_mem_front {s : Selection} {e : Entry} (he : e ∈ s.front) : isPdf e :=
  List.mem_takeWhile_imp he

theorem filter_isPdf_front (s : Selection) :
    (s.front ++ s.contents.filter fun e => !isPdf e).filter isPdf = s.front := by
  have hnone : (s.contents.filter fun e => !isPdf e).filter isPdf = [] := by
    rw [List.filter_filter, List.filter_eq_nil_iff]
    simp
  rw [List.filter_append, hnone, List.append_nil,
    List.filter_eq_self.mpr fun e he => isPdf_of_mem_front he]

/-- The list that is left when there was no `output-pdf` entry at the front, or that of the hook
alone. -/
theorem contents_myLatexHook_eq_cons {s : Selection} (h : s.front = [] ∨ s.front = [sumatraPdf]) :
    (myLatexHook s).contents = sumatraPdf :: s.contents.filter fun e => !isPdf e := by
  rw [contents_myLatexHook]
  rcases h with h | h
  · rw [h, List.nil_append, List.insert_of_not_mem]
    simp [isPdf, sumatraPdf, pdfEntry]
  · rw [h, List.insert_of_mem (by simp), List.singleton_append]

/-- Behind such an execution the hook's entry is the only one at the front. -/
theorem front_myLatexHook {s : Selection} (h : s.front = [] ∨ s.front = [sumatraPdf]) :
    (myLatexHook s).front = [sumatraPdf] := by
  have hhead : isPdf sumatraPdf := by decide
  have hnone : (s.contents.filter fun e => !isPdf e).takeWhile isPdf = [] := by
    rw [List.takeWhile_eq_nil_iff]
    intro hl
    simpa using (List.mem_filter.mp (List.get_mem _ ⟨0, hl⟩)).2
  rw [Selection.front, contents_myLatexHook_eq_cons h, List.takeWhile_cons_of_pos hhead, hnone]

/-- One execution meets the expectation exactly when it finds no `output-pdf` entry at the front
of the list, or that of the hook alone. -/
theorem selectsViewer_iff (s : Selection) :
    SelectsViewer s (myLatexHook s) ↔ s.front = [] ∨ s.front = [sumatraPdf] := by
  constructor
  · intro h
    have hpdf := h.filter_isPdf
    rw [contents_myLatexHook] at hpdf
    by_cases hmem : sumatraPdf ∈ s.front ++ s.contents.filter fun e => !isPdf e
    · rw [List.insert_of_mem hmem, filter_isPdf_front] at hpdf
      exact Or.inr hpdf
    · have hhead : isPdf sumatraPdf := by decide
      rw [List.insert_of_not_mem hmem, List.filter_cons_of_pos hhead, filter_isPdf_front,
        List.cons.injEq] at hpdf
      exact Or.inl hpdf.2
  · intro h
    have hcontents := contents_myLatexHook_eq_cons h
    have hhead : isPdf sumatraPdf := by decide
    refine ⟨?_, by rw [hcontents, List.head?_cons], ?_, ?_, fun holds hpdf => ?_⟩
    · rw [hcontents, List.filter_cons_of_pos hhead, List.filter_filter,
        List.filter_eq_nil_iff.mpr (by simp)]
    · rw [hcontents, List.filter_cons_of_neg (by simp [hhead]), List.filter_filter]
      simp only [Bool.and_self]
    · rw [contents_myLatexHook_eq_cons (Or.inr (front_myLatexHook h)), hcontents,
        List.filter_cons_of_neg (by simp [hhead]), List.filter_filter]
      simp only [Bool.and_self]
    · rw [hcontents, findViewer, if_pos]
      · rfl
      · exact hpdf

/-! ### Runs -/

/-- A LaTeX buffer is opened, or other code pushes an `output-pdf` entry. -/
inductive Event
  | latexHook
  | push (viewer : String)
  deriving DecidableEq, Repr

/-- The executions of the hook in a run, each with the states before and after it. -/
def executions : List Event → Selection → List (Selection × Selection)
  | [], _ => []
  | .latexHook :: events, s => (s, myLatexHook s) :: executions events (myLatexHook s)
  | .push viewer :: events, s => executions events (s.push (pdfEntry viewer))

/-- At every execution of the hook in a run the `output-pdf` entries at the front are none or that
of the hook alone. They start as `front`, each push adds one, and the hook's own entry is there
after each of its executions. -/
def FrontsClear : List Event → List Entry → Prop
  | [], _ => True
  | .latexHook :: events, front =>
      (front = [] ∨ front = [sumatraPdf]) ∧ FrontsClear events [sumatraPdf]
  | .push viewer :: events, front => FrontsClear events (pdfEntry viewer :: front)

theorem front_push (s : Selection) (viewer : String) :
    (s.push (pdfEntry viewer)).front = pdfEntry viewer :: s.front := by
  have hhead : isPdf (pdfEntry viewer) := by simp [isPdf, pdfEntry]
  rw [Selection.front, Selection.contents_push, List.takeWhile_cons_of_pos hhead, Selection.front]

/-- **The hook selects the viewer.** All executions of the hook in a run meet the expectation
exactly when none of them finds an `output-pdf` entry at the front other than the hook's own, nor
that one twice. -/
theorem forall_executions_iff (events : List Event) (s : Selection) :
    (∀ x ∈ executions events s, SelectsViewer x.1 x.2) ↔ FrontsClear events s.front := by
  induction events generalizing s with
  | nil => simp [executions, FrontsClear]
  | cons event events ih =>
      cases event with
      | latexHook =>
          rw [executions, List.forall_mem_cons, selectsViewer_iff, ih, FrontsClear]
          refine and_congr_right fun h => ?_
          rw [front_myLatexHook h]
      | push viewer => rw [executions, ih, front_push, FrontsClear]

/-- An `output-pdf` entry at the front of the list survives the hook. -/
theorem not_selectsViewer_evince :
    ¬ ∀ x ∈ executions [.latexHook]
        (.ofList [pdfEntry "Evince", ⟨.symbol (.plain "output-dvi"), "xdvi"⟩]),
      SelectsViewer x.1 x.2 := by
  intro h
  have hpdf := (h (_, _) List.mem_cons_self).filter_isPdf
  exact absurd hpdf (by decide)

end DotEmacs.Latex
