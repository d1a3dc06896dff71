import Mathlib.Data.Int.Notation
import Mathlib.Data.List.Basic
import Mathlib.Data.Nat.Notation

/-!
# Lisp objects and lists

The values of Emacs Lisp that a program can build from symbols, numbers, strings, vectors,
char-tables and cons cells, with the list primitives that signal on an argument of the wrong
type. A list is `nil` or a cons whose `cdr` is a list; a cons whose chain of `cdr`s ends in
another atom is a dotted list, on which `member` and `append` signal.

`nil` is a constructor of its own, since it is both the empty list and a symbol. The other
symbols are split into keywords and plain symbols: a keyword is a symbol whose name begins with
a colon (the colon is left out of `name`).

## Main definitions

* `Elisp.Symbol`, `Elisp.Obj`, `Elisp.Signal`.
* `Elisp.Obj.ofList`: the Lisp list of the elements of a list.
* `Elisp.car`, `Elisp.cdr`, `Elisp.member`, `Elisp.elements`, `Elisp.append`: the primitives, each
  with the arguments on which it signals.

## Main results

* `Elisp.member_ofList`: on a proper list `member` is membership.
* `Elisp.listElements_eq_ok`: the elements of a list are found exactly on proper lists.
* `Elisp.not_mem_of_eq_ofList`: no list is an element of itself.
-/

namespace DotEmacs.Elisp

/-! ### Objects -/

/-- A symbol other than `nil`. The keyword `:with` is `.keyword "with"`. -/
inductive Symbol
  | keyword (name : String)
  | plain (name : String)
  deriving DecidableEq, Repr

/-- Lisp objects, compared as `equal` does: by structure. A float is held as its bit pattern,
which is what `equal` compares; a char-table is held as the alist of its non-nil entries. -/
inductive Obj
  | nil
  | sym (s : Symbol)
  | int (n : ℤ)
  | float (bits : UInt64)
  | str (s : String)
  | vec (elts : Obj)
  | charTable (entries : Obj)
  | cons (car cdr : Obj)
  deriving DecidableEq, Repr

/-- The errors that the list primitives signal. -/
inductive Signal
  | wrongTypeArgument (predicate : String) (value : Obj)
  deriving DecidableEq, Repr

namespace Obj

/-- The plain symbol of a given name. -/
abbrev symbol (name : String) : Obj := .sym (.plain name)

/-- The keyword of a given name, written without its colon. -/
abbrev keyword (name : String) : Obj := .sym (.keyword name)

/-- The list whose elements are those of `xs`, ending in `tail`. -/
def ofListTail : List Obj → Obj → Obj
  | [], tail => tail
  | x :: xs, tail => .cons x (ofListTail xs tail)

/-- The proper list whose elements are those of `xs`. -/
def ofList (xs : List Obj) : Obj := ofListTail xs .nil

@[simp] theorem ofListTail_cons (x : Obj) (xs : List Obj) (tail : Obj) :
    ofListTail (x :: xs) tail = .cons x (ofListTail xs tail) := rfl

@[simp] theorem ofList_nil : ofList [] = .nil := rfl

@[simp] theorem ofList_cons (x : Obj) (xs : List Obj) :
    ofList (x :: xs) = .cons x (ofList xs) := rfl

theorem ofList_injective : Function.Injective ofList
  | [], [], _ => rfl
  | [], _ :: _, h => by simp at h
  | _ :: _, [], h => by simp at h
  | x :: xs, y :: ys, h => by
      simp only [ofList_cons, cons.injEq] at h
      rw [h.1, ofList_injective h.2]

@[simp] theorem ofList_inj {xs ys : List Obj} : ofList xs = ofList ys ↔ xs = ys :=
  ofList_injective.eq_iff

theorem ofListTail_append (xs ys : List Obj) (tail : Obj) :
    ofListTail (xs ++ ys) tail = ofListTail xs (ofListTail ys tail) := by
  induction xs with
  | nil => rfl
  | cons x xs ih => simp only [List.cons_append, ofListTail_cons, ih]

/-- A proper list all of whose elements satisfy `p`. -/
def all (p : Obj → Bool) : Obj → Bool
  | .nil => true
  | .cons a d => p a && d.all p
  | _ => false

@[simp] theorem all_ofList (p : Obj → Bool) (xs : List Obj) : (ofList xs).all p = xs.all p := by
  induction xs with
  | nil => rfl
  | cons x xs ih => simp only [ofList_cons, all, ih, List.all_cons]

end Obj

open Obj

/-! ### Primitives that signal -/

/-- `(car x)`. -/
def car : Obj → Except Signal Obj
  | .nil => .ok .nil
  | .cons a _ => .ok a
  | x => .error (.wrongTypeArgument "listp" x)

/-- `(cdr x)`. -/
def cdr : Obj → Except Signal Obj
  | .nil => .ok .nil
  | .cons _ d => .ok d
  | x => .error (.wrongTypeArgument "listp" x)

@[simp] theorem car_cons (a d : Obj) : car (.cons a d) = .ok a := rfl

@[simp] theorem cdr_cons (a d : Obj) : cdr (.cons a d) = .ok d := rfl

@[simp] theorem car_sym (s : Symbol) :
    car (.sym s) = .error (.wrongTypeArgument "listp" (.sym s)) := rfl

/-- Whether `x` is `equal` to an element of what is left of a list. -/
def memberTail (x list : Obj) : Obj → Except Signal Bool
  | .nil => .ok false
  | .cons a d => if x = a then .ok true else memberTail x list d
  | _ => .error (.wrongTypeArgument "listp" list)

/-- Whether `x` is `equal` to an element of a list; if a dotted end is reached, the list is
signalled. -/
def member (x list : Obj) : Except Signal Bool := memberTail x list list

theorem memberTail_ofList (x list : Obj) (xs : List Obj) :
    memberTail x list (ofList xs) = .ok (decide (x ∈ xs)) := by
  induction xs with
  | nil => simp [memberTail]
  | cons y ys ih =>
      rw [ofList_cons, memberTail, ih]
      by_cases h : x = y <;> simp [h]

@[simp] theorem member_ofList (x : Obj) (xs : List Obj) :
    member x (ofList xs) = .ok (decide (x ∈ xs)) :=
  memberTail_ofList x (ofList xs) xs

/-! ### Sequences -/

/-- The elements of a list, in order; a dotted end signals. -/
def listElements : Obj → Except Signal (List Obj)
  | .nil => .ok []
  | .cons a d => (listElements d).map (a :: ·)
  | x => .error (.wrongTypeArgument "listp" x)

/-- The elements of a list, a vector or a string; any other object signals. -/
def elements : Obj → Except Signal (List Obj)
  | .vec elts => listElements elts
  | .str s => .ok (s.toList.map fun c => .int c.toNat)
  | .nil => .ok []
  | .cons a d => listElements (.cons a d)
  | x => .error (.wrongTypeArgument "sequencep" x)

@[simp] theorem listElements_ofList (xs : List Obj) : listElements (ofList xs) = .ok xs := by
  induction xs with
  | nil => rfl
  | cons x xs ih => rw [ofList_cons, listElements, ih]; rfl

@[simp] theorem elements_nil : elements .nil = .ok [] := rfl

@[simp] theorem elements_sym (s : Symbol) :
    elements (.sym s) = .error (.wrongTypeArgument "sequencep" (.sym s)) := rfl

/-- The elements of a list are found exactly when it is a proper list. -/
theorem listElements_eq_ok : {o : Obj} → {xs : List Obj} →
    listElements o = .ok xs ↔ o = ofList xs
  | .nil, xs => by cases xs <;> simp [listElements]
  | .cons a d, xs => by
      rw [listElements]
      cases h : listElements d with
      | error e =>
          refine ⟨fun h' => (nomatch h'), fun h' => ?_⟩
          cases xs with
          | nil => cases h'
          | cons x xs =>
              simp only [ofList_cons, cons.injEq] at h'
              rw [h'.2, listElements_ofList] at h
              cases h
      | ok ys =>
          rw [listElements_eq_ok] at h
          subst h
          cases xs <;> simp [Except.map]
  | .sym _, xs | .int _, xs | .float _, xs | .str _, xs | .vec _, xs | .charTable _, xs => by
      cases xs <;> simp [listElements]

/-- The elements of a proper list are found, and those of other conses are not. -/
theorem elements_cons_eq_ok {a d : Obj} {xs : List Obj} :
    elements (.cons a d) = .ok xs ↔ Obj.cons a d = ofList xs :=
  listElements_eq_ok

theorem sizeOf_lt_of_mem_ofList {x : Obj} {xs : List Obj} (h : x ∈ xs) :
    sizeOf x < sizeOf (ofList xs) := by
  induction h with
  | head xs => simp only [ofList_cons, cons.sizeOf_spec]; omega
  | tail y _ ih => simp only [ofList_cons, cons.sizeOf_spec]; omega

/-- No list is an element of itself. -/
theorem not_mem_of_eq_ofList {o : Obj} {xs : List Obj} (h : o = ofList xs) : o ∉ xs :=
  fun hm => absurd (sizeOf_lt_of_mem_ofList hm) (by rw [← h]; exact Nat.lt_irrefl _)

/-- `(append s₁ … sₙ l)`: the elements of the sequences, with the last argument as tail. -/
def append : List Obj → Obj → Except Signal Obj
  | [], l => .ok l
  | s :: ss, l => do
      let xs ← elements s
      let rest ← append ss l
      return ofListTail xs rest

/-- When every sequence but the last is a proper list, `append` succeeds. -/
theorem append_ofList_cons (xs : List Obj) (ss : List Obj) (l : Obj) :
    append (ofList xs :: ss) l = (append ss l).map (ofListTail xs) := by
  have h : elements (ofList xs) = .ok xs := by
    cases xs with
    | nil => rfl
    | cons x xs => exact listElements_ofList (x :: xs)
  rw [append, h]
  cases append ss l <;> rfl

end DotEmacs.Elisp
