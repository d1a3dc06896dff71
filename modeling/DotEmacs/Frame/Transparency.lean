import DotEmacs.Elisp.Alist
import DotEmacs.Elisp.Object
import Mathlib.Logic.Function.Basic

/-!
# Transparency of existing and new frames

`my:set-transparency-alpha` writes a setting through two channels. The `alpha` parameter of the
selected frame is overwritten; `default-frame-alist`, from which new frames take their parameters,
gets an entry by `add-to-list`, which leaves an entry that is there already where it is. The first
`alpha` entry is then the last one that was new when it was set, and a new frame looks like the
selected one exactly when that is the entry of the last call.

## Main definitions

* `Frame.stringToNumber`: `string-to-number`.
* `Frame.Frames`, `Frame.mySetTransparencyAlpha`, `Frame.setTransparencies`.
* `Frame.NewFramesAgree`: a new frame gets the `alpha` parameter of a given frame.

## Main results

* `Frame.defaultFrameAlist_setTransparencies`, `Frame.parameter_setTransparencies_concat`: what
  a sequence of calls leaves in the two channels.
* `Frame.newFramesAgree_iff`: when new frames agree with the frame of the last call.
-/

namespace DotEmacs.Frame

open Elisp Obj

/-! ### Numbers from strings -/

/-- Integers, without the bound of a fixnum, and floats, as bit patterns. -/
inductive Number
  | int (n : ℤ)
  | float (bits : UInt64)
  deriving DecidableEq, Repr

namespace Number

def toObj : Number → Obj
  | .int n => .int n
  | .float bits => .float bits

/-- `(- x n)` for an integer `n`. -/
def sub : Number → ℕ → Number
  | .int m, n => .int (m - n)
  | .float bits, n => .float (Float.ofBits bits - n.toFloat).toBits

end Number

/-- The digits at the front of a text, and what is behind them. -/
def spanDigits (cs : List Char) : List Char × List Char := cs.span Char.isDigit

/-- The number that decimal digits stand for. -/
def digitsValue (ds : List Char) : ℕ := ds.foldl (fun n d => 10 * n + (d.toNat - '0'.toNat)) 0

/-- A sign at the front of a text: whether it is a minus, and what is behind it. -/
def spanSign : List Char → Bool × List Char
  | '-' :: cs => (true, cs)
  | '+' :: cs => (false, cs)
  | cs => (false, cs)

/-- The exponents that a float can be written with. -/
inductive Exponent
  | decimal (n : ℤ)
  | infinity
  | notANumber

/-- The exponent at the front of a text, if there is one. -/
def readExponent : List Char → Option Exponent
  | [] => none
  | e :: cs =>
      let (negative, ds) := spanSign cs
      let digits := (spanDigits ds).1
      if e ≠ 'e' ∧ e ≠ 'E' then none
      else if digits ≠ [] then
        some (.decimal (if negative then -digitsValue digits else digitsValue digits))
      else if "+INF".toList.isPrefixOf cs then some .infinity
      else if "+NaN".toList.isPrefixOf cs then some .notANumber
      else none

/-- The float `m * 10 ^ e`. -/
def decimalFloat (m : ℕ) : Exponent → ℤ → Float
  | .decimal e, shift =>
      if e + shift < 0 then .ofScientific m true (e + shift).natAbs
      else .ofScientific m false (e + shift).natAbs
  | .infinity, _ => 1 / 0
  | .notANumber, _ => 0 / 0

/-- `string-to-number`, in base ten. A float needs digits behind its point, or an exponent behind
an integer; what follows the number is left unread, and a text without a number gives zero. -/
def stringToNumber (s : String) : Number :=
  let (negative, cs) := spanSign (s.toList.dropWhile fun c => c = ' ' ∨ c = '\t')
  let (lead, cs) := spanDigits cs
  let (dot, cs) : Bool × List Char := match cs with
    | '.' :: cs => (true, cs)
    | cs => (false, cs)
  let (trail, cs) := spanDigits cs
  let exponent := readExponent cs
  if dot ∧ trail ≠ [] ∨ lead ≠ [] ∧ ¬dot ∧ exponent.isSome then
    let x := decimalFloat (digitsValue (lead ++ trail)) (exponent.getD (.decimal 0)) (-trail.length)
    .float (if negative then -x else x).toBits
  else .int (if negative then -digitsValue lead else digitsValue lead)

example : [stringToNumber "95", stringToNumber " -7.", stringToNumber "4x", stringToNumber "x"] =
    [.int 95, .int (-7), .int 4, .int 0] := by decide

/-! ### Frames -/

/-- The parameters of the live frames, and those of new frames. -/
structure Frames (Frame : Type) where
  parameter : Frame → Symbol → Obj
  defaultFrameAlist : List (Symbol × Obj)

namespace Frames

variable {Frame : Type} (s : Frames Frame)

/-- `(set-frame-parameter frame p value)`. -/
def setFrameParameter [DecidableEq Frame] (frame : Frame) (p : Symbol) (value : Obj) :
    Frames Frame :=
  { s with
    parameter := Function.update s.parameter frame (Function.update (s.parameter frame) p value) }

/-- `(add-to-list 'default-frame-alist entry)`. -/
def addToDefaultFrameAlist (entry : Symbol × Obj) : Frames Frame :=
  { s with defaultFrameAlist := s.defaultFrameAlist.insert entry }

/-- The value that a new frame gets for a parameter: that of the first entry. -/
def newFrameParameter (p : Symbol) : Option Obj := s.defaultFrameAlist.lookup p

end Frames

variable {Frame : Type} [DecidableEq Frame]

def alpha : Symbol := .plain "alpha"

/-- `my:set-transparency-alpha`, called with a given frame selected.

Source: `init/Emacs/init-emacs-appearance.el`, lines 15–28. -/
def mySetTransparencyAlpha (selectedFrame : Frame) (setting : String) (s : Frames Frame) :
    Frames Frame :=
  if setting = "unset" then
    (s.setFrameParameter selectedFrame alpha (ofList [.int 100, .int 100])).addToDefaultFrameAlist
      (alpha, ofList [.int 100, .int 100])
  else
    let activeAlpha := stringToNumber setting
    let inactiveAlpha := activeAlpha.sub 20
    (s.setFrameParameter selectedFrame alpha
      (ofList [activeAlpha.toObj, inactiveAlpha.toObj])).addToDefaultFrameAlist
      (alpha, ofList [activeAlpha.toObj, inactiveAlpha.toObj])

/-- A sequence of calls, each with the frame that is selected in it. -/
def setTransparencies (calls : List (Frame × String)) (s : Frames Frame) : Frames Frame :=
  calls.foldl (fun s call => mySetTransparencyAlpha call.1 call.2 s) s

/-- The value that a setting stands for. -/
def settingValue (setting : String) : Obj :=
  if setting = "unset" then ofList [.int 100, .int 100]
  else ofList [(stringToNumber setting).toObj, ((stringToNumber setting).sub 20).toObj]

/-- The entry of `default-frame-alist` that a setting stands for. -/
def settingEntry (setting : String) : Symbol × Obj := (alpha, settingValue setting)

theorem mySetTransparencyAlpha_eq (selectedFrame : Frame) (setting : String) (s : Frames Frame) :
    mySetTransparencyAlpha selectedFrame setting s =
      (s.setFrameParameter selectedFrame alpha (settingValue setting)).addToDefaultFrameAlist
        (settingEntry setting) := by
  rw [mySetTransparencyAlpha, settingEntry, settingValue]
  split_ifs <;> rfl

theorem setTransparencies_concat (calls : List (Frame × String)) (frame : Frame)
    (setting : String) (s : Frames Frame) :
    setTransparencies (calls ++ [(frame, setting)]) s =
      mySetTransparencyAlpha frame setting (setTransparencies calls s) := by
  rw [setTransparencies, List.foldl_append]
  rfl

/-- The calls add their entries to `default-frame-alist` in turn. -/
theorem defaultFrameAlist_setTransparencies (calls : List (Frame × String)) (s : Frames Frame) :
    (setTransparencies calls s).defaultFrameAlist =
      insertAll s.defaultFrameAlist (calls.map fun call => settingEntry call.2) := by
  induction calls generalizing s with
  | nil => rfl
  | cons call calls ih =>
      rw [setTransparencies, List.foldl_cons, ← setTransparencies, ih, mySetTransparencyAlpha_eq]
      rfl

/-- The selected frame of the last call has the value of the last setting. -/
theorem parameter_setTransparencies_concat (calls : List (Frame × String)) (frame : Frame)
    (setting : String) (s : Frames Frame) :
    (setTransparencies (calls ++ [(frame, setting)]) s).parameter frame alpha =
      settingValue setting := by
  rw [setTransparencies_concat, mySetTransparencyAlpha_eq]
  simp [Frames.setFrameParameter, Frames.addToDefaultFrameAlist]

/-- A new frame gets the `alpha` parameter that the given frame has. -/
def NewFramesAgree (frame : Frame) (s : Frames Frame) : Prop :=
  s.newFrameParameter alpha = some (s.parameter frame alpha)

instance (frame : Frame) (s : Frames Frame) : Decidable (NewFramesAgree frame s) :=
  inferInstanceAs (Decidable (_ = _))

/-- **Agreement of new frames.** After a sequence of calls, new frames agree with the frame of the
last one exactly when its setting is the last that was new to `default-frame-alist`, or when all
settings were there from the start and its is the first `alpha` entry. -/
theorem newFramesAgree_iff (s : Frames Frame) (calls : List (Frame × String)) (frame : Frame)
    (setting : String) :
    NewFramesAgree frame (setTransparencies (calls ++ [(frame, setting)]) s) ↔
      LastNew s.defaultFrameAlist ((calls ++ [(frame, setting)]).map fun call =>
          settingEntry call.2) (settingEntry setting) ∨
        (∀ call ∈ calls ++ [(frame, setting)], settingEntry call.2 ∈ s.defaultFrameAlist) ∧
          s.newFrameParameter alpha = some (settingValue setting) := by
  rw [NewFramesAgree, parameter_setTransparencies_concat, Frames.newFrameParameter,
    defaultFrameAlist_setTransparencies, Frames.newFrameParameter]
  set entries := (calls ++ [(frame, setting)]).map fun call => settingEntry call.2 with hentries
  have hold : (∀ call ∈ calls ++ [(frame, setting)], settingEntry call.2 ∈ s.defaultFrameAlist) ↔
      ∀ x ∈ entries, x ∈ s.defaultFrameAlist := by
    rw [hentries, List.forall_mem_map]
  rw [hold]
  constructor
  · intro hagree
    by_cases hall : ∀ x ∈ entries, x ∈ s.defaultFrameAlist
    · rw [insertAll_eq_self hall] at hagree
      exact Or.inr ⟨hall, hagree⟩
    · obtain ⟨e, he⟩ := exists_lastNew hall
      obtain ⟨l', hl'⟩ := he.insertAll_eq_cons
      have hmem : e ∈ entries := he.mem
      obtain ⟨call, -, rfl⟩ := List.mem_map.mp hmem
      rw [hl', settingEntry, List.lookup_cons_self, Option.some.injEq] at hagree
      refine Or.inl ?_
      rwa [settingEntry, ← hagree]
  · rintro (hlast | ⟨hall, hfirst⟩)
    · obtain ⟨l', hl'⟩ := hlast.insertAll_eq_cons
      rw [hl', settingEntry, List.lookup_cons_self]
    · rwa [insertAll_eq_self hall]

/-- Back at the start-up setting, new frames keep the one that was set in between. -/
theorem not_newFramesAgree_95_80_95 :
    ¬ NewFramesAgree () (setTransparencies [((), "95"), ((), "80"), ((), "95")]
      { parameter := fun _ _ => .nil, defaultFrameAlist := [] }) := by
  decide

end DotEmacs.Frame
