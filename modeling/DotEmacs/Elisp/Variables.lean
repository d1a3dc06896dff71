import DotEmacs.Elisp.Eval
import Mathlib.Logic.Function.Basic
import Mathlib.Tactic.SplitIfs

/-!
# Buffer-local variables

Every variable has a default value and, in some buffers, a local one. A buffer sees its local
value where it has one and the default otherwise. `make-local-variable` turns the value that the
buffer sees into a local one; `setq` writes the local value where there is one (or where the
variable is buffer-local as soon as it is set) and the default otherwise; `setq-local` makes the
variable local first.

An evaluation is *private* to a buffer when what it does is a function of the defaults and of the
buffer's own local values, and it changes nothing but the latter. Private evaluations compose, and
a session of calls each private to its own buffer can be cut down to the calls of one buffer
without that buffer noticing.

## Main definitions

* `Elisp.Cells`: the values of all variables in all buffers, and `Elisp.Cells.value`.
* `Elisp.symbolValue`, `Elisp.makeLocalVariable`, `Elisp.setq`, `Elisp.setqLocal`.
* `Elisp.addToListVariable`: `add-to-list` on a variable.
* `Elisp.Private`: evaluations private to a buffer, under an invariant on what the buffer sees.

## Main results

* `Elisp.Private.bind`, `Elisp.Private.makeLocalVariable_bind`, `Elisp.Private.setq`: how private
  evaluations are put together.
* `Elisp.session_default_eq`, `Elisp.session_buffer_eq`: isolation of a session of private calls.
-/

namespace DotEmacs.Elisp

variable {ε α β ι Buf Var Val : Type}

/-- The default values of the variables and their local values in the buffers. -/
structure Cells (Buf Var Val : Type) where
  default : Var → Val
  buffer : Buf → Var → Option Val

namespace Cells

/-- The value of a variable as a buffer sees it. -/
def value (s : Cells Buf Var Val) (b : Buf) (v : Var) : Val :=
  (s.buffer b v).getD (s.default v)

/-- Give a variable a default value. -/
def setDefault [DecidableEq Var] (s : Cells Buf Var Val) (v : Var) (x : Val) :
    Cells Buf Var Val :=
  { s with default := Function.update s.default v x }

variable [DecidableEq Buf] [DecidableEq Var]

/-- Give a variable a local value in a buffer. -/
def setLocal (s : Cells Buf Var Val) (b : Buf) (v : Var) (x : Val) : Cells Buf Var Val :=
  { s with buffer := Function.update s.buffer b (Function.update (s.buffer b) v (some x)) }

@[simp] theorem default_setLocal (s : Cells Buf Var Val) (b : Buf) (v : Var) (x : Val) :
    (s.setLocal b v x).default = s.default := rfl

theorem buffer_setLocal_self (s : Cells Buf Var Val) (b : Buf) (v : Var) (x : Val) :
    (s.setLocal b v x).buffer b = Function.update (s.buffer b) v (some x) := by
  simp [setLocal]

theorem buffer_setLocal_of_ne (s : Cells Buf Var Val) {b b' : Buf} (h : b' ≠ b) (v : Var)
    (x : Val) : (s.setLocal b v x).buffer b' = s.buffer b' := by
  simp [setLocal, h]

@[simp] theorem value_setLocal_self (s : Cells Buf Var Val) (b : Buf) (v : Var) (x : Val) :
    (s.setLocal b v x).value b v = x := by
  simp [value, buffer_setLocal_self]

/-- Setting a variable twice is setting it once. -/
@[simp] theorem setLocal_setLocal (s : Cells Buf Var Val) (b : Buf) (v : Var) (x y : Val) :
    (s.setLocal b v x).setLocal b v y = s.setLocal b v y := by
  simp [setLocal]

theorem buffer_setLocal_of_ne_var (s : Cells Buf Var Val) (b b' : Buf) {v v' : Var}
    (h : v' ≠ v) (x : Val) : (s.setLocal b v x).buffer b' v' = s.buffer b' v' := by
  by_cases hb : b' = b
  · rw [hb, buffer_setLocal_self, Function.update_of_ne h]
  · rw [buffer_setLocal_of_ne s hb]

theorem value_setLocal_of_ne (s : Cells Buf Var Val) (b b' : Buf) {v v' : Var} (h : v' ≠ v)
    (x : Val) : (s.setLocal b v x).value b' v' = s.value b' v' := by
  rw [value, buffer_setLocal_of_ne_var s b b' h, default_setLocal, value]

theorem value_setLocal_of_ne_buffer (s : Cells Buf Var Val) {b b' : Buf} (h : b' ≠ b) (v v' : Var)
    (x : Val) : (s.setLocal b v x).value b' v' = s.value b' v' := by
  rw [value, buffer_setLocal_of_ne s h, default_setLocal, value]

/-- Store a value where `setq` does: in the buffer when the variable is local there, or becomes
local when set, and in the default otherwise. -/
def setq (automatic : Var → Bool) (s : Cells Buf Var Val) (b : Buf) (v : Var) (x : Val) :
    Cells Buf Var Val :=
  if automatic v || (s.buffer b v).isSome then s.setLocal b v x else s.setDefault v x

/-- What `setq` stores is what the buffer sees. -/
@[simp] theorem value_setq_self (automatic : Var → Bool) (s : Cells Buf Var Val) (b : Buf)
    (v : Var) (x : Val) : (s.setq automatic b v x).value b v = x := by
  rw [setq]
  split_ifs with h
  · exact value_setLocal_self s b v x
  · simp only [Bool.or_eq_true, not_or, Option.not_isSome_iff_eq_none] at h
    simp [value, h.2, setDefault]

/-- Another buffer sees of a `setq` either nothing or the value that it stores. -/
theorem value_setq (automatic : Var → Bool) (s : Cells Buf Var Val) (b b' : Buf) (v : Var)
    (x : Val) : (s.setq automatic b v x).value b' v = s.value b' v ∨
      (s.setq automatic b v x).value b' v = x := by
  by_cases hb : b' = b
  · rw [hb]
    exact Or.inr (value_setq_self automatic s b v x)
  · rw [setq]
    split_ifs with h
    · exact Or.inl (value_setLocal_of_ne_buffer s hb v v x)
    · cases hl : s.buffer b' v with
      | none => exact Or.inr (by simp [value, setDefault, hl])
      | some y => exact Or.inl (by simp [value, setDefault, hl])

theorem value_setq_of_ne (automatic : Var → Bool) (s : Cells Buf Var Val) (b b' : Buf)
    {v v' : Var} (h : v' ≠ v) (x : Val) :
    (s.setq automatic b v x).value b' v' = s.value b' v' := by
  rw [setq]
  split_ifs
  · exact value_setLocal_of_ne s b b' h x
  · simp [value, setDefault, h]

end Cells

/-! ### Reading and writing variables -/

/-- The value of `v` in the current buffer `b`. -/
def symbolValue (b : Buf) (v : Var) : EStateM ε (Cells Buf Var Val) Val := do
  return (← get).value b v

section Write

variable [DecidableEq Buf] [DecidableEq Var]

/-- `(make-local-variable 'v)` in the buffer `b`. -/
def makeLocalVariable (b : Buf) (v : Var) : EStateM ε (Cells Buf Var Val) Unit :=
  modify fun s => s.setLocal b v (s.value b v)

/-- `(setq-local v x)` in the buffer `b`. -/
def setqLocal (b : Buf) (v : Var) (x : Val) : EStateM ε (Cells Buf Var Val) Unit :=
  modify fun s => s.setLocal b v x

/-- `(setq v x)` in the buffer `b`; `automatic` says which variables become buffer-local when
set. -/
def setq (automatic : Var → Bool) (b : Buf) (v : Var) (x : Val) :
    EStateM ε (Cells Buf Var Val) Unit :=
  modify fun s => s.setq automatic b v x

@[simp] theorem makeLocalVariable_apply (b : Buf) (v : Var) (s : Cells Buf Var Val) :
    (makeLocalVariable b v : EStateM ε (Cells Buf Var Val) Unit) s =
      .ok () (s.setLocal b v (s.value b v)) := rfl

@[simp] theorem setqLocal_apply (b : Buf) (v : Var) (x : Val) (s : Cells Buf Var Val) :
    (setqLocal b v x : EStateM ε (Cells Buf Var Val) Unit) s = .ok () (s.setLocal b v x) := rfl

@[simp] theorem setq_apply (automatic : Var → Bool) (b : Buf) (v : Var) (x : Val)
    (s : Cells Buf Var Val) : (setq automatic b v x : EStateM ε (Cells Buf Var Val) Unit) s =
      .ok () (s.setq automatic b v x) := rfl

end Write

@[simp] theorem symbolValue_apply (b : Buf) (v : Var) (s : Cells Buf Var Val) :
    (symbolValue b v : EStateM ε (Cells Buf Var Val) Val) s = .ok (s.value b v) s := rfl

/-! ### Private evaluations -/

/-- An evaluation is private to the buffer `b`, as long as what the buffer sees satisfies `I`:
its result and the local values that it leaves in `b` are a function of the defaults and of the
local values that it finds in `b`, it changes nothing else, and it keeps `I`. -/
def Private [DecidableEq Buf] (I : (Var → Val) → (Var → Option Val) → Prop) (b : Buf)
    (c : EStateM ε (Cells Buf Var Val) α) : Prop :=
  ∃ f : (Var → Val) → (Var → Option Val) → Except ε α × (Var → Option Val),
    ∀ s, I s.default (s.buffer b) →
      c s = Result.ofExcept (f s.default (s.buffer b)).1
        { s with buffer := Function.update s.buffer b (f s.default (s.buffer b)).2 } ∧
      I s.default (f s.default (s.buffer b)).2

namespace Private

variable [DecidableEq Buf] {I : (Var → Val) → (Var → Option Val) → Prop} {b : Buf}

theorem pure (a : α) : Private I b (Pure.pure a : EStateM ε (Cells Buf Var Val) α) :=
  ⟨fun _ l => (.ok a, l), fun s hs => ⟨by simp [Result.ofExcept], hs⟩⟩

theorem evalExcept (x : Except ε α) :
    Private I b (Elisp.evalExcept x : EStateM ε (Cells Buf Var Val) α) :=
  ⟨fun _ l => (x, l), fun s hs => ⟨by cases x <;> simp [Result.ofExcept], hs⟩⟩

theorem symbolValue (v : Var) :
    Private I b (Elisp.symbolValue b v : EStateM ε (Cells Buf Var Val) Val) :=
  ⟨fun d l => (.ok ((l v).getD (d v)), l), fun s hs =>
    ⟨by simp [Result.ofExcept, Cells.value], hs⟩⟩

/-- A private evaluation followed by private ones is private. -/
theorem bind {c : EStateM ε (Cells Buf Var Val) α} {k : α → EStateM ε (Cells Buf Var Val) β}
    (hc : Private I b c) (hk : ∀ a, Private I b (k a)) : Private I b (c >>= k) := by
  obtain ⟨f, hf⟩ := hc
  choose g hg using hk
  refine ⟨fun d l => match f d l with
    | (.ok a, l') => g a d l'
    | (.error e, l') => (.error e, l'), fun s hs => ?_⟩
  obtain ⟨hcs, hI⟩ := hf s hs
  rw [bind_apply, hcs]
  rcases hfs : f s.default (s.buffer b) with ⟨_ | a, l'⟩
  · rw [hfs] at hI
    simp only [hfs]
    exact ⟨rfl, hI⟩
  · rw [hfs] at hI
    obtain ⟨hk, hI'⟩ := hg a { s with buffer := Function.update s.buffer b l' } (by simpa using hI)
    simp only [Function.update_self, Function.update_idem] at hk hI'
    simp only [hfs]
    exact ⟨hk, hI'⟩

/-- What a private call does to the state. -/
theorem state_eq {c : EStateM ε (Cells Buf Var Val) α} (hc : Private I b c)
    {s : Cells Buf Var Val} (hs : I s.default (s.buffer b)) :
    (Result.state (c s)).default = s.default ∧
      (∀ b' ≠ b, (Result.state (c s)).buffer b' = s.buffer b') ∧
      I s.default ((Result.state (c s)).buffer b) := by
  obtain ⟨f, hf⟩ := hc
  obtain ⟨hcs, hI⟩ := hf s hs
  rw [hcs, Result.state_ofExcept]
  exact ⟨rfl, fun b' hb' => Function.update_of_ne hb' _ _, by simpa using hI⟩

/-- A private call leaves the same local values in its buffer from states that agree there. -/
theorem buffer_congr {c : EStateM ε (Cells Buf Var Val) α} (hc : Private I b c)
    {s t : Cells Buf Var Val} (hs : I s.default (s.buffer b)) (hd : s.default = t.default)
    (hb : s.buffer b = t.buffer b) :
    (Result.state (c s)).buffer b = (Result.state (c t)).buffer b := by
  obtain ⟨f, hf⟩ := hc
  have ht : I t.default (t.buffer b) := by rwa [← hd, ← hb]
  rw [(hf s hs).1, (hf t ht).1, Result.state_ofExcept, Result.state_ofExcept, hd, hb]
  simp

variable [DecidableEq Var]

/-- An invariant that stays true when the buffer gets a local value of `v`. -/
def StableAt (I : (Var → Val) → (Var → Option Val) → Prop) (v : Var) : Prop :=
  ∀ d l x, I d l → I d (Function.update l v (some x))

theorem setqLocal {v : Var} (hI : StableAt I v) (x : Val) :
    Private I b (Elisp.setqLocal b v x : EStateM ε (Cells Buf Var Val) Unit) :=
  ⟨fun _ l => (.ok (), Function.update l v (some x)), fun _ hs => ⟨rfl, hI _ _ x hs⟩⟩

/-- Behind `make-local-variable` the variable is local in the buffer. -/
theorem makeLocalVariable_bind {v : Var} (hI : StableAt I v)
    {c : EStateM ε (Cells Buf Var Val) α}
    (hc : Private (fun d l => I d l ∧ (l v).isSome) b c) :
    Private I b (Elisp.makeLocalVariable b v >>= fun _ => c) := by
  obtain ⟨f, hf⟩ := hc
  refine ⟨fun d l => f d (Function.update l v (some ((l v).getD (d v)))), fun s hs => ?_⟩
  have hlocal : (s.setLocal b v (s.value b v)).buffer b =
      Function.update (s.buffer b) v (some (s.value b v)) := Cells.buffer_setLocal_self ..
  have hpre : I s.default ((s.setLocal b v (s.value b v)).buffer b) ∧
      ((s.setLocal b v (s.value b v)).buffer b v).isSome := by
    rw [hlocal]
    exact ⟨hI _ _ _ hs, by simp⟩
  obtain ⟨hcs, hI', -⟩ := hf (s.setLocal b v (s.value b v)) hpre
  rw [hlocal] at hcs hI'
  refine ⟨?_, hI'⟩
  rw [bind_of_ok (makeLocalVariable_apply b v s), hcs]
  simp only [Cells.setLocal, Function.update_idem]
  rfl

theorem stableAt_and_isSome {v : Var} (hI : StableAt I v) :
    StableAt (fun d l => I d l ∧ (l v).isSome) v :=
  fun d l x h => ⟨hI d l x h.1, by simp⟩

/-- `setq` is private when the variable is local already, or when the value it stores is the
default. -/
theorem setq {v : Var} (hI : StableAt I v) (automatic : Var → Bool) (x : Val)
    (hv : ∀ d l, I d l → (l v).isSome ∨ d v = x) :
    Private I b (Elisp.setq automatic b v x : EStateM ε (Cells Buf Var Val) Unit) := by
  refine ⟨fun _ l => (.ok (), if automatic v || (l v).isSome then Function.update l v (some x)
    else l), fun s hs => ?_⟩
  by_cases h : automatic v || (s.buffer b v).isSome
  · simp only [h, if_true]
    refine ⟨?_, hI _ _ x hs⟩
    simp only [setq_apply, Cells.setq, h, if_true]
    rfl
  · have hd : s.default v = x := (hv _ _ hs).resolve_left fun h' => h (by simp [h'])
    simp only [h, Bool.false_eq_true, if_false]
    refine ⟨?_, hs⟩
    simp only [setq_apply, Cells.setq, h, Bool.false_eq_true, if_false, Cells.setDefault, ← hd,
      Function.update_eq_self]
    rfl

end Private

/-! ### Isolation -/

section Isolation

variable [DecidableEq Buf] {step : ι → EStateM ε (Cells Buf Var Val) Unit} {owner : ι → Buf}
  {I : Buf → (Var → Val) → (Var → Option Val) → Prop}

/-- A private call of one buffer keeps the invariants of all buffers. -/
theorem Private.invariants {b : Buf} {c : EStateM ε (Cells Buf Var Val) α}
    (hc : Private (I b) b c) {s : Cells Buf Var Val} (hs : ∀ b, I b s.default (s.buffer b))
    (b' : Buf) : I b' (Result.state (c s)).default ((Result.state (c s)).buffer b') := by
  obtain ⟨hd, hne, hI⟩ := hc.state_eq (hs b)
  rw [hd]
  by_cases h : b' = b
  · rwa [h]
  · rw [hne b' h]
    exact hs b'

/-- A session of private calls leaves the defaults alone. -/
theorem session_default_eq : {is : List ι} →
    (∀ i ∈ is, Private (I (owner i)) (owner i) (step i)) → {s : Cells Buf Var Val} →
    (∀ b, I b s.default (s.buffer b)) → (session step is s).default = s.default
  | [], _, _, _ => rfl
  | i :: is, hstep, s, hs => by
      have hi := hstep i List.mem_cons_self
      rw [session_cons, session_default_eq (fun j hj => hstep j (List.mem_cons_of_mem i hj))
        (hi.invariants hs)]
      exact (hi.state_eq (hs _)).1

/-- Two sessions of private calls, the second one the calls of `b` in the first, leave the same
local values in `b` from states that agree there. -/
theorem session_buffer_congr (b : Buf) : {is : List ι} →
    (∀ i ∈ is, Private (I (owner i)) (owner i) (step i)) → {s t : Cells Buf Var Val} →
    (∀ b, I b s.default (s.buffer b)) → (∀ b, I b t.default (t.buffer b)) →
    s.default = t.default → s.buffer b = t.buffer b →
    (session step is s).buffer b = (session step (is.filter (owner · = b)) t).buffer b
  | [], _, _, _, _, _, _, hb => hb
  | i :: is, hstep, s, t, hs, ht, hd, hb => by
      have hi := hstep i List.mem_cons_self
      have his := fun j hj => hstep j (List.mem_cons_of_mem i hj)
      obtain ⟨hds, hbs, -⟩ := hi.state_eq (hs _)
      by_cases h : owner i = b
      · subst h
        obtain ⟨hdt, -, -⟩ := hi.state_eq (ht _)
        rw [List.filter_cons_of_pos (by simp)]
        exact session_buffer_congr (owner i) his (hi.invariants hs) (hi.invariants ht)
          (by rw [hds, hdt, hd]) (hi.buffer_congr (hs _) hd hb)
      · rw [List.filter_cons_of_neg (by simpa using h)]
        exact session_buffer_congr b his (hi.invariants hs) ht (by rw [hds, hd])
          (by rw [hbs b (Ne.symm h), hb])

/-- **Isolation.** What a session of private calls leaves in a buffer is what the calls of that
buffer alone leave there. -/
theorem session_buffer_eq {is : List ι}
    (hstep : ∀ i ∈ is, Private (I (owner i)) (owner i) (step i)) {s : Cells Buf Var Val}
    (hs : ∀ b, I b s.default (s.buffer b)) (b : Buf) :
    (session step is s).buffer b = (session step (is.filter (owner · = b)) s).buffer b :=
  session_buffer_congr b hstep hs hs rfl rfl

end Isolation

/-! ### Adding to a list held by a variable -/

section AddToList

variable [DecidableEq Buf] [DecidableEq Var]

/-- `(add-to-list 'v x)` in the buffer `b`. -/
def addToListVariable (automatic : Var → Bool) (b : Buf) (v : Var) (x : Obj) :
    EStateM Signal (Cells Buf Var Obj) Unit := do
  let l ← symbolValue b v
  unless ← evalExcept (member x l) do
    setq automatic b v (.cons x l)

/-- On a variable whose local value is a proper list, `add-to-list` is insertion without
duplication. -/
@[simp] theorem addToListVariable_setLocal (automatic : Var → Bool) (b : Buf) (v : Var) (x : Obj)
    (s : Cells Buf Var Obj) (xs : List Obj) :
    addToListVariable automatic b v x (s.setLocal b v (Obj.ofList xs)) =
      .ok () (s.setLocal b v (Obj.ofList (xs.insert x))) := by
  by_cases h : x ∈ xs
  · simp [addToListVariable, bind_apply, h]
  · simp [addToListVariable, bind_apply, h, Cells.setq, Cells.buffer_setLocal_self]

theorem Private.addToListVariable {I : (Var → Obj) → (Var → Option Obj) → Prop} {b : Buf}
    {v : Var} (hI : Private.StableAt I v) (automatic : Var → Bool) (x : Obj)
    (hv : ∀ d l, I d l → (l v).isSome) :
    Private I b (Elisp.addToListVariable automatic b v x) := by
  refine .bind (.symbolValue v) fun l => .bind (.evalExcept _) fun found => ?_
  cases found with
  | true => exact .pure ()
  | false => exact .setq hI automatic _ fun d l h => Or.inl (hv d l h)

end AddToList

end DotEmacs.Elisp
