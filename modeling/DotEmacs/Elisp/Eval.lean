import DotEmacs.Elisp.Object

/-!
# Evaluations and sessions

An evaluation acts on a state and ends in a value or in a signal (`EStateM`). The changes that
it made before a signal stay, as they do in a Lisp program without an enclosing handler. A
session is a sequence of calls made from top level: a call that signals is abandoned and the
next one starts in the state it left.

Nothing here depends on what the state is.

## Main definitions

* `Elisp.Result.state`, `Elisp.Result.IsOk`: the state an evaluation ends in, and whether it
  ends without a signal.
* `Elisp.Result.ofExcept`: the result with a given value or signal and a given state.
* `Elisp.evalExcept`: a primitive that reads no state, as an evaluation.
* `Elisp.session`, `Elisp.trace`: the last state of a session, and the results of its calls.

## Main results

* `Elisp.session_induction`: a property kept by every call is kept by every session.
* `Elisp.forall_trace_cons`: a property of all results of a session, one call at a time.
-/

namespace DotEmacs.Elisp

variable {ε σ α β ι : Type}

/-! ### Results -/

namespace Result

/-- The state an evaluation ends in, with or without a signal. -/
def state : EStateM.Result ε σ α → σ
  | .ok _ s => s
  | .error _ s => s

/-- The evaluation ends in a value. -/
def IsOk : EStateM.Result ε σ α → Prop
  | .ok _ _ => True
  | .error _ _ => False

@[simp] theorem state_ok (a : α) (s : σ) : state (.ok a s : EStateM.Result ε σ α) = s := rfl

@[simp] theorem not_isOk_error (e : ε) (s : σ) :
    ¬ IsOk (.error e s : EStateM.Result ε σ α) := fun h => h

/-- A value or a signal, together with a state. -/
def ofExcept : Except ε α → σ → EStateM.Result ε σ α
  | .ok a, s => .ok a s
  | .error e, s => .error e s

@[simp] theorem state_ofExcept (x : Except ε α) (s : σ) : state (ofExcept x s) = s := by
  cases x <;> rfl

instance (r : EStateM.Result ε σ α) : Decidable (IsOk r) :=
  match r with
  | .ok _ _ => isTrue trivial
  | .error _ _ => isFalse fun h => h

end Result

/-! ### Evaluations -/

/-- A primitive that reads and writes no state. -/
def evalExcept : Except ε α → EStateM ε σ α
  | .ok a => pure a
  | .error e => throw e

@[simp] theorem evalExcept_ok (a : α) (s : σ) :
    (evalExcept (.ok a) : EStateM ε σ α) s = .ok a s := rfl

@[simp] theorem evalExcept_error (e : ε) (s : σ) :
    (evalExcept (.error e) : EStateM ε σ α) s = .error e s := rfl

theorem bind_apply (c : EStateM ε σ α) (f : α → EStateM ε σ β) (s : σ) :
    (c >>= f) s = match c s with
      | .ok a s' => f a s'
      | .error e s' => .error e s' := by
  change EStateM.bind c f s = _
  rw [EStateM.bind]
  cases c s <;> rfl

/-- An evaluation whose first part ends in a value goes on from there. -/
theorem bind_of_ok {c : EStateM ε σ α} {s s' : σ} {a : α} (h : c s = .ok a s')
    (f : α → EStateM ε σ β) : (c >>= f) s = f a s' := by
  rw [bind_apply, h]

@[simp] theorem pure_apply (a : α) (s : σ) : (pure a : EStateM ε σ α) s = .ok a s := rfl

/-! ### Sessions -/

variable (step : ι → EStateM ε σ Unit)

/-- The state after the calls of a list, one after the other. -/
def session : List ι → σ → σ
  | [], s => s
  | i :: is, s => session is (Result.state (step i s))

/-- The results of the calls of a list, one after the other. -/
def trace : List ι → σ → List (EStateM.Result ε σ Unit)
  | [], _ => []
  | i :: is, s => step i s :: trace is (Result.state (step i s))

@[simp] theorem session_cons (i : ι) (is : List ι) (s : σ) :
    session step (i :: is) s = session step is (Result.state (step i s)) := rfl

/-- A property that every call of the session keeps holds after the session. -/
theorem session_induction {P : σ → Prop} {is : List ι}
    (hstep : ∀ i ∈ is, ∀ s, P s → P (Result.state (step i s))) {s : σ} (hs : P s) :
    P (session step is s) := by
  induction is generalizing s with
  | nil => exact hs
  | cons i is ih =>
      exact ih (fun j hj => hstep j (List.mem_cons_of_mem i hj))
        (hstep i List.mem_cons_self s hs)

/-- A property of all results of a session, one call at a time. -/
theorem forall_trace_cons {P : EStateM.Result ε σ Unit → Prop} (i : ι) (is : List ι) (s : σ) :
    (∀ r ∈ trace step (i :: is) s, P r) ↔
      P (step i s) ∧ ∀ r ∈ trace step is (Result.state (step i s)), P r := by
  simp only [trace, List.mem_cons, forall_eq_or_imp]

end DotEmacs.Elisp
