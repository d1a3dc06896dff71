import DotEmacs.Company.Hooks

/-!
# Isolation of the completion set-up hooks

A session runs the hooks in any buffers and in any order. Every hook but that of commit-message
buffers is private to the buffer it runs in. The hook of commit-message buffers assigns
`company-dabbrev-code-other-buffers` with a plain `setq`, so that it is private only where that
variable is local already, or where its default is the value assigned; elsewhere the default
changes, and with it what all other buffers see.

## Main definitions

* `Company.run`: the state after a session of calls, each in its buffer.
* `Company.Isolated`: every buffer sees what its own calls leave, and the defaults stand.
* `Company.OtherBuffersKept`: no commit hook of the session writes a default.

## Main results

* `Company.isolated_iff`: a session is isolated exactly when no commit hook writes a default.
* `Company.value_run_congr`: sessions with the same calls in a buffer look the same from it.
-/

namespace DotEmacs.Company

open Elisp Obj

variable {Buf : Type} [DecidableEq Buf]

/-- The state after a session of calls, each in its buffer. -/
def run (calls : List (Buf × Registration)) (e : Editor Buf) : Editor Buf :=
  session (fun c => c.2.command c.1) calls e

/-- Every buffer sees what its own calls leave, and the defaults stand. -/
def Isolated (calls : List (Buf × Registration)) (e : Editor Buf) : Prop :=
  (∀ b v, (run calls e).value b v = (run (calls.filter (·.1 = b)) e).value b v) ∧
    (run calls e).default = e.default

/-- No commit hook of the session writes the default of `company-dabbrev-code-other-buffers`
with a new value: the default is `all` already, or the variable is local wherever the hook
runs. -/
def OtherBuffersKept (calls : List (Buf × Registration)) (e : Editor Buf) : Prop :=
  e.default .companyDabbrevCodeOtherBuffers = symbol "all" ∨
    ∀ c ∈ calls, c.2 = .gitCommitSetup →
      (e.buffer c.1 .companyDabbrevCodeOtherBuffers).isSome

/-! ### Private hooks -/

section Private

variable {I : (Var → Obj) → (Var → Option Obj) → Prop} {b : Buf}

theorem private_myCompanyAddBackendLocally (hI : Private.StableAt I .companyBackends)
    (backend : Backend) : Private I b (myCompanyAddBackendLocally b backend) := by
  refine .makeLocalVariable_bind hI (.bind (.symbolValue _) fun backends =>
    .bind (.evalExcept _) fun group => .bind (.evalExcept _) fun head => ?_)
  by_cases h : head = backend.toObj
  · simp only [h]
    exact .pure ()
  · simp only [h]
    exact .bind (.evalExcept _) fun rest => .setqLocal (Private.stableAt_and_isSome hI) _

theorem private_addToListVariable (hI : Private.StableAt I .companyBackends) (x : Obj) :
    Private (fun d l => I d l ∧ (l .companyBackends).isSome) b
      (addToListVariable Var.automatic b .companyBackends x) :=
  .addToListVariable (Private.stableAt_and_isSome hI) _ _ fun _ _ h => h.2

theorem private_companyIronyAdd (hI : Private.StableAt I .companyBackends) :
    Private I b (companyIronyAdd b) :=
  .makeLocalVariable_bind hI (.bind (private_addToListVariable hI _) fun _ =>
    private_addToListVariable hI _)

theorem private_myCompanyAuctexSetup (hI : Private.StableAt I .companyBackends) :
    Private I b (myCompanyAuctexSetup b) := by
  have hadd := private_addToListVariable (b := b) hI
  exact .makeLocalVariable_bind hI (.bind (hadd _) fun _ => .bind (hadd _) fun _ =>
    .bind (hadd _) fun _ => .bind (hadd _) fun _ => .bind (hadd _) fun _ =>
    .bind (hadd _) fun _ => .bind (hadd _) fun _ => hadd _)

/-- The commit hook is private where its plain `setq` finds a local value, or a default equal to
the value it assigns. -/
theorem private_myGitCommitSetupHook (hI : ∀ v, Private.StableAt I v)
    (hv : ∀ d l, I d l → (l .companyDabbrevCodeOtherBuffers).isSome ∨
      d .companyDabbrevCodeOtherBuffers = symbol "all") :
    Private I b (myGitCommitSetupHook b) :=
  .bind (.setqLocal (hI _) _) fun _ => .bind (.setqLocal (hI _) _) fun _ =>
    .bind (.setqLocal (hI _) _) fun _ => .bind (.setq (hI _) _ _ hv) fun _ =>
    .setqLocal (hI _) _

/-- The hooks that are private whatever the buffer sees. -/
theorem private_command (hI : Private.StableAt I .companyBackends) :
    {r : Registration} → r ≠ .gitCommitSetup → Private I b (r.command b)
  | .addBackendLocally backend, _ => private_myCompanyAddBackendLocally hI backend
  | .companyIronyAdd, _ => private_companyIronyAdd hI
  | .companyAuctexSetup, _ => private_myCompanyAuctexSetup hI
  | .gitCommitSetup, h => absurd rfl h

end Private

/-! ### The default of `company-dabbrev-code-other-buffers` -/

/-- The hooks other than that of commit-message buffers write `company-backends` only. -/
theorem command_frame {r : Registration} (hr : r ≠ .gitCommitSetup) (b : Buf) (e : Editor Buf)
    {v : Var} (hv : v ≠ .companyBackends) :
    (Result.state (r.command b e)).default = e.default ∧
      ∀ b', (Result.state (r.command b e)).buffer b' v = e.buffer b' v := by
  have hI : Private.StableAt (fun _ l => l v = e.buffer b v) Var.companyBackends :=
    fun d l x h => (Function.update_of_ne hv _ _).trans h
  obtain ⟨hd, hne, hb⟩ := (private_command hI hr).state_eq rfl
  refine ⟨hd, fun b' => ?_⟩
  by_cases h : b' = b
  · rw [h, hb]
  · rw [hne b' h]

/-- Which buffers hold a local value of `company-dabbrev-code-other-buffers` no call changes, and
the default a call can only change to `all`. -/
theorem otherBuffers_command (r : Registration) (b : Buf) (e : Editor Buf) :
    (∀ b', ((Result.state (r.command b e)).buffer b' .companyDabbrevCodeOtherBuffers).isSome =
        (e.buffer b' .companyDabbrevCodeOtherBuffers).isSome) ∧
      ((Result.state (r.command b e)).default .companyDabbrevCodeOtherBuffers =
          e.default .companyDabbrevCodeOtherBuffers ∨
        (Result.state (r.command b e)).default .companyDabbrevCodeOtherBuffers =
          symbol "all") := by
  by_cases hr : r = .gitCommitSetup
  · subst hr
    rw [Registration.command, myGitCommitSetupHook_apply, Result.state_ok, Cells.setq]
    split_ifs with h
    · refine ⟨fun b' => ?_, Or.inl rfl⟩
      by_cases hb : b' = b
      · subst hb
        simpa [Cells.setLocal, Var.automatic] using h.symm
      · simp [Cells.setLocal, hb]
    · refine ⟨fun b' => ?_, Or.inr (by simp [Cells.setDefault])⟩
      by_cases hb : b' = b
      · subst hb
        simp [Cells.setLocal, Cells.setDefault]
      · simp [Cells.setLocal, Cells.setDefault, hb]
  · obtain ⟨hd, hbuffer⟩ := command_frame hr b e (v := .companyDabbrevCodeOtherBuffers) (by decide)
    exact ⟨fun b' => by rw [hbuffer b'], Or.inl (congrFun hd _)⟩

/-- Where the variable is not local, the commit hook writes its default. -/
theorem default_myGitCommitSetupHook {b : Buf} {e : Editor Buf}
    (h : e.buffer b .companyDabbrevCodeOtherBuffers = none) :
    (Result.state (myGitCommitSetupHook b e)).default .companyDabbrevCodeOtherBuffers =
      symbol "all" := by
  rw [myGitCommitSetupHook_apply, Result.state_ok, Cells.setq, if_neg]
  · simp [Cells.setDefault]
  · simp [Cells.setLocal, Var.automatic, h]

/-- One commit hook in a buffer where the variable is not local leaves the default `all` for the
rest of the session. -/
theorem default_run_eq_all {c : Buf × Registration} (hc : c.2 = .gitCommitSetup) :
    {calls : List (Buf × Registration)} → c ∈ calls → {e : Editor Buf} →
    e.buffer c.1 .companyDabbrevCodeOtherBuffers = none →
    (run calls e).default .companyDabbrevCodeOtherBuffers = symbol "all"
  | c' :: calls, hmem, e, h => by
      rcases List.mem_cons.mp hmem with rfl | hmem
      · have hall : (Result.state (c.2.command c.1 e)).default .companyDabbrevCodeOtherBuffers =
            symbol "all" := by
          rw [hc]
          exact default_myGitCommitSetupHook h
        change (run calls (Result.state (c.2.command c.1 e))).default _ = _
        refine session_induction (P := fun e : Editor Buf =>
          e.default .companyDabbrevCodeOtherBuffers = symbol "all") _ (fun c' _ e he => ?_) hall
        exact (otherBuffers_command c'.2 c'.1 e).2.elim (fun h' => h'.trans he) id
      · refine default_run_eq_all hc hmem ?_
        have hlocal := (otherBuffers_command c'.2 c'.1 e).1 c.1
        rw [h] at hlocal
        exact Option.isNone_iff_eq_none.mp (Option.isSome_eq_false_iff.mp hlocal)

/-! ### Isolation -/

/-- What a buffer with a commit hook in the session must see for that hook to be private. -/
def CommitHookPrivate (calls : List (Buf × Registration)) (b : Buf) (d : Var → Obj)
    (l : Var → Option Obj) : Prop :=
  (b, Registration.gitCommitSetup) ∈ calls →
    (l .companyDabbrevCodeOtherBuffers).isSome ∨
      d .companyDabbrevCodeOtherBuffers = symbol "all"

omit [DecidableEq Buf] in
theorem stableAt_commitHookPrivate (calls : List (Buf × Registration)) (b : Buf) (v : Var) :
    Private.StableAt (CommitHookPrivate calls b) v := by
  intro d l x h hb
  refine (h hb).imp_left fun hl => ?_
  by_cases hv : .companyDabbrevCodeOtherBuffers = v
  · subst hv
    simp
  · rwa [Function.update_of_ne hv]

/-- Every call of a session is private to its buffer, as far as the session goes. -/
theorem private_of_mem {calls : List (Buf × Registration)} {c : Buf × Registration}
    (hc : c ∈ calls) : Private (CommitHookPrivate calls c.1) c.1 (c.2.command c.1) := by
  by_cases hr : c.2 = .gitCommitSetup
  · have hmem : (c.1, Registration.gitCommitSetup) ∈ calls := hr ▸ hc
    rw [hr]
    exact private_myGitCommitSetupHook (stableAt_commitHookPrivate calls c.1)
      fun d l h => h hmem
  · exact private_command (stableAt_commitHookPrivate calls c.1 _) hr

omit [DecidableEq Buf] in
theorem OtherBuffersKept.commitHookPrivate {calls : List (Buf × Registration)} {e : Editor Buf}
    (h : OtherBuffersKept calls e) (b : Buf) : CommitHookPrivate calls b e.default (e.buffer b) :=
  fun hb => h.symm.imp_left fun hlocal => hlocal _ hb rfl

/-- Where no commit hook writes a default, the defaults stand. -/
theorem OtherBuffersKept.default_run_eq {calls : List (Buf × Registration)} {e : Editor Buf}
    (h : OtherBuffersKept calls e) : (run calls e).default = e.default :=
  session_default_eq (fun _ hc => private_of_mem hc) h.commitHookPrivate

/-- Where no commit hook writes a default, a buffer sees what its own calls leave. -/
theorem OtherBuffersKept.value_run_eq {calls : List (Buf × Registration)} {e : Editor Buf}
    (h : OtherBuffersKept calls e) (b : Buf) (v : Var) :
    (run calls e).value b v = (run (calls.filter (·.1 = b)) e).value b v := by
  have hfilter : OtherBuffersKept (calls.filter (·.1 = b)) e :=
    h.imp_right fun hc c hmem => hc c (List.mem_of_mem_filter hmem)
  have hbuffer : (run calls e).buffer b = (run (calls.filter (·.1 = b)) e).buffer b :=
    session_buffer_eq (fun _ hc => private_of_mem hc) h.commitHookPrivate b
  rw [Cells.value, Cells.value, h.default_run_eq, hfilter.default_run_eq, hbuffer]

/-- **Isolation of the hooks.** A session leaves the defaults alone and every buffer with what
its own calls leave, exactly when no commit hook of the session writes the default of
`company-dabbrev-code-other-buffers` with a new value. -/
theorem isolated_iff (calls : List (Buf × Registration)) (e : Editor Buf) :
    Isolated calls e ↔ OtherBuffersKept calls e := by
  constructor
  · intro h
    by_contra hkept
    simp only [OtherBuffersKept, not_or, not_forall] at hkept
    obtain ⟨hd, c, hc, hr, hlocal⟩ := hkept
    refine hd ?_
    rw [← h.2]
    exact default_run_eq_all hr hc (by simpa using hlocal)
  · exact fun h => ⟨h.value_run_eq, h.default_run_eq⟩

/-- In the configured session one commit hook changes what every other buffer sees. -/
theorem not_isolated_commitHook :
    (run [("COMMIT_EDITMSG", .gitCommitSetup)] (configuredEditor String)).value "main.c"
        .companyDabbrevCodeOtherBuffers = symbol "all" ∧
      (configuredEditor String).value "main.c" .companyDabbrevCodeOtherBuffers = symbol "t" ∧
      ¬ Isolated [("COMMIT_EDITMSG", .gitCommitSetup)] (configuredEditor String) := by
  have hafter : (run [("COMMIT_EDITMSG", .gitCommitSetup)] (configuredEditor String)).default
      .companyDabbrevCodeOtherBuffers = symbol "all" := by decide
  refine ⟨by decide, rfl, fun h => ?_⟩
  rw [h.2] at hafter
  exact absurd hafter (by decide)

/-- Sessions with the same calls in a buffer look the same from it, whatever the other buffers
run. -/
theorem value_run_congr {calls calls' : List (Buf × Registration)} {e : Editor Buf}
    (h : OtherBuffersKept calls e) (h' : OtherBuffersKept calls' e) {b : Buf}
    (hb : calls.filter (·.1 = b) = calls'.filter (·.1 = b)) (v : Var) :
    (run calls e).value b v = (run calls' e).value b v := by
  rw [h.value_run_eq b v, h'.value_run_eq b v, hb]

end DotEmacs.Company
