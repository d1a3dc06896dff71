import DotEmacs.Elisp.Alist
import DotEmacs.Elisp.Variables

/-!
# The completion set-up hooks

The functions of the configuration that set up completion in a buffer: the registration of one
more backend, the hooks of C-like and of TeX buffers, and the hook of commit-message buffers.
Each is an evaluation on the buffer-local variables that these functions assign, in a given
current buffer.

The calls of `company-irony-setup-begin-commands`, `auto-fill-mode` and `flyspell-mode` in the
hooks read and write none of these variables, and are left out.

## Main definitions

* `Company.Var`, `Company.Editor`, `Company.Command`.
* `Company.configuredBackends`: the default of `company-backends`;
  `Company.configuredEditor`: the defaults of all the variables.
* `Company.myCompanyAddBackendLocally`, `Company.companyIronyAdd`,
  `Company.myCompanyAuctexSetup`, `Company.myGitCommitSetupHook`.
* `Company.Registration`: a call of one of the four.

## Main results

* `Company.myCompanyAddBackendLocally_group`, `Company.myCompanyAddBackendLocally_symbol`,
  `Company.companyIronyAdd_apply`, `Company.myCompanyAuctexSetup_apply`,
  `Company.myGitCommitSetupHook_apply`: what each call does.
-/

namespace DotEmacs.Company

open Elisp Obj

/-- The variables that the hooks assign. -/
inductive Var
  | companyBackends
  | companyDabbrevCodeModes
  | companyDabbrevIgnoreBuffers
  | companyDabbrevCodeOtherBuffers
  | fillColumn
  deriving DecidableEq, Repr

/-- Among them `fill-column` alone becomes buffer-local when it is set. -/
def Var.automatic : Var → Bool
  | .fillColumn => true
  | _ => false

/-- The variables as a session holds them. -/
abbrev Editor (Buf : Type) := Cells Buf Var Obj

/-- Evaluations on the variables. -/
abbrev Command (Buf : Type) := EStateM Signal (Editor Buf)

/-- A backend symbol: a symbol that is not a keyword. -/
@[ext]
structure Backend where
  name : String
  deriving DecidableEq, Repr

namespace Backend

def toObj (b : Backend) : Obj := .symbol b.name

theorem toObj_injective : Function.Injective toObj
  | ⟨_⟩, ⟨_⟩, h => by simpa [toObj] using h

@[simp] theorem toObj_inj {b c : Backend} : b.toObj = c.toObj ↔ b = c := toObj_injective.eq_iff

end Backend

/-- The first group of the configured default.

Source: `init/Emacs/init-company-mode.el`, lines 60–68. -/
def configuredGroup : List Obj :=
  [symbol "company-capf", keyword "separate", symbol "company-yasnippet", keyword "separate",
    symbol "company-tempo", keyword "separate", symbol "company-keywords", keyword "separate",
    symbol "company-abbrev"]

/-- The backends behind the first group of the configured default.

Source: `init/Emacs/init-company-mode.el`, lines 69–71. -/
def configuredRest : List Obj :=
  [symbol "company-dabbrev-code", symbol "company-files", symbol "company-ispell"]

/-- The default of `company-backends`.

Source: `init/Emacs/init-company-mode.el`, lines 59–71. -/
def configuredBackends : Obj := ofList (ofList configuredGroup :: configuredRest)

/-- The session as the configuration and the packages leave it: no buffer has a local value.

Source: `init/Emacs/init-company-mode.el`, lines 59–71; `init/Emacs/init-emacs-appearance.el`,
line 161; `company-dabbrev-code.el`, lines 38–52, and `company-dabbrev.el`, line 42. -/
def configuredEditor (Buf : Type) : Editor Buf where
  default
    | .companyBackends => configuredBackends
    | .companyDabbrevCodeModes =>
        ofList [symbol "prog-mode", symbol "batch-file-mode", symbol "csharp-mode",
          symbol "css-mode", symbol "erlang-mode", symbol "haskell-mode", symbol "jde-mode",
          symbol "lua-mode", symbol "python-mode"]
    | .companyDabbrevIgnoreBuffers => .str "\\`[ *]"
    | .companyDabbrevCodeOtherBuffers => symbol "t"
    | .fillColumn => .int 80
  buffer _ _ := none

variable {Buf : Type} [DecidableEq Buf] (current : Buf)

/-! ### The hooks -/

/-- `my-company-add-backend-locally`.

Source: `init/Emacs/init-company-mode.el`, lines 74–82. -/
def myCompanyAddBackendLocally (backend : Backend) : Command Buf Unit := do
  makeLocalVariable current .companyBackends
  let backends ← symbolValue current .companyBackends
  let group ← evalExcept (car backends)
  let head ← evalExcept (car group)
  unless head = backend.toObj do
    let rest ← evalExcept (cdr backends)
    setqLocal current .companyBackends
      (.cons (.cons backend.toObj (.cons (keyword "with") group)) rest)

/-- The group that `company-irony-add` puts into `company-backends`. -/
def ironyGroup : Obj :=
  ofList [symbol "company-irony", keyword "with", symbol "company-yasnippet"]

/-- `company-irony-add`.

Source: `init/programming/languages/init-prog-lang-C-common.el`, lines 110–120. -/
def companyIronyAdd : Command Buf Unit := do
  makeLocalVariable current .companyBackends
  addToListVariable Var.automatic current .companyBackends ironyGroup
  addToListVariable Var.automatic current .companyBackends (symbol "company-irony-c-headers")

/-- `my:company-auctex-setup`.

Source: `init/programming/languages/init-prog-lang-tex.el`, lines 155–168. -/
def myCompanyAuctexSetup : Command Buf Unit := do
  makeLocalVariable current .companyBackends
  addToListVariable Var.automatic current .companyBackends (symbol "company-math-symbols-unicode")
  addToListVariable Var.automatic current .companyBackends (symbol "company-math-symbols-latex")
  addToListVariable Var.automatic current .companyBackends (symbol "company-latex-commands")
  addToListVariable Var.automatic current .companyBackends (symbol "company-auctex-labels")
  addToListVariable Var.automatic current .companyBackends (symbol "company-auctex-bibs")
  addToListVariable Var.automatic current .companyBackends (symbol "company-auctex-environments")
  addToListVariable Var.automatic current .companyBackends (symbol "company-auctex-symbols")
  addToListVariable Var.automatic current .companyBackends (symbol "company-auctex-macros")

/-- The name of the predicate that `my:git-commit-setup-hook` installs. -/
def ignoreExceptMagitDiff : Obj := symbol "my:company-dabbrev-ignore-except-magit-diff"

/-- The value of `company-backends` in a commit-message buffer.

Source: `init/programming/vcs/init-prog-vcs-git.el`, lines 59–62. -/
def commitBackends : List Obj :=
  [symbol "company-dabbrev-code", keyword "with", symbol "company-abbrev", keyword "separate",
    symbol "company-ispell"]

/-- `my:git-commit-setup-hook`.

Source: `init/programming/vcs/init-prog-vcs-git.el`, lines 51–62. -/
def myGitCommitSetupHook : Command Buf Unit := do
  setqLocal current .fillColumn (.int 72)
  setqLocal current .companyDabbrevCodeModes (ofList [symbol "text-mode", symbol "magit-diff-mode"])
  setqLocal current .companyDabbrevIgnoreBuffers ignoreExceptMagitDiff
  -- the one assignment of the hook that does not make its variable local first
  setq Var.automatic current .companyDabbrevCodeOtherBuffers (symbol "all")
  setqLocal current .companyBackends (ofList commitBackends)

/-- A call of one of the hooks. -/
inductive Registration
  | addBackendLocally (backend : Backend)
  | companyIronyAdd
  | companyAuctexSetup
  | gitCommitSetup
  deriving DecidableEq, Repr

/-- The evaluation that a call stands for. -/
def Registration.command : Registration → Command Buf Unit
  | .addBackendLocally backend => myCompanyAddBackendLocally current backend
  | .companyIronyAdd => Company.companyIronyAdd current
  | .companyAuctexSetup => myCompanyAuctexSetup current
  | .gitCommitSetup => myGitCommitSetupHook current

/-! ### What each call does -/

variable {current} {e : Editor Buf}

/-- On a value whose first element is a group, the registration puts the backend and `:with` in
front of the group, unless the backend is its head. -/
theorem myCompanyAddBackendLocally_group {head tail rest : Obj} (backend : Backend)
    (h : e.value current .companyBackends = .cons (.cons head tail) rest) :
    myCompanyAddBackendLocally current backend e =
      .ok () (e.setLocal current .companyBackends
        (if head = backend.toObj then .cons (.cons head tail) rest
          else .cons (.cons backend.toObj (.cons (keyword "with") (.cons head tail))) rest)) := by
  by_cases hb : head = backend.toObj <;>
    simp [myCompanyAddBackendLocally, bind_apply, h, hb]

/-- On a value whose first element is a symbol, the registration signals. -/
theorem myCompanyAddBackendLocally_symbol {s : Symbol} {rest : Obj} (backend : Backend)
    (h : e.value current .companyBackends = .cons (.sym s) rest) :
    myCompanyAddBackendLocally current backend e =
      .error (.wrongTypeArgument "listp" (.sym s))
        (e.setLocal current .companyBackends (.cons (.sym s) rest)) := by
  simp [myCompanyAddBackendLocally, bind_apply, h]

theorem companyIronyAdd_apply {xs : List Obj}
    (h : e.value current .companyBackends = ofList xs) :
    companyIronyAdd current e =
      .ok () (e.setLocal current .companyBackends
        (ofList ((xs.insert ironyGroup).insert (symbol "company-irony-c-headers")))) := by
  simp [companyIronyAdd, bind_apply, h]

/-- The backends that `my:company-auctex-setup` adds, in the order of its calls. -/
def auctexBackends : List Obj :=
  [symbol "company-math-symbols-unicode", symbol "company-math-symbols-latex",
    symbol "company-latex-commands", symbol "company-auctex-labels",
    symbol "company-auctex-bibs", symbol "company-auctex-environments",
    symbol "company-auctex-symbols", symbol "company-auctex-macros"]

theorem myCompanyAuctexSetup_apply {xs : List Obj}
    (h : e.value current .companyBackends = ofList xs) :
    myCompanyAuctexSetup current e =
      .ok () (e.setLocal current .companyBackends
        (ofList (insertAll xs auctexBackends))) := by
  simp [myCompanyAuctexSetup, bind_apply, h, auctexBackends]

/-- The state that the commit hook leaves, assignment by assignment. -/
theorem myGitCommitSetupHook_apply :
    myGitCommitSetupHook current e =
      .ok () (((((e.setLocal current .fillColumn (.int 72)).setLocal current
        .companyDabbrevCodeModes (ofList [symbol "text-mode", symbol "magit-diff-mode"])).setLocal
        current .companyDabbrevIgnoreBuffers ignoreExceptMagitDiff).setq Var.automatic current
        .companyDabbrevCodeOtherBuffers (symbol "all")).setLocal current .companyBackends
        (ofList commitBackends)) := rfl

/-- What the commit hook stores is what the buffer sees. -/
theorem value_myGitCommitSetupHook :
    (Result.state (myGitCommitSetupHook current e)).value current .companyBackends =
        ofList commitBackends ∧
      (Result.state (myGitCommitSetupHook current e)).value current
        .companyDabbrevIgnoreBuffers = ignoreExceptMagitDiff ∧
      (Result.state (myGitCommitSetupHook current e)).value current
        .companyDabbrevCodeOtherBuffers = symbol "all" := by
  rw [myGitCommitSetupHook_apply, Result.state_ok]
  refine ⟨Cells.value_setLocal_self .., ?_, ?_⟩
  · rw [Cells.value_setLocal_of_ne _ _ _ (by decide), Cells.value_setq_of_ne _ _ _ _ (by decide),
      Cells.value_setLocal_self]
  · rw [Cells.value_setLocal_of_ne _ _ _ (by decide), Cells.value_setq_self]

end DotEmacs.Company
