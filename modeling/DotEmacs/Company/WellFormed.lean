import DotEmacs.Company.Groups

/-!
# Well-formedness of the backend list over a session

In a buffer whose `company-backends` starts at the configured default, the hooks run in any order
and any number of times. Two invariants carry the analysis:

* `Registering`: the value is a group in front of the rest of the configured default. It holds at
  the start and is kept by the local registrations;
* `Pushed`: the value is well-formed and its first element is a backend. The C hook and the TeX
  hook lead to it from either invariant and keep it.

A local registration signals on a pushed value, since it takes the `car` of the first element,
and the commit hook stores a list with keywords at top level. So all is well exactly in the
sessions that first register and then push.

## Main definitions

* `Company.AllWellFormed`: no call of a session signals, and the value is well-formed after each.
* `Company.RegistersThenPushes`: the sessions that make local registrations first and then run
  the C and TeX hooks.

## Main results

* `Company.allWellFormed_iff_registersThenPushes`: the sessions of the one kind are those of the
  other.
-/

namespace DotEmacs.Company

open Elisp Obj

variable {Buf : Type} [DecidableEq Buf] {current : Buf} {e : Editor Buf}

/-- No call of the session signals, and `company-backends` is well-formed after each. -/
def AllWellFormed (current : Buf) (ops : List Registration) (e : Editor Buf) : Prop :=
  ∀ r ∈ trace (Registration.command current) ops e,
    Result.IsOk r ∧ wellFormed ((Result.state r).value current .companyBackends)

instance (current : Buf) (ops : List Registration) (e : Editor Buf) :
    Decidable (AllWellFormed current ops e) :=
  inferInstanceAs (Decidable (∀ r ∈ _, _ ∧ _))

/-- The C hook and the TeX hook, which push backends in front of the value. -/
def Registration.IsPush (op : Registration) : Prop :=
  op = .companyIronyAdd ∨ op = .companyAuctexSetup

/-- Local registrations first, then C and TeX hooks; no commit hook. -/
def RegistersThenPushes (ops : List Registration) : Prop :=
  ∃ adds pushes, ops = adds ++ pushes ∧
    (∀ op ∈ adds, ∃ b, op = .addBackendLocally b) ∧ ∀ op ∈ pushes, op.IsPush

/-! ### The invariants -/

/-- The value is a group in front of the rest of the configured default. -/
def Registering (x : Obj) : Prop :=
  ∃ g : Group, x = .cons g.toObj (ofList configuredRest)

/-- A well-formed list whose first element is a backend. -/
def Headed (xs : List Obj) : Prop :=
  (∃ (b : Backend) (ys : List Obj), xs = b.toObj :: ys) ∧ wellFormed (ofList xs)

/-- The value is a well-formed list whose first element is a backend, and the group of the C hook
is there if the backend of the C hook is. -/
def Pushed (x : Obj) : Prop :=
  ∃ xs, x = ofList xs ∧ Headed xs ∧
    (symbol "company-irony-c-headers" ∈ xs → ironyGroup ∈ xs)

theorem wellFormed_ofList {xs : List Obj} :
    wellFormed (ofList xs) ↔ ∀ y ∈ xs, isBackend y ∨ isGroup y := by
  simp [wellFormed]

theorem registering_configuredBackends : Registering configuredBackends :=
  ⟨.configured, Group.configuredBackends_eq⟩

theorem Registering.eq_ofList {x : Obj} (h : Registering x) :
    ∃ g : Group, x = ofList (g.toObj :: configuredRest) := h

theorem Registering.wellFormed {x : Obj} (h : Registering x) : wellFormed x := by
  obtain ⟨g, rfl⟩ := h.eq_ofList
  rw [wellFormed_ofList]
  simp [configuredRest, isBackend]

theorem Pushed.wellFormed {x : Obj} (h : Pushed x) : wellFormed x := by
  obtain ⟨xs, rfl, hhead, -⟩ := h
  exact hhead.2

/-! ### Pushing backends -/

theorem wellFormed_insert {xs : List Obj} (h : wellFormed (ofList xs)) {x : Obj}
    (hx : isBackend x ∨ isGroup x) : wellFormed (ofList (xs.insert x)) := by
  rw [wellFormed_ofList] at h ⊢
  intro y hy
  rcases List.mem_insert_iff.mp hy with rfl | hy
  · exact hx
  · exact h y hy

/-- A backend that is not there yet becomes the first element. -/
theorem headed_insert_of_notMem {xs : List Obj} (h : wellFormed (ofList xs)) {b : Backend}
    (hb : b.toObj ∉ xs) : Headed (xs.insert b.toObj) :=
  ⟨⟨b, xs, List.insert_of_not_mem hb⟩, wellFormed_insert h (Or.inl (isBackend_toObj b))⟩

theorem Headed.insert {xs : List Obj} (h : Headed xs) (b : Backend) :
    Headed (xs.insert b.toObj) := by
  by_cases hb : b.toObj ∈ xs
  · rwa [List.insert_of_mem hb]
  · exact headed_insert_of_notMem h.2 hb

theorem Headed.insertAll {xs : List Obj} (h : Headed xs) :
    (bs : List Backend) → Headed (Elisp.insertAll xs (bs.map Backend.toObj))
  | [] => h
  | b :: bs => (h.insert b).insertAll bs

/-- What the C hook pushes on a list where its backend comes with its group. -/
theorem pushed_irony {xs : List Obj} (h : wellFormed (ofList xs))
    (hc : symbol "company-irony-c-headers" ∈ xs → ironyGroup ∈ xs ∧ Headed xs) :
    Pushed (ofList ((xs.insert ironyGroup).insert (symbol "company-irony-c-headers"))) := by
  refine ⟨_, rfl, ?_, fun _ => by simp⟩
  by_cases hmem : symbol "company-irony-c-headers" ∈ xs
  · obtain ⟨hg, hh⟩ := hc hmem
    rwa [List.insert_of_mem hg, List.insert_of_mem hmem]
  · refine headed_insert_of_notMem (b := ⟨"company-irony-c-headers"⟩)
      (wellFormed_insert h (Or.inr (by decide))) fun h' => ?_
    exact (List.mem_insert_iff.mp h').elim (by decide) hmem

/-- What the TeX hook pushes on a list whose first element is a backend, or that has none of its
backends. -/
theorem pushed_auctex {xs : List Obj} (h : wellFormed (ofList xs))
    (hhead : Headed xs ∨ symbol "company-math-symbols-unicode" ∉ xs)
    (hc : symbol "company-irony-c-headers" ∈ xs → ironyGroup ∈ xs) :
    Pushed (ofList (insertAll xs auctexBackends)) := by
  refine ⟨_, rfl, ?_, fun hmem => ?_⟩
  · have hfirst : Headed (xs.insert (symbol "company-math-symbols-unicode")) :=
      hhead.elim (fun hh => hh.insert ⟨"company-math-symbols-unicode"⟩)
        (headed_insert_of_notMem (b := ⟨"company-math-symbols-unicode"⟩) h)
    have hbackends : auctexBackends = symbol "company-math-symbols-unicode" ::
        [⟨"company-math-symbols-latex"⟩, ⟨"company-latex-commands"⟩, ⟨"company-auctex-labels"⟩,
          ⟨"company-auctex-bibs"⟩, ⟨"company-auctex-environments"⟩, ⟨"company-auctex-symbols"⟩,
          ⟨"company-auctex-macros"⟩].map Backend.toObj := rfl
    rw [hbackends, insertAll_cons]
    exact hfirst.insertAll _
  · rw [mem_insertAll] at hmem ⊢
    exact Or.inr (hc (hmem.resolve_left (by decide)))

/-! ### One call -/

/-- A local registration keeps the first invariant and does not signal. -/
theorem Registering.addBackendLocally (h : Registering (e.value current .companyBackends))
    (b : Backend) : Result.IsOk (myCompanyAddBackendLocally current b e) ∧
      Registering ((Result.state (myCompanyAddBackendLocally current b e)).value current
        .companyBackends) := by
  obtain ⟨g, hg⟩ := h
  rw [myCompanyAddBackendLocally_apply b hg, Result.state_ok, Cells.value_setLocal_self]
  exact ⟨trivial, g.register b, rfl⟩

/-- The C hook and the TeX hook lead from the first invariant to the second. -/
theorem Registering.push (h : Registering (e.value current .companyBackends)) {op : Registration}
    (hop : op.IsPush) : Result.IsOk (op.command current e) ∧
      Pushed ((Result.state (op.command current e)).value current .companyBackends) := by
  have hwf := h.wellFormed
  obtain ⟨g, hg⟩ := h.eq_ofList
  rw [hg] at hwf
  have hnotMem : ∀ b : Backend, b.toObj ∉ configuredRest →
      b.toObj ∉ g.toObj :: configuredRest := by
    intro b hb hmem
    rcases List.mem_cons.mp hmem with heq | hmem
    · exact absurd (congrArg isBackend heq) (by simp)
    · exact hb hmem
  have hirony := hnotMem ⟨"company-irony-c-headers"⟩ (by decide)
  rcases hop with rfl | rfl
  · rw [Registration.command, companyIronyAdd_apply hg, Result.state_ok,
      Cells.value_setLocal_self]
    exact ⟨trivial, pushed_irony hwf fun hmem => absurd hmem hirony⟩
  · rw [Registration.command, myCompanyAuctexSetup_apply hg, Result.state_ok,
      Cells.value_setLocal_self]
    exact ⟨trivial, pushed_auctex hwf
      (Or.inr (hnotMem ⟨"company-math-symbols-unicode"⟩ (by decide)))
      fun hmem => absurd hmem hirony⟩

/-- The C hook and the TeX hook keep the second invariant. -/
theorem Pushed.push (h : Pushed (e.value current .companyBackends)) {op : Registration}
    (hop : op.IsPush) : Result.IsOk (op.command current e) ∧
      Pushed ((Result.state (op.command current e)).value current .companyBackends) := by
  obtain ⟨xs, hxs, hhead, hirony⟩ := h
  rcases hop with rfl | rfl
  · rw [Registration.command, companyIronyAdd_apply hxs, Result.state_ok,
      Cells.value_setLocal_self]
    exact ⟨trivial, pushed_irony hhead.2 fun hmem => ⟨hirony hmem, hhead⟩⟩
  · rw [Registration.command, myCompanyAuctexSetup_apply hxs, Result.state_ok,
      Cells.value_setLocal_self]
    exact ⟨trivial, pushed_auctex hhead.2 (Or.inl hhead) hirony⟩

/-- A local registration on a pushed value signals. -/
theorem Pushed.not_isOk_addBackendLocally (h : Pushed (e.value current .companyBackends))
    (b : Backend) : ¬ Result.IsOk (myCompanyAddBackendLocally current b e) := by
  obtain ⟨xs, hxs, ⟨⟨b', ys, rfl⟩, -⟩, -⟩ := h
  rw [myCompanyAddBackendLocally_symbol b hxs]
  exact Result.not_isOk_error _ _

/-- The commit hook leaves an ill-formed value. -/
theorem not_wellFormed_gitCommitSetup :
    ¬ wellFormed ((Result.state (myGitCommitSetupHook current e)).value current
      .companyBackends) := by
  rw [value_myGitCommitSetupHook.1]
  decide

/-! ### Sessions -/

@[simp] theorem not_isPush_addBackendLocally (b : Backend) :
    ¬ (Registration.addBackendLocally b).IsPush := by simp [Registration.IsPush]

@[simp] theorem not_isPush_gitCommitSetup : ¬ Registration.gitCommitSetup.IsPush := by
  simp [Registration.IsPush]

theorem allWellFormed_cons (op : Registration) (ops : List Registration) :
    AllWellFormed current (op :: ops) e ↔
      (Result.IsOk (op.command current e) ∧
        wellFormed ((Result.state (op.command current e)).value current .companyBackends)) ∧
      AllWellFormed current ops (Result.state (op.command current e)) :=
  forall_trace_cons _ op ops e

/-- From a pushed value on, all is well exactly as long as only C and TeX hooks run. -/
theorem Pushed.allWellFormed_iff (h : Pushed (e.value current .companyBackends))
    (ops : List Registration) : AllWellFormed current ops e ↔ ∀ op ∈ ops, op.IsPush := by
  induction ops generalizing e with
  | nil => simp [AllWellFormed, trace]
  | cons op ops ih =>
      rw [allWellFormed_cons, List.forall_mem_cons]
      by_cases hop : op.IsPush
      · obtain ⟨hok, hpushed⟩ := h.push hop
        rw [ih hpushed]
        simp only [hok, hpushed.wellFormed, hop, true_and]
      · simp only [hop, false_and, iff_false]
        rintro ⟨⟨hok, hwf⟩, -⟩
        cases op with
        | addBackendLocally b => exact h.not_isOk_addBackendLocally b hok
        | companyIronyAdd => exact hop (Or.inl rfl)
        | companyAuctexSetup => exact hop (Or.inr rfl)
        | gitCommitSetup => exact not_wellFormed_gitCommitSetup hwf

theorem registersThenPushes_cons_add (b : Backend) (ops : List Registration) :
    RegistersThenPushes (.addBackendLocally b :: ops) ↔ RegistersThenPushes ops := by
  constructor
  · rintro ⟨_ | ⟨op, adds⟩, pushes, heq, hadds, hpushes⟩
    · rw [List.nil_append] at heq
      exact absurd (hpushes _ (heq ▸ List.mem_cons_self)) (not_isPush_addBackendLocally b)
    · rw [List.cons_append, List.cons.injEq] at heq
      exact ⟨adds, pushes, heq.2, fun op hop => hadds op (List.mem_cons_of_mem _ hop), hpushes⟩
  · rintro ⟨adds, pushes, rfl, hadds, hpushes⟩
    exact ⟨.addBackendLocally b :: adds, pushes, rfl,
      List.forall_mem_cons.mpr ⟨⟨b, rfl⟩, hadds⟩, hpushes⟩

/-- A session that does not begin with a local registration makes none. -/
theorem registersThenPushes_cons_of_ne {op : Registration} (hop : ∀ b, op ≠ .addBackendLocally b)
    (ops : List Registration) :
    RegistersThenPushes (op :: ops) ↔ op.IsPush ∧ ∀ op ∈ ops, op.IsPush := by
  rw [← List.forall_mem_cons (p := Registration.IsPush)]
  constructor
  · rintro ⟨_ | ⟨op', adds⟩, pushes, heq, hadds, hpushes⟩
    · rw [heq]
      exact hpushes
    · rw [List.cons_append, List.cons.injEq] at heq
      obtain ⟨b, hb⟩ := hadds op' List.mem_cons_self
      exact absurd (heq.1.trans hb) (hop b)
  · exact fun h => ⟨[], op :: ops, rfl, by simp, h⟩

/-- From a registering value on, all is well exactly in the sessions that register first and push
afterwards. -/
theorem Registering.allWellFormed_iff (h : Registering (e.value current .companyBackends))
    (ops : List Registration) : AllWellFormed current ops e ↔ RegistersThenPushes ops := by
  induction ops generalizing e with
  | nil => exact ⟨fun _ => ⟨[], [], rfl, by simp, by simp⟩, fun _ => by simp [AllWellFormed, trace]⟩
  | cons op ops ih =>
      rw [allWellFormed_cons]
      cases op with
      | addBackendLocally b =>
          obtain ⟨hok, hreg⟩ := h.addBackendLocally b
          rw [registersThenPushes_cons_add, Registration.command, ih hreg]
          simp only [hok, hreg.wellFormed, true_and]
      | companyIronyAdd =>
          have hop : Registration.companyIronyAdd.IsPush := Or.inl rfl
          obtain ⟨hok, hpushed⟩ := h.push hop
          rw [registersThenPushes_cons_of_ne (by simp), hpushed.allWellFormed_iff]
          simp only [hok, hpushed.wellFormed, hop, true_and]
      | companyAuctexSetup =>
          have hop : Registration.companyAuctexSetup.IsPush := Or.inr rfl
          obtain ⟨hok, hpushed⟩ := h.push hop
          rw [registersThenPushes_cons_of_ne (by simp), hpushed.allWellFormed_iff]
          simp only [hok, hpushed.wellFormed, hop, true_and]
      | gitCommitSetup =>
          rw [registersThenPushes_cons_of_ne (by simp)]
          simp only [not_isPush_gitCommitSetup, false_and, iff_false]
          exact fun hall => not_wellFormed_gitCommitSetup hall.1.2

/-- **Well-formedness over a session.** In a buffer whose `company-backends` starts at the
configured default, no call of a session signals and the value stays well-formed, exactly when
the session makes its local registrations first and then runs C and TeX hooks only. -/
theorem allWellFormed_iff_registersThenPushes
    (h : e.value current .companyBackends = configuredBackends) (ops : List Registration) :
    AllWellFormed current ops e ↔ RegistersThenPushes ops :=
  Registering.allWellFormed_iff (h ▸ registering_configuredBackends) ops

/-- Registering the backend of one package before the C hook runs. -/
theorem allWellFormed_rtags_irony :
    AllWellFormed "main.c" [.addBackendLocally ⟨"company-rtags"⟩, .companyIronyAdd]
      (configuredEditor String) :=
  (allWellFormed_iff_registersThenPushes (e := configuredEditor String) rfl _).mpr
    ⟨[.addBackendLocally ⟨"company-rtags"⟩], [.companyIronyAdd], rfl, by simp,
      by simp [Registration.IsPush]⟩

/-- The other way round the registration signals, and one commit hook leaves keywords at top
level. -/
theorem not_allWellFormed_irony_rtags :
    ¬ AllWellFormed "main.c" [.companyIronyAdd, .addBackendLocally ⟨"company-rtags"⟩]
        (configuredEditor String) ∧
      ¬ AllWellFormed "COMMIT_EDITMSG" [.gitCommitSetup] (configuredEditor String) := by
  constructor <;> decide

end DotEmacs.Company
