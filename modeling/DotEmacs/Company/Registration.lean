import DotEmacs.Company.Groups
import Mathlib.Data.List.Nodup

/-!
# Registering several backends in one buffer

A sequence of calls of `my-company-add-backend-locally` on a value whose first element is a group
works on that group alone: it puts backends in front of it, each followed by `:with`. The members
that were there stay in place behind them, and every backend that was registered is in the group.

The guard of the function compares the backend with the head of the group only. So a backend is
added again as soon as another one has been registered in between, and a backend that is deeper in
the group is added again at once. No backend occurs twice exactly when every call names either the
head of the group or a backend that is not in it; and a repeated call changes nothing exactly
when it names the head.

## Main definitions

* `Company.DuplicateFree`: what a sequence of registrations is expected to leave.
* `Company.Group.HeadOrNew`: every call names the head of the group or a new backend.

## Main results

* `Company.value_registrations`: the value after a sequence of registrations.
* `Company.Group.nodup_registerAll_iff`: when no backend occurs twice.
* `Company.duplicateFree_iff`: when the expectation is met in full.
-/

namespace DotEmacs.Company

open Elisp Obj

namespace Group

/-- The group after registering the backends of a list in turn. -/
def registerAll (g : Group) (bs : List Backend) : Group := bs.foldl register g

@[simp] theorem registerAll_nil (g : Group) : g.registerAll [] = g := rfl

@[simp] theorem registerAll_cons (g : Group) (b : Backend) (bs : List Backend) :
    g.registerAll (b :: bs) = (g.register b).registerAll bs := rfl

/-- The members of the group stay in place behind what the registrations put in front. -/
theorem members_suffix_registerAll (g : Group) (bs : List Backend) :
    g.members <:+ (g.registerAll bs).members := by
  induction bs generalizing g with
  | nil => exact List.suffix_rfl
  | cons b bs ih => exact (members_suffix_register g b).trans (ih (g.register b))

theorem mem_backends_register {g : Group} {b c : Backend} :
    c ∈ (g.register b).backends ↔ c = b ∨ c ∈ g.backends := by
  by_cases h : g.head = b
  · rw [register_of_head_eq g h]
    exact ⟨Or.inr, fun hc => hc.elim (fun hc => by simp [hc, h]) id⟩
  · rw [register_of_head_ne g h, backends_push, List.mem_cons]

/-- The backends of the group are those it had and those that were registered. -/
theorem mem_backends_registerAll {g : Group} {bs : List Backend} {c : Backend} :
    c ∈ (g.registerAll bs).backends ↔ c ∈ bs ∨ c ∈ g.backends := by
  induction bs generalizing g with
  | nil => simp
  | cons b bs ih =>
      rw [registerAll_cons, ih, mem_backends_register, List.mem_cons]
      tauto

/-- Every call names the head of the group or a backend that is not in it. -/
def HeadOrNew : Group → List Backend → Prop
  | _, [] => True
  | g, b :: bs => (g.head = b ∨ b ∉ g.backends) ∧ HeadOrNew (g.register b) bs

theorem nodup_register_iff {g : Group} (hg : g.backends.Nodup) (b : Backend) :
    (g.register b).backends.Nodup ↔ g.head = b ∨ b ∉ g.backends := by
  by_cases h : g.head = b
  · rw [register_of_head_eq g h]
    exact ⟨fun _ => Or.inl h, fun _ => hg⟩
  · rw [register_of_head_ne g h, backends_push, List.nodup_cons]
    simp only [h, false_or, hg, and_true]

theorem backends_sublist_registerAll (g : Group) (bs : List Backend) :
    g.backends.Sublist (g.registerAll bs).backends :=
  (members_suffix_registerAll g bs).sublist.filterMap _

/-- **Duplicates.** The registrations leave every backend in the group once exactly when each
names the head of the group or a new backend. -/
theorem nodup_registerAll_iff {g : Group} (hg : g.backends.Nodup) (bs : List Backend) :
    (g.registerAll bs).backends.Nodup ↔ g.HeadOrNew bs := by
  induction bs generalizing g with
  | nil => simpa [HeadOrNew] using hg
  | cons b bs ih =>
      rw [registerAll_cons, HeadOrNew, ← nodup_register_iff hg]
      refine ⟨fun h => ?_, fun h => (ih h.1).mpr h.2⟩
      have hb := h.sublist (backends_sublist_registerAll (g.register b) bs)
      exact ⟨hb, (ih hb).mp h⟩

/-- The registrations of the head leave the group alone. -/
theorem registerAll_eq_self {g : Group} : {bs : List Backend} → (∀ b ∈ bs, b = g.head) →
    g.registerAll bs = g
  | [], _ => rfl
  | b :: bs, h => by
      obtain ⟨hb, hbs⟩ := List.forall_mem_cons.mp h
      rw [registerAll_cons, register_of_head_eq g hb.symm, registerAll_eq_self hbs]

end Group

/-! ### Sequences of calls -/

variable {Buf : Type} [DecidableEq Buf] {current : Buf} {e : Editor Buf} {g : Group} {rest : Obj}

/-- A sequence of registrations registers the backends in the first group, and leaves the rest of
the value alone. -/
theorem value_registrations (h : e.value current .companyBackends = .cons g.toObj rest)
    (bs : List Backend) :
    (session (myCompanyAddBackendLocally current) bs e).value current .companyBackends =
      .cons (g.registerAll bs).toObj rest := by
  induction bs generalizing e g with
  | nil => exact h
  | cons b bs ih =>
      rw [session_cons, myCompanyAddBackendLocally_apply b h, Result.state_ok]
      exact ih (Cells.value_setLocal_self ..)

/-- What the registration of the backends `bs` on a value with first group `g` and rest `rest` is
expected to leave: a group with each of the `bs` and of the backends of `g` exactly once, the
members of `g` in their order, the rest of the value unchanged; and no change by one more call
with any of these backends. -/
def DuplicateFree (current : Buf) (e : Editor Buf) (g : Group) (rest : Obj)
    (bs : List Backend) : Prop :=
  ∃ g' : Group,
    (session (myCompanyAddBackendLocally current) bs e).value current .companyBackends =
        .cons g'.toObj rest ∧
      (∀ b ∈ bs ++ g.backends, g'.backends.count b = 1) ∧
      g.members.Sublist g'.members ∧
      ∀ b ∈ bs ++ g.backends,
        (session (myCompanyAddBackendLocally current) (bs ++ [b]) e).value current
          .companyBackends = .cons g'.toObj rest

/-- One more call leaves the value alone exactly when it names the head of the group. -/
theorem value_registrations_concat_iff
    (h : e.value current .companyBackends = .cons g.toObj rest) (bs : List Backend)
    (b : Backend) :
    (session (myCompanyAddBackendLocally current) (bs ++ [b]) e).value current .companyBackends =
        .cons (g.registerAll bs).toObj rest ↔ (g.registerAll bs).head = b := by
  have hconcat : g.registerAll (bs ++ [b]) = (g.registerAll bs).register b := by
    rw [Group.registerAll, List.foldl_append]
    rfl
  rw [value_registrations h, hconcat, ← Group.register_eq_self_iff, Obj.cons.injEq,
    Group.toObj_injective.eq_iff]
  simp

/-- **Registering several backends.** The expectation is met exactly when the group has a single
backend and every call names it: the calls then change nothing. -/
theorem duplicateFree_iff (hg : g.backends.Nodup)
    (h : e.value current .companyBackends = .cons g.toObj rest) (bs : List Backend) :
    DuplicateFree current e g rest bs ↔ ∀ b ∈ bs ++ g.backends, b = g.head := by
  constructor
  · rintro ⟨g', hg', -, -, hrepeat⟩
    have heq : g' = g.registerAll bs := by
      rw [value_registrations h, Obj.cons.injEq] at hg'
      exact (Group.toObj_injective hg'.1).symm
    subst heq
    have hhead : ∀ b ∈ bs ++ g.backends, (g.registerAll bs).head = b := fun b hb =>
      (value_registrations_concat_iff h bs b).mp (hrepeat b hb)
    intro b hb
    rw [← hhead b hb, hhead g.head (List.mem_append_right _ (by simp))]
  · intro hall
    have hbs : g.registerAll bs = g :=
      Group.registerAll_eq_self fun b hb => hall b (List.mem_append_left _ hb)
    refine ⟨g, by rw [value_registrations h, hbs], fun b hb => ?_, List.Sublist.refl _,
      fun b hb => ?_⟩
    · rw [hall b hb]
      exact List.count_eq_one_of_mem hg (by simp)
    · have hiff := value_registrations_concat_iff h bs b
      rw [hbs] at hiff
      exact hiff.mpr (hall b hb).symm

/-- A group with a single backend may be asked for it any number of times. -/
theorem duplicateFree_cmake :
    DuplicateFree "CMakeLists.txt"
      ((configuredEditor String).setLocal "CMakeLists.txt" .companyBackends
        (ofList [ofList [symbol "company-cmake"], symbol "company-files"]))
      ⟨⟨"company-cmake"⟩, []⟩ (ofList [symbol "company-files"])
      [⟨"company-cmake"⟩, ⟨"company-cmake"⟩] :=
  (duplicateFree_iff (by decide) rfl _).mpr (by decide)

/-- From the configured default, a second registration of `company-rtags` behind one of
`company-cmake` adds `company-rtags` again. -/
theorem not_duplicateFree_rtags_cmake_rtags :
    ¬ DuplicateFree "main.c" (configuredEditor String) .configured (ofList configuredRest)
      [⟨"company-rtags"⟩, ⟨"company-cmake"⟩, ⟨"company-rtags"⟩] := by
  rintro ⟨g', hvalue, hcount, -⟩
  rw [value_registrations (Group.value_configuredEditor _), Obj.cons.injEq] at hvalue
  rw [← Group.toObj_injective hvalue.1] at hcount
  exact absurd (hcount ⟨"company-rtags"⟩ (by decide)) (by decide)

end DotEmacs.Company
