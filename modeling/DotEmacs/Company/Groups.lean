import DotEmacs.Company.Hooks

/-!
# Groups of backends

The documentation of `company-backends` allows two kinds of element: a backend, and a group, that
is a list of backends which can also contain the keywords `:with` and `:separate`
(`company.el`, lines 431–449). Here a group is a backend followed by backends and these keywords,
so that every group can be read as a Lisp list and no ill-formed group can be written; the
predicate on Lisp objects that `company-mode` works with accepts exactly these.

The registration of a backend puts the backend and `:with` in front of the group, unless the
backend is the head of the group already.

## Main definitions

* `Company.Member`, `Company.Group`, `Company.Group.backends`, `Company.Group.register`.
* `Company.isGroup`, `Company.wellFormed`: well-formed groups and values of `company-backends`
  among the Lisp objects.

## Main results

* `Company.isGroup_iff`: the well-formed groups are the Lisp lists of the groups.
* `Company.myCompanyAddBackendLocally_apply`: the registration on a value whose first element is a
  group is `Company.Group.register` on that group.
-/

namespace DotEmacs.Company

open Elisp Obj

/-! ### Groups -/

/-- A member of a group: a backend, `:with` or `:separate`. -/
inductive Member
  | backend (b : Backend)
  | colonWith
  | colonSeparate
  deriving DecidableEq, Repr

namespace Member

def toObj : Member → Obj
  | .backend b => b.toObj
  | .colonWith => keyword "with"
  | .colonSeparate => keyword "separate"

theorem toObj_injective : Function.Injective toObj := by
  intro m n h
  cases m <;> cases n <;> simp_all [toObj, Backend.toObj, Backend.ext_iff]

/-- The backend that a member is, if it is one. -/
def backend? : Member → Option Backend
  | .backend b => some b
  | _ => none

end Member

/-- A group: a backend followed by backends and keywords. -/
structure Group where
  head : Backend
  tail : List Member
  deriving DecidableEq, Repr

namespace Group

variable (g : Group)

/-- The members of a group, its head included. -/
def members : List Member := .backend g.head :: g.tail

/-- The backends of a group, in order. -/
def backends : List Backend := g.members.filterMap Member.backend?

/-- The group as a Lisp list. -/
def toObj : Obj := ofList (g.members.map Member.toObj)

/-- The backend `b` and `:with` in front of a group. -/
def push (b : Backend) : Group := ⟨b, .colonWith :: g.members⟩

/-- The group that the registration of `b` leaves. -/
def register (b : Backend) : Group := if g.head = b then g else g.push b

theorem toObj_eq : g.toObj = .cons g.head.toObj (ofList (g.tail.map Member.toObj)) := rfl

theorem toObj_injective : Function.Injective toObj := by
  intro g h heq
  obtain ⟨hd, tl⟩ := g
  obtain ⟨hd', tl'⟩ := h
  have hmem := List.map_injective_iff.mpr Member.toObj_injective (ofList_injective heq)
  simp only [members, List.cons.injEq, Member.backend.injEq] at hmem
  rw [hmem.1, hmem.2]

@[simp] theorem backends_eq : g.backends = g.head :: g.tail.filterMap Member.backend? := rfl

theorem backends_push (b : Backend) : (g.push b).backends = b :: g.backends := rfl

theorem register_of_head_eq {b : Backend} (h : g.head = b) : g.register b = g := if_pos h

theorem register_of_head_ne {b : Backend} (h : g.head ≠ b) : g.register b = g.push b := if_neg h

/-- The backend that is registered is the head of the group. -/
@[simp] theorem head_register (b : Backend) : (g.register b).head = b := by
  by_cases h : g.head = b
  · rw [register_of_head_eq g h, h]
  · exact congrArg head (register_of_head_ne g h)

/-- The members of a group stay in place behind what a registration puts in front of them. -/
theorem members_suffix_register (b : Backend) : g.members <:+ (g.register b).members := by
  by_cases h : g.head = b
  · simp only [register_of_head_eq g h, List.suffix_refl]
  · rw [register_of_head_ne g h]
    exact ⟨[.backend b, .colonWith], rfl⟩

/-- A registration changes a group exactly when the backend is not its head. -/
theorem register_eq_self_iff (b : Backend) : g.register b = g ↔ g.head = b := by
  refine ⟨fun h => ?_, register_of_head_eq g⟩
  rw [← head_register g b, h]

/-- The first group of the configured default. -/
def configured : Group where
  head := ⟨"company-capf"⟩
  tail := [.colonSeparate, .backend ⟨"company-yasnippet"⟩, .colonSeparate,
    .backend ⟨"company-tempo"⟩, .colonSeparate, .backend ⟨"company-keywords"⟩, .colonSeparate,
    .backend ⟨"company-abbrev"⟩]

theorem configuredBackends_eq :
    configuredBackends = .cons configured.toObj (ofList configuredRest) := rfl

theorem value_configuredEditor {Buf : Type} (b : Buf) :
    (configuredEditor Buf).value b .companyBackends =
      .cons configured.toObj (ofList configuredRest) := rfl

end Group

/-! ### Well-formed values -/

/-- A symbol that is not a keyword. -/
def isBackend : Obj → Bool
  | .sym (.plain _) => true
  | _ => false

/-- A backend, `:with` or `:separate`. -/
def isMember (x : Obj) : Bool :=
  isBackend x || x = keyword "with" || x = keyword "separate"

/-- A list headed by a backend, with no keywords but `:with` and `:separate`. -/
def isGroup : Obj → Bool
  | .cons h t => isBackend h && t.all isMember
  | _ => false

/-- A list of backends and groups. -/
def wellFormed (x : Obj) : Bool := x.all fun y => isBackend y || isGroup y

theorem isBackend_iff {x : Obj} : isBackend x ↔ ∃ b : Backend, x = b.toObj := by
  constructor
  · intro h
    match x, h with
    | .sym (.plain name), _ => exact ⟨⟨name⟩, rfl⟩
  · rintro ⟨b, rfl⟩
    rfl

@[simp] theorem isBackend_toObj (b : Backend) : isBackend b.toObj := rfl

theorem isMember_iff {x : Obj} : isMember x ↔ ∃ m : Member, x = m.toObj := by
  simp only [isMember, Bool.or_eq_true, decide_eq_true_eq, isBackend_iff]
  constructor
  · rintro ((⟨b, rfl⟩ | rfl) | rfl)
    · exact ⟨.backend b, rfl⟩
    · exact ⟨.colonWith, rfl⟩
    · exact ⟨.colonSeparate, rfl⟩
  · rintro ⟨_ | _ | _, rfl⟩
    · exact Or.inl (Or.inl ⟨_, rfl⟩)
    · exact Or.inl (Or.inr rfl)
    · exact Or.inr rfl

/-- The lists of members are the lists all of whose elements are members. -/
theorem all_isMember_iff : {x : Obj} →
    (x.all isMember ↔ ∃ ms : List Member, x = ofList (ms.map Member.toObj))
  | .nil => ⟨fun _ => ⟨[], rfl⟩, fun _ => rfl⟩
  | .cons a d => by
      rw [Obj.all, Bool.and_eq_true, isMember_iff, all_isMember_iff]
      constructor
      · rintro ⟨⟨m, rfl⟩, ms, rfl⟩
        exact ⟨m :: ms, rfl⟩
      · rintro ⟨_ | ⟨m, ms⟩, h⟩
        · simp at h
        · simp only [List.map_cons, ofList_cons, cons.injEq] at h
          exact ⟨⟨m, h.1⟩, ms, h.2⟩
  | .sym _ | .int _ | .float _ | .str _ | .vec _ | .charTable _ =>
      ⟨fun h => by simp [Obj.all] at h, fun ⟨ms, h⟩ => by cases ms <;> simp at h⟩

/-- **The well-formed groups are the Lisp lists of the groups.** -/
theorem isGroup_iff {x : Obj} : isGroup x ↔ ∃ g : Group, x = g.toObj := by
  constructor
  · intro h
    match x, h with
    | .cons a d, h =>
      rw [isGroup, Bool.and_eq_true, isBackend_iff, all_isMember_iff] at h
      obtain ⟨⟨b, rfl⟩, ms, rfl⟩ := h
      exact ⟨⟨b, ms⟩, rfl⟩
  · rintro ⟨g, rfl⟩
    rw [Group.toObj_eq, isGroup, Bool.and_eq_true, isBackend_iff, all_isMember_iff]
    exact ⟨⟨g.head, rfl⟩, g.tail, rfl⟩

@[simp] theorem isGroup_toObj (g : Group) : isGroup g.toObj := isGroup_iff.mpr ⟨g, rfl⟩

@[simp] theorem not_isBackend_group (g : Group) : ¬ isBackend g.toObj := by
  simp [Group.toObj_eq, isBackend]

/-- On a value whose first element is a group, `my-company-add-backend-locally` registers the
backend in that group and leaves the rest of the value alone. -/
theorem myCompanyAddBackendLocally_apply {Buf : Type} [DecidableEq Buf] {current : Buf}
    {e : Editor Buf} {g : Group} {rest : Obj} (b : Backend)
    (h : e.value current .companyBackends = .cons g.toObj rest) :
    myCompanyAddBackendLocally current b e =
      .ok () (e.setLocal current .companyBackends (.cons (g.register b).toObj rest)) := by
  rw [Group.toObj_eq] at h
  rw [myCompanyAddBackendLocally_group b h]
  by_cases hb : g.head = b
  · rw [Group.register_of_head_eq g hb, hb, if_pos rfl, Group.toObj_eq, hb]
  · rw [Group.register_of_head_ne g hb, if_neg (by simpa using hb)]
    rfl

end DotEmacs.Company
