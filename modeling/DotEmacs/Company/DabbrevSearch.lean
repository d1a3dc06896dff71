import DotEmacs.Company.Isolation
import Mathlib.Data.List.Infix

/-!
# The buffers that completion searches from a commit message

To complete a symbol, `company-dabbrev-code` searches the current buffer and then, one after the
other, those of the other live buffers that `company-dabbrev-ignore-buffers` does not rule out.
The hook of commit-message buffers installs a predicate there which takes a buffer, but looks at
the name of the current buffer. So one answer decides for all buffers, and the search goes by
their own names exactly when all live buffers are alike.

What the search collects is left open: `searchBuffer` adds what it finds in a buffer to what was
collected before. The time limit is a function that says after which buffer it has passed.

## Main definitions

* `Company.Buffers`: the buffers of a session.
* `Company.myCompanyDabbrevIgnoreExceptMagitDiff`: the predicate of the configuration.
* `Company.companyDabbrevSearch`: the search, and `Company.scannedBuffers`: the other buffers that
  it scans.
* `Company.JudgesByName`: the search goes by the names of the buffers.

## Main results

* `Company.companyDabbrevSearch_eq_foldl`: the search is a fold over the buffers it scans.
* `Company.judgesByName_commitHook_iff`: when the search of a commit-message buffer goes by the
  names.
-/

namespace DotEmacs.Company

open Elisp Obj

/-- The buffers of a session, and what the search asks Emacs about them. -/
structure Buffers (Buf : Type) where
  /-- The live buffers, as `buffer-list` gives them. -/
  bufferList : List Buf
  bufferName : Buf → String
  majorMode : Buf → Obj
  /-- Whether the major mode of a buffer derives from one of a list of modes. -/
  derivedModeP : Buf → Obj → Bool
  /-- Whether a regexp matches a string. -/
  stringMatchP : String → String → Bool
  /-- The answer of a function that is called in one buffer with another as argument. -/
  funcall : Obj → Buf → Buf → Bool

/-! ### The predicate of the configuration -/

/-- A match of the regexp `\`[ *]`: the name begins with a space or an asterisk. -/
def beginsInternal (name : String) : Bool :=
  name.toList.head?.any fun c => c = ' ' || c = '*'

/-- A match of the regexp `\*magit-diff:`: the name contains `*magit-diff:`. The search binds
`case-fold-search` to nil. -/
def containsMagitDiff (name : String) : Bool :=
  "*magit-diff:".toList <:+: name.toList

/-- The names that are to be ignored: those that begin with a space or an asterisk and do not
contain `*magit-diff:`. -/
def ignoredName (name : String) : Bool := beginsInternal name && !containsMagitDiff name

section Search

variable {Buf α : Type} [DecidableEq Buf] (S : Buffers Buf) (e : Editor Buf) (current : Buf)

/-- `my:company-dabbrev-ignore-except-magit-diff`, called in the buffer `current`. The argument
is not used.

Source: `init/programming/vcs/init-prog-vcs-git.el`, lines 47–50. -/
def myCompanyDabbrevIgnoreExceptMagitDiff (current _buffer : Buf) : Bool :=
  let name := S.bufferName current
  beginsInternal name && !containsMagitDiff name

/-! ### The search -/

/-- The test of `company-dabbrev-ignore-buffers` for a buffer.

Source: `company-dabbrev.el`, lines 154–157. -/
def ignoresBuffer (buffer : Buf) : Bool :=
  match e.value current .companyDabbrevIgnoreBuffers with
  | .str regexp => S.stringMatchP regexp (S.bufferName buffer)
  | function =>
      if function = ignoreExceptMagitDiff then
        myCompanyDabbrevIgnoreExceptMagitDiff S current buffer
      else S.funcall function current buffer

/-- `(delq (current-buffer) (buffer-list))`. -/
def otherBuffers : List Buf := S.bufferList.filter (· ≠ current)

/-- The loop of `company-dabbrev--search` over the other buffers.

Source: `company-dabbrev.el`, lines 153–166. -/
def searchOthers (modes : Obj) (limitPassed : Buf → Bool) (searchBuffer : Buf → α → α) :
    List Buf → α → α
  | [], symbols => symbols
  | buffer :: buffers, symbols =>
      let symbols :=
        if ignoresBuffer S e current buffer then symbols
        else if modes = symbol "all" || S.derivedModeP buffer modes then
          searchBuffer buffer symbols
        else symbols
      if limitPassed buffer then symbols
      else searchOthers modes limitPassed searchBuffer buffers symbols

/-- `company-dabbrev--search`, from what the search of the current buffer has collected.

Source: `company-dabbrev.el`, lines 147–167. -/
def companyDabbrevSearch (otherBufferModes : Obj) (limitPassed : Buf → Bool)
    (searchBuffer : Buf → α → α) (symbols : α) : α :=
  if otherBufferModes = .nil then symbols
  else searchOthers S e current otherBufferModes limitPassed searchBuffer
    (otherBuffers S current) symbols

/-- The modes that `company-dabbrev-code` passes to the search.

Source: `company-dabbrev-code.el`, lines 94–97. -/
def otherBufferModes : Obj :=
  let value := e.value current .companyDabbrevCodeOtherBuffers
  if value = symbol "t" then ofList [S.majorMode current]
  else if value = symbol "code" then e.value current .companyDabbrevCodeModes
  else if value = symbol "all" then symbol "all"
  else .nil

/-- The other buffers that the search of `company-dabbrev-code` scans, when nothing limits its
time: the search that collects the buffers themselves. -/
def scannedBuffers : List Buf :=
  companyDabbrevSearch S e current (otherBufferModes S e current) (fun _ => false)
    (fun buffer buffers => buffers ++ [buffer]) []

/-! ### The search is a fold -/

/-- The buffers that the loop comes to before the time is over. -/
def visited (limitPassed : Buf → Bool) : List Buf → List Buf
  | [] => []
  | buffer :: buffers =>
      if limitPassed buffer then [buffer] else buffer :: visited limitPassed buffers

omit [DecidableEq Buf] in
theorem visited_prefix (limitPassed : Buf → Bool) (buffers : List Buf) :
    visited limitPassed buffers <+: buffers := by
  induction buffers with
  | nil => exact List.prefix_rfl
  | cons buffer buffers ih =>
      rw [visited]
      split_ifs
      · exact ⟨buffers, rfl⟩
      · exact List.cons_prefix_cons.mpr ⟨rfl, ih⟩

omit [DecidableEq Buf] in
@[simp] theorem visited_false (buffers : List Buf) :
    visited (fun _ => false) buffers = buffers := by
  induction buffers with
  | nil => rfl
  | cons buffer buffers ih => simp [visited, ih]

/-- The buffers that the loop searches when it comes to them. -/
def searches (modes : Obj) (buffer : Buf) : Bool :=
  !ignoresBuffer S e current buffer && (modes = symbol "all" || S.derivedModeP buffer modes)

omit [DecidableEq Buf] in
theorem searchOthers_eq_foldl (modes : Obj) (limitPassed : Buf → Bool)
    (searchBuffer : Buf → α → α) (buffers : List Buf) (symbols : α) :
    searchOthers S e current modes limitPassed searchBuffer buffers symbols =
      ((visited limitPassed buffers).filter (searches S e current modes)).foldl
        (fun symbols buffer => searchBuffer buffer symbols) symbols := by
  induction buffers generalizing symbols with
  | nil => rfl
  | cons buffer buffers ih =>
      have hstep : (if ignoresBuffer S e current buffer then symbols
          else if modes = symbol "all" || S.derivedModeP buffer modes then
            searchBuffer buffer symbols
          else symbols) =
          ([buffer].filter (searches S e current modes)).foldl
            (fun symbols buffer => searchBuffer buffer symbols) symbols := by
        cases hi : ignoresBuffer S e current buffer <;>
          cases hm : modes = symbol "all" || S.derivedModeP buffer modes <;>
          simp [searches, hi, hm]
      rw [searchOthers, hstep, visited]
      split_ifs
      · rfl
      · rw [ih, ← List.foldl_append, ← List.filter_append]
        rfl

/-- The search goes over those of the other buffers that it comes to in time, that are not
ignored and whose mode is asked for. -/
theorem companyDabbrevSearch_eq_foldl {modes : Obj} (hmodes : modes ≠ .nil)
    (limitPassed : Buf → Bool) (searchBuffer : Buf → α → α) (symbols : α) :
    companyDabbrevSearch S e current modes limitPassed searchBuffer symbols =
      ((visited limitPassed (otherBuffers S current)).filter
        (searches S e current modes)).foldl
          (fun symbols buffer => searchBuffer buffer symbols) symbols := by
  rw [companyDabbrevSearch, if_neg hmodes, searchOthers_eq_foldl]

/-- In `all` mode the search scans the other buffers that are not ignored. -/
theorem scannedBuffers_eq_filter
    (hall : e.value current .companyDabbrevCodeOtherBuffers = symbol "all") :
    scannedBuffers S e current =
      (otherBuffers S current).filter fun buffer => !ignoresBuffer S e current buffer := by
  have hmodes : otherBufferModes S e current = symbol "all" := by
    simp [otherBufferModes, hall]
  have hsearches : searches S e current (symbol "all") =
      fun buffer => !ignoresBuffer S e current buffer := by
    funext buffer
    simp [searches]
  rw [scannedBuffers, hmodes, companyDabbrevSearch_eq_foldl S e current (by simp), visited_false,
    hsearches, List.foldl_append_eq_append, List.nil_append, ← List.flatMap_def,
    List.flatMap_singleton']

end Search

/-! ### Commit-message buffers -/

variable {Buf : Type} [DecidableEq Buf] {S : Buffers Buf} {e : Editor Buf} {current : Buf}

/-- What the commit hook leaves for the search of a buffer: the predicate of the configuration,
and all other buffers to search. -/
def SearchesAll (current : Buf) (e : Editor Buf) : Prop :=
  e.value current .companyDabbrevIgnoreBuffers = ignoreExceptMagitDiff ∧
    e.value current .companyDabbrevCodeOtherBuffers = symbol "all"

/-- Every call of a hook, in whatever buffer, keeps what the commit hook has left. -/
theorem SearchesAll.command (h : SearchesAll current e) (b : Buf) (r : Registration) :
    SearchesAll current (Result.state (r.command b e)) := by
  by_cases hr : r = .gitCommitSetup
  · subst hr
    by_cases hb : current = b
    · subst hb
      exact ⟨value_myGitCommitSetupHook.2.1, value_myGitCommitSetupHook.2.2⟩
    · rw [Registration.command, myGitCommitSetupHook_apply, Result.state_ok]
      constructor
      · rw [Cells.value_setLocal_of_ne_buffer _ hb, Cells.value_setq_of_ne _ _ _ _ (by decide),
          Cells.value_setLocal_of_ne_buffer _ hb, Cells.value_setLocal_of_ne_buffer _ hb,
          Cells.value_setLocal_of_ne_buffer _ hb]
        exact h.1
      · rw [Cells.value_setLocal_of_ne_buffer _ hb]
        refine (Cells.value_setq ..).elim (fun hkept => hkept.trans ?_) id
        rw [Cells.value_setLocal_of_ne_buffer _ hb, Cells.value_setLocal_of_ne_buffer _ hb,
          Cells.value_setLocal_of_ne_buffer _ hb]
        exact h.2
  · have hvalue : ∀ v, v ≠ .companyBackends →
        (Result.state (r.command b e)).value current v = e.value current v := by
      intro v hv
      obtain ⟨hd, hbuffer⟩ := command_frame hr b e hv
      rw [Cells.value, hbuffer, hd, Cells.value]
    exact ⟨(hvalue _ (by decide)).trans h.1, (hvalue _ (by decide)).trans h.2⟩

/-- Behind the commit hook, whatever hooks run later, the search is set up as the commit hook has
left it. -/
theorem searchesAll_run (later : List (Buf × Registration)) :
    SearchesAll current (run later (Result.state (myGitCommitSetupHook current e))) :=
  session_induction _ (fun c _ _ h => h.command c.1 c.2)
    ⟨value_myGitCommitSetupHook.2.1, value_myGitCommitSetupHook.2.2⟩

/-- The search goes by the names of the buffers: it scans the other buffers whose own name is not
to be ignored, and the predicate answers from the name of its argument alone, whichever live
buffer is current. -/
def JudgesByName (S : Buffers Buf) (e : Editor Buf) (current : Buf) : Prop :=
  scannedBuffers S e current =
      (otherBuffers S current).filter (fun buffer => !ignoredName (S.bufferName buffer)) ∧
    ∃ answer : String → Bool, ∀ c ∈ S.bufferList, ∀ buffer ∈ S.bufferList,
      myCompanyDabbrevIgnoreExceptMagitDiff S c buffer = answer (S.bufferName buffer)

/-- One answer, that for the name of the current buffer, decides for all buffers. -/
theorem SearchesAll.scannedBuffers_eq (h : SearchesAll current e) :
    scannedBuffers S e current = (otherBuffers S current).filter
      fun _ => !ignoredName (S.bufferName current) := by
  have hignores : ∀ buffer, ignoresBuffer S e current buffer =
      ignoredName (S.bufferName current) := by
    intro buffer
    rw [ignoresBuffer, h.1]
    rfl
  simp only [scannedBuffers_eq_filter S e current h.2, hignores]

theorem SearchesAll.judgesByName_iff (h : SearchesAll current e) :
    JudgesByName S e current ↔ ∀ buffer ∈ S.bufferList,
      ignoredName (S.bufferName buffer) = ignoredName (S.bufferName current) := by
  rw [JudgesByName, h.scannedBuffers_eq]
  constructor
  · rintro ⟨hscan, -⟩ buffer hmem
    by_cases hb : buffer = current
    · rw [hb]
    · have hother : buffer ∈ otherBuffers S current :=
        List.mem_filter.mpr ⟨hmem, by simpa using hb⟩
      have hsame : (!ignoredName (S.bufferName current)) = true ↔
          (!ignoredName (S.bufferName buffer)) = true := by
        simpa only [List.mem_filter, hother, true_and] using iff_of_eq (congrArg (buffer ∈ ·) hscan)
      exact Bool.not_inj (Bool.eq_iff_iff.mpr hsame.symm)
  · intro hall
    refine ⟨List.filter_congr fun buffer hmem => ?_,
      fun _ => ignoredName (S.bufferName current), fun c hc _ _ => hall c hc⟩
    rw [hall buffer (List.mem_of_mem_filter hmem)]

/-- **The search of a commit-message buffer.** After the commit hook, and whatever hooks run
later, the search goes by the names of the buffers exactly when the live buffers are alike: all
of them have names that are to be ignored if the current buffer has, and none otherwise. -/
theorem judgesByName_commitHook_iff (S : Buffers Buf) (e : Editor Buf) (current : Buf)
    (later : List (Buf × Registration)) :
    JudgesByName S (run later (Result.state (myGitCommitSetupHook current e))) current ↔
      ∀ buffer ∈ S.bufferList,
        ignoredName (S.bufferName buffer) = ignoredName (S.bufferName current) :=
  (searchesAll_run later).judgesByName_iff

/-- Three live buffers, each named as it is. -/
def liveBuffers : Buffers String where
  bufferList := ["COMMIT_EDITMSG", " *temp*", "main.c"]
  bufferName := id
  majorMode _ := symbol "text-mode"
  derivedModeP _ _ := false
  stringMatchP _ _ := false
  funcall _ _ _ := false

/-- From the buffer of a commit message an internal buffer is scanned with the others. -/
theorem not_judgesByName_temp :
    scannedBuffers liveBuffers
        (Result.state (myGitCommitSetupHook "COMMIT_EDITMSG" (configuredEditor String)))
        "COMMIT_EDITMSG" = [" *temp*", "main.c"] ∧
      ignoredName " *temp*" ∧
      ¬ JudgesByName liveBuffers
        (run [] (Result.state (myGitCommitSetupHook "COMMIT_EDITMSG" (configuredEditor String))))
        "COMMIT_EDITMSG" := by
  have hscan : scannedBuffers liveBuffers
      (Result.state (myGitCommitSetupHook "COMMIT_EDITMSG" (configuredEditor String)))
      "COMMIT_EDITMSG" = [" *temp*", "main.c"] := by decide
  refine ⟨hscan, by decide, fun h => ?_⟩
  exact absurd (hscan.symm.trans h.1) (by decide)

end DotEmacs.Company
