import DotEmacs.Company.Candidates
import DotEmacs.Company.SearchRegexp
import DotEmacs.Elisp.CommonPrefix

/-!
# The completion mechanism

A buffer with `company-mode` is completing or not. A completion begins with the first backend that
has a prefix at point, on a command or after some idle time; it goes on while the user types, with
new candidates after each command that has moved point; and it ends when the user completes or
aborts, or when what was typed no longer fits. Commands on the way move the selection and search or
filter the candidates.

The variables of the mechanism are the fields of a state, with the text of the buffer around point.
Each function of the mechanism is a function on states, and one command after the other, each with
what runs before and after it, is a step. The backends are of any type: what they reply depends on
the text. What `company-emulation-alist`, the timers and the frontends show of a state, and the
hooks, which are empty, are left out.

## Main definitions

* `Company.BufferText`, `Company.Settings`, `Company.Backends`: the text, the options, the backends.
* `Company.Completion`: the variables of the mechanism.
* `Company.Completion.beginNew`, `Company.Completion.continue`, `Company.Completion.perform`.
* `Company.Action`, `Company.Completion.step`: the commands, and one command with its hooks.
* `Company.Completion.Reachable`: the states that any sequence of commands leads to.
-/

namespace DotEmacs.Company

open Elisp

/-! ### Surroundings -/

/-- The text of a buffer before and after point. -/
structure BufferText where
  before : List Char
  after : List Char
  deriving DecidableEq, Repr

namespace BufferText

/-- `(point)`, counted from zero. -/
def point (t : BufferText) : ℕ := t.before.length

/-- `(point-max)`, counted from zero. -/
def pointMax (t : BufferText) : ℕ := t.before.length + t.after.length

/-- Inserting a text at point. -/
def insert (t : BufferText) (s : List Char) : BufferText := { t with before := t.before ++ s }

/-- Deleting a number of characters before point; signals if there are fewer. -/
def deleteBefore (t : BufferText) (n : ℕ) : Option BufferText :=
  if n ≤ t.before.length then some { t with before := t.before.take (t.before.length - n) }
  else none

end BufferText

/-- The options that the mechanism looks at. -/
structure Settings where
  minimumPrefixLength : ℕ
  /-- What `company-require-match` comes to, from whether there was an explicit action. -/
  requireMatch : Bool → Bool
  /-- `company-auto-complete-p` for an input. -/
  autoComplete : List Char → Bool
  selectionWrapAround : Bool
  tooltipLimit : ℕ
  transformers : List (List Candidate → List Candidate)
  /-- Whether the regexp that `company-search-regexp-function` makes of a text matches another. -/
  searchMatches : List Char → List Char → Bool
  /-- The case table. -/
  upcase : Char → Char

/-- The backends of a session, of any type: what each replies in a text, and the text that its
`post-completion` leaves, given the candidate that was inserted. -/
structure Backends (ε : Type) where
  replies : ε → BufferText → Replies
  postCompletion : ε → Candidate → BufferText → BufferText

/-- The variables of the mechanism in a buffer. -/
structure Completion (ε : Type) where
  text : BufferText
  /-- Nothing prevents a completion from beginning: see `company--should-complete`. -/
  completable : Bool
  companyBackends : List ε
  backend : Option ε
  prefixText : Option (List Char)
  candidates : List Candidate
  candidatesLength : Option ℕ
  candidatesCache : Cache
  common : Option (List Char)
  selection : ℕ
  selectionChanged : Bool
  manualAction : Bool
  manualPrefix : Option Prefix
  pointMax : Option ℕ
  point : Option ℕ
  searchMode : Bool
  searchString : List Char
  searchFiltering : Bool
  searchOldSelection : ℕ
  searchOldChanged : Bool

/-- What nil replies as a backend: the adapter on an empty group. -/
def noReplies : Replies where
  prefixReply := .nil
  candidates _ := .now []
  sorted := false
  duplicates := true
  ignoreCase := .nil
  noCache _ := false
  requireMatch := .nil
  onCandidate _ _ := .nil

namespace Completion

variable {ε : Type} (σ : Settings) (B : Backends ε) (s : Completion ε)

/-- A buffer in which no completion has been tried. -/
def initial (text : BufferText) (companyBackends : List ε) : Completion ε where
  text := text
  completable := true
  companyBackends := companyBackends
  backend := none
  prefixText := none
  candidates := []
  candidatesLength := none
  candidatesCache := []
  common := none
  selection := 0
  selectionChanged := false
  manualAction := false
  manualPrefix := none
  pointMax := none
  point := none
  searchMode := false
  searchString := []
  searchFiltering := false
  searchOldSelection := 0
  searchOldChanged := false

/-- `(setq company-candidates-cache cache)`. -/
def setCache (cache : Cache) : Completion ε := { s with candidatesCache := cache }

/-- `(setq company-backend b)`. -/
def chooseBackend (b : Option ε) : Completion ε := { s with backend := b }

/-- `(setq company--manual-action value)`. -/
def setManualAction (value : Bool) : Completion ε := { s with manualAction := value }

/-- `(setq company-prefix t)`. -/
def setPrefix (t : List Char) : Completion ε := { s with prefixText := some t }

/-- `(setq company--manual-prefix reply)`. -/
def setManualPrefix (reply : Option Prefix) : Completion ε := { s with manualPrefix := reply }

/-- Another text of the buffer. -/
def setText (text : BufferText) : Completion ε := { s with text := text }

/-- `(setq company-prefix t company-backend b)`. -/
def setBackend (b : ε) (t : List Char) : Completion ε :=
  { s with prefixText := some t, backend := some b }

/-- `(setq company-point (point) company--point-max (point-max))`. -/
def setPoint : Completion ε :=
  { s with point := some s.text.point, pointMax := some s.text.pointMax }

/-! ### Candidates -/

/-- What the current backend replies. -/
def replies : Replies :=
  match s.backend with
  | some b => B.replies b s.text
  | none => noReplies

/-- Whether case does not count, as the current backend says. -/
def ignoresCase : Bool := (s.replies B).ignoreCase.toBool

/-- `company-explicit-action-p`.

Source: `company.el`, lines 1131–1134. -/
def explicitActionP : Bool := s.manualAction || s.selectionChanged

/-- `company-require-match-p`.

Source: `company.el`, lines 1487–1493. -/
def requireMatchP : Bool :=
  match (s.replies B).requireMatch with
  | .t => true
  | .never => false
  | _ => σ.requireMatch s.explicitActionP

/-- `company-calculate-candidates`, in a state, which it gives the new cache. Company waits for the
answer if the selection was changed or a match is required.

Source: `company.el`, lines 1223–1242 and 1250–1257. -/
def calculate (predicate : Option (Candidate → Bool)) (prefixText : List Char)
    (ignoreCase : Bool) : List Candidate × Completion ε :=
  let result := calculateCandidates σ.upcase σ.transformers (s.replies B)
    (s.selectionChanged || s.requireMatchP σ B) ignoreCase predicate prefixText s.candidatesCache
  (result.1, s.setCache result.2)

/-- How characters are compared, whether case counts or not. -/
def caseKey (upcase : Char → Char) (ignoreCase : Bool) : Char → Char :=
  if ignoreCase then upcase else id

/-- The part of `company-update-candidates` that sets `company-common`.

Source: `company.el`, lines 1209–1221. -/
def commonOf (prefixText : List Char) (ignoreCase : Bool) : List Candidate → Option (List Char)
  | [] => none
  | [c] => some c.text
  | c :: cs =>
      let common :=
        tryCompletion (caseKey σ.upcase ignoreCase) ignoreCase c.text (cs.map Candidate.text)
      if startsWith σ.upcase ignoreCase prefixText common then some common else none

/-- Where `company-update-candidates` puts the selection, and whether it remains changed. If it was
changed, the selected candidate is looked for among the new ones.

Source: `company.el`, lines 1191–1208. -/
def restoredSelection (candidates : List Candidate) : ℕ × Bool :=
  if s.selectionChanged then
    match s.candidates[s.selection]? with
    | some selected =>
        match candidates.findIdx? fun candidate => candidate.text = selected.text ∧
            Replies.annotation (s.replies B) candidate =
              Replies.annotation (s.replies B) selected with
        | some i => (i, true)
        | none => (0, false)
    | none => (0, true)
  else (0, false)

/-- `company-update-candidates`.

Source: `company.el`, lines 1189–1221. -/
def updateCandidates (candidates : List Candidate) : Completion ε :=
  { s with
    candidatesLength := some candidates.length
    candidates := candidates
    selection := (s.restoredSelection B candidates).1
    selectionChanged := (s.restoredSelection B candidates).2
    common := commonOf σ (s.prefixText.getD []) (s.ignoresCase B) candidates }

/-- `company--unique-match-p`.

Source: `company.el`, lines 1244–1248. -/
def uniqueMatchP (candidates : List Candidate) (prefixText : List Char) (ignoreCase : Bool) :
    Bool :=
  match candidates with
  | [c] =>
      if ignoreCase then c.text.map σ.upcase = prefixText.map σ.upcase else c.text = prefixText
  | _ => false

/-! ### The end of a completion -/

/-- `company-cancel` without a result to insert. The mode line, the timers and the keymaps are left
out.

Source: `company.el`, lines 1633–1663. -/
def cancel : Completion ε :=
  { initial s.text s.companyBackends with completable := s.completable }

/-- `company--insert-candidate`: the text that it leaves, unless it signals.

Source: `company.el`, lines 1104–1114. -/
def insertCandidate (candidate : List Char) : Option BufferText :=
  let prefixText := s.prefixText.getD []
  if candidate.length = 0 then some s.text
  else if (s.replies B).ignoreCase = .keepPrefix then
    if prefixText.length ≤ candidate.length then
      some (s.text.insert (candidate.drop prefixText.length))
    else none
  else if prefixText = candidate then some s.text
  else (s.text.deleteBefore prefixText.length).map (·.insert candidate)

/-- `company-finish`, with `company-cancel` on the result, unless it signals: the backend of a
completion gets to change the text.

Source: `company.el`, lines 1633–1671. -/
def finish (result : Candidate) : Option (Completion ε) :=
  (s.insertCandidate B result.text).map fun text =>
    let s' := (s.setText text).cancel
    match s.prefixText, s.backend with
    | some _, some b => s'.setText (B.postCompletion b result text)
    | _, _ => s'

/-! ### Going on -/

/-- `company--good-prefix-p`, with `company-abort-manual-when-too-short` off.

Source: `company.el`, lines 1536–1545. -/
def goodPrefixP (minimumPrefixLength : ℕ) (manualPrefix : Option Prefix) : Prefix → Bool
  | .nil | .stop => false
  | .always _ => true
  | .text t => manualPrefix.isSome || minimumPrefixLength ≤ t.length
  | .counted _ length => manualPrefix.isSome || minimumPrefixLength ≤ length

/-- `company--incremental-p`. The test for `backward-delete-char-untabify`, which does not leave
point behind `company-point`, is left out.

Source: `company.el`, lines 1508–1514. -/
def incrementalP : Bool :=
  let companyPoint := s.point.getD 0
  let prefixText := s.prefixText.getD []
  companyPoint < s.text.point && s.pointMax.getD 0 < s.text.pointMax &&
    prefixText.isSuffixOf (s.text.before.take companyPoint)

/-- `(delete-char (- company-point (point)))`, with point behind `company-point`. -/
def deleteInput : Completion ε :=
  s.setText { s.text with before := s.text.before.take (s.point.getD 0) }

/-- `company--continue-failed`, with its value.

Source: `company.el`, lines 1516–1534. -/
def continueFailed (newPrefix : Option (List Char)) : Completion ε × Bool :=
  let prefixText := s.prefixText.getD []
  if (! s.requireMatchP σ B || newPrefix.all fun t => t.length ≤ prefixText.length) &&
      s.candidates.any (·.text = prefixText) then
    (s.cancel, false)
  else if s.requireMatchP σ B then
    (s.deleteInput, true)
  else (s.cancel, false)

/-- The selected candidate is inserted at `company-point`, and point stays with what follows it.

Source: `company.el`, lines 1570–1577. -/
def autoCompleteSelection : Completion ε :=
  let companyPoint := s.point.getD 0
  let atPoint : BufferText :=
    ⟨s.text.before.take companyPoint, s.text.before.drop companyPoint ++ s.text.after⟩
  match s.candidates[s.selection]?.bind fun result => (s.setText atPoint).finish B result with
  | none => s.cancel
  | some s' =>
      let all := s'.text.before ++ s'.text.after
      let point := all.length - s.text.after.length
      s'.setText ⟨all.take point, all.drop point⟩

/-- The new prefix of `company--continue`, if it is a string. What is not good is left as it is.

Source: `company.el`, lines 1551–1554. -/
def newPrefix : Option (List Char) :=
  let reply := (s.replies B).prefixReply
  if goodPrefixP σ.minimumPrefixLength s.manualPrefix reply then reply.str?
  else match reply with
    | .text t => some t
    | _ => none

/-- How `company--continue` goes on with the candidates that it has found, and its value.

Source: `company.el`, lines 1558–1580. -/
def continueWith (newPrefix : Option (List Char)) (ignoreCase : Bool) (c : List Candidate) :
    Completion ε × Bool :=
  let t := newPrefix.getD []
  if uniqueMatchP σ c t ignoreCase then (s.cancel, false)
  else if c ≠ [] then ((s.setPrefix t).updateCandidates σ B c, true)
  else if s.point.getD 0 < s.text.point ∧
      σ.autoComplete (s.text.before.drop (s.point.getD 0)) then
    (s.autoCompleteSelection B, false)
  else if ! s.incrementalP then (s.cancel, false)
  else s.continueFailed σ B newPrefix

/-- The cache from which a completion goes on.

Source: `company.el`, lines 1548–1550. -/
def flushedCache : Cache :=
  if (s.replies B).noCache (s.prefixText.getD []) then [] else s.candidatesCache

/-- `company--continue`, with its value.

Source: `company.el`, lines 1547–1580. -/
def companyContinue : Completion ε × Bool :=
  let s := s.setCache (s.flushedCache B)
  let newPrefix := s.newPrefix σ B
  let ignoreCase := s.ignoresCase B
  if goodPrefixP σ.minimumPrefixLength s.manualPrefix (s.replies B).prefixReply ∧
      (s.text.point : ℤ) - (newPrefix.getD []).length =
        s.point.getD 0 - (s.prefixText.getD []).length then
    let result := s.calculate σ B none (newPrefix.getD []) ignoreCase
    result.2.continueWith σ B newPrefix ignoreCase result.1
  else s.continueWith σ B newPrefix ignoreCase []

/-! ### Beginning -/

/-- `company--begin-new` from the prefix of the first backend that has one.

Source: `company.el`, lines 1594–1620. -/
def beginWith (minimumPrefixLength : ℕ) (backend : ε) (reply : Prefix) : Completion ε :=
  if goodPrefixP minimumPrefixLength s.manualPrefix reply then
    -- the reply of the backend that was current before, mostly of none
    let ignoreCase := s.ignoresCase B
    let t := reply.str?.getD []
    let (c, s) := (s.setBackend backend t).calculate σ B none t ignoreCase
    if uniqueMatchP σ c t ignoreCase ∧ ! s.manualAction then s.cancel
    else if c = [] then s
    else
      let manualPrefix := if s.manualAction then some reply else s.manualPrefix
      (s.setManualPrefix manualPrefix).updateCandidates σ B c
  else s

/-- The first backend that has a prefix: the current one is asked alone.

Source: `company.el`, lines 1584–1594. -/
def firstBackend : Option ε :=
  (match s.backend with
    | some b => [b]
    | none => s.companyBackends).find? fun b => (B.replies b s.text).prefixReply ≠ Prefix.nil

/-- `company--begin-new`.

Source: `company.el`, lines 1582–1620. -/
def beginNew (minimumPrefixLength : ℕ) : Completion ε :=
  match s.firstBackend B with
  | some b => s.beginWith σ B minimumPrefixLength b (B.replies b s.text).prefixReply
  | none => s

/-- `company--perform`, with what `company--should-complete` has come to.

Source: `company.el`, lines 1622–1631. -/
def perform (minimumPrefixLength : ℕ) (shouldComplete : Bool) : Completion ε :=
  let (s, value) := if s.candidates ≠ [] then s.companyContinue σ B else (s, false)
  let s := if ! value && shouldComplete then s.beginNew σ B minimumPrefixLength else s
  if s.candidates = [] then s.chooseBackend none else s.setPoint

/-- `company-auto-begin`.

Source: `company.el`, lines 1444–1456. -/
def autoBegin (minimumPrefixLength : ℕ) : Completion ε :=
  if s.candidates = [] then s.perform σ B minimumPrefixLength s.completable else s

/-- `company-manual-begin`. Its value is whether there are candidates.

Source: `company.el`, lines 1459–1468. -/
def manualBegin : Completion ε :=
  let s := (s.setManualAction true).autoBegin σ B 0
  if s.candidates = [] then s.setManualAction false else s

/-- `(when (company-manual-begin) …)`. -/
def whenBegun (f : Completion ε → Completion ε) : Completion ε :=
  let s := s.manualBegin σ B
  if s.candidates = [] then s else f s

/-! ### Selecting -/

/-- The place that `company-set-selection` finds for a selection among a number of candidates. -/
def placeOf (wrapAround : Bool) (length selection : ℤ) : ℤ :=
  if wrapAround then selection % length else max 0 (min (length - 1) selection)

/-- `company-set-selection`.

Source: `company.el`, lines 1170–1178. -/
def setSelection (wrapAround : Bool) (selection : ℤ) (forceUpdate : Bool) : Completion ε :=
  let place := placeOf wrapAround (s.candidatesLength.getD 0 : ℕ) selection
  if forceUpdate ∨ place ≠ s.selection then
    { s with selection := place.toNat, selectionChanged := true }
  else s

/-- `company-select-next`.

Source: `company.el`, lines 2022–2028. -/
def selectNext (arg : ℤ) : Completion ε :=
  s.whenBegun σ B fun s => s.setSelection σ.selectionWrapAround (arg + s.selection) false

/-- `company-select-next-or-abort`. The command that the keys have otherwise comes as another
action.

Source: `company.el`, lines 2037–2046. -/
def selectNextOrAbort (arg : ℤ) : Completion ε :=
  match s.candidatesLength with
  | some length => if 1 < length then s.selectNext σ B arg else s.cancel
  | none => s

/-- `company-next-page`.

Source: `company.el`, lines 2059–2068. -/
def nextPage : Completion ε :=
  s.whenBegun σ B fun s =>
    if σ.selectionWrapAround ∧ s.selection + 1 = s.candidatesLength.getD 0 then
      s.setSelection σ.selectionWrapAround 0 false
    else s.setSelection false (s.selection + σ.tooltipLimit) false

/-- `company-previous-page`.

Source: `company.el`, lines 2070–2079. -/
def previousPage : Completion ε :=
  s.whenBegun σ B fun s =>
    if σ.selectionWrapAround ∧ s.selection = 0 then
      s.setSelection σ.selectionWrapAround ((s.candidatesLength.getD 0 : ℕ) - 1) false
    else s.setSelection false (s.selection - σ.tooltipLimit) false

/-! ### Completing -/

/-- `company-complete-selection`.

Source: `company.el`, lines 2134–2139. -/
def completeSelection : Completion ε :=
  s.whenBegun σ B fun s =>
    match s.candidates[s.selection]? with
    | some result => (s.finish B result).getD s
    | none => s.cancel

/-- `company-complete-common`.

Source: `company.el`, lines 2141–2148. -/
def completeCommon : Completion ε :=
  s.whenBegun σ B fun s =>
    if s.candidates.length ≤ 1 ∧ s.common = s.candidates.head?.map Candidate.text then
      s.completeSelection σ B
    else
      s.setText ((s.insertCandidate B (s.common.getD [])).getD s.text)

/-- `company-complete`, and whether the commands before were `company-complete` as well.

Source: `company.el`, lines 2190–2203. -/
def complete (again : Bool) : Completion ε :=
  s.whenBegun σ B fun s =>
    if s.selectionChanged || again then s.completeSelection σ B else s.completeCommon σ B

/-- `company-complete-number`, in a tooltip with a given offset.

Source: `company.el`, lines 2205–2226. -/
def completeNumber (n offset : ℕ) : Completion ε :=
  s.whenBegun σ B fun s =>
    if n < 1 ∨ s.candidatesLength.getD 0 < n + offset then s
    else match s.candidates[n - 1 + offset]? with
      | some result => (s.finish B result).getD s
      | none => s.cancel

/-- `company-begin-backend`.

Source: `company.el`, lines 2358–2372. -/
def beginBackend (b : ε) : Completion ε := (s.chooseBackend (some b)).manualBegin σ B

/-- `company-other-backend`. The first backend that can complete is taken, from those behind the
current one, or before it.

Source: `company.el`, lines 1470–1485. -/
def otherBackend [DecidableEq ε] (backward : Bool) : Completion ε :=
  let behind (l : List ε) : List ε := match s.backend with
    | some b => (l.dropWhile (· ≠ b)).tail
    | none => []
  let after := if s.backend.isSome then behind s.companyBackends else s.companyBackends
  let before := behind s.companyBackends.reverse
  let next := if backward then before ++ after.reverse else after ++ before.reverse
  next.foldl (fun s b => if s.candidates = [] then s.beginBackend σ B b else s) s.cancel

/-! ### Searching -/

/-- `company--search`: the place of the first candidate that matches behind the prefix. A candidate
that is shorter than the prefix signals; neither then nor when none matches is there a place.

Source: `company.el`, lines 1813–1819. -/
def search (text : List Char) (prefixLength : ℕ) : List Candidate → Option ℕ
  | [] => none
  | line :: lines =>
      if line.text.length < prefixLength then none
      else if σ.searchMatches text (line.text.drop prefixLength) then some 0
      else (search text prefixLength lines).map (· + 1)

/-- `company--search-update-predicate`, with whether it does not signal. The regexp is empty when
the search string is.

Source: `company.el`, lines 1835–1844. -/
def searchUpdatePredicate (ss : List Char) : Completion ε × Bool :=
  let predicate : Option (Candidate → Bool) :=
    if ss ≠ [] ∧ s.searchFiltering then some fun candidate => σ.searchMatches ss candidate.text
    else none
  let (cc, s) := s.calculate σ B predicate (s.prefixText.getD []) (s.ignoresCase B)
  if cc = [] then (s, false) else (s.updateCandidates σ B cc, true)

/-- `company--search-update-string`.

Source: `company.el`, lines 1846–1851. -/
def searchUpdateString (new : List Char) : Completion ε :=
  match search σ new (s.prefixText.getD []).length (s.candidates.drop s.selection) with
  | none => s
  | some pos =>
      { s with searchString := new }.setSelection σ.selectionWrapAround (s.selection + pos) true

/-- `company--search-update-predicate`, and behind it `company--search-update-string` unless the
first has signalled. -/
def searchFilter (ss : List Char) : Completion ε :=
  if (s.searchUpdatePredicate σ B ss).2 then
    (s.searchUpdatePredicate σ B ss).1.searchUpdateString σ ss
  else (s.searchUpdatePredicate σ B ss).1

/-- A change of the search string, and of the predicate with it if candidates are filtered.

Source: `company.el`, lines 1827–1833. -/
def searchUpdate (ss : List Char) : Completion ε :=
  if s.searchFiltering then s.searchFilter σ B ss else s.searchUpdateString σ ss

/-- `company-search-printing-char`.

Source: `company.el`, lines 1827–1833. -/
def searchPrintingChar (c : Char) : Completion ε :=
  if s.searchMode then s.searchUpdate σ B (s.searchString ++ [c]) else s

/-- `company-search-delete-char`.

Source: `company.el`, lines 1904–1912. -/
def searchDeleteChar : Completion ε :=
  if s.searchMode ∧ s.searchString ≠ [] then s.searchUpdate σ B s.searchString.dropLast else s

/-- `company-search-repeat-forward`.

Source: `company.el`, lines 1858–1867. -/
def searchRepeatForward : Completion ε :=
  if s.searchMode ∧ s.searchString ≠ [] then
    match search σ s.searchString (s.prefixText.getD []).length
        (s.candidates.drop (s.selection + 1)) with
    | none => s
    | some pos => s.setSelection σ.selectionWrapAround (s.selection + pos + 1) true
  else s

/-- `company-search-repeat-backward`.

Source: `company.el`, lines 1869–1879. -/
def searchRepeatBackward : Completion ε :=
  if s.searchMode ∧ s.searchString ≠ [] then
    match search σ s.searchString (s.prefixText.getD []).length
        (s.candidates.reverse.drop (s.candidatesLength.getD 0 - s.selection)) with
    | none => s
    | some pos => s.setSelection σ.selectionWrapAround (s.selection - pos - 1) true
  else s

/-- `company-search-toggle-filtering`.

Source: `company.el`, lines 1881–1888. -/
def searchToggleFiltering : Completion ε :=
  if s.searchMode then
    { s with searchFiltering := ! s.searchFiltering }.searchFilter σ B s.searchString
  else s

/-- `company-search-mode` turned on.

Source: `company.el`, lines 1962–1969. -/
def searchModeOn : Completion ε :=
  let s := s.manualBegin σ B
  if s.candidates = [] then { s with searchMode := false }
  else
    { s with
      searchMode := true
      searchOldSelection := s.selection
      searchOldChanged := s.selectionChanged }

/-- `company-search-mode` turned off, with whether it does not signal.

Source: `company.el`, lines 1970–1977. -/
def searchModeOff : Completion ε × Bool :=
  let s := { s with
    searchMode := false
    searchString := []
    searchFiltering := false
    searchOldSelection := 0
    searchOldChanged := false }
  if s.backend.isSome then s.searchUpdatePredicate σ B [] else (s, true)

/-- `company-search-abort`. What was selected before the search is read after the search mode is
turned off, which has forgotten it.

Source: `company.el`, lines 1890–1896. -/
def searchAbort : Completion ε :=
  if s.searchMode then
    let (s, ok) := s.searchModeOff σ B
    if ok then
      { s.setSelection σ.selectionWrapAround s.searchOldSelection true with
        selectionChanged := s.searchOldChanged }
    else s
  else s

/-- `company-search-other-char`.

Source: `company.el`, lines 1898–1902. -/
def searchOtherChar : Completion ε :=
  if s.searchMode then (s.searchModeOff σ B).1 else s

/-- `company-filter-candidates`.

Source: `company.el`, lines 2012–2017. -/
def filterCandidates : Completion ε := { s.searchModeOn σ B with searchFiltering := true }

end Completion

/-! ### Commands -/

/-- What a user or a timer can do. -/
inductive Action (ε : Type)
  /-- Any command but those of company: the text and the values of other variables that it leaves,
  whether it is allowed during a completion, and whether it was quit. -/
  | other (text : BufferText) (completable : Bool) (companyBackends : List ε)
      (continues quit : Bool)
  | idleBegin
  | manualBegin
  | abort
  | beginBackend (b : ε)
  | otherBackend (backward : Bool)
  /-- With a negative argument this is `company-select-previous`. -/
  | selectNext (arg : ℤ)
  | selectNextOrAbort (arg : ℤ)
  | nextPage
  | previousPage
  | completeSelection
  | completeCommon
  | complete (again : Bool)
  | completeNumber (n offset : ℕ)
  | searchCandidates
  | filterCandidates
  | searchPrintingChar (c : Char)
  | searchDeleteChar
  | searchRepeatForward
  | searchRepeatBackward
  | searchToggleFiltering
  | searchAbort
  | searchOtherChar

namespace Completion

variable {ε : Type} [DecidableEq ε] (σ : Settings) (B : Backends ε) (s : Completion ε)

/-- `company-post-command`, after a command that was quit or not.

Source: `company.el`, lines 1696–1727. -/
def postCommand (quit : Bool) : Completion ε :=
  let s := if s.candidates ≠ [] ∧ quit then s.cancel else s
  if s.point = some s.text.point then s else s.perform σ B σ.minimumPrefixLength false

/-- What an action does, with `company-pre-command` if it is a command that is not allowed during a
completion.

Source: `company.el`, lines 1434–1442 and 1679–1690. -/
def act : Action ε → Completion ε
  | .other text completable companyBackends continues _ =>
      let s := if s.candidates ≠ [] ∧ ! continues then s.cancel else s
      { s with text := text, completable := completable, companyBackends := companyBackends }
  | .idleBegin => s.autoBegin σ B σ.minimumPrefixLength
  | .manualBegin => s.manualBegin σ B
  | .abort => s.cancel
  | .beginBackend b => s.beginBackend σ B b
  | .otherBackend backward => s.otherBackend σ B backward
  | .selectNext arg => s.selectNext σ B arg
  | .selectNextOrAbort arg => s.selectNextOrAbort σ B arg
  | .nextPage => s.nextPage σ B
  | .previousPage => s.previousPage σ B
  | .completeSelection => s.completeSelection σ B
  | .completeCommon => s.completeCommon σ B
  | .complete again => s.complete σ B again
  | .completeNumber n offset => s.completeNumber σ B n offset
  | .searchCandidates => s.searchModeOn σ B
  | .filterCandidates => s.filterCandidates σ B
  | .searchPrintingChar c => s.searchPrintingChar σ B c
  | .searchDeleteChar => s.searchDeleteChar σ B
  | .searchRepeatForward => s.searchRepeatForward σ
  | .searchRepeatBackward => s.searchRepeatBackward σ
  | .searchToggleFiltering => s.searchToggleFiltering σ B
  | .searchAbort => s.searchAbort σ B
  | .searchOtherChar => s.searchOtherChar σ B

/-- An action, and `company-post-command` behind it. -/
def step (a : Action ε) : Completion ε :=
  let quit := match a with
    | .other _ _ _ _ quit => quit
    | _ => false
  (s.act σ B a).postCommand σ B quit

/-- The states that sequences of actions lead to, each action allowed in the state it is done in. -/
inductive Reachable (allowed : Completion ε → Action ε → Prop) : Completion ε → Prop
  | initial (text : BufferText) (companyBackends : List ε) :
      Reachable allowed (initial text companyBackends)
  | step {s : Completion ε} {a : Action ε} (h : Reachable allowed s) (ha : allowed s a) :
      Reachable allowed (s.step σ B a)

/-! ### A session -/

/-- The options as they are configured, with a case table.

Source: `init-company-mode.el`, lines 20–37. -/
def configuredSettings (upcase : Char → Char) : Settings where
  minimumPrefixLength := 3
  -- the default is `company-explicit-action-p`
  requireMatch explicitAction := explicitAction
  autoComplete _ := false
  selectionWrapAround := true
  tooltipLimit := 10
  transformers := []
  searchMatches input text := (searchFlexRegexp upcase input).stringMatch text
  upcase := upcase

/-- A candidate that is nothing but a text. -/
def word (t : List Char) : Candidate := ⟨t, none, .nil⟩

/-- The replies of two backends, each with words of its own. -/
def wordReplies (b : Bool) : Replies :=
  { selectingReplies with
    candidates := fun p => .now (allCompletions id false p
      (if b then [word ['c', 'a'], word ['c', 'b']] else [word ['b', 'b'], word ['b', 'a']])) }

/-- The two backends, for which all that stands before point is the prefix. -/
def wordBackends : Backends Bool where
  replies b text := { wordReplies b with prefixReply := .text text.before }
  postCompletion _ _ text := text

/-- The state after some actions in a buffer with a text before point. -/
def session (text : List Char) (actions : List (Action Bool)) : Completion Bool :=
  actions.foldl (step (configuredSettings id) wordBackends) (initial ⟨text, []⟩ [false])

theorem reachable_session {allowed : Completion Bool → Action Bool → Prop} (text : List Char)
    (actions : List (Action Bool)) (h : ∀ a ∈ actions, ∀ s, allowed s a) :
    Reachable (configuredSettings id) wordBackends allowed (session text actions) := by
  induction actions using List.reverseRecOn with
  | nil => exact Reachable.initial _ _
  | append_singleton actions a ih =>
      rw [session, List.foldl_concat]
      refine Reachable.step (ih fun a' ha' => h a' (List.mem_append_left _ ha')) ?_
      exact h a (List.mem_append_right _ (List.mem_singleton_self a)) _

end Completion

end DotEmacs.Company
