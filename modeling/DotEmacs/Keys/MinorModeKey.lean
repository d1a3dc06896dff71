import DotEmacs.Elisp.Eval
import DotEmacs.Elisp.Keymap
import Mathlib.Data.List.Nodup

/-!
# Keys of minor modes in one buffer

`local-set-minor-mode-key` gives a minor mode another binding in the current buffer. It keeps one
keymap for each mode in the buffer's `minor-mode-overriding-map-alist`, made on first use as a
child of the mode's own keymap, and defines the key there.

What the calls leave is a finite table: for each mode and key the definition of the last call, if
there was one. The concrete session, with shared keymaps that may be changed in between, refines
the table over the session in which no call was made, as long as no event with the meta modifier is
given a binding: these are kept under the meta prefix character, so that a call for one of them and
a call for the character itself are not independent of each other.

## Main definitions

* `Keys.Session`, `Keys.localSetMinorModeKey`, `Keys.minorModeBinding`.
* `Keys.Event`, `Keys.run`: calls in one buffer, and changes of the modes' own keymaps.
* `Keys.Table`, `Keys.Refines`: the table, and what it means that a session refines it.
* `Keys.lastCall`: the definition that the last call for a mode and a key has given.

## Main results

* `Keys.Refines.localSetMinorModeKey`, `Keys.Refines.defineOwnKey`: the steps keep the refinement.
* `Keys.overridesLocally_run`: the calls override bindings in their buffer, and change nothing
  else, for events without the meta modifier.
* `Keys.not_overridesLocally_meta`: how the calls disturb each other for events with it.
-/

namespace DotEmacs.Keys

open Elisp

variable {Buf Mode κ ν : Type}

/-- The keymaps of a session, with the alists that say which of them are in use. -/
structure Session (Buf Mode κ ν : Type) where
  metaPrefixChar : κ
  keymaps : Keymaps κ ν
  minorModeMapAlist : List (Mode × ℕ)
  /-- The value of `minor-mode-overriding-map-alist` in each buffer. -/
  overriding : Buf → List (Mode × ℕ)
  minorModeMap_lt : ∀ x ∈ minorModeMapAlist, x.2 < keymaps.size
  overriding_lt : ∀ b, ∀ x ∈ overriding b, x.2 < keymaps.size

/-- The error that a key sequence starts with a character that has another definition. -/
structure NonPrefixKey (κ : Type) where
  key : KeyEvent κ
  nonPrefixChar : κ

theorem Session.lookup_lt [DecidableEq Mode] (s : Session Buf Mode κ ν) (mode : Mode) :
    ∀ a ∈ s.minorModeMapAlist.lookup mode, a < s.keymaps.size :=
  fun _ ha => s.minorModeMap_lt _ (mem_of_lookup_eq_some ha)

section Session

variable [DecidableEq Buf] [DecidableEq Mode] [DecidableEq κ] (s : Session Buf Mode κ ν)

/-! ### The function -/

/-- `(define-key map key def)`. -/
def Session.defineKey (map : ℕ) (key : KeyEvent κ) (d : Definition ν) :
    EStateM.Result (NonPrefixKey κ) (Session Buf Mode κ ν) Unit :=
  match h : Keymaps.defineKey s.metaPrefixChar s.keymaps map key d with
  | none => .error ⟨key, s.metaPrefixChar⟩ s
  | some keymaps => .ok ()
      { s with
        keymaps := keymaps
        minorModeMap_lt := fun x hx =>
          Nat.lt_of_lt_of_le (s.minorModeMap_lt x hx) (Keymaps.size_le_of_defineKey _ h)
        overriding_lt := fun b x hx =>
          Nat.lt_of_lt_of_le (s.overriding_lt b x hx) (Keymaps.size_le_of_defineKey _ h) }

/-- The session in which an event without the meta modifier has a definition in a keymap. -/
def Session.store (map : ℕ) (k : κ) (d : Definition ν) : Session Buf Mode κ ν :=
  { s with keymaps := Keymaps.store s.keymaps map k d }

omit [DecidableEq Buf] [DecidableEq Mode] in
theorem Session.defineKey_plain (map : ℕ) (k : κ) (d : Definition ν) :
    s.defineKey map (.plain k) d = .ok () (s.store map k d) := rfl

omit [DecidableEq Buf] [DecidableEq Mode] in
theorem Session.payload_store_self (map : ℕ) (k : κ) (d : Definition ν) :
    (s.store map k d).keymaps.payload map = storeBinding k d (s.keymaps.payload map) :=
  LinkedHeap.payload_setPayload_self ..

omit [DecidableEq Buf] [DecidableEq Mode] in
theorem Session.payload_store_of_ne {map a : ℕ} (ha : a ≠ map) (k : κ) (d : Definition ν) :
    (s.store map k d).keymaps.payload a = s.keymaps.payload a :=
  LinkedHeap.payload_setPayload_of_ne _ ha _

/-- The keymap that overrides a mode in a buffer, made if there is none yet.

Source: `init/init-functions.el`, lines 47–52. -/
def Session.newmap (b : Buf) (mode : Mode) : ℕ × Session Buf Mode κ ν :=
  match (s.overriding b).lookup mode with
  | some map => (map, s)
  | none =>
    (s.keymaps.size,
      { s with
        keymaps := s.keymaps.alloc [] (s.minorModeMapAlist.lookup mode) (s.lookup_lt mode)
        overriding := Function.update s.overriding b ((mode, s.keymaps.size) :: s.overriding b)
        minorModeMap_lt := fun x hx => Nat.lt_succ_of_lt (s.minorModeMap_lt x hx)
        overriding_lt := fun b' x hx => by
          by_cases hb : b' = b
          · rw [hb, Function.update_self, List.mem_cons] at hx
            rcases hx with rfl | hx
            · exact Nat.lt_succ_self _
            · exact Nat.lt_succ_of_lt (s.overriding_lt b x hx)
          · rw [Function.update_of_ne hb] at hx
            exact Nat.lt_succ_of_lt (s.overriding_lt b' x hx) })

/-- `local-set-minor-mode-key`, called in the buffer `b`.

Source: `init/init-functions.el`, lines 43–53. -/
def localSetMinorModeKey (b : Buf) (mode : Mode) (key : KeyEvent κ) (d : Definition ν) :
    EStateM.Result (NonPrefixKey κ) (Session Buf Mode κ ν) Unit :=
  (s.newmap b mode).2.defineKey (s.newmap b mode).1 key d

/-- The keymaps that are active for a mode in a buffer: those that override it, or else those of
`minor-mode-map-alist`. -/
def minorModeMaps (b : Buf) (mode : Mode) : List ℕ :=
  let maps := (s.overriding b).filter (·.1 = mode)
  (if maps = [] then s.minorModeMapAlist.filter (·.1 = mode) else maps).map Prod.snd

omit [DecidableEq Buf] [DecidableEq κ] in
theorem Session.minorModeMaps_lt (b : Buf) (mode : Mode) :
    ∀ map ∈ minorModeMaps s b mode, map < s.keymaps.size := by
  intro map hmap
  rw [minorModeMaps] at hmap
  obtain ⟨x, hx, rfl⟩ := List.mem_map.mp hmap
  split_ifs at hx
  · exact s.minorModeMap_lt x (List.mem_of_mem_filter hx)
  · exact s.overriding_lt b x (List.mem_of_mem_filter hx)

omit [DecidableEq Buf] [DecidableEq κ] in
/-- With one entry for each mode in both alists, the keymap that overrides a mode is the one that
is active, and its own otherwise. -/
theorem minorModeMaps_eq_toList {s : Session Buf Mode κ ν} {b : Buf}
    (hoverriding : ((s.overriding b).map Prod.fst).Nodup)
    (hmodes : (s.minorModeMapAlist.map Prod.fst).Nodup) (mode : Mode) :
    minorModeMaps s b mode =
      (((s.overriding b).lookup mode).or (s.minorModeMapAlist.lookup mode)).toList := by
  have hmaps := filter_fst_of_nodup hoverriding mode
  rw [minorModeMaps]
  cases hl : (s.overriding b).lookup mode with
  | none =>
      rw [hl, Option.toList_none, List.map_eq_nil_iff] at hmaps
      rw [if_pos hmaps, Option.none_or, filter_fst_of_nodup hmodes]
  | some map =>
      rw [hl] at hmaps
      rw [if_neg, hmaps, Option.some_or]
      intro hnil
      simp [hnil] at hmaps

/-- The binding that a mode gives to a key in a buffer. -/
def minorModeBinding (b : Buf) (mode : Mode) (key : KeyEvent κ) : Option (Binding ν) :=
  (minorModeMaps s b mode).findSome? fun map =>
    Keymaps.lookupKey s.metaPrefixChar s.keymaps (some map) key

/-- The binding that a mode's own keymap gives to a key. -/
def ownBinding (mode : Mode) (key : KeyEvent κ) : Option (Binding ν) :=
  Keymaps.lookupKey s.metaPrefixChar s.keymaps (s.minorModeMapAlist.lookup mode) key

/-! ### Runs -/

/-- A call in the buffer, or a `define-key` on a mode's own keymap. -/
inductive Event (Mode κ ν : Type)
  | localSet (mode : Mode) (key : KeyEvent κ) (d : Definition ν)
  | defineOwn (mode : Mode) (key : KeyEvent κ) (d : Definition ν)

/-- `(define-key map key def)` on the own keymap of a mode, if there is one. -/
def defineOwnKey (mode : Mode) (key : KeyEvent κ) (d : Definition ν) :
    EStateM.Result (NonPrefixKey κ) (Session Buf Mode κ ν) Unit :=
  match s.minorModeMapAlist.lookup mode with
  | none => .ok () s
  | some map => s.defineKey map key d

/-- What an event does, the calls being made in the buffer `b`. -/
def Event.result (b : Buf) (s : Session Buf Mode κ ν) :
    Event Mode κ ν → EStateM.Result (NonPrefixKey κ) (Session Buf Mode κ ν) Unit
  | .localSet mode key d => localSetMinorModeKey s b mode key d
  | .defineOwn mode key d => defineOwnKey s mode key d

/-- The session after an event, with or without an error. -/
def step (b : Buf) (s : Session Buf Mode κ ν) (event : Event Mode κ ν) : Session Buf Mode κ ν :=
  Result.state (event.result b s)

/-- The session after a sequence of events. -/
def run (b : Buf) (events : List (Event Mode κ ν)) : Session Buf Mode κ ν :=
  events.foldl (step b) s

end Session

/-- The events that are no calls. -/
def Event.isDefineOwn : Event Mode κ ν → Bool
  | .localSet .. => false
  | .defineOwn .. => true

/-- The key that an event is about. -/
def Event.key : Event Mode κ ν → KeyEvent κ
  | .localSet _ key _ => key
  | .defineOwn _ key _ => key

/-! ### The table of overrides -/

/-- The definitions that override the bindings of the modes in a buffer. -/
abbrev Table (Mode κ ν : Type) := Mode → KeyEvent κ → Option (Definition ν)

section Table

variable [DecidableEq Mode] [DecidableEq κ]

/-- The table with another definition for a mode and a key. -/
def Table.set (t : Table Mode κ ν) (mode : Mode) (key : KeyEvent κ) (d : Definition ν) :
    Table Mode κ ν :=
  fun mode' key' => if mode' = mode ∧ key' = key then some d else t mode' key'

/-- The definition that an event gives for a mode and a key, if it is a call for them. -/
def Event.definition (mode : Mode) (key : KeyEvent κ) : Event Mode κ ν → Option (Definition ν)
  | .localSet mode' key' d => if mode = mode' ∧ key = key' then some d else none
  | .defineOwn .. => none

/-- The definition that the last call for a mode and a key has given, if there was one. -/
def lastCall (events : List (Event Mode κ ν)) : Table Mode κ ν :=
  fun mode key => events.reverse.findSome? (Event.definition mode key)

theorem lastCall_concat (events : List (Event Mode κ ν)) (event : Event Mode κ ν) (mode : Mode)
    (key : KeyEvent κ) : lastCall (events ++ [event]) mode key =
      (event.definition mode key).or (lastCall events mode key) := by
  rw [lastCall, List.reverse_append, List.reverse_singleton, List.singleton_append,
    List.findSome?_cons, lastCall]
  cases event.definition mode key <;> rfl

theorem lastCall_concat_localSet (events : List (Event Mode κ ν)) (mode : Mode)
    (key : KeyEvent κ) (d : Definition ν) :
    lastCall (events ++ [.localSet mode key d]) = (lastCall events).set mode key d := by
  funext mode' key'
  rw [lastCall_concat, Event.definition, Table.set]
  split_ifs <;> rfl

theorem lastCall_concat_defineOwn (events : List (Event Mode κ ν)) (mode : Mode)
    (key : KeyEvent κ) (d : Definition ν) :
    lastCall (events ++ [.defineOwn mode key d]) = lastCall events := by
  funext mode' key'
  rw [lastCall_concat]
  rfl

end Table

/-! ### Refinement -/

/-- The session `s` refines the table `t` over the session `s₀`: its existing keymaps and the
other buffers are those of `s₀`, and in the buffer `b` every mode with a definition in the table
has a new keymap of its own, which binds what the table says for events without the meta modifier
and has the mode's own keymap as parent. -/
structure Refines [DecidableEq Mode] [DecidableEq κ] (s₀ s : Session Buf Mode κ ν) (b : Buf)
    (t : Table Mode κ ν) : Prop where
  minorModeMapAlist_eq : s.minorModeMapAlist = s₀.minorModeMapAlist
  overriding_eq : ∀ b' ≠ b, s.overriding b' = s₀.overriding b'
  size_le : s₀.keymaps.size ≤ s.keymaps.size
  link_eq : ∀ a < s₀.keymaps.size, s.keymaps.link a = s₀.keymaps.link a
  payload_eq : ∀ a < s₀.keymaps.size, s.keymaps.payload a = s₀.keymaps.payload a
  modes_nodup : ((s.overriding b).map Prod.fst).Nodup
  maps_nodup : ((s.overriding b).map Prod.snd).Nodup
  size_le_map : ∀ x ∈ s.overriding b, s₀.keymaps.size ≤ x.2
  link_map : ∀ x ∈ s.overriding b, s.keymaps.link x.2 = s.minorModeMapAlist.lookup x.1
  lookup_map : ∀ x ∈ s.overriding b, ∀ k, (s.keymaps.payload x.2).lookup k = t x.1 (.plain k)
  table_eq_none : ∀ mode, (s.overriding b).lookup mode = none → ∀ k, t mode (.plain k) = none

namespace Refines

variable [DecidableEq Mode] [DecidableEq κ] {s₀ s : Session Buf Mode κ ν}
  {b : Buf} {t : Table Mode κ ν}

/-- Before the first call the session refines the empty table over itself. -/
theorem refl (hempty : s.overriding b = []) : Refines s s b fun _ _ => none where
  minorModeMapAlist_eq := rfl
  overriding_eq _ _ := rfl
  size_le := Nat.le_refl _
  link_eq _ _ := rfl
  payload_eq _ _ := rfl
  modes_nodup := by simp [hempty]
  maps_nodup := by simp [hempty]
  size_le_map := by simp [hempty]
  link_map := by simp [hempty]
  lookup_map := by simp [hempty]
  table_eq_none _ _ _ := rfl

/-- A new keymap for a mode changes nothing that the table says. -/
theorem newmap [DecidableEq Buf] (h : Refines s₀ s b t) (mode : Mode) :
    Refines s₀ (s.newmap b mode).2 b t ∧
      (mode, (s.newmap b mode).1) ∈ (s.newmap b mode).2.overriding b := by
  rw [Session.newmap]
  cases hl : (s.overriding b).lookup mode with
  | some map => exact ⟨h, mem_of_lookup_eq_some hl⟩
  | none =>
      have hmode : mode ∉ (s.overriding b).map Prod.fst := by
        intro hmem
        obtain ⟨x, hx, rfl⟩ := List.mem_map.mp hmem
        simpa using List.lookup_eq_none_iff.mp hl x hx
      have hmap : ∀ x ∈ s.overriding b, x.2 ≠ s.keymaps.size :=
        fun x hx => Nat.ne_of_lt (s.overriding_lt b x hx)
      have hold : ∀ a < s₀.keymaps.size, a ≠ s.keymaps.size := by
        intro a ha
        have hle := h.size_le
        omega
      refine ⟨?_, by simp⟩
      constructor
      case minorModeMapAlist_eq => exact h.minorModeMapAlist_eq
      case overriding_eq =>
        exact fun b' hb => (Function.update_of_ne hb _ _).trans (h.overriding_eq b' hb)
      case size_le => exact Nat.le_succ_of_le h.size_le
      case link_eq =>
        exact fun a ha => (LinkedHeap.link_alloc_of_ne _ _ (s.lookup_lt mode) (hold a ha)).trans
          (h.link_eq a ha)
      case payload_eq =>
        exact fun a ha => (LinkedHeap.payload_alloc_of_ne _ _ (s.lookup_lt mode) (hold a ha)).trans
          (h.payload_eq a ha)
      case modes_nodup =>
        simp only [Function.update_self, List.map_cons, List.nodup_cons]
        exact ⟨hmode, h.modes_nodup⟩
      case maps_nodup =>
        simp only [Function.update_self, List.map_cons, List.nodup_cons]
        refine ⟨fun hmem => ?_, h.maps_nodup⟩
        obtain ⟨x, hx, heq⟩ := List.mem_map.mp hmem
        exact hmap x hx heq
      case size_le_map =>
        simp only [Function.update_self, List.forall_mem_cons]
        exact ⟨h.size_le, h.size_le_map⟩
      case link_map =>
        simp only [Function.update_self, List.forall_mem_cons]
        refine ⟨LinkedHeap.link_alloc_size .., fun x hx => ?_⟩
        rw [LinkedHeap.link_alloc_of_ne _ _ _ (hmap x hx)]
        exact h.link_map x hx
      case lookup_map =>
        simp only [Function.update_self, List.forall_mem_cons]
        refine ⟨fun key => ?_, fun x hx key => ?_⟩
        · rw [LinkedHeap.payload_alloc_size, h.table_eq_none mode hl]
          rfl
        · rw [LinkedHeap.payload_alloc_of_ne _ _ _ (hmap x hx)]
          exact h.lookup_map x hx key
      case table_eq_none =>
        intro mode' hl' key
        refine h.table_eq_none mode' ?_ key
        simp only [Function.update_self, lookup_cons_eq_ite] at hl'
        split_ifs at hl'
        exact hl'

/-- A definition in the new keymap of a mode is one in the table. -/
theorem store (h : Refines s₀ s b t) {mode : Mode} {map : ℕ}
    (hmem : (mode, map) ∈ s.overriding b) (k : κ) (d : Definition ν) :
    Refines s₀ (s.store map k d) b (t.set mode (.plain k) d) where
  minorModeMapAlist_eq := h.minorModeMapAlist_eq
  overriding_eq := h.overriding_eq
  size_le := h.size_le
  link_eq := h.link_eq
  payload_eq a ha := by
    have hmap := h.size_le_map _ hmem
    have hne : a ≠ map := by
      simp only at hmap
      omega
    exact (s.payload_store_of_ne hne k d).trans (h.payload_eq a ha)
  modes_nodup := h.modes_nodup
  maps_nodup := h.maps_nodup
  size_le_map := h.size_le_map
  link_map := h.link_map
  lookup_map x hx k' := by
    rw [Table.set]
    by_cases hmode : x.1 = mode
    · obtain rfl := List.inj_on_of_nodup_map h.modes_nodup hx hmem hmode
      rw [s.payload_store_self, lookup_storeBinding, h.lookup_map _ hmem]
      simp only [true_and, KeyEvent.plain.injEq]
    · have hne : x.2 ≠ map := fun heq =>
        hmode (congrArg Prod.fst (List.inj_on_of_nodup_map h.maps_nodup hx hmem heq))
      rw [s.payload_store_of_ne hne, h.lookup_map x hx, if_neg fun heq => hmode heq.1]
  table_eq_none mode' hl k' := by
    have hne : mode' ≠ mode := by
      rintro rfl
      simpa using List.lookup_eq_none_iff.mp hl _ hmem
    rw [Table.set, if_neg fun heq => hne heq.1]
    exact h.table_eq_none mode' hl k'

/-- A call is a definition in the table. -/
theorem localSetMinorModeKey [DecidableEq Buf] (h : Refines s₀ s b t) (mode : Mode) (k : κ)
    (d : Definition ν) :
    Refines s₀ (Result.state (Keys.localSetMinorModeKey s b mode (.plain k) d)) b
      (t.set mode (.plain k) d) := by
  rw [Keys.localSetMinorModeKey, Session.defineKey_plain, Result.state_ok]
  exact (h.newmap mode).1.store (h.newmap mode).2 k d

/-- A change of a mode's own keymap is made in both sessions. -/
theorem defineOwnKey (h : Refines s₀ s b t) (mode : Mode) (k : κ) (d : Definition ν) :
    Refines (Result.state (Keys.defineOwnKey s₀ mode (.plain k) d))
      (Result.state (Keys.defineOwnKey s mode (.plain k) d)) b t := by
  rw [Keys.defineOwnKey, Keys.defineOwnKey, h.minorModeMapAlist_eq]
  cases hl : s₀.minorModeMapAlist.lookup mode with
  | none => exact h
  | some map =>
      simp only [Session.defineKey_plain, Result.state_ok]
      have hmap : map < s₀.keymaps.size := s₀.lookup_lt mode map hl
      refine { h with payload_eq := fun a ha => ?_, lookup_map := fun x hx k' => ?_ }
      · by_cases heq : a = map
        · subst heq
          rw [s.payload_store_self, s₀.payload_store_self, h.payload_eq a hmap]
        · rw [s.payload_store_of_ne heq, s₀.payload_store_of_ne heq]
          exact h.payload_eq a ha
      · have hle := h.size_le_map x hx
        rw [s.payload_store_of_ne (by omega)]
        exact h.lookup_map x hx k'

/-! ### What a refinement says -/

/-- The existing keymaps bind what they bind without the calls. -/
theorem access_eq (h : Refines s₀ s b t) {map : Option ℕ}
    (hmap : ∀ a ∈ map, a < s₀.keymaps.size) (k : κ) :
    Keymaps.access s.keymaps map k = Keymaps.access s₀.keymaps map k := by
  have hlt : ∀ a ∈ s₀.keymaps.chain map, a < s₀.keymaps.size := by
    intro a ha
    obtain ⟨c, hc, hac⟩ := s₀.keymaps.le_of_mem_chain ha
    exact Nat.lt_of_le_of_lt hac (hmap c hc)
  exact Keymaps.access_congr (fun a ha => h.link_eq a (hlt a ha))
    (fun a ha => h.payload_eq a (hlt a ha)) k

/-- The modes' own keymaps bind what they bind without the calls. -/
theorem ownBinding_eq (h : Refines s₀ s b t) (mode : Mode) (k : κ) :
    ownBinding s mode (.plain k) = ownBinding s₀ mode (.plain k) := by
  rw [ownBinding, h.minorModeMapAlist_eq]
  exact h.access_eq (s₀.lookup_lt mode) k

/-- The modes bind in other buffers what they bind there without the calls. -/
theorem minorModeBinding_eq (h : Refines s₀ s b t) {b' : Buf} (hb : b' ≠ b) (mode : Mode)
    (k : κ) : minorModeBinding s b' mode (.plain k) = minorModeBinding s₀ b' mode (.plain k) := by
  have hmaps : minorModeMaps s b' mode = minorModeMaps s₀ b' mode := by
    rw [minorModeMaps, h.overriding_eq b' hb, h.minorModeMapAlist_eq, minorModeMaps]
  rw [minorModeBinding, hmaps, minorModeBinding]
  refine findSome?_congr fun map hmap => h.access_eq ?_ k
  simpa using s₀.minorModeMaps_lt b' mode map hmap

/-- In the buffer the modes bind what the table says, in front of what their own keymaps bind. -/
theorem minorModeBinding_eq_overlay (h : Refines s₀ s b t)
    (hmodes : (s.minorModeMapAlist.map Prod.fst).Nodup) (mode : Mode) (k : κ) :
    minorModeBinding s b mode (.plain k) =
      overlay ((t mode (.plain k)).map Definition.toBinding) (ownBinding s mode (.plain k)) := by
  rw [minorModeBinding, minorModeMaps_eq_toList h.modes_nodup hmodes]
  cases hl : (s.overriding b).lookup mode with
  | none =>
      rw [h.table_eq_none mode hl k, Option.none_or, Option.map_none, overlay_none_left,
        ownBinding]
      cases s.minorModeMapAlist.lookup mode with
      | none => rfl
      | some map => rw [Option.toList_some, List.findSome?_singleton]
  | some map =>
      have hmem := mem_of_lookup_eq_some hl
      rw [Option.some_or, Option.toList_some, List.findSome?_singleton, Keymaps.lookupKey,
        Keymaps.access_some, h.lookup_map _ hmem, h.link_map _ hmem]
      rfl

end Refines

/-! ### Runs of calls -/

section Run

variable [DecidableEq Buf] [DecidableEq Mode] [DecidableEq κ] {s : Session Buf Mode κ ν} {b : Buf}

theorem run_concat (s : Session Buf Mode κ ν) (b : Buf) (events : List (Event Mode κ ν))
    (event : Event Mode κ ν) : run s b (events ++ [event]) = step b (run s b events) event := by
  rw [run, List.foldl_append, ← run]
  rfl

/-- A run refines the table of its last calls over the run without the calls. -/
theorem refines_run (hempty : s.overriding b = []) {events : List (Event Mode κ ν)}
    (hplain : ∀ event ∈ events, event.key.isPlain) :
    Refines (run s b (events.filter Event.isDefineOwn)) (run s b events) b (lastCall events) := by
  induction events using List.reverseRecOn with
  | nil => exact Refines.refl hempty
  | append_singleton events event ih =>
      have h := ih fun event' hmem => hplain event' (List.mem_append_left _ hmem)
      have hkey := hplain event (List.mem_append_right _ (List.mem_singleton_self event))
      rw [List.filter_append, run_concat]
      match event, hkey with
      | .localSet mode (.plain k) d, _ =>
          rw [lastCall_concat_localSet, List.filter_cons_of_neg (by simp [Event.isDefineOwn]),
            List.filter_nil, List.append_nil]
          exact h.localSetMinorModeKey mode k d
      | .defineOwn mode (.plain k) d, _ =>
          rw [lastCall_concat_defineOwn, List.filter_cons_of_pos (by rfl), List.filter_nil,
            run_concat]
          exact h.defineOwnKey mode k d

omit [DecidableEq Buf] in
theorem defineOwnKey_frame (s : Session Buf Mode κ ν) (mode : Mode) (k : κ) (d : Definition ν) :
    (Result.state (defineOwnKey s mode (.plain k) d)).minorModeMapAlist = s.minorModeMapAlist ∧
      (Result.state (defineOwnKey s mode (.plain k) d)).overriding = s.overriding ∧
      (Result.state (defineOwnKey s mode (.plain k) d)).keymaps.size = s.keymaps.size ∧
      (Result.state (defineOwnKey s mode (.plain k) d)).keymaps.link = s.keymaps.link := by
  rw [defineOwnKey]
  cases s.minorModeMapAlist.lookup mode <;> exact ⟨rfl, rfl, rfl, rfl⟩

/-- Changes of the modes' own keymaps change only the bindings of existing keymaps. -/
theorem run_defineOwn : {events : List (Event Mode κ ν)} → (∀ event ∈ events, event.isDefineOwn) →
    (∀ event ∈ events, event.key.isPlain) → {s : Session Buf Mode κ ν} →
    (run s b events).minorModeMapAlist = s.minorModeMapAlist ∧
      (run s b events).overriding = s.overriding ∧
      (run s b events).keymaps.size = s.keymaps.size ∧
      (run s b events).keymaps.link = s.keymaps.link
  | [], _, _, _ => ⟨rfl, rfl, rfl, rfl⟩
  | .localSet .. :: _, h, _, _ => absurd (h _ List.mem_cons_self) (by simp [Event.isDefineOwn])
  | .defineOwn _ (.withMeta _) _ :: _, _, hplain, _ =>
      absurd (hplain _ List.mem_cons_self) (by simp [Event.key, KeyEvent.isPlain])
  | .defineOwn mode (.plain k) d :: events, h, hplain, s => by
      obtain ⟨halist, hoverriding, hsize, hlink⟩ := defineOwnKey_frame s mode k d
      obtain ⟨halist', hoverriding', hsize', hlink'⟩ := run_defineOwn
        (fun event hmem => h event (List.mem_cons_of_mem _ hmem))
        (fun event hmem => hplain event (List.mem_cons_of_mem _ hmem))
        (s := Result.state (defineOwnKey s mode (.plain k) d))
      exact ⟨halist'.trans halist, hoverriding'.trans hoverriding, hsize'.trans hsize,
        hlink'.trans hlink⟩

/-- What the calls of a run are expected to do for some keys, by comparison with the run without
them: in their buffer a mode binds a key to the definition of the last call for them, or else to
what the mode's own keymap binds it to; there is one overriding keymap for each mode at most; and
the existing keymaps, among them the modes' own, and what the modes bind in other buffers are not
changed. A definition that is a keymap is in front of the keymap that the mode's own keymap has for
the key, if it has one there. -/
structure OverridesLocally (keys : KeyEvent κ → Bool) (s : Session Buf Mode κ ν) (b : Buf)
    (events : List (Event Mode κ ν)) : Prop where
  minorModeBinding_eq : ∀ mode key, keys key → minorModeBinding (run s b events) b mode key =
    overlay ((lastCall events mode key).map Definition.toBinding)
      (ownBinding (run s b events) mode key)
  modes_nodup : (((run s b events).overriding b).map Prod.fst).Nodup
  payload_eq : ∀ a < s.keymaps.size, (run s b events).keymaps.payload a =
    (run s b (events.filter Event.isDefineOwn)).keymaps.payload a
  link_eq : ∀ a < s.keymaps.size, (run s b events).keymaps.link a = s.keymaps.link a
  ownBinding_eq : ∀ mode key, keys key → ownBinding (run s b events) mode key =
    ownBinding (run s b (events.filter Event.isDefineOwn)) mode key
  other_buffers : ∀ b' ≠ b, (run s b events).overriding b' = s.overriding b' ∧
    ∀ mode key, keys key → minorModeBinding (run s b events) b' mode key =
      minorModeBinding (run s b (events.filter Event.isDefineOwn)) b' mode key

/-- **Keys of minor modes in one buffer.** Where `minor-mode-map-alist` has one entry for each
mode at most, and the buffer has no overriding keymaps to begin with, every run of calls in the
buffer, with changes of the modes' own keymaps in between, does what is expected for events without
the meta modifier, if it gives bindings to such events only. -/
theorem overridesLocally_run (hmodes : (s.minorModeMapAlist.map Prod.fst).Nodup)
    (hempty : s.overriding b = []) {events : List (Event Mode κ ν)}
    (hplain : ∀ event ∈ events, event.key.isPlain) :
    OverridesLocally KeyEvent.isPlain s b events := by
  have h := refines_run hempty hplain
  have hfilter : ∀ event ∈ events.filter Event.isDefineOwn, event.isDefineOwn :=
    fun event hmem => (List.mem_filter.mp hmem).2
  obtain ⟨halist, hoverriding, hsize, hlink⟩ := run_defineOwn (s := s) (b := b) hfilter
    fun event hmem => hplain event (List.mem_of_mem_filter hmem)
  constructor
  case minorModeBinding_eq =>
    rintro mode (k | k) hkey
    · refine h.minorModeBinding_eq_overlay ?_ mode k
      rwa [h.minorModeMapAlist_eq, halist]
    · cases hkey
  case modes_nodup => exact h.modes_nodup
  case payload_eq => exact fun a ha => h.payload_eq a (hsize ▸ ha)
  case link_eq => exact fun a ha => (h.link_eq a (hsize ▸ ha)).trans (congrFun hlink a)
  case ownBinding_eq =>
    rintro mode (k | k) hkey
    · exact h.ownBinding_eq mode k
    · cases hkey
  case other_buffers =>
    refine fun b' hb => ⟨(h.overriding_eq b' hb).trans (congrFun hoverriding b'), ?_⟩
    rintro mode (k | k) hkey
    · exact h.minorModeBinding_eq hb mode k
    · cases hkey

end Run

/-- A session with one minor mode, whose keymap binds one key. -/
def flyspellSession : Session String String String String where
  metaPrefixChar := "ESC"
  keymaps := (LinkedHeap.empty []).alloc
    [("C-;", .command "flyspell-auto-correct-previous-word")] none (by simp)
  minorModeMapAlist := [("flyspell-mode", 0)]
  overriding _ := []
  minorModeMap_lt := by simp
  overriding_lt := by simp

/-- The key of the mode is hidden in one buffer, and then bound again in its own keymap. -/
theorem overridesLocally_flyspell :
    OverridesLocally KeyEvent.isPlain flyspellSession "notes.tex"
      [.localSet "flyspell-mode" (.plain "C-;") .nil,
        .defineOwn "flyspell-mode" (.plain "C-;") (.command "flyspell-auto-correct-word")] :=
  overridesLocally_run (by decide) rfl (by decide)

example : minorModeBinding (run flyspellSession "notes.tex"
    [.localSet "flyspell-mode" (.plain "C-;") .nil,
      .defineOwn "flyspell-mode" (.plain "C-;") (.command "flyspell-auto-correct-word")])
    "notes.tex" "flyspell-mode" (.plain "C-;") = some .nil := by decide

/-- A call for an event with the meta modifier. -/
def metaCall : Event String String String :=
  .localSet "flyspell-mode" (.withMeta "$") (.command "ispell-word")

/-- A call for the meta prefix character. -/
def escCall : Event String String String :=
  .localSet "flyspell-mode" (.plain "ESC") (.command "keyboard-escape-quit")

/-- Events with the meta modifier and the meta prefix character disturb each other: a call for the
character takes the definition of an earlier call for such an event away, a call for such an event
makes the character a prefix, and after a call for the character it signals. -/
theorem not_overridesLocally_meta :
    (lastCall [metaCall, escCall] "flyspell-mode" (.withMeta "$") = some (.command "ispell-word") ∧
      minorModeBinding (run flyspellSession "notes.tex" [metaCall, escCall]) "notes.tex"
        "flyspell-mode" (.withMeta "$") = none) ∧
    (lastCall [metaCall] "flyspell-mode" (.plain "ESC") = none ∧
      ownBinding (run flyspellSession "notes.tex" [metaCall]) "flyspell-mode" (.plain "ESC") =
        none ∧
      minorModeBinding (run flyspellSession "notes.tex" [metaCall]) "notes.tex" "flyspell-mode"
        (.plain "ESC") ≠ none) ∧
    ¬ Result.IsOk (metaCall.result "notes.tex" (run flyspellSession "notes.tex" [escCall])) ∧
    ¬ OverridesLocally (fun _ => true) flyspellSession "notes.tex" [metaCall, escCall] := by
  refine ⟨by decide, by decide, by decide, fun h => ?_⟩
  have hbinding := h.minorModeBinding_eq "flyspell-mode" (.withMeta "$") rfl
  revert hbinding
  decide

end DotEmacs.Keys
