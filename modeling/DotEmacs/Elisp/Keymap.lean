import DotEmacs.Elisp.Alist
import DotEmacs.Elisp.LinkedHeap

/-!
# Keymaps with parents

A keymap is a cell whose payload is the list of its own bindings and whose link is its parent. An
event is looked up in the keymap and then in its ancestors; the first binding that is found counts,
also when it is `nil`, but keymaps that several of them have for one event count as one keymap.

An event with the meta modifier has no entry of its own. It is the event without the modifier in
the keymap that the meta prefix character (`ESC`) has, and a definition for it makes that character
a prefix, unless it has another definition: then an error is signalled.

## Main definitions

* `Elisp.storeBinding`: a definition for a key in a list of bindings.
* `Elisp.KeyEvent`, `Elisp.Definition`, `Elisp.Binding`: events, what is stored for them, and what
  is found for them.
* `Elisp.Keymaps`, `Elisp.Keymaps.lookupKey`, `Elisp.Keymaps.defineKey`.

## Main results

* `Elisp.lookup_storeBinding`: what a key is bound to after a definition is stored.
* `Elisp.Keymaps.access_some`: a keymap and its parent.
* `Elisp.Keymaps.access_congr`: what a keymap binds depends on it and its ancestors only, but for
  events with the meta modifier.
-/

namespace DotEmacs.Elisp

variable {κ ν : Type} [DecidableEq κ]

/-! ### Bindings -/

/-- Replace the definition of a key where it is bound first. -/
def replaceBinding (k : κ) (d : ν) : List (κ × ν) → List (κ × ν)
  | [] => []
  | (k', d') :: bindings =>
      if k = k' then (k, d) :: bindings else (k', d') :: replaceBinding k d bindings

/-- Give a key a definition in a list of bindings: where it is bound already, and in front of the
list otherwise. -/
def storeBinding (k : κ) (d : ν) (bindings : List (κ × ν)) : List (κ × ν) :=
  if (bindings.lookup k).isSome then replaceBinding k d bindings else (k, d) :: bindings

theorem lookup_replaceBinding {k : κ} (d : ν) {bindings : List (κ × ν)}
    (h : (bindings.lookup k).isSome) (k' : κ) :
    (replaceBinding k d bindings).lookup k' =
      if k' = k then some d else bindings.lookup k' := by
  induction bindings with
  | nil => simp at h
  | cons b bindings ih =>
      obtain ⟨k₀, d₀⟩ := b
      rw [lookup_cons_eq_ite] at h
      rw [replaceBinding]
      by_cases hk : k = k₀
      · subst hk
        rw [if_pos rfl, lookup_cons_eq_ite, lookup_cons_eq_ite]
        split_ifs <;> rfl
      · rw [if_neg hk] at h ⊢
        rw [lookup_cons_eq_ite, lookup_cons_eq_ite, ih h]
        by_cases hk' : k' = k₀
        · rw [if_pos hk', if_neg fun heq => hk (heq.symm.trans hk'), if_pos hk']
        · rw [if_neg hk', if_neg hk']

/-- What a key is bound to after a definition is stored. -/
theorem lookup_storeBinding (k : κ) (d : ν) (bindings : List (κ × ν)) (k' : κ) :
    (storeBinding k d bindings).lookup k' =
      if k' = k then some d else bindings.lookup k' := by
  rw [storeBinding]
  split_ifs with h
  · rw [lookup_replaceBinding d h, if_pos ‹_›]
  · rw [lookup_replaceBinding d h, if_neg ‹_›]
  · rw [lookup_cons_eq_ite, if_pos ‹_›]
  · rw [lookup_cons_eq_ite, if_neg ‹_›]

/-! ### Events and their definitions -/

/-- An event, without or with the meta modifier. -/
inductive KeyEvent (κ : Type)
  | plain (k : κ)
  | withMeta (k : κ)
  deriving DecidableEq

/-- The event has no meta modifier. -/
def KeyEvent.isPlain : KeyEvent κ → Bool
  | .plain _ => true
  | .withMeta _ => false

/-- What a keymap can have for an event: `nil`, a keymap, or any other definition. -/
inductive Definition (ν : Type)
  | nil
  | command (v : ν)
  | keymap (map : ℕ)
  deriving DecidableEq

/-- What can be found for an event. Several keymaps, in which it is looked up one after the other,
are one keymap that is made when they are found. -/
inductive Binding (ν : Type)
  | nil
  | command (v : ν)
  | keymaps (maps : List ℕ)
  deriving DecidableEq

/-- What a definition is when it is found. -/
def Definition.toBinding : Definition ν → Binding ν
  | .nil => .nil
  | .command v => .command v
  | .keymap map => .keymaps [map]

/-- A binding in front of what is found behind it: keymaps are put together, and anything else
hides what is behind. -/
def Binding.over : Binding ν → Option (Binding ν) → Binding ν
  | .keymaps maps, some (.keymaps maps') => .keymaps (maps ++ maps')
  | b, _ => b

/-- What is found first, in front of what is found behind it. -/
def overlay (b? b'? : Option (Binding ν)) : Option (Binding ν) :=
  match b? with
  | none => b'?
  | some b => some (b.over b'?)

omit [DecidableEq κ] in
@[simp] theorem overlay_none_left (b? : Option (Binding ν)) : overlay none b? = b? := rfl

/-! ### Keymaps -/

/-- A heap of keymaps: own bindings and parents. -/
abbrev Keymaps (κ ν : Type) := LinkedHeap (List (κ × Definition ν))

namespace Keymaps

variable (metaPrefixChar : κ) (h : Keymaps κ ν)

/-- What a keymap and its ancestors have for an event without the meta modifier. -/
def access (map : Option ℕ) (k : κ) : Option (Binding ν) :=
  ((h.values map).map fun bindings => (bindings.lookup k).map Definition.toBinding).foldr overlay
    none

/-- `(lookup-key map key)`, for a key of one event. -/
def lookupKey (map : Option ℕ) : KeyEvent κ → Option (Binding ν)
  | .plain k => access h map k
  | .withMeta k =>
      match access h map metaPrefixChar with
      | some (.keymaps maps) => (maps.map fun a => access h (some a) k).foldr overlay none
      | some .nil => some .nil
      | some (.command _) => none
      | none => none

/-- A definition for an event without the meta modifier. -/
def store (map : ℕ) (k : κ) (d : Definition ν) : Keymaps κ ν :=
  h.setPayload map (storeBinding k d (h.payload map))

/-- `(define-key map key def)`, for a key of one event, unless it signals. -/
def defineKey (map : ℕ) : KeyEvent κ → Definition ν → Option (Keymaps κ ν)
  | .plain k, d => some (store h map k d)
  | .withMeta k, d =>
      match (h.payload map).lookup metaPrefixChar with
      | some (.keymap a) => some (store h a k d)
      | some (.command _) => none
      | _ =>
          -- the character is made a prefix, also where it is bound to `nil`
          let h' := store (h.alloc [] none (by simp)) map metaPrefixChar (.keymap h.size)
          some (store h' h.size k d)

theorem size_le_of_defineKey {h h' : Keymaps κ ν} {map : ℕ} {key : KeyEvent κ} {d : Definition ν}
    (hdefine : defineKey metaPrefixChar h map key d = some h') : h.size ≤ h'.size := by
  cases key with
  | plain k =>
      obtain rfl := Option.some.inj hdefine
      exact Nat.le_refl _
  | withMeta k =>
      rw [defineKey] at hdefine
      split at hdefine
      · obtain rfl := Option.some.inj hdefine
        exact Nat.le_refl _
      · cases hdefine
      · obtain rfl := Option.some.inj hdefine
        exact Nat.le_succ _

/-- An event that a keymap does not bind itself is looked up in its parent. -/
theorem access_some (map : ℕ) (k : κ) :
    access h (some map) k =
      overlay (((h.payload map).lookup k).map Definition.toBinding) (access h (h.link map) k) := by
  rw [access, LinkedHeap.values_some, List.map_cons, List.foldr_cons, access]

/-- What a keymap binds depends on it and its ancestors only, but for events with the meta
modifier. -/
theorem access_congr {h h' : Keymaps κ ν} {map : Option ℕ}
    (hlink : ∀ a ∈ h.chain map, h'.link a = h.link a)
    (hpayload : ∀ a ∈ h.chain map, h'.payload a = h.payload a) (k : κ) :
    access h' map k = access h map k := by
  rw [access, h.values_congr hlink hpayload, access]

end Keymaps

end DotEmacs.Elisp
