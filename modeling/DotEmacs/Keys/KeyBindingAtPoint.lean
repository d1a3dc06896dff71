import DotEmacs.Elisp.Object

/-!
# The keymaps at point

`overlay-key-binding` looks a key up in the keymaps of the overlays at point, and
`key-binding-at-point` in these and in the `keymap` and `local-map` text properties. The latter
joins the three sources by `append`. A keymap is a list itself, so that a text property is not
added as one element but spliced: the first one contributes its elements and the second one is the
tail of the whole. So the function is right exactly where point has neither text property.

How a key is looked up in a keymap is left open.

## Main definitions

* `Keys.keymapp`: the Lisp objects that are keymaps.
* `Keys.PointProperties`: the properties at point.
* `Keys.overlayKeyBinding`, `Keys.keyBindingAtPoint`.
* `Keys.ConsultsEachKeymap`: the key is looked up in each keymap at point.

## Main results

* `Keys.keymapsAtPoint_eq_ok`: when no error is signalled, and which objects are looked up in.
* `Keys.consultsEachKeymap_iff`: when the key is looked up in each keymap at point.
-/

namespace DotEmacs.Keys

open Elisp Obj

/-! ### Keymaps among the Lisp objects -/

/-- A list that begins with the symbol `keymap`. -/
def isKeymapList : Obj → Bool
  | .cons a _ => a = symbol "keymap"
  | _ => false

/-- `keymapp`: a keymap, or a symbol whose function definition is one. -/
def keymapp (indirectFunction : Symbol → Obj) : Obj → Bool
  | .sym s => isKeymapList (indirectFunction s)
  | x => isKeymapList x

/-- The properties at point: the `keymap` properties of the overlays, in the order of the
overlays, and the `keymap` and `local-map` text properties. A property that is absent is nil. -/
structure PointProperties (indirectFunction : Symbol → Obj) where
  overlayKeymaps : List Obj
  keymap : Obj
  localMap : Obj
  keymap_valid : keymap = .nil ∨ keymapp indirectFunction keymap
  localMap_valid : localMap = .nil ∨ keymapp indirectFunction localMap

variable {indirectFunction : Symbol → Obj} {κ β : Type} (lookupKey : Obj → κ → β) (key : κ)
  (p : PointProperties indirectFunction)

/-! ### The functions -/

/-- `overlay-key-binding`.

Source: `init/init-functions.el`, lines 68–75. -/
def overlayKeyBinding : List β :=
  (p.overlayKeymaps.filter (keymapp indirectFunction)).map fun keymap => lookupKey keymap key

/-- The keymaps in which `key-binding-at-point` looks the key up.

Source: `init/init-functions.el`, lines 109–116. -/
def keymapsAtPoint : Except Signal (List Obj) := do
  let joined ← append [ofList p.overlayKeymaps, p.keymap] p.localMap
  let objects ← elements joined
  return objects.filter (keymapp indirectFunction)

/-- `key-binding-at-point`.

Source: `init/init-functions.el`, lines 106–116. -/
def keyBindingAtPoint : Except Signal (List β) :=
  (keymapsAtPoint p).map fun keymaps => keymaps.map fun keymap => lookupKey keymap key

/-- The keymap of a text property, if it is there. -/
def presentKeymap : Obj → List Obj
  | .nil => []
  | x => [x]

/-- The key is looked up in each keymap at point and in nothing else: in those of the overlays, as
`overlay-key-binding` does, and in those of the text properties that are there. -/
structure ConsultsEachKeymap : Prop where
  keymaps : keymapsAtPoint p = .ok (p.overlayKeymaps.filter (keymapp indirectFunction) ++
    presentKeymap p.keymap ++ presentKeymap p.localMap)
  bindings : keyBindingAtPoint lookupKey key p = .ok (overlayKeyBinding lookupKey key p ++
    (presentKeymap p.keymap ++ presentKeymap p.localMap).map fun keymap => lookupKey keymap key)

/-! ### The joined list -/

theorem ofListTail_eq_ofList {xs : List Obj} {tail : Obj} {zs : List Obj} :
    ofListTail xs tail = ofList zs ↔ ∃ ys, tail = ofList ys ∧ zs = xs ++ ys := by
  constructor
  · intro h
    induction xs generalizing zs with
    | nil => exact ⟨zs, h, rfl⟩
    | cons x xs ih =>
        cases zs with
        | nil => simp at h
        | cons z zs =>
            rw [ofListTail_cons, ofList_cons, Obj.cons.injEq] at h
            obtain ⟨ys, htail, rfl⟩ := ih h.2
            exact ⟨ys, htail, by rw [h.1, List.cons_append]⟩
  · rintro ⟨ys, rfl, rfl⟩
    exact (ofListTail_append xs ys .nil).symm

/-- The elements of a text property are found exactly when it is a proper list. -/
theorem elements_eq_ok {x : Obj} (hx : x = .nil ∨ keymapp indirectFunction x) {xs : List Obj} :
    elements x = .ok xs ↔ x = ofList xs := by
  rcases hx with rfl | hx
  · cases xs <;> simp
  · match x, hx with
    | .cons a d, _ => exact elements_cons_eq_ok
    | .sym s, _ => cases xs <;> simp

/-- The elements of a list that ends in a text property. -/
theorem elements_ofListTail_eq_ok {xs : List Obj} {x : Obj}
    (hx : x = .nil ∨ keymapp indirectFunction x) {zs : List Obj} :
    elements (ofListTail xs x) = .ok zs ↔ ∃ ys, x = ofList ys ∧ zs = xs ++ ys := by
  rw [← ofListTail_eq_ofList]
  cases xs with
  | nil => exact elements_eq_ok hx
  | cons y ys => exact elements_cons_eq_ok

/-- **The keymaps that are looked up in.** There is no error exactly when both text properties are
proper lists, and the key is then looked up in the keymaps among their elements. -/
theorem keymapsAtPoint_eq_ok {zs : List Obj} :
    keymapsAtPoint p = .ok zs ↔ ∃ xs ys, p.keymap = ofList xs ∧ p.localMap = ofList ys ∧
      (p.overlayKeymaps ++ xs ++ ys).filter (keymapp indirectFunction) = zs := by
  have hjoined : append [ofList p.overlayKeymaps, p.keymap] p.localMap =
      (elements p.keymap).map fun xs => ofListTail (p.overlayKeymaps ++ xs) p.localMap := by
    rw [append_ofList_cons, append]
    cases elements p.keymap with
    | error e => rfl
    | ok xs => exact congrArg Except.ok (ofListTail_append ..).symm
  rw [keymapsAtPoint, hjoined]
  cases hxs : elements p.keymap with
  | error e =>
      change Except.error e = Except.ok zs ↔ _
      simp only [reduceCtorEq, false_iff]
      rintro ⟨xs, ys, hk, -⟩
      rw [(elements_eq_ok p.keymap_valid).mpr hk] at hxs
      cases hxs
  | ok xs =>
      have hk : p.keymap = ofList xs := (elements_eq_ok p.keymap_valid).mp hxs
      change (elements (ofListTail (p.overlayKeymaps ++ xs) p.localMap)).bind
        (fun objects => .ok (objects.filter (keymapp indirectFunction))) = .ok zs ↔ _
      constructor
      · intro h
        cases hobjects : elements (ofListTail (p.overlayKeymaps ++ xs) p.localMap) with
        | error e => rw [hobjects] at h; cases h
        | ok objects =>
            obtain ⟨ys, hl, rfl⟩ := (elements_ofListTail_eq_ok p.localMap_valid).mp hobjects
            rw [hobjects] at h
            exact ⟨xs, ys, hk, hl, Except.ok.inj h⟩
      · rintro ⟨xs', ys, hk', hl, rfl⟩
        obtain rfl : xs = xs' := ofList_injective (hk.symm.trans hk')
        rw [(elements_ofListTail_eq_ok p.localMap_valid).mpr ⟨ys, hl, rfl⟩]
        rfl

/-! ### Each keymap at point -/

theorem mem_presentKeymap {x : Obj} (hx : x ≠ .nil) : x ∈ presentKeymap x := by
  cases x <;> simp_all [presentKeymap]

/-- **The keymaps at point.** The key is looked up in each keymap at point and in nothing else
exactly where point has neither a `keymap` nor a `local-map` text property. -/
theorem consultsEachKeymap_iff :
    ConsultsEachKeymap lookupKey key p ↔ p.keymap = .nil ∧ p.localMap = .nil := by
  constructor
  · intro h
    obtain ⟨xs, ys, hk, hl, heq⟩ := (keymapsAtPoint_eq_ok p).mp h.keymaps
    rw [List.append_assoc, List.append_assoc, List.filter_append, List.append_cancel_left_eq,
      List.filter_append] at heq
    -- a text property that is there is one of the objects, but not an element of itself
    have hkeymap : p.keymap ≠ .nil → p.keymap ∈ ys := by
      intro hne
      have hmem : p.keymap ∈ xs.filter (keymapp indirectFunction) ++
          ys.filter (keymapp indirectFunction) :=
        heq ▸ List.mem_append_left _ (mem_presentKeymap hne)
      refine (List.mem_append.mp hmem).elim (fun hxs => ?_) List.mem_of_mem_filter
      exact absurd (List.mem_of_mem_filter hxs) (not_mem_of_eq_ofList hk)
    have hlocalMap : p.localMap ≠ .nil → p.localMap ∈ xs := by
      intro hne
      have hmem : p.localMap ∈ xs.filter (keymapp indirectFunction) ++
          ys.filter (keymapp indirectFunction) :=
        heq ▸ List.mem_append_right _ (mem_presentKeymap hne)
      refine (List.mem_append.mp hmem).elim List.mem_of_mem_filter fun hys => ?_
      exact absurd (List.mem_of_mem_filter hys) (not_mem_of_eq_ofList hl)
    have hnil : p.keymap = .nil := by
      by_contra hne
      have hys := hkeymap hne
      have hxs := hlocalMap fun heq => by
        rw [hl, ← ofList_nil, ofList_inj] at heq
        simp [heq] at hys
      have hlt := sizeOf_lt_of_mem_ofList hys
      have hlt' := sizeOf_lt_of_mem_ofList hxs
      rw [← hl] at hlt
      rw [← hk] at hlt'
      omega
    refine ⟨hnil, ?_⟩
    by_contra hne
    have hxs := hlocalMap hne
    rw [hk, ← ofList_nil, ofList_inj] at hnil
    simp [hnil] at hxs
  · rintro ⟨hk, hl⟩
    have hkeymaps : keymapsAtPoint p = .ok (p.overlayKeymaps.filter (keymapp indirectFunction)) :=
      (keymapsAtPoint_eq_ok p).mpr ⟨[], [], hk, hl, by simp⟩
    refine ⟨?_, ?_⟩
    · rw [hkeymaps, hk, hl]
      simp [presentKeymap]
    · rw [keyBindingAtPoint, hkeymaps, hk, hl]
      simp [presentKeymap, overlayKeyBinding, Except.map]

/-- Point in a text whose `keymap` property is a keymap with one binding. -/
def onSparseKeymap : PointProperties fun _ => .nil where
  overlayKeymaps := []
  keymap := ofList [symbol "keymap", .cons (.int 97) (symbol "foo")]
  localMap := .nil
  keymap_valid := by decide
  localMap_valid := by decide

/-- Point in a text whose `local-map` property is a symbol that stands for a keymap. -/
def onKeymapSymbol : PointProperties fun _ => ofList [symbol "keymap"] where
  overlayKeymaps := []
  keymap := .nil
  localMap := symbol "foo-map"
  keymap_valid := by decide
  localMap_valid := by decide

/-- A `keymap` text property is not looked up in, and a symbol as text property makes the function
signal. -/
theorem not_consultsEachKeymap_textProperty :
    ¬ ConsultsEachKeymap (fun keymap (_ : Obj) => keymap) (.int 97) onSparseKeymap ∧
      ¬ ConsultsEachKeymap (fun keymap (_ : Obj) => keymap) (.int 97) onKeymapSymbol := by
  have hsparse : keymapsAtPoint onSparseKeymap = .ok [] := rfl
  have hsymbol : keymapsAtPoint onKeymapSymbol =
      .error (.wrongTypeArgument "sequencep" (symbol "foo-map")) := rfl
  refine ⟨fun h => ?_, fun h => ?_⟩
  · exact absurd (Except.ok.inj (hsparse.symm.trans h.keymaps)) (by decide)
  · exact nomatch hsymbol.symm.trans h.keymaps

end DotEmacs.Keys
