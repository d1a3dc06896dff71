import Mathlib.Data.List.Induction
import Mathlib.Data.Nat.Notation
import Mathlib.Logic.Function.Basic
import Mathlib.Tactic.SplitIfs

/-!
# Linked cells

A heap of cells, each with a payload and a link to an older cell or to none. The list of the
cells that can be reached from a cell ends, since every link leads to an older cell; cells are
numbered in the order in which they are made.

Cons cells whose payload is their `car` and whose link is their `cdr` are such cells, and so are
keymaps whose payload is the list of their own bindings and whose link is their parent.

## Main definitions

* `Elisp.LinkedHeap`, `Elisp.LinkedHeap.chain`, `Elisp.LinkedHeap.values`.
* `Elisp.LinkedHeap.alloc`, `Elisp.LinkedHeap.setPayload`, `Elisp.LinkedHeap.bypass`: the
  operations.
* `Elisp.LinkedHeap.unlink`: the removal of cells by their payloads, in place.

## Main results

* `Elisp.LinkedHeap.values_congr`: what is reached depends on the cells reached only.
* `Elisp.LinkedHeap.values_unlink_fst`, `Elisp.LinkedHeap.values_unlink_snd`: what a removal in
  place returns, and what a reference to the first cell leads to after it.
-/

namespace DotEmacs.Elisp

/-- A heap of cells, each with a payload and a link to an older cell or to none. -/
structure LinkedHeap (α : Type) where
  size : ℕ
  payload : ℕ → α
  link : ℕ → Option ℕ
  link_lt : ∀ {a b}, link a = some b → b < a

namespace LinkedHeap

variable {α : Type} (h : LinkedHeap α)

/-! ### Chains -/

/-- The first `n` cells that are reached from `p`, at most. -/
def chainFrom : ℕ → Option ℕ → List ℕ
  | 0, _ => []
  | _, none => []
  | n + 1, some a => a :: chainFrom n (h.link a)

/-- The cells that are reached from `p`. -/
def chain (p : Option ℕ) : List ℕ := h.chainFrom (p.elim 0 (· + 1)) p

/-- The payloads of the cells that are reached from `p`. -/
def values (p : Option ℕ) : List α := (h.chain p).map h.payload

/-- Links lead to older cells, so that their number bounds the cells that can be reached. -/
theorem elim_link_le (a : ℕ) : (h.link a).elim 0 (· + 1) ≤ a := by
  cases hl : h.link a with
  | none => exact Nat.zero_le a
  | some b => exact h.link_lt hl

@[simp] theorem chainFrom_none (n : ℕ) : h.chainFrom n none = [] := by
  cases n <;> rfl

theorem chainFrom_eq (n : ℕ) {m : ℕ} {p : Option ℕ} (hn : p.elim 0 (· + 1) ≤ n)
    (hm : p.elim 0 (· + 1) ≤ m) : h.chainFrom n p = h.chainFrom m p := by
  induction n generalizing m p with
  | zero => cases p <;> simp at hn ⊢
  | succ n ih =>
      match m, p with
      | _, none => simp
      | 0, some a => simp at hm
      | m + 1, some a =>
          simp only [Option.elim_some, Nat.add_le_add_iff_right] at hn hm
          rw [chainFrom, chainFrom]
          have hle := h.elim_link_le a
          exact congrArg (a :: ·) (ih (by omega) (by omega))

@[simp] theorem chain_none : h.chain none = [] := rfl

/-- The cells that are reached from a cell are that cell and those reached from its link. -/
theorem chain_some (a : ℕ) : h.chain (some a) = a :: h.chain (h.link a) := by
  rw [chain, Option.elim_some, chainFrom]
  exact congrArg (a :: ·) (h.chainFrom_eq a (h.elim_link_le a) (Nat.le_refl _))

@[simp] theorem values_none : h.values none = [] := rfl

theorem values_some (a : ℕ) : h.values (some a) = h.payload a :: h.values (h.link a) := by
  rw [values, chain_some, List.map_cons, ← values]

/-- Induction along the links: what holds of no cell, and of a cell if it holds of its link,
holds of all. -/
@[elab_as_elim]
theorem chain_induction {P : Option ℕ → Prop} (none : P none)
    (some : ∀ a, P (h.link a) → P (some a)) (p : Option ℕ) : P p := by
  have hall : ∀ n a, a < n → P (Option.some a) := by
    intro n
    induction n with
    | zero => exact fun a ha => absurd ha (Nat.not_lt_zero a)
    | succ n ih =>
        intro a ha
        refine some a ?_
        cases hl : h.link a with
        | none => exact none
        | some b =>
            have hlt := h.link_lt hl
            exact ih b (by omega)
  cases p with
  | none => exact none
  | some a => exact hall (a + 1) a (Nat.lt_succ_self a)

/-- Links lead to older cells. -/
theorem le_of_mem_chain {a : ℕ} {p : Option ℕ} (ha : a ∈ h.chain p) : ∃ b ∈ p, a ≤ b := by
  induction p using h.chain_induction with
  | none => simp at ha
  | some b ih =>
      rw [chain_some, List.mem_cons] at ha
      rcases ha with rfl | ha
      · exact ⟨a, rfl, Nat.le_refl a⟩
      · obtain ⟨c, hc, hac⟩ := ih ha
        have hlt := h.link_lt hc
        exact ⟨b, rfl, by omega⟩

theorem lt_of_mem_chain_link {a b : ℕ} (hb : b ∈ h.chain (h.link a)) : b < a := by
  obtain ⟨c, hc, hbc⟩ := h.le_of_mem_chain hb
  have hlt := h.link_lt hc
  omega

/-! ### What is reached -/

/-- The cells that are reached depend on the links of these cells only. -/
theorem chain_congr {h' : LinkedHeap α} {p : Option ℕ}
    (hlink : ∀ a ∈ h.chain p, h'.link a = h.link a) : h'.chain p = h.chain p := by
  induction p using h.chain_induction with
  | none => rfl
  | some a ih =>
      rw [chain_some] at hlink
      rw [chain_some, chain_some, hlink a List.mem_cons_self,
        ih fun b hb => hlink b (List.mem_cons_of_mem a hb)]

@[simp] theorem head?_chain (p : Option ℕ) : (h.chain p).head? = p := by
  cases p with
  | none => rfl
  | some a => rw [chain_some, List.head?_cons]

/-- A part of what is reached depends on the links of that part and on where it leads to. -/
theorem chain_append_congr {h' : LinkedHeap α} {l : List ℕ} {p q : Option ℕ}
    (hl : h.chain p = l ++ h.chain q) (hlink : ∀ a ∈ l, h'.link a = h.link a) :
    h'.chain p = l ++ h'.chain q := by
  induction l generalizing p with
  | nil =>
      have hpq : p = q := by rw [← h.head?_chain p, hl, List.nil_append, h.head?_chain q]
      rw [hpq, List.nil_append]
  | cons a l ih =>
      have hp : p = some a := by rw [← h.head?_chain p, hl, List.cons_append, List.head?_cons]
      rw [hp, chain_some, List.cons_append, List.cons.injEq] at hl
      rw [hp, chain_some, hlink a List.mem_cons_self, List.cons_append,
        ih hl.2 fun b hb => hlink b (List.mem_cons_of_mem a hb)]

/-- What is reached depends on the cells that are reached only. -/
theorem values_congr {h' : LinkedHeap α} {p : Option ℕ}
    (hlink : ∀ a ∈ h.chain p, h'.link a = h.link a)
    (hpayload : ∀ a ∈ h.chain p, h'.payload a = h.payload a) : h'.values p = h.values p := by
  rw [values, h.chain_congr hlink, List.map_congr_left hpayload, values]

/-! ### Making and changing cells -/

/-- The heap without cells; `x` is the payload of the places that are free. -/
def empty (x : α) : LinkedHeap α where
  size := 0
  payload _ := x
  link _ := none
  link_lt hab := nomatch hab

/-- A new cell with a given payload and a link to an existing one. -/
def alloc (x : α) (p : Option ℕ) (hp : ∀ a ∈ p, a < h.size) : LinkedHeap α where
  size := h.size + 1
  payload := Function.update h.payload h.size x
  link := Function.update h.link h.size p
  link_lt {a b} hab := by
    by_cases ha : a = h.size
    · rw [ha, Function.update_self] at hab
      exact ha ▸ hp b hab
    · rw [Function.update_of_ne ha] at hab
      exact h.link_lt hab

/-- Another payload for a cell. -/
def setPayload (a : ℕ) (x : α) : LinkedHeap α where
  size := h.size
  payload := Function.update h.payload a x
  link := h.link
  link_lt := h.link_lt

/-- The cell behind `a` is taken out: `a` gets the link of the cell that it is linked to. -/
def bypass (a : ℕ) : LinkedHeap α where
  size := h.size
  payload := h.payload
  link := Function.update h.link a ((h.link a).bind h.link)
  link_lt {c b} hcb := by
    by_cases hc : c = a
    · rw [hc, Function.update_self, Option.bind_eq_some_iff] at hcb
      obtain ⟨d, hd, hb⟩ := hcb
      exact hc ▸ Nat.lt_trans (h.link_lt hb) (h.link_lt hd)
    · rw [Function.update_of_ne hc] at hcb
      exact h.link_lt hcb

section Alloc

variable (x : α) {p : Option ℕ} (hp : ∀ a ∈ p, a < h.size)

@[simp] theorem size_alloc : (h.alloc x p hp).size = h.size + 1 := rfl

@[simp] theorem link_alloc_size : (h.alloc x p hp).link h.size = p := Function.update_self ..

@[simp] theorem payload_alloc_size : (h.alloc x p hp).payload h.size = x :=
  Function.update_self ..

theorem link_alloc_of_ne {a : ℕ} (ha : a ≠ h.size) : (h.alloc x p hp).link a = h.link a :=
  Function.update_of_ne ha _ _

theorem payload_alloc_of_ne {a : ℕ} (ha : a ≠ h.size) :
    (h.alloc x p hp).payload a = h.payload a :=
  Function.update_of_ne ha _ _

/-- The existing cells do not reach a new one. -/
theorem values_alloc_of_lt {q : Option ℕ} (hq : ∀ a ∈ q, a < h.size) :
    (h.alloc x p hp).values q = h.values q := by
  have hne : ∀ a ∈ h.chain q, a ≠ h.size := by
    intro a ha
    obtain ⟨b, hb, hab⟩ := h.le_of_mem_chain ha
    have hlt := hq b hb
    omega
  exact h.values_congr (fun a ha => h.link_alloc_of_ne x hp (hne a ha))
    fun a ha => h.payload_alloc_of_ne x hp (hne a ha)

/-- A new cell reaches its payload and what it is linked to. -/
theorem values_alloc_size :
    (h.alloc x p hp).values (some h.size) = x :: h.values p := by
  rw [values_some, link_alloc_size, payload_alloc_size, values_alloc_of_lt h x hp hp]

end Alloc

@[simp] theorem payload_setPayload_self (a : ℕ) (x : α) : (h.setPayload a x).payload a = x :=
  Function.update_self ..

theorem payload_setPayload_of_ne {a b : ℕ} (hb : b ≠ a) (x : α) :
    (h.setPayload a x).payload b = h.payload b :=
  Function.update_of_ne hb _ _

@[simp] theorem link_bypass_self (a : ℕ) : (h.bypass a).link a = (h.link a).bind h.link :=
  Function.update_self ..

theorem link_bypass_of_ne {a b : ℕ} (hb : b ≠ a) : (h.bypass a).link b = h.link b :=
  Function.update_of_ne hb _ _

@[simp] theorem payload_bypass (a : ℕ) : (h.bypass a).payload = h.payload := rfl

theorem values_bypass_of_notMem {a : ℕ} {p : Option ℕ} (ha : a ∉ h.chain p) :
    (h.bypass a).values p = h.values p :=
  h.values_congr (fun _ hb => h.link_bypass_of_ne fun heq => ha (heq ▸ hb)) fun _ _ => rfl

/-! ### Removal in place -/

variable (m : α → Bool)

/-- The first of the `n` cells reached from `p` whose payload is not to be removed. -/
def skip : ℕ → Option ℕ → Option ℕ
  | 0, p => p
  | _, none => none
  | n + 1, some a => if m (h.payload a) then skip n (h.link a) else some a

/-- Take out the cells behind `tail` whose payload is to be removed, in `n` steps at most. -/
def unlinkBehind (m : α → Bool) : ℕ → LinkedHeap α → ℕ → LinkedHeap α
  | 0, h, _ => h
  | n + 1, h, tail =>
      match h.link tail with
      | none => h
      | some next =>
          if m (h.payload next) then unlinkBehind m n (h.bypass tail) tail
          else unlinkBehind m n h next

/-- Remove the cells reached from `p` by their payloads: those at the front are skipped and the
others taken out. What is returned is the first cell that is left, and the heap. -/
def unlink (p : Option ℕ) : Option ℕ × LinkedHeap α :=
  match h.skip m (p.elim 0 (· + 1)) p with
  | none => (none, h)
  | some a => (some a, unlinkBehind m a h a)

/-- The cells that `skip` passes by are newer than the one it ends at. -/
theorem exists_skip {n : ℕ} {p : Option ℕ} (hn : p.elim 0 (· + 1) ≤ n) :
    ∃ skipped, h.chain p = skipped ++ h.chain (h.skip m n p) ∧
      skipped.map h.payload = (h.values p).takeWhile m ∧
      h.values (h.skip m n p) = (h.values p).dropWhile m ∧
      ∀ a ∈ h.skip m n p, m (h.payload a) = false ∧ ∀ b ∈ skipped, a < b := by
  induction n generalizing p with
  | zero =>
      cases p with
      | none => exact ⟨[], rfl, rfl, rfl, by simp [skip]⟩
      | some a => simp at hn
  | succ n ih =>
      match p with
      | none => exact ⟨[], rfl, rfl, rfl, by simp [skip]⟩
      | some a =>
          by_cases hm : m (h.payload a)
          · have hle : (h.link a).elim 0 (· + 1) ≤ n :=
              Nat.le_trans (h.elim_link_le a) (Nat.le_of_succ_le_succ hn)
            obtain ⟨skipped, hchain, htake, hdrop, hhead⟩ := ih hle
            rw [skip, if_pos hm, chain_some, values_some, hchain]
            refine ⟨a :: skipped, rfl, by simp [hm, htake], by simpa [hm] using hdrop, ?_⟩
            refine fun b hb => ⟨(hhead b hb).1, List.forall_mem_cons.mpr ⟨?_, (hhead b hb).2⟩⟩
            refine h.lt_of_mem_chain_link ?_
            rw [hchain, hb, chain_some]
            simp
          · rw [skip, if_neg hm, values_some]
            exact ⟨[], rfl, by simp [hm], by simp [hm], by simpa using hm⟩

/-- Cells newer than `tail` keep their links, and all cells keep their payloads. -/
theorem unlinkBehind_frame (n : ℕ) (tail : ℕ) :
    (∀ a, tail < a → (unlinkBehind m n h tail).link a = h.link a) ∧
      (unlinkBehind m n h tail).payload = h.payload ∧
      (unlinkBehind m n h tail).size = h.size := by
  induction n generalizing h tail with
  | zero => exact ⟨fun _ _ => rfl, rfl, rfl⟩
  | succ n ih =>
      rw [unlinkBehind]
      cases hl : h.link tail with
      | none => exact ⟨fun _ _ => rfl, rfl, rfl⟩
      | some next =>
          have hlt := h.link_lt hl
          simp only
          split_ifs
          · obtain ⟨hlink, hpayload, hsize⟩ := ih (h.bypass tail) tail
            exact ⟨fun a ha => (hlink a ha).trans (h.link_bypass_of_ne (by omega)), hpayload,
              hsize⟩
          · obtain ⟨hlink, hpayload, hsize⟩ := ih h next
            exact ⟨fun a ha => hlink a (by omega), hpayload, hsize⟩

/-- Behind `tail` the payloads that are not to be removed are left. -/
theorem values_unlinkBehind {n tail : ℕ} (hn : (h.link tail).elim 0 (· + 1) ≤ n) :
    (unlinkBehind m n h tail).values (some tail) =
      h.payload tail :: (h.values (h.link tail)).filter (fun x => !m x) := by
  induction n generalizing h tail with
  | zero =>
      cases hl : h.link tail with
      | none => rw [unlinkBehind, values_some, hl]; rfl
      | some next => simp [hl] at hn
  | succ n ih =>
      rw [unlinkBehind]
      cases hl : h.link tail with
      | none => simp only [values_some, hl, values_none, List.filter_nil]
      | some next =>
          have hlt := h.link_lt hl
          rw [hl, Option.elim_some] at hn
          have hle : (h.link next).elim 0 (· + 1) ≤ n :=
            Nat.le_trans (h.elim_link_le next) (Nat.le_of_succ_le_succ hn)
          simp only
          split_ifs with hm
          · have hlink : (h.bypass tail).link tail = h.link next := by
              rw [link_bypass_self, hl, Option.bind_some]
            have hnotMem : tail ∉ h.chain (h.link next) := fun hmem =>
              absurd (h.lt_of_mem_chain_link hmem) (by omega)
            rw [ih (h.bypass tail) (by rwa [hlink]), hlink, payload_bypass,
              h.values_bypass_of_notMem hnotMem, values_some,
              List.filter_cons_of_neg (by simp [hm])]
          · obtain ⟨hkeep, hpayload, -⟩ := h.unlinkBehind_frame m n next
            rw [values_some, hkeep tail hlt, hpayload, hl, ih h hle, values_some,
              List.filter_cons_of_pos (by simp [hm])]

theorem unlink_fst (p : Option ℕ) : (h.unlink m p).1 = h.skip m (p.elim 0 (· + 1)) p := by
  rw [unlink]
  cases h.skip m (p.elim 0 (· + 1)) p <;> rfl

@[simp] theorem size_unlink (p : Option ℕ) : (h.unlink m p).2.size = h.size := by
  rw [unlink]
  cases h.skip m (p.elim 0 (· + 1)) p with
  | none => rfl
  | some a => exact (h.unlinkBehind_frame m a a).2.2

/-- The payloads that are not to be removed are behind those at the front that are. -/
theorem filter_eq_filter_dropWhile (l : List α) :
    l.filter (fun x => !m x) = (l.dropWhile m).filter fun x => !m x := by
  induction l with
  | nil => rfl
  | cons x l ih =>
      by_cases hx : m x
      · rw [List.filter_cons_of_neg (by simp [hx]), List.dropWhile_cons_of_pos hx, ih]
      · rw [List.dropWhile_cons_of_neg hx]

/-- **What a removal in place returns.** The first of the cells left leads to the payloads that
are not to be removed. -/
theorem values_unlink_fst (p : Option ℕ) :
    (h.unlink m p).2.values (h.unlink m p).1 = (h.values p).filter fun x => !m x := by
  obtain ⟨skipped, -, -, hdrop, hhead⟩ := h.exists_skip m (Nat.le_refl (p.elim 0 (· + 1)))
  rw [filter_eq_filter_dropWhile, ← hdrop, unlink]
  cases hs : h.skip m (p.elim 0 (· + 1)) p with
  | none => rfl
  | some a =>
      have hm : m (h.payload a) = false := (hhead a hs).1
      rw [values_some h, List.filter_cons_of_pos (by simp [hm])]
      exact h.values_unlinkBehind m (h.elim_link_le a)

/-- **What a removal in place leaves.** The first of the cells that were there leads to the
payloads at the front that were to be removed, and to those that were not. -/
theorem values_unlink_snd (p : Option ℕ) :
    (h.unlink m p).2.values p =
      (h.values p).takeWhile m ++ (h.values p).filter fun x => !m x := by
  obtain ⟨skipped, hchain, htake, -, hhead⟩ := h.exists_skip m (Nat.le_refl (p.elim 0 (· + 1)))
  have hkeep : (∀ a ∈ skipped, (h.unlink m p).2.link a = h.link a) ∧
      (h.unlink m p).2.payload = h.payload := by
    rw [unlink]
    cases hs : h.skip m (p.elim 0 (· + 1)) p with
    | none => exact ⟨fun _ _ => rfl, rfl⟩
    | some a =>
        obtain ⟨hlink, hpayload, -⟩ := h.unlinkBehind_frame m a a
        exact ⟨fun b hb => hlink b ((hhead a hs).2 b hb), hpayload⟩
  rw [values, h.chain_append_congr hchain hkeep.1, List.map_append, hkeep.2, htake,
    ← h.unlink_fst m, ← hkeep.2, ← values, values_unlink_fst]

end LinkedHeap

end DotEmacs.Elisp
