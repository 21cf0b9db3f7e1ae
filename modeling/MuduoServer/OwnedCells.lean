import Mathlib.Data.Finmap
import Mathlib.Data.Option.Basic
import Mathlib.Logic.Equiv.Basic
import Mathlib.Order.Lattice.Nat

/-!
# Cells owned by slots

Memory is a finite map from addresses to cells, and a slot is missing, empty, or
holds the address of a cell. In an owned store every cell has exactly one slot
and every address that a slot holds is in use. What a slot is worth is then a
value of its own: the operations on cells and addresses are updates of the values.
-/
namespace OwnedCells

abbrev Cells (β : Type) := Finmap fun _ : Nat => β

/-- An allocator gives an address that is not in use. One that was freed may come back. -/
structure Allocator (β : Type) where
  place : Cells β → Nat
  place_free : ∀ cells, place cells ∉ cells

structure Store (ν β : Type) where
  cells : Cells β
  /-- `none` for a slot that is missing, `some none` for an empty one. -/
  slot : ν → Option (Option Nat)

variable {ν β : Type}

theorem sup_succ_free (cells : Cells β) : cells.keys.sup Nat.succ ∉ cells := by
  intro h
  have hle := Finset.le_sup (f := Nat.succ) (Finmap.mem_keys.mpr h)
  omega

/-- The address after the highest one in use. -/
def Allocator.next (β : Type) : Allocator β where
  place cells := cells.keys.sup Nat.succ
  place_free := sup_succ_free

structure Owned (s : Store ν β) : Prop where
  live : ∀ x a, s.slot x = some (some a) → a ∈ s.cells
  held : ∀ a ∈ s.cells, ∃ x, s.slot x = some (some a)
  single : ∀ x y a, s.slot x = some (some a) → s.slot y = some (some a) → x = y

namespace Store

def empty : Store ν β := ⟨∅, fun _ => none⟩

def value (s : Store ν β) (x : ν) : Option (Option β) :=
  (s.slot x).map fun o => o.bind fun a => s.cells.lookup a

def overwrite (s : Store ν β) (a : Nat) (b : β) : Store ν β :=
  { s with cells := s.cells.insert a b }

@[simp] theorem overwrite_slot (s : Store ν β) (a : Nat) (b : β) :
    (s.overwrite a b).slot = s.slot := rfl

@[simp] theorem overwrite_cells (s : Store ν β) (a : Nat) (b : β) :
    (s.overwrite a b).cells = s.cells.insert a b := rfl

variable [DecidableEq ν]

/-- A new empty slot. -/
def vacant (s : Store ν β) (x : ν) : Store ν β :=
  { s with slot := Function.update s.slot x (some none) }

/-- A new slot with a new cell. -/
def fill (A : Allocator β) (s : Store ν β) (x : ν) (b : β) : Store ν β where
  cells := s.cells.insert (A.place s.cells) b
  slot := Function.update s.slot x (some (some (A.place s.cells)))

def exchange (s : Store ν β) (x y : ν) : Store ν β :=
  { s with slot := fun z => s.slot (Equiv.swap x y z) }

/-- A slot goes, and with it the cell it holds. -/
def drop (s : Store ν β) (x : ν) : Option (Store ν β) :=
  match s.slot x with
  | none => none
  | some none => some { s with slot := Function.update s.slot x none }
  | some (some a) =>
    if a ∈ s.cells then some ⟨s.cells.erase a, Function.update s.slot x none⟩ else none

@[simp] theorem vacant_slot (s : Store ν β) (x : ν) :
    (s.vacant x).slot = Function.update s.slot x (some none) := rfl

@[simp] theorem vacant_cells (s : Store ν β) (x : ν) : (s.vacant x).cells = s.cells := rfl

@[simp] theorem fill_slot (A : Allocator β) (s : Store ν β) (x : ν) (b : β) :
    (s.fill A x b).slot = Function.update s.slot x (some (some (A.place s.cells))) := rfl

@[simp] theorem fill_cells (A : Allocator β) (s : Store ν β) (x : ν) (b : β) :
    (s.fill A x b).cells = s.cells.insert (A.place s.cells) b := rfl

@[simp] theorem exchange_slot (s : Store ν β) (x y z : ν) :
    (s.exchange x y).slot z = s.slot (Equiv.swap x y z) := rfl

@[simp] theorem exchange_cells (s : Store ν β) (x y : ν) : (s.exchange x y).cells = s.cells := rfl

end Store

theorem owned_empty : Owned (Store.empty : Store ν β) where
  live := by simp [Store.empty]
  held a ha := absurd ha Finmap.notMem_empty
  single := by simp [Store.empty]

/-- In an owned store without slots nothing is left in memory. -/
theorem Owned.cells_eq_empty {s : Store ν β} (h : Owned s) (hx : ∀ x, s.slot x = none) :
    s.cells = ∅ := by
  apply Finmap.ext_lookup
  intro a
  rw [Finmap.lookup_empty, Finmap.lookup_eq_none]
  intro ha
  obtain ⟨x, hxa⟩ := h.held a ha
  rw [hx x] at hxa
  cases hxa

/-- What a slot holds is in use. -/
theorem Owned.lookup {s : Store ν β} (h : Owned s) {x : ν} {a : Nat}
    (hx : s.slot x = some (some a)) :
    ∃ b, s.cells.lookup a = some b ∧ s.value x = some (some b) := by
  obtain ⟨b, hb⟩ := Finmap.mem_iff.mp (h.live x a hx)
  exact ⟨b, hb, by simp [Store.value, hx, hb]⟩

/-- The address that an allocator gives is no slot's. -/
theorem Owned.slot_ne_place {s : Store ν β} (h : Owned s) (A : Allocator β) (y : ν) :
    s.slot y ≠ some (some (A.place s.cells)) :=
  fun hy => A.place_free s.cells (h.live y _ hy)

/-- A slot that the cells do not change for has the value it had. -/
theorem value_congr {s s' : Store ν β} {x : ν} (hslot : s'.slot x = s.slot x)
    (hcell : ∀ a, s.slot x = some (some a) → s'.cells.lookup a = s.cells.lookup a) :
    s'.value x = s.value x := by
  unfold Store.value
  rw [hslot]
  cases h : s.slot x with
  | none => rfl
  | some o =>
    cases o with
    | none => rfl
    | some a => simp [hcell a h]

variable [DecidableEq ν]

namespace Owned

variable {s : Store ν β}

theorem vacant (h : Owned s) {x : ν} (hx : s.slot x = none) : Owned (s.vacant x) where
  live y a hy := by
    rw [Store.vacant_slot] at hy
    by_cases hyx : y = x
    · subst hyx
      simp at hy
    · rw [Function.update_of_ne hyx] at hy
      exact h.live y a hy
  held a ha := by
    obtain ⟨y, hy⟩ := h.held a ha
    have hyx : y ≠ x := by
      intro hyx
      rw [hyx, hx] at hy
      cases hy
    exact ⟨y, by rw [Store.vacant_slot, Function.update_of_ne hyx, hy]⟩
  single y z a hy hz := by
    rw [Store.vacant_slot] at hy hz
    by_cases hyx : y = x
    · subst hyx
      simp at hy
    · by_cases hzx : z = x
      · subst hzx
        simp at hz
      · rw [Function.update_of_ne hyx] at hy
        rw [Function.update_of_ne hzx] at hz
        exact h.single y z a hy hz

theorem fill (h : Owned s) (A : Allocator β) {x : ν} (b : β) (hx : s.slot x = none) :
    Owned (s.fill A x b) where
  live y a hy := by
    rw [Store.fill_slot] at hy
    rw [Store.fill_cells, Finmap.mem_insert]
    by_cases hyx : y = x
    · subst hyx
      rw [Function.update_self] at hy
      cases hy
      exact Or.inl rfl
    · rw [Function.update_of_ne hyx] at hy
      exact Or.inr (h.live y a hy)
  held a ha := by
    rw [Store.fill_cells, Finmap.mem_insert] at ha
    cases ha with
    | inl ha => exact ⟨x, by rw [Store.fill_slot, Function.update_self, ha]⟩
    | inr ha =>
      obtain ⟨y, hy⟩ := h.held a ha
      have hyx : y ≠ x := by
        intro hyx
        rw [hyx, hx] at hy
        cases hy
      exact ⟨y, by rw [Store.fill_slot, Function.update_of_ne hyx, hy]⟩
  single y z a hy hz := by
    rw [Store.fill_slot] at hy hz
    by_cases hyx : y = x
    · by_cases hzx : z = x
      · rw [hyx, hzx]
      · rw [Function.update_of_ne hzx] at hz
        rw [hyx, Function.update_self] at hy
        cases hy
        exact absurd hz (h.slot_ne_place A z)
    · rw [Function.update_of_ne hyx] at hy
      by_cases hzx : z = x
      · rw [hzx, Function.update_self] at hz
        cases hz
        exact absurd hy (h.slot_ne_place A y)
      · rw [Function.update_of_ne hzx] at hz
        exact h.single y z a hy hz

theorem exchange (h : Owned s) (x y : ν) : Owned (s.exchange x y) where
  live z a hz := h.live _ a hz
  held a ha := by
    obtain ⟨z, hz⟩ := h.held a ha
    exact ⟨Equiv.swap x y z, by rw [Store.exchange_slot, Equiv.swap_apply_self, hz]⟩
  single z w a hz hw := (Equiv.swap x y).injective (h.single _ _ a hz hw)

theorem drop_some (h : Owned s) {x : ν} (hx : s.slot x ≠ none) :
    ∃ s', s.drop x = some s' ∧ s'.slot = Function.update s.slot x none ∧
      (∀ a, a ∈ s'.cells ↔ a ∈ s.cells ∧ s.slot x ≠ some (some a)) ∧
      ∀ a, s.slot x ≠ some (some a) → s'.cells.lookup a = s.cells.lookup a := by
  cases hs : s.slot x with
  | none => exact absurd hs hx
  | some o =>
    cases o with
    | none => exact ⟨_, by rw [Store.drop, hs], rfl, by simp, by simp⟩
    | some a =>
      refine ⟨⟨s.cells.erase a, Function.update s.slot x none⟩, ?_, rfl, ?_, ?_⟩
      · simp only [Store.drop, hs]
        rw [if_pos (h.live x a hs)]
      · intro b
        rw [Finmap.mem_erase, and_comm]
        apply and_congr_right
        intro _
        simp [eq_comm]
      · intro b hb
        apply Finmap.lookup_erase_ne
        simpa [eq_comm] using hb

theorem drop (h : Owned s) {x : ν} {s' : Store ν β} (hs : s.drop x = some s') : Owned s' := by
  have hx : s.slot x ≠ none := by
    intro hx
    rw [Store.drop, hx] at hs
    cases hs
  obtain ⟨t, ht, hslot, hcells, -⟩ := h.drop_some hx
  rw [hs] at ht
  cases ht
  have hof : ∀ {y : ν} {a : Nat}, s'.slot y = some (some a) → y ≠ x ∧ s.slot y = some (some a) := by
    intro y a hy
    rw [hslot] at hy
    by_cases hyx : y = x
    · rw [hyx, Function.update_self] at hy
      cases hy
    · rw [Function.update_of_ne hyx] at hy
      exact ⟨hyx, hy⟩
  constructor
  · intro y a hy
    obtain ⟨hyx, hy⟩ := hof hy
    exact (hcells a).mpr ⟨h.live y a hy, fun hxa => hyx (h.single y x a hy hxa)⟩
  · intro a ha
    obtain ⟨ha, hxa⟩ := (hcells a).mp ha
    obtain ⟨y, hy⟩ := h.held a ha
    have hyx : y ≠ x := by
      intro hyx
      exact hxa (hyx ▸ hy)
    exact ⟨y, by rw [hslot, Function.update_of_ne hyx, hy]⟩
  · intro y z a hy hz
    exact h.single y z a (hof hy).2 (hof hz).2

omit [DecidableEq ν] in
theorem overwrite (h : Owned s) {a : Nat} (b : β) (ha : a ∈ s.cells) : Owned (s.overwrite a b) where
  live y c hy := Finmap.mem_insert.mpr (Or.inr (h.live y c hy))
  held c hc := by
    rw [Store.overwrite_cells, Finmap.mem_insert] at hc
    cases hc with
    | inl hc => exact h.held c (hc ▸ ha)
    | inr hc => exact h.held c hc
  single y z c hy hz := h.single y z c hy hz

end Owned

/-! ### The operations as updates of the values -/

theorem value_vacant (s : Store ν β) (x : ν) :
    (s.vacant x).value = Function.update s.value x (some none) := by
  funext y
  by_cases hyx : y = x
  · subst hyx
    simp [Store.value]
  · rw [Function.update_of_ne hyx]
    apply value_congr
    · rw [Store.vacant_slot, Function.update_of_ne hyx]
    · intro a _
      rfl

theorem value_fill {s : Store ν β} (h : Owned s) (A : Allocator β) (x : ν) (b : β) :
    (s.fill A x b).value = Function.update s.value x (some (some b)) := by
  funext y
  by_cases hyx : y = x
  · subst hyx
    simp [Store.value]
  · rw [Function.update_of_ne hyx]
    apply value_congr
    · rw [Store.fill_slot, Function.update_of_ne hyx]
    · intro a ha
      apply Finmap.lookup_insert_of_ne
      intro hap
      exact h.slot_ne_place A y (hap ▸ ha)

theorem value_exchange (s : Store ν β) (x y z : ν) :
    (s.exchange x y).value z = s.value (Equiv.swap x y z) := rfl

theorem value_drop {s s' : Store ν β} (h : Owned s) {x : ν} (hs : s.drop x = some s') :
    s'.value = Function.update s.value x none := by
  have hx : s.slot x ≠ none := by
    intro hx
    rw [Store.drop, hx] at hs
    cases hs
  obtain ⟨t, ht, hslot, -, hcells⟩ := h.drop_some hx
  rw [hs] at ht
  cases ht
  funext y
  by_cases hyx : y = x
  · subst hyx
    simp [Store.value, hslot]
  · rw [Function.update_of_ne hyx]
    apply value_congr
    · rw [hslot, Function.update_of_ne hyx]
    · intro a ha
      apply hcells
      intro hxa
      exact hyx (h.single y x a ha hxa)

/-- A cell is written for one slot. -/
theorem value_overwrite {s : Store ν β} (h : Owned s) {x : ν} {a : Nat} (b : β)
    (hx : s.slot x = some (some a)) :
    (s.overwrite a b).value = Function.update s.value x (some (some b)) := by
  funext y
  by_cases hyx : y = x
  · subst hyx
    simp [Store.value, hx]
  · rw [Function.update_of_ne hyx]
    apply value_congr
    · rfl
    · intro c hc
      apply Finmap.lookup_insert_of_ne
      intro hca
      exact hyx (h.single y x c hc (hca ▸ hx))

end OwnedCells
