import Mathlib.Logic.Function.Basic

/-!
# A heap of cells of one type

Allocation hands out addresses in increasing order and never one that was handed out
before, so a freed cell stays dangling. A pointer is the address of a cell or null.
-/

namespace OsAssignments

/-- The live cells; no address from `count` on was handed out yet. -/
structure Heap (β : Type) where
  cells : Nat → Option β
  count : Nat
  unused : ∀ a, count ≤ a → cells a = none

namespace Heap

variable {β : Type} (h : Heap β)

def empty : Heap β := ⟨fun _ => none, 0, fun _ _ => rfl⟩

/-- The cell a pointer refers to, unless it is null or dangling. -/
def load (ptr : Option Nat) : Option β := ptr.bind h.cells

/-- A new cell at address `count`. -/
def alloc (b : β) : Heap β where
  cells := Function.update h.cells h.count (some b)
  count := h.count + 1
  unused a ha := by
    rw [Function.update_of_ne (by omega)]
    exact h.unused a (by omega)

/-- Overwrite a live cell. -/
def store (ptr : Option Nat) (b : β) : Heap β where
  cells a := if ptr = some a then (h.cells a).map fun _ => b else h.cells a
  count := h.count
  unused a ha := by
    rw [h.unused a ha]
    simp

def free (ptr : Option Nat) : Heap β where
  cells a := if ptr = some a then none else h.cells a
  count := h.count
  unused a ha := by
    rw [h.unused a ha]
    simp

variable {h} {ptr ptr' : Option Nat} {b c : β}

@[simp] theorem load_none : h.load none = none := rfl

@[simp] theorem load_alloc_count : (h.alloc b).load (some h.count) = some b :=
  Function.update_self ..

/-- Allocation leaves the live cells alone. -/
theorem load_alloc (hc : h.load ptr = some c) : (h.alloc b).load ptr = some c := by
  cases ptr with
  | none => cases hc
  | some a =>
    have hne : a ≠ h.count := by
      rintro rfl
      have hnone : h.load (some h.count) = none := h.unused _ (Nat.le_refl _)
      rw [hnone] at hc
      cases hc
    exact (Function.update_of_ne hne ..).trans hc

theorem load_store (hc : h.load ptr = some c) : (h.store ptr b).load ptr = some b := by
  cases ptr with
  | none => cases hc
  | some a =>
    change (if some a = some a then (h.cells a).map fun _ => b else h.cells a) = some b
    rw [if_pos rfl, show h.cells a = some c from hc]
    rfl

theorem load_store_of_ne (hne : ptr ≠ ptr') : (h.store ptr b).load ptr' = h.load ptr' := by
  cases ptr' with
  | none => rfl
  | some a => exact if_neg hne

/-- A live cell stays live when some cell is overwritten. -/
theorem exists_load_store (ptr : Option Nat) (b : β) (hc : h.load ptr' = some c) :
    ∃ d, (h.store ptr b).load ptr' = some d := by
  by_cases hp : ptr = ptr'
  · subst hp
    exact ⟨b, load_store hc⟩
  · exact ⟨c, (load_store_of_ne hp).trans hc⟩

theorem load_free_of_ne (hne : ptr ≠ ptr') : (h.free ptr).load ptr' = h.load ptr' := by
  cases ptr' with
  | none => rfl
  | some a => exact if_neg hne

/-! ## Linked lists -/

/-- The live cells that links lead to from a pointer on, with their addresses; the last link is
null. -/
def Linked (h : Heap β) (next : β → Option Nat) : Option Nat → List (Nat × β) → Prop
  | ptr, [] => ptr = none
  | ptr, cell :: cells =>
    ptr = some cell.1 ∧ h.cells cell.1 = some cell.2 ∧ h.Linked next (next cell.2) cells

variable {next : β → Option Nat} {cells : List (Nat × β)}

theorem linked_none_iff : h.Linked next none cells ↔ cells = [] := by
  cases cells with
  | nil => exact iff_of_true rfl rfl
  | cons cell cells =>
    refine iff_of_false ?_ (List.cons_ne_nil _ _)
    rintro ⟨hptr, -⟩
    cases hptr

/-- A list begins with the cell that its pointer refers to. -/
theorem linked_of_load (hload : h.load ptr = some b) : h.Linked next ptr cells ↔
    ∃ a rest, ptr = some a ∧ cells = (a, b) :: rest ∧ h.Linked next (next b) rest := by
  cases cells with
  | nil =>
    refine iff_of_false ?_ ?_
    · rintro rfl
      cases hload
    · rintro ⟨_, _, -, hcells, -⟩
      cases hcells
  | cons cell cells =>
    constructor
    · rintro ⟨rfl, hcell, hrest⟩
      obtain rfl : b = cell.2 := Option.some.inj (hload.symm.trans hcell)
      exact ⟨cell.1, cells, rfl, rfl, hrest⟩
    · rintro ⟨a, rest, rfl, hcells, hrest⟩
      obtain ⟨rfl, rfl⟩ := List.cons.inj hcells
      exact ⟨rfl, hload, hrest⟩

end Heap

end OsAssignments
