import OsAssignments.Library.Pager
import OsAssignments.Paging.Machine

/-!
# What a page table entry says

The low bits of `frame` are flags and the rest is a frame number. This file reads an
entry as the status of its page and computes the status after each assignment that
`allocate_frame` and `find_physpage` make to the entry.
-/

namespace OsAssignments.Paging

open Bits

namespace PgtblEntry

/-! ## Reading an entry -/

def valid (e : PgtblEntry) : Bool := e.frame.getLsbD 0

def dirty (e : PgtblEntry) : Bool := e.frame.getLsbD 1

def onswap (e : PgtblEntry) : Bool := e.frame.getLsbD 3

/-- The frame number, above the flags. -/
def number (e : PgtblEntry) : Nat := (e.frame >>> pageShift).toNat

/-- The swap slot at the entry's offset. -/
def slot (e : PgtblEntry) : Option Nat :=
  if e.swapOff = invalidSwap then none else some (e.swapOff.toNat / simPageSize)

/-- The status of the page an entry describes. -/
def status (e : PgtblEntry) : PageStatus where
  home := if e.valid then some e.number else none
  dirty := e.dirty
  swapped := e.onswap
  slot := e.slot

theorem pgValid_eq : pgValid = 1#32 <<< 0 := rfl

theorem pgDirty_eq : pgDirty = 1#32 <<< 1 := rfl

theorem pgRef_eq : pgRef = 1#32 <<< 2 := rfl

theorem pgOnswap_eq : pgOnswap = 1#32 <<< 3 := rfl

theorem and_pgValid_eq_zero_iff {e : PgtblEntry} :
    e.frame &&& pgValid = 0#32 ↔ e.valid = false := by
  rw [pgValid_eq, and_mask_eq_zero_iff (by decide), valid]

theorem and_pgDirty_eq_zero_iff {e : PgtblEntry} :
    e.frame &&& pgDirty = 0#32 ↔ e.dirty = false := by
  rw [pgDirty_eq, and_mask_eq_zero_iff (by decide), dirty]

theorem and_pgOnswap_eq_zero_iff {e : PgtblEntry} :
    e.frame &&& pgOnswap = 0#32 ↔ e.onswap = false := by
  rw [pgOnswap_eq, and_mask_eq_zero_iff (by decide), onswap]

/-! ## Assignments to an entry -/

/-- The victim's entry after `PG_VALID` is cleared. -/
def cleared (e : PgtblEntry) : PgtblEntry := { e with frame := e.frame &&& ~~~pgValid }

/-- The victim's entry after it was written to swap at an offset. -/
def swappedOut (e : PgtblEntry) (swapOffset : Int) : PgtblEntry where
  frame := ((e.frame &&& ~~~pgValid) &&& ~~~pgDirty) ||| pgOnswap
  swapOff := swapOffset
  vaddr := e.vaddr

/-- The entry of a page that was given a frame, before it is marked valid. -/
def mapped (e : PgtblEntry) (iFrame : Nat) : PgtblEntry :=
  { e with frame := BitVec.ofNat 32 iFrame <<< pageShift }

/-- The entry after an access. -/
def marked (e : PgtblEntry) (write : Bool) : PgtblEntry :=
  { e with
    frame := if write then ((e.frame ||| pgValid) ||| pgRef) ||| pgDirty
      else (e.frame ||| pgValid) ||| pgRef }

@[simp] theorem dirty_cleared (e : PgtblEntry) : e.cleared.dirty = e.dirty := by
  simp [cleared, dirty, pgValid_eq]

@[simp] theorem onswap_cleared (e : PgtblEntry) : e.cleared.onswap = e.onswap := by
  simp [cleared, onswap, pgValid_eq]

@[simp] theorem valid_cleared (e : PgtblEntry) : e.cleared.valid = false := by
  simp [cleared, valid, pgValid_eq]

theorem status_cleared (e : PgtblEntry) : e.cleared.status = { e.status with home := none } := by
  simp only [status, valid_cleared, dirty_cleared, onswap_cleared, Bool.false_eq_true, ite_false]
  rfl

theorem status_swappedOut (e : PgtblEntry) {i : Nat} :
    (e.swappedOut (i * simPageSize : Nat)).status = ⟨none, false, true, some i⟩ := by
  have hvalid : (e.swappedOut (i * simPageSize : Nat)).valid = false := by
    simp [swappedOut, valid, pgValid_eq, pgDirty_eq, pgOnswap_eq]
  have hdirty : (e.swappedOut (i * simPageSize : Nat)).dirty = false := by
    simp [swappedOut, dirty, pgValid_eq, pgDirty_eq, pgOnswap_eq]
  have honswap : (e.swappedOut (i * simPageSize : Nat)).onswap = true := by
    simp [swappedOut, onswap, pgValid_eq, pgDirty_eq, pgOnswap_eq]
  have hslot : (e.swappedOut (i * simPageSize : Nat)).slot = some i := by
    have hne : ((i * simPageSize : Nat) : Int) ≠ invalidSwap := by
      simp only [invalidSwap]
      omega
    simp only [swappedOut, slot, hne, ite_false, Int.toNat_natCast, simPageSize, Option.some.injEq]
    omega
  simp only [status, hvalid, hdirty, honswap, hslot, Bool.false_eq_true, ite_false]

theorem number_mapped (e : PgtblEntry) {f : Nat} (hf : f < 2 ^ 20) : (e.mapped f).number = f := by
  simp only [mapped, number, pageShift, BitVec.toNat_ushiftRight, BitVec.toNat_shiftLeft,
    BitVec.toNat_ofNat, Nat.shiftLeft_eq, Nat.shiftRight_eq_div_pow]
  omega

@[simp] theorem dirty_mapped (e : PgtblEntry) (f : Nat) : (e.mapped f).dirty = false := by
  simp [mapped, dirty, pageShift]

@[simp] theorem onswap_mapped (e : PgtblEntry) (f : Nat) : (e.mapped f).onswap = false := by
  simp [mapped, onswap, pageShift]

theorem status_marked (e : PgtblEntry) (w : Bool) : (e.marked w).status =
    { e.status with home := some e.number, dirty := e.status.dirty || w } := by
  have hvalid : (e.marked w).valid = true := by
    cases w <;> simp [marked, valid, pgValid_eq, pgRef_eq, pgDirty_eq]
  have hdirty : (e.marked w).dirty = (e.dirty || w) := by
    cases w <;> simp [marked, dirty, pgValid_eq, pgRef_eq, pgDirty_eq]
  have honswap : (e.marked w).onswap = e.onswap := by
    cases w <;> simp [marked, onswap, pgValid_eq, pgRef_eq, pgDirty_eq]
  have hnumber : (e.marked w).number = e.number := by
    cases w <;> simp only [marked, number, pgValid_eq, pgRef_eq, pgDirty_eq, ite_true, ite_false,
      Bool.false_eq_true, or_mask_shift (show (2 : Nat) < 32 by decide) (show 2 < 12 by decide),
      or_mask_shift (show (1 : Nat) < 32 by decide) (show 1 < 12 by decide),
      or_mask_shift (show (0 : Nat) < 32 by decide) (show 0 < 12 by decide)]
  simp only [status, hvalid, hdirty, honswap, hnumber, ite_true]
  rfl

/-- A page that was just given frame `f` and accessed. -/
theorem status_marked_mapped (e : PgtblEntry) {f : Nat} (hf : f < 2 ^ 20) (w : Bool) :
    ((e.mapped f).marked w).status = ⟨some f, w, false, e.slot⟩ := by
  have hdirty : (e.mapped f).status.dirty = false := dirty_mapped e f
  have honswap : (e.mapped f).status.swapped = false := onswap_mapped e f
  rw [status_marked]
  apply PageStatus.ext
  · exact congrArg some (number_mapped e hf)
  · simp only [hdirty, Bool.false_or]
  · exact honswap
  · rfl

/-! ## Entries that differ in the reference bit -/

/-- Two entries that differ at most in `PG_REF`. -/
def SameButRef (e e' : PgtblEntry) : Prop :=
  e'.frame ||| pgRef = e.frame ||| pgRef ∧ e'.swapOff = e.swapOff ∧ e'.vaddr = e.vaddr

theorem SameButRef.refl (e : PgtblEntry) : e.SameButRef e := ⟨rfl, rfl, rfl⟩

theorem SameButRef.trans {e e' e'' : PgtblEntry} (h : e.SameButRef e') (h' : e'.SameButRef e'') :
    e.SameButRef e'' :=
  ⟨h'.1.trans h.1, h'.2.1.trans h.2.1, h'.2.2.trans h.2.2⟩

theorem SameButRef.getLsbD_frame {e e' : PgtblEntry} (h : e.SameButRef e') {k : Nat} (hk : k ≠ 2) :
    e'.frame.getLsbD k = e.frame.getLsbD k := by
  have hbit := congrArg (fun x : BitVec 32 => x.getLsbD k) h.1
  simpa only [pgRef_eq, getLsbD_or_mask (show 2 < 32 by decide), hk.symm, decide_false,
    Bool.or_false] using hbit

theorem SameButRef.number_eq {e e' : PgtblEntry} (h : e.SameButRef e') :
    e'.number = e.number := by
  have hshift := congrArg (fun x : BitVec 32 => x >>> pageShift) h.1
  simp only [pgRef_eq, pageShift, or_mask_shift (show (2 : Nat) < 32 by decide)
    (show 2 < 12 by decide)] at hshift
  simp only [number, pageShift, hshift]

theorem SameButRef.slot_eq {e e' : PgtblEntry} (h : e.SameButRef e') : e'.slot = e.slot := by
  simp only [slot, h.2.1]

/-- The status of a page does not depend on the reference bit. -/
theorem SameButRef.status_eq {e e' : PgtblEntry} (h : e.SameButRef e') :
    e'.status = e.status := by
  have hvalid : e'.valid = e.valid := h.getLsbD_frame (by decide)
  have hdirty : e'.dirty = e.dirty := h.getLsbD_frame (by decide)
  have honswap : e'.onswap = e.onswap := h.getLsbD_frame (by decide)
  simp only [status, hvalid, hdirty, honswap, h.number_eq, h.slot_eq]

end PgtblEntry

end OsAssignments.Paging
