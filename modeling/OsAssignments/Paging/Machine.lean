import Mathlib.Logic.Function.Basic
import OsAssignments.Library.Bytes
import OsAssignments.Paging.Bitmap

/-!
# The state of the paging simulator

The global variables of the simulator are the fields of one record. A page table
entry is named by its page directory and page table index, which stands for the
pointer the source passes around. The record also keeps a history of what happened,
newest first; no function of the source reads it.
-/

namespace OsAssignments.Paging

/-! ## Constants of `pagetable.h` and `sim.h` -/

abbrev pageShift : Nat := 12
abbrev pgdirShift : Nat := 24
abbrev ptrsPerPgdir : Nat := 4096
abbrev ptrsPerPgtbl : Nat := 4096
instance : NeZero ptrsPerPgdir := ⟨by decide⟩
def pgtblMask : BitVec 64 := 4095#64
def pgValid : BitVec 32 := 0x1#32
def pgDirty : BitVec 32 := 0x2#32
def pgRef : BitVec 32 := 0x4#32
def pgOnswap : BitVec 32 := 0x8#32
abbrev invalidSwap : Int := -1
abbrev simPageSize : Nat := 16

/-- `PGDIR_INDEX` of a virtual address, narrowed to the `unsigned` it is assigned to. -/
def pgdirIndex (vaddr : BitVec 64) : BitVec 32 := (vaddr >>> pgdirShift).setWidth 32

/-- `PGTBL_INDEX` of a virtual address, narrowed to the `unsigned` it is assigned to. -/
def pgtblIndex (vaddr : BitVec 64) : BitVec 32 := ((vaddr >>> pageShift) &&& pgtblMask).setWidth 32

/-! ## Data structures -/

/-- A `pgtbl_entry_t *`: the entry at index `tbl` of the table in directory slot `dir`. -/
structure PtePtr where
  dir : Fin ptrsPerPgdir
  tbl : Fin ptrsPerPgtbl
  deriving DecidableEq

/-- A second-level page table entry. -/
structure PgtblEntry where
  frame : BitVec 32
  swapOff : Int
  vaddr : BitVec 64

/-- A coremap entry. -/
structure Frame where
  inUse : Bool
  pte : Option PtePtr
  evic : Int

/-- What the simulator did, as far as the statements about it mention. -/
inductive Event
  /-- `find_physpage` marked the entry of an accessed page referenced. -/
  | access (type : Char) (vaddr : BitVec 64) (p : PtePtr)
  /-- `evict_fcn` chose a frame while the frames held the pages of these entries. -/
  | evict (frame : Nat) (pages : List (Option PtePtr))
  /-- A page was brought into a frame. -/
  | load (p : PtePtr) (frame : Nat)
  /-- `swap_pageout` stored these bytes of a page. -/
  | pageout (p : PtePtr) (bytes : List UInt8)
  /-- `swap_pagein` filled a page's frame with these bytes. -/
  | pagein (p : PtePtr) (bytes : List UInt8)
  /-- `swap_pageout` reported that no slot is left for the page of a frame. -/
  | swapFull (victim : Option PtePtr)
  /-- `access_mem` reported that a frame does not hold the expected address. -/
  | wrongContent (vaddr : BitVec 64)

/-- What the system makes of the `lseek` and of the `read` or `write` of one swap call. -/
structure SwapIo where
  /-- Whether `lseek` succeeds. -/
  seek : Bool
  /-- How many bytes `read` or `write` is ready to move, negative for an error. -/
  moved : Int

/-- Neither system call of the swap call fails or falls short. -/
def SwapIo.Succeeds (io : SwapIo) : Prop := io.seek = true ∧ io.moved = simPageSize

/-- What the simulator gets from outside: the outcome of each swap call, in order, and
for each page directory slot the `vaddr` fields found in the memory that
`posix_memalign` returns, unless the allocation fails. -/
structure Env where
  io : Nat → SwapIo
  tables : Fin ptrsPerPgdir → Option (Fin ptrsPerPgtbl → BitVec 64)

/-- The global variables, with the data `alg` of the replacement algorithm. -/
structure Sim (σ : Type) where
  memsize : Nat
  physmemSize : Nat
  pgdir : Fin ptrsPerPgdir → Option (Fin ptrsPerPgtbl → PgtblEntry)
  coremap : Nat → Frame
  physmem : Memory
  swapmap : Bitmap
  swapfile : Memory
  swapfileSize : Nat
  hitCount : Int
  missCount : Int
  refCount : Int
  evictCleanCount : Int
  evictDirtyCount : Int
  alg : σ
  swapCalls : Nat
  history : List Event

abbrev SimM (σ α : Type) := Program Stop (Sim σ) α

/-- A replacement algorithm, as in `struct functions`. -/
structure Policy (σ : Type) where
  init : SimM σ Unit
  ref : PtePtr → SimM σ Unit
  evict : SimM σ Nat

/-- Increment of an `int` counter, wrapping at 32 bits. -/
def countUp (n : Int) : Int := (n + 1).bmod (2 ^ 32)

/-- An `int` or `off_t` value passed where an `int` is expected. -/
def asInt (n : Int) : Int := n.bmod (2 ^ 32)

variable {σ : Type}

/-! ## Reading and writing entries -/

namespace Sim

/-- The entry a pointer refers to, once its table exists. -/
def entry (s : Sim σ) (p : PtePtr) : Option PgtblEntry := (s.pgdir p.dir).map fun t => t p.tbl

def setEntry (s : Sim σ) (p : PtePtr) (e : PgtblEntry) : Sim σ :=
  { s with
    pgdir := Function.update s.pgdir p.dir
      ((s.pgdir p.dir).map fun t => Function.update t p.tbl e) }

def setFrame (s : Sim σ) (f : Nat) (fr : Frame) : Sim σ :=
  { s with coremap := Function.update s.coremap f fr }

/-- The replacement algorithm changes its own data. -/
def withAlg (s : Sim σ) (alg : σ) : Sim σ := { s with alg := alg }

@[simp] theorem alg_withAlg (s : Sim σ) (alg : σ) : (s.withAlg alg).alg = alg := rfl

@[simp] theorem coremap_withAlg (s : Sim σ) (alg : σ) : (s.withAlg alg).coremap = s.coremap := rfl

@[simp] theorem memsize_withAlg (s : Sim σ) (alg : σ) : (s.withAlg alg).memsize = s.memsize := rfl

def note (s : Sim σ) (ev : Event) : Sim σ := { s with history := ev :: s.history }

/-- The page table pointers of all frames, in order. -/
def pages (s : Sim σ) : List (Option PtePtr) :=
  (List.range s.memsize).map fun i => (s.coremap i).pte

theorem entry_setEntry_same {s : Sim σ} {p : PtePtr} {e e₀ : PgtblEntry}
    (h : s.entry p = some e₀) : (s.setEntry p e).entry p = some e := by
  unfold entry at h
  obtain ⟨t, ht, _⟩ := Option.map_eq_some_iff.mp h
  simp [entry, setEntry, ht]

theorem entry_setEntry_ne {s : Sim σ} {p q : PtePtr} {e : PgtblEntry} (h : q ≠ p) :
    (s.setEntry p e).entry q = s.entry q := by
  unfold entry setEntry
  by_cases hd : q.dir = p.dir
  · have ht : q.tbl ≠ p.tbl := fun ht => h (by cases p; cases q; simp_all)
    rw [hd]
    simp only [Function.update_self, Option.map_map]
    congr 1
    funext t
    simp [ht]
  · simp [Function.update_of_ne hd]

end Sim

/-- Dereference a pointer to a page table entry. -/
def readPte (p : PtePtr) : SimM σ PgtblEntry := fun s =>
  match s.entry p with
  | some e => .ok e s
  | none => .error .undefined s

def writePte (p : PtePtr) (e : PgtblEntry) : SimM σ Unit := modify fun s => s.setEntry p e

def note (ev : Event) : SimM σ Unit := modify fun s => s.note ev

/-- The offset in `physmem` of a frame that lies inside it. -/
def frameAddr (frame : Nat) : SimM σ Nat := fun s =>
  if frame * simPageSize + simPageSize ≤ s.physmemSize then .ok (frame * simPageSize) s
  else .error .undefined s

theorem readPte_ok {p : PtePtr} {s t : Sim σ} {e : PgtblEntry} :
    readPte p s = .ok e t ↔ s.entry p = some e ∧ s = t := by
  unfold readPte
  cases h : s.entry p <;> simp

/-- Reading an entry that exists. -/
theorem readPte_bind {α : Type} {p : PtePtr} {s : Sim σ} {e : PgtblEntry} (h : s.entry p = some e)
    (k : PgtblEntry → SimM σ α) : (readPte p >>= k) s = k e s :=
  Program.bind_of_ok (readPte_ok.mpr ⟨h, rfl⟩)

theorem writePte_bind {α : Type} (p : PtePtr) (e : PgtblEntry) (k : Unit → SimM σ α)
    (s : Sim σ) : (writePte p e >>= k) s = k () (s.setEntry p e) := rfl

theorem frameAddr_ok {frame a : Nat} {s t : Sim σ} :
    frameAddr frame s = .ok a t ↔
      frame * simPageSize + simPageSize ≤ s.physmemSize ∧ frame * simPageSize = a ∧ s = t := by
  unfold frameAddr
  split <;> simp_all

end OsAssignments.Paging
