import OsAssignments.Paging.PageTable

/-!
# Replaying a trace

`access_mem` finds the frame of a page, checks the address stored in it and counts
writes in its version counter. A simulation initialises the data structures as `main`
does and performs the accesses of a trace in order.
-/

namespace OsAssignments.Paging

variable {σ : Type}

structure Access where
  type : Char
  vaddr : BitVec 64
  deriving DecidableEq

/-- Compare the address stored in a frame with the expected one, and complain if they differ. -/
def checkContent (memptr : Nat) (vaddr : BitVec 64) : SimM σ Unit := do
  let s ← get
  if s.physmem.load (memptr + 4) 8 ≠ vaddr.toNat then note (.wrongContent vaddr)
  else pure ()

/-- Increment the version counter of a frame on a write. -/
def countWrite (memptr : Nat) (type : Char) : SimM σ Unit := do
  if isWrite type then
    modify fun s => { s with physmem := s.physmem.store memptr 4 (s.physmem.load memptr 4 + 1) }
  else pure ()

def accessMem (env : Env) (P : Policy σ) (a : Access) : SimM σ Unit := do
  let memptr ← findPhyspage env P a.vaddr a.type
  let s ← get
  if memptr + simPageSize ≤ s.physmemSize then
    checkContent memptr a.vaddr
    countWrite memptr a.type
  else Program.stop .undefined

/-- The globals at the start of `main`, after the coremap and physical memory are allocated:
`physmem` is whatever the allocator returned, `alg` the algorithm's uninitialised data. -/
def Sim.start (memsize : Nat) (physmem : Memory) (alg : σ) : Sim σ where
  memsize := memsize
  physmemSize := memsize * simPageSize % 2 ^ 32
  pgdir := fun _ => none
  coremap := fun _ => ⟨false, none, 0⟩
  physmem := physmem
  swapmap := ⟨0#32, []⟩
  swapfile := fun _ => 0
  swapfileSize := 0
  hitCount := 0
  missCount := 0
  refCount := 0
  evictCleanCount := 0
  evictDirtyCount := 0
  alg := alg
  swapCalls := 0
  history := []

/-- The initialisation that `main` does before replaying the trace. -/
def setup (P : Policy σ) (swapsize : BitVec 32) : SimM σ Unit := do
  swapInit swapsize
  initPagetable
  P.init

/-- A simulation of a list of accesses. -/
def simulate (env : Env) (P : Policy σ) (swapsize : BitVec 32) (trace : List Access) :
    SimM σ Unit := do
  setup P swapsize
  Program.runAll (accessMem env P) trace

section

variable {env : Env} {P : Policy σ} {swapsize : BitVec 32} {trace : List Access} {s t : Sim σ}

/-- A simulation returns when the set-up and then every access returns. -/
theorem simulate_ok : simulate env P swapsize trace s = .ok () t ↔
    ∃ u, setup P swapsize s = .ok () u ∧
      Program.runAll (accessMem env P) trace u = .ok () t := by
  rw [simulate, Program.bind_ok]
  constructor
  · rintro ⟨_, u, hsetup, hrun⟩
    exact ⟨u, hsetup, hrun⟩
  · rintro ⟨u, hsetup, hrun⟩
    exact ⟨(), u, hsetup, hrun⟩

/-- Without accesses a simulation is its set-up. -/
theorem simulate_nil_ok :
    simulate env P swapsize [] s = .ok () t ↔ setup P swapsize s = .ok () t := by
  rw [simulate_ok]
  constructor
  · rintro ⟨u, hsetup, hrun⟩
    cases hrun
    exact hsetup
  · intro hsetup
    exact ⟨t, hsetup, rfl⟩

end

end OsAssignments.Paging
