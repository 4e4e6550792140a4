import OsAssignments.Paging.Swap

/-!
# Page tables and frame allocation

Translation of `pagetable.c`: finding a page, creating second-level tables, claiming a
free frame or evicting a victim, and filling the frame from swap or with a fresh page.
-/

namespace OsAssignments.Paging

variable {σ : Type}

/-- Mark the victim's entry invalid and, if the page is dirty, write it to swap. -/
def evictVictim (env : Env) (frame : Nat) : SimM σ Unit := do
  let s ← get
  match (s.coremap frame).pte with
  | none => Program.stop .undefined
  | some victim =>
    let e ← readPte victim
    let e := { e with frame := e.frame &&& ~~~pgValid }
    writePte victim e
    if e.frame &&& pgOnswap = 0#32 then
      if e.frame &&& pgDirty ≠ 0#32 then
        let swapOffset ← swapPageout env frame (asInt e.swapOff)
        if swapOffset = invalidSwap then Program.stop (.exit (-1))
        else
          let e := { e with swapOff := swapOffset }
          let e := { e with frame := e.frame &&& ~~~pgDirty }
          modify fun s => { s with evictDirtyCount := countUp s.evictDirtyCount }
          writePte victim { e with frame := e.frame ||| pgOnswap }
          modify fun s =>
            s.note (.pageout victim (s.physmem.bytes (frame * simPageSize) simPageSize))
      else
        modify fun s => { s with evictCleanCount := countUp s.evictCleanCount }
    else pure ()

/-- Ask the replacement algorithm for a victim; an index outside the coremap is undefined. -/
def chooseVictim (P : Policy σ) : SimM σ Nat := do
  let frame ← P.evict
  modify fun s => s.note (.evict frame s.pages)
  let s ← get
  if frame < s.memsize then pure frame else Program.stop .undefined

/-- The first frame that is not in use. -/
def Sim.freeFrame (s : Sim σ) : Option Nat :=
  (List.range s.memsize).find? fun i => !(s.coremap i).inUse

/-- A frame for a new page: the first free one or, when there is none, a victim's. -/
def takeFrame (env : Env) (P : Policy σ) : SimM σ Nat := do
  let s ← get
  match s.freeFrame with
  | some i => pure i
  | none =>
    let frame ← chooseVictim P
    evictVictim env frame
    pure frame

def allocateFrame (env : Env) (P : Policy σ) (p : PtePtr) : SimM σ Nat := do
  let frame ← takeFrame env P
  modify fun s => s.setFrame frame { s.coremap frame with inUse := true, pte := some p }
  pure frame

def initPagetable : SimM σ Unit := modify fun s => { s with pgdir := fun _ => none }

/-- A new second-level table; its `vaddr` fields keep what the allocator returned. -/
def initSecondLevel (env : Env) (dir : Fin ptrsPerPgdir) : SimM σ Unit := fun s =>
  match env.tables dir with
  | none => .error (.exit 1) s
  | some vaddrs => .ok () { s with
      pgdir := Function.update s.pgdir dir
        (some fun i => { frame := 0#32, swapOff := invalidSwap, vaddr := vaddrs i }) }

def initFrame (frame : Nat) (vaddr : BitVec 64) : SimM σ Unit := do
  let memPtr ← frameAddr frame
  modify fun s => { s with physmem := s.physmem.fill memPtr simPageSize 0 }
  modify fun s => { s with physmem := s.physmem.store (memPtr + 4) 8 vaddr.toNat }

/-- Fill a newly allocated frame: from swap when the entry says so, else with a fresh page. -/
def fillFrame (env : Env) (p : PtePtr) (iFrame : Nat) (vaddr : BitVec 64) : SimM σ Unit := do
  let e ← readPte p
  if e.frame &&& pgOnswap ≠ 0#32 then
    let failed ← swapPagein env iFrame (asInt e.swapOff)
    if failed ≠ 0 then Program.stop (.exit (-1))
    else
      modify fun s => s.note (.pagein p (s.physmem.bytes (iFrame * simPageSize) simPageSize))
  else
    initFrame iFrame vaddr

/-- `p->frame = iFrame << PAGE_SHIFT`; a shift that overflows the `int` is undefined. -/
def mapFrame (p : PtePtr) (iFrame : Nat) : SimM σ Unit := do
  if iFrame < 2 ^ 19 then
    let e ← readPte p
    writePte p { e with frame := BitVec.ofNat 32 iFrame <<< pageShift }
    note (.load p iFrame)
  else Program.stop .undefined

/-- The branch of `find_physpage` for an invalid entry. -/
def handleMiss (env : Env) (P : Policy σ) (p : PtePtr) (vaddr : BitVec 64) : SimM σ Unit := do
  modify fun s => { s with missCount := countUp s.missCount }
  let iFrame ← allocateFrame env P p
  fillFrame env p iFrame vaddr
  mapFrame p iFrame

/-- Count a hit, or bring the page into memory. -/
def makeResident (env : Env) (P : Policy σ) (p : PtePtr) (vaddr : BitVec 64) : SimM σ Unit := do
  let e ← readPte p
  if e.frame &&& pgValid ≠ 0#32 then
    modify fun s => { s with hitCount := countUp s.hitCount }
  else
    handleMiss env P p vaddr

/-- Whether an access of this type writes the page. -/
def isWrite (type : Char) : Bool := type == 'M' || type == 'S'

/-- Mark an entry valid and referenced, and dirty on a write. -/
def markAccessed (p : PtePtr) (vaddr : BitVec 64) (type : Char) : SimM σ Unit := do
  let e ← readPte p
  let e := { e with frame := e.frame ||| pgValid }
  let e := { e with frame := e.frame ||| pgRef }
  let e := if isWrite type then { e with frame := e.frame ||| pgDirty } else e
  writePte p e
  note (.access type vaddr p)

/-- The entry for an address, in a table that is created when the directory slot is empty.
A directory index outside `pgdir` is undefined. -/
def walk (env : Env) (vaddr : BitVec 64) : SimM σ PtePtr := fun s =>
  if h : (pgdirIndex vaddr).toNat < ptrsPerPgdir then
    let p : PtePtr := ⟨⟨_, h⟩, Fin.ofNat ptrsPerPgtbl (pgtblIndex vaddr).toNat⟩
    match s.pgdir p.dir with
    | some _ => .ok p s
    | none => ((initSecondLevel env p.dir : SimM σ Unit) >>= fun _ => pure p) s
  else .error .undefined s

def findPhyspage (env : Env) (P : Policy σ) (vaddr : BitVec 64) (type : Char) : SimM σ Nat := do
  modify fun s => { s with refCount := countUp s.refCount }
  let p ← walk env vaddr
  makeResident env P p vaddr
  markAccessed p vaddr type
  P.ref p
  let e ← readPte p
  pure ((e.frame >>> pageShift).toNat * simPageSize)

end OsAssignments.Paging
