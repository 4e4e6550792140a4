import OsAssignments.Library.Heap
import OsAssignments.Paging.Abstraction
import OsAssignments.Paging.TraceText

/-!
# Optimal replacement

Translation of `opt.c`. The algorithm reads the trace file into a linked list of addresses
before the simulation and drops the first address at every access. Whether each call of
`malloc` succeeds is a parameter.
-/

namespace OsAssignments.Paging

/-- An `addr_list`. -/
structure AddrList where
  vaddr : BitVec 64
  next : Option Nat

/-- The nodes and the global of `opt.c`. -/
structure Opt where
  nodes : Heap AddrList
  head : Option Nat

/-- Whether a call of `malloc` succeeds. -/
abbrev Mallocs := Nat → Bool

namespace Opt

/-- Follow a pointer to a node. -/
def node (ptr : Option Nat) : SimM Opt AddrList := do
  let s ← get
  Program.require .undefined (s.alg.nodes.load ptr)

def setHead (ptr : Option Nat) : SimM Opt Unit :=
  modify fun s => s.withAlg { s.alg with head := ptr }

/-- `malloc` of a node and the assignments to its fields, which need `malloc` to succeed. -/
def newNode (mallocs : Mallocs) (vaddr : BitVec 64) : SimM Opt (Option Nat) := do
  let s ← get
  if mallocs s.alg.nodes.count then
    set (s.withAlg { s.alg with nodes := s.alg.nodes.alloc ⟨vaddr, none⟩ })
    pure (some s.alg.nodes.count)
  else Program.stop .undefined

/-- The loop of `opt_init`. Only the first node is reachable: the later ones are stored in
`next_node`, which no node points to. -/
def readTrace (mallocs : Mallocs) : List (List UInt8) → Access → SimM Opt Unit
  | [], _ => pure ()
  | buf :: lines, a =>
    if isComment buf then readTrace mallocs lines a
    else do
      let new ← newNode mallocs (sscanf buf a).vaddr
      let s ← get
      if s.alg.head = none then setHead new
      else pure ()
      readTrace mallocs lines (sscanf buf a)

/-- The loop of `is_next_frame`; running out of fuel shows that the links form a cycle. -/
def findNext (p : Option PtePtr) : Nat → Option Nat → Int → SimM Opt Int
  | _, none, _ => pure (-1)
  | 0, some _, _ => Program.stop .undefined
  | fuel + 1, some curr, num => do
    let n ← node (some curr)
    let p' ← Program.require .undefined p
    let e ← readPte p'
    if n.vaddr = e.vaddr then pure num
    else findNext p fuel n.next (countUp num)

end Opt

def isNextFrame (p : Option PtePtr) : SimM Opt Int := do
  let s ← get
  Opt.findNext p s.alg.nodes.count s.alg.head 0

/-- The loop of `opt_evict` over the frames that are left; `pfn` may never be set. -/
def Opt.choose : List Nat → Int → Option Nat → SimM Opt Nat
  | [], _, pfn => Program.require .undefined pfn
  | i :: frames, longest, pfn => do
    let s ← get
    let current ← isNextFrame (s.coremap i).pte
    if current = -1 then pure i
    else if current > longest then Opt.choose frames current (some i)
    else Opt.choose frames longest pfn

def optEvict : SimM Opt Nat := do
  let s ← get
  Opt.choose (List.range s.memsize) (-1) none

def optRef (_ : PtePtr) : SimM Opt Unit := do
  let s ← get
  if s.alg.head ≠ none then
    let current ← Opt.node s.alg.head
    Opt.setHead current.next
    modify fun s' => s'.withAlg { s'.alg with nodes := s'.alg.nodes.free s.alg.head }
  else pure ()

/-- The trace file is missing when it cannot be opened; `type` is what the local variable of
that name happens to hold. -/
def optInit (mallocs : Mallocs) (tracefile : Option (List UInt8)) (type : Char) :
    SimM Opt Unit := do
  Opt.setHead none
  match tracefile with
  | none => Program.stop (.exit 1)
  | some file => Opt.readTrace mallocs (linesOf file) ⟨type, 0⟩

def opt (mallocs : Mallocs) (tracefile : Option (List UInt8)) (type : Char) : Policy Opt :=
  ⟨optInit mallocs tracefile type, optRef, optEvict⟩

/-! ## What the algorithm leaves alone -/

namespace Opt

theorem ownData_node (ptr : Option Nat) : OwnData (node ptr) :=
  OwnData.get.bind fun _ => .require _ _

theorem ownData_setHead (ptr : Option Nat) : OwnData (setHead ptr) := fun s => .of_alg s _

theorem ownData_newNode (mallocs : Mallocs) (vaddr : BitVec 64) :
    OwnData (newNode mallocs vaddr) := by
  intro s
  rw [newNode, Program.get_bind]
  split
  · exact .of_alg s _
  · exact .refl s

theorem ownData_readTrace (mallocs : Mallocs) (lines : List (List UInt8)) (a : Access) :
    OwnData (readTrace mallocs lines a) := by
  induction lines generalizing a with
  | nil => exact .pure ()
  | cons buf lines ih =>
    rw [readTrace]
    split
    · exact ih a
    · refine (ownData_newNode _ _).bind fun new => OwnData.get.bind fun s => ?_
      split
      · exact (ownData_setHead _).bind fun _ => ih _
      · exact OwnData.bind (.pure _) fun _ => ih _

theorem ownData_findNext (p : Option PtePtr) (fuel : Nat) (ptr : Option Nat) (num : Int) :
    OwnData (findNext p fuel ptr num) := by
  induction fuel generalizing ptr num with
  | zero =>
    cases ptr with
    | none => exact .pure _
    | some curr => exact fun s => .refl s
  | succ fuel ih =>
    cases ptr with
    | none => exact .pure _
    | some curr =>
      refine (ownData_node _).bind fun n => (OwnData.require _ p).bind fun p' =>
        (OwnData.readPte p').bind fun e => ?_
      split
      · exact .pure _
      · exact ih _ _

theorem ownData_choose (frames : List Nat) (longest : Int) (pfn : Option Nat) :
    OwnData (choose frames longest pfn) := by
  induction frames generalizing longest pfn with
  | nil => exact .require _ pfn
  | cons i frames ih =>
    refine OwnData.get.bind fun s => OwnData.bind ?_ fun current => ?_
    · exact OwnData.get.bind fun _ => ownData_findNext _ _ _ _
    · split
      · exact .pure _
      · split
        · exact ih _ _
        · exact ih _ _

end Opt

theorem opt_onlyRef (mallocs : Mallocs) (tracefile : Option (List UInt8)) (type : Char) :
    (opt mallocs tracefile type).OnlyRef where
  init := by
    refine (Opt.ownData_setHead none).bind fun _ => ?_
    split
    · exact fun s => .refl s
    · exact Opt.ownData_readTrace _ _ _
  ref _ := by
    refine OwnData.get.bind fun s => ?_
    split
    · exact (Opt.ownData_node _).bind fun n => (Opt.ownData_setHead _).bind fun _ s => .of_alg s _
    · exact .pure _
  evict := OwnData.get.bind fun s => Opt.ownData_choose _ _ _

end OsAssignments.Paging
