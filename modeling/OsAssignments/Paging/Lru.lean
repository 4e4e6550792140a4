import OsAssignments.Library.Heap
import OsAssignments.Paging.Abstraction

/-!
# Least recently used replacement

Translation of `lru.c`. The algorithm keeps frame numbers in a linked list with two end
pointers and marks the frames in the list by the `evic` field of the coremap. The outcome
of `malloc` is a parameter: null, or a node whose `next` field nobody has set.
-/

namespace OsAssignments.Paging

/-- An `s_node`. -/
structure SNode where
  next : Option Nat
  ind : Nat

/-- The nodes and the globals of `lru.c`. -/
structure Lru where
  nodes : Heap SNode
  bottom : Option Nat
  top : Option Nat

/-- For each call of `malloc`, the garbage in the `next` field, unless the call fails. -/
abbrev NodeMemory := Nat → Option (Option Nat)

variable {σ : Type}

/-- `coremap[ind]`; an index outside the coremap is undefined. -/
def coremapAt (ind : Nat) : SimM σ Frame := fun s =>
  if ind < s.memsize then .ok (s.coremap ind) s else .error .undefined s

theorem coremapAt_bind {α : Type} {ind : Nat} {s : Sim σ} (h : ind < s.memsize)
    (k : Frame → SimM σ α) : (coremapAt ind >>= k) s = k (s.coremap ind) s := by
  refine Program.bind_of_ok ?_
  rw [coremapAt, if_pos h]

/-- `coremap[ind].evic = evic` -/
def setEvic (ind : Nat) (evic : Int) : SimM σ Unit := do
  let frame ← coremapAt ind
  modify fun s => s.setFrame ind { frame with evic := evic }

namespace Lru

/-- Follow a pointer to a node. -/
def node (ptr : Option Nat) : SimM Lru SNode := do
  let s ← get
  Program.require .undefined (s.alg.nodes.load ptr)

/-- `ptr->next = next` -/
def setNext (ptr next : Option Nat) : SimM Lru Unit := do
  let n ← node ptr
  modify fun s => s.withAlg { s.alg with nodes := s.alg.nodes.store ptr { n with next := next } }

def freeNode (ptr : Option Nat) : SimM Lru Unit :=
  modify fun s => s.withAlg { s.alg with nodes := s.alg.nodes.free ptr }

def setBottom (ptr : Option Nat) : SimM Lru Unit :=
  modify fun s => s.withAlg { s.alg with bottom := ptr }

def setTop (ptr : Option Nat) : SimM Lru Unit :=
  modify fun s => s.withAlg { s.alg with top := ptr }

/-- `malloc` of a node, and the assignment to its `ind`, which needs `malloc` to succeed. -/
def newNode (memory : NodeMemory) (ind : Nat) : SimM Lru (Option Nat) := do
  let s ← get
  let garbage ← Program.require .undefined (memory s.alg.nodes.count)
  set (s.withAlg { s.alg with nodes := s.alg.nodes.alloc ⟨garbage, ind⟩ })
  pure (some s.alg.nodes.count)

/-- The branch of `lru_ref` for a frame that is not marked. -/
def append (memory : NodeMemory) (ind : Nat) : SimM Lru Unit := do
  let refNode ← newNode memory ind
  let s ← get
  if s.alg.top = none ∨ s.alg.bottom = none then
    setTop refNode
    setBottom refNode
  else
    setNext s.alg.bottom refNode
    let n ← node s.alg.bottom
    setBottom n.next

/-- The loop of `lru_ref`: the node of a frame and the node before it, which is unset when
the first node matches. Nothing is returned when a dangling link is followed or, as the
fuel shows, the links form a cycle. -/
def search (nodes : Heap SNode) (ind : Nat) :
    Nat → Option Nat → Option Nat → Option (Option Nat × Option Nat)
  | 0, _, _ => none
  | _ + 1, prev, none => some (prev, none)
  | fuel + 1, prev, some curr =>
    match nodes.cells curr with
    | none => none
    | some n =>
      if n.ind ≠ ind then search nodes ind fuel (some curr) n.next else some (prev, some curr)

/-- The branch of `lru_ref` for a frame that is marked. -/
def moveToTop (ind : Nat) : SimM Lru Unit := do
  let s ← get
  let (prev, curr) ← Program.require .undefined
    (search s.alg.nodes ind (s.alg.nodes.count + 1) none s.alg.bottom)
  let prevNode ← node prev
  let currNode ← node curr
  if prevNode.ind ≠ currNode.ind then
    setNext prev currNode.next
    setNext curr none
    setNext s.alg.top curr
    let topNode ← node s.alg.top
    setTop topNode.next
  else pure ()

end Lru

def lruInit : SimM Lru Unit := do
  Lru.setBottom none
  Lru.setTop none
  modify fun s => { s with
    coremap := fun i => if i < s.memsize then { s.coremap i with evic := 0 } else s.coremap i }

def lruRef (memory : NodeMemory) (p : PtePtr) : SimM Lru Unit := do
  let e ← readPte p
  let ind := (e.frame >>> pageShift).toNat
  let frame ← coremapAt ind
  if frame.evic = 0 then Lru.append memory ind
  else Lru.moveToTop ind

/-- With an empty list the returned index was never set. -/
def lruEvict : SimM Lru Nat := do
  let s ← get
  if s.alg.bottom = none then Program.stop .undefined
  else
    let bottomNode ← Lru.node s.alg.bottom
    let topNode ← Lru.node s.alg.top
    if bottomNode.ind = topNode.ind then
      Lru.setBottom none
      Lru.setTop none
    else
      Lru.setBottom bottomNode.next
      Lru.freeNode s.alg.bottom
    setEvic bottomNode.ind 0
    pure bottomNode.ind

def lru (memory : NodeMemory) : Policy Lru := ⟨lruInit, lruRef memory, lruEvict⟩

/-! ## The operations on nodes -/

namespace Lru

variable {s t : Sim Lru} {ptr next : Option Nat} {n : SNode}

theorem node_ok : node ptr s = .ok n t ↔ s.alg.nodes.load ptr = some n ∧ s = t := by
  rw [node, Program.get_bind, Program.require_ok]

theorem node_bind {α : Type} (h : s.alg.nodes.load ptr = some n) (k : SNode → SimM Lru α) :
    (node ptr >>= k) s = k n s :=
  Program.bind_of_ok (node_ok.mpr ⟨h, rfl⟩)

theorem setBottom_bind {α : Type} (ptr : Option Nat) (k : Unit → SimM Lru α) (s : Sim Lru) :
    (setBottom ptr >>= k) s = k () (s.withAlg { s.alg with bottom := ptr }) := rfl

theorem setTop_bind {α : Type} (ptr : Option Nat) (k : Unit → SimM Lru α) (s : Sim Lru) :
    (setTop ptr >>= k) s = k () (s.withAlg { s.alg with top := ptr }) := rfl

theorem freeNode_bind {α : Type} (ptr : Option Nat) (k : Unit → SimM Lru α) (s : Sim Lru) :
    (freeNode ptr >>= k) s = k () (s.withAlg { s.alg with nodes := s.alg.nodes.free ptr }) := rfl

theorem setNext_ok : setNext ptr next s = .ok () t ↔ ∃ n, s.alg.nodes.load ptr = some n ∧
    t = s.withAlg { s.alg with nodes := s.alg.nodes.store ptr { n with next := next } } := by
  rw [setNext, Program.bind_ok]
  constructor
  · rintro ⟨n, u, hnode, h⟩
    obtain ⟨hn, rfl⟩ := node_ok.mp hnode
    cases h
    exact ⟨n, hn, rfl⟩
  · rintro ⟨n, hn, rfl⟩
    exact ⟨n, s, node_ok.mpr ⟨hn, rfl⟩, rfl⟩

theorem newNode_ok {memory : NodeMemory} {ind : Nat} :
    newNode memory ind s = .ok ptr t ↔ ∃ garbage, memory s.alg.nodes.count = some garbage ∧
      ptr = some s.alg.nodes.count ∧
        t = s.withAlg { s.alg with nodes := s.alg.nodes.alloc ⟨garbage, ind⟩ } := by
  rw [newNode, Program.get_bind, Program.bind_ok]
  constructor
  · rintro ⟨garbage, u, hrequire, h⟩
    obtain ⟨hgarbage, rfl⟩ := Program.require_ok.mp hrequire
    cases h
    exact ⟨garbage, hgarbage, rfl, rfl⟩
  · rintro ⟨garbage, hgarbage, rfl, rfl⟩
    exact ⟨garbage, s, Program.require_ok.mpr ⟨hgarbage, rfl⟩, rfl⟩

end Lru

theorem setEvic_bind {α : Type} {ind : Nat} {evic : Int} {s : Sim σ} (h : ind < s.memsize)
    (k : Unit → SimM σ α) : (setEvic ind evic >>= k) s =
      k () (s.setFrame ind { s.coremap ind with evic := evic }) := by
  refine Program.bind_of_ok ?_
  rw [setEvic, coremapAt_bind h]
  rfl

/-! ## What the algorithm leaves alone -/

namespace Lru

theorem ownData_node (ptr : Option Nat) : OwnData (node ptr) :=
  OwnData.get.bind fun _ => .require _ _

theorem ownData_setNext (ptr next : Option Nat) : OwnData (setNext ptr next) :=
  (ownData_node ptr).bind fun _ s => .of_alg s _

theorem ownData_setBottom (ptr : Option Nat) : OwnData (setBottom ptr) := fun s => .of_alg s _

theorem ownData_setTop (ptr : Option Nat) : OwnData (setTop ptr) := fun s => .of_alg s _

theorem ownData_newNode (memory : NodeMemory) (ind : Nat) : OwnData (newNode memory ind) := by
  intro s
  rw [newNode, Program.get_bind]
  cases hm : memory s.alg.nodes.count with
  | none => exact .refl s
  | some garbage => exact .of_alg s _

theorem ownData_append (memory : NodeMemory) (ind : Nat) : OwnData (append memory ind) := by
  refine (ownData_newNode memory ind).bind fun refNode => OwnData.get.bind fun s => ?_
  split
  · exact (ownData_setTop _).bind fun _ => ownData_setBottom _
  · exact (ownData_setNext _ _).bind fun _ => (ownData_node _).bind fun _ => ownData_setBottom _

theorem ownData_moveToTop (ind : Nat) : OwnData (moveToTop ind) := by
  refine OwnData.get.bind fun s => (OwnData.require _ _).bind fun ⟨prev, curr⟩ =>
    (ownData_node prev).bind fun prevNode => (ownData_node curr).bind fun currNode => ?_
  split
  · exact (ownData_setNext _ _).bind fun _ => (ownData_setNext _ _).bind fun _ =>
      (ownData_setNext _ _).bind fun _ => (ownData_node _).bind fun _ => ownData_setTop _
  · exact .pure _

theorem ownData_coremapAt (ind : Nat) : OwnData (coremapAt ind : SimM σ Frame) := by
  intro s
  unfold coremapAt
  split <;> exact .refl s

theorem ownData_setEvic (ind : Nat) (evic : Int) : OwnData (setEvic ind evic : SimM σ Unit) := by
  intro s
  by_cases hlt : ind < s.memsize
  · rw [setEvic, coremapAt_bind hlt]
    refine .of_evic s _ fun f => ?_
    rw [Function.update_apply]
    split
    · rename_i hf
      exact hf ▸ ⟨rfl, rfl⟩
    · exact ⟨rfl, rfl⟩
  · have herror : setEvic ind evic s = .error .undefined s := by
      rw [setEvic, Program.bind_error, coremapAt, if_neg hlt]
      exact .inl rfl
    rw [herror]
    exact .refl s

end Lru

theorem lru_onlyRef (memory : NodeMemory) : (lru memory).OnlyRef where
  init := by
    refine (Lru.ownData_setBottom none).bind fun _ => (Lru.ownData_setTop none).bind fun _ s => ?_
    refine .of_evic s _ fun f => ?_
    split <;> exact ⟨rfl, rfl⟩
  ref p := by
    refine (OwnData.readPte p).bind fun e => (Lru.ownData_coremapAt _).bind fun frame => ?_
    split
    · exact Lru.ownData_append memory _
    · exact Lru.ownData_moveToTop _
  evict := by
    refine OwnData.get.bind fun s => ?_
    split
    · exact fun s => .refl s
    refine (Lru.ownData_node _).bind fun bottomNode => (Lru.ownData_node _).bind fun topNode => ?_
    have hlast :
        OwnData (setEvic bottomNode.ind 0 >>= fun _ => pure bottomNode.ind : SimM Lru Nat) :=
      (Lru.ownData_setEvic _ _).bind fun _ => .pure _
    split
    · exact (Lru.ownData_setBottom _).bind fun _ => (Lru.ownData_setTop _).bind fun _ => hlast
    · exact (Lru.ownData_setBottom _).bind fun _ => .bind (fun s => .of_alg s _) fun _ => hlast

end OsAssignments.Paging
