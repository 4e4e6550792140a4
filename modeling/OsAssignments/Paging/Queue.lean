import OsAssignments.Paging.Abstraction

/-!
# Random and first-in first-out replacement

Translation of `rand.c` and `fifo.c`. Neither algorithm looks at references, so neither
changes anything but its own data.
-/

namespace OsAssignments.Paging

/-! ## `fifo.c` -/

/-- The data is the index `ind` of the frame to be evicted next. -/
def fifoInit : SimM Nat Unit := modify fun s => { s with alg := 0 }

def fifoRef (_ : PtePtr) : SimM Nat Unit := pure ()

def fifoEvict : SimM Nat Nat := fun s =>
  if s.memsize = 0 then .error .undefined s
  else .ok s.alg { s with alg := (s.alg + 1) % s.memsize }

def fifo : Policy Nat := ⟨fifoInit, fifoRef, fifoEvict⟩

theorem fifo_onlyRef : fifo.OnlyRef where
  init s := ChangesOnlyRef.of_alg s 0
  ref _ s := .refl s
  evict s := by
    change ChangesOnlyRef s (Program.final (fifoEvict s))
    unfold fifoEvict
    split
    · exact .refl s
    · exact ChangesOnlyRef.of_alg s _

/-! ## `rand.c` -/

/-- The values `random` will return. -/
abbrev Random := List Nat

def randInit : SimM Random Unit := pure ()

def randRef (_ : PtePtr) : SimM Random Unit := pure ()

def randEvict : SimM Random Nat := fun s =>
  if s.memsize = 0 then .error .undefined s
  else .ok (s.alg.headD 0 % s.memsize) { s with alg := s.alg.tail }

def rand : Policy Random := ⟨randInit, randRef, randEvict⟩

theorem rand_onlyRef : rand.OnlyRef where
  init s := .refl s
  ref _ s := .refl s
  evict s := by
    change ChangesOnlyRef s (Program.final (randEvict s))
    unfold randEvict
    split
    · exact .refl s
    · exact ChangesOnlyRef.of_alg s _

end OsAssignments.Paging
