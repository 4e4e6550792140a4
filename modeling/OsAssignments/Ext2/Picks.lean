import OsAssignments.Ext2.Invariant

/-!
# The blocks a run picks

Both tools take the first free index of the block bitmap for the directory entry, mark it, and
take the next one for the data. The index is used as a block number, so the block picked is
the one before the block that the bit describes.
-/

namespace OsAssignments.Ext2

open Program

/-! ## Commands -/

/-- A run of one of the two tools: `source` names a file on the host, `file` is what is in it. -/
inductive Command
  | mkdir (path : CString)
  | cp (source : CString) (file : Option (List UInt8)) (target : CString)

namespace Command

/-- The status that `main` returns. -/
def main : Command → DiskM Int
  | mkdir path => Ext2.mkdir path
  | cp source file target => Ext2.cp source file target

/-- A run that must be successful. -/
def run (c : Command) : DiskM Unit := do
  let status ← c.main
  Program.ensure (.exit status) (status = 0)

/-- The number of the directory that the run finds for the new entry. -/
def directory (m : Memory) (c : Command) : Option Int :=
  let found := match c with
    | mkdir path => stepToTarget path true m
    | cp _ _ target => stepToTarget target false m
  match found with
  | .ok (some info) _ => some info.iNodeNumber
  | _ => none

/-- The path whose last component becomes the new name. -/
def path : Command → CString
  | mkdir path => path
  | cp source _ _ => source

/-- The length of the new name. -/
def nameLength (c : Command) : Option Int :=
  (generatePosition c.path).map fun indices => indices.lastChar - indices.lastDir + 1

/-- The bytes that are copied. -/
def contents : Command → List UInt8
  | mkdir _ => []
  | cp _ file _ => file.getD []

theorem run_ok {c : Command} {m m' : Memory} {x : Unit} :
    c.run m = .ok x m' ↔ c.main m = .ok 0 m' := by
  rw [run, bind_ok]
  constructor
  · rintro ⟨status, u, h, hs⟩
    obtain ⟨rfl, rfl⟩ := ensure_ok.mp hs
    exact h
  · intro h
    exact ⟨0, m', h, ensure_ok.mpr ⟨rfl, rfl⟩⟩

end Command

/-! ## Picks -/

namespace Layout

/-- The block for the entry and the block for the data. -/
def picks (L : Layout) (m : Memory) : Option (Nat × Nat) :=
  let used := fun i => L.marked m (i + 1)
  match firstClear used L.blocks with
  | none => none
  | some e => (firstClear (Function.update used e true) L.blocks).map fun d => (e, d)

/-- A directory with an unused direct pointer or an indirect block. -/
def HasRoom (L : Layout) (m : Memory) (n : Nat) : Prop :=
  (∃ i < 12, L.word m n i = 0) ∨ L.word m n 12 ≠ 0

theorem picks_eq_some {L : Layout} {m : Memory} {e d : Nat} : L.picks m = some (e, d) ↔
    firstClear (fun i => L.marked m (i + 1)) L.blocks = some e ∧
      firstClear (Function.update (fun i => L.marked m (i + 1)) e true) L.blocks = some d := by
  rw [picks]
  cases he : firstClear (fun i => L.marked m (i + 1)) L.blocks with
  | none => simp
  | some e' =>
    simp only [Option.map_eq_some_iff, Prod.mk.injEq, Option.some.injEq]
    constructor
    · rintro ⟨d', hd, rfl, rfl⟩
      exact ⟨rfl, hd⟩
    · rintro ⟨rfl, hd⟩
      exact ⟨d, hd, rfl, rfl⟩

/-- The bit that the allocator looks at is that of the next block number. -/
theorem Holds.blockBit {L : Layout} {m : Memory} (h : L.Holds m) (i : Nat) :
    blockBit m i = L.marked m (i + 1) := by
  rw [Ext2.blockBit, h.blockBitmapAt, marked, Nat.add_sub_cancel]

theorem Holds.firstClear {L : Layout} {m : Memory} (h : L.Holds m) :
    firstClear (Ext2.blockBit m) (blocksCount m) =
      OsAssignments.firstClear (fun i => L.marked m (i + 1)) L.blocks := by
  rw [h.blocks]
  exact firstClear_congr fun i _ => h.blockBit i

end Layout

end OsAssignments.Ext2
