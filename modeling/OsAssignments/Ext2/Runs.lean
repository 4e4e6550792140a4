import OsAssignments.Ext2.Allocate

/-!
# Successful runs of the two tools

Searching a path changes nothing. A run of `ext2_mkdir` or `ext2_cp` that ends with success
goes through fixed stages; each is named here with the memory before and after it.
-/

namespace OsAssignments.Ext2

open Program

/-! ## Searching leaves the image alone -/

variable {α β : Type}

/-- Every outcome leaves the image as it was. -/
abbrev ReadOnly (x : DiskM α) : Prop := Relates Eq x

theorem ReadOnly.bind {x : DiskM α} {f : α → DiskM β} (hx : ReadOnly x)
    (hf : ∀ a, ReadOnly (f a)) : ReadOnly (x >>= f) :=
  Relates.bind (R := Eq) Eq.trans hx hf

theorem ReadOnly.pure (a : α) : ReadOnly (Pure.pure a : DiskM α) := Relates.pure (fun _ => rfl) a

theorem ReadOnly.stop (e : Stop) : ReadOnly (Program.stop e : DiskM α) :=
  Relates.stop (fun _ => rfl) e

theorem ReadOnly.require (e : Stop) (x : Option α) : ReadOnly (Program.require e x : DiskM α) :=
  Relates.require (fun _ => rfl) e x

theorem ReadOnly.ite {c : Prop} [Decidable c] {x y : DiskM α} (hx : ReadOnly x)
    (hy : ReadOnly y) : ReadOnly (if c then x else y) := by
  split
  · exact hx
  · exact hy

theorem readOnly_read (a : Int) (n : Nat) : ReadOnly (read a n) := by
  rw [read, access]
  exact .ite (fun _ => rfl) (.stop _)

theorem readOnly_readBytes (a : Int) (n : Nat) : ReadOnly (readBytes a n) := by
  rw [readBytes, access]
  exact .ite (fun _ => rfl) (.stop _)

theorem readOnly_getInode (n : Int) : ReadOnly (getInode n) := fun m => by
  rw [getInode_apply]
  rfl

theorem readOnly_readEntry (block : Int) (size field n : Nat) :
    ReadOnly (readEntry block size field n) :=
  .ite (readOnly_read _ _) (.stop _)

theorem readOnly_readName (block : Int) (size : Nat) : ReadOnly (readName block size) :=
  .bind (readOnly_readEntry _ _ _ _) fun _ =>
    .ite (.bind (readOnly_readBytes _ _) fun _ => .pure _) (.stop _)

theorem readOnly_entryMatches (path : CString) (start last : Int) (dirsOnly : Bool)
    (block : Int) (size : Nat) : ReadOnly (entryMatches path start last dirsOnly block size) := by
  have hcompare := ReadOnly.bind (readOnly_readName block size) fun name =>
    ReadOnly.require .undefined (matchName path name start last)
  exact .ite (.bind (readOnly_readEntry _ _ _ _) fun _ => .ite (.pure _) hcompare) hcompare

theorem readOnly_findEntry (path : CString) (start last : Int) (dirsOnly : Bool) (block : Int)
    (iSize rounds size : Nat) :
    ReadOnly (findEntry path start last dirsOnly block iSize rounds size) := by
  induction rounds generalizing size with
  | zero => exact .stop _
  | succ rounds ih =>
    exact .ite (.bind (readOnly_entryMatches _ _ _ _ _ _) fun _ => .ite (.pure _)
      (.bind (readOnly_readEntry _ _ _ _) fun _ => ih _)) (.pure _)

theorem readOnly_searchInode (path : CString) (start last : Int) (dirsOnly : Bool) (inode : Int) :
    ReadOnly (searchInode path start last dirsOnly inode) := by
  refine .bind (readOnly_read _ _) fun _ => .bind (readOnly_read _ _) fun _ =>
    .bind (readOnly_findEntry _ _ _ _ _ _ _ _) fun found => ?_
  cases found with
  | none => exact .pure _
  | some entry => exact .pure _

theorem readOnly_walk (path : CString) (indices : ThreeIndices) (flag : Bool) (rounds : Nat)
    (inode anchor : Int) : ReadOnly (walk path indices flag rounds inode anchor) := by
  induction rounds generalizing inode anchor with
  | zero => exact .stop _
  | succ rounds ih =>
    refine .bind (readOnly_searchInode _ _ _ _ _) fun found => ?_
    cases found with
    | none => exact .pure _
    | some found =>
      exact .bind (readOnly_readEntry _ _ _ _) fun _ => .bind (readOnly_getInode _) fun _ =>
        .bind (readOnly_readEntry _ _ _ _) fun _ => .ite (.pure _) (ih _ _)

/-- `step_to_target` only reads. -/
theorem readOnly_stepToTarget (path : CString) (flag : Bool) : ReadOnly (stepToTarget path flag) :=
  .bind (.require _ _) fun _ => .bind (readOnly_getInode _) fun _ =>
    .ite (.ite (.pure _) (.bind (readOnly_getInode _) fun _ => .pure _)) (readOnly_walk _ _ _ _ _ _)

theorem readOnly_runAll {f : β → DiskM Unit} (hf : ∀ b, ReadOnly (f b)) (bs : List β) :
    ReadOnly (runAll f bs) := by
  induction bs with
  | nil => exact .pure _
  | cons b bs ih => exact .bind (hf b) fun _ => ih

theorem readOnly_printInfo : ReadOnly printInfo := by
  have hbits : ∀ (bitmap : Int) (count : Nat), ReadOnly (printBits bitmap count) :=
    fun bitmap count => readOnly_runAll (fun i => .bind (readOnly_read _ _) fun _ => .pure _) _
  exact .bind (readOnly_read _ _) fun _ => .bind (readOnly_read _ _) fun _ =>
    .bind (hbits _ _) fun _ => .bind (readOnly_read _ _) fun _ =>
      .bind (readOnly_read _ _) fun _ => hbits _ _

/-! ## The last stages -/

/-- Memory after the new directory's inode and its two entries are filled in. -/
def withDirectory (m : Memory) (inode k d parent : Nat) : Memory :=
  withEntry (withEntry (((markBlock m d).store (inode + 40) 4 d).store inode 2 ext2SIfreg)
    (d * 1024) ext2FtDir (k + 1) 12 [0x2e]) (d * 1024 + 96) ext2FtDir parent 12 [0x2e, 0x2e]

theorem fillDirectory_ok {inode k d : Nat} {parent : Int} {m m' : Memory} {x : Unit}
    (hk : k + 1 < 2 ^ 32) (h : fillDirectory inode k d parent m = .ok x m') :
    d * 1024 + 106 ≤ 131072 ∧ m' = withDirectory m inode k d (toUnsigned (parent + 1)) := by
  rw [fillDirectory] at h
  obtain ⟨_, m₁, h₁, h⟩ := bind_ok.mp h
  obtain ⟨_, m₂, h₂, h⟩ := bind_ok.mp h
  obtain ⟨_, m₃, h₃, h⟩ := bind_ok.mp h
  obtain ⟨_, m₄, h₄, h⟩ := bind_ok.mp h
  obtain ⟨-, rfl⟩ := setBlockBitmap_ok h₁
  obtain ⟨p₂, hp₂, -, rfl⟩ := write_ok.mp h₂
  obtain ⟨p₃, hp₃, -, rfl⟩ := write_ok.mp h₃
  obtain ⟨p₄, hp₄, -, rfl⟩ := fillEntry_ok h₄
  obtain ⟨p₅, hp₅, hbound, rfl⟩ := fillEntry_ok h
  rw [getBlock, show blockSize = 1024 from rfl] at hp₄ hp₅
  simp only [iBlock, iMode, dirEntrySize, List.length_cons, List.length_nil] at hp₂ hp₃ hp₅ hbound
  obtain rfl : p₂ = inode + 40 := by omega
  obtain rfl : p₃ = inode := by omega
  obtain rfl : p₄ = d * 1024 := by omega
  obtain rfl : p₅ = d * 1024 + 96 := by omega
  have hinode : toUnsigned ((k : Int) + 1) = k + 1 := toUnsigned_natCast (n := k + 1) hk
  rw [hinode, toUnsigned_natCast (by omega)]
  exact ⟨by omega, rfl⟩

/-- The fields of the group descriptor and the super block that are counted. -/
theorem countOne_stores {m m' : Memory} {x : Unit} (h : countOne m = .ok x m') :
    ∃ v₁ v₂ v₃ v₄ v₅ : Nat, v₂ = ((m.load 2062 2 + (-1 : Int)) % 256 ^ 2).toNat ∧
      v₃ = ((m.load 2060 2 + (-1 : Int)) % 256 ^ 2).toNat ∧
      v₄ = ((m.load 1040 4 + (-1 : Int)) % 256 ^ 4).toNat ∧
      v₅ = ((m.load 1036 4 + (-1 : Int)) % 256 ^ 4).toNat ∧
      m' = ((((m.store 2064 2 v₁).store 2062 2 v₂).store 2060 2 v₃).store 1040 4 v₄).store
        1036 4 v₅ := by
  rw [countOne] at h
  obtain ⟨_, m₁, h₁, h⟩ := bind_ok.mp h
  obtain ⟨_, m₂, h₂, h⟩ := bind_ok.mp h
  obtain ⟨_, m₃, h₃, h⟩ := bind_ok.mp h
  obtain ⟨_, m₄, h₄, h⟩ := bind_ok.mp h
  obtain ⟨p₁, hp₁, -, rfl⟩ := add_ok.mp h₁
  obtain ⟨p₂, hp₂, -, rfl⟩ := add_ok.mp h₂
  obtain ⟨p₃, hp₃, -, rfl⟩ := add_ok.mp h₃
  obtain ⟨p₄, hp₄, -, rfl⟩ := add_ok.mp h₄
  obtain ⟨p₅, hp₅, -, rfl⟩ := add_ok.mp h
  simp only [bgUsedDirsCount, bgFreeInodesCount, bgFreeBlocksCount, sFreeInodesCount,
    sFreeBlocksCount, groupDesc, superBlock] at hp₁ hp₂ hp₃ hp₄ hp₅
  obtain rfl : p₁ = 2064 := by omega
  obtain rfl : p₂ = 2062 := by omega
  obtain rfl : p₃ = 2060 := by omega
  obtain rfl : p₄ = 1040 := by omega
  obtain rfl : p₅ = 1036 := by omega
  simp (disch := decide) only [Memory.load_store_of_disjoint]
  exact ⟨_, _, _, _, _, rfl, rfl, rfl, rfl, rfl⟩

/-- The counters lie in four bytes of the group descriptor and eight of the super block. -/
theorem countOne_ok {m m' : Memory} {x : Unit} (h : countOne m = .ok x m') (a : Nat)
    (hsuper : a < 1036 ∨ 1044 ≤ a) (hgroup : a < 2060 ∨ 2066 ≤ a) : m' a = m a := by
  obtain ⟨_, _, _, _, _, -, -, -, -, rfl⟩ := countOne_stores h
  rw [Memory.store_apply_of_outside (by omega), Memory.store_apply_of_outside (by omega),
    Memory.store_apply_of_outside (by omega), Memory.store_apply_of_outside (by omega),
    Memory.store_apply_of_outside (by omega)]

/-- `ext2_cp` and `ext2_mkdir` count one inode and one block less. -/
theorem countOne_counts {m m' : Memory} {x : Unit} (h : countOne m = .ok x m') :
    m.load 1036 4 = (m'.load 1036 4 + 1) % 2 ^ 32 ∧ m.load 1040 4 = (m'.load 1040 4 + 1) % 2 ^ 32 ∧
      m.load 2060 2 = (m'.load 2060 2 + 1) % 2 ^ 16 ∧
      m.load 2062 2 = (m'.load 2062 2 + 1) % 2 ^ 16 := by
  obtain ⟨_, _, _, _, _, hinodes', hblocks', hinodes, hblocks, rfl⟩ := countOne_stores h
  have h₁ := m.load_lt 1036 4
  have h₂ := m.load_lt 1040 4
  have h₃ := m.load_lt 2060 2
  have h₄ := m.load_lt 2062 2
  simp (disch := decide) only [Memory.load_store_of_disjoint, Memory.load_store_same]
  omega

/-! ## Stages of a successful run -/

/-- A run of `ext2_mkdir` that returns 0: the parent it finds, the indices of the inode and of
the block it takes, and the memory after each stage. -/
structure MkdirRun (path : CString) (m m' : Memory) where
  indices : ThreeIndices
  parent : INodeInfo
  index : Nat
  data : Nat
  taken : Memory
  entered : Memory
  cleared : Memory
  counted : Memory
  position : generatePosition path = some indices
  found : stepToTarget path true m = .ok (some parent) m
  free : freeInode m = some index
  mapped : inodeTableAt m + 128 * index + 128 ≤ 131072
  take : taken = m.fill (inodeTableAt m + 128 * index) 128 0
  enter : addEntry parent.iNodeNumber ext2FtDir index path indices.lastDir indices.lastChar
    taken = .ok () entered
  clear : findFreeBlock entered = .ok data cleared
  count : countOne (withDirectory cleared (inodeTableAt taken + 128 * index) index data
    (toUnsigned (parent.iNodeNumber + 1))) = .ok () counted
  data_mapped : data * 1024 + 106 ≤ 131072
  bit_mapped : inodeBitmapAt counted + index / 8 + 1 ≤ 131072
  mark : m' = markInode counted index

/-- How a run of `ext2_mkdir` ends: the directory is not found, the name matches an entry of it, no
inode is free, or the new directory is there. -/
theorem mkdir_cases {path : CString} {m m' : Memory} {r : Int} (h : mkdir path m = .ok r m') :
    ∃ indices found, generatePosition path = some indices ∧
      stepToTarget path true m = .ok found m ∧
      (found = none ∧ r = enoent ∧ m' = m ∨ ∃ parent existing, found = some parent ∧
        searchInode path indices.lastDir indices.lastChar true parent.iNode m =
          .ok existing m ∧
        (existing ≠ none ∧ r = enoent ∧ m' = m ∨ existing = none ∧
          (findFreeInode m = .ok (-1) m' ∧ r = enoent ∨
            r = 0 ∧ Nonempty (MkdirRun path m m')))) := by
  rw [mkdir] at h
  obtain ⟨indices, u, hrequire, h⟩ := bind_ok.mp h
  obtain ⟨hposition, rfl⟩ := require_ok.mp hrequire
  obtain ⟨found, u, hfound, h⟩ := bind_ok.mp h
  obtain rfl : m = u := (readOnly_stepToTarget path true).of_ok hfound
  refine ⟨indices, found, hposition, hfound, ?_⟩
  cases found with
  | none =>
    cases h
    exact .inl ⟨rfl, rfl, rfl⟩
  | some parent =>
    obtain ⟨existing, u, hexisting, h⟩ := bind_ok.mp h
    obtain rfl : m = u := (readOnly_searchInode _ _ _ _ _).of_ok hexisting
    refine .inr ⟨parent, existing, rfl, hexisting, ?_⟩
    cases existing with
    | some entry =>
      cases h
      exact .inl ⟨Option.some_ne_none entry, rfl, rfl⟩
    | none =>
      refine .inr ⟨rfl, ?_⟩
      obtain ⟨i, taken, htake, h⟩ := bind_ok.mp h
      by_cases hi : i = -1
      · rw [if_pos hi] at h
        cases h
        exact .inl ⟨hi ▸ htake, rfl⟩
      · rw [if_neg hi] at h
        obtain ⟨k, rfl, hfree, hmapped, rfl⟩ := findFreeInode_ok htake hi
        have hk : k + 1 < 2 ^ 32 := by omega
        rw [bind_of_ok (getInode_succ k _)] at h
        obtain ⟨_, entered, henter, h⟩ := bind_ok.mp h
        obtain ⟨j, cleared, hclear, h⟩ := bind_ok.mp h
        obtain ⟨d, rfl, -⟩ := findFreeBlock_ok hclear
        rw [if_neg (by omega)] at h
        obtain ⟨_, filled, hfill, h⟩ := bind_ok.mp h
        obtain ⟨_, counted, hcount, h⟩ := bind_ok.mp h
        obtain ⟨_, marked, hmark, hreturn⟩ := bind_ok.mp h
        cases hreturn
        obtain ⟨hdata, rfl⟩ := fillDirectory_ok hk hfill
        obtain ⟨hbit, hmarked⟩ := setInodeBitmap_ok hmark
        exact .inr ⟨rfl, ⟨indices, parent, k, d, _, entered, cleared, counted, hposition, hfound,
          hfree, hmapped, rfl, henter, hclear, hcount, hdata, hbit, hmarked⟩⟩

theorem mkdir_ok {path : CString} {m m' : Memory} (h : mkdir path m = .ok 0 m') :
    Nonempty (MkdirRun path m m') := by
  obtain ⟨_, _, -, -, ⟨-, hr, -⟩ | ⟨_, _, -, -, ⟨-, hr, -⟩ | ⟨-, ⟨-, hr⟩ | ⟨-, hrun⟩⟩⟩⟩ :=
    mkdir_cases h
  · exact absurd hr (by decide)
  · exact absurd hr (by decide)
  · exact absurd hr (by decide)
  · exact hrun

/-- A run of `ext2_cp` up to the new entry: the directory it finds, the index of the inode it
takes, and the memory after each stage. -/
structure CpStart (source : CString) (file : Option (List UInt8)) (target : CString)
    (m : Memory) where
  contents : List UInt8
  indices : ThreeIndices
  directory : INodeInfo
  index : Nat
  taken : Memory
  claimed : Memory
  entered : Memory
  opened : file = some contents
  found : stepToTarget target false m = .ok (some directory) m
  position : generatePosition source = some indices
  free : freeInode m = some index
  mapped : inodeTableAt m + 128 * index + 128 ≤ 131072
  take : taken = m.fill (inodeTableAt m + 128 * index) 128 0
  claim : claimed = markInode (taken.store (inodeTableAt taken + 128 * index) 2 ext2SIfreg) index
  enter : addEntry directory.iNodeNumber ext2FtRegFile index source indices.lastDir
    indices.lastChar claimed = .ok () entered

/-- A run of `ext2_cp` that returns 0. -/
structure CpRun (source : CString) (file : Option (List UInt8)) (target : CString)
    (m m' : Memory) extends CpStart source file target m where
  filled : Memory
  fill : fillFile (inodeTableAt taken + 128 * index : Nat) contents entered = .ok () filled
  count : countOne filled = .ok () m'

theorem cp_ok {source target : CString} {file : Option (List UInt8)} {m m' : Memory} {r : Int}
    (h : cp source file target m = .ok r m') :
    r = 0 ∧ Nonempty (CpRun source file target m m') := by
  rw [cp] at h
  obtain ⟨contents, u, hopen, h⟩ := bind_ok.mp h
  obtain ⟨hopened, rfl⟩ := require_ok.mp hopen
  obtain ⟨found, u, hfound, h⟩ := bind_ok.mp h
  obtain rfl : m = u := (readOnly_stepToTarget target false).of_ok hfound
  obtain ⟨directory, u, hdirectory, h⟩ := bind_ok.mp h
  obtain ⟨rfl, rfl⟩ := require_ok.mp hdirectory
  obtain ⟨indices, u, hrequire, h⟩ := bind_ok.mp h
  obtain ⟨hposition, rfl⟩ := require_ok.mp hrequire
  obtain ⟨existing, u, hexisting, h⟩ := bind_ok.mp h
  obtain rfl : m = u := (readOnly_searchInode _ _ _ _ _).of_ok hexisting
  obtain ⟨_, u, hnew, h⟩ := bind_ok.mp h
  obtain ⟨-, rfl⟩ := ensure_ok.mp hnew
  obtain ⟨_, u, hprint, h⟩ := bind_ok.mp h
  obtain rfl : m = u := readOnly_printInfo.of_ok hprint
  obtain ⟨i, taken, htake, h⟩ := bind_ok.mp h
  obtain ⟨_, u, hspace, h⟩ := bind_ok.mp h
  obtain ⟨hi, rfl⟩ := ensure_ok.mp hspace
  obtain ⟨k, rfl, hfree, hmapped, rfl⟩ := findFreeInode_ok htake hi
  rw [bind_of_ok (getInode_succ k _)] at h
  obtain ⟨_, u, hmode, h⟩ := bind_ok.mp h
  obtain ⟨p, hp, -, rfl⟩ := write_ok.mp hmode
  obtain rfl := Int.ofNat.inj hp
  obtain ⟨_, claimed, hclaim, h⟩ := bind_ok.mp h
  obtain ⟨-, hclaimed⟩ := setInodeBitmap_ok hclaim
  obtain ⟨_, u, hprint, h⟩ := bind_ok.mp h
  obtain rfl : claimed = u := readOnly_printInfo.of_ok hprint
  obtain ⟨_, entered, henter, h⟩ := bind_ok.mp h
  obtain ⟨_, u, hprint, h⟩ := bind_ok.mp h
  obtain rfl : entered = u := readOnly_printInfo.of_ok hprint
  obtain ⟨_, filled, hfill, h⟩ := bind_ok.mp h
  obtain ⟨_, counted, hcount, hreturn⟩ := bind_ok.mp h
  cases hreturn
  exact ⟨rfl, ⟨⟨contents, indices, directory, k, _, claimed, entered, hopened, hfound, hposition,
    hfree, hmapped, rfl, hclaimed, henter⟩, filled, hfill, hcount⟩⟩

end OsAssignments.Ext2
