import OsAssignments.Ext2.Runs
import OsAssignments.Library.Ownership

/-!
# Consistent images

An image has one block group. Its layout says how many inodes and blocks there are and where
the bitmaps and the inode table are. A slot is a place of an inode that can hold a block
number: one of the twelve direct pointers, the pointer to the indirect block, or an entry of
that block. Block `n` lives at offset `n * 1024` and is described by bit `n - 1`.
-/

namespace OsAssignments.Ext2

/-! ## Layout -/

/-- The super block, the group descriptor, the two bitmaps and the inode table. -/
def metadataBlocks (inodes blockBitmap inodeBitmap inodeTable : Nat) : List Nat :=
  1 :: 2 :: blockBitmap :: inodeBitmap ::
    List.range' inodeTable ((inodes * inodeSize + blockSize - 1) / blockSize)

/-- Where an image keeps its metadata, in blocks that are distinct and lie in the mapping. -/
structure Layout where
  inodes : Nat
  blocks : Nat
  blockBitmap : Nat
  inodeBitmap : Nat
  inodeTable : Nat
  nodup : (metadataBlocks inodes blockBitmap inodeBitmap inodeTable).Nodup
  inside : ∀ b ∈ metadataBlocks inodes blockBitmap inodeBitmap inodeTable, 1 ≤ b ∧ b < blocks
  mapped : blocks ≤ 128

namespace Layout

/-- The blocks that no file may own. -/
def metadata (L : Layout) : List Nat :=
  metadataBlocks L.inodes L.blockBitmap L.inodeBitmap L.inodeTable

/-- The super block and the group descriptor of `m` describe the layout. -/
structure Holds (L : Layout) (m : Memory) : Prop where
  inodes : inodesCount m = L.inodes
  blocks : blocksCount m = L.blocks
  blockBitmap : m.load 2048 4 = L.blockBitmap
  inodeBitmap : m.load 2052 4 = L.inodeBitmap
  inodeTable : m.load 2056 4 = L.inodeTable

/-- Bit `b - 1` of the block bitmap, which describes block `b`. -/
def marked (L : Layout) (m : Memory) (b : Nat) : Bool := m.bit (L.blockBitmap * 1024) (b - 1)

/-- Whether `n` is the number of an inode that the inode bitmap marks used. -/
def inUse (L : Layout) (m : Memory) (n : Nat) : Bool :=
  1 ≤ n && n ≤ L.inodes && m.bit (L.inodeBitmap * 1024) (n - 1)

/-- The offset of inode `n`. -/
def inodeAt (L : Layout) (n : Nat) : Nat := L.inodeTable * 1024 + 128 * (n - 1)

/-- The blocks that describe the layout or that the counters and the bitmaps are in. -/
def Decides (L : Layout) (a : Nat) : Prop :=
  a / 1024 = 1 ∨ a / 1024 = 2 ∨ a / 1024 = L.blockBitmap ∨ a / 1024 = L.inodeBitmap

/-- `i_block[i]` of inode `n`. -/
def word (L : Layout) (m : Memory) (n i : Nat) : Nat := m.load (L.inodeAt n + 40 + 4 * i) 4

end Layout

/-! ## Pointers -/

/-- The pointers of an inode to its blocks. -/
inductive Pointer
  | direct (i : Fin 12)
  | indirect
  | entry (k : Fin 256)
  deriving DecidableEq

/-- The position of a pointer in the order of the blocks of a file. -/
def Pointer.index : Pointer → Nat
  | .direct i => i
  | .indirect => 12
  | .entry k => 13 + k

theorem Pointer.index_inj {p q : Pointer} (h : p.index = q.index) : p = q := by
  cases p <;> cases q <;> simp only [index] at h
  · rw [Fin.ext h]
  · omega
  · omega
  · omega
  · rfl
  · omega
  · omega
  · omega
  · rw [Fin.ext (Nat.add_left_cancel h)]

/-- A pointer of the inode with the given number. -/
abbrev Slot := Nat × Pointer

namespace Layout

/-- Where a pointer is stored; the entries of a missing indirect block are nowhere. -/
def slotAt (L : Layout) (m : Memory) : Slot → Option Nat
  | (n, .direct i) => some (L.inodeAt n + 40 + 4 * i)
  | (n, .indirect) => some (L.inodeAt n + 40 + 4 * 12)
  | (n, .entry k) => if L.word m n 12 = 0 then none else some (L.word m n 12 * 1024 + 4 * k)

/-- The number of the block that a pointer of an inode in `U` points to. -/
def held (L : Layout) (U : Nat → Bool) (m : Memory) (s : Slot) : Option Nat :=
  if U s.1 then
    match L.slotAt m s with
    | none => none
    | some a => if m.load a 4 = 0 then none else some (m.load a 4)
  else none

/-- A block that a pointer may point to. -/
structure Granted (L : Layout) (m : Memory) (b : Nat) : Prop where
  inside : b < L.blocks
  data : b ∉ L.metadata
  marked : L.marked m b = true

/-- No block is referenced by two pointers of inodes in use, no metadata block is referenced,
and every referenced block is marked used. -/
def ExclusiveBlocks (L : Layout) (m : Memory) : Prop :=
  Exclusive (L.Granted m) (L.held (L.inUse m) m)

/-! ## Directories -/

/-- `S_ISDIR` of an inode's mode. -/
def isDirectory (L : Layout) (m : Memory) (n : Nat) : Bool :=
  m.load (L.inodeAt n) 2 &&& 0xf000 = ext2SIfdir

/-- The blocks of a file in order, null pointers included. -/
def fileBlocks (L : Layout) (m : Memory) (n : Nat) : List Nat :=
  (List.range 12).map (L.word m n) ++
    if L.word m n 12 = 0 then []
    else (List.range 256).map fun k => m.load (L.word m n 12 * 1024 + 4 * k) 4

/-- The first `i_size` bytes of the blocks of a file. -/
def contents (L : Layout) (m : Memory) (n : Nat) : List UInt8 :=
  ((L.fileBlocks m n).flatMap fun b => m.bytes (b * 1024) 1024).take (m.load (L.inodeAt n + 4) 4)

end Layout

/-- The offsets of the entries of a directory block from `offset` on, when the `rec_len` chain
ends at offset 1024 and every length is a multiple of 4 that has room for the name. -/
def entryOffsets (m : Memory) (block : Nat) : Nat → Nat → Option (List Nat)
  | 0, _ => none
  | rounds + 1, offset =>
    let recLen := m.load (block * 1024 + offset + 4) 2
    if offset = 1024 then some []
    else if offset + 8 ≤ 1024 ∧ recLen % 4 = 0 ∧
        8 + m.load (block * 1024 + offset + 6) 1 ≤ recLen then
      (entryOffsets m block rounds (offset + recLen)).map (offset :: ·)
    else none

namespace Layout

/-- A directory block whose chain of entries is sound and whose live entries name inodes in
use. -/
def directoryBlock (L : Layout) (m : Memory) (b : Nat) : Bool :=
  (entryOffsets m b 129 0).any fun offsets => offsets.all fun offset =>
    m.load (b * 1024 + offset) 4 = 0 || L.inUse m (m.load (b * 1024 + offset) 4)

/-- The blocks that the size of a directory covers are sound. -/
def wellFormed (L : Layout) (m : Memory) (n : Nat) : Bool :=
  ((L.fileBlocks m n).take (m.load (L.inodeAt n + 4) 4 / 1024)).all fun b =>
    b ≠ 0 && L.directoryBlock m b

end Layout

/-- The unmarked blocks of an image. -/
def Layout.freeBlocks (L : Layout) (m : Memory) : Nat :=
  (List.range' 1 (L.blocks - 1)).countP fun b => !L.marked m b

def Layout.freeInodes (L : Layout) (m : Memory) : Nat :=
  (List.range' 1 L.inodes).countP fun n => !L.inUse m n

/-- A consistent image: metadata blocks are marked used, blocks have one owner, the free counts
match the bitmaps, and directories are well formed. -/
structure Consistent (L : Layout) (m : Memory) : Prop where
  holds : L.Holds m
  reserved : ∀ b ∈ L.metadata, L.marked m b = true
  owners : L.ExclusiveBlocks m
  groupFreeBlocks : m.load 2060 2 = L.freeBlocks m
  superFreeBlocks : m.load 1036 4 = L.freeBlocks m
  groupFreeInodes : m.load 2062 2 = L.freeInodes m
  superFreeInodes : m.load 1040 4 = L.freeInodes m
  directories : ∀ n ∈ List.range' 1 L.inodes, L.inUse m n = true → L.isDirectory m n = true →
    L.wellFormed m n = true

/-! ## Addresses -/

namespace Layout

variable {L : Layout} {m m' : Memory}

theorem mem_metadata {b : Nat} : b ∈ L.metadata ↔ b = 1 ∨ b = 2 ∨ b = L.blockBitmap ∨
    b = L.inodeBitmap ∨ L.inodeTable ≤ b ∧ b < L.inodeTable + (L.inodes * 128 + 1023) / 1024 := by
  rw [metadata, metadataBlocks]
  simp only [List.mem_cons, List.mem_range'_1]
  rfl

theorem lt_blocks {b : Nat} (hb : b ∈ L.metadata) : 1 ≤ b ∧ b < L.blocks := L.inside b hb

/-- The metadata areas do not overlap. -/
theorem separate : 3 ≤ L.blockBitmap ∧ 3 ≤ L.inodeBitmap ∧ L.blockBitmap ≠ L.inodeBitmap ∧
    ∀ b, L.inodeTable ≤ b → b < L.inodeTable + (L.inodes * 128 + 1023) / 1024 →
      3 ≤ b ∧ b ≠ L.blockBitmap ∧ b ≠ L.inodeBitmap := by
  have hnodup := L.nodup
  have hbb := L.lt_blocks (mem_metadata.mpr (.inr (.inr (.inl rfl))))
  have hib := L.lt_blocks (mem_metadata.mpr (.inr (.inr (.inr (.inl rfl)))))
  simp only [metadataBlocks, List.nodup_cons, List.mem_cons, List.mem_range'_1, not_or] at hnodup
  obtain ⟨⟨-, h1b, h1i, h1t⟩, ⟨h2b, h2i, h2t⟩, ⟨hbi, hbt⟩, hit, -⟩ := hnodup
  refine ⟨by omega, by omega, hbi, fun b hlo hhi => ?_⟩
  have hb := L.lt_blocks (mem_metadata.mpr (.inr (.inr (.inr (.inr ⟨hlo, hhi⟩)))))
  have hrange : L.inodeTable ≤ b ∧
      b < L.inodeTable + (L.inodes * inodeSize + blockSize - 1) / blockSize := ⟨hlo, hhi⟩
  refine ⟨?_, fun h => hbt (h ▸ hrange), fun h => hit (h ▸ hrange)⟩
  have hne1 : b ≠ 1 := fun h => h1t (h ▸ hrange)
  have hne2 : b ≠ 2 := fun h => h2t (h ▸ hrange)
  omega

/-- An inode lies in one block of the inode table. -/
theorem inode_block {n a : Nat} (hn : 1 ≤ n ∧ n ≤ L.inodes)
    (ha : L.inodeAt n ≤ a ∧ a < L.inodeAt n + 128) :
    L.inodeTable ≤ a / 1024 ∧ a / 1024 < L.inodeTable + (L.inodes * 128 + 1023) / 1024 := by
  rw [inodeAt] at ha
  omega

theorem inode_mem_metadata {n a : Nat} (hn : 1 ≤ n ∧ n ≤ L.inodes)
    (ha : L.inodeAt n ≤ a ∧ a < L.inodeAt n + 128) : a / 1024 ∈ L.metadata :=
  mem_metadata.mpr (.inr (.inr (.inr (.inr (inode_block hn ha)))))

/-- An inode lies in blocks of the metadata other than those that decide the layout and the bits. -/
theorem inode_apart {n y : Nat} (hn : 1 ≤ n ∧ n ≤ L.inodes)
    (hy : L.inodeAt n ≤ y ∧ y < L.inodeAt n + 128) : 3 ≤ y / 1024 ∧ y / 1024 ≠ L.blockBitmap ∧
      y / 1024 ≠ L.inodeBitmap ∧ y / 1024 ∈ L.metadata := by
  obtain ⟨-, -, -, htable⟩ := L.separate
  have hblock := L.inode_block hn hy
  obtain ⟨h3, hb, hi⟩ := htable _ hblock.1 hblock.2
  exact ⟨h3, hb, hi, L.inode_mem_metadata hn hy⟩

/-- A block that holds no metadata decides nothing and holds no inode. -/
theorem outside_of_data {n y : Nat} (hn : 1 ≤ n ∧ n ≤ L.inodes) (hy : y / 1024 ∉ L.metadata) :
    ¬ L.Decides y ∧ (y < L.inodeAt n ∨ L.inodeAt n + 128 ≤ y) := by
  have hmem := hy
  rw [mem_metadata] at hmem
  simp only [not_or] at hmem
  refine ⟨?_, ?_⟩
  · simp only [Decides, not_or]
    exact ⟨hmem.1, hmem.2.1, hmem.2.2.1, hmem.2.2.2.1⟩
  · by_contra hin
    exact hy (inode_mem_metadata hn (by omega))

/-- The inode table lies in the mapping, so that there are at most 1024 inodes. -/
theorem inodes_le (L : Layout) : L.inodes ≤ 1024 := by
  rcases Nat.eq_zero_or_pos L.inodes with h | h
  · omega
  · have hlast := L.lt_blocks (L.inode_mem_metadata (n := L.inodes) (a := L.inodeAt L.inodes)
      ⟨h, Nat.le_refl _⟩ ⟨Nat.le_refl _, by omega⟩)
    have hmapped := L.mapped
    rw [inodeAt] at hlast
    omega

/-- Inodes are aligned and lie in the mapping. -/
theorem inodeAt_bound {n : Nat} (hn : 1 ≤ n ∧ n ≤ L.inodes) :
    L.inodeAt n % 128 = 0 ∧ L.inodeAt n + 128 ≤ 131072 := by
  have haligned : L.inodeAt n % 128 = 0 := by
    rw [inodeAt]
    omega
  have hblock := L.lt_blocks (L.inode_mem_metadata hn (a := L.inodeAt n + 127) (by omega))
  have hmapped := L.mapped
  exact ⟨haligned, by omega⟩

/-- The program reads `i_block[i]`. -/
theorem read_word {n i : Nat} (hn : 1 ≤ n ∧ n ≤ L.inodes) (hi : i < 15) (m : Memory) :
    read (iBlock (L.inodeAt n) i) 4 m = .ok (L.word m n i) m := by
  have hbound := L.inodeAt_bound hn
  exact read_apply _ (by simp only [iBlock]; omega) (by omega) m

/-- Different inodes do not overlap. -/
theorem inode_disjoint {n n' : Nat} (hn : 1 ≤ n) (hn' : 1 ≤ n') (h : n ≠ n') :
    L.inodeAt n + 128 ≤ L.inodeAt n' ∨ L.inodeAt n' + 128 ≤ L.inodeAt n := by
  rw [inodeAt, inodeAt]
  omega

/-- A block of a file is stored in one of its pointers to blocks of contents. -/
theorem exists_slot_of_fileBlocks {d b : Nat} (hb : b ∈ L.fileBlocks m d) :
    ∃ q a, q ≠ .indirect ∧ L.slotAt m (d, q) = some a ∧ m.load a 4 = b := by
  rw [fileBlocks, List.mem_append] at hb
  rcases hb with hb | hb
  · obtain ⟨i, hi, rfl⟩ := List.mem_map.mp hb
    exact ⟨.direct ⟨i, List.mem_range.mp hi⟩, _, by simp, rfl, rfl⟩
  · by_cases hnull : L.word m d 12 = 0
    · rw [if_pos hnull] at hb
      cases hb
    · rw [if_neg hnull] at hb
      obtain ⟨k, hk, rfl⟩ := List.mem_map.mp hb
      refine ⟨.entry ⟨k, List.mem_range.mp hk⟩, _, by simp, ?_, rfl⟩
      rw [slotAt, if_neg hnull]

theorem ne_of_inUse (L : Layout) {n k : Nat} (hn : L.inUse m n = true)
    (hk : L.inUse m k = false) : n ≠ k := by
  rintro rfl
  rw [hn] at hk
  cases hk

theorem Holds.blockBitmapAt (h : L.Holds m) : blockBitmapAt m = L.blockBitmap * 1024 := by
  have hb := L.lt_blocks (mem_metadata.mpr (.inr (.inr (.inl rfl))))
  have hmapped := L.mapped
  rw [Ext2.blockBitmapAt, h.blockBitmap, offsetOf_eq (by omega)]

theorem Holds.inodeBitmapAt (h : L.Holds m) : inodeBitmapAt m = L.inodeBitmap * 1024 := by
  have hb := L.lt_blocks (mem_metadata.mpr (.inr (.inr (.inr (.inl rfl)))))
  have hmapped := L.mapped
  rw [Ext2.inodeBitmapAt, h.inodeBitmap, offsetOf_eq (by omega)]

/-- A layout with an inode has its table inside the mapping. -/
theorem Holds.inodeTableAt (h : L.Holds m) (hn : 0 < L.inodes) :
    inodeTableAt m = L.inodeTable * 1024 := by
  have hb := L.lt_blocks (mem_metadata.mpr (.inr (.inr (.inr (.inr
    (show L.inodeTable ≤ L.inodeTable ∧ _ by omega))))))
  have hmapped := L.mapped
  rw [Ext2.inodeTableAt, h.inodeTable, offsetOf_eq (by omega)]

theorem Holds.getInode {n : Nat} (h : L.Holds m) (hn : 1 ≤ n ∧ n ≤ L.inodes) :
    getInode n m = .ok (L.inodeAt n : Int) m := by
  rw [getInode_natCast hn.1, Ext2.inodeAt, h.inodeTableAt (by omega), inodeAt]

/-- The layout depends on the first fields of the super block and the group descriptor. -/
theorem Holds.congr (h : L.Holds m)
    (hsame : ∀ a, 1024 ≤ a ∧ a < 1032 ∨ 2048 ≤ a ∧ a < 2060 → m' a = m a) : L.Holds m' := by
  have hload : ∀ p, 1024 ≤ p ∧ p + 4 ≤ 1032 ∨ 2048 ≤ p ∧ p + 4 ≤ 2060 →
      m'.load p 4 = m.load p 4 := fun p hp => Memory.load_congr fun i hi => hsame _ (by omega)
  exact ⟨(hload 1024 (by omega)).trans h.inodes, (hload 1028 (by omega)).trans h.blocks,
    (hload 2048 (by omega)).trans h.blockBitmap, (hload 2052 (by omega)).trans h.inodeBitmap,
    (hload 2056 (by omega)).trans h.inodeTable⟩

end Layout

end OsAssignments.Ext2
