import OsAssignments.Ext2.Picks

/-!
# Deciding consistency

For an image without indirect blocks, consistency is a check over its inodes and their direct
pointers. A small image with two directories passes it.
-/

namespace OsAssignments.Ext2

namespace Layout

variable {L : Layout} {m : Memory}

/-- The direct pointers of all inodes. -/
def directSlots (L : Layout) : List Slot :=
  (List.range' 1 L.inodes).flatMap fun n => (List.finRange 12).map fun i => (n, .direct i)

theorem mem_directSlots {n : Nat} {i : Fin 12} :
    (n, .direct i) ∈ L.directSlots ↔ 1 ≤ n ∧ n ≤ L.inodes := by
  simp only [directSlots, List.mem_flatMap, List.mem_range'_1, List.mem_map, List.mem_finRange,
    true_and, Prod.mk.injEq, Pointer.direct.injEq]
  constructor
  · rintro ⟨n', hn', i', rfl, rfl⟩
    omega
  · intro hn
    exact ⟨n, by omega, i, rfl, rfl⟩

/-- Without indirect blocks, the pointers that hold a block are direct. -/
theorem mem_directSlots_of_held {s : Slot} {b : Nat}
    (hdirect : ∀ n ∈ List.range' 1 L.inodes, L.inUse m n = true → L.word m n 12 = 0)
    (hb : L.held (L.inUse m) m s = some b) : s ∈ L.directSlots := by
  obtain ⟨n, p⟩ := s
  obtain ⟨hU, a, ha, hload, hne⟩ := held_eq_some_iff.mp hb
  obtain ⟨hlo, hhi, -⟩ := inUse_iff.mp hU
  have hnull := hdirect n (List.mem_range'_1.mpr ⟨hlo, by omega⟩) hU
  cases p with
  | direct i => exact mem_directSlots.mpr ⟨hlo, hhi⟩
  | indirect =>
    cases ha
    exact absurd (hload.symm.trans hnull) hne
  | entry k =>
    rw [slotAt, if_pos hnull] at ha
    cases ha

/-- Without indirect blocks, a block that no direct pointer holds is held by none. -/
theorem held_ne_of_direct {b : Nat}
    (hdirect : ∀ n ∈ List.range' 1 L.inodes, L.inUse m n = true → L.word m n 12 = 0)
    (hb : b ∉ L.directSlots.filterMap (L.held (L.inUse m) m)) (s : Slot) :
    L.held (L.inUse m) m s ≠ some b := fun hs =>
  hb (List.mem_filterMap.mpr ⟨s, mem_directSlots_of_held hdirect hs, hs⟩)

/-- Without indirect blocks, ownership is exclusive when the direct pointers hold different
granted blocks. -/
theorem exclusiveBlocks_of_direct
    (hdirect : ∀ n ∈ List.range' 1 L.inodes, L.inUse m n = true → L.word m n 12 = 0)
    (hnodup : (L.directSlots.filterMap (L.held (L.inUse m) m)).Nodup)
    (hgranted : ∀ b ∈ L.directSlots.filterMap (L.held (L.inUse m) m),
      b < L.blocks ∧ b ∉ L.metadata ∧ L.marked m b = true) : L.ExclusiveBlocks m :=
  Exclusive.of_nodup L.directSlots (fun _ _ hb => mem_directSlots_of_held hdirect hb) hnodup
    fun b hb => ⟨(hgranted b hb).1, (hgranted b hb).2.1, (hgranted b hb).2.2⟩

end Layout

/-! ## An image with two directories -/

/-- The bytes of a directory entry. -/
def direntBytes (inode recLen fileType : Nat) (name : List UInt8) : List UInt8 :=
  leBytes 4 inode ++ leBytes 2 recLen ++ leBytes 1 name.length ++ leBytes 1 fileType ++ name

def sampleLayout : Layout where
  inodes := 16
  blocks := 128
  blockBitmap := 3
  inodeBitmap := 4
  inodeTable := 5
  nodup := by decide
  inside := by decide
  mapped := by decide

/-- An image whose root directory, in block 7, has one subdirectory `a`, in block 8. With
`lost` set, block 9 is marked used although nothing refers to it. -/
def sample (lost : Bool) : Memory :=
  let free := if lost then 118 else 119
  let writes : List (Nat × List UInt8) := [
    (1024, leBytes 4 16 ++ leBytes 4 128), (1036, leBytes 4 free ++ leBytes 4 5),
    (2048, leBytes 4 3 ++ leBytes 4 4 ++ leBytes 4 5 ++ leBytes 2 free ++ leBytes 2 5),
    (3072, [0xff, if lost then 1 else 0]), (3087, [0x80]), (4096, [0xff, 0x07]),
    -- Inode 2 is the root, inode 11 the directory `a`.
    (5248, leBytes 2 0x41ed ++ [0, 0] ++ leBytes 4 1024), (5288, leBytes 4 7),
    (6400, leBytes 2 0x41ed ++ [0, 0] ++ leBytes 4 1024), (6440, leBytes 4 8),
    (7168, direntBytes 2 12 2 [0x2e]), (7180, direntBytes 2 12 2 [0x2e, 0x2e]),
    (7192, direntBytes 11 1000 2 [0x61]),
    (8192, direntBytes 11 12 2 [0x2e]), (8204, direntBytes 2 1012 2 [0x2e, 0x2e])]
  writes.foldl (fun m w => m.write w.1 w.2) fun _ => 0

/-- The paths `/`, `/a`, `/a/b`, `/a/c`, `/f` and `/a/f`. -/
def rootPath : CString := ⟨[0x2f], by decide⟩
def aPath : CString := ⟨[0x2f, 0x61], by decide⟩
def abPath : CString := ⟨[0x2f, 0x61, 0x2f, 0x62], by decide⟩
def acPath : CString := ⟨[0x2f, 0x61, 0x2f, 0x63], by decide⟩
def fPath : CString := ⟨[0x2f, 0x66], by decide⟩
def afPath : CString := ⟨[0x2f, 0x61, 0x2f, 0x66], by decide⟩

/-- The blocks that the two directories hold. -/
theorem held_sample (lost : Bool) : sampleLayout.directSlots.filterMap
    (sampleLayout.held (sampleLayout.inUse (sample lost)) (sample lost)) = [7, 8] := by
  cases lost <;> decide +kernel

theorem direct_sample (lost : Bool) : ∀ n ∈ List.range' 1 sampleLayout.inodes,
    sampleLayout.inUse (sample lost) n = true → sampleLayout.word (sample lost) n 12 = 0 := by
  cases lost <;> decide +kernel

theorem consistent_sample (lost : Bool) : Consistent sampleLayout (sample lost) where
  holds := by
    constructor <;> cases lost <;> decide +kernel
  reserved := by cases lost <;> decide +kernel
  owners := by
    refine Layout.exclusiveBlocks_of_direct (direct_sample lost) ?_ ?_
    · rw [held_sample]
      decide
    · rw [held_sample]
      cases lost <;> decide +kernel
  groupFreeBlocks := by cases lost <;> decide +kernel
  superFreeBlocks := by cases lost <;> decide +kernel
  groupFreeInodes := by cases lost <;> decide +kernel
  superFreeInodes := by cases lost <;> decide +kernel
  directories := by cases lost <;> decide +kernel

/-- The sample's directories are the root and `a`. -/
theorem directories_sample (lost : Bool) {n : Nat}
    (hused : sampleLayout.inUse (sample lost) n = true)
    (hdir : sampleLayout.isDirectory (sample lost) n = true) : n = 2 ∨ n = 11 := by
  obtain ⟨hlo, hhi, -⟩ := Layout.inUse_iff.mp hused
  have hall : ∀ n ∈ List.range' 1 16, sampleLayout.inUse (sample lost) n = true →
      sampleLayout.isDirectory (sample lost) n = true → n = 2 ∨ n = 11 := by
    cases lost <;> decide +kernel
  have hinodes : sampleLayout.inodes = 16 := rfl
  exact hall n (List.mem_range'_1.mpr ⟨hlo, by omega⟩) hused hdir

end OsAssignments.Ext2
