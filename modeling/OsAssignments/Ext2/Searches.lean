import OsAssignments.Ext2.Sample

/-!
# What the searches for free space touch

Both searches end by zeroing what they found. `find_free_inode` zeroes the inode of the index
it returns, and the 128 bytes before the inode table when it returns -1. `find_free_block`
zeroes the block *before* the one that the bit describes.
-/

namespace OsAssignments.Ext2

open Program

variable {L : Layout} {m m' : Memory}

/-- Two images differ at most in the `n` bytes at `p`. -/
def SameOutside (p n : Nat) (m m' : Memory) : Prop := ∀ a, a < p ∨ p + n ≤ a → m' a = m a

/-- A search returns either -1 and the same image, or the index of a clear bit after changing
no byte outside the object that the bit describes. -/
def TouchesFree (search : DiskM Int) (bit : Nat → Bool) (place : Nat → Nat) (size : Nat)
    (m : Memory) : Prop :=
  ∃ r m', search m = .ok r m' ∧ (r = -1 ∧ m' = m ∨
    ∃ i : Nat, r = i ∧ bit i = false ∧ SameOutside (place i) size m m')

/-- Both searches touch only free space. Block `n` lives at offset `n * 1024` and is described
by bit `n - 1`, inode `n` by inode bit `n - 1`. -/
def SearchesTouchFree (L : Layout) (m : Memory) : Prop :=
  TouchesFree findFreeBlock (fun i => L.marked m (i + 1)) (fun i => (i + 1) * 1024) 1024 m ∧
    TouchesFree findFreeInode (fun i => m.bit (L.inodeBitmap * 1024) i)
      (fun i => L.inodeAt (i + 1)) 128 m

/-- The `n` bytes at `p` lie in the mapping and are zero. -/
def ZeroAt (p n : Nat) (m : Memory) : Prop := p + n ≤ 131072 ∧ ∀ a, p ≤ a → a < p + n → m a = 0

/-- Zeroing bytes changes nothing exactly when they are zero already. -/
theorem fill_zero_eq_iff {p n : Nat} :
    m.fill p n 0 = m ↔ ∀ a, p ≤ a → a < p + n → m a = 0 := by
  constructor
  · intro h a hlo hhi
    rw [← h]
    exact Memory.fill_apply_of_inside ⟨hlo, hhi⟩
  · intro h
    funext a
    by_cases ha : p ≤ a ∧ a < p + n
    · rw [Memory.fill_apply_of_inside ha, h a ha.1 ha.2]
    · exact Memory.fill_apply_of_outside (by omega)

/-! ## The loop over a bitmap returns -/

theorem findClear_returns {p first rounds i : Nat} (h : p + (i + rounds + 7) / 8 ≤ 131072) :
    ∃ r, findClear p first rounds i (i % 8) m = .ok r m := by
  induction rounds generalizing i with
  | zero => exact ⟨-1, rfl⟩
  | succ rounds ih =>
    rw [findClear, bind_of_ok (read_apply _ (p := p + i / 8) (by omega) (by omega) m)]
    by_cases hfound : m.load (p + i / 8) 1 &&& 1 <<< (i % 8) = 0 ∧ first ≤ i
    · rw [if_pos hfound]
      exact ⟨i, rfl⟩
    · rw [if_neg hfound, shift_succ]
      exact ih (by omega)

/-- What a search returns for the index it found. -/
def indexOrNone : Option Nat → Int
  | some i => i
  | none => -1

/-- The loop returns the first index from `first` on whose bit is clear. -/
theorem findClear_eq {p n : Nat} (first : Nat) (h : p + (n + 7) / 8 ≤ 131072) :
    findClear p first n 0 0 m =
      .ok (indexOrNone (firstClear (fun i => decide (i < first) || m.bit p i) n)) m := by
  have hreturns : ∃ r, findClear p first n 0 (0 % 8) m = .ok r m :=
    findClear_returns (by rwa [Nat.zero_add])
  obtain ⟨r, hr⟩ := hreturns
  refine hr.trans ?_
  obtain ⟨-, ⟨rfl, hfree⟩ | ⟨k, rfl, hfree⟩⟩ := findClear_cases hr
  · rw [hfree]
    rfl
  · rw [hfree]
    rfl

/-- The block whose number is the first free index is zeroed when it lies in the mapping. -/
theorem findFreeBlock_apply (hbitmap : blockBitmapAt m + (blocksCount m + 7) / 8 ≤ 131072) {e : Nat}
    (he : firstClear (blockBit m) (blocksCount m) = some e) (hbound : e * 1024 + 1024 ≤ 131072) :
    findFreeBlock m = .ok e (m.fill (e * 1024) 1024 0) := by
  have hsearch := findClear_eq (m := m) 0 hbitmap
  simp only [Nat.not_lt_zero, decide_false, Bool.false_or] at hsearch
  rw [show firstClear (fun i => m.bit (blockBitmapAt m) i) (blocksCount m) = some e from he]
    at hsearch
  change findClear _ 0 (m.load 1028 4) 0 0 m = .ok (indexOrNone (some e)) m at hsearch
  have hset : memset (getBlock (indexOrNone (some e) + 1)) 0 blockSize m =
      .ok () (m.fill (e * 1024) 1024 0) := by
    refine memset_ok.mpr ⟨e * 1024, ?_, hbound, rfl⟩
    rw [getBlock, indexOrNone, show blockSize = 1024 from rfl]
    omega
  rw [findFreeBlock, bind_of_ok (getBlockBitmap_apply m),
    bind_of_ok (read_apply sBlocksCount (p := 1028) rfl (by decide) m), bind_of_ok hsearch,
    bind_of_ok hset]
  rfl

/-- The 128 bytes that the search for an inode zeroes, when they lie in the mapping. -/
theorem findFreeInode_apply (hbitmap : inodeBitmapAt m + (inodesCount m + 7) / 8 ≤ 131072) {p : Nat}
    (hp : (p : Int) = inodeTableAt m + 128 * indexOrNone (freeInode m))
    (hbound : p + 128 ≤ 131072) :
    findFreeInode m = .ok (indexOrNone (freeInode m)) (m.fill p 128 0) := by
  rw [findFreeInode, bind_of_ok (getInodeBitmap_apply m),
    bind_of_ok (read_apply sInodesCount (p := 1024) rfl (by decide) m)]
  have hsearch := findClear_eq (m := m) 11 hbitmap
  change findClear _ 11 (m.load 1024 4) 0 0 m = .ok (indexOrNone (freeInode m)) m at hsearch
  have hset : memset (inodeTableAt m + 128 * (indexOrNone (freeInode m) + 1 - 1)) 0 inodeSize m =
      .ok () (m.fill p 128 0) := by
    refine memset_ok.mpr ⟨p, ?_, hbound, rfl⟩
    rw [Int.add_sub_cancel]
    exact hp.symm
  rw [bind_of_ok hsearch, bind_of_ok (getInode_apply _ m), bind_of_ok hset]
  rfl

/-- The bitmaps lie in the mapping. -/
theorem Layout.Holds.bitmaps_le (h : L.Holds m) :
    Ext2.blockBitmapAt m + (blocksCount m + 7) / 8 ≤ 131072 ∧
      Ext2.inodeBitmapAt m + (inodesCount m + 7) / 8 ≤ 131072 := by
  have hb := L.lt_blocks (Layout.mem_metadata.mpr (.inr (.inr (.inl rfl))))
  have hi := L.lt_blocks (Layout.mem_metadata.mpr (.inr (.inr (.inr (.inl rfl)))))
  have hmapped := L.mapped
  have hinodes := L.inodes_le
  rw [h.blockBitmapAt, h.inodeBitmapAt, h.blocks, h.inodes]
  omega

/-- The block whose number is the first free index lies in the mapping and is zeroed. -/
theorem findFreeBlock_returns (h : L.Holds m) {e : Nat}
    (he : firstClear (blockBit m) (blocksCount m) = some e) :
    e * 1024 + 1024 ≤ 131072 ∧ findFreeBlock m = .ok e (m.fill (e * 1024) 1024 0) := by
  have hlt := (firstClear_eq_some_iff.mp he).2.1
  have hmapped := L.mapped
  rw [h.blocks] at hlt
  have hbound : e * 1024 + 1024 ≤ 131072 := by omega
  exact ⟨hbound, findFreeBlock_apply h.bitmaps_le.1 he hbound⟩

theorem findFreeInode_returns (h : L.Holds m) {p : Nat}
    (hp : (p : Int) = inodeTableAt m + 128 * indexOrNone (freeInode m))
    (hbound : p + 128 ≤ 131072) :
    findFreeInode m = .ok (indexOrNone (freeInode m)) (m.fill p 128 0) :=
  findFreeInode_apply h.bitmaps_le.2 hp hbound

/-! ## When nothing else is touched -/

/-- `find_free_block` touches only free space when the block before the free one is empty. -/
theorem touchesFree_findFreeBlock_iff (hm : Consistent L m) :
    TouchesFree findFreeBlock (fun i => L.marked m (i + 1)) (fun i => (i + 1) * 1024) 1024 m ↔
      ∃ e, firstClear (fun i => L.marked m (i + 1)) L.blocks = some e ∧
        ZeroAt (e * 1024) 1024 m := by
  constructor
  · rintro ⟨r, m', hsearch, hr⟩
    obtain ⟨e, rfl, he, hbound, rfl⟩ := findFreeBlock_ok hsearch
    rw [hm.holds.firstClear] at he
    rcases hr with ⟨hr, -⟩ | ⟨i, hi, -, hsame⟩
    · omega
    · obtain rfl : e = i := by omega
      refine ⟨e, he, hbound, fun a hlo hhi => ?_⟩
      rw [← hsame a (.inl (show a < (e + 1) * 1024 by omega)),
        Memory.fill_apply_of_inside ⟨hlo, hhi⟩]
  · rintro ⟨e, he, hbound, hzero⟩
    obtain ⟨-, hsearch⟩ := findFreeBlock_returns hm.holds (hm.holds.firstClear.trans he)
    rw [fill_zero_eq_iff.mpr hzero] at hsearch
    exact ⟨e, m, hsearch, .inr ⟨e, rfl, (firstClear_eq_some_iff.mp he).1, fun a _ => rfl⟩⟩

/-- `find_free_inode` touches only free space when there is a free inode or nothing is stored
before the inode table. -/
theorem touchesFree_findFreeInode_iff (hm : Consistent L m) :
    TouchesFree findFreeInode (fun i => m.bit (L.inodeBitmap * 1024) i)
      (fun i => L.inodeAt (i + 1)) 128 m ↔
        (freeInode m = none → ∃ p, p + 128 = inodeTableAt m ∧ ZeroAt p 128 m) := by
  constructor
  · rintro ⟨r, m', hsearch, hr⟩ hnone
    rcases hr with ⟨rfl, hsame⟩ | ⟨i, rfl, -, -⟩
    · obtain ⟨-, p, hp, hbound, rfl⟩ := findFreeInode_none hsearch
      exact ⟨p, hp, hbound, fill_zero_eq_iff.mp hsame⟩
    · obtain ⟨k, -, hk, -⟩ := findFreeInode_ok hsearch (by omega)
      rw [hnone] at hk
      cases hk
  · intro h
    cases hfree : freeInode m with
    | none =>
      obtain ⟨p, hp, hbound, hzero⟩ := h hfree
      have hsearch := findFreeInode_returns hm.holds (p := p)
        (by rw [hfree]; simp only [indexOrNone]; omega) hbound
      rw [hfree, fill_zero_eq_iff.mpr hzero] at hsearch
      exact ⟨-1, m, hsearch, .inl ⟨rfl, rfl⟩⟩
    | some k =>
      obtain ⟨-, hk, hclear⟩ := freeInode_eq_some hfree
      rw [hm.holds.inodes] at hk
      have hlast := L.lt_blocks (L.inode_mem_metadata (n := k + 1) (a := L.inodeAt (k + 1) + 127)
        (by omega) (by omega))
      have hmapped := L.mapped
      have hat : L.inodeAt (k + 1) = L.inodeTable * 1024 + 128 * k := by
        rw [Layout.inodeAt, Nat.add_sub_cancel]
      have hsearch := findFreeInode_returns hm.holds (p := L.inodeAt (k + 1))
        (by rw [hfree, hm.holds.inodeTableAt (by omega), hat]; simp only [indexOrNone]; omega)
        (by omega)
      rw [hfree] at hsearch
      refine ⟨k, _, hsearch, .inr ⟨k, rfl, ?_, fun a ha => Memory.fill_apply_of_outside ha⟩⟩
      rw [← hm.holds.inodeBitmapAt]
      exact hclear

/-- The searches touch only free space exactly when what they zero besides it is zero already. -/
theorem searchesTouchFree_iff (hm : Consistent L m) : SearchesTouchFree L m ↔
    (∃ e, firstClear (fun i => L.marked m (i + 1)) L.blocks = some e ∧ ZeroAt (e * 1024) 1024 m) ∧
      (freeInode m = none → ∃ p, p + 128 = inodeTableAt m ∧ ZeroAt p 128 m) :=
  and_congr (touchesFree_findFreeBlock_iff hm) (touchesFree_findFreeInode_iff hm)

/-- In the sample with a lost block, the block before the free one is empty and an inode is free. -/
theorem searchesTouchFree_sample : SearchesTouchFree sampleLayout (sample true) := by
  have hinode : freeInode (sample true) ≠ none := by decide +kernel
  refine (searchesTouchFree_iff (consistent_sample true)).mpr
    ⟨⟨9, by decide +kernel, by decide, ?_⟩, fun hnone => absurd hnone hinode⟩
  have hzero : ∀ a, 9216 ≤ a → a < 10240 → sample true a = 0 := by decide +kernel
  exact hzero

/-- In the sample without a lost block the search for a block empties the directory `a`. -/
theorem not_searchesTouchFree :
    Consistent sampleLayout (sample false) ∧ ¬ SearchesTouchFree sampleLayout (sample false) := by
  refine ⟨consistent_sample false, fun h => ?_⟩
  obtain ⟨e, he, -, hzero⟩ := (touchesFree_findFreeBlock_iff (consistent_sample false)).mp h.1
  have hfree : firstClear (fun i => sampleLayout.marked (sample false) (i + 1))
      sampleLayout.blocks = some 8 := by decide +kernel
  obtain rfl := Option.some.inj (hfree.symm.trans he)
  have hbyte : sample false 8192 ≠ 0 := by decide +kernel
  exact hbyte (hzero 8192 (by omega) (by omega))

end OsAssignments.Ext2
