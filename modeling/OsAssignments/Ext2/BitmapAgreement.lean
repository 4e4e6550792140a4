import OsAssignments.Ext2.Removal
import OsAssignments.Ext2.Searches

/-!
# Readers and writers of the bitmaps

The functions that set, clear, test and search the bits of the two bitmaps agree on the bit of each
block and inode. The searches zero what they found, or what lies before it when they found nothing,
and return only when those bytes lie in the mapping.
-/

namespace OsAssignments.Ext2

open Memory Program

variable {m m' : Memory} {p i k first count : Nat} {r r' : Int} {b : Bool}

/-! ## What the functions are to do -/

/-- The bitmaps lie in blocks of the image that are different from each other and from the blocks of
the super block and the group descriptor, and have a bit for every object. -/
structure BitmapsApart (m : Memory) : Prop where
  inside : m.load 2048 4 < 128 ∧ m.load 2052 4 < 128
  apart : m.load 2048 4 ≠ m.load 2052 4
  superBlock : m.load 2048 4 ≠ 1 ∧ m.load 2052 4 ≠ 1
  groupDesc : m.load 2048 4 ≠ 2 ∧ m.load 2052 4 ≠ 2
  counts : blocksCount m ≤ 8192 ∧ inodesCount m ≤ 8192

/-- The program makes `is_block_free` return `free` for block `n`, leaves its results for all other
blocks, and changes no byte but the one with the bit. -/
def WritesBlock (x : DiskM Unit) (n : Nat) (free : Int) (m : Memory) : Prop :=
  ∃ m', x m = .ok () m' ∧ isBlockFree n m' = .ok free m' ∧
    (∀ k r : Int, k ≠ n → (isBlockFree k m' = .ok r m' ↔ isBlockFree k m = .ok r m)) ∧
    ∀ a, a ≠ blockBitmapAt m + (n - 1) / 8 → m' a = m a

/-- The program makes the bit of inode `n` equal to `used`, leaves all other bits, and changes no
byte but the one with the bit. -/
def WritesInode (x : DiskM Unit) (n : Nat) (used : Bool) (m : Memory) : Prop :=
  ∃ m', x m = .ok () m' ∧ inodeBit m' (n - 1) = used ∧
    (∀ k, k ≠ n - 1 → inodeBit m' k = inodeBit m k) ∧
    ∀ a, a ≠ inodeBitmapAt m + (n - 1) / 8 → m' a = m a

/-- The least index with the property from `first` on and below `count`, or -1 if there is none. -/
def Least (Φ : Nat → Prop) (first count : Nat) (r : Int) : Prop :=
  (∃ i : Nat, r = i ∧ first ≤ i ∧ i < count ∧ Φ i ∧ ∀ j, first ≤ j → j < i → ¬ Φ j) ∨
    r = -1 ∧ ∀ j, first ≤ j → j < count → ¬ Φ j

/-- All functions agree on one bit for each object. -/
structure BitmapsAgree (m : Memory) : Prop where
  setBlock : ∀ n, 1 ≤ n → n ≤ blocksCount m → WritesBlock (setBlockBitmap n) n 0 m
  unsetBlock : ∀ n, 1 ≤ n → n ≤ blocksCount m → WritesBlock (unsetBlockBitmap n) n 1 m
  setInode : ∀ n, 1 ≤ n → n ≤ inodesCount m → WritesInode (setInodeBitmap n) n true m
  unsetInode : ∀ n, 1 ≤ n → n ≤ inodesCount m → WritesInode (unsetInodeBitmap n) n false m
  freeBlock : ∃ r m', findFreeBlock m = .ok r m' ∧
    Least (fun i => isBlockFree (i + 1 : Nat) m = .ok 1 m) 0 (blocksCount m) r
  freeInode : ∃ r m', findFreeInode m = .ok r m' ∧
    Least (fun i => inodeBit m i = false) 11 (inodesCount m) r

/-- The searches zero bytes of the mapping only: a block with a number up to 128 is free, and the
inode record at the least free index lies in the mapping, or the one before the table when no inode
is free. -/
structure SearchesInside (m : Memory) : Prop where
  block : ∃ i, i < blocksCount m ∧ i < 128 ∧ blockBit m i = false
  inode : ∀ r, Least (fun i => inodeBit m i = false) 11 (inodesCount m) r →
    0 ≤ inodeTableAt m + 128 * r ∧ inodeTableAt m + 128 * r + 128 ≤ 131072

/-! ## `is_block_free` -/

/-- The loop of `is_block_free` tests the bit of its block number. -/
theorem findBlockBit_apply (rounds : Nat) (hlo : i ≤ k) (hhi : k < i + rounds)
    (hbound : p + k / 8 + 1 ≤ 131072) :
    findBlockBit p (k + 1 : Nat) rounds i (i % 8) m = .ok (some (!m.bit p k)) m := by
  induction rounds generalizing i with
  | zero => omega
  | succ rounds ih =>
    rw [findBlockBit]
    by_cases hi : i = k
    · subst hi
      have hbit : (m.load (p + i / 8) 1 &&& 1 <<< (i % 8) = 0) ↔ (!m.bit p i) = true := by
        rw [Memory.and_mask_eq_zero_iff, Bool.not_eq_true']
      rw [if_pos (by omega), bind_of_ok (read_apply _ (p := p + i / 8) (by omega) (by omega) m)]
      simp only [hbit, Bool.decide_eq_true]
      rfl
    · rw [if_neg (by omega), shift_succ]
      exact ih (by omega) (by omega)

theorem isBlockFree_apply (hk : k < blocksCount m)
    (hbound : blockBitmapAt m + k / 8 + 1 ≤ 131072) :
    isBlockFree (k + 1 : Nat) m = .ok (if blockBit m k then 0 else 1) m := by
  have hloop := findBlockBit_apply (m := m) (m.load 1028 4) (Nat.zero_le k)
    (by rw [Nat.zero_add]; exact hk) hbound
  rw [isBlockFree, bind_of_ok (getBlockBitmap_apply m),
    bind_of_ok (read_apply sBlocksCount (p := 1028) rfl (by decide) m), bind_of_ok hloop]
  change EStateM.Result.ok _ m = .ok (if m.bit (blockBitmapAt m) k then 0 else 1) m
  cases m.bit (blockBitmapAt m) k <;> rfl

/-- `is_block_free` returns exactly for the numbers of blocks. -/
theorem isBlockFree_iff (hbound : blockBitmapAt m + 1024 ≤ 131072) (hcount : blocksCount m ≤ 8192)
    {n : Int} : isBlockFree n m = .ok r m ↔
      ∃ k : Nat, n = (k + 1 : Nat) ∧ k < blocksCount m ∧ r = if blockBit m k then 0 else 1 := by
  constructor
  · intro h
    obtain ⟨-, k, rfl, hk, -⟩ := isBlockFree_ok h
    refine ⟨k, rfl, hk, ?_⟩
    have happly : isBlockFree (k + 1 : Nat) m = _ := isBlockFree_apply hk (by omega)
    exact (EStateM.Result.ok.inj (h.symm.trans happly)).1
  · rintro ⟨k, rfl, hk, rfl⟩
    exact isBlockFree_apply hk (by omega)

/-! ## The least index -/

theorem Least.unique {Φ : Nat → Prop} (h : Least Φ first count r) (h' : Least Φ first count r') :
    r = r' := by
  rcases h with ⟨i, rfl, hlo, hhi, hi, hleast⟩ | ⟨rfl, hnone⟩
  · rcases h' with ⟨j, rfl, hlo', hhi', hj, hleast'⟩ | ⟨rfl, hnone'⟩
    · rcases Nat.lt_trichotomy i j with hlt | rfl | hlt
      · exact absurd hi (hleast' i hlo hlt)
      · rfl
      · exact absurd hj (hleast j hlo' hlt)
    · exact absurd hi (hnone' i hlo hhi)
  · rcases h' with ⟨j, rfl, hlo', hhi', hj, hleast'⟩ | ⟨rfl, hnone'⟩
    · exact absurd hj (hnone j hlo' hhi')
    · rfl

theorem Least.congr {Φ Ψ : Nat → Prop} (h : Least Φ first count r)
    (hiff : ∀ i, i < count → (Φ i ↔ Ψ i)) : Least Ψ first count r := by
  rcases h with ⟨i, rfl, hlo, hhi, hi, hleast⟩ | ⟨rfl, hnone⟩
  · exact .inl ⟨i, rfl, hlo, hhi, (hiff i hhi).mp hi,
      fun j hj hji h => hleast j hj hji ((hiff j (by omega)).mpr h)⟩
  · exact .inr ⟨rfl, fun j hj hjc h => hnone j hj hjc ((hiff j hjc).mpr h)⟩

/-- The first clear index is the least one. -/
theorem least_firstClear (bit : Nat → Bool) (first count : Nat) :
    Least (fun i => bit i = false) first count
      (indexOrNone (firstClear (fun i => decide (i < first) || bit i) count)) := by
  cases hfirst : firstClear (fun i => decide (i < first) || bit i) count with
  | none =>
    refine .inr ⟨rfl, fun j hlo hhi hj => ?_⟩
    have hall := firstClear_eq_none_iff.mp hfirst j hhi
    simp only [hj, Bool.or_false, decide_eq_true_eq] at hall
    omega
  | some i =>
    obtain ⟨hclear, hhi, hall⟩ := firstClear_eq_some_iff.mp hfirst
    rw [Bool.or_eq_false_iff, decide_eq_false_iff_not] at hclear
    refine .inl ⟨i, rfl, by omega, hhi, hclear.2, fun j hlo hlt hj => ?_⟩
    have hused := hall j hlt
    simp only [hj, Bool.or_false, decide_eq_true_eq] at hused
    omega

/-! ## Writing a bit -/

namespace BitmapsApart

variable (h : BitmapsApart m)

include h

theorem blockBitmap_eq : blockBitmapAt m = m.load 2048 4 * 1024 := by
  have hlt := h.inside.1
  rw [blockBitmapAt, offsetOf_eq (by omega)]

theorem inodeBitmap_eq : inodeBitmapAt m = m.load 2052 4 * 1024 := by
  have hlt := h.inside.2
  rw [inodeBitmapAt, offsetOf_eq (by omega)]

/-- The bytes of the block bitmap lie in the mapping and outside the counts and pointers. -/
theorem blockByte (hk : k < blocksCount m) : blockBitmapAt m + k / 8 + 1 ≤ 131072 ∧
    (blockBitmapAt m + k / 8 < 1024 ∨ 3072 ≤ blockBitmapAt m + k / 8) := by
  have hinside := h.inside.1
  have hcount := h.counts.1
  have hsuper := h.superBlock.1
  have hgroup := h.groupDesc.1
  rw [h.blockBitmap_eq]
  omega

/-- So do those of the inode bitmap. -/
theorem inodeByte (hk : k < inodesCount m) : inodeBitmapAt m + k / 8 + 1 ≤ 131072 ∧
    (inodeBitmapAt m + k / 8 < 1024 ∨ 3072 ≤ inodeBitmapAt m + k / 8) := by
  have hinside := h.inside.2
  have hcount := h.counts.2
  have hsuper := h.superBlock.2
  have hgroup := h.groupDesc.2
  rw [h.inodeBitmap_eq]
  omega

end BitmapsApart

/-- A byte outside the super block and the group descriptor has no part in the counts and
pointers. -/
theorem load_of_outside {q a n : Nat} (hq : q < 1024 ∨ 3072 ≤ q) (hsame : ∀ c, c ≠ q → m' c = m c)
    (ha : 1024 ≤ a) (hn : a + n ≤ 3072) : m'.load a n = m.load a n :=
  Memory.load_congr fun i hi => hsame (a + i) (by omega)

/-- A program that writes one bit of the block bitmap. -/
theorem BitmapsApart.writesBlock (h : BitmapsApart m) (m' : Memory) (hk : k < blocksCount m)
    {x : DiskM Unit} (hx : x m = .ok () m')
    (hbits : ∀ j, m'.bit (blockBitmapAt m) j = if j = k then b else m.bit (blockBitmapAt m) j)
    (hsame : ∀ a, a ≠ blockBitmapAt m + k / 8 → m' a = m a) :
    WritesBlock x (k + 1) (if b then 0 else 1) m := by
  have hout := (h.blockByte hk).2
  have hat : blockBitmapAt m' = blockBitmapAt m :=
    congrArg offsetOf (load_of_outside hout hsame (by omega) (by omega))
  have hcount : blocksCount m' = blocksCount m :=
    load_of_outside hout hsame (by omega) (by omega)
  have hbit : ∀ j, blockBit m' j = if j = k then b else blockBit m j := fun j => by
    rw [blockBit, hat, hbits, blockBit]
  have hinside := h.inside.1
  have hblocks := h.counts.1
  have hmapped : blockBitmapAt m + 1024 ≤ 131072 := by
    rw [h.blockBitmap_eq]
    omega
  refine ⟨m', hx, ?_, fun n r hn => ?_, by rwa [Nat.add_sub_cancel]⟩
  · rw [isBlockFree_iff (by rwa [hat]) (by rwa [hcount])]
    exact ⟨k, rfl, by rwa [hcount], by rw [hbit, if_pos rfl]⟩
  · rw [isBlockFree_iff (by rwa [hat]) (by rwa [hcount]), isBlockFree_iff hmapped hblocks, hcount]
    refine exists_congr fun j => and_congr_right fun hj => ?_
    rw [hbit, if_neg (show ¬ j = k by omega)]

/-- A program that writes one bit of the inode bitmap. -/
theorem BitmapsApart.writesInode (h : BitmapsApart m) (m' : Memory) (hk : k < inodesCount m)
    {x : DiskM Unit} (hx : x m = .ok () m')
    (hbits : ∀ j, m'.bit (inodeBitmapAt m) j = if j = k then b else m.bit (inodeBitmapAt m) j)
    (hsame : ∀ a, a ≠ inodeBitmapAt m + k / 8 → m' a = m a) : WritesInode x (k + 1) b m := by
  have hat : inodeBitmapAt m' = inodeBitmapAt m :=
    congrArg offsetOf (load_of_outside (h.inodeByte hk).2 hsame (by omega) (by omega))
  have hbit : ∀ j, inodeBit m' j = if j = k then b else inodeBit m j := fun j => by
    rw [inodeBit, hat, hbits, inodeBit]
  refine ⟨m', hx, ?_, fun j hj => ?_, by rwa [Nat.add_sub_cancel]⟩
  · rw [Nat.add_sub_cancel, hbit, if_pos rfl]
  · rw [hbit, if_neg (by omega)]

theorem bit_orBit_if (m : Memory) (base k j : Nat) :
    (m.orBit (base + k / 8) (k % 8)).bit base j = if j = k then true else m.bit base j := by
  rw [bit_orBit]
  by_cases hj : j = k
  · simp [hj]
  · simp [hj, Ne.symm hj]

theorem bit_clearBit_if (m : Memory) (base k j : Nat) :
    (m.clearBit (base + k / 8) (k % 8)).bit base j = if j = k then false else m.bit base j := by
  rw [bit_clearBit]
  by_cases hj : j = k
  · simp [hj]
  · simp [hj, Ne.symm hj]

section Writers

variable (h : BitmapsApart m)

include h

theorem BitmapsApart.setBlock (hk : k < blocksCount m) :
    WritesBlock (setBlockBitmap (k + 1 : Nat)) (k + 1) 0 m := by
  refine h.writesBlock (b := true) (markBlock m k) hk ?_ (bit_orBit_if m _ k)
    fun a ha => orBit_apply_of_ne ha
  rw [setBlockBitmap, bind_of_ok (getBlockBitmap_apply m)]
  exact orBit_ok.mpr ⟨_, rfl, (h.blockByte hk).1, rfl⟩

theorem BitmapsApart.unsetBlock (hk : k < blocksCount m) :
    WritesBlock (unsetBlockBitmap (k + 1 : Nat)) (k + 1) 1 m := by
  refine h.writesBlock (b := false) (m.clearBit (blockBitmapAt m + k / 8) (k % 8)) hk ?_
    (bit_clearBit_if m _ k) fun a ha => clearBit_apply_of_ne ha
  rw [unsetBlockBitmap, bind_of_ok (getBlockBitmap_apply m)]
  exact andNotBit_ok.mpr ⟨_, rfl, (h.blockByte hk).1, rfl⟩

theorem BitmapsApart.setInode (hk : k < inodesCount m) :
    WritesInode (setInodeBitmap (k + 1 : Nat)) (k + 1) true m := by
  refine h.writesInode (markInode m k) hk ?_ (bit_orBit_if m _ k)
    fun a ha => orBit_apply_of_ne ha
  rw [setInodeBitmap, bind_of_ok (getInodeBitmap_apply m)]
  exact orBit_ok.mpr ⟨_, rfl, (h.inodeByte hk).1, rfl⟩

theorem BitmapsApart.unsetInode (hk : k < inodesCount m) :
    WritesInode (unsetInodeBitmap (k + 1 : Nat)) (k + 1) false m := by
  refine h.writesInode (m.clearBit (inodeBitmapAt m + k / 8) (k % 8)) hk ?_
    (bit_clearBit_if m _ k) fun a ha => clearBit_apply_of_ne ha
  rw [unsetInodeBitmap, bind_of_ok (getInodeBitmap_apply m)]
  exact andNotBit_ok.mpr ⟨_, rfl, (h.inodeByte hk).1, rfl⟩

end Writers

/-! ## The searches -/

/-- What `find_free_block` is to return, in terms of the bits. -/
theorem BitmapsApart.least_isBlockFree_iff (h : BitmapsApart m) :
    Least (fun i => isBlockFree (i + 1 : Nat) m = .ok 1 m) 0 (blocksCount m) r ↔
      Least (fun i => blockBit m i = false) 0 (blocksCount m) r := by
  have hiff : ∀ i, i < blocksCount m →
      (isBlockFree (i + 1 : Nat) m = .ok 1 m ↔ blockBit m i = false) := fun i hi => by
    rw [isBlockFree_apply hi (h.blockByte hi).1]
    cases blockBit m i <;> simp
  exact ⟨fun hleast => hleast.congr hiff, fun hleast => hleast.congr fun i hi => (hiff i hi).symm⟩

/-- `find_free_block` returns when a block with a number up to 128 is free. -/
theorem BitmapsApart.freeBlock_iff (h : BitmapsApart m) : (∃ r m', findFreeBlock m = .ok r m' ∧
    Least (fun i => isBlockFree (i + 1 : Nat) m = .ok 1 m) 0 (blocksCount m) r) ↔
      ∃ i, i < blocksCount m ∧ i < 128 ∧ blockBit m i = false := by
  constructor
  · rintro ⟨r, m', hsearch, -⟩
    obtain ⟨e, -, he, hbound, -⟩ := findFreeBlock_ok hsearch
    obtain ⟨hclear, hlt, -⟩ := firstClear_eq_some_iff.mp he
    exact ⟨e, hlt, by omega, hclear⟩
  · rintro ⟨i, hi, hmapped, hclear⟩
    cases he : firstClear (blockBit m) (blocksCount m) with
    | none =>
      have hused := firstClear_eq_none_iff.mp he i hi
      rw [hclear] at hused
      cases hused
    | some e =>
      have hle : e ≤ i := by
        by_contra hlt
        have hused := (firstClear_eq_some_iff.mp he).2.2 i (by omega)
        rw [hclear] at hused
        cases hused
      have hinside := h.inside.1
      have hcount := h.counts.1
      have hbitmap : blockBitmapAt m + (blocksCount m + 7) / 8 ≤ 131072 := by
        rw [h.blockBitmap_eq]
        omega
      refine ⟨e, _, findFreeBlock_apply hbitmap he (by omega), h.least_isBlockFree_iff.mpr ?_⟩
      have hleast := least_firstClear (blockBit m) 0 (blocksCount m)
      simp only [Nat.not_lt_zero, decide_false, Bool.false_or] at hleast
      rwa [show firstClear (fun i => blockBit m i) (blocksCount m) = some e from he] at hleast

/-- `find_free_inode` returns when the record that it zeroes lies in the mapping. -/
theorem BitmapsApart.freeInode_iff (h : BitmapsApart m) : (∃ r m', findFreeInode m = .ok r m' ∧
    Least (fun i => inodeBit m i = false) 11 (inodesCount m) r) ↔
      ∀ r, Least (fun i => inodeBit m i = false) 11 (inodesCount m) r →
        0 ≤ inodeTableAt m + 128 * r ∧ inodeTableAt m + 128 * r + 128 ≤ 131072 := by
  have hleast : Least (fun i => inodeBit m i = false) 11 (inodesCount m)
      (indexOrNone (freeInode m)) := least_firstClear (inodeBit m) 11 (inodesCount m)
  constructor
  · rintro ⟨r, m', hsearch, hr⟩ r' hr'
    obtain rfl := hr'.unique hr
    obtain ⟨-, p, hp, hbound, -⟩ := findFreeInode_cases hsearch
    omega
  · intro hinside
    obtain ⟨hlo, hhi⟩ := hinside _ hleast
    obtain ⟨p, hp⟩ := Int.eq_ofNat_of_zero_le hlo
    have hbitmap : inodeBitmapAt m + (inodesCount m + 7) / 8 ≤ 131072 := by
      have hblock := h.inside.2
      have hcount := h.counts.2
      rw [h.inodeBitmap_eq]
      omega
    exact ⟨_, _, findFreeInode_apply hbitmap hp.symm (by omega), hleast⟩

/-- All functions agree exactly when the searches have something of the mapping to zero. -/
theorem bitmapsAgree_iff (h : BitmapsApart m) : BitmapsAgree m ↔ SearchesInside m := by
  constructor
  · intro hagree
    exact ⟨h.freeBlock_iff.mp hagree.freeBlock, h.freeInode_iff.mp hagree.freeInode⟩
  · intro hinside
    have hnumber : ∀ {n count : Nat}, 1 ≤ n → n ≤ count → ∃ k, n = k + 1 ∧ k < count :=
      fun {n count} hlo hhi => ⟨n - 1, by omega, by omega⟩
    refine ⟨fun n hlo hhi => ?_, fun n hlo hhi => ?_, fun n hlo hhi => ?_, fun n hlo hhi => ?_,
      h.freeBlock_iff.mpr hinside.block, h.freeInode_iff.mpr hinside.inode⟩
    · obtain ⟨k, rfl, hk⟩ := hnumber hlo hhi
      exact h.setBlock hk
    · obtain ⟨k, rfl, hk⟩ := hnumber hlo hhi
      exact h.unsetBlock hk
    · obtain ⟨k, rfl, hk⟩ := hnumber hlo hhi
      exact h.setInode hk
    · obtain ⟨k, rfl, hk⟩ := hnumber hlo hhi
      exact h.unsetInode hk

theorem bitmapsApart_sample : BitmapsApart (sample false) := by
  constructor <;> decide +kernel

/-- In the sample block 9 is free, and every inode is in the mapping. -/
theorem bitmapsAgree_sample : BitmapsAgree (sample false) := by
  have hinodes : inodesCount (sample false) = 16 := by decide +kernel
  have htable : inodeTableAt (sample false) = 5120 := by decide +kernel
  refine (bitmapsAgree_iff bitmapsApart_sample).mpr
    ⟨⟨8, by decide +kernel, by decide, by decide +kernel⟩, fun r hr => ?_⟩
  rw [hinodes] at hr
  rw [htable]
  rcases hr with ⟨k, rfl, hk⟩ | ⟨rfl, -⟩
  · omega
  · omega

/-- The sample image with no free block: all 128 bits of the block bitmap are set. -/
def fullSample : Memory := (sample false).fill 3072 16 0xff

/-- With no free block `find_free_block` zeroes the bytes before the mapping. -/
theorem not_bitmapsAgree : BitmapsApart fullSample ∧ ¬ BitmapsAgree fullSample := by
  refine ⟨by constructor <;> decide +kernel, fun hagree => ?_⟩
  obtain ⟨r, m', hsearch, -⟩ := hagree.freeBlock
  obtain ⟨e, -, he, -⟩ := findFreeBlock_ok hsearch
  have hnone : firstClear (blockBit fullSample) (blocksCount fullSample) = none := by
    decide +kernel
  rw [hnone] at he
  cases he

end OsAssignments.Ext2
