import OsAssignments.Ext2.Commands

/-!
# What the allocating functions do

One statement per function of the helper module: the memory it leaves and how its result
depends on the bitmaps. They hold for every image, consistent or not.
-/

namespace OsAssignments.Ext2

open Program

/-! ## Where the group descriptor points -/

/-- The offset of a block, as the helper functions compute it in `unsigned int`. -/
def offsetOf (block : Nat) : Nat := block * blockSize % 2 ^ 32

/-- For a small block number nothing is cut off. -/
theorem offsetOf_eq {block : Nat} (h : block < 2 ^ 22) : offsetOf block = block * 1024 :=
  Nat.mod_eq_of_lt (show block * 1024 < 2 ^ 32 by omega)

def blockBitmapAt (m : Memory) : Nat := offsetOf (m.load 2048 4)

def inodeBitmapAt (m : Memory) : Nat := offsetOf (m.load 2052 4)

def inodeTableAt (m : Memory) : Nat := offsetOf (m.load 2056 4)

def inodesCount (m : Memory) : Nat := m.load 1024 4

def blocksCount (m : Memory) : Nat := m.load 1028 4

/-- The bit of the block bitmap at an index; it describes the block with the next number. -/
def blockBit (m : Memory) (i : Nat) : Bool := m.bit (blockBitmapAt m) i

/-- The bit of the inode bitmap at an index; it describes the inode with the next number. -/
def inodeBit (m : Memory) (i : Nat) : Bool := m.bit (inodeBitmapAt m) i

theorem read_apply (a : Int) {p n : Nat} (ha : a = p) (h : p + n ≤ 131072)
    (m : Memory) : read a n m = .ok (m.load p n) m :=
  read_ok.mpr ⟨p, ha, h, rfl, rfl⟩

theorem getBlockBitmap_apply (m : Memory) : getBlockBitmap m = .ok (blockBitmapAt m : Int) m := by
  rw [getBlockBitmap, bind_of_ok (read_apply bgBlockBitmap (p := 2048) rfl (by decide) m)]
  rfl

theorem getInodeBitmap_apply (m : Memory) : getInodeBitmap m = .ok (inodeBitmapAt m : Int) m := by
  rw [getInodeBitmap, bind_of_ok (read_apply bgInodeBitmap (p := 2052) rfl (by decide) m)]
  rfl

theorem getInodeTable_apply (m : Memory) : getInodeTable m = .ok (inodeTableAt m : Int) m := by
  rw [getInodeTable, bind_of_ok (read_apply bgInodeTable (p := 2056) rfl (by decide) m)]
  rfl

theorem getInode_apply (n : Int) (m : Memory) :
    getInode n m = .ok (inodeTableAt m + 128 * (n - 1)) m := by
  rw [getInode, bind_of_ok (getInodeTable_apply m)]
  rfl

/-- `get_inode` of an index plus one. -/
theorem getInode_succ (k : Nat) (m : Memory) :
    getInode (k + 1) m = .ok (inodeTableAt m + 128 * k : Nat) m := by
  rw [getInode_apply, Int.add_sub_cancel, Int.natCast_add, Int.natCast_mul]
  rfl

/-! ## Free inodes and blocks -/

/-- The shift that the loops over a bitmap count along is the position in the byte. -/
theorem shift_succ (i : Nat) : (if i % 8 + 1 = 8 then 0 else i % 8 + 1) = (i + 1) % 8 := by
  split <;> omega

/-- A loop over a bitmap finds the first clear bit from `first` on. -/
theorem findClear_ok {p first rounds i : Nat} {r : Int} {m m' : Memory}
    (h : findClear p first rounds i (i % 8) m = .ok r m') :
    m = m' ∧ (r = -1 ∧ (∀ l, i ≤ l → l < i + rounds → first ≤ l → m.bit p l = true) ∨
      ∃ k : Nat, r = k ∧ i ≤ k ∧ k < i + rounds ∧ first ≤ k ∧
        m.bit p k = false ∧ ∀ l, i ≤ l → l < k → first ≤ l → m.bit p l = true) := by
  induction rounds generalizing i with
  | zero =>
    rw [findClear] at h
    cases h
    exact ⟨rfl, .inl ⟨rfl, fun l _ _ => by omega⟩⟩
  | succ rounds ih =>
    rw [findClear, bind_ok] at h
    obtain ⟨c, u, hc, h⟩ := h
    obtain ⟨q, hq, -, rfl, rfl⟩ := read_ok.mp hc
    obtain rfl : q = p + i / 8 := by omega
    have hbit : m.load (p + i / 8) 1 &&& 1 <<< (i % 8) = 0 ↔ m.bit p i = false :=
      Memory.and_mask_eq_zero_iff
    by_cases hfound : m.load (p + i / 8) 1 &&& 1 <<< (i % 8) = 0 ∧ first ≤ i
    · rw [if_pos hfound] at h
      cases h
      exact ⟨rfl, .inr ⟨i, rfl, Nat.le_refl i, by omega, hfound.2, hbit.mp hfound.1,
        fun l hl hlt => by omega⟩⟩
    · rw [if_neg hfound] at h
      rw [shift_succ] at h
      obtain ⟨hm, hr⟩ := ih h
      have hset : first ≤ i → m.bit p i = true := fun hfl =>
        Bool.of_not_eq_false fun hclear => hfound ⟨hbit.mpr hclear, hfl⟩
      refine ⟨hm, hr.imp ?_ ?_⟩
      · rintro ⟨hnone, hall⟩
        refine ⟨hnone, fun l hl hlt hfl => ?_⟩
        by_cases hli : l = i
        · subst hli
          exact hset hfl
        · exact hall l (by omega) (by omega) hfl
      · rintro ⟨k, hk, hik, hlt, hfirst, hclear, hall⟩
        refine ⟨k, hk, by omega, by omega, hfirst, hclear, fun l hl hlk hfl => ?_⟩
        by_cases hli : l = i
        · subst hli
          exact hset hfl
        · exact hall l (by omega) hlk hfl

/-- The first free index of an inode that is not reserved. -/
def freeInode (m : Memory) : Option Nat :=
  firstClear (fun i => decide (i < 11) || inodeBit m i) (inodesCount m)

theorem freeInode_eq_some {m : Memory} {k : Nat} (h : freeInode m = some k) :
    11 ≤ k ∧ k < inodesCount m ∧ inodeBit m k = false := by
  obtain ⟨hclear, hlt, -⟩ := firstClear_eq_some_iff.mp h
  rw [Bool.or_eq_false_iff, decide_eq_false_iff_not] at hclear
  exact ⟨by omega, hlt, hclear.2⟩

/-- The loop over a bitmap finds the first clear bit from `first` on. -/
theorem findClear_cases {p first rounds : Nat} {r : Int} {m m' : Memory}
    (h : findClear p first rounds 0 0 m = .ok r m') : m = m' ∧
      (r = -1 ∧ firstClear (fun i => decide (i < first) || m.bit p i) rounds = none ∨
        ∃ k : Nat, r = k ∧
          firstClear (fun i => decide (i < first) || m.bit p i) rounds = some k) := by
  have hset : ∀ i, (first ≤ i → m.bit p i = true) →
      (decide (i < first) || m.bit p i) = true := by
    intro i hbit
    rw [Bool.or_eq_true, decide_eq_true_iff]
    by_cases hi : i < first
    · exact .inl hi
    · exact .inr (hbit (Nat.le_of_not_lt hi))
  obtain ⟨hm, ⟨hr, hall⟩ | ⟨k, hr, -, hlt, hfirst, hclear, hall⟩⟩ := findClear_ok h
  · refine ⟨hm, .inl ⟨hr, firstClear_eq_none_iff.mpr fun i hi => hset i ?_⟩⟩
    exact hall i (Nat.zero_le i) (by rwa [Nat.zero_add])
  · refine ⟨hm, .inr ⟨k, hr, firstClear_eq_some_iff.mpr ⟨?_, by rwa [Nat.zero_add] at hlt,
      fun i hi => hset i (hall i (Nat.zero_le i) hi)⟩⟩⟩
    rw [Bool.or_eq_false_iff, decide_eq_false_iff_not]
    exact ⟨Nat.not_lt.mpr hfirst, hclear⟩

/-- `find_free_inode` clears the inode with the first free index that is not reserved, and the 128
bytes before the inode table where every inode is in use. -/
theorem findFreeInode_cases {i : Int} {m m' : Memory} (h : findFreeInode m = .ok i m') :
    (i = -1 ∧ freeInode m = none ∨ ∃ k : Nat, i = k ∧ freeInode m = some k) ∧
      ∃ p : Nat, (p : Int) = inodeTableAt m + 128 * i ∧ p + 128 ≤ 131072 ∧
        m' = m.fill p 128 0 := by
  rw [findFreeInode, bind_of_ok (getInodeBitmap_apply m),
    bind_of_ok (read_apply sInodesCount (p := 1024) rfl (by decide) m)] at h
  obtain ⟨r, u, hfind, hrest⟩ := bind_ok.mp h
  obtain ⟨rfl, hr⟩ := findClear_cases hfind
  rw [bind_of_ok (getInode_apply _ _)] at hrest
  obtain ⟨_, v, hset, hreturn⟩ := bind_ok.mp hrest
  obtain ⟨p, hp, hbound, rfl⟩ := memset_ok.mp hset
  cases hreturn
  exact ⟨hr, p, by omega, hbound, rfl⟩

theorem findFreeInode_ok {i : Int} {m m' : Memory} (h : findFreeInode m = .ok i m') (hi : i ≠ -1) :
    ∃ k : Nat, i = k ∧ freeInode m = some k ∧
      inodeTableAt m + 128 * k + 128 ≤ 131072 ∧
      m' = m.fill (inodeTableAt m + 128 * k) 128 0 := by
  obtain ⟨⟨hnone, -⟩ | ⟨k, rfl, hfree⟩, p, hp, hbound, rfl⟩ := findFreeInode_cases h
  · exact absurd hnone hi
  · obtain rfl : p = inodeTableAt m + 128 * k := by omega
    exact ⟨k, rfl, hfree, hbound, rfl⟩

theorem findFreeInode_none {m m' : Memory} (h : findFreeInode m = .ok (-1) m') :
    freeInode m = none ∧
      ∃ p, p + 128 = inodeTableAt m ∧ p + 128 ≤ 131072 ∧ m' = m.fill p 128 0 := by
  obtain ⟨⟨-, hfree⟩ | ⟨k, hk, -⟩, p, hp, hbound, rfl⟩ := findFreeInode_cases h
  · exact ⟨hfree, p, by omega, hbound, rfl⟩
  · omega

/-- `find_free_block` clears the block whose *number* is the first free index. -/
theorem findFreeBlock_ok {i : Int} {m m' : Memory} (h : findFreeBlock m = .ok i m') :
    ∃ e : Nat, i = e ∧ firstClear (blockBit m) (blocksCount m) = some e ∧
      e * 1024 + 1024 ≤ 131072 ∧ m' = m.fill (e * 1024) 1024 0 := by
  rw [findFreeBlock, bind_of_ok (getBlockBitmap_apply m),
    bind_of_ok (read_apply sBlocksCount (p := 1028) rfl (by decide) m)] at h
  obtain ⟨r, u, hfind, hrest⟩ := bind_ok.mp h
  obtain ⟨rfl, hr⟩ := findClear_cases hfind
  obtain ⟨_, v, hset, hreturn⟩ := bind_ok.mp hrest
  cases hreturn
  obtain ⟨p, hp, hbound, rfl⟩ := memset_ok.mp hset
  rw [getBlock, show blockSize = 1024 from rfl] at hp
  rcases hr with ⟨rfl, -⟩ | ⟨k, rfl, hfree⟩
  · omega
  · obtain rfl : p = k * 1024 := by omega
    simp only [Nat.not_lt_zero, decide_false, Bool.false_or] at hfree
    exact ⟨k, rfl, hfree, hbound, rfl⟩

/-- The loop of `is_block_free` ends in the round of its block number. -/
theorem findBlockBit_ok {p rounds i : Nat} {n : Int} {r : Option Bool} {m m' : Memory}
    (h : findBlockBit p n rounds i (i % 8) m = .ok r m') :
    m = m' ∧ (r = none ∨ ∃ k : Nat, n = k + 1 ∧ k < i + rounds ∧ r = some (!m.bit p k)) := by
  induction rounds generalizing i with
  | zero =>
    rw [findBlockBit] at h
    cases h
    exact ⟨rfl, .inl rfl⟩
  | succ rounds ih =>
    rw [findBlockBit] at h
    by_cases hi : (i : Int) = n - 1
    · rw [if_pos hi, bind_ok] at h
      obtain ⟨c, u, hc, h⟩ := h
      obtain ⟨q, hq, -, rfl, rfl⟩ := read_ok.mp hc
      obtain rfl : q = p + i / 8 := by omega
      cases h
      refine ⟨rfl, .inr ⟨i, by omega, by omega, ?_⟩⟩
      rw [Option.some.injEq, Bool.eq_iff_iff, decide_eq_true_iff, Memory.and_mask_eq_zero_iff,
        Bool.not_eq_true']
    · rw [if_neg hi] at h
      rw [shift_succ] at h
      obtain ⟨hm, hr⟩ := ih h
      refine ⟨hm, hr.imp_right ?_⟩
      rintro ⟨k, hk, hlt, hr⟩
      exact ⟨k, hk, by omega, hr⟩

/-- `is_block_free` looks at the bit of a block number, which must be in range. -/
theorem isBlockFree_ok {n r : Int} {m m' : Memory} (h : isBlockFree n m = .ok r m') :
    m = m' ∧ ∃ k : Nat, n = k + 1 ∧ k < blocksCount m ∧ (r ≠ 0 ↔ blockBit m k = false) := by
  rw [isBlockFree, bind_of_ok (getBlockBitmap_apply m),
    bind_of_ok (read_apply sBlocksCount (p := 1028) rfl (by decide) m)] at h
  obtain ⟨b, u, hb, hrest⟩ := bind_ok.mp h
  obtain ⟨rfl, rfl | ⟨k, rfl, hlt, rfl⟩⟩ := findBlockBit_ok hb
  · obtain ⟨_, v, hset, -⟩ := bind_ok.mp hrest
    obtain ⟨p, hp, -⟩ := memset_ok.mp hset
    rw [getBlock, show blockSize = 1024 from rfl] at hp
    omega
  · rw [Nat.zero_add] at hlt
    cases hrest
    refine ⟨rfl, k, rfl, hlt, ?_⟩
    change _ ↔ m.bit (blockBitmapAt m) k = false
    cases m.bit (blockBitmapAt m) k <;> simp

/-! ## The block for a directory entry -/

/-- What a loop of `find_spot_for_inode_entry` over the pointers `i` to `n - 1` from `p` on
finds, and the memory it leaves. -/
inductive SpotAmong (m : Memory) (p i n : Nat) : Option Int → Memory → Prop
  /-- No pointer is null, and no block pointed to is marked free. -/
  | nothing (hfull : ∀ k, i ≤ k → k < n → m.load (p + 4 * k) 4 ≠ 0) : SpotAmong m p i n none m
  /-- The first null pointer comes to hold the index of the first free bit; the *number* of the
  block that the bit describes is returned. -/
  | fresh (k e : Nat) (hk : i ≤ k ∧ k < n) (hnull : m.load (p + 4 * k) 4 = 0)
      (hbefore : ∀ j, i ≤ j → j < k → m.load (p + 4 * j) 4 ≠ 0)
      (he : firstClear (blockBit m) (blocksCount m) = some e) (hin : e * 1024 + 1024 ≤ 131072)
      (hslot : p + 4 * k + 4 ≤ 131072) :
      SpotAmong m p i n (some (e + 1 : Nat)) ((m.fill (e * 1024) 1024 0).store (p + 4 * k) 4 e)
  /-- A pointer to a block that is marked free. -/
  | unmarked (k b : Nat) (hk : i ≤ k ∧ k < n) (hload : m.load (p + 4 * k) 4 = b + 1)
      (hb : b < blocksCount m) (hclear : blockBit m b = false) :
      SpotAmong m p i n (some (b + 1 : Nat)) m

theorem findSpotAmong_ok {p rounds i : Nat} {r : Option Int} {m m' : Memory}
    (h : findSpotAmong p rounds i m = .ok r m') : SpotAmong m p i (i + rounds) r m' := by
  induction rounds generalizing i with
  | zero =>
    rw [findSpotAmong] at h
    cases h
    exact .nothing fun k _ _ => by omega
  | succ rounds ih =>
    rw [findSpotAmong, bind_ok] at h
    obtain ⟨v, u, hv, hrest⟩ := h
    obtain ⟨q, hq, hbound, rfl, rfl⟩ := read_ok.mp hv
    obtain rfl : q = p + 4 * i := by omega
    have hlt := m.load_lt (p + 4 * i) 4
    by_cases hnull : toInt (m.load (p + 4 * i) 4) = 0
    · rw [if_pos hnull] at hrest
      obtain ⟨f, w, hf, hrest⟩ := bind_ok.mp hrest
      obtain ⟨e, rfl, he, hin, rfl⟩ := findFreeBlock_ok hf
      rw [if_neg (by omega)] at hrest
      obtain ⟨_, x, hw, hreturn⟩ := bind_ok.mp hrest
      obtain ⟨q, hq', -, rfl⟩ := write_ok.mp hw
      obtain rfl : q = p + 4 * i := by omega
      cases hreturn
      rw [toUnsigned_natCast (by omega)]
      exact .fresh i e ⟨Nat.le_refl i, by omega⟩ ((toInt_eq_zero_iff hlt).mp hnull)
        (fun j _ _ => by omega) he hin hbound
    · rw [if_neg hnull] at hrest
      obtain ⟨f, w, hf, hrest⟩ := bind_ok.mp hrest
      obtain ⟨rfl, b, hb, hcount, hfree⟩ := isBlockFree_ok hf
      by_cases hf0 : f ≠ 0
      · rw [if_pos hf0] at hrest
        cases hrest
        rw [hb]
        exact .unmarked i b ⟨Nat.le_refl i, by omega⟩ (eq_of_toInt_eq_succ hlt hb) hcount
          (hfree.mp hf0)
      · rw [if_neg hf0] at hrest
        have hlater := ih hrest
        have hnonzero : m.load (p + 4 * i) 4 ≠ 0 := fun h0 =>
          hnull ((toInt_eq_zero_iff hlt).mpr h0)
        rw [Nat.add_right_comm, Nat.add_assoc] at hlater
        cases hlater with
        | nothing hfull =>
          refine .nothing fun k hik hkn => ?_
          by_cases hki : k = i
          · rwa [hki]
          · exact hfull k (by omega) hkn
        | fresh k e hk hnull hbefore he hin hslot =>
          refine .fresh k e ⟨by omega, hk.2⟩ hnull (fun j hij hjk => ?_) he hin hslot
          by_cases hji : j = i
          · rwa [hji]
          · exact hbefore j (by omega) hjk
        | unmarked k b hk hload hb hclear =>
          exact .unmarked k b ⟨by omega, hk.2⟩ hload hb hclear

/-- Where `find_spot_for_inode_entry` looks for a pointer of the inode at `inode`: among the
direct pointers, and when none of them is null in the block that pointer 12 gives. -/
inductive Pointers (m : Memory) (inode : Nat) : Nat → Nat → Prop
  | direct : Pointers m inode (inode + 40) 12
  | indirect (hfull : ∀ k < 12, m.load (inode + 40 + 4 * k) 4 ≠ 0) :
      Pointers m inode (offsetOf (m.load (inode + 88) 4)) 225

/-- The offset of an inode, as `get_inode` computes it. -/
def inodeAt (m : Memory) (n : Nat) : Nat := inodeTableAt m + 128 * (n - 1)

theorem getInode_natCast {n : Nat} (hn : 1 ≤ n) (m : Memory) :
    getInode n m = .ok (inodeAt m n : Int) m := by
  obtain ⟨k, rfl⟩ := Nat.exists_eq_add_of_le' hn
  rw [inodeAt, Nat.add_sub_cancel]
  exact getInode_succ k m

/-- `find_spot_for_inode_entry` finds a spot in one of the two places, or returns -1. -/
theorem findSpotForInodeEntry_ok {d : Nat} {r : Int} {m m' : Memory} (hd : 1 ≤ d)
    (h : findSpotForInodeEntry d m = .ok r m') :
    r = -1 ∨ ∃ p n, Pointers m (inodeAt m d) p n ∧ SpotAmong m p 0 n (some r) m' := by
  rw [findSpotForInodeEntry, bind_of_ok (getInode_natCast hd m)] at h
  obtain ⟨s, u, hs, hrest⟩ := bind_ok.mp h
  have hdirect : iBlock (inodeAt m d) 0 = (inodeAt m d + 40 : Nat) := by
    simp only [iBlock]
    omega
  rw [hdirect] at hs
  have hspot := findSpotAmong_ok hs
  cases s with
  | some number =>
    cases hrest
    exact .inr ⟨_, _, .direct, hspot⟩
  | none =>
    cases hspot with
    | nothing hfull =>
      obtain ⟨v, w, hv, hrest⟩ := bind_ok.mp hrest
      obtain ⟨q, hq, -, rfl, rfl⟩ := read_ok.mp hv
      obtain rfl : q = inodeAt m d + 88 := by
        simp only [iBlock] at hq
        omega
      obtain ⟨s, x, hs, hrest⟩ := bind_ok.mp hrest
      have hspot := findSpotAmong_ok (p := offsetOf (m.load (inodeAt m d + 88) 4)) hs
      cases s with
      | some number =>
        cases hrest
        exact .inr ⟨_, _, .indirect fun k hk => hfull k (Nat.zero_le k) (by omega), hspot⟩
      | none =>
        cases hrest
        exact .inl rfl

/-! ## Directory entries -/

/-- Memory after the assignments that fill a directory entry. -/
def withEntry (m : Memory) (p fileType inode recLen : Nat) (name : List UInt8) : Memory :=
  ((((m.store (p + 7) 1 fileType).store p 4 inode).store (p + 4) 2 recLen).store (p + 6) 1
    name.length).write (p + 8) name

theorem fillEntry_ok {a : Int} {fileType inode recLen : Nat} {name : List UInt8} {m m' : Memory}
    {x : Unit} (h : fillEntry a fileType inode recLen name m = .ok x m') :
    ∃ p : Nat, a = p ∧ p + 8 + name.length ≤ 131072 ∧
      m' = withEntry m p fileType inode recLen name := by
  rw [fillEntry] at h
  obtain ⟨_, m₁, h₁, h⟩ := bind_ok.mp h
  obtain ⟨_, m₂, h₂, h⟩ := bind_ok.mp h
  obtain ⟨_, m₃, h₃, h⟩ := bind_ok.mp h
  obtain ⟨_, m₄, h₄, h⟩ := bind_ok.mp h
  obtain ⟨p₁, hp₁, -, rfl⟩ := write_ok.mp h₁
  obtain ⟨p, rfl, -, rfl⟩ := write_ok.mp h₂
  obtain ⟨p₃, hp₃, -, rfl⟩ := write_ok.mp h₃
  obtain ⟨p₄, hp₄, -, rfl⟩ := write_ok.mp h₄
  obtain ⟨p₅, hp₅, hbound, rfl⟩ := memcpy_ok.mp h
  simp only [entryFileType, entryRecLen, entryNameLen, entryName] at hp₁ hp₃ hp₄ hp₅
  obtain rfl : p₁ = p + 7 := by omega
  obtain rfl : p₃ = p + 4 := by omega
  obtain rfl : p₄ = p + 6 := by omega
  obtain rfl : p₅ = p + 8 := by omega
  exact ⟨p, rfl, hbound, rfl⟩

/-- Filling an entry changes its header and its name only. -/
theorem withEntry_apply_of_outside {m : Memory} {p fileType inode recLen a : Nat}
    {name : List UInt8} (h : a < p ∨ p + 8 + name.length ≤ a) :
    withEntry m p fileType inode recLen name a = m a := by
  rw [withEntry, Memory.write_apply_of_outside (by omega),
    Memory.store_apply_of_outside (by omega), Memory.store_apply_of_outside (by omega),
    Memory.store_apply_of_outside (by omega), Memory.store_apply_of_outside (by omega)]

/-- The fields of a filled entry. -/
theorem withEntry_header (m : Memory) (p fileType inode recLen : Nat) (name : List UInt8) :
    (withEntry m p fileType inode recLen name).load p 4 = inode % 2 ^ 32 ∧
      (withEntry m p fileType inode recLen name).load (p + 4) 2 = recLen % 2 ^ 16 ∧
      (withEntry m p fileType inode recLen name).load (p + 6) 1 = name.length % 2 ^ 8 ∧
      (withEntry m p fileType inode recLen name).load (p + 7) 1 = fileType % 2 ^ 8 ∧
      (withEntry m p fileType inode recLen name).bytes (p + 8) name.length = name := by
  refine ⟨?_, ?_, ?_, ?_, Memory.bytes_write_same _ _ _⟩
  · rw [withEntry, Memory.load_write_of_disjoint (by omega),
      Memory.load_store_of_disjoint (by omega), Memory.load_store_of_disjoint (by omega),
      Memory.load_store_same]
    rfl
  · rw [withEntry, Memory.load_write_of_disjoint (by omega),
      Memory.load_store_of_disjoint (by omega), Memory.load_store_same]
    rfl
  · rw [withEntry, Memory.load_write_of_disjoint (by omega), Memory.load_store_same]
    rfl
  · rw [withEntry, Memory.load_write_of_disjoint (by omega),
      Memory.load_store_of_disjoint (by omega), Memory.load_store_of_disjoint (by omega),
      Memory.load_store_of_disjoint (by omega), Memory.load_store_same]
    rfl

/-- The length, the name length and the type of a filled entry, read as one field. -/
theorem withEntry_load_four (m : Memory) (p fileType inode recLen : Nat) (name : List UInt8) :
    (withEntry m p fileType inode recLen name).load (p + 4) 4 =
      recLen % 2 ^ 16 + 2 ^ 16 * (name.length % 2 ^ 8) + 2 ^ 24 * (fileType % 2 ^ 8) := by
  obtain ⟨-, hrec, hlen, htype, -⟩ := withEntry_header m p fileType inode recLen name
  rw [Memory.load_add _ (p + 4) 2 2, Memory.load_add _ (p + 4 + 2) 1 1, hrec, hlen, htype]
  omega

/-- Memory after `set_block_bitmap` on the block with index `e`. -/
def markBlock (m : Memory) (e : Nat) : Memory := m.orBit (blockBitmapAt m + e / 8) (e % 8)

/-- Memory after `set_inode_bitmap` on the inode with index `k`. -/
def markInode (m : Memory) (k : Nat) : Memory := m.orBit (inodeBitmapAt m + k / 8) (k % 8)

theorem setBlockBitmap_ok {e : Nat} {m m' : Memory} {x : Unit}
    (h : setBlockBitmap (e + 1) m = .ok x m') :
    blockBitmapAt m + e / 8 + 1 ≤ 131072 ∧ m' = markBlock m e := by
  rw [setBlockBitmap, bind_of_ok (getBlockBitmap_apply m)] at h
  obtain ⟨p, hp, hbound, rfl⟩ := orBit_ok.mp h
  obtain rfl : p = blockBitmapAt m + e / 8 := by omega
  exact ⟨hbound, rfl⟩

theorem setInodeBitmap_ok {k : Nat} {m m' : Memory} {x : Unit}
    (h : setInodeBitmap (k + 1) m = .ok x m') :
    inodeBitmapAt m + k / 8 + 1 ≤ 131072 ∧ m' = markInode m k := by
  rw [setInodeBitmap, bind_of_ok (getInodeBitmap_apply m)] at h
  obtain ⟨p, hp, hbound, rfl⟩ := orBit_ok.mp h
  obtain rfl : p = inodeBitmapAt m + k / 8 := by omega
  exact ⟨hbound, rfl⟩

theorem SpotAmong.number {m m' : Memory} {p i n : Nat} {r : Int}
    (h : SpotAmong m p i n (some r) m') : ∃ e : Nat, r = (e + 1 : Nat) := by
  cases h with
  | fresh k e => exact ⟨e, rfl⟩
  | unmarked k b => exact ⟨b, rfl⟩

theorem length_of_slice {path : CString} {i n : Int} {name : List UInt8}
    (h : path.slice i n = some name) : (name.length : Int) = n := by
  rw [CString.slice] at h
  split at h
  · cases h
    rw [List.length_take, List.length_drop]
    omega
  · cases h

/-- The entry goes to the block whose number is one less than the number that is marked. -/
theorem addEntry_ok {d k fileType : Nat} {path : CString} {lastDir lastChar : Int}
    {m m' : Memory} {x : Unit} (hd : 1 ≤ d) (hk : k + 1 < 2 ^ 32)
    (h : addEntry d fileType k path lastDir lastChar m = .ok x m') :
    ∃ p n e name m₁, Pointers m (inodeAt m d) p n ∧
      SpotAmong m p 0 n (some (e + 1 : Nat)) m₁ ∧
      path.slice lastDir (lastChar - lastDir + 1) = some name ∧
      e * 1024 + 8 + name.length ≤ 131072 ∧
      m' = markBlock (withEntry m₁ (e * 1024) fileType (k + 1) (name.length + 8) name) e := by
  rw [addEntry] at h
  obtain ⟨number, m₁, hspot, h⟩ := bind_ok.mp h
  obtain ⟨name, m₂, hrequire, h⟩ := bind_ok.mp h
  obtain ⟨hname, rfl⟩ := require_ok.mp hrequire
  obtain ⟨_, m₃, hfill, hmark⟩ := bind_ok.mp h
  obtain ⟨a, ha, hbound, rfl⟩ := fillEntry_ok hfill
  rw [getBlock, show blockSize = 1024 from rfl] at ha
  rcases findSpotForInodeEntry_ok hd hspot with rfl | ⟨p, n, hp, hs⟩
  · omega
  · obtain ⟨e, rfl⟩ := hs.number
    obtain rfl : a = e * 1024 := by omega
    rw [Int.natCast_add, Int.natCast_one] at hmark
    obtain ⟨-, rfl⟩ := setBlockBitmap_ok hmark
    have hlen := length_of_slice hname
    have hinode : toUnsigned ((k : Int) + 1) = k + 1 := toUnsigned_natCast (n := k + 1) hk
    have hrec : toUnsigned (lastChar - lastDir + 1 + 8) = name.length + 8 := by
      rw [← hlen]
      exact toUnsigned_natCast (n := name.length + 8) (by omega)
    rw [hinode, hrec]
    exact ⟨p, n, e, name, m₁, hp, hs, hname, hbound, rfl⟩

end OsAssignments.Ext2
