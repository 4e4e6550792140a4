import OsAssignments.Ext2.Unlink
import OsAssignments.Ext2.Frame

/-!
# Releasing an inode

A removal of the last link frees the blocks of the inode one by one. Each frees one bit and
counts one block in both places; the pointers that name the blocks stay as they are.
-/

namespace OsAssignments.Ext2

open Memory Program

variable {L : Layout} {m m' m'' : Memory}

/-! ## Freeing blocks -/

/-- Memory in which the blocks `bs`, none of which is 0, have been freed: their bits are clear,
and each has been counted in the super block and the group descriptor. -/
structure Freed (L : Layout) (bs : List Nat) (m m' : Memory) : Prop where
  positive : 0 ∉ bs
  same : ∀ a, a < 1036 ∨ 1040 ≤ a → a < 2060 ∨ 2062 ≤ a → a / 1024 ≠ L.blockBitmap → m' a = m a
  marked : ∀ b, 1 ≤ b → b ≤ 8192 → L.marked m' b = (L.marked m b && !decide (b ∈ bs))
  superBlocks : m'.load 1036 4 = (m.load 1036 4 + bs.length) % 2 ^ 32
  groupBlocks : m'.load 2060 2 = (m.load 2060 2 + bs.length) % 2 ^ 16

namespace Freed

variable {bs cs : List Nat}

theorem nil (m : Memory) : Freed L [] m m := by
  refine ⟨List.not_mem_nil, fun _ _ _ _ => rfl, fun b _ _ => by simp, ?_, ?_⟩
  · exact (Nat.mod_eq_of_lt (m.load_lt 1036 4)).symm
  · exact (Nat.mod_eq_of_lt (m.load_lt 2060 2)).symm

theorem trans (h : Freed L bs m m') (h' : Freed L cs m' m'') : Freed L (bs ++ cs) m m'' := by
  refine ⟨fun h0 => (List.mem_append.mp h0).elim h.positive h'.positive,
    fun a h1 h2 hb => (h'.same a h1 h2 hb).trans (h.same a h1 h2 hb), fun b hlo hhi => ?_, ?_, ?_⟩
  · rw [h'.marked b hlo hhi, h.marked b hlo hhi]
    simp [Bool.and_assoc]
  · rw [h'.superBlocks, h.superBlocks, List.length_append]
    omega
  · rw [h'.groupBlocks, h.groupBlocks, List.length_append]
    omega

theorem holds (h : Freed L bs m m') (hm : L.Holds m) : L.Holds m' := by
  obtain ⟨hbb, -, -, -⟩ := L.separate
  exact hm.congr fun a ha => h.same a (by omega) (by omega) (by omega)

/-- The inode table is left alone. -/
theorem table (h : Freed L bs m m') {n a : Nat} (hn : 1 ≤ n ∧ n ≤ L.inodes)
    (ha : L.inodeAt n ≤ a ∧ a < L.inodeAt n + 128) : m' a = m a := by
  have hfar := L.inode_apart hn ha
  exact h.same a (by omega) (by omega) (by omega)

/-- So are the blocks that hold no metadata. -/
theorem data (h : Freed L bs m m') {a : Nat} (ha : a / 1024 ∉ L.metadata) : m' a = m a := by
  rw [Layout.mem_metadata] at ha
  simp only [not_or] at ha
  obtain ⟨h1, h2, hb, -⟩ := ha
  exact h.same a (by omega) (by omega) hb

/-- The block pointers of an inode are read as before. -/
theorem read_word (h : Freed L bs m m') {n i : Nat} (hn : 1 ≤ n ∧ n ≤ L.inodes) (hi : i < 15) :
    read (iBlock (L.inodeAt n) i) 4 m' = .ok (L.word m n i) m' := by
  have hload : L.word m n i = L.word m' n i :=
    (load_congr fun j hj => h.table hn (by omega)).symm
  rw [hload]
  exact L.read_word hn hi m'

/-- So are the pointers in a block that holds no metadata. -/
theorem read_pointer (h : Freed L bs m m') {b i : Nat} (hb : b < L.blocks ∧ b ∉ L.metadata)
    (hi : i < 256) :
    read (blockOffset b + 4 * (i : Int)) 4 m' = .ok (m.load (b * 1024 + 4 * i) 4) m' := by
  have hmapped := L.mapped
  have hload : m'.load (b * 1024 + 4 * i) 4 = m.load (b * 1024 + 4 * i) 4 :=
    load_congr fun j hj => h.data (by
      rw [show (b * 1024 + 4 * i + j) / 1024 = b by omega]
      exact hb.2)
  rw [← hload, blockOffset_of_lt (by omega)]
  exact read_apply _ (by omega) (by omega) m'

/-- Freeing the blocks that the elements of a list give, one after the other. -/
theorem runAll {ι : Type} {f : ι → DiskM Unit} {number : ι → Option Nat} {is : List ι}
    (hstep : ∀ i ∈ is, ∀ bs s t, Freed L bs m s → f i s = .ok () t →
      Freed L (number i).toList s t) {s : Memory} (h : Freed L bs m s)
    (hrun : Program.runAll f is s = .ok () m') : Freed L (is.filterMap number) s m' := by
  induction is generalizing bs s with
  | nil =>
    cases hrun
    exact .nil _
  | cons i is ih =>
    obtain ⟨t, hi, hrun⟩ := runAll_cons_ok.mp hrun
    have hfirst := hstep i List.mem_cons_self bs s t h hi
    have hrest := ih (fun j hj => hstep j (List.mem_cons_of_mem i hj)) (h.trans hfirst) hrun
    have hall := hfirst.trans hrest
    cases hnumber : number i with
    | none =>
      rw [hnumber] at hall
      rwa [List.filterMap_cons_none hnumber]
    | some b =>
      rw [hnumber] at hall
      rwa [List.filterMap_cons_some hnumber]

end Freed

/-- `empty_inode_block` frees the block with a number in range; for 0 it is undefined. -/
theorem emptyInodeBlock_ok {b : Nat} {x : Unit} (hm : L.Holds m) (hb : b ≤ L.blocks)
    (h : emptyInodeBlock (toInt b) m = .ok x m') : Freed L [b] m m' := by
  obtain ⟨hbb, -, -, -⟩ := L.separate
  have hmapped := L.mapped
  rw [toInt_of_lt (by omega), emptyInodeBlock] at h
  obtain ⟨_, m₁, h₁, h⟩ := bind_ok.mp h
  obtain ⟨_, m₂, h₂, h⟩ := bind_ok.mp h
  obtain ⟨p₁, hp₁, -, rfl⟩ := add_ok.mp h₁
  obtain ⟨p₂, hp₂, -, rfl⟩ := add_ok.mp h₂
  simp only [bgFreeBlocksCount, sFreeBlocksCount, groupDesc, superBlock] at hp₁ hp₂
  obtain rfl : p₁ = 2060 := by omega
  obtain rfl : p₂ = 1036 := by omega
  rw [load_store_of_disjoint (by decide)] at h
  generalize hcounted : (m.store 2060 2 ((m.load 2060 2 + (1 : Int)) % 256 ^ 2).toNat).store 1036 4
    ((m.load 1036 4 + (1 : Int)) % 256 ^ 4).toNat = counted at h
  have hother : ∀ a, a < 1036 ∨ 1040 ≤ a → a < 2060 ∨ 2062 ≤ a → counted a = m a :=
    fun a h1 h2 => by
      rw [← hcounted, store_apply_of_outside (by omega), store_apply_of_outside (by omega)]
  have hholds : L.Holds counted := hm.congr fun a ha => hother a (by omega) (by omega)
  rw [unsetBlockBitmap, bind_of_ok (getBlockBitmap_apply counted), hholds.blockBitmapAt] at h
  cases b with
  | zero => cases h
  | succ k =>
    rw [Int.natCast_add, Int.natCast_one] at h
    obtain ⟨p, hp, -, rfl⟩ := andNotBit_ok.mp h
    obtain rfl : p = L.blockBitmap * 1024 + k / 8 := by omega
    have hclear : ∀ a, a / 1024 ≠ L.blockBitmap →
        counted.clearBit (L.blockBitmap * 1024 + k / 8) (k % 8) a = counted a :=
      fun a ha => clearBit_apply_of_ne (by omega)
    have hload : ∀ p n, p + n ≤ 3072 →
        (counted.clearBit (L.blockBitmap * 1024 + k / 8) (k % 8)).load p n = counted.load p n :=
      fun p n hpn => load_congr fun i hi => hclear _ (by omega)
    refine ⟨by simp, fun a h1 h2 ha => ?_, fun b hlo hhi => ?_, ?_, ?_⟩
    · rw [hclear a ha, hother a h1 h2]
    · have hbit : L.marked counted b = L.marked m b := bit_congr (hother _ (by omega) (by omega))
      rw [Layout.marked, bit_clearBit, ← Layout.marked, hbit]
      by_cases hkb : k = b - 1
      · simp [hkb, Nat.sub_add_cancel hlo]
      · have hne : b ≠ k + 1 := by omega
        simp [hkb, hne]
    · rw [hload 1036 4 (by decide), ← hcounted, load_store_same, List.length_singleton]
      have hlt := m.load_lt 1036 4
      omega
    · rw [hload 2060 2 (by decide), ← hcounted, load_store_of_disjoint (by decide),
        load_store_same, List.length_singleton]
      have hlt := m.load_lt 2060 2
      omega

/-! ## Releasing -/

namespace Layout

/-- The blocks that a release frees, in order: those of the twelve direct pointers, null or not,
and what is not 0 among 226 words of the block of pointer 13. -/
def freedBlocks (L : Layout) (m : Memory) (n : Nat) : List Nat :=
  (List.range 12).map (L.word m n) ++
    if L.word m n 13 = 0 then []
    else (List.range 226).filterMap fun i =>
      let b := m.load (L.word m n 13 * 1024 + 4 * i) 4
      if b = 0 then none else some b

/-- An inode whose release frees blocks of the image, and whose pointer 13 is null or gives a
block that holds no metadata. -/
structure Releasable (L : Layout) (m : Memory) (n : Nat) : Prop where
  blocks : ∀ b ∈ L.freedBlocks m n, 1 ≤ b ∧ b ≤ L.blocks
  indirect : L.word m n 13 = 0 ∨ L.word m n 13 < L.blocks ∧ L.word m n 13 ∉ L.metadata

end Layout

/-- The pointers of an inode, and the block of pointer 13, decide which blocks are freed. -/
theorem Layout.freedBlocks_congr {n : Nat}
    (hextra : L.word m n 13 = 0 ∨ L.word m n 13 < L.blocks ∧ L.word m n 13 ∉ L.metadata)
    (hinode : ∀ a, L.inodeAt n + 40 ≤ a → a < L.inodeAt n + 128 → m' a = m a)
    (hdata : ∀ a, a / 1024 ∉ L.metadata → m' a = m a) :
    L.word m' n 13 = L.word m n 13 ∧ L.freedBlocks m' n = L.freedBlocks m n := by
  have hword : ∀ i < 14, L.word m' n i = L.word m n i := fun i hi =>
    load_congr fun j hj => hinode _ (by omega) (by omega)
  refine ⟨hword 13 (by decide), ?_⟩
  rw [freedBlocks, freedBlocks, hword 13 (by decide)]
  refine congrArg₂ (· ++ ·) ?_ ?_
  · exact List.map_congr_left fun i hi => hword i (by
      have hlt := List.mem_range.mp hi
      omega)
  · split
    · rfl
    · next hne =>
      obtain ⟨-, hin⟩ := hextra.resolve_left hne
      refine List.filterMap_congr fun i hi => ?_
      have hlt := List.mem_range.mp hi
      have hload : m'.load (L.word m n 13 * 1024 + 4 * i) 4 =
          m.load (L.word m n 13 * 1024 + 4 * i) 4 := load_congr fun j hj => hdata _ (by
        rwa [show (L.word m n 13 * 1024 + 4 * i + j) / 1024 = L.word m n 13 by omega])
      simp only [hload]

theorem Layout.Releasable.congr {n : Nat} (h : L.Releasable m n)
    (hinode : ∀ a, L.inodeAt n + 40 ≤ a → a < L.inodeAt n + 128 → m' a = m a)
    (hdata : ∀ a, a / 1024 ∉ L.metadata → m' a = m a) :
    L.freedBlocks m' n = L.freedBlocks m n ∧ L.Releasable m' n := by
  obtain ⟨hword, hfreed⟩ := freedBlocks_congr h.indirect hinode hdata
  refine ⟨hfreed, ?_, ?_⟩
  · rw [hfreed]
    exact h.blocks
  · rw [hword]
    exact h.indirect

/-- The two loops of a release free the blocks of the inode. -/
theorem emptyBlocks_ok {n : Nat} {x y : Unit} (hm : L.Holds m) (hn : 1 ≤ n ∧ n ≤ L.inodes)
    (hblocks : ∀ b ∈ L.freedBlocks m n, b ≤ L.blocks)
    (hextra : L.word m n 13 = 0 ∨ L.word m n 13 < L.blocks ∧ L.word m n 13 ∉ L.metadata)
    (hdirect : emptyDirectBlocks n m = .ok x m')
    (hindirect : emptySigleIndirectBlocks n m' = .ok y m'') :
    Freed L (L.freedBlocks m n) m m'' := by
  rw [emptyDirectBlocks, bind_of_ok (hm.getInode hn)] at hdirect
  have hfirst : Freed L ((List.range 12).map (L.word m n)) m m' := by
    rw [← List.filterMap_eq_map]
    refine Freed.runAll (fun i hi bs s t hs ht => ?_) (.nil m) hdirect
    have hi' := List.mem_range.mp hi
    rw [bind_of_ok (hs.read_word hn (by omega))] at ht
    exact emptyInodeBlock_ok (hs.holds hm) (hblocks _ (List.mem_append_left _
      (List.mem_map_of_mem hi))) ht
  rw [emptySigleIndirectBlocks, bind_of_ok ((hfirst.holds hm).getInode hn),
    bind_of_ok (hfirst.read_word hn (by decide))] at hindirect
  refine hfirst.trans ?_
  by_cases hnull : L.word m n 13 = 0
  · rw [if_pos hnull]
    rw [if_neg (by simpa using hnull)] at hindirect
    cases hindirect
    exact .nil _
  · rw [if_neg hnull]
    rw [if_pos hnull] at hindirect
    refine Freed.runAll (m := m) (fun i hi bs s t hs ht => ?_) hfirst hindirect
    have hi' := List.mem_range.mp hi
    rw [bind_of_ok (hs.read_pointer (hextra.resolve_left hnull) (by omega))] at ht
    by_cases hzero : m.load (L.word m n 13 * 1024 + 4 * i) 4 = 0
    · rw [if_pos hzero]
      rw [if_neg (by simpa using hzero)] at ht
      cases ht
      exact .nil _
    · rw [if_neg hzero]
      rw [if_pos hzero] at ht
      refine emptyInodeBlock_ok (hs.holds hm) (hblocks _ (List.mem_append_right _ ?_)) ht
      rw [if_neg hnull]
      exact List.mem_filterMap.mpr ⟨i, hi, if_neg hzero⟩

/-- Memory after the inode with index `k` is counted free and its bit cleared. -/
def withoutInode (m : Memory) (k : Nat) : Memory :=
  let counted := (m.store 2062 2 ((m.load 2062 2 + 1) % 2 ^ 16)).store 1040 4
    ((m.load 1040 4 + 1) % 2 ^ 32)
  counted.clearBit (inodeBitmapAt counted + k / 8) (k % 8)

/-- Freeing an inode changes two counters and its bit. -/
theorem withoutInode_spec (hm : L.Holds m) {k : Nat} (hk : k < L.inodes) :
    (∀ a, a < 1040 ∨ 1044 ≤ a → a < 2062 ∨ 2064 ≤ a → a / 1024 ≠ L.inodeBitmap →
      withoutInode m k a = m a) ∧
    L.inUse (withoutInode m k) = Function.update (L.inUse m) (k + 1) false ∧
    (withoutInode m k).load 1040 4 = (m.load 1040 4 + 1) % 2 ^ 32 ∧
    (withoutInode m k).load 2062 2 = (m.load 2062 2 + 1) % 2 ^ 16 ∧
    ∀ a, a / 1024 = L.inodeBitmap → withoutInode m k a =
      m.clearBit (L.inodeBitmap * 1024 + k / 8) (k % 8) a := by
  have hinodes := L.inodes_le
  obtain ⟨-, hib, -, -⟩ := L.separate
  rw [withoutInode]
  generalize hcounted : (m.store 2062 2 ((m.load 2062 2 + 1) % 2 ^ 16)).store 1040 4
    ((m.load 1040 4 + 1) % 2 ^ 32) = counted
  have hother : ∀ a, a < 1040 ∨ 1044 ≤ a → a < 2062 ∨ 2064 ≤ a → counted a = m a :=
    fun a hs hg => by
      rw [← hcounted, store_apply_of_outside (by omega), store_apply_of_outside (by omega)]
  have hholds : L.Holds counted := hm.congr fun a ha => hother a (by omega) (by omega)
  simp only [hholds.inodeBitmapAt]
  have hclear : ∀ a, a / 1024 ≠ L.inodeBitmap →
      counted.clearBit (L.inodeBitmap * 1024 + k / 8) (k % 8) a = counted a :=
    fun a ha => clearBit_apply_of_ne (by omega)
  have hload : ∀ p n, p + n ≤ 3072 →
      (counted.clearBit (L.inodeBitmap * 1024 + k / 8) (k % 8)).load p n = counted.load p n :=
    fun p n hpn => load_congr fun i hi => hclear _ (by omega)
  refine ⟨fun a hs hg ha => (hclear a ha).trans (hother a hs hg), funext fun n => ?_, ?_, ?_,
    fun a ha => clearBit_congr (hother _ (by omega) (by omega)) (hother a (by omega) (by omega))⟩
  · rw [Bool.eq_iff_iff, Layout.inUse_iff, bit_clearBit]
    by_cases hn : n = k + 1
    · simp [hn]
    · have hbit : L.inUse counted n = L.inUse m n := congrFun (Owned.inUse_congr fun a ha =>
        hother a (by omega) (by omega)) n
      rw [Function.update_of_ne hn, ← hbit, Layout.inUse_iff]
      refine and_congr_right fun hlo => and_congr_right fun _ => ?_
      have hkn : k ≠ n - 1 := by omega
      simp [hkn]
  · rw [hload 1040 4 (by decide), ← hcounted, load_store_same]
    omega
  · rw [hload 2062 2 (by decide), ← hcounted, load_store_of_disjoint (by decide), load_store_same]
    omega

/-- A release frees the blocks and then the inode. -/
theorem releaseInode_ok {n : Nat} {x : Unit} (hm : L.Holds m) (hn : 1 ≤ n ∧ n ≤ L.inodes)
    (hblocks : ∀ b ∈ L.freedBlocks m n, b ≤ L.blocks)
    (hextra : L.word m n 13 = 0 ∨ L.word m n 13 < L.blocks ∧ L.word m n 13 ∉ L.metadata)
    (hrelease : releaseInode n m = .ok x m') :
    ∃ u, Freed L (L.freedBlocks m n) m u ∧ m' = withoutInode u (n - 1) := by
  rw [releaseInode] at hrelease
  obtain ⟨_, u₁, hdirect, hrelease⟩ := bind_ok.mp hrelease
  obtain ⟨_, u, hindirect, hrelease⟩ := bind_ok.mp hrelease
  obtain ⟨_, u₂, h₂, hrelease⟩ := bind_ok.mp hrelease
  obtain ⟨_, u₃, h₃, hrelease⟩ := bind_ok.mp hrelease
  obtain ⟨p₂, hp₂, -, rfl⟩ := add_ok.mp h₂
  obtain ⟨p₃, hp₃, -, rfl⟩ := add_ok.mp h₃
  simp only [bgFreeInodesCount, sFreeInodesCount, groupDesc, superBlock] at hp₂ hp₃
  obtain rfl : p₂ = 2062 := by omega
  obtain rfl : p₃ = 1040 := by omega
  rw [load_store_of_disjoint (by decide)] at hrelease
  refine ⟨u, emptyBlocks_ok hm hn hblocks hextra hdirect hindirect, ?_⟩
  obtain ⟨k, rfl⟩ := Nat.exists_eq_add_of_le' hn.1
  rw [unsetInodeBitmap, bind_of_ok (getInodeBitmap_apply _), Int.natCast_add,
    Int.natCast_one] at hrelease
  obtain ⟨p, hp, -, rfl⟩ := andNotBit_ok.mp hrelease
  have hgroup : ((u.load 2062 2 + (1 : Int)) % 256 ^ 2).toNat = (u.load 2062 2 + 1) % 2 ^ 16 := by
    omega
  have hsuper : ((u.load 1040 4 + (1 : Int)) % 256 ^ 4).toNat = (u.load 1040 4 + 1) % 2 ^ 32 := by
    omega
  rw [hgroup, hsuper] at hp ⊢
  rw [withoutInode, Nat.add_sub_cancel]
  exact congrArg (Memory.clearBit _ · (k % 8)) (by omega)

/-! ## Releases that return -/

/-- A block whose number is in range can be freed. -/
theorem emptyInodeBlock_returns {b : Nat} (hm : L.Holds m) (hb : 1 ≤ b ∧ b ≤ L.blocks) :
    ∃ m', emptyInodeBlock (toInt b) m = .ok () m' := by
  obtain ⟨k, rfl⟩ := Nat.exists_eq_add_of_le' hb.1
  obtain ⟨hbb, -, -, -⟩ := L.separate
  have hmapped := L.mapped
  have hin := L.lt_blocks (Layout.mem_metadata.mpr (.inr (.inr (.inl rfl))))
  rw [toInt_of_lt (by omega), emptyInodeBlock,
    bind_of_ok (add_apply bgFreeBlocksCount (p := 2060) rfl (by decide) 1 m),
    bind_of_ok (add_apply sFreeBlocksCount (p := 1036) rfl (by decide) 1 _)]
  generalize hcounted : Memory.store _ 1036 4 _ = counted
  have hholds : L.Holds counted := hm.congr fun a ha => by
    rw [← hcounted, store_apply_of_outside (by omega), store_apply_of_outside (by omega)]
  rw [unsetBlockBitmap, bind_of_ok (getBlockBitmap_apply counted), hholds.blockBitmapAt,
    Int.natCast_add, Int.natCast_one]
  exact ⟨_, andNotBit_ok.mpr ⟨L.blockBitmap * 1024 + k / 8, by omega, by omega, rfl⟩⟩

/-- An inode whose release frees blocks of the image can be released. -/
theorem releaseInode_returns {n : Nat} (hm : L.Holds m) (hn : 1 ≤ n ∧ n ≤ L.inodes)
    (h : L.Releasable m n) : ∃ m', releaseInode n m = .ok () m' := by
  have hmapped := L.mapped
  have hinodes := L.inodes_le
  have hfree : ∀ b ∈ L.freedBlocks m n, ∀ s, (∃ bs, Freed L bs m s) →
      ∃ t, emptyInodeBlock (toInt b) s = .ok () t ∧ ∃ bs, Freed L bs m t := by
    rintro b hb s ⟨bs, hs⟩
    obtain ⟨t, ht⟩ := emptyInodeBlock_returns (hs.holds hm) (h.blocks b hb)
    exact ⟨t, ht, _, hs.trans (emptyInodeBlock_ok (hs.holds hm) (h.blocks b hb).2 ht)⟩
  have hround : ∀ i ∈ List.range 12, ∀ s, (∃ bs, Freed L bs m s) →
      ∃ t, (do emptyInodeBlock (toInt (← read (iBlock (L.inodeAt n) i) 4)) : DiskM Unit) s =
        .ok () t ∧ ∃ bs, Freed L bs m t := by
    rintro i hi s ⟨bs, hs⟩
    have hi' := List.mem_range.mp hi
    rw [bind_of_ok (hs.read_word hn (by omega))]
    exact hfree _ (List.mem_append_left _ (List.mem_map_of_mem hi)) s ⟨bs, hs⟩
  have hstart : ∃ bs, Freed L bs m m := ⟨[], .nil m⟩
  obtain ⟨v, hv, hfreed⟩ := runAll_returns hround hstart
  have hdirect : emptyDirectBlocks n m = .ok () v := by
    rw [emptyDirectBlocks, bind_of_ok (hm.getInode hn)]
    exact hv
  have hindirect : ∃ u, emptySigleIndirectBlocks n v = .ok () u ∧ ∃ bs, Freed L bs m u := by
    obtain ⟨bs, hbs⟩ := hfreed
    rw [emptySigleIndirectBlocks, bind_of_ok ((hbs.holds hm).getInode hn),
      bind_of_ok (hbs.read_word hn (by decide))]
    by_cases hnull : L.word m n 13 = 0
    · rw [if_neg (not_not.mpr hnull)]
      exact ⟨v, rfl, bs, hbs⟩
    · rw [if_pos hnull]
      refine runAll_returns (fun i hi s hs => ?_) ⟨bs, hbs⟩
      obtain ⟨cs, hcs⟩ := hs
      have hi' := List.mem_range.mp hi
      rw [bind_of_ok (hcs.read_pointer (h.indirect.resolve_left hnull) (by omega))]
      by_cases hzero : m.load (L.word m n 13 * 1024 + 4 * i) 4 = 0
      · rw [if_neg (not_not.mpr hzero)]
        exact ⟨s, rfl, cs, hcs⟩
      · rw [if_pos hzero]
        refine hfree _ (List.mem_append_right _ ?_) s ⟨cs, hcs⟩
        rw [if_neg hnull]
        exact List.mem_filterMap.mpr ⟨i, hi, if_neg hzero⟩
  obtain ⟨u, hu, bs, hbs⟩ := hindirect
  rw [releaseInode, bind_of_ok hdirect, bind_of_ok hu,
    bind_of_ok (add_apply bgFreeInodesCount (p := 2062) rfl (by decide) 1 u),
    bind_of_ok (add_apply sFreeInodesCount (p := 1040) rfl (by decide) 1 _)]
  generalize hcounted : Memory.store _ 1040 4 _ = counted
  have hholds : L.Holds counted := (hbs.holds hm).congr fun a ha => by
    rw [← hcounted, store_apply_of_outside (by omega), store_apply_of_outside (by omega)]
  obtain ⟨k, rfl⟩ := Nat.exists_eq_add_of_le' hn.1
  have hin := L.lt_blocks (Layout.mem_metadata.mpr (.inr (.inr (.inr (.inl rfl)))))
  rw [unsetInodeBitmap, bind_of_ok (getInodeBitmap_apply counted), hholds.inodeBitmapAt,
    Int.natCast_add, Int.natCast_one]
  exact ⟨_, andNotBit_ok.mpr ⟨L.inodeBitmap * 1024 + k / 8, by omega, by omega, rfl⟩⟩

/-! ## One link less -/

theorem linksAt_eq {n : Nat} (hm : L.Holds m) (hn : 1 ≤ n ∧ n ≤ L.inodes) :
    linksAt m n = (L.inodeAt n + 26 : Nat) := by
  rw [linksAt, hm.inodeTableAt (by omega), Layout.inodeAt]
  omega

theorem load_withoutLink (m : Memory) (q : Nat) :
    (withoutLink m q).load q 2 = (m.load q 2 + 65535) % 65536 := by
  have hlt := m.load_lt q 2
  rw [withoutLink, load_store_same]
  omega

/-- A link that is counted less lies in the inode. -/
theorem holds_withoutLink {n : Nat} (hm : L.Holds m) (hn : 1 ≤ n ∧ n ≤ L.inodes) :
    L.Holds (withoutLink m (L.inodeAt n + 26)) := hm.congr fun a ha =>
  store_apply_of_outside (by
    have hapart := L.inode_apart hn (y := L.inodeAt n + 26) (by omega)
    omega)

/-- The inode is released when the link that is counted less is the only one. -/
theorem dropLink_iff {n : Nat} (hm : L.Holds m) (hn : 1 ≤ n ∧ n ≤ L.inodes) :
    dropLink n m = .ok () m' ↔
      m.load (L.inodeAt n + 26) 2 ≠ 1 ∧ m' = withoutLink m (L.inodeAt n + 26) ∨
        m.load (L.inodeAt n + 26) 2 = 1 ∧
          releaseInode n (withoutLink m (L.inodeAt n + 26)) = .ok () m' := by
  obtain ⟨-, hbound⟩ := L.inodeAt_bound hn
  have hlinks := linksAt_eq hm hn
  have hlt := m.load_lt (L.inodeAt n + 26) 2
  have hload := load_withoutLink m (L.inodeAt n + 26)
  have hrun : dropLink n m = (if (withoutLink m (L.inodeAt n + 26)).load (L.inodeAt n + 26) 2 = 0
      then releaseInode n else pure ()) (withoutLink m (L.inodeAt n + 26)) := by
    rw [dropLink, bind_of_ok (getInode_apply _ m)]
    change (add (linksAt m n) 2 (-1) >>= _) m = _
    rw [bind_of_ok (add_apply _ hlinks (by omega) _ m)]
    change (read (linksAt m n) 2 >>= _) (withoutLink m (L.inodeAt n + 26)) = _
    rw [bind_of_ok (read_apply _ hlinks (by omega) _)]
  rw [hrun]
  by_cases hone : m.load (L.inodeAt n + 26) 2 = 1
  · rw [if_pos (by omega)]
    simp only [hone, ne_eq, not_true_eq_false, false_and, false_or, true_and]
  · rw [if_neg (by omega)]
    simp only [hone, ne_eq, not_false_eq_true, false_and, or_false, true_and]
    constructor
    · intro h
      cases h
      rfl
    · rintro rfl
      rfl

/-- What counting one link of inode `n` less changes: the count, and what a release of the inode
counts and marks. -/
structure LinkDropped (L : Layout) (n : Nat) (m u : Memory) : Prop where
  same : ∀ a, ¬ L.Decides a → a < L.inodeAt n + 26 ∨ L.inodeAt n + 28 ≤ a → u a = m a
  links : u.load (L.inodeAt n + 26) 2 = (m.load (L.inodeAt n + 26) 2 + 65535) % 65536
  inUse : ∀ k ≠ n, L.inUse u k = L.inUse m k
  positive : m.load (L.inodeAt n + 26) 2 = 1 → 0 ∉ L.freedBlocks m n

section

variable {n : Nat}

/-- The count is outside the pointers, and in the metadata. -/
theorem withoutLink_congr (hn : 1 ≤ n ∧ n ≤ L.inodes) :
    (∀ a, L.inodeAt n + 40 ≤ a → a < L.inodeAt n + 128 →
      withoutLink m (L.inodeAt n + 26) a = m a) ∧
    ∀ a, a / 1024 ∉ L.metadata → withoutLink m (L.inodeAt n + 26) a = m a := by
  refine ⟨fun a hlo _ => store_apply_of_outside (by omega), fun a ha =>
    store_apply_of_outside ?_⟩
  by_contra hin
  exact ha (L.inode_mem_metadata hn (by omega))

theorem dropLink_spec {u : Memory} (hm : L.Holds m) (hn : 1 ≤ n ∧ n ≤ L.inodes)
    (hblocks : ∀ b ∈ L.freedBlocks m n, b ≤ L.blocks)
    (hextra : L.word m n 13 = 0 ∨ L.word m n 13 < L.blocks ∧ L.word m n 13 ∉ L.metadata)
    (h : dropLink n m = .ok () u) : LinkDropped L n m u := by
  obtain ⟨hbb, hib, hbi, -⟩ := L.separate
  have hapart := L.inode_apart hn (y := L.inodeAt n + 26) (by omega)
  obtain ⟨haligned, -⟩ := L.inodeAt_bound hn
  have hholds := holds_withoutLink hm hn
  have hload := load_withoutLink m (L.inodeAt n + 26)
  have hsame : ∀ a, a < L.inodeAt n + 26 ∨ L.inodeAt n + 28 ≤ a →
      withoutLink m (L.inodeAt n + 26) a = m a := fun a ha => store_apply_of_outside (by omega)
  obtain ⟨hpointers, hdata⟩ := withoutLink_congr (m := m) hn
  obtain ⟨hword, hfreed⟩ := Layout.freedBlocks_congr hextra hpointers hdata
  have hused : L.inUse (withoutLink m (L.inodeAt n + 26)) = L.inUse m :=
    Owned.inUse_congr fun a ha => hsame a (by omega)
  have hcases := (dropLink_iff hm hn).mp h
  generalize withoutLink m (L.inodeAt n + 26) = w at *
  rcases hcases with ⟨hne, rfl⟩ | ⟨hone, hrelease⟩
  · exact ⟨fun a _ ha => hsame a ha, hload, fun k _ => congrFun hused k,
      fun hone => absurd hone hne⟩
  · rw [← hword] at hextra
    rw [← hfreed] at hblocks
    obtain ⟨v, hfree, rfl⟩ := releaseInode_ok hholds hn hblocks hextra hrelease
    obtain ⟨happly, hinUse, -⟩ :=
      withoutInode_spec (hfree.holds hholds) (show n - 1 < L.inodes by omega)
    have hother : ∀ a, ¬ L.Decides a → withoutInode v (n - 1) a = w a := by
      intro a ha
      simp only [Layout.Decides, not_or] at ha
      rw [happly a (by omega) (by omega) ha.2.2.2, hfree.same a (by omega) (by omega) ha.2.2.1]
    have hin : ∀ i < 2, ¬ L.Decides (L.inodeAt n + 26 + i) := fun i hi hdecides => by
      rw [Layout.Decides, show (L.inodeAt n + 26 + i) / 1024 = (L.inodeAt n + 26) / 1024 by
        omega] at hdecides
      omega
    refine ⟨fun a hdecides ha => (hother a hdecides).trans (hsame a ha), ?_, fun k hk => ?_,
      fun _ => ?_⟩
    · rw [load_congr fun i hi => hother _ (hin i hi), hload]
    · rw [hinUse, Nat.sub_add_cancel hn.1, Function.update_of_ne hk, ← congrFun hused k]
      exact congrFun (Owned.inUse_congr fun a ha =>
        hfree.same a (by omega) (by omega) (by omega)) k
    · rw [← hfreed]
      exact hfree.positive

/-- The blocks that hold no metadata stay. -/
theorem LinkDropped.data {u : Memory} (h : LinkDropped L n m u) (hn : 1 ≤ n ∧ n ≤ L.inodes)
    {a : Nat} (ha : a / 1024 ∉ L.metadata) : u a = m a := by
  obtain ⟨hdecides, hout⟩ := L.outside_of_data hn ha
  exact h.same a hdecides (by omega)

/-- A link can be counted less unless a release would free the block with number 0. -/
theorem dropLink_returns (hm : L.Holds m) (hn : 1 ≤ n ∧ n ≤ L.inodes)
    (hblocks : ∀ b ∈ L.freedBlocks m n, b ≤ L.blocks)
    (hextra : L.word m n 13 = 0 ∨ L.word m n 13 < L.blocks ∧ L.word m n 13 ∉ L.metadata)
    (hpositive : m.load (L.inodeAt n + 26) 2 = 1 → 0 ∉ L.freedBlocks m n) :
    ∃ u, dropLink n m = .ok () u := by
  by_cases hone : m.load (L.inodeAt n + 26) 2 = 1
  · obtain ⟨hpointers, hdata⟩ := withoutLink_congr (m := m) hn
    have hreleasable : L.Releasable m n := ⟨fun b hb =>
      ⟨Nat.pos_of_ne_zero (ne_of_mem_of_not_mem hb (hpositive hone)), hblocks b hb⟩, hextra⟩
    obtain ⟨u, hu⟩ := releaseInode_returns (holds_withoutLink hm hn) hn
      (hreleasable.congr hpointers hdata).2
    exact ⟨u, (dropLink_iff hm hn).mpr (.inr ⟨hone, hu⟩)⟩
  · exact ⟨_, (dropLink_iff hm hn).mpr (.inl ⟨hone, rfl⟩)⟩

end

end OsAssignments.Ext2
