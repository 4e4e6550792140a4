import OsAssignments.Ext2.Entries
import OsAssignments.Ext2.Release
import OsAssignments.Ext2.Sample

/-!
# Removing the last link

A removal of the last link should free the blocks of the file. It takes every direct pointer
for one to a block, looks for the indirect block at pointer 13, and enlarges a field before the
entry, whatever it belongs to.
-/

namespace OsAssignments.Ext2

open Memory Program

variable {L : Layout} {m m' u : Memory} {path : CString} {n p : Nat}

/-! ## The file and its entry -/

namespace Layout

/-- The blocks of a file without double or triple indirect blocks. -/
def ownBlocks (L : Layout) (m : Memory) (n : Nat) : List Nat :=
  ((List.range 12).map (L.word m n) ++
    if L.word m n 12 = 0 then []
    else L.word m n 12 :: (List.range 256).map fun k =>
      m.load (L.word m n 12 * 1024 + 4 * k) 4).filter (· ≠ 0)

/-- There is an entry at `p`, in a block that the size of some directory covers. -/
def EntryAt (L : Layout) (m : Memory) (p : Nat) : Prop :=
  ∃ d b offsets o, L.inUse m d = true ∧ L.isDirectory m d = true ∧
    b ∈ (L.fileBlocks m d).take (m.load (L.inodeAt d + 4) 4 / 1024) ∧
    entryOffsets m b 129 0 = some offsets ∧ o ∈ offsets ∧ p = b * 1024 + o

end Layout

/-- Inode `n` is that of a regular file with one link and no double or triple indirect block.
Where the search for `path` ends at an entry, it is one of a directory and names `n`. -/
structure LastLink (L : Layout) (m : Memory) (path : CString) (n : Nat) : Prop where
  used : L.inUse m n = true
  regular : m.load (L.inodeAt n) 2 &&& 0xf000 = ext2SIfreg
  links : m.load (L.inodeAt n + 26) 2 = 1
  single : L.word m n 13 = 0 ∧ L.word m n 14 = 0
  search : ∀ entry u, findFile path m = .ok entry u →
    ∃ p : Nat, entry = p ∧ L.EntryAt m p ∧ m.load p 4 = n

/-- The search ends at the entry `p` of such a file. -/
structure FoundLink (L : Layout) (m : Memory) (path : CString) (n p : Nat) : Prop where
  file : LastLink L m path n
  found : findFile path m = .ok p m
  entry : L.EntryAt m p
  names : m.load p 4 = n

theorem LastLink.foundLink {entry : Int} (hfile : LastLink L m path n)
    (hfound : findFile path m = .ok entry u) : ∃ p : Nat, entry = p ∧ FoundLink L m path n p := by
  obtain ⟨p, rfl, hentry, hnames⟩ := hfile.search entry u hfound
  obtain rfl : m = u := (readOnly_findFile path).of_ok hfound
  exact ⟨p, rfl, hfile, hfound, hentry, hnames⟩

/-- In `m'` exactly the blocks of inode `n` and the inode have been freed and counted. -/
structure FreedFile (L : Layout) (n : Nat) (m m' : Memory) : Prop where
  marked : ∀ b, 1 ≤ b → b ≤ 8192 →
    L.marked m' b = (L.marked m b && !decide (b ∈ L.ownBlocks m n))
  superBlocks : m'.load 1036 4 = m.load 1036 4 + (L.ownBlocks m n).length
  groupBlocks : m'.load 2060 2 = m.load 2060 2 + (L.ownBlocks m n).length
  unused : L.inUse m' n = false
  superInodes : m'.load 1040 4 = m.load 1040 4 + 1
  groupInodes : m'.load 2062 2 = m.load 2062 2 + 1

/-- The field that a removal of the entry at `p` enlarges. -/
def grownField (m : Memory) (p : Nat) : Nat := p + 4 - m.load (p + 4) 2

/-- Enlarging that field changes no free count and no bit of the block bitmap, and does not set
the cleared bit of inode `n` again. -/
structure HarmlessGrowth (L : Layout) (m : Memory) (n p : Nat) : Prop where
  counter : grownField m p ≠ 2060
  bitmap : grownField m p / 1024 ≠ L.blockBitmap
  inode : let cleared := m.clearBit (L.inodeBitmap * 1024 + (n - 1) / 8) ((n - 1) % 8)
    (cleared.store (grownField m p) 2
      ((cleared.load (grownField m p) 2 + m.load (p + 4) 2) % 65536)).bit
        (L.inodeBitmap * 1024) (n - 1) = false

/-- An entry lies in a block that holds no metadata, and so does its length. -/
theorem Layout.EntryAt.spec (h : Consistent L m) (hp : L.EntryAt m p) :
    ∃ b o, p = b * 1024 + o ∧ 3 ≤ b ∧ b < L.blocks ∧ b ∉ L.metadata ∧ o % 4 = 0 ∧
      m.load (p + 4) 2 % 4 = 0 ∧ 8 ≤ m.load (p + 4) 2 ∧ o + m.load (p + 4) 2 ≤ 1024 := by
  obtain ⟨d, b, offsets, o, hused, hdir, hb, hoffsets, ho, rfl⟩ := hp
  obtain ⟨⟨hlo, hhi⟩, hdata, -⟩ := h.covered hused hdir hb
  obtain ⟨h4, hrec4, hrec, hend⟩ := aligned_of_entryOffsets hoffsets (Nat.zero_mod 4) o ho
  exact ⟨b, o, rfl, hlo, hhi, hdata, h4, hrec4, hrec, hend⟩

/-! ## The release -/

/-- What is left once the blocks of the direct pointers of inode `n`, and the inode, have been
freed and counted. -/
structure Released (L : Layout) (n : Nat) (m u : Memory) : Prop where
  positive : ∀ i < 12, L.word m n i ≠ 0
  marked : ∀ b, 1 ≤ b → b ≤ 8192 →
    L.marked u b = (L.marked m b && !decide (b ∈ (List.range 12).map (L.word m n)))
  superBlocks : u.load 1036 4 = (m.load 1036 4 + 12) % 2 ^ 32
  groupBlocks : u.load 2060 2 = (m.load 2060 2 + 12) % 2 ^ 16
  superInodes : u.load 1040 4 = (m.load 1040 4 + 1) % 2 ^ 32
  groupInodes : u.load 2062 2 = (m.load 2062 2 + 1) % 2 ^ 16
  inodes : ∀ a, a / 1024 = L.inodeBitmap →
    u a = m.clearBit (L.inodeBitmap * 1024 + (n - 1) / 8) ((n - 1) % 8) a
  data : ∀ a, a / 1024 ∉ L.metadata → u a = m a

theorem FoundLink.numbered (hfile : FoundLink L m path n p) : 1 ≤ n ∧ n ≤ L.inodes := by
  obtain ⟨hlo, hhi, -⟩ := Layout.inUse_iff.mp hfile.file.used
  exact ⟨hlo, hhi⟩

/-- The pointers of the file give blocks of the image. -/
theorem FoundLink.words (hfile : FoundLink L m path n p) (h : Consistent L m) :
    ∀ i < 12, L.word m n i ≠ 0 → L.Granted m (L.word m n i) := fun i hi hne =>
  (h.owned.backed hfile.file.used).granted (.direct ⟨i, hi⟩) _ rfl hne

/-- The blocks that are freed are those of the direct pointers, null or not. -/
theorem FoundLink.freedBlocks (hfile : FoundLink L m path n p) (h : Consistent L m) :
    L.freedBlocks m n = (List.range 12).map (L.word m n) ∧
      ∀ b ∈ L.freedBlocks m n, b ≤ L.blocks := by
  have hfreed : L.freedBlocks m n = (List.range 12).map (L.word m n) := by
    rw [Layout.freedBlocks, if_pos hfile.file.single.1, List.append_nil]
  refine ⟨hfreed, fun b hb => ?_⟩
  rw [hfreed] at hb
  obtain ⟨i, hi, rfl⟩ := List.mem_map.mp hb
  by_cases hne : L.word m n i = 0
  · omega
  · exact (hfile.words h i (List.mem_range.mp hi) hne).inside.le

/-- The release of the inode, once its link count is 0. -/
theorem FoundLink.release_ok {x : Unit} (hfile : FoundLink L m path n p) (h : Consistent L m)
    (hrelease : releaseInode n (withoutLink m (L.inodeAt n + 26)) = .ok x u) :
    Released L n m u := by
  have hn := hfile.numbered
  obtain ⟨hbb, hib, hbi, -⟩ := L.separate
  have hinodes := L.inodes_le
  have hapart := L.inode_apart hn (y := L.inodeAt n + 26) (by omega)
  obtain ⟨haligned, -⟩ := L.inodeAt_bound hn
  obtain ⟨hpointers, hdata⟩ := withoutLink_congr (m := m) hn
  obtain ⟨hword, hfreed⟩ :=
    Layout.freedBlocks_congr (.inl hfile.file.single.1) hpointers hdata
  obtain ⟨hdirect, hblocks⟩ := hfile.freedBlocks h
  have hholds := holds_withoutLink h.holds hn
  have hfar : ∀ a, a / 1024 = 1 ∨ a / 1024 = 2 ∨ a / 1024 = L.blockBitmap ∨
      a / 1024 = L.inodeBitmap → withoutLink m (L.inodeAt n + 26) a = m a := fun a ha =>
    store_apply_of_outside (by omega)
  generalize withoutLink m (L.inodeAt n + 26) = w at *
  rw [← hfreed] at hblocks
  obtain ⟨v, hfree, rfl⟩ := releaseInode_ok hholds hn hblocks
    (.inl (hword.trans hfile.file.single.1)) hrelease
  rw [hfreed, hdirect] at hfree
  obtain ⟨happly, -, hsuper, hgroup, hbitmap⟩ :=
    withoutInode_spec (hfree.holds hholds) (show n - 1 < L.inodes by omega)
  have hbefore : ∀ p n, 1024 ≤ p → p + n ≤ 3072 → w.load p n = m.load p n := fun p n hlo hhi =>
    load_congr fun i hi => hfar _ (by omega)
  have hv : ∀ p n, 1040 ≤ p → p + n ≤ 2060 ∨ 2062 ≤ p ∧ p + n ≤ 3072 → v.load p n = m.load p n :=
    fun p n hlo hhi => (load_congr fun i hi => hfree.same _ (by omega) (by omega) (by omega)).trans
      (hbefore p n (by omega) (by omega))
  refine ⟨fun i hi hzero => hfree.positive ?_, fun b hlo hhi => ?_, ?_, ?_, ?_, ?_, fun a ha => ?_,
    fun a ha => ?_⟩
  · exact List.mem_map.mpr ⟨i, List.mem_range.mpr hi, hzero⟩
  · have hbit : L.marked (withoutInode v (n - 1)) b = L.marked v b :=
      bit_congr (happly _ (by omega) (by omega) (by omega))
    have hbit' : L.marked w b = L.marked m b := bit_congr (hfar _ (by omega))
    rw [hbit, hfree.marked b hlo hhi, hbit']
  · have hsame : (withoutInode v (n - 1)).load 1036 4 = v.load 1036 4 :=
      load_congr fun i hi => happly _ (by omega) (by omega) (by omega)
    rw [hsame, hfree.superBlocks, hbefore 1036 4 (by decide) (by decide)]
    simp
  · have hsame : (withoutInode v (n - 1)).load 2060 2 = v.load 2060 2 :=
      load_congr fun i hi => happly _ (by omega) (by omega) (by omega)
    rw [hsame, hfree.groupBlocks, hbefore 2060 2 (by decide) (by decide)]
    simp
  · rw [hsuper, hv 1040 4 (by omega) (by omega)]
  · rw [hgroup, hv 2062 2 (by omega) (by omega)]
  · have hsame' : ∀ a, a / 1024 = L.inodeBitmap → v a = m a := fun a ha =>
      (hfree.same a (by omega) (by omega) (by omega)).trans (hfar a (by omega))
    rw [hbitmap a ha]
    exact clearBit_congr (hsame' _ (by omega)) (hsame' a ha)
  · have hmem := ha
    rw [Layout.mem_metadata] at hmem
    simp only [not_or] at hmem
    rw [happly a (by omega) (by omega) hmem.2.2.2.1, hfree.data ha, hdata a ha]

/-! ## The removal -/

/-- The memory after the release, with one field enlarged. -/
def grown (m u : Memory) (p : Nat) : Memory :=
  u.store (grownField m p) 2 ((u.load (grownField m p) 2 + m.load (p + 4) 2) % 65536)

/-- The field that is enlarged lies in one block. -/
theorem FoundLink.grownField (hfile : FoundLink L m path n p) (h : Consistent L m) :
    (Ext2.grownField m p : Int) = p - m.load (p + 4) 2 + 4 ∧ Ext2.grownField m p % 4 = 0 ∧
      2052 ≤ Ext2.grownField m p ∧ Ext2.grownField m p + 2 ≤ 131072 ∧ p + 8 ≤ 131072 ∧
      0 < m.load (p + 4) 2 ∧ m.load (p + 4) 2 ≤ 1024 ∧ p / 1024 ∉ L.metadata ∧
      (p + 4) / 1024 = p / 1024 ∧ (p + 5) / 1024 = p / 1024 := by
  obtain ⟨b, o, hp, hlo, hhi, hdata, h4, hrec4, hrec, hend⟩ := hfile.entry.spec h
  have hmapped := L.mapped
  have hblock : p / 1024 = b := by omega
  rw [Ext2.grownField, hblock]
  exact ⟨by omega, by omega, by omega, by omega, by omega, by omega, by omega, hdata, by omega,
    by omega⟩

/-- The length of the entry survives the release. -/
theorem FoundLink.recLen (hfile : FoundLink L m path n p) (h : Consistent L m)
    (hu : Released L n m u) : u.load (p + 4) 2 = m.load (p + 4) 2 := by
  obtain ⟨-, -, -, -, -, -, -, hdata, h4, h5⟩ := hfile.grownField h
  refine load_congr fun i hi => hu.data _ ?_
  obtain rfl | rfl : i = 0 ∨ i = 1 := by omega
  · rwa [Nat.add_zero, h4]
  · rwa [Nat.add_assoc, h5]

/-- A removal releases the inode and enlarges the field. -/
theorem FoundLink.delete_iff (hfile : FoundLink L m path n p) (h : Consistent L m) :
    deleteFileInode path m = .ok () m' ↔
      ∃ u, releaseInode n (withoutLink m (L.inodeAt n + 26)) = .ok () u ∧ m' = grown m u p := by
  have hinodes := L.inodes_le
  have hn := hfile.numbered
  have hnumber : toInt (m.load p 4) = n := by
    rw [hfile.names, toInt_of_lt (by omega)]
  have hdrop : ∀ u, dropLink n m = .ok () u ↔
      releaseInode n (withoutLink m (L.inodeAt n + 26)) = .ok () u := fun u => by
    rw [dropLink_iff h.holds hn]
    simp only [hfile.file.links, ne_eq, not_true_eq_false, false_and, false_or, true_and]
  obtain ⟨hfield, -, hlow, -, hbound, -⟩ := hfile.grownField h
  rw [deleteFileInode, bind_of_ok hfile.found, unlinkEntry_iff (g := Ext2.grownField m p) hbound
    (by omega) fun u hu => ?_, hnumber]
  · exact exists_congr fun u => and_congr_left fun _ => hdrop u
  · rw [hnumber, hdrop] at hu
    exact hfile.recLen h (hfile.release_ok h hu)

/-- A removal that returns has released the inode and enlarged the field. -/
theorem FoundLink.delete_ok (hfile : FoundLink L m path n p) (h : Consistent L m)
    (hrun : deleteFileInode path m = .ok () m') :
    ∃ u, Released L n m u ∧ m' = grown m u p := by
  obtain ⟨u, hrelease, rfl⟩ := (hfile.delete_iff h).mp hrun
  exact ⟨u, hfile.release_ok h hrelease, rfl⟩

/-- Where all direct pointers give blocks the removal returns. -/
theorem FoundLink.delete_returns (hfile : FoundLink L m path n p) (h : Consistent L m)
    (hwords : ∀ i < 12, L.word m n i ≠ 0) :
    ∃ u, deleteFileInode path m = .ok () (grown m u p) ∧ Released L n m u := by
  have hn := hfile.numbered
  obtain ⟨hdirect, hblocks⟩ := hfile.freedBlocks h
  obtain ⟨hpointers, hdata⟩ := withoutLink_congr (m := m) hn
  have hreleasable : L.Releasable m n := ⟨fun b hb => ⟨Nat.pos_of_ne_zero fun hzero => by
    rw [hdirect] at hb
    obtain ⟨i, hi, hword⟩ := List.mem_map.mp hb
    exact hwords i (List.mem_range.mp hi) (hword.trans hzero), hblocks b hb⟩,
    .inl hfile.file.single.1⟩
  obtain ⟨u, hrelease⟩ := releaseInode_returns (holds_withoutLink h.holds hn) hn
    (hreleasable.congr hpointers hdata).2
  exact ⟨u, (hfile.delete_iff h).mpr ⟨u, hrelease, rfl⟩, hfile.release_ok h hrelease⟩

/-! ## When exactly the blocks of the file are freed -/

/-- The bytes of the block bitmap are determined by its bits. -/
theorem Layout.apply_eq_of_marked {a : Nat} (ha : a / 1024 = L.blockBitmap)
    (hsame : ∀ b, 1 ≤ b → b ≤ 8192 → L.marked m' b = L.marked m b) : m' a = m a := by
  apply UInt8.toNat.inj
  apply Nat.eq_of_testBit_eq
  intro j
  by_cases hj : j < 8
  · have hbit := hsame (8 * (a - L.blockBitmap * 1024) + j + 1) (by omega) (by omega)
    rw [marked, marked, Memory.bit, Memory.bit, Nat.add_sub_cancel,
      show (8 * (a - L.blockBitmap * 1024) + j) % 8 = j by omega,
      show L.blockBitmap * 1024 + (8 * (a - L.blockBitmap * 1024) + j) / 8 = a by omega] at hbit
    exact hbit
  · have hlt : ∀ b : UInt8, b.toNat.testBit j = false := fun b => Nat.testBit_lt_two_pow
      (Nat.lt_of_lt_of_le b.toNat_lt (Nat.pow_le_pow_right (by decide) (by omega)))
    rw [hlt, hlt]

/-- The free counts of a consistent image are small. -/
theorem Consistent.counters_le (h : Consistent L m) : m.load 1036 4 ≤ 128 ∧ m.load 2060 2 ≤ 128 ∧
    m.load 1040 4 ≤ 1024 ∧ m.load 2062 2 ≤ 1024 := by
  have hmapped := L.mapped
  have hinodes := L.inodes_le
  have hblocks : L.freeBlocks m ≤ L.blocks - 1 :=
    List.countP_le_length.trans_eq (by rw [List.length_range'])
  have hfree : L.freeInodes m ≤ L.inodes :=
    List.countP_le_length.trans_eq (by rw [List.length_range'])
  rw [h.superFreeBlocks, h.groupFreeBlocks, h.superFreeInodes, h.groupFreeInodes]
  omega

/-- With all direct pointers set and no indirect block, the blocks are those of the pointers. -/
theorem Layout.ownBlocks_of_direct (hwords : ∀ i < 12, L.word m n i ≠ 0)
    (hnull : L.word m n 12 = 0) : L.ownBlocks m n = (List.range 12).map (L.word m n) := by
  rw [ownBlocks, if_pos hnull, List.append_nil, List.filter_eq_self]
  intro b hb
  obtain ⟨i, hi, rfl⟩ := List.mem_map.mp hb
  exact decide_eq_true (hwords i (List.mem_range.mp hi))

/-- With an indirect block there are more. -/
theorem Layout.length_ownBlocks (hwords : ∀ i < 12, L.word m n i ≠ 0)
    (hne : L.word m n 12 ≠ 0) : 13 ≤ (L.ownBlocks m n).length := by
  have hdirect : ((List.range 12).map (L.word m n)).filter (· ≠ 0) =
      (List.range 12).map (L.word m n) := List.filter_eq_self.mpr fun b hb => by
    obtain ⟨i, hi, rfl⟩ := List.mem_map.mp hb
    exact decide_eq_true (hwords i (List.mem_range.mp hi))
  rw [ownBlocks, if_neg hne, List.filter_append, hdirect,
    List.filter_cons_of_pos (by simpa using hne), List.length_append, List.length_map,
    List.length_range, List.length_cons]
  omega

/-- What enlarging the field leaves alone. -/
theorem grown_load {q k : Nat} (hq : q + k ≤ grownField m p ∨ grownField m p + 2 ≤ q) :
    (grown m u p).load q k = u.load q k := load_store_of_disjoint hq

/-- Enlarging the field changes it. -/
theorem FoundLink.grown_ne (hfile : FoundLink L m path n p) (h : Consistent L m) (u : Memory) :
    (grown m u p).load (Ext2.grownField m p) 2 ≠ u.load (Ext2.grownField m p) 2 := by
  obtain ⟨-, -, -, -, -, hpos, hle, -⟩ := hfile.grownField h
  have hlt := u.load_lt (Ext2.grownField m p) 2
  rw [grown, load_store_same]
  omega

/-- The bit of the inode depends on the bytes of the inode bitmap. -/
theorem FoundLink.inode_bit (hfile : FoundLink L m path n p) (h : Consistent L m)
    (hu : Released L n m u) : L.inUse (grown m u p) n = false ↔
      let cleared := m.clearBit (L.inodeBitmap * 1024 + (n - 1) / 8) ((n - 1) % 8)
      (cleared.store (Ext2.grownField m p) 2
        ((cleared.load (Ext2.grownField m p) 2 + m.load (p + 4) 2) % 65536)).bit
          (L.inodeBitmap * 1024) (n - 1) = false := by
  have hn := hfile.numbered
  obtain ⟨-, h4, -⟩ := hfile.grownField h
  have hinodes := L.inodes_le
  obtain ⟨hbb, hib, hbi, -⟩ := L.separate
  generalize hcleared : m.clearBit (L.inodeBitmap * 1024 + (n - 1) / 8) ((n - 1) % 8) = cleared
  have hbyte : grown m u p (L.inodeBitmap * 1024 + (n - 1) / 8) =
      cleared.store (Ext2.grownField m p) 2
        ((cleared.load (Ext2.grownField m p) 2 + m.load (p + 4) 2) % 65536)
          (L.inodeBitmap * 1024 + (n - 1) / 8) := by
    have hsame := hu.inodes (L.inodeBitmap * 1024 + (n - 1) / 8) (by omega)
    rw [hcleared] at hsame
    by_cases hin : Ext2.grownField m p / 1024 = L.inodeBitmap
    · have hload : u.load (Ext2.grownField m p) 2 = cleared.load (Ext2.grownField m p) 2 :=
        load_congr fun i hi => by
          rw [← hcleared]
          exact hu.inodes (Ext2.grownField m p + i) (by omega)
      rw [grown, hload]
      exact store_congr hsame
    · rw [grown, store_apply_of_outside (by omega), store_apply_of_outside (by omega)]
      exact hsame
  change _ ↔ (cleared.store (Ext2.grownField m p) 2 _).bit (L.inodeBitmap * 1024) (n - 1) = false
  rw [← bit_congr hbyte, ← Bool.not_eq_true, Layout.inUse_iff, ← Bool.not_eq_true]
  simp only [hn.1, hn.2, true_and]

/-- A removal that ends at the entry `p` frees exactly the file's blocks when all twelve direct
pointers give blocks, there is no indirect block, and the field that is enlarged does no harm. -/
theorem FoundLink.freedFile_iff (hfile : FoundLink L m path n p) (h : Consistent L m) :
    (∃ m', deleteFileInode path m = .ok () m' ∧ FreedFile L n m m') ↔
      ((∀ i < 12, L.word m n i ≠ 0) ∧ L.word m n 12 = 0) ∧ HarmlessGrowth L m n p := by
  obtain ⟨-, h4, hlow, -⟩ := hfile.grownField h
  obtain ⟨hsuper, hgroup, hsuperi, hgroupi⟩ := h.counters_le
  obtain ⟨hbb, hib, hbi, -⟩ := L.separate
  constructor
  · rintro ⟨m', hrun, hfreed⟩
    obtain ⟨u, hu, rfl⟩ := hfile.delete_ok h hrun
    have hsuperu := hu.superBlocks
    have hgroupu := hu.groupBlocks
    have hlength := hfreed.superBlocks
    have hlength' := hfreed.groupBlocks
    -- One of the two counters of blocks is not the field that is enlarged.
    have hnull : L.word m n 12 = 0 := by
      by_contra hne
      have hmore := Layout.length_ownBlocks hu.positive hne
      rw [grown_load (by omega)] at hlength
      omega
    have hown := Layout.ownBlocks_of_direct hu.positive hnull
    have hcount : (L.ownBlocks m n).length = 12 := by
      rw [hown]
      simp
    refine ⟨⟨hu.positive, hnull⟩, fun hfield => ?_, fun hblock => ?_,
      (hfile.inode_bit h hu).mp hfreed.unused⟩
    · have hne := hfile.grown_ne h u
      rw [hfield] at hne
      omega
    · refine hfile.grown_ne h u (load_congr fun i hi => ?_)
      refine Layout.apply_eq_of_marked (L := L) (by omega) fun b hlo hhi => ?_
      rw [hfreed.marked b hlo hhi, hu.marked b hlo hhi, hown]
  · rintro ⟨⟨hwords, hnull⟩, hharmless⟩
    obtain ⟨u, hrun, hu⟩ := hfile.delete_returns h hwords
    have hown := Layout.ownBlocks_of_direct hwords hnull
    have hcount : (L.ownBlocks m n).length = 12 := by
      rw [hown]
      simp
    have hcounter := hharmless.counter
    have hbitmap := hharmless.bitmap
    have hsuperu := hu.superBlocks
    have hgroupu := hu.groupBlocks
    have hsuperiu := hu.superInodes
    have hgroupiu := hu.groupInodes
    refine ⟨_, hrun, fun b hlo hhi => ?_, ?_, ?_, (hfile.inode_bit h hu).mpr hharmless.inode,
      ?_, ?_⟩
    · have hbit : L.marked (grown m u p) b = L.marked u b :=
        bit_congr (store_apply_of_outside (by omega))
      rw [hbit, hu.marked b hlo hhi, hown]
    · rw [grown_load (by omega), hcount]
      omega
    · rw [grown_load (by omega), hcount]
      omega
    · rw [grown_load (by omega)]
      omega
    · rw [grown_load (by omega)]
      omega

/-- A removal of the last link frees exactly the file's blocks when the search ends at its entry,
all twelve direct pointers give blocks, there is no indirect block, and the field that is enlarged
does no harm. -/
theorem freesFile_iff (h : Consistent L m) (hfile : LastLink L m path n) :
    (∃ m', deleteFileInode path m = .ok () m' ∧ FreedFile L n m m') ↔
      ((∀ i < 12, L.word m n i ≠ 0) ∧ L.word m n 12 = 0) ∧
        ∃ p : Nat, findFile path m = .ok p m ∧ HarmlessGrowth L m n p := by
  constructor
  · rintro ⟨m', hrun, hfreed⟩
    obtain ⟨entry, u, hfound, -⟩ := bind_ok.mp hrun
    obtain ⟨p, rfl, hlink⟩ := hfile.foundLink hfound
    obtain ⟨hwords, hharmless⟩ := (hlink.freedFile_iff h).mp ⟨m', hrun, hfreed⟩
    exact ⟨hwords, p, hlink.found, hharmless⟩
  · rintro ⟨hwords, p, hfound, hharmless⟩
    obtain ⟨p', hp, hlink⟩ := hfile.foundLink hfound
    obtain rfl := Int.ofNat.inj hp
    exact (hlink.freedFile_iff h).mpr ⟨hwords, hharmless⟩

/-! ## A small file and one of twelve blocks -/

/-- The image with the file `/a/f` of inode 12. It holds blocks 9 to 20 when `full` is set, and
block 9 otherwise. -/
def withFile (full : Bool) : Memory :=
  let free := if full then 107 else 118
  let writes : List (Nat × List UInt8) := [
    (1036, leBytes 4 free ++ leBytes 4 4), (2060, leBytes 2 free ++ leBytes 2 4),
    (3073, if full then [0xff, 0x0f] else [0x01]), (4097, [0x0f]),
    (6528, leBytes 2 0x81a4), (6554, leBytes 2 1),
    (6568, (List.range (if full then 12 else 1)).flatMap fun i => leBytes 4 (9 + i)),
    (8208, leBytes 2 12), (8216, direntBytes 12 1000 1 [0x66])]
  writes.foldl (fun m w => m.write w.1 w.2) (sample false)

theorem consistent_withFile (full : Bool) : Consistent sampleLayout (withFile full) := by
  have hheld : sampleLayout.directSlots.filterMap
      (sampleLayout.held (sampleLayout.inUse (withFile full)) (withFile full)) =
        [7, 8] ++ (List.range (if full then 12 else 1)).map (9 + ·) := by
    cases full <;> decide +kernel
  refine ⟨?_, ?_, ?_, ?_, ?_, ?_, ?_, ?_⟩
  · constructor <;> cases full <;> decide +kernel
  · cases full <;> decide +kernel
  · refine Layout.exclusiveBlocks_of_direct (by cases full <;> decide +kernel) ?_ ?_
    · rw [hheld]
      cases full <;> decide
    · rw [hheld]
      cases full <;> decide +kernel
  all_goals cases full <;> decide +kernel

/-- The search finds the entry of the file. -/
theorem foundFile_withFile (full : Bool) :
    findFile afPath (withFile full) = .ok 8216 (withFile full) := by
  obtain ⟨p, u, hfound, hp⟩ := exists_of_holds
    (show holds (findFile afPath (withFile full)) (fun p _ => p = 8216) = true by
      cases full <;> decide +kernel)
  obtain rfl := of_decide_eq_true hp
  obtain rfl := (readOnly_findFile afPath).of_ok hfound
  exact hfound

theorem lastLink_withFile (full : Bool) : LastLink sampleLayout (withFile full) afPath 12 where
  used := by cases full <;> decide +kernel
  regular := by cases full <;> decide +kernel
  links := by cases full <;> decide +kernel
  single := by cases full <;> decide +kernel
  search := by
    intro entry u hfound
    rw [foundFile_withFile] at hfound
    injection hfound with hentry hmemory
    subst hentry
    refine ⟨8216, rfl, ⟨11, 8, [0, 12, 24], 24, ?_⟩, ?_⟩ <;> cases full <;> decide +kernel

/-- The file of twelve blocks is freed. -/
theorem freesFile_withFile : ∃ m', deleteFileInode afPath (withFile true) = .ok () m' ∧
    FreedFile sampleLayout 12 (withFile true) m' := by
  refine (freesFile_iff (consistent_withFile true) (lastLink_withFile true)).mpr
    ⟨by decide +kernel, 8216, foundFile_withFile true, ?_⟩
  constructor <;> decide +kernel

/-- A removal of the file of one block is undefined: it frees the block with number 0. -/
theorem not_freesFile : Consistent sampleLayout (withFile false) ∧
    LastLink sampleLayout (withFile false) afPath 12 ∧
    ¬ ∃ m', deleteFileInode afPath (withFile false) = .ok () m' ∧
      FreedFile sampleLayout 12 (withFile false) m' := by
  refine ⟨consistent_withFile false, lastLink_withFile false, ?_⟩
  rintro ⟨m', hrun, -⟩
  have hstuck : holds (deleteFileInode afPath (withFile false)) (fun _ _ => true) = false := by
    decide +kernel
  rw [hrun] at hstuck
  cases hstuck

end OsAssignments.Ext2
