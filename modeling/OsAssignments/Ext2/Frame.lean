import OsAssignments.Ext2.BlockOwners

/-!
# What a run leaves of the metadata

When neither picked block is metadata, a run changes the metadata in known places only: the
bits it sets, the counters, the inode it takes and a pointer of the directory. The rest of the
super block, the group descriptor and the bitmaps, and the header of the new inode, go through
every store of the run unchanged.
-/

namespace OsAssignments.Ext2

open Memory Program

variable {L : Layout} {U : Nat → Bool} {m m' m'' : Memory}

/-- The condition under which a run leaves the metadata sound: the directory it finds exists and
has room, neither block it picks is metadata, and the name is short enough for an entry. -/
structure Command.Clear (L : Layout) (c : Command) (m : Memory) : Prop where
  directory : ∀ d, c.directory m = some d →
    ∃ n : Nat, d = n ∧ L.inUse m n = true ∧ L.HasRoom m n
  picks : ∃ e d, L.picks m = some (e, d) ∧ e ∉ L.metadata ∧ d ∉ L.metadata
  name : ∀ n, c.nameLength = some n → n ≤ 255

theorem Command.Clear.backed {c : Command} (hc : c.Clear L m) (h : Owned L (L.inUse m) m) {n : Nat}
    (hn : c.directory m = some (n : Int)) : L.Backed m n := by
  obtain ⟨n', heq, hused, -⟩ := hc.directory n hn
  obtain rfl := Int.ofNat.inj heq
  exact h.backed hused

/-- The bytes of the super block, the group descriptor, the bitmaps and the header of inode `n`. -/
def Layout.Fixed (L : Layout) (n a : Nat) : Prop :=
  a / 1024 = 1 ∨ a / 1024 = 2 ∨ a / 1024 = L.blockBitmap ∨ a / 1024 = L.inodeBitmap ∨
    L.inodeAt n ≤ a ∧ a < L.inodeAt n + 40

/-- The fixed bytes are unchanged. -/
def Kept (L : Layout) (n : Nat) (m m' : Memory) : Prop := ∀ a, L.Fixed n a → m' a = m a

namespace Kept

variable {n : Nat}

theorem refl (m : Memory) : Kept L n m m := fun _ _ => rfl

theorem trans (h : Kept L n m m') (h' : Kept L n m' m'') : Kept L n m m'' :=
  fun a ha => (h' a ha).trans (h a ha)

theorem holds (h : Kept L n m m') (hm : L.Holds m) : L.Holds m' :=
  hm.congr fun a ha => h a (by
    rcases ha with ha | ha
    · exact .inl (by omega)
    · exact .inr (.inl (by omega)))

theorem marked (h : Kept L n m m') {b : Nat} (hb : b ≤ L.blocks) :
    L.marked m' b = L.marked m b :=
  Owned.marked_congr hb fun a ha => h a (.inr (.inr (.inl ha)))

theorem inUse (h : Kept L n m m') : L.inUse m' = L.inUse m :=
  Owned.inUse_congr fun a ha => h a (.inr (.inr (.inr (.inl ha))))

/-- A field in the header of the inode. -/
theorem header (h : Kept L n m m') {i k : Nat} (hi : i + k ≤ 40) :
    m'.load (L.inodeAt n + i) k = m.load (L.inodeAt n + i) k :=
  load_congr fun j hj => h _ (.inr (.inr (.inr (.inr (by omega)))))

theorem firstClear (h : Kept L n m m') :
    firstClear (fun i => L.marked m' (i + 1)) L.blocks =
      OsAssignments.firstClear (fun i => L.marked m (i + 1)) L.blocks :=
  firstClear_congr fun i hi => h.marked (b := i + 1) hi

end Kept

/-- The fixed bytes lie in metadata blocks. -/
theorem Layout.Fixed.mem_metadata {n a : Nat} (hn : 1 ≤ n ∧ n ≤ L.inodes) (h : L.Fixed n a) :
    a / 1024 ∈ L.metadata := by
  rcases h with h | h | h | h | h
  · exact Layout.mem_metadata.mpr (.inl h)
  · exact Layout.mem_metadata.mpr (.inr (.inl h))
  · exact Layout.mem_metadata.mpr (.inr (.inr (.inl h)))
  · exact Layout.mem_metadata.mpr (.inr (.inr (.inr (.inl h))))
  · exact Layout.inode_mem_metadata hn (by omega)

/-- The rest of inode `n` is not fixed. -/
theorem Layout.not_fixed_inode {n a : Nat} (hn : 1 ≤ n ∧ n ≤ L.inodes)
    (ha : L.inodeAt n + 40 ≤ a ∧ a < L.inodeAt n + 128) : ¬ L.Fixed n a := by
  have hfar := L.inode_apart hn (y := a) ⟨by omega, ha.2⟩
  rintro (h | h | h | h | h) <;> omega

/-! ## The loops of `ext2_cp` -/

/-- Nothing changes but the boot block, block `d` and the pointers of inode `n` with what is behind
them in the inode. -/
def Confined (L : Layout) (n d : Nat) (m m' : Memory) : Prop := ∀ a, a / 1024 ≠ 0 →
  a / 1024 ≠ d → (a < L.inodeAt n + 40 ∨ L.inodeAt n + 128 ≤ a) → m' a = m a

namespace Confined

variable {n d : Nat}

theorem refl (m : Memory) : Confined L n d m m := fun _ _ _ _ => rfl

theorem trans (h : Confined L n d m m') (h' : Confined L n d m' m'') : Confined L n d m m'' :=
  fun a h0 hd hn => (h' a h0 hd hn).trans (h a h0 hd hn)

/-- The boot block is not metadata. -/
theorem kept (h : Confined L n d m m') (hn : 1 ≤ n ∧ n ≤ L.inodes) (hdata : d ∉ L.metadata) :
    Kept L n m m' := by
  intro a ha
  have hmem := ha.mem_metadata hn
  have hblock := L.lt_blocks hmem
  refine h a (by omega) (fun had => hdata (had ▸ hmem)) ?_
  by_contra hin
  exact L.not_fixed_inode hn (by omega) ha

end Confined

/-- One round: the free block is cleared, its index is stored, and data is read into it. -/
theorem round_apply {d p a : Nat} {bs : List UInt8} (hbs : bs.length ≤ 1024) (had : a / 1024 ≠ d)
    (hap : a < p ∨ p + 4 ≤ a) :
    ((m.fill (d * 1024) 1024 0).store p 4 d).write (d * 1024) bs a = m a := by
  rw [write_apply_of_outside (by omega), store_apply_of_outside hap,
    fill_apply_of_outside (by omega)]

theorem length_take_block (rest : List UInt8) : (rest.take 1024).length ≤ 1024 := by
  rw [List.length_take]
  omega

/-- A round that takes a block writes its index to the pointer of the inode and the next part of
the file to the block. -/
theorem takeBlock_ok {α : Type} {inode i : Nat} {rest : List UInt8} {r : α}
    {next : Int → List UInt8 → DiskM α} (h : (do
      let iBlockIndex ← findFreeBlock
      Program.ensure (.exit 1) (iBlockIndex ≠ -1)
      write (iBlock inode i) 4 (toUnsigned iBlockIndex)
      let rest ← fread (getBlock (iBlockIndex + 1)) rest
      next iBlockIndex rest : DiskM α) m = .ok r m') : ∃ d : Nat,
      firstClear (blockBit m) (blocksCount m) = some d ∧ d * 1024 + 1024 ≤ 131072 ∧
      next d (rest.drop 1024) (((m.fill (d * 1024) 1024 0).store (inode + 40 + 4 * i) 4 d).write
        (d * 1024) (rest.take 1024)) = .ok r m' := by
  obtain ⟨_, u, hclear, h⟩ := bind_ok.mp h
  obtain ⟨d, rfl, hd, hbound, rfl⟩ := findFreeBlock_ok hclear
  obtain ⟨_, v, hfound, h⟩ := bind_ok.mp h
  obtain ⟨-, rfl⟩ := ensure_ok.mp hfound
  obtain ⟨_, v, hwrite, h⟩ := bind_ok.mp h
  obtain ⟨p, hp, -, rfl⟩ := write_ok.mp hwrite
  obtain ⟨_, v, hread, h⟩ := bind_ok.mp h
  obtain ⟨_, w, hcopy, hread⟩ := bind_ok.mp hread
  obtain ⟨q, hq, -, rfl⟩ := memcpy_ok.mp hcopy
  cases hread
  rw [getBlock, show blockSize = 1024 from rfl] at hq
  obtain rfl : p = inode + 40 + 4 * i := by
    simp only [iBlock] at hp
    omega
  obtain rfl : q = d * 1024 := by omega
  rw [toUnsigned_natCast (by omega)] at h
  exact ⟨d, hd, hbound, h⟩

/-- The round of the loop over the direct blocks in which a block is still needed. -/
theorem fillDirect_succ {inode rounds i : Nat} {needed : Int} {rest : List UInt8}
    {r : Int × List UInt8} (hneeded : needed ≠ 0)
    (h : fillDirect inode (rounds + 1) i needed rest m = .ok r m') : ∃ d : Nat,
      firstClear (blockBit m) (blocksCount m) = some d ∧ d * 1024 + 1024 ≤ 131072 ∧
      fillDirect inode rounds (i + 1) (needed - 1) (rest.drop 1024)
        (((m.fill (d * 1024) 1024 0).store (inode + 40 + 4 * i) 4 d).write (d * 1024)
          (rest.take 1024)) = .ok r m' := by
  rw [fillDirect, if_neg hneeded] at h
  exact takeBlock_ok h

/-- The loop over the direct blocks is confined, keeps pointer 12, and uses up to one needed block a
round. -/
theorem fillDirect_confined {n d rounds i : Nat} {needed : Int} {rest : List UInt8}
    {r : Int × List UInt8} (hn : 1 ≤ n ∧ n ≤ L.inodes) (hm : L.Holds m)
    (hd : firstClear (fun i => L.marked m (i + 1)) L.blocks = some d) (hdata : d ∉ L.metadata)
    (hi : i + rounds ≤ 12) (h : fillDirect (L.inodeAt n) rounds i needed rest m = .ok r m') :
    Confined L n d m m' ∧ L.word m' n 12 = L.word m n 12 ∧
      (0 ≤ needed → 0 ≤ r.1 ∧ r.1 ≤ needed ∧ (r.1 = 0 ∨ r.1 + rounds = needed)) := by
  induction rounds generalizing m i needed rest with
  | zero =>
    cases h
    exact ⟨.refl _, rfl, fun h0 => ⟨h0, Int.le_refl _, .inr (by simp)⟩⟩
  | succ rounds ih =>
    by_cases hneeded : needed = 0
    · rw [fillDirect, if_pos hneeded] at h
      cases h
      exact ⟨.refl _, rfl, fun h0 => ⟨h0, Int.le_refl _, .inl hneeded⟩⟩
    · obtain ⟨d', hd', -, h⟩ := fillDirect_succ hneeded h
      rw [hm.firstClear, hd] at hd'
      obtain rfl := Option.some.inj hd'
      have hround : Confined L n d m (((m.fill (d * 1024) 1024 0).store
          (L.inodeAt n + 40 + 4 * i) 4 d).write (d * 1024) (rest.take 1024)) :=
        fun a _ had ha => round_apply (length_take_block rest) had (by omega)
      have hkept := hround.kept hn hdata
      obtain ⟨hrest, hword, hleft⟩ := ih (hkept.holds hm) (hkept.firstClear.trans hd) (by omega) h
      refine ⟨hround.trans hrest, hword.trans (load_congr fun j hj => ?_), fun h0 => ?_⟩
      · have hblock := L.inode_mem_metadata hn (a := L.inodeAt n + 40 + 4 * 12 + j) (by omega)
        exact round_apply (length_take_block rest) (fun had => hdata (had ▸ hblock)) (by omega)
      · have hleft' := hleft (by omega)
        omega

/-- The round of the loop over the indirect block in which a block is still needed. -/
theorem fillIndirect_succ {inode q rounds i : Nat} {needed : Int} {rest : List UInt8}
    {r : Int × List UInt8} (hneeded : needed ≠ 0)
    (h : fillIndirect inode q (rounds + 1) i needed rest m = .ok r m') : ∃ d : Nat,
      firstClear (blockBit m) (blocksCount m) = some d ∧ d * 1024 + 1024 ≤ 131072 ∧
      fillIndirect inode q rounds (i + 1) (needed - 1) (rest.drop 1024)
        ((((m.fill (d * 1024) 1024 0).store (inode + 40 + 4 * i) 4 d).write (d * 1024)
          (rest.take 1024)).store (q + 4 * i) 4 d) = .ok r m' := by
  rw [fillIndirect, if_neg hneeded] at h
  obtain ⟨d, hd, hbound, h⟩ := takeBlock_ok h
  obtain ⟨_, v, hentry, h⟩ := bind_ok.mp h
  obtain ⟨q', hq', -, rfl⟩ := write_ok.mp hentry
  obtain rfl : q' = q + 4 * i := by omega
  rw [toUnsigned_natCast (by omega)] at h
  exact ⟨d, hd, hbound, h⟩

/-- Where the inode has no indirect block, the loop writes pointers over the boot block and from
the first pointer of the inode on; where those reach past the inode, they keep the fixed bytes
when the bitmaps are before the inode table. -/
theorem fillIndirect_kept {n d rounds i : Nat} {needed : Int} {rest : List UInt8}
    {r : Int × List UInt8} (hn : 1 ≤ n ∧ n ≤ L.inodes) (hm : L.Holds m)
    (hd : firstClear (fun i => L.marked m (i + 1)) L.blocks = some d) (hdata : d ∉ L.metadata)
    (hi : i + rounds ≤ 225)
    (hahead : L.blockBitmap < L.inodeTable ∧ L.inodeBitmap < L.inodeTable)
    (h : fillIndirect (L.inodeAt n) (0 : Nat) rounds i needed rest m = .ok r m') :
    Kept L n m m' := by
  induction rounds generalizing m i needed rest with
  | zero =>
    cases h
    exact .refl _
  | succ rounds ih =>
    by_cases hneeded : needed = 0
    · rw [fillIndirect, if_pos hneeded] at h
      cases h
      exact .refl _
    · obtain ⟨d', hd', -, h⟩ := fillIndirect_succ hneeded h
      rw [hm.firstClear, hd] at hd'
      obtain rfl := Option.some.inj hd'
      obtain ⟨-, -, -, htable⟩ := L.separate
      have hfirst := L.inode_block hn (a := L.inodeAt n) ⟨Nat.le_refl _, by omega⟩
      have hfar := htable _ hfirst.1 hfirst.2
      have h3 := htable L.inodeTable (Nat.le_refl _) (by omega)
      have hstep : Kept L n m ((((m.fill (d * 1024) 1024 0).store
          (L.inodeAt n + 40 + 4 * i) 4 d).write (d * 1024) (rest.take 1024)).store (0 + 4 * i)
            4 d) := by
        intro a ha
        have hmem := ha.mem_metadata hn
        have hblock := L.lt_blocks hmem
        have hout : a < L.inodeAt n + 40 + 4 * i ∨ L.inodeAt n + 40 + 4 * i + 4 ≤ a := by
          by_contra hin
          have hle : L.inodeTable ≤ a / 1024 := by
            rw [Layout.inodeAt] at hin
            omega
          rcases ha with ha | ha | ha | ha | ha <;> omega
        have hne : a / 1024 ≠ d := fun had => hdata (had ▸ hmem)
        rw [store_apply_of_outside (by omega), round_apply (length_take_block rest) hne hout]
      exact hstep.trans (ih (hstep.holds hm) (hstep.firstClear.trans hd) (by omega) h)

/-- Pointers that do not reach past the inode are confined. -/
theorem fillIndirect_confined {n d rounds i : Nat} {needed : Int} {rest : List UInt8}
    {r : Int × List UInt8} (hn : 1 ≤ n ∧ n ≤ L.inodes) (hm : L.Holds m)
    (hd : firstClear (fun i => L.marked m (i + 1)) L.blocks = some d) (hdata : d ∉ L.metadata)
    (hneeded : 0 ≤ needed ∧ i + needed ≤ 22)
    (h : fillIndirect (L.inodeAt n) (0 : Nat) rounds i needed rest m = .ok r m') :
    Confined L n d m m' := by
  induction rounds generalizing m i needed rest with
  | zero =>
    cases h
    exact .refl _
  | succ rounds ih =>
    by_cases hzero : needed = 0
    · rw [fillIndirect, if_pos hzero] at h
      cases h
      exact .refl _
    · obtain ⟨d', hd', -, h⟩ := fillIndirect_succ hzero h
      rw [hm.firstClear, hd] at hd'
      obtain rfl := Option.some.inj hd'
      have hround : Confined L n d m ((((m.fill (d * 1024) 1024 0).store
          (L.inodeAt n + 40 + 4 * i) 4 d).write (d * 1024) (rest.take 1024)).store (0 + 4 * i)
            4 d) :=
        fun a h0 had ha => by
          rw [store_apply_of_outside (by omega),
            round_apply (length_take_block rest) had (by omega)]
      have hkept := hround.kept hn hdata
      exact hround.trans (ih (hkept.holds hm) (hkept.firstClear.trans hd) (by omega) h)

/-- The two loops that copy the contents of the file: the loop over the direct blocks is confined,
and so is the other one, which runs without an indirect block, up to 34 blocks. -/
theorem fillBlocks_confined {n d : Nat} {file : List UInt8} {r : Int × List UInt8} {left : Int}
    (hn : 1 ≤ n ∧ n ≤ L.inodes) (hm : L.Holds m)
    (hd : firstClear (fun i => L.marked m (i + 1)) L.blocks = some d) (hdata : d ∉ L.metadata)
    (hnull : L.word m n 12 = 0)
    (hdirect : fillDirect (L.inodeAt n) 12 0 (toInt ((file.length / blockSize + 1) % 2 ^ 32)) file
      m = .ok r m') (hbeyond : fillBeyond (L.inodeAt n) r.1 r.2 m' = .ok left m'') :
    Confined L n d m m' ∧ (m' = m'' ∨ ∃ s,
        fillIndirect (L.inodeAt n) (0 : Nat) 225 0 r.1 r.2 m' = .ok s m'') ∧
      (file.length < 34 * 1024 → Confined L n d m m'') := by
  obtain ⟨hconfined, hword, hleft⟩ := fillDirect_confined hn hm hd hdata (by decide) hdirect
  refine ⟨hconfined, ?_⟩
  rw [fillBeyond] at hbeyond
  by_cases hzero : r.1 = 0
  · rw [if_pos hzero] at hbeyond
    cases hbeyond
    exact ⟨.inl rfl, fun _ => hconfined⟩
  · rw [if_neg hzero] at hbeyond
    obtain ⟨w, v, hread, hbeyond⟩ := bind_ok.mp hbeyond
    obtain ⟨p, hp, -, rfl, rfl⟩ := read_ok.mp hread
    obtain rfl : p = L.inodeAt n + 40 + 4 * 12 := by
      simp only [iBlock] at hp
      omega
    obtain ⟨s, v, hind, hreturn⟩ := bind_ok.mp hbeyond
    cases hreturn
    have hoffset : blockOffset (m'.load (L.inodeAt n + 40 + 4 * 12) 4) = (0 : Nat) := by
      rw [show m'.load (L.inodeAt n + 40 + 4 * 12) 4 = 0 from hword.trans hnull]
      rfl
    rw [hoffset] at hind
    refine ⟨.inr ⟨s, hind⟩, fun hshort => ?_⟩
    have hkept := hconfined.kept hn hdata
    have hneeded : toInt ((file.length / blockSize + 1) % 2 ^ 32) =
        (file.length / 1024 + 1 : Nat) := by
      rw [toInt, Nat.mod_eq_of_lt (by simp only [blockSize]; omega), if_pos (by
        simp only [blockSize]
        omega)]
    rw [hneeded] at hleft
    have hleft' := hleft (by omega)
    exact hconfined.trans (fillIndirect_confined hn (hkept.holds hm) (hkept.firstClear.trans hd)
      hdata (by omega) hind)

/-- The two loops that copy the contents of the file keep the fixed bytes. -/
theorem fillBlocks_kept {n d : Nat} {file : List UInt8} {r : Int × List UInt8} {left : Int}
    (hn : 1 ≤ n ∧ n ≤ L.inodes) (hm : L.Holds m)
    (hd : firstClear (fun i => L.marked m (i + 1)) L.blocks = some d) (hdata : d ∉ L.metadata)
    (hnull : L.word m n 12 = 0)
    (hahead : 34 * 1024 ≤ file.length → L.blockBitmap < L.inodeTable ∧ L.inodeBitmap < L.inodeTable)
    (hdirect : fillDirect (L.inodeAt n) 12 0 (toInt ((file.length / blockSize + 1) % 2 ^ 32)) file
      m = .ok r m') (hbeyond : fillBeyond (L.inodeAt n) r.1 r.2 m' = .ok left m'') :
    Kept L n m m'' := by
  obtain ⟨hconfined, hrest, hshort⟩ := fillBlocks_confined hn hm hd hdata hnull hdirect hbeyond
  have hkept := hconfined.kept hn hdata
  by_cases hlong : 34 * 1024 ≤ file.length
  · rcases hrest with rfl | ⟨s, hind⟩
    · exact hkept
    · exact hkept.trans (fillIndirect_kept hn (hkept.holds hm) (hkept.firstClear.trans hd) hdata
        (by decide) (hahead hlong) hind)
  · exact (hshort (by omega)).kept hn hdata

/-- Copying the contents of the file keeps the fixed bytes, and is confined up to 34 blocks. -/
theorem fillFile_kept {n d : Nat} {file : List UInt8} {x : Unit} (hn : 1 ≤ n ∧ n ≤ L.inodes)
    (hm : L.Holds m) (hd : firstClear (fun i => L.marked m (i + 1)) L.blocks = some d)
    (hdata : d ∉ L.metadata) (hnull : L.word m n 12 = 0)
    (h : fillFile (L.inodeAt n) file m = .ok x m') :
    ((34 * 1024 ≤ file.length → L.blockBitmap < L.inodeTable ∧ L.inodeBitmap < L.inodeTable) →
      Kept L n m m') ∧ (file.length < 34 * 1024 → Confined L n d m m') := by
  rw [fillFile] at h
  obtain ⟨r, u, hdirect, h⟩ := bind_ok.mp h
  obtain ⟨_, v, hbeyond, hdone⟩ := bind_ok.mp h
  obtain ⟨-, rfl⟩ := ensure_ok.mp hdone
  exact ⟨fun hahead => fillBlocks_kept hn hm hd hdata hnull hahead hdirect hbeyond,
    (fillBlocks_confined hn hm hd hdata hnull hdirect hbeyond).2.2⟩

/-! ## Entering a name -/

/-- A new entry keeps the fixed bytes and the whole of another inode, and marks one block. -/
theorem Layout.Backed.enter_kept {d n k e fileType : Nat} {path : CString} {lastDir lastChar : Int}
    {x : Unit} (hd : L.Backed m d) (hm : L.Holds m) (hroom : L.HasRoom m d)
    (he : firstClear (fun i => L.marked m (i + 1)) L.blocks = some e) (hdata : e ∉ L.metadata)
    (hname : lastChar - lastDir + 1 ≤ 255) (hk : k + 1 < 2 ^ 32) (hn : 1 ≤ n ∧ n ≤ L.inodes)
    (hne : d ≠ n) (hadd : addEntry d fileType k path lastDir lastChar m = .ok x m') :
    ∃ m₁, m' = markBlock m₁ e ∧ Kept L n m m₁ ∧
      ∀ a, L.inodeAt n ≤ a → a < L.inodeAt n + 128 → m₁ a = m a := by
  obtain ⟨q, a, name, hind, hqa, hnull, -, hslice, rfl⟩ := hd.enter hm hroom he hk hadd
  have hlen := length_of_slice hslice
  -- The slot is in the inode of the directory or outside the metadata.
  have hsame : ∀ y, y / 1024 ∈ L.metadata →
      (y < L.inodeAt d ∨ L.inodeAt d + 128 ≤ y) → withEntry ((m.fill (e * 1024) 1024 0).store a 4 e)
        (e * 1024) fileType (k + 1) (name.length + 8) name y = m y := by
    intro y hy hout
    have hye : y / 1024 ≠ e := fun heq => hdata (heq ▸ hy)
    have hya : y < a ∨ a + 4 ≤ y := by
      rcases hd.slot_cases hqa with hin | ⟨b, hb, hlo, hhi⟩
      · omega
      · have hyb : y / 1024 ≠ b := fun heq => hb.data (heq ▸ hy)
        omega
    rw [withEntry_apply_of_outside (by omega), store_apply_of_outside hya,
      fill_apply_of_outside (by omega)]
  have hinode : ∀ y, L.inodeAt n ≤ y → y < L.inodeAt n + 128 →
      (y < L.inodeAt d ∨ L.inodeAt d + 128 ≤ y) := by
    intro y hlo hhi
    have hdisj := L.inode_disjoint hd.numbered.1 hn.1 hne
    omega
  refine ⟨_, rfl, fun y hy => hsame y (hy.mem_metadata hn) ?_, fun y hlo hhi =>
    hsame y (L.inode_mem_metadata hn ⟨hlo, hhi⟩) (hinode y hlo hhi)⟩
  by_contra hin
  have hfar := L.inode_apart hd.numbered (y := y) (by omega)
  rcases hy with hy | hy | hy | hy | hy
  · omega
  · omega
  · omega
  · omega
  · exact hin (hinode y hy.1 (by omega))

/-- Marking a block outside the invariant: the layout, the bits, the inodes in use and an inode. -/
theorem markBlock_kept {e n : Nat} (hm : L.Holds m) (hn : 1 ≤ n ∧ n ≤ L.inodes)
    (he : e < L.blocks) : (∀ a, a / 1024 ≠ L.blockBitmap → markBlock m e a = m a) ∧
      L.Holds (markBlock m e) ∧
      (∀ b, L.marked (markBlock m e) b = (L.marked m b || decide (e = b - 1))) ∧
      L.inUse (markBlock m e) = L.inUse m ∧
      ∀ a, L.inodeAt n ≤ a → a < L.inodeAt n + 128 → markBlock m e a = m a := by
  obtain ⟨hbb, hib, hne, -⟩ := L.separate
  have hmapped := L.mapped
  have hsame : ∀ a, a / 1024 ≠ L.blockBitmap → markBlock m e a = m a :=
    fun a ha => Owned.markBlock_apply hm he ha
  refine ⟨hsame, hm.congr fun a ha => hsame a (by omega), fun b => ?_,
    Owned.inUse_congr fun a ha => hsame a (by omega), fun a hlo hhi => hsame a ?_⟩
  · rw [Layout.marked, Layout.marked, markBlock, hm.blockBitmapAt, bit_orBit]
  · exact (L.inode_apart hn ⟨hlo, hhi⟩).2.1

/-! ## A run of `ext2_cp` -/

/-- What `ext2_cp` leaves of the metadata before it copies the contents: one more block is marked,
one more inode is in use and zero after the mode, and the next block to be picked is `d`. -/
structure CpEntered (L : Layout) (n e d : Nat) (m entered : Memory) : Prop where
  holds : L.Holds entered
  used : L.inUse entered = Function.update (L.inUse m) n true
  marked : ∀ b ≤ L.blocks, L.marked entered b = (L.marked m b || decide (e = b - 1))
  next : firstClear (fun i => L.marked entered (i + 1)) L.blocks = some d
  zero : ∀ i k, 2 ≤ i → i + k ≤ 128 → entered.load (L.inodeAt n + i) k = 0
  counters : ∀ a, a / 1024 = 1 ∨ a / 1024 = 2 → entered a = m a

/-- Claiming the inode marks no block. -/
theorem CpStart.marked_claimed {source target : CString} {file : Option (List UInt8)}
    (start : CpStart source file target m) (hm : L.Holds m) {b : Nat} (hb : b ≤ L.blocks) :
    L.marked start.claimed b = L.marked m b := by
  obtain ⟨hindex, -, -, -⟩ := start.claimed_eq hm
  obtain ⟨-, -, -, hother⟩ := start.claimed_apply hm
  have hn : 1 ≤ start.index + 1 ∧ start.index + 1 ≤ L.inodes := ⟨by omega, hindex⟩
  obtain ⟨hbb, hib, hbi, -⟩ := L.separate
  refine Owned.marked_congr hb fun a ha => hother a (by omega) ?_
  by_contra hin
  have hfar := L.inode_apart hn (y := a) (by omega)
  omega

/-- It leaves the pointers of the directory alone. -/
theorem CpStart.backed_claimed {source target : CString} {file : Option (List UInt8)}
    (start : CpStart source file target m) (hm : L.Holds m) {parent : Nat}
    (hused : L.inUse m parent = true) (hdir : L.Backed m parent) :
    L.Backed start.claimed parent ∧ (L.HasRoom m parent → L.HasRoom start.claimed parent) := by
  obtain ⟨hindex, hunused, -, -⟩ := start.claimed_eq hm
  obtain ⟨-, -, -, hother⟩ := start.claimed_apply hm
  have hn : 1 ≤ start.index + 1 ∧ start.index + 1 ≤ L.inodes := ⟨by omega, hindex⟩
  refine hdir.congr (fun a hlo hhi => ?_) (fun a ha => ?_) fun b hb => start.marked_claimed hm hb
  · have hfar := L.inode_apart hdir.numbered (y := a) (by omega)
    have hdisj := L.inode_disjoint hdir.numbered.1 hn.1 (L.ne_of_inUse hused hunused)
    exact hother a (by omega) (by omega)
  · refine hother a (fun hib => ha (hib ▸ Layout.mem_metadata.mpr (by simp))) ?_
    by_contra hin
    exact ha (L.inode_mem_metadata hn (by omega))

theorem CpStart.effect {source target : CString} {file : Option (List UInt8)}
    (start : CpStart source file target m) (hm : L.Holds m)
    (hc : (Command.cp source file target).Clear L m)
    (hbacked : ∀ n : Nat, (Command.cp source file target).directory m = some (n : Int) →
      L.Backed m n) :
    ∃ e d, L.picks m = some (e, d) ∧ d ∉ L.metadata ∧ start.index + 1 ≤ L.inodes ∧
      L.inUse m (start.index + 1) = false ∧
      inodeTableAt start.taken + 128 * start.index = L.inodeAt (start.index + 1) ∧
      CpEntered L (start.index + 1) e d m start.entered := by
  obtain ⟨e, d, hpicks, hdata_e, hdata_d⟩ := hc.picks
  obtain ⟨he, hd⟩ := Layout.picks_eq_some.mp hpicks
  obtain ⟨hindex, hunused, hinode', -⟩ := start.claimed_eq hm
  obtain ⟨hclaimed, hused₂, hzero, hother⟩ := start.claimed_apply hm
  have hdirectory := start.directory_eq
  obtain ⟨parent, hparent, hused, hroom⟩ := hc.directory _ hdirectory
  rw [hparent] at hdirectory
  have hname := hc.name _ start.nameLength_eq
  have hne := L.ne_of_inUse hused hunused
  have hn : 1 ≤ start.index + 1 ∧ start.index + 1 ≤ L.inodes := ⟨by omega, hindex⟩
  obtain ⟨hbb, hib, hbi, -⟩ := L.separate
  obtain ⟨hdir, hroom'⟩ := start.backed_claimed hm hused (hbacked parent hdirectory)
  have hfirst : firstClear (fun i => L.marked start.claimed (i + 1)) L.blocks = some e := by
    rw [← he]
    exact firstClear_congr fun i hi => start.marked_claimed hm hi
  have hsize : start.index + 1 < 2 ^ 32 := by
    have hmapped := start.mapped
    omega
  have henter := start.enter
  rw [hparent] at henter
  obtain ⟨m₁, hmark, hkept₁, hinode₁⟩ :=
    hdir.enter_kept hclaimed (hroom' hroom) hfirst hdata_e hname hsize hn hne henter
  obtain ⟨hsame₂, hholds₂, hbits₂, hused₃, hinode₂⟩ :=
    markBlock_kept (hkept₁.holds hclaimed) hn (firstClear_eq_some_iff.mp he).2.1
  rw [← hmark] at hsame₂ hholds₂ hbits₂ hused₃ hinode₂
  have hbits : ∀ b ≤ L.blocks,
      L.marked start.entered b = (L.marked m b || decide (e = b - 1)) := fun b hb => by
    rw [hbits₂, hkept₁.marked hb, start.marked_claimed hm hb]
  refine ⟨e, d, hpicks, hdata_d, hn.2, hunused, hinode', hholds₂, ?_, hbits, ?_,
    fun i k hi hk => ?_, fun a ha => ?_⟩
  · rw [hused₃, hkept₁.inUse, hused₂]
  · rw [← hd]
    exact Owned.firstClear_marked hbits
  · have hfill : ∀ j < k, start.entered (L.inodeAt (start.index + 1) + i + j) =
        (m.fill (L.inodeAt (start.index + 1)) 128 0) (L.inodeAt (start.index + 1) + i + j) := by
      intro j hj
      rw [hinode₂ _ (by omega) (by omega), hinode₁ _ (by omega) (by omega),
        hzero _ (by omega) (by omega), fill_apply_of_inside (by omega)]
    rw [load_congr hfill]
    exact load_fill_zero (by omega)
  · have hfixed : L.Fixed (start.index + 1) a := by
      rcases ha with ha | ha
      · exact .inl ha
      · exact .inr (.inl ha)
    rw [hsame₂ a (by omega), hkept₁ a hfixed, hother a (by omega) (by
      by_contra hin
      have hfar := L.inode_apart hn (y := a) (by omega)
      omega)]

/-- What a run of `ext2_cp` leaves of the metadata: one more block is marked and one more inode is
in use, whose header is zero after the mode, and the counters go down by one each. -/
structure CpEffect (L : Layout) (n e : Nat) (m m' : Memory) : Prop where
  holds : L.Holds m'
  used : L.inUse m' = Function.update (L.inUse m) n true
  marked : ∀ b ≤ L.blocks, L.marked m' b = (L.marked m b || decide (e = b - 1))
  header : ∀ i k, 2 ≤ i → i + k ≤ 40 → m'.load (L.inodeAt n + i) k = 0
  counted : ∃ m₁ x, (∀ a, a / 1024 = 1 ∨ a / 1024 = 2 → m₁ a = m a) ∧ countOne m₁ = .ok x m'

theorem CpRun.effect {source target : CString} {file : Option (List UInt8)}
    (run : CpRun source file target m m') (hm : L.Holds m)
    (hc : (Command.cp source file target).Clear L m)
    (hbacked : ∀ n : Nat, (Command.cp source file target).directory m = some (n : Int) →
      L.Backed m n) (hahead : 34 * 1024 ≤ run.contents.length →
      L.blockBitmap < L.inodeTable ∧ L.inodeBitmap < L.inodeTable) :
    ∃ e d, L.picks m = some (e, d) ∧ 1 ≤ run.index + 1 ∧ run.index + 1 ≤ L.inodes ∧
      L.inUse m (run.index + 1) = false ∧ CpEffect L (run.index + 1) e m m' := by
  obtain ⟨e, d, hpicks, hdata, hindex, hunused, hinode, hentered⟩ :=
    run.toCpStart.effect hm hc hbacked
  have hn : 1 ≤ run.index + 1 ∧ run.index + 1 ≤ L.inodes := ⟨by omega, hindex⟩
  have hfill := run.fill
  rw [hinode] at hfill
  have hfilled := (fillFile_kept hn hentered.holds hentered.next hdata
    (hentered.zero 88 4 (by decide) (by decide)) hfill).1 hahead
  have hcount : ∀ a, a / 1024 ≠ 1 → a / 1024 ≠ 2 → m' a = run.filled a := fun a h1 h2 =>
    countOne_ok run.count a (by omega) (by omega)
  obtain ⟨hbb, hib, -, -⟩ := L.separate
  refine ⟨e, d, hpicks, hn.1, hn.2, hunused, ⟨?_, ?_, fun b hb => ?_, fun i k hi hk => ?_, ?_⟩⟩
  · exact (hfilled.holds hentered.holds).congr fun a ha =>
      countOne_ok run.count a (by omega) (by omega)
  · rw [Owned.inUse_congr (m := run.filled) fun a ha => hcount a (by omega) (by omega),
      hfilled.inUse, hentered.used]
  · rw [Owned.marked_congr (m := run.filled) hb fun a ha => hcount a (by omega) (by omega),
      hfilled.marked hb, hentered.marked b hb]
  · rw [← hentered.zero i k hi (by omega), ← hfilled.header hk]
    refine load_congr fun j hj => ?_
    have hfar := L.inode_apart hn (y := L.inodeAt (run.index + 1) + i + j) (by omega)
    exact hcount _ (by omega) (by omega)
  · refine ⟨run.filled, (), fun a ha => ?_, run.count⟩
    have hfixed : L.Fixed (run.index + 1) a := by
      rcases ha with ha | ha
      · exact .inl ha
      · exact .inr (.inl ha)
    rw [hfilled a hfixed, hentered.counters a ha]

end OsAssignments.Ext2
