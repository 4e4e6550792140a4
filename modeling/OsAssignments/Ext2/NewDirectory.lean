import OsAssignments.Ext2.Sample
import OsAssignments.Ext2.Paths
import OsAssignments.Ext2.BlockOwners

/-!
# Looking for a new directory

`ext2_mkdir` gives the new inode the mode of a regular file. Where a block that it picks is the
one of the group descriptor, the entry written there moves the bitmaps or the inode table
out of the mapping.
-/

namespace OsAssignments.Ext2

open Memory Program

variable {L : Layout} {U : Nat → Bool} {m m' : Memory}

/-- What should hold of the directory made under `path` as inode `n`: the path leads to it, it
has the mode of a directory, and directory paths lead where they led before. -/
structure FoundAgain (L : Layout) (path : CString) (n : Nat) (m m' : Memory) : Prop where
  found : ∃ info, stepToTarget path false m' = .ok (some info) m' ∧ info.iNodeNumber = n
  directory : L.isDirectory m' n = true
  others : ∀ other info, stepToTarget other false m = .ok (some info) m →
    ∃ info', stepToTarget other false m' = .ok (some info') m' ∧
      info'.iNodeNumber = info.iNodeNumber

/-! ## A search needs the inode table -/

theorem searchInode_mapped {path : CString} {start last inode : Int} {dirsOnly : Bool}
    {r : Option (Int × Nat)} (h : searchInode path start last dirsOnly inode m = .ok r m') :
    inode + 44 ≤ 131072 := by
  rw [searchInode] at h
  obtain ⟨_, u, hread, -⟩ := bind_ok.mp h
  obtain ⟨p, hp, hbound, -⟩ := read_ok.mp hread
  simp only [iBlock] at hp
  omega

/-- A path other than the root is searched from the root inode on. -/
theorem stepToTarget_mapped {path : CString} {flag : Bool} {indices : ThreeIndices}
    {r : Option INodeInfo} (hpath : generatePosition path = some indices)
    (hanchor : indices.anchor ≠ -1) (h : stepToTarget path flag m = .ok r m') :
    inodeTableAt m + 172 ≤ 131072 := by
  rw [stepToTarget, require_bind hpath, bind_of_ok (getInode_apply 2 m), if_neg hanchor] at h
  generalize 2 ^ 31 = rounds at h
  cases rounds with
  | zero => cases h
  | succ rounds =>
    obtain ⟨_, u, hsearch, -⟩ := bind_ok.mp h
    have hmapped := searchInode_mapped hsearch
    omega

/-! ## The group descriptor during a run -/

/-- Where the group descriptor puts the block bitmap, setting a bit changes that block only. -/
theorem markBlock_apply_of_load {b e a : Nat} (hload : m.load 2048 4 = b) (hb : b < 4096)
    (he : e < 1024) (ha : a / 1024 ≠ b) : markBlock m e a = m a := by
  rw [markBlock, blockBitmapAt, hload, offsetOf_eq (by omega)]
  exact orBit_apply_of_ne (by omega)

/-- The pointers that are searched for a spot are not in the group descriptor. -/
theorem Owned.pointers_block (h : Owned L U m) {d p n k : Nat} (hd : U d = true)
    (hp : Pointers m (inodeAt m d) p n) (hk : k < n) :
    p + 4 * k + 4 ≤ 2048 ∨ 3072 ≤ p + 4 * k := by
  obtain ⟨hlo, hhi⟩ := h.numbered d hd
  have haddr : inodeAt m d = L.inodeAt d := by
    rw [inodeAt, h.holds.inodeTableAt (by omega), Layout.inodeAt]
  rw [haddr] at hp
  cases hp with
  | direct =>
    have hfar := L.inode_apart (h.numbered d hd) (y := L.inodeAt d) (by omega)
    omega
  | indirect hfull =>
    by_cases hnull : L.word m d 12 = 0
    · rw [show m.load (L.inodeAt d + 88) 4 = 0 from hnull, offsetOf]
      omega
    · have hgranted := h.owners.granted (Layout.held_indirect hd hnull)
      have hin := hgranted.inside
      have hmapped := L.mapped
      have hdata := hgranted.data
      simp only [Layout.mem_metadata, not_or] at hdata
      have hoffset : offsetOf (m.load (L.inodeAt d + 88) 4) = L.word m d 12 * 1024 :=
        offsetOf_eq (show L.word m d 12 < 2 ^ 22 by omega)
      rw [hoffset]
      omega

/-- Finding a spot changes the group descriptor only when it clears its block. -/
theorem Owned.spot_group (h : Owned L U m) {d p n e a : Nat} {m₁ : Memory} (hd : U d = true)
    (hp : Pointers m (inodeAt m d) p n) (hs : SpotAmong m p 0 n (some (e + 1 : Nat)) m₁)
    (he : e ≠ 2) (ha : a / 1024 = 2) : m₁ a = m a := by
  generalize hr : (some ((e + 1 : Nat) : Int)) = r at hs
  cases hs with
  | nothing hfull => rfl
  | fresh k e' hk hnull hbefore hclear hin hslot =>
    obtain rfl : e = e' := by
      have hr' := Option.some.inj hr
      omega
    have hfar := h.pointers_block hd hp hk.2
    rw [store_apply_of_outside (by omega), fill_apply_of_outside (by omega)]
  | unmarked k b hk hload hb hclear => rfl

/-- From the entry on, a run that takes another block for the data leaves the pointers of the
group descriptor alone. -/
theorem MkdirRun.group_kept {path : CString} (run : MkdirRun path m m') {n b e a : Nat}
    {x : Memory} (hinode : inodeTableAt run.taken + 128 * run.index = L.inodeAt n)
    (hn : 1 ≤ n ∧ n ≤ L.inodes) (hentered : run.entered = markBlock x e) (he : e < 1024)
    (hload : x.load 2048 4 = b) (hb : b < 4096) (hb2 : b ≠ 2) (hdata : run.data ≠ 2)
    (ha : 2048 ≤ a ∧ a < 2060) : run.counted a = x a := by
  have hfar := L.inode_apart hn (y := L.inodeAt n) (by omega)
  have hmark : ∀ {y : Memory}, y.load 2048 4 = b → ∀ {i c}, i < 1024 → c / 1024 = 2 →
      markBlock y i c = y c := fun hy i c hi hc => markBlock_apply_of_load hy hb hi (by omega)
  obtain ⟨d, hd, -, hbound, hclear⟩ := findFreeBlock_ok run.clear
  obtain rfl : run.data = d := by omega
  have hcleared : ∀ c, c / 1024 = 2 → run.cleared c = x c := fun c hc => by
    rw [hclear, fill_apply_of_outside (by omega), hentered, hmark hload he hc]
  have hload' : run.cleared.load 2048 4 = b := by
    rw [← hload]
    exact load_congr fun i hi => hcleared _ (by omega)
  have hdot : ([0x2e] : List UInt8).length = 1 := rfl
  have hdots : ([0x2e, 0x2e] : List UInt8).length = 2 := rfl
  have hcount := run.count
  rw [hinode] at hcount
  rw [countOne_ok hcount a (by omega) (by omega), withDirectory,
    withEntry_apply_of_outside (by omega), withEntry_apply_of_outside (by omega),
    store_apply_of_outside (by omega), store_apply_of_outside (by omega),
    hmark hload' (by omega) (by omega), hcleared a (by omega)]

/-! ## Where the entries go -/

/-- A load from the new directory's block where it is the block of the group descriptor. -/
theorem withDirectory_load_two (m : Memory) (p k parent : Nat) :
    (withDirectory m p k 2 parent).load 2052 4 = 0x201000c := by
  have hsame : ∀ i < 4, withDirectory m p k 2 parent (2 * 1024 + 4 + i) = withEntry
      (((markBlock m 2).store (p + 40) 4 2).store p 2 ext2SIfreg) (2 * 1024) ext2FtDir (k + 1) 12
      [0x2e] (2 * 1024 + 4 + i) := fun i hi => withEntry_apply_of_outside (by omega)
  exact (load_congr hsame).trans (withEntry_load_four ..)

/-- The data of a successful run is not in the block of the group descriptor: the entry `.` there
would put the inode bitmap outside the mapping. -/
theorem MkdirRun.data_ne_two {path : CString} (run : MkdirRun path m m') : run.data ≠ 2 := by
  intro hdata
  have hbit := run.bit_mapped
  have hload : run.counted.load 2052 4 = 0x201000c := by
    rw [← withDirectory_load_two run.cleared (inodeTableAt run.taken + 128 * run.index) run.index
      (toUnsigned (run.parent.iNodeNumber + 1)), ← hdata]
    exact load_congr fun i hi => countOne_ok run.count _ (by omega) (by omega)
  rw [inodeBitmapAt, hload, offsetOf, show blockSize = 1024 from rfl] at hbit
  omega

/-- The multiplication by the block size drops all but six bits of the upper half. -/
theorem offsetOf_halves {x y : Nat} (hx : x < 2 ^ 16) :
    offsetOf (x + 2 ^ 16 * y) = x * 1024 + y % 64 * 2 ^ 26 := by
  have hlow := Nat.mod_lt y (show 0 < 64 by decide)
  have hy := Nat.div_add_mod y 64
  generalize y % 64 = low at hlow hy ⊢
  generalize y / 64 = high at hy
  have hsplit : (x + 2 ^ 16 * y) * blockSize = x * 1024 + low * 2 ^ 26 + high * 2 ^ 32 := by
    rw [← hy, show blockSize = 1024 from rfl]
    omega
  rw [offsetOf, hsplit, Nat.add_mul_mod_self_right]
  exact Nat.mod_eq_of_lt (by omega)

/-- An entry in the block of the group descriptor leaves a bitmap in the mapping only for a name
of 64 bytes, and then puts the inode table outside it. -/
theorem entry_two {x : Memory} {k i : Nat} {name : List UInt8} (hpos : 1 ≤ name.length)
    (hlen : name.length ≤ 255) (h0 : 0 ∉ name)
    (hx : x = withEntry m 2048 ext2FtDir (k + 1) (name.length + 8) name)
    (hbit : inodeBitmapAt x + i / 8 + 1 ≤ 131072) :
    inodeBitmapAt x = 72 * 1024 ∧ 131072 < inodeTableAt x := by
  have hload : x.load 2052 4 = name.length + 8 + 2 ^ 16 * (name.length + 512) := by
    rw [hx, show 2052 = 2048 + 4 from rfl, withEntry_load_four, ext2FtDir]
    omega
  rw [inodeBitmapAt, hload, offsetOf_halves (by omega)] at hbit ⊢
  have hzero : (name.length + 512) % 64 = 0 := by
    generalize (name.length + 512) % 64 = bits at hbit ⊢
    omega
  have h64 : name.length = 64 := by omega
  refine ⟨by omega, ?_⟩
  -- The second byte of the name is not zero.
  obtain ⟨-, -, -, -, hname⟩ :=
    withEntry_header m 2048 ext2FtDir (k + 1) (name.length + 8) name
  have hsecond : x.load 2057 1 ≠ 0 := by
    intro hzero
    have hbyte : x 2057 = 0 := by
      apply UInt8.toNat.inj
      simpa [Memory.load, Memory.bytes, ofLeBytes] using hzero
    refine h0 (List.mem_of_getElem? (i := 1) ?_)
    rw [← hname, getElem?_bytes (by omega), ← hx]
    exact congrArg some hbyte
  have h1 : x.load 2057 1 < 256 := x.load_lt 2057 1
  have h2 : x.load 2056 1 < 256 := x.load_lt 2056 1
  have hfield : x.load 2056 4 =
      x.load 2056 1 + 256 * x.load 2057 1 + 2 ^ 16 * x.load 2058 2 := by
    rw [load_add x 2056 2 2, load_add x 2056 1 1]
    rfl
  rw [inodeTableAt, hfield, offsetOf_halves (by omega)]
  omega

/-- No four bits of the mode are those of a directory: they are the bits of a regular file, or
the entry `.` has overwritten them with a small inode number. -/
theorem withDirectory_mode {p k d parent : Nat} (hk : k + 1 < 2 ^ 12) (hp : p % 128 = 0) :
    (withDirectory m p k d parent).load p 2 &&& 0xf000 ≠ ext2SIfdir := by
  have hone : ([0x2e] : List UInt8).length = 1 := rfl
  have htwo : ([0x2e, 0x2e] : List UInt8).length = 2 := rfl
  have hdots : ∀ i < 2, withDirectory m p k d parent (p + i) = withEntry
      (((markBlock m d).store (p + 40) 4 d).store p 2 ext2SIfreg) (d * 1024) ext2FtDir (k + 1) 12
      [0x2e] (p + i) := fun i hi => withEntry_apply_of_outside (by omega)
  rw [load_congr hdots]
  by_cases hblock : p = d * 1024
  · -- The inode number lies over the mode.
    obtain ⟨hnumber, -⟩ := withEntry_header
      (((markBlock m d).store (p + 40) 4 d).store p 2 ext2SIfreg) (d * 1024) ext2FtDir (k + 1) 12
      [0x2e]
    rw [load_add _ (d * 1024) 2 2] at hnumber
    rw [hblock] at hnumber ⊢
    intro hmode
    have hbit := congrArg (fun v => Nat.testBit v 14) hmode
    rw [Nat.testBit_and, Nat.testBit_lt_two_pow (by omega)] at hbit
    cases hbit
  · have hdot : ∀ i < 2, withEntry (((markBlock m d).store (p + 40) 4 d).store p 2 ext2SIfreg)
        (d * 1024) ext2FtDir (k + 1) 12 [0x2e] (p + i) =
          ((markBlock m d).store (p + 40) 4 d).store p 2 ext2SIfreg (p + i) :=
      fun i hi => withEntry_apply_of_outside (by omega)
    rw [load_congr hdot, load_store_same]
    decide

/-! ## A run of `ext2_mkdir` -/

/-- The entry of the new directory: its block, the memory around it, and the group descriptor
where the entry is elsewhere. -/
theorem MkdirRun.entry {path : CString} {parent name : List UInt8} {d : Nat}
    (run : MkdirRun path m m') (h : Consistent L m) (hpath : Names path parent name)
    (hname : name.length ≤ 255) (hd : (Command.mkdir path).directory m = some (d : Int))
    (hused : L.inUse m d = true) :
    inodeTableAt run.taken + 128 * run.index = L.inodeAt (run.index + 1) ∧
      ∃ e x, run.entered =
          markBlock (withEntry x (e * 1024) ext2FtDir (run.index + 1) (name.length + 8) name) e ∧
        e < 128 ∧ (e ≠ 2 → ∀ a, a / 1024 = 2 → x a = m a) := by
  obtain ⟨hindex, hinode, hunused⟩ := Owned.taken h.holds run.free
  have hn : 1 ≤ run.index + 1 ∧ run.index + 1 ≤ L.inodes := ⟨by omega, hindex⟩
  have hinodes := L.inodes_le
  obtain ⟨htaken, -, -, -⟩ := h.owned.take hn hunused
  have htake : run.taken = m.fill (L.inodeAt (run.index + 1)) 128 0 := by rw [run.take, hinode]
  rw [← htake] at htaken
  refine ⟨by rw [Layout.inodeAt, Nat.add_sub_cancel, htaken.holds.inodeTableAt (by omega)], ?_⟩
  have hparent : run.parent.iNodeNumber = d :=
    Option.some.inj (run.directory_eq.symm.trans hd)
  have hindices : run.indices = ⟨1, _, _⟩ :=
    Option.some.inj (run.position.symm.trans hpath.generatePosition)
  have henter := run.enter
  rw [hparent, hindices] at henter
  obtain ⟨p, n, e, name', x, hp, hspot, hslice, hbound, hentered⟩ :=
    addEntry_ok (h.owned.numbered d hused).1 (by omega) henter
  obtain rfl : name = name' := by
    have hspan : ((parent.length + name.length : Nat) : Int) - (parent.length + 1 : Nat) + 1 =
        name.length := by omega
    rw [hspan] at hslice
    exact Option.some.inj (hpath.slice.symm.trans hslice)
  refine ⟨e, x, hentered, by omega, fun he a ha => ?_⟩
  have hne := L.ne_of_inUse hused hunused
  have hfar := L.inode_apart hn (y := L.inodeAt (run.index + 1)) (by omega)
  rw [htaken.spot_group ((Function.update_of_ne hne ..).trans hused) hp hspot he ha, htake,
    fill_apply_of_outside (by omega)]

/-- The last step of a run sets one bit. -/
theorem MkdirRun.marked_apply {path : CString} (run : MkdirRun path m m') {a : Nat}
    (ha : a ≠ inodeBitmapAt run.counted + run.index / 8) : m' a = run.counted a :=
  (congrFun run.mark a).trans (orBit_apply_of_ne ha)

/-- A successful run of `ext2_mkdir` does not make a directory that is found again. -/
theorem not_foundAgain {path : CString} {parent name : List UInt8} {d k : Nat}
    (h : Consistent L m) (hpath : Names path parent name) (hname : name.length ≤ 255)
    (hd : (Command.mkdir path).directory m = some (d : Int)) (hused : L.inUse m d = true)
    (hk : freeInode m = some k) (hrun : mkdir path m = .ok 0 m') :
    ¬ FoundAgain L path (k + 1) m m' := by
  rintro ⟨⟨info, hfound, -⟩, hdirectory, -⟩
  obtain ⟨run⟩ := mkdir_ok hrun
  obtain rfl : run.index = k := Option.some.inj (run.free.symm.trans hk)
  obtain ⟨hinode, e, x, hentered, he128, hgroup⟩ := run.entry h hpath hname hd hused
  obtain ⟨h11, hindex, -⟩ := freeInode_eq_some hk
  rw [h.holds.inodes] at hindex
  have hn : 1 ≤ run.index + 1 ∧ run.index + 1 ≤ L.inodes := ⟨by omega, hindex⟩
  have hinodes := L.inodes_le
  have hmapped := L.mapped
  obtain ⟨hbb, hib, hbi, -⟩ := L.separate
  have hbitmaps := L.lt_blocks (Layout.mem_metadata.mpr (.inr (.inr (.inl rfl))))
  have hkept := fun {b a} => run.group_kept (n := run.index + 1) (b := b) (e := e) (a := a) hinode
    hn hentered (by omega)
  by_cases he : e = 2
  · -- The entry lies over the group descriptor.
    have hload := (withEntry_header x 2048 ext2FtDir (run.index + 1) (name.length + 8) name).1
    rw [Nat.mod_eq_of_lt (by omega)] at hload
    rw [show e * 1024 = 2048 by omega] at hkept
    have hsame := fun {a} => hkept (a := a) hload (by omega) (by omega) run.data_ne_two
    have hbitmap : inodeBitmapAt run.counted = inodeBitmapAt (withEntry x 2048 ext2FtDir
        (run.index + 1) (name.length + 8) name) :=
      congrArg offsetOf (load_congr fun i hi => hsame ⟨by omega, by omega⟩)
    have hbit := run.bit_mapped
    rw [hbitmap] at hbit
    obtain ⟨h72, htable'⟩ := entry_two hpath.length_pos hname hpath.noNul rfl hbit
    have hmark : ∀ i < 4, m' (2056 + i) = run.counted (2056 + i) := fun i hi =>
      run.marked_apply (by omega)
    have htable : inodeTableAt m' = inodeTableAt (withEntry x 2048 ext2FtDir (run.index + 1)
        (name.length + 8) name) :=
      congrArg offsetOf (load_congr fun i hi => (hmark i hi).trans (hsame ⟨by omega, by omega⟩))
    have hmapped := stepToTarget_mapped hpath.generatePosition (by simp) hfound
    omega
  · -- The group descriptor is what it was, and the new inode has its mode.
    have hentry : ∀ a, 2048 ≤ a → a < 2060 → withEntry x (e * 1024) ext2FtDir (run.index + 1)
        (name.length + 8) name a = m a := fun a hlo hhi => by
      rw [withEntry_apply_of_outside (by omega), hgroup he a (by omega)]
    have hload := (load_congr fun i hi => hentry (2048 + i) (by omega) (by omega)).trans
      h.holds.blockBitmap
    have hbitmap : inodeBitmapAt run.counted = L.inodeBitmap * 1024 := by
      rw [← h.holds.inodeBitmapAt]
      refine congrArg offsetOf (load_congr fun i hi => ?_)
      rw [hkept hload (by omega) (by omega) run.data_ne_two ⟨by omega, by omega⟩,
        hentry _ (by omega) (by omega)]
    have hfar := L.inode_apart hn (y := L.inodeAt (run.index + 1)) (by omega)
    have haligned : L.inodeAt (run.index + 1) % 128 = 0 := by
      rw [Layout.inodeAt]
      omega
    have hcount := run.count
    rw [hinode] at hcount
    have hmode : ∀ i < 2, m' (L.inodeAt (run.index + 1) + i) = run.counted
        (L.inodeAt (run.index + 1) + i) := fun i hi => run.marked_apply (by omega)
    have hfields := load_congr fun i hi => (hmode i hi).trans
      (countOne_ok hcount _ (by omega) (by omega))
    rw [Layout.isDirectory, hfields, decide_eq_true_iff] at hdirectory
    exact withDirectory_mode (by omega) haligned hdirectory

theorem names_abPath : Names abPath [0x2f, 0x61] [0x62] := ⟨rfl, by decide, by decide⟩

/-- The directory `/a/b` made in the image with a lost block is not found again. -/
theorem not_foundAgain_sample : ∃ m', mkdir abPath (sample true) = .ok 0 m' ∧
    ¬ FoundAgain sampleLayout abPath 12 (sample true) m' := by
  obtain ⟨status, m', hrun, hq⟩ := exists_of_holds
    (show holds (mkdir abPath (sample true)) (fun status _ => status = 0) = true by decide +kernel)
  obtain rfl := of_decide_eq_true hq
  exact ⟨m', hrun, not_foundAgain (consistent_sample true) names_abPath (by decide)
    (show _ = some ((11 : Nat) : Int) by decide +kernel) (by decide +kernel)
    (show _ = some 11 by decide +kernel) hrun⟩

/-- In the image without lost blocks, `/a/b` becomes a new inode 12 that is no directory. -/
theorem not_foundAgain_mode : Consistent sampleLayout (sample false) ∧
    freeInode (sample false) = some 11 ∧
    ∃ m', mkdir abPath (sample false) = .ok 0 m' ∧
      ¬ FoundAgain sampleLayout abPath 12 (sample false) m' := by
  refine ⟨consistent_sample false, by decide +kernel, ?_⟩
  obtain ⟨status, m', hrun, hq⟩ := exists_of_holds
    (show holds (mkdir abPath (sample false)) (fun status m' =>
      status = 0 && !sampleLayout.isDirectory m' 12) = true by decide +kernel)
  rw [Bool.and_eq_true, decide_eq_true_iff, Bool.not_eq_true'] at hq
  obtain ⟨rfl, hmode⟩ := hq
  refine ⟨m', hrun, fun h => ?_⟩
  rw [h.directory] at hmode
  cases hmode

end OsAssignments.Ext2
