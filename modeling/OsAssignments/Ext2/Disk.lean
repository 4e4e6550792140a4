import OsAssignments.Library.BitArray
import OsAssignments.Library.Program

/-!
# The mapped disk image

Both tools map 128 KiB of the image file and work on it through C pointers. The state is
the mapped bytes. A pointer is its offset in the mapping, which may be negative or beyond
the end; an access is undefined unless all its bytes lie in the mapping. The structures of
`ext2.h` are given by the offsets of the fields that the tools use.
-/

namespace OsAssignments.Ext2

/-- The bytes that the tools map. -/
abbrev imageSize : Nat := 128 * 1024

/-- `EXT2_BLOCK_SIZE`. -/
abbrev blockSize : Nat := 1024

/-- A program over the bytes of the mapped image. -/
abbrev DiskM (α : Type) := Program Stop Memory α

/-! ## Accesses -/

variable {α : Type}

/-- Go on with an offset whose `n` bytes lie in the mapping. -/
def access (a : Int) (n : Nat) (f : Nat → DiskM α) : DiskM α :=
  if 0 ≤ a ∧ a + n ≤ imageSize then f a.toNat else Program.stop .undefined

/-- Read the unsigned field of `n` bytes at `a`. -/
def read (a : Int) (n : Nat) : DiskM Nat :=
  access a n fun p => do return (← get).load p n

/-- Store `v` in the field of `n` bytes at `a`, reduced to the width of the field. -/
def write (a : Int) (n v : Nat) : DiskM Unit := access a n fun p => modify fun m => m.store p n v

/-- The `n` bytes at `a`. -/
def readBytes (a : Int) (n : Nat) : DiskM (List UInt8) :=
  access a n fun p => do return (← get).bytes p n

def memset (a : Int) (b : UInt8) (n : Nat) : DiskM Unit :=
  access a n fun p => modify fun m => m.fill p n b

def memcpy (a : Int) (bs : List UInt8) : DiskM Unit :=
  access a bs.length fun p => modify fun m => m.write p bs

/-- `+=` on the unsigned field of `n` bytes at `a`, which wraps. -/
def add (a : Int) (n : Nat) (d : Int) : DiskM Unit := do
  let v ← read a n
  write a n ((v + d) % 256 ^ n).toNat

/-- `bitmap[(number - 1) / 8] |= 1 << (number - 1) % 8`, with C's division. A shift by a
negative amount is undefined. -/
def orBit (bitmap number : Int) : DiskM Unit :=
  if (number - 1).tmod 8 < 0 then Program.stop .undefined
  else access (bitmap + (number - 1).tdiv 8) 1 fun p =>
    modify fun m => m.orBit p ((number - 1).tmod 8).toNat

/-- `bitmap[(number - 1) / 8] &= ~(1 << (number - 1) % 8)`. -/
def andNotBit (bitmap number : Int) : DiskM Unit :=
  if (number - 1).tmod 8 < 0 then Program.stop .undefined
  else access (bitmap + (number - 1).tdiv 8) 1 fun p =>
    modify fun m => m.clearBit p ((number - 1).tmod 8).toNat

/-! ## Conversions between `int` and `unsigned int` -/

def toInt (v : Nat) : Int := if v < 2 ^ 31 then v else v - 2 ^ 32

def toUnsigned (n : Int) : Nat := (n % 2 ^ 32).toNat

/-! ## Structures of `ext2.h` -/

/-- `struct ext2_super_block`, in block 1. -/
abbrev superBlock : Int := 1024

abbrev sInodesCount : Int := superBlock
abbrev sBlocksCount : Int := superBlock + 4
abbrev sFreeBlocksCount : Int := superBlock + 12
abbrev sFreeInodesCount : Int := superBlock + 16

/-- `struct ext2_group_desc`, in block 2. -/
abbrev groupDesc : Int := 2048

abbrev bgBlockBitmap : Int := groupDesc
abbrev bgInodeBitmap : Int := groupDesc + 4
abbrev bgInodeTable : Int := groupDesc + 8
abbrev bgFreeBlocksCount : Int := groupDesc + 12
abbrev bgFreeInodesCount : Int := groupDesc + 14
abbrev bgUsedDirsCount : Int := groupDesc + 16

/-- `sizeof(struct ext2_inode)`. -/
abbrev inodeSize : Nat := 128

abbrev iMode (inode : Int) : Int := inode
abbrev iSize (inode : Int) : Int := inode + 4
abbrev iLinksCount (inode : Int) : Int := inode + 26
abbrev iBlock (inode : Int) (i : Nat) : Int := inode + 40 + 4 * i

def ext2SIfreg : Nat := 0x8000
def ext2SIfdir : Nat := 0x4000

/-- `sizeof(struct ext2_dir_entry_2)`, the offset of the name. -/
abbrev dirEntrySize : Nat := 8

abbrev entryInode (entry : Int) : Int := entry
abbrev entryRecLen (entry : Int) : Int := entry + 4
abbrev entryNameLen (entry : Int) : Int := entry + 6
abbrev entryFileType (entry : Int) : Int := entry + 7
abbrev entryName (entry : Int) : Int := entry + 8

def ext2FtRegFile : Nat := 1
def ext2FtDir : Nat := 2

/-- `block * EXT2_BLOCK_SIZE` for an unsigned block number. -/
def blockOffset (block : Nat) : Int := (block * blockSize % 2 ^ 32 : Nat)

/-! ## What a successful access says -/

theorem access_ok {a : Int} {n : Nat} {f : Nat → DiskM α} {m m' : Memory} {x : α} :
    access a n f m = .ok x m' ↔ ∃ p : Nat, a = p ∧ p + n ≤ 131072 ∧ f p m = .ok x m' := by
  rw [access]
  by_cases h : 0 ≤ a ∧ a + n ≤ imageSize
  · rw [if_pos h]
    obtain ⟨hpos, hend⟩ := h
    obtain ⟨p, rfl⟩ := Int.eq_ofNat_of_zero_le hpos
    have hbound : p + n ≤ 131072 := by exact_mod_cast hend
    rw [Int.toNat_natCast]
    constructor
    · intro hf
      exact ⟨p, rfl, hbound, hf⟩
    · rintro ⟨q, hq, -, hf⟩
      rwa [Int.ofNat.inj hq]
  · rw [if_neg h]
    constructor
    · intro hf
      cases hf
    · rintro ⟨p, rfl, hbound, -⟩
      exact absurd ⟨Int.natCast_nonneg p, by exact_mod_cast hbound⟩ h

theorem access_of_le {p n : Nat} (h : p + n ≤ 131072) (f : Nat → DiskM α) (m : Memory) :
    access p n f m = f p m := by
  have hin : 0 ≤ (p : Int) ∧ (p : Int) + n ≤ imageSize :=
    ⟨Int.natCast_nonneg p, by exact_mod_cast h⟩
  rw [access, if_pos hin, Int.toNat_natCast]

theorem read_ok {a : Int} {n v : Nat} {m m' : Memory} :
    read a n m = .ok v m' ↔ ∃ p : Nat, a = p ∧ p + n ≤ 131072 ∧ v = m.load p n ∧ m = m' := by
  rw [read, access_ok]
  constructor
  · rintro ⟨p, ha, hp, h⟩
    cases h
    exact ⟨p, ha, hp, rfl, rfl⟩
  · rintro ⟨p, ha, hp, rfl, rfl⟩
    exact ⟨p, ha, hp, rfl⟩

theorem write_ok {a : Int} {n v : Nat} {m m' : Memory} {x : Unit} :
    write a n v m = .ok x m' ↔ ∃ p : Nat, a = p ∧ p + n ≤ 131072 ∧ m' = m.store p n v := by
  rw [write, access_ok]
  constructor
  · rintro ⟨p, ha, hp, h⟩
    cases h
    exact ⟨p, ha, hp, rfl⟩
  · rintro ⟨p, ha, hp, rfl⟩
    exact ⟨p, ha, hp, rfl⟩

theorem memset_ok {a : Int} {n : Nat} {b : UInt8} {m m' : Memory} {x : Unit} :
    memset a b n m = .ok x m' ↔ ∃ p : Nat, a = p ∧ p + n ≤ 131072 ∧ m' = m.fill p n b := by
  rw [memset, access_ok]
  constructor
  · rintro ⟨p, ha, hp, h⟩
    cases h
    exact ⟨p, ha, hp, rfl⟩
  · rintro ⟨p, ha, hp, rfl⟩
    exact ⟨p, ha, hp, rfl⟩

theorem memcpy_ok {a : Int} {bs : List UInt8} {m m' : Memory} {x : Unit} :
    memcpy a bs m = .ok x m' ↔
      ∃ p : Nat, a = p ∧ p + bs.length ≤ 131072 ∧ m' = m.write p bs := by
  rw [memcpy, access_ok]
  constructor
  · rintro ⟨p, ha, hp, h⟩
    cases h
    exact ⟨p, ha, hp, rfl⟩
  · rintro ⟨p, ha, hp, rfl⟩
    exact ⟨p, ha, hp, rfl⟩

theorem add_ok {a d : Int} {n : Nat} {m m' : Memory} {x : Unit} :
    add a n d m = .ok x m' ↔ ∃ p : Nat, a = p ∧ p + n ≤ 131072 ∧
      m' = m.store p n ((m.load p n + d) % 256 ^ n).toNat := by
  rw [add, Program.bind_ok]
  constructor
  · rintro ⟨v, u, hv, hw⟩
    obtain ⟨p, rfl, -, rfl, rfl⟩ := read_ok.mp hv
    obtain ⟨q, hq, hbound, rfl⟩ := write_ok.mp hw
    obtain rfl := Int.ofNat.inj hq
    exact ⟨p, rfl, hbound, rfl⟩
  · rintro ⟨p, rfl, hbound, rfl⟩
    exact ⟨_, m, read_ok.mpr ⟨p, rfl, hbound, rfl, rfl⟩, write_ok.mpr ⟨p, rfl, hbound, rfl⟩⟩

theorem add_apply (a : Int) {p n : Nat} (ha : a = p) (h : p + n ≤ 131072) (d : Int) (m : Memory) :
    add a n d m = .ok () (m.store p n ((m.load p n + d) % 256 ^ n).toNat) :=
  add_ok.mpr ⟨p, ha, h, rfl⟩

/-- Setting the bit of a block or inode number that is at least 1. -/
theorem orBit_ok {bitmap : Int} {k : Nat} {m m' : Memory} {x : Unit} :
    orBit bitmap (k + 1) m = .ok x m' ↔ ∃ p : Nat, bitmap + (k / 8 : Nat) = p ∧
      p + 1 ≤ 131072 ∧ m' = m.orBit p (k % 8) := by
  have hsub : (k : Int) + 1 - 1 = k := by omega
  have hmod : (k : Int).tmod 8 = (k % 8 : Nat) := rfl
  have hdiv : (k : Int).tdiv 8 = (k / 8 : Nat) := rfl
  rw [orBit, hsub, hmod, hdiv, if_neg (by omega), access_ok, Int.toNat_natCast]
  constructor
  · rintro ⟨p, hp, hbound, h⟩
    cases h
    exact ⟨p, hp, hbound, rfl⟩
  · rintro ⟨p, hp, hbound, rfl⟩
    exact ⟨p, hp, hbound, rfl⟩

/-- Clearing the bit of a block or inode number that is at least 1. -/
theorem andNotBit_ok {bitmap : Int} {k : Nat} {m m' : Memory} {x : Unit} :
    andNotBit bitmap (k + 1) m = .ok x m' ↔ ∃ p : Nat, bitmap + (k / 8 : Nat) = p ∧
      p + 1 ≤ 131072 ∧ m' = m.clearBit p (k % 8) := by
  have hsub : (k : Int) + 1 - 1 = k := by omega
  have hmod : (k : Int).tmod 8 = (k % 8 : Nat) := rfl
  have hdiv : (k : Int).tdiv 8 = (k / 8 : Nat) := rfl
  rw [andNotBit, hsub, hmod, hdiv, if_neg (by omega), access_ok, Int.toNat_natCast]
  constructor
  · rintro ⟨p, hp, hbound, h⟩
    cases h
    exact ⟨p, hp, hbound, rfl⟩
  · rintro ⟨p, hp, hbound, rfl⟩
    exact ⟨p, hp, hbound, rfl⟩

theorem toInt_of_lt {v : Nat} (h : v < 2 ^ 31) : toInt v = v := if_pos h

theorem toInt_eq_zero_iff {v : Nat} (h : v < 2 ^ 32) : toInt v = 0 ↔ v = 0 := by
  rw [toInt]
  split <;> omega

/-- A positive `int` is the unsigned value it was converted from. -/
theorem eq_of_toInt_eq_succ {v k : Nat} (h : v < 2 ^ 32) (hk : toInt v = k + 1) : v = k + 1 := by
  rw [toInt] at hk
  split at hk <;> omega

@[simp] theorem toUnsigned_natCast {n : Nat} (h : n < 2 ^ 32) : toUnsigned n = n := by
  rw [toUnsigned]
  omega

theorem blockOffset_of_lt {b : Nat} (h : b < 4194304) : blockOffset b = (b * 1024 : Nat) := by
  rw [blockOffset, Nat.mod_eq_of_lt (show b * 1024 < 2 ^ 32 by omega)]

end OsAssignments.Ext2
