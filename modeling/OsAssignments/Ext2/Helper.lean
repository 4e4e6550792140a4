import OsAssignments.Ext2.Disk

/-!
# The helper module

Translation of the functions of `helper.c` that `ext2_mkdir` and `ext2_cp` call. Loops over
a counter recurse on the number of rounds left. `lseek` and `read` on the image file give the
bytes of the mapping, which shares the file.
-/

namespace OsAssignments.Ext2

/-! ## Bitmaps, inodes and blocks -/

def getBlockBitmap : DiskM Int := return blockOffset (← read bgBlockBitmap 4)

def getInodeBitmap : DiskM Int := return blockOffset (← read bgInodeBitmap 4)

def getInodeTable : DiskM Int := return blockOffset (← read bgInodeTable 4)

def setInodeBitmap (inodeNumber : Int) : DiskM Unit := do
  orBit (← getInodeBitmap) inodeNumber

def setBlockBitmap (blockNumber : Int) : DiskM Unit := do
  orBit (← getBlockBitmap) blockNumber

def getInode (inodeNumber : Int) : DiskM Int :=
  return (← getInodeTable) + inodeSize * (inodeNumber - 1)

def getBlock (blockNumber : Int) : Int := (blockNumber - 1) * blockSize

/-! ## Paths -/

/-- A C string: its bytes before the terminating NUL. -/
structure CString where
  bytes : List UInt8
  noNul : 0 ∉ bytes

/-- `s[i]`; the terminating NUL may be read and nothing else outside the bytes. -/
def CString.char (s : CString) (i : Int) : Option UInt8 :=
  if 0 ≤ i then (s.bytes ++ [0])[i.toNat]? else none

/-- The `n` bytes from `s + i` on. -/
def CString.slice (s : CString) (i n : Int) : Option (List UInt8) :=
  if 0 ≤ i ∧ 0 ≤ n ∧ i + n ≤ s.bytes.length then some ((s.bytes.drop i.toNat).take n.toNat)
  else none

def slash : UInt8 := 0x2f

/-- Whether `actual` is a prefix of `path[start .. last]`; `none` is undefined behaviour. -/
def matchName (path : CString) : List UInt8 → Int → Int → Option Bool
  | [], _, _ => some true
  | c :: actual, start, last =>
    if last < start then some false
    else do
      let p ← path.char start
      if p ≠ c then return false
      matchName path actual (start + 1) last

structure ThreeIndices where
  anchor : Int
  lastChar : Int
  lastDir : Int

/-- `while (path[i] != '/') i--`; without a slash the loop runs out of the string. -/
def slashBefore (path : CString) : Nat → Option Nat
  | 0 => if path.char 0 = some slash then some 0 else none
  | i + 1 => if path.char (i + 1 : Nat) = some slash then some (i + 1) else slashBefore path i

def generatePosition (path : CString) : Option ThreeIndices := do
  let end_ : Int := path.bytes.length - 1
  let c ← path.char end_
  let iLastChar := if c = slash then end_ - 1 else end_
  if iLastChar = -1 then return ⟨-1, -1, -1⟩
  let iLastDir ← slashBefore path iLastChar.toNat
  return ⟨1, iLastChar, iLastDir + 1⟩

/-! ## Directory entries -/

/-- A field of the entry at `size` in the block-sized buffer that holds the block at `block`. -/
def readEntry (block : Int) (size field n : Nat) : DiskM Nat :=
  if size + field + n ≤ blockSize then read (block + (size + field : Nat)) n
  else Program.stop .undefined

/-- `entry->name` as a C string: `name_len` bytes followed by a NUL. -/
def readName (block : Int) (size : Nat) : DiskM (List UInt8) := do
  let len ← readEntry block size 6 1
  if size + dirEntrySize + len ≤ blockSize then
    return (← readBytes (block + (size + dirEntrySize : Nat)) len).takeWhile (· ≠ 0)
  else Program.stop .undefined

/-- Whether the name of the entry at `size` matches. With `dirsOnly` an entry that is not a
directory does not. -/
def entryMatches (path : CString) (start last : Int) (dirsOnly : Bool) (block : Int)
    (size : Nat) : DiskM Bool := do
  if dirsOnly then
    if (← readEntry block size 7 1) ≠ ext2FtDir then return false
  Program.require .undefined (matchName path (← readName block size) start last)

/-- The loop `while (size < inode->i_size)` over the entries of a directory's first block: the
offset of the first entry that matches. More than `blockSize` rounds mean an entry of
length 0, which the loop never passes. -/
def findEntry (path : CString) (start last : Int) (dirsOnly : Bool) (block : Int) (iSize : Nat) :
    Nat → Nat → DiskM (Option Nat)
  | 0, _ => Program.stop .loop
  | rounds + 1, size =>
    if size < iSize then do
      if ← entryMatches path start last dirsOnly block size then return some size
      let recLen ← readEntry block size 4 2
      findEntry path start last dirsOnly block iSize rounds (size + recLen)
    else return none

/-- Search the first block of a directory, as `read` at `BLOCK_OFFSET(inode->i_block[0])` and
the loop after it do. -/
def searchInode (path : CString) (start last : Int) (dirsOnly : Bool) (inode : Int) :
    DiskM (Option (Int × Nat)) := do
  let block := blockOffset (← read (iBlock inode 0) 4)
  let size ← read (iSize inode) 4
  match ← findEntry path start last dirsOnly block size (blockSize + 1) 0 with
  | some entry => return some (block, entry)
  | none => return none

structure INodeInfo where
  iNode : Int
  iNodeNumber : Int

/-- The loop of `step_to_target`. Every round moves `iPathAnchor` up, so that the rounds are
bounded by the range of `int`, whose overflow is undefined. -/
def walk (path : CString) (indices : ThreeIndices) (flag : Bool) :
    Nat → Int → Int → DiskM (Option INodeInfo)
  | 0, _, _ => Program.stop .undefined
  | rounds + 1, currInode, iPathAnchor => do
    match ← searchInode path iPathAnchor indices.lastChar true currInode with
    | none => return none
    | some (block, entry) =>
      let number := toInt (← readEntry block entry 0 4)
      let next ← getInode number
      let iPathAnchor := iPathAnchor + (← readEntry block entry 6 1) + 1
      if iPathAnchor = (if flag then indices.lastDir else indices.lastChar + 2) then
        return some ⟨next, number⟩
      walk path indices flag rounds next iPathAnchor

/-- With `flag` set the directory above the last component, else the last component. -/
def stepToTarget (path : CString) (flag : Bool) : DiskM (Option INodeInfo) := do
  let indices ← Program.require .undefined (generatePosition path)
  let root ← getInode 2
  if indices.anchor = -1 then
    if flag then return none
    return some ⟨← getInode 2, 2⟩
  walk path indices flag (2 ^ 31) root indices.anchor

/-! ## Free inodes and blocks -/

/-- The loop over a bitmap: the index of the first clear bit from `first` on, or -1. -/
def findClear (bitmap : Int) (first : Nat) : Nat → Nat → Nat → DiskM Int
  | 0, _, _ => return -1
  | rounds + 1, i, j => do
    let c ← read (bitmap + (i / 8 : Nat)) 1
    if c &&& 1 <<< j = 0 ∧ first ≤ i then return i
    findClear bitmap first rounds (i + 1) (if j + 1 = 8 then 0 else j + 1)

/-- The first 11 inodes are reserved. -/
def findFreeInode : DiskM Int := do
  let bmi ← getInodeBitmap
  let index ← findClear bmi 11 (← read sInodesCount 4) 0 0
  memset (← getInode (index + 1)) 0 inodeSize
  return index

def findFreeBlock : DiskM Int := do
  let bmi ← getBlockBitmap
  let index ← findClear bmi 0 (← read sBlocksCount 4) 0 0
  memset (getBlock (index + 1)) 0 blockSize
  return index

/-- The loop of `is_block_free`, which looks at the bit of one block number. -/
def findBlockBit (bitmap blockNumber : Int) : Nat → Nat → Nat → DiskM (Option Bool)
  | 0, _, _ => return none
  | rounds + 1, i, j =>
    if i = blockNumber - 1 then do
      let c ← read (bitmap + (i / 8 : Nat)) 1
      return some (c &&& 1 <<< j = 0)
    else findBlockBit bitmap blockNumber rounds (i + 1) (if j + 1 = 8 then 0 else j + 1)

def isBlockFree (blockNumber : Int) : DiskM Int := do
  let bmi ← getBlockBitmap
  match ← findBlockBit bmi blockNumber (← read sBlocksCount 4) 0 0 with
  | some free => return if free then 1 else 0
  | none =>
    memset (getBlock (-1 + 1)) 0 blockSize
    return -1

/-- One of the two loops of `find_spot_for_inode_entry`, over the pointers from `pointers` on;
`none` when the loop ends without returning. -/
def findSpotAmong (pointers : Int) : Nat → Nat → DiskM (Option Int)
  | 0, _ => return none
  | rounds + 1, i => do
    let currBlockNumber := toInt (← read (pointers + 4 * i) 4)
    if currBlockNumber = 0 then
      let newAllocated ← findFreeBlock
      if newAllocated = -1 then return some (-1)
      write (pointers + 4 * i) 4 (toUnsigned newAllocated)
      return some (newAllocated + 1)
    if (← isBlockFree currBlockNumber) ≠ 0 then return some currBlockNumber
    findSpotAmong pointers rounds (i + 1)

def findSpotForInodeEntry (inodeNumber : Int) : DiskM Int := do
  let inode ← getInode inodeNumber
  match ← findSpotAmong (iBlock inode 0) 12 0 with
  | some number => return number
  | none =>
    let indirectBlk := blockOffset (← read (iBlock inode 12) 4)
    match ← findSpotAmong indirectBlk 225 0 with
    | some number => return number
    | none => return -1

/-- The bytes that a loop over `count` bits of a bitmap reads in order to print them. -/
def printBits (bitmap : Int) (count : Nat) : DiskM Unit :=
  Program.runAll (fun i => do let _ ← read (bitmap + (i / 8 : Nat)) 1) (List.range count)

def printInfo : DiskM Unit := do
  let bm := blockOffset (← read bgBlockBitmap 4)
  printBits bm (← read sBlocksCount 4)
  let bmi := blockOffset (← read bgInodeBitmap 4)
  printBits bmi (← read sInodesCount 4)

end OsAssignments.Ext2
