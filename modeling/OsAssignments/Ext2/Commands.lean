import OsAssignments.Ext2.Helper

/-!
# `ext2_mkdir` and `ext2_cp`

Translation of the two `main` functions from the point where the image is mapped. The result
is the value `main` returns; messages on the standard streams are left out.
-/

namespace OsAssignments.Ext2

def enoent : Int := 2

/-- The assignments that fill a directory entry, in the order both tools make them. -/
def fillEntry (entry : Int) (fileType inode recLen : Nat) (name : List UInt8) : DiskM Unit := do
  write (entryFileType entry) 1 fileType
  write (entryInode entry) 4 inode
  write (entryRecLen entry) 2 recLen
  write (entryNameLen entry) 1 name.length
  memcpy (entryName entry) name

/-- The entry for inode index `iInode` under the last component of `path`, in a block that
`find_spot_for_inode_entry` picks for the directory. -/
def addEntry (directory : Int) (fileType : Nat) (iInode : Int) (path : CString)
    (lastDir lastChar : Int) : DiskM Unit := do
  let newNameLen := lastChar - lastDir + 1
  let number ← findSpotForInodeEntry directory
  let name ← Program.require .undefined (path.slice lastDir newNameLen)
  fillEntry (getBlock number) fileType (toUnsigned (iInode + 1)) (toUnsigned (newNameLen + 8)) name
  setBlockBitmap number

/-- The five counters that both tools update last. -/
def countOne : DiskM Unit := do
  add bgUsedDirsCount 2 1
  add bgFreeInodesCount 2 (-1)
  add bgFreeBlocksCount 2 (-1)
  add sFreeInodesCount 4 (-1)
  add sFreeBlocksCount 4 (-1)

/-! ## `ext2_mkdir` -/

/-- The block of a new directory: its number in the inode, and the entries `.` and `..`. The
second pointer is 12 entry sizes after the first. -/
def fillDirectory (newInode iInode iBlockIndex parent : Int) : DiskM Unit := do
  let newInodeBlk := getBlock (iBlockIndex + 1)
  let newInodeBlk2 := newInodeBlk + 12 * dirEntrySize
  setBlockBitmap (iBlockIndex + 1)
  write (iBlock newInode 0) 4 (toUnsigned iBlockIndex)
  write (iMode newInode) 2 ext2SIfreg
  fillEntry newInodeBlk ext2FtDir (toUnsigned (iInode + 1)) 12 [0x2e]
  fillEntry newInodeBlk2 ext2FtDir (toUnsigned (parent + 1)) 12 [0x2e, 0x2e]

def mkdir (path : CString) : DiskM Int := do
  let indices ← Program.require .undefined (generatePosition path)
  match ← stepToTarget path true with
  | none => return enoent
  | some secondLast =>
    let existing ← searchInode path indices.lastDir indices.lastChar true secondLast.iNode
    if existing.isSome then return enoent
    let iInode ← findFreeInode
    if iInode = -1 then return enoent
    let newInode ← getInode (iInode + 1)
    addEntry secondLast.iNodeNumber ext2FtDir iInode path indices.lastDir indices.lastChar
    let iBlockIndex ← findFreeBlock
    if iBlockIndex = -1 then return enoent
    fillDirectory newInode iInode iBlockIndex secondLast.iNodeNumber
    countOne
    setInodeBitmap (iInode + 1)
    return 0

/-! ## `ext2_cp` -/

/-- `fread` of one block: what is left of the file, at most `EXT2_BLOCK_SIZE` bytes of it. -/
def fread (buffer : Int) (rest : List UInt8) : DiskM (List UInt8) := do
  memcpy buffer (rest.take blockSize)
  return rest.drop blockSize

/-- The loop over the direct blocks; what is left to do after it. -/
def fillDirect (newInode : Int) : Nat → Nat → Int → List UInt8 → DiskM (Int × List UInt8)
  | 0, _, blocksNeeded, rest => return (blocksNeeded, rest)
  | rounds + 1, i, blocksNeeded, rest => do
    if blocksNeeded = 0 then return (blocksNeeded, rest)
    let iBlockIndex ← findFreeBlock
    Program.ensure (.exit 1) (iBlockIndex ≠ -1)
    write (iBlock newInode i) 4 (toUnsigned iBlockIndex)
    let rest ← fread (getBlock (iBlockIndex + 1)) rest
    fillDirect newInode rounds (i + 1) (blocksNeeded - 1) rest

/-- The loop over the single indirect block, which also writes `i_block[i]`, from `i_block[0]`
on and past its end. -/
def fillIndirect (newInode indirectBlk : Int) :
    Nat → Nat → Int → List UInt8 → DiskM (Int × List UInt8)
  | 0, _, blocksNeeded, rest => return (blocksNeeded, rest)
  | rounds + 1, i, blocksNeeded, rest => do
    if blocksNeeded = 0 then return (blocksNeeded, rest)
    let iBlockIndex ← findFreeBlock
    Program.ensure (.exit 1) (iBlockIndex ≠ -1)
    write (iBlock newInode i) 4 (toUnsigned iBlockIndex)
    let rest ← fread (getBlock (iBlockIndex + 1)) rest
    write (indirectBlk + 4 * i) 4 (toUnsigned iBlockIndex)
    fillIndirect newInode indirectBlk rounds (i + 1) (blocksNeeded - 1) rest

/-- Single indirection, when the direct blocks are not good enough; the blocks still needed. -/
def fillBeyond (newInode blocksNeeded : Int) (rest : List UInt8) : DiskM Int := do
  if blocksNeeded = 0 then return 0
  let indirectBlk := blockOffset (← read (iBlock newInode 12) 4)
  return (← fillIndirect newInode indirectBlk 225 0 blocksNeeded rest).1

/-- Copy the contents of the file into the blocks of the new inode. -/
def fillFile (newInode : Int) (file : List UInt8) : DiskM Unit := do
  let blocksNeeded := toInt ((file.length / blockSize + 1) % 2 ^ 32)
  let (blocksLeft, rest) ← fillDirect newInode 12 0 blocksNeeded file
  Program.ensure (.exit 1) ((← fillBeyond newInode blocksLeft rest) = 0)

/-- `source` names the file on the host, `file` is what `fopen` finds there, and `target` is
the directory on the image. -/
def cp (source : CString) (file : Option (List UInt8)) (target : CString) : DiskM Int := do
  let file ← Program.require (.exit 1) file
  let last ← Program.require (.exit 1) (← stepToTarget target false)
  let indices ← Program.require .undefined (generatePosition source)
  let existing ← searchInode source indices.lastDir indices.lastChar false last.iNode
  Program.ensure (.exit 1) (existing = none)
  printInfo
  let iInode ← findFreeInode
  Program.ensure (.exit 1) (iInode ≠ -1)
  let newInode ← getInode (iInode + 1)
  write (iMode newInode) 2 ext2SIfreg
  setInodeBitmap (iInode + 1)
  printInfo
  addEntry last.iNodeNumber ext2FtRegFile iInode source indices.lastDir indices.lastChar
  printInfo
  fillFile newInode file
  countOne
  return 0

end OsAssignments.Ext2
