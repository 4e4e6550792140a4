import OsAssignments.Ext2.Helper

/-!
# `ext2_rm`

Translation of the functions of `helper.c` behind `delete_file_inode`, and of `ext2_rm`. They
follow a path by cutting it into strings, look for entries in all twelve direct blocks of a
directory, and compare names with `strcmp`. A null pointer that is followed is undefined.
-/

namespace OsAssignments.Ext2

/-! ## Paths as strings -/

/-- `substring`; `none` is the null pointer. -/
def substring (str : List UInt8) (begin_ end_ : Nat) : Option (List UInt8) :=
  if str.length = 0 ∨ str.length < begin_ ∨ str.length < begin_ + end_ then none
  else some ((str.drop begin_).take end_)

/-- `next_index` -/
def nextIndex (dir : List UInt8) : Nat := dir.findIdx (· = slash)

/-- `next_sub_dir_name`; `none` is undefined behaviour, and the null pointer inside it. -/
def nextSubDirName (dir : List UInt8) : Option (Option (List UInt8)) := do
  let index := nextIndex (← substring dir 1 (dir.length - 1))
  return if index ≠ 0 then substring dir 1 index else none

/-- `next_dir` -/
def nextDir (dir : List UInt8) : Option (Option (List UInt8)) := do
  let index := nextIndex (← substring dir 1 (dir.length - 1))
  return if index ≠ 0 then some ((dir.drop (index + 1)).take (dir.length - 1)) else none

/-- `basename` of the C library. -/
def basename (path : List UInt8) : List UInt8 :=
  let trimmed := path.reverse.dropWhile (· = slash)
  if path = [] then [0x2e]
  else if trimmed = [] then [slash]
  else (trimmed.takeWhile (· ≠ slash)).reverse

/-- `dirname` of the C library; `none` stands for its constant `"."`. Exactly two slashes at the
start are kept. -/
def dirname (path : List UInt8) : Option (List UInt8) :=
  let trimmed := path.reverse.dropWhile (· = slash)
  let above := if trimmed = [] then path else trimmed.dropWhile (· ≠ slash)
  let dir := above.dropWhile (· = slash)
  if above = [] then none
  else if dir = [] then some (if above.length = 2 then [slash, slash] else [slash])
  else some dir.reverse

/-- `get_file_name` -/
def getFileName (directory : CString) : List UInt8 := basename directory.bytes

/-- `get_dir_name`, which appends a slash in the copy of the path. It is undefined where the
constant would be written or the copy has no room. -/
def getDirName (directory : CString) : Option (List UInt8) :=
  match dirname directory.bytes with
  | some dir => if dir.length < directory.bytes.length then some (dir ++ [slash]) else none
  | none => none

/-! ## Looking for an entry -/

/-- `strcmp(name, s) == 0` for the string at `a`. -/
def sameString (a : Int) : List UInt8 → DiskM Bool
  | [] => do return (← read a 1) = 0
  | b :: s => do
    if (← read a 1) ≠ b.toNat then return false
    sameString (a + 1) s

/-- The loop of `check_inode_block`. It leaves the block only at its end; more rounds than there
are bytes mean an entry of length 0. -/
def scanEntries (origin : Int) (name : List UInt8) (fType : Nat) : Nat → Int → DiskM (Option Int)
  | 0, _ => Program.stop .loop
  | rounds + 1, current =>
    if current = origin + blockSize then return none
    else do
      if (← read (entryFileType current) 1) = fType then
        if ← sameString (entryName current) name then return some current
      let recLen ← read (entryRecLen current) 2
      scanEntries origin name fType rounds (current + recLen)

/-- `check_inode_block` -/
def checkInodeBlock (block : Int) (name : List UInt8) (fType : Nat) : DiskM (Option Int) := do
  let origin := block * blockSize
  if (← read (entryInode origin) 4) = 0 then return none
  scanEntries origin name fType (imageSize + 1) origin

/-- The loop of `find_sub_dir_inode`. -/
def findAmong (name : List UInt8) (dirInode : Int) (fType : Nat) :
    Nat → Nat → DiskM (Option Int)
  | 0, _ => return none
  | rounds + 1, i => do
    match ← checkInodeBlock (toInt (← read (iBlock dirInode i) 4)) name fType with
    | some entry => return some entry
    | none => findAmong name dirInode fType rounds (i + 1)

/-- `find_sub_dir_inode` -/
def findSubDirInode (name : List UInt8) (dirInode : Int) (fType : Nat) : DiskM (Option Int) :=
  findAmong name dirInode fType 12 0

/-- The loop of `find_dir_inode`. Every round makes the string shorter. -/
def followDirs : Nat → Option (List UInt8) → Int → Option Int → DiskM (Option Int)
  | 0, _, _, _ => Program.stop .loop
  | _ + 1, none, _, entry => return entry
  | rounds + 1, some nDir, inode, entry => do
    match ← Program.require .undefined (nextSubDirName nDir) with
    | none => followDirs rounds (← Program.require .undefined (nextDir nDir)) inode entry
    | some name =>
      let found ← Program.require .undefined (← findSubDirInode name inode ext2FtDir)
      let inode ← getInode (toInt (← read (entryInode found) 4))
      followDirs rounds (← Program.require .undefined (nextDir nDir)) inode (some found)

/-- `find_dir_inode`: the entry of the directory that contains the file. -/
def findDirInode (directory : CString) : DiskM (Option Int) := do
  let inode ← getInode 2
  let nDir ← Program.require .undefined (getDirName directory)
  followDirs (nDir.length + 2) (some nDir) inode none

/-! ## Freeing -/

def unsetInodeBitmap (inodeNumber : Int) : DiskM Unit := do
  andNotBit (← getInodeBitmap) inodeNumber

def unsetBlockBitmap (blockNumber : Int) : DiskM Unit := do
  andNotBit (← getBlockBitmap) blockNumber

def emptyInodeBlock (blockNumber : Int) : DiskM Unit := do
  add bgFreeBlocksCount 2 1
  add sFreeBlocksCount 4 1
  unsetBlockBitmap blockNumber

def emptyDirectBlocks (inodeNumber : Int) : DiskM Unit := do
  let inode ← getInode inodeNumber
  Program.runAll (fun i => do emptyInodeBlock (toInt (← read (iBlock inode i) 4))) (List.range 12)

/-- `empty_sigle_indirect_blocks`, which takes pointer 13 for the one to the indirect block. -/
def emptySigleIndirectBlocks (inodeNumber : Int) : DiskM Unit := do
  let inode ← getInode inodeNumber
  let block ← read (iBlock inode 13) 4
  if block ≠ 0 then
    Program.runAll (fun (i : Nat) => do
      let number ← read (blockOffset block + 4 * i) 4
      if number ≠ 0 then emptyInodeBlock (toInt number)) (List.range (15 * 15 + 1))

/-- What `delete_file_inode` does with an inode that has no link left. -/
def releaseInode (inodeNumber : Int) : DiskM Unit := do
  emptyDirectBlocks inodeNumber
  emptySigleIndirectBlocks inodeNumber
  add bgFreeInodesCount 2 1
  add sFreeInodesCount 4 1
  unsetInodeBitmap inodeNumber

/-! ## Removing -/

/-- The search of `delete_file_inode`: the entry of the file. -/
def findFile (directory : CString) : DiskM Int := do
  let parentEntry ← Program.require .undefined (← findDirInode directory)
  let parentInode ← getInode (toInt (← read (entryInode parentEntry) 4))
  Program.require .undefined
    (← findSubDirInode (getFileName directory) parentInode ext2FtRegFile)

/-- Count one link less, and release the inode when none is left. -/
def dropLink (inodeNumber : Int) : DiskM Unit := do
  let inode ← getInode inodeNumber
  add (iLinksCount inode) 2 (-1)
  if (← read (iLinksCount inode) 2) = 0 then releaseInode inodeNumber

/-- Add the length of an entry to the one before it, which is taken to be as long. -/
def growPrevious (entry : Int) : DiskM Unit := do
  let recLen ← read (entryRecLen entry) 2
  add (entryRecLen (entry - recLen)) 2 recLen

/-- The part of `delete_file_inode` after the search. -/
def unlinkEntry (entry : Int) : DiskM Unit := do
  dropLink (toInt (← read (entryInode entry) 4))
  growPrevious entry

/-- `delete_file_inode` -/
def deleteFileInode (directory : CString) : DiskM Unit := do
  unlinkEntry (← findFile directory)

/-- `main` of `ext2_rm` from the point where the image is mapped. -/
def rm (path : CString) : DiskM Int := do
  deleteFileInode path
  return 0

end OsAssignments.Ext2
