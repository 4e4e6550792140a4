import OsAssignments.Ext2.Window

/-!
# `ext2_ls`

Translation of `ext2_ls.c`. What the program prints is the list of its lines. The loops over the
blocks and the entries take a reader, which is `read` in the program.
-/

namespace OsAssignments.Ext2

/-- What `strncpy` copies of at most `n` bytes at `a`: those before the first NUL. -/
def copyString (rd : Reader) : Int → Nat → DiskM (List UInt8)
  | _, 0 => return []
  | a, n + 1 => do
    let c ← rd a 1
    if c = 0 then return []
    return UInt8.ofNat c :: (← copyString rd (a + 1) n)

/-- The loop `while (size > 0)` over the entries of a block, where `size` is what is left of the
block behind `offset`. More than `blockSize` rounds mean an entry of length 0. -/
def printEntries (rd : Reader) (block : Int) : Nat → Nat → DiskM (List (List UInt8))
  | 0, _ => Program.stop .loop
  | rounds + 1, offset =>
    if offset < blockSize then do
      let name ← copyString rd (entryName (block + offset)) (← rd (entryNameLen (block + offset)) 1)
      let recLen ← rd (entryRecLen (block + offset)) 2
      return name :: (← printEntries rd block rounds (offset + recLen))
    else return []

/-- The loop over the direct blocks, which stops at a null pointer. -/
def printBlocks (rd : Int → Reader) (inode : Int) : Nat → Nat → DiskM (List (List UInt8))
  | 0, _ => return []
  | rounds + 1, c => do
    let number ← read (iBlock inode c) 4
    if number = 0 then return []
    let block := blockOffset number
    let lines ← printEntries (rd block) block (blockSize + 1) 0
    return lines ++ (← printBlocks rd inode rounds (c + 1))

/-- `print_dir_contents` -/
def printDirContents (rd : Int → Reader) (inode : Int) : DiskM (List (List UInt8)) := do
  if (← read (iMode inode) 2) &&& ext2SIfdir ≠ 0 then printBlocks rd inode 12 0 else return []

/-- What `main` prints: lines, or the message that names the path as missing, with which it exits
with `ENOENT`. -/
inductive LsResult
  | printed (lines : List (List UInt8))
  | noSuchFile (path : List UInt8)
  deriving DecidableEq

/-- `main` from the point where the image is mapped, without a flag. -/
def ls (path : CString) : DiskM LsResult := do
  let entry ← Program.require .undefined (← findDirInode path)
  let inode ← getInode (toInt (← read (entryInode entry) 4))
  let mode ← read (iMode inode) 2
  if mode &&& ext2SIfdir ≠ 0 then return .printed (← printDirContents (fun _ => read) inode)
  if mode &&& ext2SIfreg ≠ 0 then return .printed [path.bytes]
  return .noSuchFile path.bytes

end OsAssignments.Ext2
