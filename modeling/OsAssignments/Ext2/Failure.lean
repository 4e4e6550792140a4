import OsAssignments.Ext2.Copy

/-!
# Runs that report an error

A run reports an error when a search fails, when no inode is free, or when a file does not fit
into the pointers. The searches only read. `find_free_inode` clears an inode even where it
finds none, and a file that does not fit is left half copied.
-/

namespace OsAssignments.Ext2

open Memory Program

variable {L : Layout} {m m' : Memory} {α : Type}

/-! ## What never calls `exit` -/

/-- No outcome is a call of `exit`. -/
abbrev NoExit (x : DiskM α) : Prop := Stops (fun e => ∀ s, e ≠ .exit s) x

theorem NoExit.not_error {x : DiskM α} (h : NoExit x) {s : Int} : x m ≠ .error (.exit s) m' :=
  fun hx => h _ _ _ hx s rfl

/-- A run that ends in a call of `exit` goes on after a part that makes none. -/
theorem NoExit.next {β : Type} {x : DiskM α} {f : α → DiskM β} {s : Int} (hx : NoExit x)
    (h : (x >>= f) m = .error (.exit s) m') :
    ∃ a u, x m = .ok a u ∧ f a u = .error (.exit s) m' :=
  (bind_error.mp h).resolve_left hx.not_error

theorem NoExit.undefined : NoExit (Program.stop .undefined : DiskM α) :=
  .stop fun _ => Stop.noConfusion

theorem NoExit.require (x : Option α) : NoExit (Program.require .undefined x) :=
  Stops.require (fun _ => Stop.noConfusion) x

theorem noExit_access (a : Int) (n : Nat) {f : Nat → DiskM α} (hf : ∀ p, NoExit (f p)) :
    NoExit (access a n f) := .ite (hf _) NoExit.undefined

theorem noExit_read (a : Int) (n : Nat) : NoExit (read a n) :=
  noExit_access _ _ fun _ => .of_ok fun m => ⟨_, m, rfl⟩

theorem noExit_readBytes (a : Int) (n : Nat) : NoExit (readBytes a n) :=
  noExit_access _ _ fun _ => .of_ok fun m => ⟨_, m, rfl⟩

theorem noExit_write (a : Int) (n v : Nat) : NoExit (write a n v) :=
  noExit_access _ _ fun _ => .of_ok fun _ => ⟨_, _, rfl⟩

theorem noExit_memset (a : Int) (b : UInt8) (n : Nat) : NoExit (memset a b n) :=
  noExit_access _ _ fun _ => .of_ok fun _ => ⟨_, _, rfl⟩

theorem noExit_memcpy (a : Int) (bs : List UInt8) : NoExit (memcpy a bs) :=
  noExit_access _ _ fun _ => .of_ok fun _ => ⟨_, _, rfl⟩

theorem noExit_add (a : Int) (n : Nat) (d : Int) : NoExit (add a n d) :=
  .bind (noExit_read _ _) fun _ => noExit_write _ _ _

theorem noExit_orBit (bitmap number : Int) : NoExit (orBit bitmap number) :=
  .ite NoExit.undefined (noExit_access _ _ fun _ => .of_ok fun _ => ⟨_, _, rfl⟩)

theorem noExit_getInode (n : Int) : NoExit (getInode n) :=
  .of_ok fun m => ⟨_, m, getInode_apply n m⟩

theorem noExit_getBlockBitmap : NoExit getBlockBitmap :=
  .of_ok fun m => ⟨_, m, getBlockBitmap_apply m⟩

theorem noExit_getInodeBitmap : NoExit getInodeBitmap :=
  .of_ok fun m => ⟨_, m, getInodeBitmap_apply m⟩

theorem noExit_setBlockBitmap (n : Int) : NoExit (setBlockBitmap n) :=
  .bind noExit_getBlockBitmap fun _ => noExit_orBit _ _

theorem noExit_setInodeBitmap (n : Int) : NoExit (setInodeBitmap n) :=
  .bind noExit_getInodeBitmap fun _ => noExit_orBit _ _

theorem noExit_readEntry (block : Int) (size field n : Nat) :
    NoExit (readEntry block size field n) := .ite (noExit_read _ _) NoExit.undefined

theorem noExit_readName (block : Int) (size : Nat) : NoExit (readName block size) :=
  .bind (noExit_readEntry _ _ _ _) fun _ =>
    .ite (.bind (noExit_readBytes _ _) fun _ => .pure _) NoExit.undefined

theorem noExit_entryMatches (path : CString) (start last : Int) (dirsOnly : Bool) (block : Int)
    (size : Nat) : NoExit (entryMatches path start last dirsOnly block size) := by
  have hcompare := Stops.bind (noExit_readName block size) fun name =>
    NoExit.require (matchName path name start last)
  exact .ite (.bind (noExit_readEntry _ _ _ _) fun _ => .ite (.pure _) hcompare) hcompare

theorem noExit_findEntry (path : CString) (start last : Int) (dirsOnly : Bool) (block : Int)
    (iSize rounds size : Nat) :
    NoExit (findEntry path start last dirsOnly block iSize rounds size) := by
  induction rounds generalizing size with
  | zero => exact .stop fun _ => Stop.noConfusion
  | succ rounds ih =>
    exact .ite (.bind (noExit_entryMatches _ _ _ _ _ _) fun _ => .ite (.pure _)
      (.bind (noExit_readEntry _ _ _ _) fun _ => ih _)) (.pure _)

theorem noExit_searchInode (path : CString) (start last : Int) (dirsOnly : Bool) (inode : Int) :
    NoExit (searchInode path start last dirsOnly inode) := by
  refine .bind (noExit_read _ _) fun _ => .bind (noExit_read _ _) fun _ =>
    .bind (noExit_findEntry _ _ _ _ _ _ _ _) fun found => ?_
  cases found with
  | none => exact .pure _
  | some entry => exact .pure _

theorem noExit_walk (path : CString) (indices : ThreeIndices) (flag : Bool) (rounds : Nat)
    (inode anchor : Int) : NoExit (walk path indices flag rounds inode anchor) := by
  induction rounds generalizing inode anchor with
  | zero => exact NoExit.undefined
  | succ rounds ih =>
    refine .bind (noExit_searchInode _ _ _ _ _) fun found => ?_
    cases found with
    | none => exact .pure _
    | some found =>
      exact .bind (noExit_readEntry _ _ _ _) fun _ => .bind (noExit_getInode _) fun _ =>
        .bind (noExit_readEntry _ _ _ _) fun _ => .ite (.pure _) (ih _ _)

theorem noExit_stepToTarget (path : CString) (flag : Bool) : NoExit (stepToTarget path flag) :=
  .bind (NoExit.require _) fun _ => .bind (noExit_getInode _) fun _ =>
    .ite (.ite (.pure _) (.bind (noExit_getInode _) fun _ => .pure _)) (noExit_walk _ _ _ _ _ _)

theorem noExit_printInfo : NoExit printInfo := by
  have hbits : ∀ (bitmap : Int) (count : Nat), NoExit (printBits bitmap count) :=
    fun bitmap count => .runAll (fun i => .bind (noExit_read _ _) fun _ => .pure _) _
  exact .bind (noExit_read _ _) fun _ => .bind (noExit_read _ _) fun _ =>
    .bind (hbits _ _) fun _ => .bind (noExit_read _ _) fun _ =>
      .bind (noExit_read _ _) fun _ => hbits _ _

theorem noExit_findClear (bitmap : Int) (first rounds i j : Nat) :
    NoExit (findClear bitmap first rounds i j) := by
  induction rounds generalizing i j with
  | zero => exact .pure _
  | succ rounds ih => exact .bind (noExit_read _ _) fun _ => .ite (.pure _) (ih _ _)

theorem noExit_findFreeInode : NoExit findFreeInode :=
  .bind noExit_getInodeBitmap fun _ => .bind (noExit_read _ _) fun _ =>
    .bind (noExit_findClear _ _ _ _ _) fun _ => .bind (noExit_getInode _) fun _ =>
      .bind (noExit_memset _ _ _) fun _ => .pure _

theorem noExit_findFreeBlock : NoExit findFreeBlock :=
  .bind noExit_getBlockBitmap fun _ => .bind (noExit_read _ _) fun _ =>
    .bind (noExit_findClear _ _ _ _ _) fun _ => .bind (noExit_memset _ _ _) fun _ => .pure _

theorem noExit_findBlockBit (bitmap blockNumber : Int) (rounds i j : Nat) :
    NoExit (findBlockBit bitmap blockNumber rounds i j) := by
  induction rounds generalizing i j with
  | zero => exact .pure _
  | succ rounds ih => exact .ite (.bind (noExit_read _ _) fun _ => .pure _) (ih _ _)

theorem noExit_isBlockFree (blockNumber : Int) : NoExit (isBlockFree blockNumber) := by
  refine .bind noExit_getBlockBitmap fun _ => .bind (noExit_read _ _) fun _ =>
    .bind (noExit_findBlockBit _ _ _ _ _) fun found => ?_
  cases found with
  | none => exact .bind (noExit_memset _ _ _) fun _ => .pure _
  | some free => exact .pure _

theorem noExit_findSpotAmong (pointers : Int) (rounds i : Nat) :
    NoExit (findSpotAmong pointers rounds i) := by
  induction rounds generalizing i with
  | zero => exact .pure _
  | succ rounds ih =>
    exact .bind (noExit_read _ _) fun _ => .ite
      (.bind noExit_findFreeBlock fun _ => .ite (.pure _)
        (.bind (noExit_write _ _ _) fun _ => .pure _))
      (.bind (noExit_isBlockFree _) fun _ => .ite (.pure _) (ih _))

theorem noExit_findSpotForInodeEntry (n : Int) : NoExit (findSpotForInodeEntry n) := by
  refine .bind (noExit_getInode _) fun _ => .bind (noExit_findSpotAmong _ _ _) fun spot => ?_
  cases spot with
  | some number => exact .pure _
  | none =>
    refine .bind (noExit_read _ _) fun _ => .bind (noExit_findSpotAmong _ _ _) fun spot => ?_
    cases spot with
    | some number => exact .pure _
    | none => exact .pure _

theorem noExit_fillEntry (entry : Int) (fileType inode recLen : Nat) (name : List UInt8) :
    NoExit (fillEntry entry fileType inode recLen name) :=
  .bind (noExit_write _ _ _) fun _ => .bind (noExit_write _ _ _) fun _ =>
    .bind (noExit_write _ _ _) fun _ => .bind (noExit_write _ _ _) fun _ => noExit_memcpy _ _

theorem noExit_addEntry (directory : Int) (fileType : Nat) (iInode : Int) (path : CString)
    (lastDir lastChar : Int) :
    NoExit (addEntry directory fileType iInode path lastDir lastChar) :=
  .bind (noExit_findSpotForInodeEntry _) fun _ => .bind (NoExit.require _) fun _ =>
    .bind (noExit_fillEntry _ _ _ _ _) fun _ => noExit_setBlockBitmap _

theorem noExit_countOne : NoExit countOne :=
  .bind (noExit_add _ _ _) fun _ => .bind (noExit_add _ _ _) fun _ =>
    .bind (noExit_add _ _ _) fun _ => .bind (noExit_add _ _ _) fun _ => noExit_add _ _ _

theorem noExit_fillDirectory (newInode iInode iBlockIndex parent : Int) :
    NoExit (fillDirectory newInode iInode iBlockIndex parent) :=
  .bind (noExit_setBlockBitmap _) fun _ => .bind (noExit_write _ _ _) fun _ =>
    .bind (noExit_write _ _ _) fun _ => .bind (noExit_fillEntry _ _ _ _ _) fun _ =>
      noExit_fillEntry _ _ _ _ _

/-- `ext2_mkdir` reports its errors by the value it returns. -/
theorem noExit_mkdir (path : CString) : NoExit (mkdir path) := by
  refine .bind (NoExit.require _) fun indices => .bind (noExit_stepToTarget _ _) fun found => ?_
  cases found with
  | none => exact .pure _
  | some parent =>
    exact .bind (noExit_searchInode _ _ _ _ _) fun _ => .ite (.pure _)
      (.bind noExit_findFreeInode fun _ => .ite (.pure _)
        (.bind (noExit_getInode _) fun _ => .bind (noExit_addEntry _ _ _ _ _ _) fun _ =>
          .bind noExit_findFreeBlock fun _ => .ite (.pure _)
            (.bind (noExit_fillDirectory _ _ _ _) fun _ => .bind noExit_countOne fun _ =>
              .bind (noExit_setInodeBitmap _) fun _ => .pure _)))

/-! ## Copying without an error -/

/-- Taking a block does not end the run, since `find_free_block` never returns without one. -/
theorem noExit_takeBlock {α : Type} {f : Int → DiskM α} (h : ∀ d : Nat, NoExit (f d)) :
    NoExit (do
      let iBlockIndex ← findFreeBlock
      Program.ensure (.exit 1) (iBlockIndex ≠ -1)
      f iBlockIndex) := by
  intro s e t hrun
  rcases bind_error.mp hrun with hrun | ⟨b, u, hb, hrun⟩
  · exact noExit_findFreeBlock _ _ _ hrun
  · obtain ⟨d, rfl, -⟩ := findFreeBlock_ok hb
    rw [ensure, if_pos (by omega)] at hrun
    exact h d _ _ _ hrun

theorem noExit_fread (buffer : Int) (rest : List UInt8) : NoExit (fread buffer rest) :=
  .bind (noExit_memcpy _ _) fun _ => .pure _

theorem noExit_fillDirect (newInode : Int) (rounds i : Nat) (blocksNeeded : Int)
    (rest : List UInt8) : NoExit (fillDirect newInode rounds i blocksNeeded rest) := by
  induction rounds generalizing i blocksNeeded rest with
  | zero => exact .pure _
  | succ rounds ih =>
    exact .ite (.pure _) (noExit_takeBlock fun _ => .bind (noExit_write _ _ _) fun _ =>
      .bind (noExit_fread _ _) fun _ => ih _ _ _)

theorem noExit_fillIndirect (newInode indirectBlk : Int) (rounds i : Nat) (blocksNeeded : Int)
    (rest : List UInt8) :
    NoExit (fillIndirect newInode indirectBlk rounds i blocksNeeded rest) := by
  induction rounds generalizing i blocksNeeded rest with
  | zero => exact .pure _
  | succ rounds ih =>
    exact .ite (.pure _) (noExit_takeBlock fun _ => .bind (noExit_write _ _ _) fun _ =>
      .bind (noExit_fread _ _) fun _ => .bind (noExit_write _ _ _) fun _ => ih _ _ _)

theorem noExit_fillBeyond (newInode blocksNeeded : Int) (rest : List UInt8) :
    NoExit (fillBeyond newInode blocksNeeded rest) :=
  .ite (.pure _) (.bind (noExit_read _ _) fun _ => .bind (noExit_fillIndirect _ _ _ _ _ _)
    fun _ => .pure _)

/-- A file is not copied only when blocks are still needed after both loops. -/
theorem fillFile_error {inode s : Int} {file : List UInt8}
    (h : fillFile inode file m = .error (.exit s) m') : ∃ r u left, left ≠ 0 ∧
      fillDirect inode 12 0 (toInt ((file.length / blockSize + 1) % 2 ^ 32)) file m = .ok r u ∧
        fillBeyond inode r.1 r.2 u = .ok left m' := by
  rw [fillFile] at h
  obtain ⟨r, u, hdirect, h⟩ := (noExit_fillDirect _ _ _ _ _).next h
  obtain ⟨left, v, hbeyond, h⟩ := (noExit_fillBeyond _ _ _).next h
  rw [ensure] at h
  split at h
  · cases h
  · next hleft =>
    cases h
    exact ⟨r, u, left, hleft, hdirect, hbeyond⟩

/-- The first loop leaves the blocks that it has no pointers for. -/
theorem fillDirect_left {inode b : Int} {rounds i : Nat} {rest : List UInt8} {r : Int × List UInt8}
    (hb : 0 ≤ b) (h : fillDirect inode rounds i b rest m = .ok r m') :
    r.1 = max (b - rounds) 0 := by
  induction rounds generalizing i b rest m with
  | zero =>
    cases h
    simp only [Int.natCast_zero, Int.sub_zero, max_eq_left hb]
  | succ rounds ih =>
    rw [fillDirect] at h
    split at h
    · cases h
      omega
    · obtain ⟨_, u₁, -, h⟩ := bind_ok.mp h
      obtain ⟨_, u₂, -, h⟩ := bind_ok.mp h
      obtain ⟨_, u₃, -, h⟩ := bind_ok.mp h
      obtain ⟨_, u₄, -, h⟩ := bind_ok.mp h
      have hleft := ih (by omega) h
      omega

/-- So does the second one. -/
theorem fillIndirect_left {inode indirectBlk b : Int} {rounds i : Nat} {rest : List UInt8}
    {r : Int × List UInt8} (hb : 0 ≤ b)
    (h : fillIndirect inode indirectBlk rounds i b rest m = .ok r m') :
    r.1 = max (b - rounds) 0 := by
  induction rounds generalizing i b rest m with
  | zero =>
    cases h
    simp only [Int.natCast_zero, Int.sub_zero, max_eq_left hb]
  | succ rounds ih =>
    rw [fillIndirect] at h
    split at h
    · cases h
      omega
    · obtain ⟨_, u₁, -, h⟩ := bind_ok.mp h
      obtain ⟨_, u₂, -, h⟩ := bind_ok.mp h
      obtain ⟨_, u₃, -, h⟩ := bind_ok.mp h
      obtain ⟨_, u₄, -, h⟩ := bind_ok.mp h
      obtain ⟨_, u₅, -, h⟩ := bind_ok.mp h
      have hleft := ih (by omega) h
      omega

/-- A file that both loops have pointers for is copied. -/
theorem not_fillFile_error {inode s : Int} {file : List UInt8} (hfile : file.length < 237 * 1024) :
    fillFile inode file m ≠ .error (.exit s) m' := by
  intro h
  obtain ⟨r, u, left, hne, hdirect, hbeyond⟩ := fillFile_error h
  rw [show blockSize = 1024 from rfl, toInt_of_lt (by omega)] at hdirect
  have hr := fillDirect_left (by omega) hdirect
  rw [fillBeyond] at hbeyond
  split at hbeyond
  · cases hbeyond
    exact hne rfl
  · obtain ⟨_, v, -, hbeyond⟩ := bind_ok.mp hbeyond
    obtain ⟨r', w, hindirect, hbeyond⟩ := bind_ok.mp hbeyond
    cases hbeyond
    have hr' := fillIndirect_left (by omega) hindirect
    omega

/-! ## Runs that report an error -/

/-- The searches of the run succeed: the directory is there, and nothing in it matches the new
name. -/
def Command.Proceeds (c : Command) (m : Memory) : Prop :=
  match c with
  | mkdir path => ∃ indices info, generatePosition path = some indices ∧
      stepToTarget path true m = .ok (some info) m ∧
      searchInode path indices.lastDir indices.lastChar true info.iNode m = .ok none m
  | cp source file target => file ≠ none ∧ ∃ indices info,
      generatePosition source = some indices ∧ stepToTarget target false m = .ok (some info) m ∧
      searchInode source indices.lastDir indices.lastChar false info.iNode m = .ok none m

/-- The searches of a successful run have succeeded. -/
theorem Command.proceeds_of_run {c : Command} {x : Unit} (hrun : c.run m = .ok x m') :
    c.Proceeds m := by
  rw [run_ok] at hrun
  cases c with
  | mkdir path =>
    obtain ⟨indices, found, hposition, hfound, hcases⟩ := mkdir_cases hrun
    rcases hcases with ⟨-, hr, -⟩ | ⟨info, existing, rfl, hexisting, ⟨-, hr, -⟩ | ⟨rfl, -⟩⟩
    · exact absurd hr (by decide)
    · exact absurd hr (by decide)
    · exact ⟨indices, info, hposition, hfound, hexisting⟩
  | cp source file target =>
    rw [main, Ext2.cp] at hrun
    obtain ⟨contents, u, hopen, hrun⟩ := bind_ok.mp hrun
    obtain ⟨hopened, rfl⟩ := require_ok.mp hopen
    obtain ⟨found, u, hfound, hrun⟩ := bind_ok.mp hrun
    obtain rfl : m = u := (readOnly_stepToTarget target false).of_ok hfound
    obtain ⟨info, u, hdirectory, hrun⟩ := bind_ok.mp hrun
    obtain ⟨rfl, rfl⟩ := require_ok.mp hdirectory
    obtain ⟨indices, u, hrequire, hrun⟩ := bind_ok.mp hrun
    obtain ⟨hposition, rfl⟩ := require_ok.mp hrequire
    obtain ⟨existing, u, hexisting, hrun⟩ := bind_ok.mp hrun
    obtain rfl : m = u := (readOnly_searchInode _ _ _ _ _).of_ok hexisting
    obtain ⟨_, u, hnew, -⟩ := bind_ok.mp hrun
    obtain ⟨rfl, -⟩ := ensure_ok.mp hnew
    exact ⟨by rw [hopened]; exact Option.some_ne_none _, indices, info, hposition, hfound,
      hexisting⟩

/-- No inode is free, and `m'` is `m` with the 128 bytes before the inode table cleared. -/
def Exhausted (m m' : Memory) : Prop :=
  freeInode m = none ∧ ∃ p, p + 128 = inodeTableAt m ∧ m' = m.fill p 128 0

/-- `ext2_mkdir` reports an error after a search that fails, or where no inode is free. -/
theorem mkdir_fails {path : CString} {r : Int} (h : mkdir path m = .ok r m') (hr : r ≠ 0) :
    ¬ (Command.mkdir path).Proceeds m ∧ m' = m ∨
      (Command.mkdir path).Proceeds m ∧ Exhausted m m' := by
  obtain ⟨indices, found, hposition, hfound, hcases⟩ := mkdir_cases h
  rcases hcases with ⟨rfl, -, rfl⟩ | ⟨parent, existing, rfl, hexisting, hcases⟩
  · refine .inl ⟨?_, rfl⟩
    rintro ⟨_, info, -, hinfo, -⟩
    rw [hfound] at hinfo
    cases hinfo
  rcases hcases with ⟨hsome, -, rfl⟩ | ⟨rfl, ⟨htake, -⟩ | ⟨hzero, -⟩⟩
  · refine .inl ⟨?_, rfl⟩
    rintro ⟨indices', info, hposition', hinfo, hnone⟩
    obtain rfl := Option.some.inj (hposition.symm.trans hposition')
    rw [hfound] at hinfo
    cases hinfo
    rw [hexisting] at hnone
    cases hnone
    exact hsome rfl
  · obtain ⟨hfree, p, hp, -, hcleared⟩ := findFreeInode_none htake
    exact .inr ⟨⟨indices, parent, hposition, hfound, hexisting⟩, hfree, p, hp, hcleared⟩
  · exact absurd hzero hr

/-- What `ext2_cp` does once the name is known to be new. -/
def cpNew (source : CString) (contents : List UInt8) (last : INodeInfo) (indices : ThreeIndices) :
    DiskM Int := do
  printInfo
  let iInode ← findFreeInode
  Program.ensure (.exit 1) (iInode ≠ -1)
  let newInode ← getInode (iInode + 1)
  write (iMode newInode) 2 ext2SIfreg
  setInodeBitmap (iInode + 1)
  printInfo
  addEntry last.iNodeNumber ext2FtRegFile iInode source indices.lastDir indices.lastChar
  printInfo
  fillFile newInode contents
  countOne
  return 0

/-- A run of `ext2_cp` that calls `exit` does so after a search that fails, or once the name is
known to be new. -/
theorem cp_searches {source target : CString} {file : Option (List UInt8)} {s : Int}
    (h : cp source file target m = .error (.exit s) m') :
    ¬ (Command.cp source file target).Proceeds m ∧ m' = m ∨
      ∃ contents directory indices, file = some contents ∧
        stepToTarget target false m = .ok (some directory) m ∧
        generatePosition source = some indices ∧
        searchInode source indices.lastDir indices.lastChar false directory.iNode m =
          .ok none m ∧
        cpNew source contents directory indices m = .error (.exit s) m' := by
  rw [cp] at h
  rcases bind_error.mp h with hopen | ⟨contents, u, hopen, h⟩
  · obtain rfl : m = m' := by
      simpa only [hopen, final_error] using ReadOnly.require (.exit 1) file m
    refine .inl ⟨fun hproceeds => hproceeds.1 ?_, rfl⟩
    cases file with
    | none => rfl
    | some contents => cases hopen
  obtain ⟨hopened, rfl⟩ := require_ok.mp hopen
  obtain ⟨found, u, hfound, h⟩ := (noExit_stepToTarget _ _).next h
  obtain rfl : m = u := (readOnly_stepToTarget target false).of_ok hfound
  rcases bind_error.mp h with hdirectory | ⟨directory, u, hdirectory, h⟩
  · cases found with
    | some info => cases hdirectory
    | none =>
      cases hdirectory
      refine .inl ⟨?_, rfl⟩
      rintro ⟨-, _, info, -, hinfo, -⟩
      rw [hfound] at hinfo
      cases hinfo
  obtain ⟨rfl, rfl⟩ := require_ok.mp hdirectory
  obtain ⟨indices, u, hrequire, h⟩ := (NoExit.require _).next h
  obtain ⟨hposition, rfl⟩ := require_ok.mp hrequire
  obtain ⟨existing, u, hexisting, h⟩ := (noExit_searchInode _ _ _ _ _).next h
  obtain rfl : m = u := (readOnly_searchInode _ _ _ _ _).of_ok hexisting
  rcases bind_error.mp h with hnew | ⟨_, u, hnew, h⟩
  · rw [ensure] at hnew
    split at hnew
    · cases hnew
    · next hsome =>
      cases hnew
      refine .inl ⟨?_, rfl⟩
      rintro ⟨-, indices', info, hposition', hinfo, hnone⟩
      obtain rfl := Option.some.inj (hposition.symm.trans hposition')
      rw [hfound] at hinfo
      cases hinfo
      rw [hexisting] at hnone
      cases hnone
      exact hsome rfl
  obtain ⟨rfl, rfl⟩ := ensure_ok.mp hnew
  exact .inr ⟨contents, directory, indices, hopened, hfound, hposition, hexisting, h⟩

/-- Once the name is known to be new, `ext2_cp` calls `exit` where no inode is free, or after the
loops that copy the contents. -/
theorem cpNew_fails {source : CString} {contents : List UInt8} {directory : INodeInfo}
    {indices : ThreeIndices} {s : Int}
    (h : cpNew source contents directory indices m = .error (.exit s) m') :
    Exhausted m m' ∨ ∃ (k : Nat) (taken claimed entered : Memory), freeInode m = some k ∧
      inodeTableAt m + 128 * k + 128 ≤ 131072 ∧ taken = m.fill (inodeTableAt m + 128 * k) 128 0 ∧
      claimed = markInode (taken.store (inodeTableAt taken + 128 * k) 2 ext2SIfreg) k ∧
      addEntry directory.iNodeNumber ext2FtRegFile k source indices.lastDir indices.lastChar
        claimed = .ok () entered ∧
      fillFile (inodeTableAt taken + 128 * k : Nat) contents entered = .error (.exit s) m' := by
  rw [cpNew] at h
  obtain ⟨_, u, hprint, h⟩ := noExit_printInfo.next h
  obtain rfl : m = u := readOnly_printInfo.of_ok hprint
  obtain ⟨i, taken, htake, h⟩ := noExit_findFreeInode.next h
  by_cases hi : i = -1
  · rw [hi, ensure, if_neg (by decide)] at h
    cases h
    obtain ⟨hfree, p, hp, -, hcleared⟩ := findFreeInode_none (hi ▸ htake)
    exact .inl ⟨hfree, p, hp, hcleared⟩
  obtain ⟨k, rfl, hfree, hmapped, rfl⟩ := findFreeInode_ok htake hi
  rw [ensure, if_pos hi, bind_of_ok (pure_apply () _), bind_of_ok (getInode_succ k _)] at h
  obtain ⟨_, u, hmode, h⟩ := (noExit_write _ _ _).next h
  obtain ⟨p, hp, -, rfl⟩ := write_ok.mp hmode
  obtain rfl := Int.ofNat.inj hp
  obtain ⟨_, claimed, hclaim, h⟩ := (noExit_setInodeBitmap _).next h
  obtain ⟨-, hclaimed⟩ := setInodeBitmap_ok hclaim
  obtain ⟨_, u, hprint, h⟩ := noExit_printInfo.next h
  obtain rfl : claimed = u := readOnly_printInfo.of_ok hprint
  obtain ⟨_, entered, henter, h⟩ := (noExit_addEntry _ _ _ _ _ _).next h
  obtain ⟨_, u, hprint, h⟩ := noExit_printInfo.next h
  obtain rfl : entered = u := readOnly_printInfo.of_ok hprint
  refine .inr ⟨k, _, claimed, entered, hfree, hmapped, rfl, hclaimed, henter, ?_⟩
  rcases bind_error.mp h with hfill | ⟨_, filled, hfill, h⟩
  · exact hfill
  · obtain ⟨_, counted, -, h⟩ := noExit_countOne.next h
    cases h

/-- `ext2_cp` reports an error after a search that fails, where no inode is free, or after the
loops that copy the contents. -/
theorem cp_fails {source target : CString} {file : Option (List UInt8)} {s : Int}
    (h : cp source file target m = .error (.exit s) m') :
    ¬ (Command.cp source file target).Proceeds m ∧ m' = m ∨
      (Command.cp source file target).Proceeds m ∧ (Exhausted m m' ∨
        ∃ start : CpStart source file target m,
          fillFile (inodeTableAt start.taken + 128 * start.index : Nat) start.contents
            start.entered = .error (.exit s) m') := by
  rcases cp_searches h with
    hfails | ⟨contents, directory, indices, rfl, hfound, hposition, hexisting, hnew⟩
  · exact .inl hfails
  · refine .inr ⟨⟨Option.some_ne_none _, indices, directory, hposition, hfound, hexisting⟩, ?_⟩
    rcases cpNew_fails hnew with
      hnone | ⟨k, taken, claimed, entered, hfree, hmapped, htake, hclaim, henter, hfill⟩
    · exact .inl hnone
    · exact .inr ⟨⟨contents, indices, directory, k, taken, claimed, entered, rfl, hfound, hposition,
        hfree, hmapped, htake, hclaim, henter⟩, hfill⟩

/-- A file that is not copied completely has taken an inode. -/
theorem CpStart.changed {source target : CString} {file : Option (List UInt8)} {s : Int}
    (start : CpStart source file target m) (h : Consistent L m)
    (hc : (Command.cp source file target).SparesMetadata L m)
    (hfill : fillFile (inodeTableAt start.taken + 128 * start.index : Nat) start.contents
      start.entered = .error (.exit s) m') : m' ≠ m := by
  obtain ⟨e, d, -, hdata, hindex, hunused, hinode, hentered⟩ := start.effect h.holds hc.toClear
    fun _ hn => hc.toClear.backed h.owned hn
  rw [hinode] at hfill
  obtain ⟨r, u, left, -, hdirect, hbeyond⟩ := fillFile_error hfill
  have hkept := fillBlocks_kept ⟨by omega, hindex⟩ hentered.holds hentered.next hdata
    (hentered.zero 88 4 (by decide) (by decide)) (fun hlen => hc.ahead (by
      simp only [Command.contents, start.opened, Option.getD_some]
      omega)) hdirect hbeyond
  have hused : L.inUse m' (start.index + 1) = true := by
    rw [hkept.inUse, hentered.used, Function.update_self]
  rintro rfl
  rw [hunused] at hused
  cases hused

theorem Command.run_fails {c : Command} {s : Int} (h : c.run m = .error (.exit s) m') :
    ¬ c.Proceeds m ∧ m' = m ∨ c.Proceeds m ∧ (Exhausted m m' ∨
      freeInode m ≠ none ∧ ((∃ L, Consistent L m ∧ c.SparesMetadata L m) → m' ≠ m)) := by
  rw [run] at h
  cases c with
  | mkdir path =>
    obtain ⟨r, u, hmain, h⟩ := (noExit_mkdir path).next h
    rw [ensure] at h
    split at h
    · cases h
    · next hr =>
      cases h
      rcases mkdir_fails hmain hr with hfails | ⟨hproceeds, hnone⟩
      · exact .inl hfails
      · exact .inr ⟨hproceeds, .inl hnone⟩
  | cp source file target =>
    rcases bind_error.mp h with hmain | ⟨r, u, hmain, h⟩
    · rcases cp_fails hmain with hfails | ⟨hproceeds, hnone | ⟨start, hfill⟩⟩
      · exact .inl hfails
      · exact .inr ⟨hproceeds, .inl hnone⟩
      · refine .inr ⟨hproceeds, .inr ⟨?_, ?_⟩⟩
        · rw [start.free]
          exact Option.some_ne_none _
        · rintro ⟨L, hm, hc⟩
          exact start.changed hm hc hfill
    · obtain ⟨rfl, -⟩ := cp_ok hmain
      cases h

/-- A run that reports an error leaves the image as it was exactly when it ends in a search, or
finds no free inode and the 128 bytes before the inode table are zero. Where an inode is free,
the image is consistent and the run spares the metadata. -/
theorem unchanged_iff {c : Command} {s : Int} (hrun : c.run m = .error (.exit s) m')
    (hspares : c.Proceeds m → freeInode m ≠ none → ∃ L, Consistent L m ∧ c.SparesMetadata L m) :
    m' = m ↔ (c.Proceeds m → freeInode m = none ∧
      ∀ a, inodeTableAt m ≤ a + 128 → a < inodeTableAt m → m a = 0) := by
  rcases Command.run_fails hrun with ⟨hstop, hsame⟩ | ⟨hproceeds, ⟨hnone, p, hp, rfl⟩ | ⟨hsome, h⟩⟩
  · exact iff_of_true hsame fun hproceeds => absurd hproceeds hstop
  · constructor
    · intro hsame _
      refine ⟨hnone, fun a hlo hhi => ?_⟩
      rw [← hsame, fill_apply_of_inside (by omega)]
    · intro hzero
      funext a
      by_cases ha : p ≤ a ∧ a < p + 128
      · rw [fill_apply_of_inside ha, (hzero hproceeds).2 a (by omega) (by omega)]
      · exact fill_apply_of_outside (by omega)
  · exact iff_of_false (h (hspares hproceeds hsome)) fun hzero =>
      hsome (hzero hproceeds).1

/-! ## Images without a free inode -/

/-- The image with a lost block after all its inodes have been taken. With `padded` set, the bits
behind those of the inodes are set too. -/
def crowded (padded : Bool) : Memory :=
  let pad : List UInt8 := List.replicate 128 (if padded then 0xff else 0)
  let writes : List (Nat × List UInt8) := [
    (1040, leBytes 4 0), (2062, leBytes 2 0), (4096, [0xff, 0xff]), (4992, pad)]
  writes.foldl (fun m w => m.write w.1 w.2) (sample true)

theorem consistent_crowded : Consistent sampleLayout (crowded true) := by
  have hheld : sampleLayout.directSlots.filterMap
      (sampleLayout.held (sampleLayout.inUse (crowded true)) (crowded true)) = [7, 8] := by
    decide +kernel
  refine ⟨?_, by decide +kernel, ?_, by decide +kernel, by decide +kernel, by decide +kernel,
    by decide +kernel, by decide +kernel⟩
  · constructor <;> decide +kernel
  · refine Layout.exclusiveBlocks_of_direct (by decide +kernel) ?_ ?_
    · rw [hheld]
      decide
    · rw [hheld]
      decide +kernel

/-- Where the bits behind those of the inodes are clear, `ext2_mkdir` without a free inode leaves
the image as it was. -/
theorem unchanged_crowded : ∃ m', (Command.mkdir abPath).run (crowded false) =
    .error (.exit enoent) m' ∧ m' = crowded false := by
  obtain ⟨r, m', hrun, hr⟩ := exists_of_holds
    (show holds (mkdir abPath (crowded false)) (fun r _ => r = enoent) = true by decide +kernel)
  obtain rfl := of_decide_eq_true hr
  have hfail : (Command.mkdir abPath).run (crowded false) = .error (.exit enoent) m' :=
    bind_of_ok hrun
  have hnone : freeInode (crowded false) = none := by decide +kernel
  refine ⟨m', hfail, (unchanged_iff hfail fun _ hsome => absurd hnone hsome).mpr fun _ =>
    ⟨hnone, fun a hlo hhi => ?_⟩⟩
  have hzero : ∀ i < 128, crowded false (4992 + i) = 0 := by decide +kernel
  have htable : inodeTableAt (crowded false) = 5120 := by decide +kernel
  rw [htable] at hlo hhi
  rw [← hzero (a - 4992) (by omega), Nat.add_sub_of_le (by omega)]

/-- Where they are set, it clears them. -/
theorem not_unchanged : Consistent sampleLayout (crowded true) ∧
    ∃ m', (Command.mkdir abPath).run (crowded true) = .error (.exit enoent) m' ∧
      m' ≠ crowded true := by
  refine ⟨consistent_crowded, ?_⟩
  obtain ⟨r, m', hrun, hq⟩ := exists_of_holds
    (show holds (mkdir abPath (crowded true)) (fun r m' => r = enoent && m' 5119 = 0) = true by
      decide +kernel)
  rw [Bool.and_eq_true, decide_eq_true_iff, decide_eq_true_iff] at hq
  obtain ⟨rfl, hbyte⟩ := hq
  refine ⟨m', bind_of_ok hrun, ?_⟩
  rintro rfl
  revert hbyte
  decide +kernel

end OsAssignments.Ext2
