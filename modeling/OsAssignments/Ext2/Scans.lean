import OsAssignments.Ext2.BlockSearch
import OsAssignments.Ext2.Ls
import OsAssignments.Ext2.StepToTarget
import OsAssignments.Library.Chain

/-!
# Scans of a directory

Three loops go through the entries of a directory block: those of `check_inode_block`, of
`step_to_target` and of `print_dir_contents`. Each adds the length of an entry to its place
unchecked, and each is done under another condition. A loop returns without reading outside the
block exactly when the lengths lead, past entries that it reads in the block, to where it is
done.
-/

namespace OsAssignments.Ext2

open Memory Program

variable {m : Memory} {b inode fileType : Nat} {name : List UInt8} {path : CString}
  {start last : Int}

/-- `i_block[i]` of the inode at an offset. -/
def blockAt (m : Memory) (inode i : Nat) : Nat := m.load (inode + 40 + 4 * i) 4

/-! ## What the loops are asked for -/

/-- `check_inode_block` returns, and so does the search that may read nothing outside the block. -/
def CheckStays (m : Memory) (b fileType : Nat) (name : List UInt8) : Prop :=
  ∃ found, checkInodeBlock (toInt b) name fileType m = .ok found m ∧
    checkInodeBlockIn readWithin (toInt b) name fileType m = .ok found m

/-- The search of `step_to_target` in the block that it has copied returns. -/
def StepStays (m : Memory) (inode : Nat) (path : CString) (start last : Int) : Prop :=
  ∃ found, searchInode path start last true inode m = .ok found m

/-- `print_dir_contents` returns, also when it may read nothing outside the block at hand. -/
def PrintStays (m : Memory) (inode : Nat) : Prop :=
  ∃ lines, printDirContents (fun _ => read) inode m = .ok lines m ∧
    printDirContents readWithin inode m = .ok lines m

/-- The three scans of a directory end and stay inside its blocks. -/
def ScansStay (m : Memory) (inode fileType : Nat) (name : List UInt8) (path : CString)
    (start last : Int) : Prop :=
  (∀ i < 12, CheckStays m (blockAt m inode i) fileType name) ∧
    StepStays m inode path start last ∧ PrintStays m inode

/-! ## Where the lengths lead -/

/-- Where `check_inode_block` goes on behind an entry that it reads in the block. -/
def checkNext (m : Memory) (b fileType : Nat) (name : List UInt8) (o : Nat) : Option Nat :=
  if o + 8 ≤ 1024 ∧ Passes m (b * 1024 + 1024) fileType name (b * 1024 + o) then
    some (o + m.load (b * 1024 + o + 4) 2)
  else none

/-- It is done at the end of the block and at an entry that agrees with the name. -/
def CheckDone (m : Memory) (b fileType : Nat) (name : List UInt8) (o : Nat) : Prop :=
  o = 1024 ∨ o + 8 ≤ 1024 ∧ m.load (b * 1024 + o + 7) 1 = fileType ∧
    Agrees m (b * 1024 + 1024) (b * 1024 + o + 8) name

/-- Where `step_to_target` goes on behind an entry that it reads in the block, when `rest` is left
of the path. -/
def stepNext (m : Memory) (b iSize : Nat) (rest : List UInt8) (o : Nat) : Option Nat :=
  if o < iSize ∧ o + 8 ≤ 1024 ∧ (m.load (b * 1024 + o + 7) 1 = ext2FtDir →
      o + 8 + m.load (b * 1024 + o + 6) 1 ≤ 1024 ∧ ¬ stringAt m b o <+: rest) then
    some (o + m.load (b * 1024 + o + 4) 2)
  else none

/-- It is done at the size of the directory and at an entry whose name begins the rest. -/
def StepDone (m : Memory) (b iSize : Nat) (rest : List UInt8) (o : Nat) : Prop :=
  iSize ≤ o ∨ o + 8 ≤ 1024 ∧ m.load (b * 1024 + o + 7) 1 = ext2FtDir ∧
    o + 8 + m.load (b * 1024 + o + 6) 1 ≤ 1024 ∧ stringAt m b o <+: rest

/-- Up to `n` bytes at `q` up to a NUL lie before `e`. -/
def Copied (m : Memory) (e : Nat) : Nat → Nat → Prop
  | _, 0 => True
  | q, n + 1 => q < e ∧ (m q = 0 ∨ Copied m e (q + 1) n)

instance decidableCopied (m : Memory) (e : Nat) : (q n : Nat) → Decidable (Copied m e q n)
  | _, 0 => inferInstanceAs (Decidable True)
  | q, n + 1 =>
    have := decidableCopied m e (q + 1) n
    inferInstanceAs (Decidable (_ ∧ (_ ∨ _)))

/-- Where `print_dir_contents` goes on behind an entry that it reads in the block. -/
def printNext (m : Memory) (b o : Nat) : Option Nat :=
  if o + 7 ≤ 1024 ∧
      Copied m (b * 1024 + 1024) (b * 1024 + o + 8) (m.load (b * 1024 + o + 6) 1) then
    some (o + m.load (b * 1024 + o + 4) 2)
  else none

/-- The blocks that `print_dir_contents` prints: the direct ones before a null pointer. -/
def printedBlocks (m : Memory) (inode : Nat) : List Nat :=
  ((List.range 12).map (blockAt m inode)).takeWhile (· ≠ 0)

/-- In every block that is scanned the lengths lead to where the scan is done, past entries inside
the block. -/
structure LengthsLead (m : Memory) (inode fileType : Nat) (name rest : List UInt8) : Prop where
  check : ∀ i < 12, m.load (blockAt m inode i * 1024) 4 = 0 ∨
    ChainsTo (checkNext m (blockAt m inode i) fileType name)
      (CheckDone m (blockAt m inode i) fileType name) 0
  step : ChainsTo (stepNext m (blockAt m inode 0) (m.load (inode + 4) 4) rest)
    (StepDone m (blockAt m inode 0) (m.load (inode + 4) 4) rest) 0
  print : ∀ b ∈ printedBlocks m inode, ChainsTo (printNext m b) (1024 ≤ ·) 0

/-! ## `check_inode_block` -/

theorem Differs.not_agrees {e q : Nat} {s : List UInt8} (h : Differs m e q s) :
    ¬ Agrees m e q s := by
  induction s generalizing q with
  | nil => exact fun hagrees => h.2 hagrees.2.2
  | cons c s ih =>
    intro hagrees
    obtain ⟨-, hc, hrest⟩ := agrees_cons.mp hagrees
    exact h.2.elim (fun hne => hne hc) fun hdiffers => ih hdiffers hrest

theorem checkNext_eq_some {o z : Nat} : checkNext m b fileType name o = some z ↔
    (o + 8 ≤ 1024 ∧ Passes m (b * 1024 + 1024) fileType name (b * 1024 + o)) ∧
      o + m.load (b * 1024 + o + 4) 2 = z := by
  simp only [checkNext, Option.ite_none_right_eq_some, Option.some.injEq]

theorem checkNext_of_done {o : Nat} (h : CheckDone m b fileType name o) :
    checkNext m b fileType name o = none := by
  rw [checkNext, if_neg]
  rintro ⟨hin, hpasses⟩
  rcases h with rfl | ⟨-, htype, hagrees⟩
  · omega
  · exact (hpasses htype).not_agrees hagrees

/-- The loop in the block returns exactly when the lengths lead to where it is done. -/
theorem scanEntriesIn_returns (hb : b < 128) {rounds : Nat} (hrounds : 1024 < rounds) :
    (∃ found, scanEntriesIn (readWithin (b * 1024 : Nat)) (b * 1024 : Nat) name fileType rounds
      (b * 1024 + 0 : Nat) m = .ok found m) ↔
        ChainsTo (checkNext m b fileType name) (CheckDone m b fileType name) 0 := by
  have hreads := reads_readWithin hb m
  refine @returns_iff_chainsTo (checkNext m b fileType name) (CheckDone m b fileType name)
    (fun r o => ∃ found, scanEntriesIn (readWithin (b * 1024 : Nat)) (b * 1024 : Nat) name fileType
      r (b * 1024 + o : Nat) m = .ok found m) 0 1024 rounds ?_ ?_ (fun _ => checkNext_of_done) ?_
    hrounds
  · rintro o ⟨found, h⟩
    cases h
  · intro r o
    have hround := fun found => @scanEntriesIn_ok m fileType name _ _ _ hreads (b * 1024)
      (b * 1024 + o) r (Nat.le_add_right _ o) found
    rw [exists_congr hround]
    by_cases hend : o = 1024
    · have hdone : CheckDone m b fileType name o := .inl hend
      rw [hend] at hdone ⊢
      simp only [if_true, exists_eq, hdone, true_or]
    · simp only [if_neg fun h => hend (Nat.add_left_cancel h)]
      constructor
      · rintro ⟨found, hin, ⟨htype, hagrees, -⟩ | ⟨hpasses, h⟩⟩
        · exact .inl (.inr ⟨by omega, htype, hagrees⟩)
        · refine .inr ⟨_, checkNext_eq_some.mpr ⟨⟨by omega, hpasses⟩, rfl⟩, found, ?_⟩
          rwa [← Nat.add_assoc]
      · rintro ((h | ⟨hin, htype, hagrees⟩) | ⟨z, hz, found, h⟩)
        · exact absurd h hend
        · exact ⟨_, by omega, .inl ⟨htype, hagrees, rfl⟩⟩
        · obtain ⟨⟨hin, hpasses⟩, rfl⟩ := checkNext_eq_some.mp hz
          rw [← Nat.add_assoc] at h
          exact ⟨found, by omega, .inr ⟨hpasses, h⟩⟩
  · intro o z hz
    have hin := (checkNext_eq_some.mp hz).1.1
    omega

theorem checkStays_iff (hb : b < 128) : CheckStays m b fileType name ↔
    m.load (b * 1024) 4 = 0 ∨
      ChainsTo (checkNext m b fileType name) (CheckDone m b fileType name) 0 := by
  have hreads := reads_readWithin hb m
  have horigin : toInt b * (blockSize : Int) = (b * 1024 : Nat) := by
    rw [toInt_of_lt (by omega)]
    simp only [blockSize]
    omega
  have hstays : CheckStays m b fileType name ↔
      ∃ found, checkInodeBlockIn readWithin (toInt b) name fileType m = .ok found m :=
    exists_congr fun found => and_iff_right_of_imp (below_checkInodeBlockIn _ name fileType _ _ _)
  have hfirst : readWithin (b * 1024 : Nat) (b * 1024 : Nat) 4 m = .ok (m.load (b * 1024) 4) m :=
    (hreads (b * 1024) 4 _ m (Nat.le_refl _)).mpr ⟨by omega, rfl, rfl⟩
  have hrounds : 1024 < imageSize + 1 := by
    simp only [imageSize]
    omega
  rw [hstays, checkInodeBlockIn, horigin, bind_of_ok hfirst]
  generalize imageSize + 1 = rounds at hrounds
  by_cases hzero : m.load (b * 1024) 4 = 0
  · rw [if_pos hzero]
    exact iff_of_true ⟨none, rfl⟩ (.inl hzero)
  · rw [or_iff_right hzero, ← scanEntriesIn_returns hb hrounds, if_neg hzero, Nat.add_zero]

/-! ## `step_to_target` -/

theorem readEntry_bind {α : Type} {o field n : Nat} (hb : b < 128) {f : Nat → DiskM α} {r : α}
    {m' : Memory} : (readEntry (b * 1024 : Nat) o field n >>= f) m = .ok r m' ↔
      o + field + n ≤ 1024 ∧ f (m.load (b * 1024 + o + field) n) m = .ok r m' := by
  by_cases hin : o + field + n ≤ 1024
  · rw [bind_of_ok (readEntry_apply hb hin)]
    exact (and_iff_right hin).symm
  · refine iff_of_false (fun h => ?_) fun h => hin h.1
    obtain ⟨v, u, hread, -⟩ := bind_ok.mp h
    rw [readEntry, if_neg hin] at hread
    cases hread

theorem readName_ok {o : Nat} (hb : b < 128) {s : List UInt8} {m' : Memory} :
    readName (b * 1024 : Nat) o m = .ok s m' ↔
      m = m' ∧ o + 8 + m.load (b * 1024 + o + 6) 1 ≤ 1024 ∧ s = stringAt m b o := by
  by_cases hfits : o + 8 + m.load (b * 1024 + o + 6) 1 ≤ 1024
  · rw [readName_apply hb hfits]
    constructor
    · intro h
      cases h
      exact ⟨rfl, hfits, rfl⟩
    · rintro ⟨rfl, -, rfl⟩
      rfl
  · refine iff_of_false (fun h => ?_) fun h => hfits h.2.1
    rw [readName, readEntry_bind hb, if_neg hfits] at h
    cases h.2

/-- The entry is compared with the rest of the path when it has directory type. -/
theorem entryMatches_ok (hb : b < 128) {rest : List UInt8}
    (hrest : ∀ actual, matchName path actual start last = some (decide (actual <+: rest)))
    {o : Nat} {r : Bool} {m' : Memory} :
    entryMatches path start last true (b * 1024 : Nat) o m = .ok r m' ↔ m = m' ∧ o + 8 ≤ 1024 ∧
      if m.load (b * 1024 + o + 7) 1 = ext2FtDir then
        o + 8 + m.load (b * 1024 + o + 6) 1 ≤ 1024 ∧ r = decide (stringAt m b o <+: rest)
      else r = false := by
  rw [entryMatches]
  change (readEntry (b * 1024 : Nat) o 7 1 >>= _) m = _ ↔ _
  rw [readEntry_bind hb]
  by_cases htype : m.load (b * 1024 + o + 7) 1 = ext2FtDir
  · rw [if_neg (not_not.mpr htype), if_pos htype, Program.bind_ok]
    constructor
    · rintro ⟨hin, s, u, hname, h⟩
      obtain ⟨rfl, hfits, rfl⟩ := (readName_ok hb).mp hname
      rw [hrest] at h
      cases h
      exact ⟨rfl, hin, hfits, rfl⟩
    · rintro ⟨rfl, hin, hfits, rfl⟩
      refine ⟨hin, _, m, (readName_ok hb).mpr ⟨rfl, hfits, rfl⟩, ?_⟩
      rw [hrest]
      rfl
  · rw [if_pos htype, if_neg htype]
    constructor
    · rintro ⟨hin, h⟩
      cases h
      exact ⟨rfl, hin, rfl⟩
    · rintro ⟨rfl, hin, rfl⟩
      exact ⟨hin, rfl⟩

theorem stepNext_eq_some {iSize o z : Nat} {rest : List UInt8} :
    stepNext m b iSize rest o = some z ↔
      (o < iSize ∧ o + 8 ≤ 1024 ∧ (m.load (b * 1024 + o + 7) 1 = ext2FtDir →
        o + 8 + m.load (b * 1024 + o + 6) 1 ≤ 1024 ∧ ¬ stringAt m b o <+: rest)) ∧
      o + m.load (b * 1024 + o + 4) 2 = z := by
  simp only [stepNext, Option.ite_none_right_eq_some, Option.some.injEq]

theorem stepNext_of_done {iSize o : Nat} {rest : List UInt8} (h : StepDone m b iSize rest o) :
    stepNext m b iSize rest o = none := by
  rw [stepNext, if_neg]
  rintro ⟨hsize, -, hpasses⟩
  rcases h with h | ⟨-, htype, -, hprefix⟩
  · omega
  · exact (hpasses htype).2 hprefix

/-- A round takes the entry when its name begins the rest of the path, and goes on otherwise. -/
theorem findEntry_ok (hb : b < 128) {rest : List UInt8}
    (hrest : ∀ actual, matchName path actual start last = some (decide (actual <+: rest)))
    {iSize r o : Nat} {found : Option Nat} :
    findEntry path start last true (b * 1024 : Nat) iSize (r + 1) o m = .ok found m ↔
      if o < iSize then
        o + 8 ≤ 1024 ∧
        (m.load (b * 1024 + o + 7) 1 = ext2FtDir ∧ o + 8 + m.load (b * 1024 + o + 6) 1 ≤ 1024 ∧
            stringAt m b o <+: rest ∧ found = some o ∨
          (m.load (b * 1024 + o + 7) 1 = ext2FtDir →
            o + 8 + m.load (b * 1024 + o + 6) 1 ≤ 1024 ∧ ¬ stringAt m b o <+: rest) ∧
            findEntry path start last true (b * 1024 : Nat) iSize r
              (o + m.load (b * 1024 + o + 4) 2) m = .ok found m)
      else found = none := by
  rw [findEntry]
  by_cases hsize : o < iSize
  · have hmatch := @entryMatches_ok m b path start last hb rest hrest o
    have hnext : o + 8 ≤ 1024 → ((readEntry (b * 1024 : Nat) o 4 2 >>= fun recLen =>
        findEntry path start last true (b * 1024 : Nat) iSize r (o + recLen)) m = .ok found m ↔
          findEntry path start last true (b * 1024 : Nat) iSize r
            (o + m.load (b * 1024 + o + 4) 2) m = .ok found m) := fun hin => by
      rw [readEntry_bind hb]
      exact and_iff_right (by omega)
    rw [if_pos hsize, if_pos hsize, Program.bind_ok]
    constructor
    · rintro ⟨taken, u, h, hthen⟩
      obtain ⟨rfl, hin, h⟩ := hmatch.mp h
      refine ⟨hin, ?_⟩
      by_cases htype : m.load (b * 1024 + o + 7) 1 = ext2FtDir
      · rw [if_pos htype] at h
        obtain ⟨hfits, rfl⟩ := h
        by_cases hprefix : stringAt m b o <+: rest
        · rw [if_pos (decide_eq_true hprefix)] at hthen
          cases hthen
          exact .inl ⟨htype, hfits, hprefix, rfl⟩
        · rw [if_neg fun h => hprefix (of_decide_eq_true h)] at hthen
          exact .inr ⟨fun _ => ⟨hfits, hprefix⟩, (hnext hin).mp hthen⟩
      · rw [if_neg htype] at h
        rw [h, if_neg Bool.false_ne_true] at hthen
        exact .inr ⟨fun h => absurd h htype, (hnext hin).mp hthen⟩
    · rintro ⟨hin, ⟨htype, hfits, hprefix, rfl⟩ | ⟨hpasses, h⟩⟩
      · refine ⟨true, m, hmatch.mpr ⟨rfl, hin, ?_⟩, rfl⟩
        rw [if_pos htype, decide_eq_true hprefix]
        exact ⟨hfits, rfl⟩
      · refine ⟨false, m, hmatch.mpr ⟨rfl, hin, ?_⟩, ?_⟩
        · by_cases htype : m.load (b * 1024 + o + 7) 1 = ext2FtDir
          · rw [if_pos htype, decide_eq_false (hpasses htype).2]
            exact ⟨(hpasses htype).1, rfl⟩
          · rw [if_neg htype]
        · rw [if_neg Bool.false_ne_true]
          exact (hnext hin).mpr h
  · rw [if_neg hsize, if_neg hsize]
    constructor
    · intro h
      cases h
      rfl
    · rintro rfl
      rfl

/-- The search returns exactly when the lengths lead to where it is done. -/
theorem findEntry_returns (hb : b < 128) {rest : List UInt8}
    (hrest : ∀ actual, matchName path actual start last = some (decide (actual <+: rest)))
    (iSize : Nat) {rounds : Nat} (hrounds : 1024 < rounds) :
    (∃ found, findEntry path start last true (b * 1024 : Nat) iSize rounds 0 m = .ok found m) ↔
      ChainsTo (stepNext m b iSize rest) (StepDone m b iSize rest) 0 := by
  refine @returns_iff_chainsTo (stepNext m b iSize rest) (StepDone m b iSize rest)
    (fun r o => ∃ found, findEntry path start last true (b * 1024 : Nat) iSize r o m =
      .ok found m) 0 1024 rounds ?_ ?_ (fun _ => stepNext_of_done) ?_ hrounds
  · rintro o ⟨found, h⟩
    cases h
  · intro r o
    rw [exists_congr fun found => findEntry_ok hb hrest]
    by_cases hsize : o < iSize
    · simp only [if_pos hsize]
      constructor
      · rintro ⟨found, hin, ⟨htype, hfits, hprefix, -⟩ | ⟨hpasses, h⟩⟩
        · exact .inl (.inr ⟨hin, htype, hfits, hprefix⟩)
        · exact .inr ⟨_, stepNext_eq_some.mpr ⟨⟨hsize, hin, hpasses⟩, rfl⟩, found, h⟩
      · rintro ((h | ⟨hin, htype, hfits, hprefix⟩) | ⟨z, hz, found, h⟩)
        · omega
        · exact ⟨some o, hin, .inl ⟨htype, hfits, hprefix, rfl⟩⟩
        · obtain ⟨⟨-, hin, hpasses⟩, rfl⟩ := stepNext_eq_some.mp hz
          exact ⟨found, hin, .inr ⟨hpasses, h⟩⟩
    · simp only [if_neg hsize, exists_eq, true_iff]
      exact .inl (.inl (by omega))
  · intro o z hz
    have hin := (stepNext_eq_some.mp hz).1.2.1
    omega

/-! ## `print_dir_contents` -/

theorem readOnly_readWithin (origin a : Int) (n : Nat) : ReadOnly (readWithin origin a n) :=
  .ite (readOnly_read a n) (.stop _)

section

variable {rd rd' : Reader}

theorem readOnly_copyString (hrd : ∀ a n, ReadOnly (rd a n)) (a : Int) (n : Nat) :
    ReadOnly (copyString rd a n) := by
  induction n generalizing a with
  | zero => exact .pure _
  | succ n ih => exact .bind (hrd a 1) fun _ => .ite (.pure _) (.bind (ih _) fun _ => .pure _)

theorem readOnly_printEntries (hrd : ∀ a n, ReadOnly (rd a n)) (block : Int) (rounds o : Nat) :
    ReadOnly (printEntries rd block rounds o) := by
  induction rounds generalizing o with
  | zero => exact .stop _
  | succ rounds ih =>
    exact .ite (.bind (hrd _ 1) fun _ => .bind (readOnly_copyString hrd _ _) fun _ =>
      .bind (hrd _ 2) fun _ => .bind (ih _) fun _ => .pure _) (.pure _)

theorem below_copyString (hrd : ∀ a n, Below (rd a n) (rd' a n)) (a : Int) (n : Nat) :
    Below (copyString rd a n) (copyString rd' a n) := by
  induction n generalizing a with
  | zero => exact .refl _
  | succ n ih => exact .bind (hrd a 1) fun _ => .ite (.refl _) (.bind (ih _) fun _ => .refl _)

theorem below_printEntries (hrd : ∀ a n, Below (rd a n) (rd' a n)) (block : Int)
    (rounds o : Nat) :
    Below (printEntries rd block rounds o) (printEntries rd' block rounds o) := by
  induction rounds generalizing o with
  | zero => exact .refl _
  | succ rounds ih =>
    exact .ite (.bind (hrd _ 1) fun _ => .bind (below_copyString hrd _ _) fun _ =>
      .bind (hrd _ 2) fun _ => .bind (ih _) fun _ => .refl _) (.refl _)

end

theorem below_printBlocks (inode : Int) (rounds i : Nat) :
    Below (printBlocks readWithin inode rounds i) (printBlocks (fun _ => read) inode rounds i) := by
  induction rounds generalizing i with
  | zero => exact .refl _
  | succ rounds ih =>
    exact .bind (.refl _) fun number => .ite (.refl _)
      (.bind (below_printEntries (fun _ _ => below_readWithin _ _ _) _ _ _) fun _ =>
        .bind (ih _) fun _ => .refl _)

/-- What is printed by reading inside the blocks is what is printed. -/
theorem below_printDirContents (inode : Int) : Below (printDirContents readWithin inode)
    (printDirContents (fun _ => read) inode) :=
  .bind (.refl _) fun _ => .ite (below_printBlocks _ _ _) (.refl _)

section

variable {rd : Reader} {lo e : Nat} (hrd : Reads rd m lo e)
include hrd

theorem copyString_ok {q n : Nat} (hq : lo ≤ q) {s : List UInt8} {m' : Memory} :
    copyString rd q n m = .ok s m' ↔
      m = m' ∧ Copied m e q n ∧ s = (m.bytes q n).takeWhile (· ≠ 0) := by
  induction n generalizing q s m' with
  | zero =>
    rw [copyString, Copied, true_and]
    constructor
    · intro h
      cases h
      exact ⟨rfl, rfl⟩
    · rintro ⟨rfl, rfl⟩
      rfl
  | succ n ih =>
    rw [copyString, hrd.bind_ok hq, load_one, Copied, bytes_succ]
    by_cases hzero : m q = 0
    · have hnull : (m q).toNat = 0 := congrArg UInt8.toNat hzero
      rw [if_pos hnull, List.takeWhile_cons_of_neg (by simp [hzero])]
      constructor
      · rintro ⟨hin, h⟩
        cases h
        exact ⟨rfl, ⟨hin, .inl hzero⟩, rfl⟩
      · rintro ⟨rfl, ⟨hin, -⟩, rfl⟩
        exact ⟨hin, rfl⟩
    · have hnull : ¬ (m q).toNat = 0 := fun h => hzero (UInt8.toNat_inj.mp h)
      rw [if_neg hnull, Program.bind_ok,
        List.takeWhile_cons_of_pos (by simp [hzero]), UInt8.ofNat_toNat]
      constructor
      · rintro ⟨hin, rest, u, hrest, h⟩
        rw [← Int.natCast_one, ← Int.natCast_add, ih (Nat.le_succ_of_le hq)] at hrest
        obtain ⟨rfl, hcopied, rfl⟩ := hrest
        cases h
        exact ⟨rfl, ⟨hin, .inr hcopied⟩, rfl⟩
      · rintro ⟨rfl, ⟨hin, hcopied⟩, rfl⟩
        refine ⟨hin, _, m, ?_, rfl⟩
        rw [← Int.natCast_one, ← Int.natCast_add, ih (Nat.le_succ_of_le hq)]
        exact ⟨rfl, hcopied.resolve_left hzero, rfl⟩

/-- A round prints the name of the entry, up to a NUL, and goes on behind it. -/
theorem printEntries_ok {a r o : Nat} (ha : lo ≤ a) {lines : List (List UInt8)} :
    printEntries rd a (r + 1) o m = .ok lines m ↔
      if o < 1024 then
        a + o + 7 ≤ e ∧ Copied m e (a + o + 8) (m.load (a + o + 6) 1) ∧
          ∃ rest, printEntries rd a r (o + m.load (a + o + 4) 2) m = .ok rest m ∧
            lines = (entryNameAt m (a + o)).takeWhile (· ≠ 0) :: rest
      else lines = [] := by
  rw [printEntries]
  by_cases hend : o < 1024
  · have hlen : entryNameLen (a + o : Nat) = (a + o + 6 : Nat) := rfl
    have hname : entryName (a + o : Nat) = (a + o + 8 : Nat) := rfl
    have hrec : entryRecLen (a + o : Nat) = (a + o + 4 : Nat) := rfl
    rw [if_pos hend, if_pos hend, ← Int.natCast_add, hlen, hname, hrec, hrd.bind_ok (by omega),
      Program.bind_ok]
    constructor
    · rintro ⟨hin, s, u, hcopy, h⟩
      obtain ⟨rfl, hcopied, rfl⟩ := (copyString_ok hrd (by omega)).mp hcopy
      rw [hrd.bind_ok (by omega), Program.bind_ok] at h
      obtain ⟨-, rest, u, hrest, h⟩ := h
      cases h
      exact ⟨hin, hcopied, rest, hrest, rfl⟩
    · rintro ⟨hin, hcopied, rest, hrest, rfl⟩
      refine ⟨hin, _, m, (copyString_ok hrd (by omega)).mpr ⟨rfl, hcopied, rfl⟩, ?_⟩
      rw [hrd.bind_ok (by omega), Program.bind_ok]
      exact ⟨by omega, rest, m, hrest, rfl⟩
  · rw [if_neg hend, if_neg hend]
    constructor
    · intro h
      cases h
      rfl
    · rintro rfl
      rfl

end

theorem copied_of_le {e q n : Nat} (h : q + n ≤ e) : Copied m e q n := by
  induction n generalizing q with
  | zero => trivial
  | succ n ih => exact ⟨by omega, .inr (ih (by omega))⟩

/-- The entries on a chain are printed, each up to a NUL. -/
theorem printEntries_chain {b rounds offset : Nat} {offsets : List Nat} (hb : b < 128)
    (h : chain m b rounds offset = some offsets) {r : Nat} (hr : rounds ≤ r) :
    printEntries read (b * 1024 : Nat) r offset m =
      .ok (offsets.map fun o => (entryNameAt m (b * 1024 + o)).takeWhile (· ≠ 0)) m := by
  induction rounds generalizing offset offsets r with
  | zero => cases h
  | succ rounds ih =>
    obtain ⟨r, rfl⟩ := Nat.exists_eq_add_of_le' hr
    rw [← Nat.add_assoc, printEntries_ok (reads_read m) (Nat.zero_le _)]
    rcases chain_succ h with ⟨rfl, rfl⟩ | ⟨-, hentry, rest, hrest, rfl⟩
    · rw [if_neg (by omega)]
      rfl
    · have hfits := (fits_of_chain h).2 offset List.mem_cons_self
      rw [if_pos (by omega)]
      exact ⟨by omega, copied_of_le (by omega), _, ih hrest (by omega), rfl⟩

theorem printNext_eq_some {o z : Nat} : printNext m b o = some z ↔
    (o + 7 ≤ 1024 ∧
      Copied m (b * 1024 + 1024) (b * 1024 + o + 8) (m.load (b * 1024 + o + 6) 1)) ∧
    o + m.load (b * 1024 + o + 4) 2 = z := by
  simp only [printNext, Option.ite_none_right_eq_some, Option.some.injEq]

/-- The entries of a block are printed exactly when the lengths lead to its end. -/
theorem printEntries_returns (hb : b < 128) {rounds : Nat} (hrounds : 1024 < rounds) :
    (∃ lines, printEntries (readWithin (b * 1024 : Nat)) (b * 1024 : Nat) rounds 0 m =
      .ok lines m) ↔ ChainsTo (printNext m b) (1024 ≤ ·) 0 := by
  have hreads := reads_readWithin hb m
  refine @returns_iff_chainsTo (printNext m b) (1024 ≤ ·) (fun r o => ∃ lines,
    printEntries (readWithin (b * 1024 : Nat)) (b * 1024 : Nat) r o m = .ok lines m) 0 1024 rounds
    ?_ ?_ ?_ ?_ hrounds
  · rintro o ⟨lines, h⟩
    cases h
  · intro r o
    rw [exists_congr fun lines => printEntries_ok hreads (Nat.le_refl (b * 1024))]
    by_cases hend : o < 1024
    · simp only [if_pos hend]
      constructor
      · rintro ⟨lines, hin, hcopied, rest, h, -⟩
        exact .inr ⟨_, printNext_eq_some.mpr ⟨⟨by omega, hcopied⟩, rfl⟩, rest, h⟩
      · rintro (h | ⟨z, hz, rest, h⟩)
        · omega
        · obtain ⟨⟨hin, hcopied⟩, rfl⟩ := printNext_eq_some.mp hz
          exact ⟨_, by omega, hcopied, rest, h, rfl⟩
    · simp only [if_neg hend, exists_eq, true_iff]
      exact .inl (by omega)
  · intro o hdone
    rw [printNext, if_neg]
    rintro ⟨hin, -⟩
    omega
  · intro o z hz
    have hin := (printNext_eq_some.mp hz).1.1
    omega

theorem read_blockAt (hinode : inode + 128 ≤ 131072) {i : Nat} (hi : i < 12) :
    read (iBlock inode i) 4 m = .ok (blockAt m inode i) m :=
  read_apply _ (by simp only [iBlock]; omega) (by omega) m

theorem printBlocks_returns (hinode : inode + 128 ≤ 131072)
    (hblocks : ∀ i < 12, blockAt m inode i < 128) {rounds i : Nat} (hi : i + rounds ≤ 12) :
    (∃ lines, printBlocks readWithin inode rounds i m = .ok lines m) ↔
      ∀ b ∈ ((List.range' i rounds).map (blockAt m inode)).takeWhile (· ≠ 0),
        ChainsTo (printNext m b) (1024 ≤ ·) 0 := by
  induction rounds generalizing i with
  | zero => exact iff_of_true ⟨[], rfl⟩ (List.forall_mem_nil _)
  | succ rounds ih =>
    have hb := hblocks i (by omega)
    have hentries := @printEntries_returns m _ hb (blockSize + 1) (by decide)
    rw [List.range'_succ, List.map_cons]
    simp only [printBlocks, bind_of_ok (read_blockAt hinode (show i < 12 by omega)),
      blockOffset_of_lt (show blockAt m inode i < 4194304 by omega)]
    by_cases hnull : blockAt m inode i = 0
    · rw [List.takeWhile_cons_of_neg (by simp [hnull])]
      simp only [if_pos hnull]
      exact iff_of_true ⟨[], rfl⟩ (List.forall_mem_nil _)
    · rw [List.takeWhile_cons_of_pos (by simp [hnull]), List.forall_mem_cons, ← hentries,
        ← ih (by omega)]
      simp only [if_neg hnull]
      constructor
      · rintro ⟨lines, h⟩
        obtain ⟨first, u, hfirst, h⟩ := bind_ok.mp h
        obtain rfl : m = u :=
          (readOnly_printEntries (readOnly_readWithin _) _ _ _).of_ok hfirst
        obtain ⟨rest, u, hrest, h⟩ := bind_ok.mp h
        cases h
        exact ⟨⟨first, hfirst⟩, rest, hrest⟩
      · rintro ⟨⟨first, hfirst⟩, rest, hrest⟩
        refine ⟨first ++ rest, ?_⟩
        rw [bind_of_ok hfirst, bind_of_ok hrest]
        rfl

/-- A directory has the bit that `print_dir_contents` tests. -/
theorem directory_bit {mode : Nat} (h : mode &&& 0xf000 = ext2SIfdir) :
    mode &&& ext2SIfdir ≠ 0 := by
  have hbit : mode &&& ext2SIfdir = mode &&& 0xf000 &&& ext2SIfdir := by
    rw [Nat.and_assoc]
    rfl
  rw [hbit, h]
  decide

theorem printStays_iff (hinode : inode + 128 ≤ 131072)
    (hdir : m.load inode 2 &&& 0xf000 = ext2SIfdir)
    (hblocks : ∀ i < 12, blockAt m inode i < 128) : PrintStays m inode ↔
      ∀ b ∈ printedBlocks m inode, ChainsTo (printNext m b) (1024 ≤ ·) 0 := by
  have hread : read (iMode inode) 2 m = .ok (m.load inode 2) m :=
    read_apply _ (by simp only [iMode]) (by omega) m
  have hstays : PrintStays m inode ↔
      ∃ lines, printDirContents readWithin inode m = .ok lines m :=
    exists_congr fun lines => and_iff_right_of_imp (below_printDirContents _ _ _ _)
  rw [hstays, printedBlocks, List.range_eq_range',
    ← printBlocks_returns hinode hblocks (Nat.le_refl 12)]
  refine exists_congr fun lines => ?_
  rw [printDirContents, bind_of_ok hread, if_pos (directory_bit hdir)]

/-! ## The three scans -/

theorem stepStays_iff (hinode : inode + 128 ≤ 131072) (hb : blockAt m inode 0 < 128)
    (hstart : 0 ≤ start) (hlast : last < path.bytes.length) : StepStays m inode path start last ↔
      ChainsTo (stepNext m (blockAt m inode 0) (m.load (inode + 4) 4) (path.rest start last))
        (StepDone m (blockAt m inode 0) (m.load (inode + 4) 4) (path.rest start last)) 0 := by
  have hsize : read (iSize inode) 4 m = .ok (m.load (inode + 4) 4) m :=
    read_apply _ (by simp only [iSize]; omega) (by omega) m
  rw [StepStays, ← findEntry_returns hb (matchName_rest hstart hlast) _
    (show 1024 < blockSize + 1 by decide)]
  simp only [searchInode, bind_of_ok (read_blockAt hinode (show 0 < 12 by decide)),
    bind_of_ok hsize, blockOffset_of_lt (show blockAt m inode 0 < 4194304 by omega)]
  constructor
  · rintro ⟨found, h⟩
    obtain ⟨entry, u, hentry, -⟩ := bind_ok.mp h
    obtain rfl : m = u := (readOnly_findEntry _ _ _ _ _ _ _ _).of_ok hentry
    exact ⟨entry, hentry⟩
  · rintro ⟨entry, hentry⟩
    rw [bind_of_ok hentry]
    cases entry with
    | none => exact ⟨none, rfl⟩
    | some o => exact ⟨some (_, o), rfl⟩

/-- The scans of a directory end and stay inside its blocks exactly when the lengths lead to where
each of them is done. -/
theorem scansStay_iff (hinode : inode + 128 ≤ 131072)
    (hdir : m.load inode 2 &&& 0xf000 = ext2SIfdir)
    (hblocks : ∀ i < 12, blockAt m inode i < 128) (hstart : 0 ≤ start)
    (hlast : last < path.bytes.length) : ScansStay m inode fileType name path start last ↔
      LengthsLead m inode fileType name (path.rest start last) := by
  have hcheck : (∀ i < 12, CheckStays m (blockAt m inode i) fileType name) ↔ ∀ i < 12,
      m.load (blockAt m inode i * 1024) 4 = 0 ∨
        ChainsTo (checkNext m (blockAt m inode i) fileType name)
          (CheckDone m (blockAt m inode i) fileType name) 0 :=
    forall₂_congr fun i hi => checkStays_iff (hblocks i hi)
  rw [ScansStay, hcheck, stepStays_iff hinode (hblocks 0 (by decide)) hstart hlast,
    printStays_iff hinode hdir hblocks]
  constructor
  · rintro ⟨hcheck, hstep, hprint⟩
    exact ⟨hcheck, hstep, hprint⟩
  · intro h
    exact ⟨h.check, h.step, h.print⟩

/-! ## The root directory of the sample -/

/-- The scans of the root for `a` end inside its block. -/
theorem scansStay_sample : ScansStay (sample false) 5248 ext2FtDir [0x61] aPath 1 1 := by
  refine (scansStay_iff (by decide) (by decide +kernel) (by decide +kernel) (by decide)
    (by decide)).mpr ⟨fun i hi => ?_, ?_, ?_⟩
  · by_cases hfirst : i = 0
    · rw [hfirst]
      exact .inr ⟨24, [0, 12], .inr (by decide +kernel), rfl, 12, by decide +kernel, rfl, 24,
        by decide +kernel, rfl⟩
    · have hnull : ∀ i < 12, i ≠ 0 →
          (sample false).load (blockAt (sample false) 5248 i * 1024) 4 = 0 := by decide +kernel
      exact .inl (hnull i hi hfirst)
  · exact ⟨24, [0, 12], .inr (by decide +kernel), rfl, 12, by decide +kernel, rfl, 24,
      by decide +kernel, rfl⟩
  · have hprinted : printedBlocks (sample false) 5248 = [7] := by decide +kernel
    rw [hprinted, List.forall_mem_singleton]
    exact ⟨1024, [0, 12, 24], Nat.le_refl _, rfl, 12, by decide +kernel, rfl, 24,
      by decide +kernel, rfl, 1024, by decide +kernel, rfl⟩

/-- The sample with a root directory of two blocks. -/
def longer : Memory := (sample false).write 5252 (leBytes 4 2048)

/-- The search for `f` leaves the first of them: it goes on up to the size of the directory. -/
theorem not_scansStay : longer.load 5248 2 &&& 0xf000 = ext2SIfdir ∧
    (∀ i < 12, blockAt longer 5248 i < 128) ∧
    ¬ ScansStay longer 5248 ext2FtDir [0x66] fPath 1 1 := by
  refine ⟨by decide +kernel, by decide +kernel, ?_⟩
  rintro ⟨-, ⟨found, h⟩, -⟩
  have hstops : holds (searchInode fPath 1 1 true (5248 : Nat) longer) (fun _ _ => true) =
      false := by decide +kernel
  rw [h] at hstops
  cases hstops

end OsAssignments.Ext2
