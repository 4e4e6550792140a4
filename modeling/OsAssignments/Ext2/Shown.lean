import OsAssignments.Ext2.Found
import OsAssignments.Ext2.Scans

/-!
# What `ext2_ls` shows

The directory that `ext2_ls` prints is the one that the directory part of the path leads to, not
the one that the path names, and it prints every entry of it: deleted ones too, and `.` and `..`.
A path with fewer than two names has a directory part without a name, for which it follows a null
pointer. So where all directories have `.` and `..` it never prints what is asked for.
-/

namespace OsAssignments.Ext2

open Memory Program

variable {L : Layout} {m : Memory} {path : CString} {segments : List (Nat × List UInt8)}
  {trailing : Nat} {names : List (List UInt8)}

/-! ## What is asked for -/

/-- The names `.` and `..`. -/
def dots : List (List UInt8) := [[0x2e], [0x2e, 0x2e]]

namespace Layout

/-- The inode of the first live entry of a directory with the name. -/
def lookup (L : Layout) (m : Memory) (d : Nat) (name : List UInt8) : Option Nat :=
  ((L.entries m d).find? fun p => m.load p 4 ≠ 0 && entryNameAt m p = name).map fun p => m.load p 4

/-- The inode that the names lead to: the last name is looked up in the directory that the others
lead to, and without a name it is the root. -/
def named (L : Layout) (m : Memory) (names : List (List UInt8)) : Option Nat :=
  match names.getLast? with
  | none => some 2
  | some last => (L.follow m 2 names.dropLast).bind fun d => L.lookup m d last

/-- `S_ISREG` of an inode's mode. -/
def isRegular (L : Layout) (m : Memory) (n : Nat) : Bool :=
  m.load (L.inodeAt n) 2 &&& 0xf000 = ext2SIfreg

/-- The names of the live entries of a directory in their order, apart from `.` and `..`. -/
def listed (L : Layout) (m : Memory) (d : Nat) : List (List UInt8) :=
  (((L.entries m d).filter fun p => m.load p 4 ≠ 0).map (entryNameAt m)).filter (· ∉ dots)

/-- The names of all entries of a directory in its direct blocks before a null pointer. -/
def shown (L : Layout) (m : Memory) (d : Nat) : List (List UInt8) :=
  ((printedBlocks m (L.inodeAt d)).flatMap (blockEntries m)).map (entryNameAt m)

/-- What is asked for: the entries of a directory, the path or the name of a file, or the message
that nothing is there. -/
def Answers (L : Layout) (m : Memory) (path : CString) (names : List (List UInt8))
    (r : LsResult) : Prop :=
  match L.named m names with
  | none => r = .noSuchFile path.bytes
  | some n =>
    if L.isDirectory m n then r = .printed (L.listed m n)
    else if L.isRegular m n then
      r = .printed [path.bytes] ∨ ∃ last ∈ names.getLast?, r = .printed [last]
    else r = .noSuchFile path.bytes

/-- The names of all entries of the directory `d` are, in their order, the lines asked for. -/
def ShowsAsked (L : Layout) (m : Memory) (path : CString) (names : List (List UInt8))
    (d : Nat) : Prop :=
  ∃ n, L.named m names = some n ∧
    if L.isDirectory m n then L.shown m d = L.listed m n
    else L.isRegular m n = true ∧
      (L.shown m d = [path.bytes] ∨ ∃ last ∈ names.getLast?, L.shown m d = [last])

end Layout

/-- `ext2_ls` prints what is asked for. -/
def ListsPath (L : Layout) (m : Memory) (path : CString) (names : List (List UInt8)) : Prop :=
  ∃ r, ls path m = .ok r m ∧ L.Answers m path names r

theorem answers_printed (d : Nat) : L.Answers m path names (.printed (L.shown m d)) ↔
    L.ShowsAsked m path names d := by
  rw [Layout.Answers, Layout.ShowsAsked]
  cases L.named m names with
  | none =>
    refine iff_of_false (fun h => by cases h) ?_
    rintro ⟨n, hn, -⟩
    cases hn
  | some n =>
    simp only [Option.some.injEq, exists_eq_left']
    split
    · exact LsResult.printed.injEq _ _ ▸ Iff.rfl
    · split
      · next hregular => simp only [hregular, true_and, LsResult.printed.injEq]
      · next hregular =>
        exact iff_of_false (fun h => by cases h) fun h => hregular h.1

/-! ## Printing a directory -/

/-- All entries of a block are printed. -/
theorem printEntries_apply {b rounds offset : Nat} {offsets : List Nat} (hb : b < 128)
    (h : chain m b rounds offset = some offsets)
    (hnoNul : ∀ o ∈ offsets, 0 ∉ entryNameAt m (b * 1024 + o)) {r : Nat} (hr : rounds ≤ r) :
    printEntries read (b * 1024 : Nat) r offset m =
      .ok (offsets.map fun o => entryNameAt m (b * 1024 + o)) m := by
  rw [printEntries_chain hb h hr]
  congr 1
  exact List.map_congr_left fun o ho => List.takeWhile_eq_self_iff.mpr fun c hc =>
    decide_eq_true fun h0 => hnoNul o ho (h0 ▸ hc)

namespace SoundDirectories

variable {d : Nat}

theorem printBlocks_apply (h : SoundDirectories L m) (hused : L.inUse m d = true)
    (hdir : L.isDirectory m d = true) {rounds i : Nat} (hi : i + rounds ≤ 12) :
    printBlocks (fun _ => read) (L.inodeAt d) rounds i m =
      .ok (((((List.range' i rounds).map (blockAt m (L.inodeAt d))).takeWhile (· ≠ 0)).flatMap
        (blockEntries m)).map (entryNameAt m)) m := by
  obtain ⟨hlo, hhi, -⟩ := Layout.inUse_iff.mp hused
  have hbound := L.inodeAt_bound ⟨hlo, hhi⟩
  have hmapped := L.mapped
  induction rounds generalizing i with
  | zero => rfl
  | succ rounds ih =>
    rw [printBlocks, bind_of_ok (read_blockAt hbound.2 (by omega)), List.range'_succ, List.map_cons]
    by_cases hnull : blockAt m (L.inodeAt d) i = 0
    · rw [if_pos hnull, List.takeWhile_cons_of_neg (by simp [hnull])]
      rfl
    · have hmem : blockAt m (L.inodeAt d) i ∈ L.fileBlocks m d :=
        List.mem_append_left _ (List.mem_map.mpr ⟨i, List.mem_range.mpr (by omega), rfl⟩)
      obtain ⟨hlt, hchain⟩ := h.blocks d hused hdir _ hmem hnull
      obtain ⟨offsets, hoffsets⟩ := Option.isSome_iff_exists.mp hchain
      have hentries : blockEntries m (blockAt m (L.inodeAt d) i) =
          offsets.map (blockAt m (L.inodeAt d) i * 1024 + ·) := by
        rw [blockEntries, hoffsets]
        rfl
      have hnames := @printEntries_apply m _ 129 0 offsets (by omega) hoffsets (fun o ho =>
        (h.terminated d hused hdir _ (h.entry_block hused hdir hmem hnull
          (hentries ▸ List.mem_map.mpr ⟨o, ho, rfl⟩)).1).noNul) (blockSize + 1) (by decide)
      rw [if_neg hnull, List.takeWhile_cons_of_pos (by simp [hnull]), List.flatMap_cons,
        List.map_append, hentries, List.map_map, blockOffset_of_lt (by omega)]
      rw [bind_of_ok hnames, bind_of_ok (ih (by omega))]
      rfl

/-- All entries of a directory are printed. -/
theorem printDirContents_apply (h : SoundDirectories L m) (hused : L.inUse m d = true)
    (hdir : L.isDirectory m d = true) :
    printDirContents (fun _ => read) (L.inodeAt d) m = .ok (L.shown m d) m := by
  obtain ⟨hlo, hhi, -⟩ := Layout.inUse_iff.mp hused
  obtain ⟨-, hbound⟩ := L.inodeAt_bound ⟨hlo, hhi⟩
  have hread : read (iMode (L.inodeAt d)) 2 m = .ok (m.load (L.inodeAt d) 2) m :=
    read_apply _ (by simp only [iMode]) (by omega) m
  rw [printDirContents, bind_of_ok hread, if_pos (directory_bit (of_decide_eq_true hdir)),
    h.printBlocks_apply hused hdir (Nat.le_refl 12), Layout.shown, printedBlocks,
    List.range_eq_range']

end SoundDirectories

/-! ## `main` -/

/-- The directory of the entry is printed. -/
theorem ls_of_entry (h : SoundDirectories L m) {d p : Nat} (hused : L.inUse m d = true)
    (hdir : L.isDirectory m d = true) (hentry : findDirInode path m = .ok (some (p : Int)) m)
    (hin : p + 4 ≤ 131072) (hload : m.load p 4 = d) :
    ls path m = .ok (.printed (L.shown m d)) m := by
  obtain ⟨hlo, hhi, -⟩ := Layout.inUse_iff.mp hused
  have hinodes := L.inodes_le
  obtain ⟨-, hbound⟩ := L.inodeAt_bound ⟨hlo, hhi⟩
  have hnumber : read (entryInode p) 4 m = .ok d m := by
    rw [← hload]
    exact read_apply _ rfl hin m
  have hinode : getInode (toInt d) m = .ok (L.inodeAt d : Int) m := by
    rw [toInt_of_lt (by omega)]
    exact h.holds.getInode ⟨hlo, hhi⟩
  have hmode : read (iMode (L.inodeAt d)) 2 m = .ok (m.load (L.inodeAt d) 2) m :=
    read_apply _ (by simp only [iMode]) (by omega) m
  rw [ls, bind_of_ok hentry, require_bind rfl, bind_of_ok hnumber, bind_of_ok hinode,
    bind_of_ok hmode, if_pos (directory_bit (of_decide_eq_true hdir)),
    bind_of_ok (h.printDirContents_apply hused hdir)]
  rfl

/-! ## Paths -/

/-- The directory part of a path of slashes has no name, or no room for its slash. -/
theorem getDirName_slashes {k : Nat} (hbytes : path.bytes = List.replicate k slash) :
    getDirName path = none ∨ getDirName path = some [slash, slash] := by
  have htrimmed : (List.replicate k slash).dropWhile (· = slash) = [] := by
    have hall := dropWhile_slashes k []
    rwa [List.append_nil] at hall
  have hdirname : dirname path.bytes =
      if k = 0 then none else some (if k = 2 then [slash, slash] else [slash]) := by
    simp only [dirname, hbytes, List.reverse_replicate, htrimmed, if_true,
      List.replicate_eq_nil_iff, List.length_replicate]
  rw [getDirName, hdirname, hbytes, List.length_replicate]
  by_cases hnone : k = 0
  · rw [if_pos hnone]
    exact .inl rfl
  · rw [if_neg hnone]
    by_cases htwo : k = 2
    · rw [if_pos htwo]
      exact .inl (if_neg (by rw [htwo]; decide))
    · rw [if_neg htwo]
      by_cases hone : 1 < k
      · exact .inr (if_pos hone)
      · exact .inl (if_neg hone)

/-- It leads to no entry. -/
theorem findDirInode_slashes {k : Nat} (hbytes : path.bytes = List.replicate k slash)
    {entry : Option Int} {m' : Memory} (h : findDirInode path m = .ok entry m') :
    entry = none := by
  rw [findDirInode, bind_of_ok (getInode_apply 2 m)] at h
  rcases getDirName_slashes hbytes with hdir | hdir
  · rw [hdir] at h
    obtain ⟨nDir, u, hnDir, -⟩ := bind_ok.mp h
    cases hnDir
  · rw [require_bind hdir] at h
    have hstops := @followDirs_stops m [slash] (fun b hb => (Option.some.inj hb).symm) 2
    rw [show [slash, slash].length + 2 = 2 + 2 from rfl, hstops] at h
    cases h
    rfl

/-- Without an entry a null pointer is followed. -/
theorem ls_of_none (hnone : ∀ entry m', findDirInode path m = .ok entry m' → entry = none) :
    ¬ ListsPath L m path names := by
  rintro ⟨r, hr, -⟩
  rw [ls] at hr
  obtain ⟨entry, u, hentry, hr⟩ := bind_ok.mp hr
  obtain rfl := hnone entry u hentry
  obtain ⟨e, u, he, -⟩ := bind_ok.mp hr
  cases he

/-- Where there are names before the last one, the directory that they lead to is printed. -/
theorem ls_of_through (h : SoundDirectories L m) (hpath : Spells path segments trailing)
    (hsteady : L.SteadyAlong m 2 (followed segments.dropLast))
    (hne : followed segments.dropLast ≠ []) {d : Nat}
    (hthrough : through m (L.foundEntry m) 2 (followed segments.dropLast) = some d) :
    ls path m = .ok (.printed (L.shown m d)) m := by
  rcases List.eq_nil_or_concat' segments with rfl | ⟨dirs, last, rfl⟩
  · exact absurd rfl hne
  · rw [List.dropLast_concat] at hsteady hne hthrough
    obtain ⟨-, hhi, -⟩ := Layout.inUse_iff.mp h.root.1
    have hled := findDirInode_led h.holds hhi hpath
      (h.searchedAlong_found hpath.noNul h.root.1 h.root.2 hsteady)
    obtain ⟨p, hp, hin, hload⟩ := hled.found hne d hthrough
    obtain ⟨hused, hdir⟩ := h.through_sound h.root.1 h.root.2 hsteady hthrough
    exact ls_of_entry h hused hdir hp hin hload

/-- What is asked for is only printed as the entries of a directory that such names lead to. -/
theorem ListsPath.shows (h : SoundDirectories L m) (hpath : Spells path segments trailing)
    (hsteady : L.SteadyAlong m 2 (followed segments.dropLast))
    (hlists : ListsPath L m path names) : ∃ d, followed segments.dropLast ≠ [] ∧
      through m (L.foundEntry m) 2 (followed segments.dropLast) = some d ∧
      L.ShowsAsked m path names d := by
  have hled : ∃ d, followed segments.dropLast ≠ [] ∧
      through m (L.foundEntry m) 2 (followed segments.dropLast) = some d := by
    rcases List.eq_nil_or_concat' segments with rfl | ⟨dirs, last, rfl⟩
    · exact absurd hlists (ls_of_none fun _ _ => findDirInode_slashes hpath.bytes)
    · rw [List.dropLast_concat] at hsteady ⊢
      obtain ⟨-, hhi, -⟩ := Layout.inUse_iff.mp h.root.1
      have hled := findDirInode_led h.holds hhi hpath
        (h.searchedAlong_found hpath.noNul h.root.1 h.root.2 hsteady)
      by_cases hnil : followed dirs = []
      · refine absurd hlists (ls_of_none fun entry m' hentry => ?_)
        rw [hled.none_left hnil] at hentry
        cases hentry
        rfl
      · cases hthrough : through m (L.foundEntry m) 2 (followed dirs) with
        | none =>
          exact absurd hlists (ls_of_none fun _ _ hentry =>
            absurd hentry (hled.missing hthrough _ _))
        | some d => exact ⟨d, hnil, rfl⟩
  obtain ⟨d, hne, hthrough⟩ := hled
  obtain ⟨r, hr, hanswers⟩ := hlists
  rw [ls_of_through h hpath hsteady hne hthrough] at hr
  cases hr
  exact ⟨d, hne, hthrough, (answers_printed d).mp hanswers⟩

/-! ## Directories with `.` and `..` -/

/-- The directory begins with a block that has entries `.` and `..`. -/
def Layout.HasDots (L : Layout) (m : Memory) (d : Nat) : Prop :=
  L.word m d 0 ≠ 0 ∧ dots ⊆ (blockEntries m (L.word m d 0)).map (entryNameAt m)

/-- The names `.` and `..` are printed. -/
theorem Layout.HasDots.shown {d : Nat} (h : L.HasDots m d) : dots ⊆ L.shown m d := by
  obtain ⟨hne, hdots⟩ := h
  have hfirst : L.word m d 0 ∈ printedBlocks m (L.inodeAt d) := by
    have hword : blockAt m (L.inodeAt d) 0 ≠ 0 := hne
    rw [printedBlocks, List.range_succ_eq_map, List.map_cons,
      List.takeWhile_cons_of_pos (by simpa using hword)]
    exact List.mem_cons_self
  rw [Layout.shown, List.map_flatMap]
  exact fun name hname => List.mem_flatMap.mpr ⟨_, hfirst, hdots hname⟩

end OsAssignments.Ext2
