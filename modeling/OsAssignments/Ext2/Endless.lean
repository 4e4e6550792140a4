import OsAssignments.Ext2.Journal
import OsAssignments.Ext2.Scans

/-!
# Directories that cannot be listed

An entry that a run adds has a block of its own and the length of its name and header, and the
rest of the block is zero. The loops of the other tools go from entry to entry by the lengths, so
that behind the new entry they stand still. From the first run that adds to a directory with a null
direct pointer on, `ext2_ls` does not end on that directory, and the search of `ext2_rm` for a name
there never says that it is missing.
-/

namespace OsAssignments.Ext2

open Memory Program

variable {L : Layout} {m m' : Memory} {c : Command}

/-! ## Blocks on which loops stand still -/

/-- Behind the first entry of a block, which is live and has room for its name, comes one without
length, name and type. -/
structure Standing (m : Memory) (b : Nat) : Prop where
  live : m.load (b * 1024) 4 ≠ 0
  named : 8 + m.load (b * 1024 + 6) 1 ≤ m.load (b * 1024 + 4) 2
  inside : m.load (b * 1024 + 4) 2 + 8 ≤ 1024
  length : m.load (b * 1024 + m.load (b * 1024 + 4) 2 + 4) 2 = 0
  unnamed : m.load (b * 1024 + m.load (b * 1024 + 4) 2 + 6) 1 = 0
  kind : m.load (b * 1024 + m.load (b * 1024 + 4) 2 + 7) 1 = 0

/-- Where the loops stand depends on the bytes of the block only. -/
theorem Standing.congr {b : Nat} (h : Standing m b) (hsame : ∀ a, a / 1024 = b → m' a = m a) :
    Standing m' b := by
  have hload : ∀ i k, i + k ≤ 1024 → m'.load (b * 1024 + i) k = m.load (b * 1024 + i) k :=
    fun i k hik => load_congr fun j hj => hsame _ (by omega)
  have hinside := h.inside
  have hfirst := hload 4 2 (by decide)
  have hlive := hload 0 4 (by decide)
  rw [Nat.add_zero] at hlive
  refine ⟨hlive ▸ h.live, ?_, hfirst ▸ hinside, ?_, ?_, ?_⟩
  · rw [hfirst, hload 6 1 (by decide)]
    exact h.named
  · rw [hfirst, Nat.add_assoc, hload _ 2 (by omega), ← Nat.add_assoc, h.length]
  · rw [hfirst, Nat.add_assoc, hload _ 1 (by omega), ← Nat.add_assoc, h.unnamed]
  · rw [hfirst, Nat.add_assoc, hload _ 1 (by omega), ← Nat.add_assoc, h.kind]

/-- They stand still in a block that was cleared and got one entry. -/
theorem standing_withEntry {b fileType inode : Nat} {name : List UInt8}
    (hinode : 1 ≤ inode ∧ inode < 2 ^ 32) (hname : name.length ≤ 255)
    (h : ∀ a, a / 1024 = b → m' a =
      withEntry (m.fill (b * 1024) 1024 0) (b * 1024) fileType inode (name.length + 8) name a) :
    Standing m' b := by
  refine Standing.congr (m := withEntry (m.fill (b * 1024) 1024 0) (b * 1024) fileType inode
    (name.length + 8) name) ?_ h
  obtain ⟨hnumber, hrec, hlen, -⟩ :=
    withEntry_header (m.fill (b * 1024) 1024 0) (b * 1024) fileType inode (name.length + 8) name
  generalize hfilled : withEntry (m.fill (b * 1024) 1024 0) (b * 1024) fileType inode
    (name.length + 8) name = filled at hnumber hrec hlen
  rw [Nat.mod_eq_of_lt (by omega)] at hnumber hrec hlen
  have hzero : ∀ i k, i + k ≤ 8 →
      filled.load (b * 1024 + (name.length + 8) + i) k = 0 := by
    intro i k hik
    have hsame : ∀ j < k, filled (b * 1024 + (name.length + 8) + i + j) =
        (m.fill (b * 1024) 1024 0) (b * 1024 + (name.length + 8) + i + j) :=
      fun j hj => by rw [← hfilled, withEntry_apply_of_outside (by omega)]
    rw [load_congr hsame]
    exact load_fill_zero (by omega)
  refine ⟨by omega, by omega, by omega, ?_, ?_, ?_⟩
  · rw [hrec]
    exact hzero 4 2 (by decide)
  · rw [hrec]
    exact hzero 6 1 (by decide)
  · rw [hrec]
    exact hzero 7 1 (by decide)

/-! ## Listing -/

/-- A round of the loop prints the name of an entry that fits into the block, and goes on behind
the entry. -/
theorem printEntries_succ {b o rounds : Nat} (hb : b < 128)
    (hfits : o + 8 + m.load (b * 1024 + o + 6) 1 ≤ 1024) :
    printEntries read (b * 1024 : Nat) (rounds + 1) o m =
      (do return (entryNameAt m (b * 1024 + o)).takeWhile (· ≠ 0) ::
        (← printEntries read (b * 1024 : Nat) rounds (o + m.load (b * 1024 + o + 4) 2))) m := by
  have hlen : read (entryNameLen ((b * 1024 : Nat) + o)) 1 m =
      .ok (m.load (b * 1024 + o + 6) 1) m :=
    read_apply _ (by simp only [entryNameLen]; omega) (by omega) m
  have hname : copyString read (entryName ((b * 1024 : Nat) + o)) (m.load (b * 1024 + o + 6) 1) m =
      .ok ((entryNameAt m (b * 1024 + o)).takeWhile (· ≠ 0)) m := by
    rw [show entryName ((b * 1024 : Nat) + o) = (b * 1024 + o + 8 : Nat) from rfl]
    exact (copyString_ok (reads_read m) (Nat.zero_le _)).mpr
      ⟨rfl, copied_of_le (by omega), rfl⟩
  have hrec : read (entryRecLen ((b * 1024 : Nat) + o)) 2 m =
      .ok (m.load (b * 1024 + o + 4) 2) m :=
    read_apply _ (by simp only [entryRecLen]; omega) (by omega) m
  rw [printEntries, if_pos (by simp only [blockSize]; omega), bind_of_ok hlen, bind_of_ok hname,
    bind_of_ok hrec]

/-- The loop never leaves an entry without length and name. -/
theorem printEntries_loop {b o : Nat} (hb : b < 128) (ho : o + 8 ≤ 1024)
    (hlength : m.load (b * 1024 + o + 4) 2 = 0) (hname : m.load (b * 1024 + o + 6) 1 = 0)
    (rounds : Nat) : printEntries read (b * 1024 : Nat) rounds o m = .error .loop m := by
  induction rounds with
  | zero => rfl
  | succ rounds ih =>
    rw [printEntries_succ hb (by omega), hlength, Nat.add_zero]
    exact bind_of_error ih

/-- In a block where the loops stand still it never ends. -/
theorem Standing.printEntries_loop {b : Nat} (h : Standing m b) (hb : b < 128) (rounds : Nat) :
    printEntries read (b * 1024 : Nat) rounds 0 m = .error .loop m := by
  have hnamed := h.named
  have hinside := h.inside
  cases rounds with
  | zero => rfl
  | succ rounds =>
    rw [printEntries_succ hb (by simp only [Nat.add_zero]; omega), Nat.add_zero, Nat.zero_add]
    exact bind_of_error (Ext2.printEntries_loop hb hinside h.length h.unnamed rounds)

/-- The loops stand still in block `i` of directory `p`, and no null pointer is before it. -/
structure Layout.StandsAt (L : Layout) (m : Memory) (p i : Nat) : Prop where
  direct : i < 12
  mapped : ∀ j ≤ i, L.word m p j ≠ 0 ∧ L.word m p j < 128
  standing : Standing m (L.word m p i)

/-- The lengths of the entries lead to the end of each direct block of directory `p`. -/
def Layout.Chained (L : Layout) (m : Memory) (p : Nat) : Prop :=
  ∀ j < 12, L.word m p j ≠ 0 → (chain m (L.word m p j) 129 0).isSome = true

/-- The loop over the blocks of the directory comes to that block. -/
theorem Layout.StandsAt.printBlocks_loop {p i : Nat} (h : L.StandsAt m p i)
    (hbefore : ∀ j < i, (chain m (L.word m p j) 129 0).isSome = true)
    (hp : 1 ≤ p ∧ p ≤ L.inodes) :
    printBlocks (fun _ => read) (L.inodeAt p) 12 0 m = .error .loop m := by
  have hi := h.direct
  have hloop : ∀ rounds k, k ≤ i → i < k + rounds →
      printBlocks (fun _ => read) (L.inodeAt p) rounds k m = .error .loop m := by
    intro rounds
    induction rounds with
    | zero =>
      intro k hk hlt
      omega
    | succ rounds ih =>
      intro k hk hlt
      obtain ⟨hne, hmapped⟩ := h.mapped k hk
      rw [printBlocks, bind_of_ok (L.read_word hp (by omega) m), if_neg hne,
        blockOffset_of_lt (by omega)]
      by_cases hki : k = i
      · subst hki
        exact bind_of_error (h.standing.printEntries_loop hmapped _)
      · obtain ⟨offsets, hoffsets⟩ := Option.isSome_iff_exists.mp (hbefore k (by omega))
        rw [bind_of_ok (printEntries_chain hmapped hoffsets (by decide))]
        exact bind_of_error (ih (k + 1) (by omega) (by omega))
  exact hloop 12 0 (Nat.zero_le i) (by omega)

/-- `ext2_ls` does not end where its path leads to the directory. -/
theorem Layout.StandsAt.ls_loop {p i a : Nat} {path : CString} (h : L.StandsAt m p i)
    (hbefore : ∀ j < i, (chain m (L.word m p j) 129 0).isSome = true) (hm : L.Holds m)
    (hp : 1 ≤ p ∧ p ≤ L.inodes) (hdir : L.isDirectory m p = true)
    (hfind : findDirInode path m = .ok (some (a : Int)) m) (hnumber : m.load a 4 = p) :
    ls path m = .error .loop m := by
  obtain ⟨a', haa, ha⟩ := findDirInode_mapped hfind
  obtain rfl : a = a' := Int.ofNat.inj haa
  have hinodes := L.inodes_le
  obtain ⟨-, hbound⟩ := L.inodeAt_bound hp
  have hread : read (entryInode a) 4 m = .ok p m := by
    rw [← hnumber]
    exact read_apply _ rfl ha m
  have hinode : getInode (toInt p) m = .ok (L.inodeAt p : Int) m := by
    rw [toInt_of_lt (by omega)]
    exact hm.getInode hp
  have hmode : read (iMode (L.inodeAt p)) 2 m = .ok (m.load (L.inodeAt p) 2) m :=
    read_apply _ (by simp only [iMode]) (by omega) m
  have hbit := directory_bit (of_decide_eq_true hdir)
  rw [ls, bind_of_ok hfind, require_bind rfl, bind_of_ok hread, bind_of_ok hinode,
    bind_of_ok hmode, if_pos hbit]
  refine bind_of_error ?_
  rw [printDirContents, bind_of_ok hmode, if_pos hbit]
  exact h.printBlocks_loop hbefore hp

/-! ## Searching -/

/-- A round of the loop of `check_inode_block` finds the entry, leaves at the end of the block, or
goes on behind the entry. -/
theorem scanEntries_succ {b o fType rounds : Nat} {name : List UInt8} {found : Option Int}
    (h : scanEntries (b * 1024 : Nat) name fType (rounds + 1) (b * 1024 + o : Nat) m =
      .ok found m) : o = 1024 ∨
      found = some ((b * 1024 + o : Nat) : Int) ∧ m.load (b * 1024 + o + 7) 1 = fType ∨
      scanEntries (b * 1024 : Nat) name fType rounds
        (b * 1024 + o + m.load (b * 1024 + o + 4) 2 : Nat) m = .ok found m := by
  rw [← scanEntriesIn_read, scanEntriesIn_ok (reads_read m) (Nat.zero_le _)] at h
  split at h
  · exact .inl (by omega)
  · obtain ⟨-, ⟨hkind, -, hfound⟩ | ⟨-, hrest⟩⟩ := h
    · exact .inr (.inl ⟨hfound, hkind⟩)
    · rw [scanEntriesIn_read] at hrest
      exact .inr (.inr hrest)

/-- The loop does not leave an entry of another type without length. -/
theorem not_scanEntries {b o fType : Nat} {name : List UInt8} (ho : o < 1024)
    (hzero : m.load (b * 1024 + o + 4) 2 = 0) (hkind : m.load (b * 1024 + o + 7) 1 ≠ fType)
    (rounds : Nat) (found : Option Int) :
    scanEntries (b * 1024 : Nat) name fType rounds (b * 1024 + o : Nat) m ≠ .ok found m := by
  induction rounds with
  | zero =>
    intro h
    cases h
  | succ rounds ih =>
    intro h
    rcases scanEntries_succ h with hend | ⟨-, htype⟩ | hrest
    · omega
    · exact hkind htype
    · rw [hzero, Nat.add_zero] at hrest
      exact ih hrest

/-- In a block where the loops stand still the search does not say that the name is missing. -/
theorem Standing.not_checkInodeBlock {b fType : Nat} {name : List UInt8} (h : Standing m b)
    (hb : b < 128) (htype : fType ≠ 0) :
    checkInodeBlock (toInt b) name fType m ≠ .ok none m' := by
  intro hcheck
  obtain rfl := (readOnly_checkInodeBlock _ _ _).of_ok hcheck
  rw [toInt_of_lt (by omega), checkInodeBlock] at hcheck
  obtain ⟨number, u, hread, hcheck⟩ := bind_ok.mp hcheck
  obtain ⟨q, hq, -, rfl, rfl⟩ := read_ok.mp hread
  have horigin : (b : Int) * blockSize = (b * 1024 : Nat) := by
    rw [show blockSize = 1024 from rfl, Int.natCast_mul]
  rw [horigin] at hq hcheck
  obtain rfl : q = b * 1024 := Int.ofNat.inj hq.symm
  rw [if_neg h.live] at hcheck
  have hinside := h.inside
  have hlength := h.length
  have hkind := h.kind
  have hscan : scanEntries (b * 1024 : Nat) name fType (imageSize + 1) (b * 1024 + 0 : Nat) m =
      .ok none m := by
    simpa only [Nat.add_zero] using hcheck
  rcases scanEntries_succ hscan with hend | ⟨hfound, -⟩ | hrest
  · omega
  · cases hfound
  · rw [Nat.add_zero] at hrest
    exact not_scanEntries (by omega) hlength (fun heq => htype (heq.symm.trans hkind)) _ _ hrest

/-- Nor does the search in all direct blocks of the directory. -/
theorem Layout.StandsAt.not_findSubDirInode {p i fType : Nat} {name : List UInt8}
    (h : L.StandsAt m p i) (hp : 1 ≤ p ∧ p ≤ L.inodes) (htype : fType ≠ 0) :
    findSubDirInode name (L.inodeAt p) fType m ≠ .ok none m' := by
  have hi := h.direct
  have hloop : ∀ rounds k, k ≤ i → i < k + rounds → ∀ m' : Memory,
      findAmong name (L.inodeAt p) fType rounds k m ≠ .ok none m' := by
    intro rounds
    induction rounds with
    | zero =>
      intro k hk hlt
      omega
    | succ rounds ih =>
      intro k hk hlt m' hfind
      rw [findAmong, bind_of_ok (L.read_word hp (by omega) m)] at hfind
      obtain ⟨found, u, hcheck, hfind⟩ := bind_ok.mp hfind
      obtain rfl := (readOnly_checkInodeBlock _ _ _).of_ok hcheck
      cases found with
      | some entry => cases hfind
      | none =>
        by_cases hki : k = i
        · rw [hki] at hcheck
          exact h.standing.not_checkInodeBlock (h.mapped i (Nat.le_refl i)).2 htype hcheck
        · exact ih (k + 1) (by omega) (by omega) m' hfind
  exact hloop 12 0 (Nat.zero_le i) (by omega) m'

/-! ## Sequences of runs -/

namespace Hands

variable {parent n e d a : Nat} {q : Pointer} {name : List UInt8}

/-- A pointer that is not null goes through the run unchanged. -/
theorem word_kept (h : Hands L c parent n e d a q name m m') {p j : Nat}
    (hp : L.inUse m p = true) (hj : j < 12) (hne : L.word m p j ≠ 0) :
    L.word m' p j = L.word m p j := by
  refine h.direct_kept hp hj fun heq => hne ?_
  obtain ⟨rfl, rfl⟩ := Prod.mk.inj heq
  have hslot := h.slot
  cases hslot
  exact h.null

/-- So does the block that it leads to. -/
theorem direct_apply (h : Hands L c parent n e d a q name m m') {p j y : Nat}
    (hp : L.inUse m p = true) (hj : j < 12) (hne : L.word m p j ≠ 0)
    (hy : y / 1024 = L.word m p j) : m' y = m y :=
  h.block_kept (show Pointer.direct ⟨j, hj⟩ ≠ .indirect from Pointer.noConfusion)
    (Layout.held_eq_some_iff.mpr ⟨hp, _, rfl, rfl, hne⟩) hy

/-- Where the loops stand still they do so after the run. -/
theorem standsAt_kept (h : Hands L c parent n e d a q name m m') {p i : Nat}
    (hp : L.inUse m p = true) (hs : L.StandsAt m p i) : L.StandsAt m' p i := by
  have hi := hs.direct
  have hword : ∀ j ≤ i, L.word m' p j = L.word m p j := fun j hj =>
    h.word_kept hp (by omega) (hs.mapped j hj).1
  refine ⟨hi, fun j hj => hword j hj ▸ hs.mapped j hj, ?_⟩
  rw [hword i (Nat.le_refl i)]
  exact hs.standing.congr fun y hy => h.direct_apply hp hi (hs.mapped i (Nat.le_refl i)).1 hy

/-- The first null pointer of another directory stays the first. -/
theorem firstNull_kept (h : Hands L c parent n e d a q name m m') {p i : Nat}
    (hp : L.inUse m p = true) (hne : p ≠ parent) (hi : L.FirstNull m p i) :
    L.FirstNull m' p i := by
  have hi12 := hi.direct
  have hword : ∀ j < 12, L.word m' p j = L.word m p j := fun j hj =>
    h.direct_kept hp hj fun heq => hne (Prod.mk.inj heq).1
  exact ⟨hi12, (hword i hi12).trans hi.null, fun j hj => hword j (by omega) ▸ hi.before j hj⟩

/-- After the run they stand still in its directory, when that had a null direct pointer. -/
theorem standsAt_new {i : Nat} (h : Hands L c parent n e d a q name m m')
    (hi : L.FirstNull m parent i) : L.StandsAt m' parent i := by
  have hword : L.word m' parent i = e := by
    have hheld := h.held_spot
    rw [h.first i hi] at hheld
    obtain ⟨-, a', ha', hload, -⟩ := Layout.held_eq_some_iff.mp hheld
    cases ha'
    exact hload
  obtain ⟨hpos, hgranted, -, -⟩ := h.lands.picked h.owned
  have hinside := hgranted.inside
  have hmapped := L.mapped
  have hinodes := L.inodes_le
  have hnumbered := h.numbered
  have hi12 := hi.direct
  refine ⟨hi12, fun j hj => ?_, ?_⟩
  · by_cases hji : j = i
    · rw [hji, hword]
      omega
    · have hne := hi.before j (by omega)
      have hbacked := h.owned.backed h.lands.used
      have hdirect := (hbacked.granted (.direct ⟨j, by omega⟩) _ rfl hne).inside
      rw [h.word_kept h.lands.used (by omega) hne]
      exact ⟨hne, Nat.lt_of_lt_of_le hdirect hmapped⟩
  · rw [hword]
    exact standing_withEntry ⟨hnumbered.1, by omega⟩ (h.lands.length_le h.named)
      (h.block h.spot_ne)

end Hands

/-- After a sequence that adds to a directory with a null direct pointer the loops stand still in
the block that the first one has come to lead to. -/
theorem standsAt_of_runs {cs : List Command} {p i : Nat} (h : Owned L (L.inUse m) m)
    (hruns : Guarded Command.run (fun c => c.SparesOwners L) cs m m') (hp : L.inUse m p = true)
    (hcase : L.StandsAt m p i ∨ L.FirstNull m p i ∧ ∃ r ∈ journal cs m, r.parent = p) :
    L.StandsAt m' p i := by
  induction hruns with
  | nil =>
    rcases hcase with hstands | ⟨-, r, hr, -⟩
    · exact hstands
    · cases hr
  | @cons c cs s t u hc hrun hrest ih =>
    obtain ⟨parent, n, e, d, a, q, name, hands⟩ := hc.hands h hrun
    refine ih (hc.owned h hrun) (hands.used_of_used hp) ?_
    rcases hcase with hstands | ⟨hfirst, r, hr, hparent⟩
    · exact .inl (hands.standsAt_kept hp hstands)
    · by_cases hpp : p = parent
      · subst hpp
        exact .inl (hands.standsAt_new hfirst)
      · rw [hands.journal_cons hrun] at hr
        rcases List.mem_cons.mp hr with rfl | hr
        · exact absurd hparent.symm hpp
        · exact .inr ⟨hands.firstNull_kept hp hpp hfirst, r, hr, hparent⟩

/-- A pointer that is not null, and the block that it leads to, go through a sequence unchanged. -/
theorem direct_of_runs {cs : List Command} {p j : Nat} (h : Owned L (L.inUse m) m)
    (hruns : Guarded Command.run (fun c => c.SparesOwners L) cs m m') (hp : L.inUse m p = true)
    (hj : j < 12) (hne : L.word m p j ≠ 0) :
    L.word m' p j = L.word m p j ∧ ∀ y, y / 1024 = L.word m p j → m' y = m y := by
  induction hruns with
  | nil => exact ⟨rfl, fun _ _ => rfl⟩
  | @cons c cs s t u hc hrun hrest ih =>
    obtain ⟨parent, n, e, d, a, q, name, hands⟩ := hc.hands h hrun
    have hword := hands.word_kept hp hj hne
    obtain ⟨hword', hblock'⟩ := ih (hc.owned h hrun) (hands.used_of_used hp) (hword ▸ hne)
    rw [hword] at hword' hblock'
    exact ⟨hword', fun y hy => (hblock' y hy).trans (hands.direct_apply hp hj hne hy)⟩

theorem owned_of_runs {cs : List Command} (h : Owned L (L.inUse m) m)
    (hruns : Guarded Command.run (fun c => c.SparesOwners L) cs m m') :
    Owned L (L.inUse m') m' := by
  have hstep : ∀ (c : Command) (s t : Memory), c.SparesOwners L s → c.run s = .ok () t →
      Owned L (L.inUse s) s → Owned L (L.inUse t) t := fun _ _ _ hc hrun hs => hc.owned hs hrun
  exact hruns.induction hstep h

/-- The inodes in use keep their modes. -/
theorem isDirectory_of_runs {cs : List Command} {p : Nat} (h : Owned L (L.inUse m) m)
    (hruns : Guarded Command.run (fun c => c.SparesOwners L) cs m m')
    (hp : L.inUse m p = true) : L.isDirectory m' p = L.isDirectory m p := by
  induction hruns with
  | nil => rfl
  | cons hc hrun hrest ih =>
    obtain ⟨parent, n, e, d, a, q, name, hands⟩ := hc.hands h hrun
    rw [ih (hc.owned h hrun) (hands.used_of_used hp), hands.isDirectory_eq h hands.lands hp]

/-- After a sequence that adds to a directory with a null direct pointer and sound blocks, `ext2_ls`
does not end on that directory: there is a block in which no number of rounds of its loop
suffices. -/
theorem ls_loop_of_spared {cs : List Command} {p i a : Nat} {path : CString} (h : Consistent L m)
    (hruns : Guarded Command.run (fun c => c.SparesOwners L) cs m m')
    (hp : L.inUse m p = true) (hdir : L.isDirectory m p = true) (hchained : L.Chained m p)
    (hi : i < 12) (hnull : L.word m p i = 0) (hadds : ∃ r ∈ journal cs m, r.parent = p)
    (hfind : findDirInode path m' = .ok (some (a : Int)) m') (hnumber : m'.load a 4 = p) :
    ls path m' = .error .loop m' ∧ ∃ b ∈ L.fileBlocks m' p, ∀ rounds,
      printEntries read (b * 1024 : Nat) rounds 0 m' = .error .loop m' := by
  obtain ⟨k, hk⟩ := Layout.exists_firstNull hi hnull
  have hstands := standsAt_of_runs h.owned hruns hp (.inr ⟨hk, hadds⟩)
  have hk12 := hk.direct
  have hbefore : ∀ j < k, (chain m' (L.word m' p j) 129 0).isSome = true := fun j hj => by
    obtain ⟨hword, hblock⟩ := direct_of_runs h.owned hruns hp (by omega) (hk.before j hj)
    rw [hword, chain_congr hblock]
    exact hchained j (by omega) (hk.before j hj)
  refine ⟨hstands.ls_loop hbefore ?_ (h.owned.numbered p hp) ?_ hfind hnumber, L.word m' p k,
    ?_, hstands.standing.printEntries_loop (hstands.mapped k (Nat.le_refl k)).2⟩
  · exact (owned_of_runs h.owned hruns).holds
  · rw [isDirectory_of_runs h.owned hruns hp, hdir]
  · exact List.mem_append_left _ (List.mem_map.mpr ⟨k, List.mem_range.mpr hk12, rfl⟩)

theorem ls_loop_of_spared_sample : ∃ m', ls abPath m' = .error .loop m' := by
  obtain ⟨_, m', hrun, hq⟩ := exists_of_holds
    (show holds ((Command.mkdir acPath).run sampleWith) (fun _ m' =>
      holds (findDirInode abPath m') (fun entry _ => entry = some 7192) &&
        m'.load 7192 4 = 11) = true by decide +kernel)
  rw [Bool.and_eq_true, decide_eq_true_iff] at hq
  obtain ⟨hfind, hnumber⟩ := hq
  obtain ⟨entry, u, hfind, hentry⟩ := exists_of_holds hfind
  obtain rfl := of_decide_eq_true hentry
  obtain rfl := (readOnly_findDirInode _).of_ok hfind
  have hchained : sampleLayout.Chained (sample true) 11 := by
    have hall : ∀ j < 12, sampleLayout.word (sample true) 11 j ≠ 0 →
        (chain (sample true) (sampleLayout.word (sample true) 11 j) 129 0).isSome = true := by
      decide +kernel
    exact hall
  refine ⟨m', (ls_loop_of_spared (consistent_sample true) (p := 11) (i := 1)
    (.cons sparesOwners_sample run_sample (.cons sparesOwners_sampleWith hrun .nil))
    (by decide +kernel) (by decide +kernel) hchained (by decide) (by decide +kernel) ?_ hfind
    hnumber).1⟩
  rw [journal_sample]
  exact ⟨_, List.mem_cons_self, rfl⟩

/-- Nor does the search of `ext2_rm` for a file or a directory say that the name is missing. -/
theorem not_missing_of_spared {cs : List Command} {p i fType : Nat} {name : List UInt8}
    {u : Memory} (h : Consistent L m)
    (hruns : Guarded Command.run (fun c => c.SparesOwners L) cs m m')
    (hp : L.inUse m p = true) (hi : i < 12) (hnull : L.word m p i = 0)
    (hadds : ∃ r ∈ journal cs m, r.parent = p) (htype : fType ≠ 0) :
    findSubDirInode name (L.inodeAt p) fType m' ≠ .ok none u := by
  obtain ⟨k, hk⟩ := Layout.exists_firstNull hi hnull
  have hstands := standsAt_of_runs h.owned hruns hp (.inr ⟨hk, hadds⟩)
  exact hstands.not_findSubDirInode (h.owned.numbered p hp) htype

theorem not_missing_of_spared_sample : ∃ m', ∀ u,
    findSubDirInode [0x66] (sampleLayout.inodeAt 11) ext2FtRegFile m' ≠ .ok none u := by
  obtain ⟨m', hruns⟩ := guarded_sample
  refine ⟨m', fun u => not_missing_of_spared (consistent_sample true) hruns (i := 1)
    (by decide +kernel) (by decide) (by decide +kernel) ?_ (by decide)⟩
  rw [journal_sample]
  exact ⟨_, List.mem_cons_self, rfl⟩

end OsAssignments.Ext2
