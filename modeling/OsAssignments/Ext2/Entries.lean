import OsAssignments.Ext2.Runs
import OsAssignments.Ext2.Picks

/-!
# Directory entries

The names in a directory are those of the live entries of its blocks. A search looks at the
first block only, at deleted entries too, and takes an entry whose C string is a prefix of the
name that is searched.
-/

namespace OsAssignments.Ext2

open Memory Program

variable {L : Layout} {m m' : Memory}

/-! ## Names -/

/-- The bytes of the name of the entry at an offset of a block. -/
def nameAt (m : Memory) (b offset : Nat) : List UInt8 :=
  m.bytes (b * 1024 + offset + 8) (m.load (b * 1024 + offset + 6) 1)

/-- Whether the entry at an offset of a block names an inode. -/
def liveAt (m : Memory) (b offset : Nat) : Bool := m.load (b * 1024 + offset) 4 ≠ 0

/-- The names of the live entries of a block from `offset` on, up to an entry of length 0 or one
that does not fit into the block. -/
def liveNames (m : Memory) (b : Nat) : Nat → Nat → List (List UInt8)
  | 0, _ => []
  | rounds + 1, offset =>
    let recLen := m.load (b * 1024 + offset + 4) 2
    if offset + 8 + m.load (b * 1024 + offset + 6) 1 ≤ 1024 then
      (if liveAt m b offset then [nameAt m b offset] else []) ++
        if recLen = 0 then [] else liveNames m b rounds (offset + recLen)
    else []

/-- The names in the blocks of a directory. -/
def Layout.names (L : Layout) (m : Memory) (n : Nat) : List (List UInt8) :=
  ((L.fileBlocks m n).filter (· ≠ 0)).flatMap fun b => liveNames m b 1024 0

/-- The header of an entry lies in the block of the entry. -/
theorem load_header {b offset : Nat} (h : ∀ a, a / 1024 = b → m' a = m a)
    (hin : offset + 8 ≤ 1024) (i k : Nat) (hik : i + k ≤ 8) :
    m'.load (b * 1024 + offset + i) k = m.load (b * 1024 + offset + i) k :=
  load_congr fun _ _ => h _ (by omega)

/-- The names in a block depend on its bytes only. -/
theorem liveNames_congr {b : Nat} (h : ∀ a, a / 1024 = b → m' a = m a) (rounds offset : Nat) :
    liveNames m' b rounds offset = liveNames m b rounds offset := by
  induction rounds generalizing offset with
  | zero => rfl
  | succ rounds ih =>
    by_cases hin : offset + 8 ≤ 1024
    · have hload : ∀ i k, i + k ≤ 8 →
          m'.load (b * 1024 + offset + i) k = m.load (b * 1024 + offset + i) k := load_header h hin
      rw [liveNames, liveNames, hload 6 1 (by decide), hload 4 2 (by decide)]
      by_cases hfits : offset + 8 + m.load (b * 1024 + offset + 6) 1 ≤ 1024
      · have hname : nameAt m' b offset = nameAt m b offset := by
          rw [nameAt, nameAt, hload 6 1 (by decide)]
          exact bytes_congr fun j hj => h _ (by omega)
        have hnumber : m'.load (b * 1024 + offset) 4 = m.load (b * 1024 + offset) 4 :=
          load_congr fun j hj => h _ (by omega)
        have hlive : liveAt m' b offset = liveAt m b offset := by rw [liveAt, liveAt, hnumber]
        simp only [if_pos hfits, hname, hlive, ih]
      · simp only [if_neg hfits]
    · rw [liveNames, liveNames, if_neg (by omega), if_neg (by omega)]

/-! ## Sound blocks -/

/-- The entries of a block depend on its bytes only. -/
theorem entryOffsets_congr {b : Nat} (h : ∀ a, a / 1024 = b → m' a = m a) (rounds offset : Nat) :
    entryOffsets m' b rounds offset = entryOffsets m b rounds offset := by
  induction rounds generalizing offset with
  | zero => rfl
  | succ rounds ih =>
    by_cases hin : offset + 8 ≤ 1024
    · have hload : ∀ i k, i + k ≤ 8 →
          m'.load (b * 1024 + offset + i) k = m.load (b * 1024 + offset + i) k := load_header h hin
      simp only [entryOffsets, hload 4 2 (by decide), hload 6 1 (by decide), ih]
    · simp only [entryOffsets, hin, false_and, ite_false]

/-- What the first round of a sound chain meets: the end of the block, or an entry before the
rest. -/
theorem entryOffsets_succ {b rounds offset : Nat} {offsets : List Nat}
    (h : entryOffsets m b (rounds + 1) offset = some offsets) :
    offset = 1024 ∧ offsets = [] ∨ offset ≠ 1024 ∧
      (offset + 8 ≤ 1024 ∧ m.load (b * 1024 + offset + 4) 2 % 4 = 0 ∧
        8 + m.load (b * 1024 + offset + 6) 1 ≤ m.load (b * 1024 + offset + 4) 2) ∧
      ∃ rest, entryOffsets m b rounds (offset + m.load (b * 1024 + offset + 4) 2) = some rest ∧
        offsets = offset :: rest := by
  rw [entryOffsets] at h
  by_cases hend : offset = 1024
  · rw [if_pos hend] at h
    exact .inl ⟨hend, (Option.some.inj h).symm⟩
  · rw [if_neg hend] at h
    split at h
    · next hentry =>
      obtain ⟨rest, hrest, hoffsets⟩ := Option.map_eq_some_iff.mp h
      exact .inr ⟨hend, hentry, rest, hrest, hoffsets.symm⟩
    · cases h

/-- The offsets of the entries of a block from `offset` on, when the chain of lengths ends at
offset 1024 and every length has room for the name. -/
def chain (m : Memory) (b : Nat) : Nat → Nat → Option (List Nat)
  | 0, _ => none
  | rounds + 1, offset =>
    let recLen := m.load (b * 1024 + offset + 4) 2
    if offset = 1024 then some []
    else if offset + 8 ≤ 1024 ∧ 8 + m.load (b * 1024 + offset + 6) 1 ≤ recLen then
      (chain m b rounds (offset + recLen)).map (offset :: ·)
    else none

/-- A chain depends on the bytes of the block only. -/
theorem chain_congr {b : Nat} (h : ∀ a, a / 1024 = b → m' a = m a) (rounds offset : Nat) :
    chain m' b rounds offset = chain m b rounds offset := by
  induction rounds generalizing offset with
  | zero => rfl
  | succ rounds ih =>
    by_cases hin : offset + 8 ≤ 1024
    · have hload : ∀ i k, i + k ≤ 8 →
          m'.load (b * 1024 + offset + i) k = m.load (b * 1024 + offset + i) k := load_header h hin
      simp only [chain, hload 4 2 (by decide), hload 6 1 (by decide), ih]
    · simp only [chain, hin, false_and, ite_false]

/-- What the first round of a chain meets. -/
theorem chain_succ {b rounds offset : Nat} {offsets : List Nat}
    (h : chain m b (rounds + 1) offset = some offsets) :
    offset = 1024 ∧ offsets = [] ∨ offset ≠ 1024 ∧
      (offset + 8 ≤ 1024 ∧
        8 + m.load (b * 1024 + offset + 6) 1 ≤ m.load (b * 1024 + offset + 4) 2) ∧
      ∃ rest, chain m b rounds (offset + m.load (b * 1024 + offset + 4) 2) = some rest ∧
        offsets = offset :: rest := by
  rw [chain] at h
  by_cases hend : offset = 1024
  · rw [if_pos hend] at h
    exact .inl ⟨hend, (Option.some.inj h).symm⟩
  · rw [if_neg hend] at h
    split at h
    · next hentry =>
      obtain ⟨rest, hrest, hoffsets⟩ := Option.map_eq_some_iff.mp h
      exact .inr ⟨hend, hentry, rest, hrest, hoffsets.symm⟩
    · cases h

/-- An entry on a chain lies in the block with its name. -/
theorem fits_of_chain {b rounds offset : Nat} {offsets : List Nat}
    (h : chain m b rounds offset = some offsets) : offset ≤ 1024 ∧ ∀ o ∈ offsets,
      8 + m.load (b * 1024 + o + 6) 1 ≤ m.load (b * 1024 + o + 4) 2 ∧
        o + m.load (b * 1024 + o + 4) 2 ≤ 1024 := by
  induction rounds generalizing offset offsets with
  | zero => cases h
  | succ rounds ih =>
    rcases chain_succ h with ⟨rfl, rfl⟩ | ⟨-, hentry, rest, hrest, rfl⟩
    · exact ⟨Nat.le_refl 1024, List.forall_mem_nil _⟩
    · obtain ⟨hle, hall⟩ := ih hrest
      exact ⟨by omega, List.forall_mem_cons.mpr ⟨⟨hentry.2, hle⟩, hall⟩⟩

/-- A sound chain is a chain. -/
theorem chain_of_entryOffsets {b rounds offset : Nat} {offsets : List Nat}
    (h : entryOffsets m b rounds offset = some offsets) :
    chain m b rounds offset = some offsets := by
  induction rounds generalizing offset offsets with
  | zero => cases h
  | succ rounds ih =>
    rw [chain]
    rcases entryOffsets_succ h with ⟨hend, rfl⟩ | ⟨hend, hentry, rest, hrest, rfl⟩
    · rw [if_pos hend]
    · rw [if_neg hend, if_pos ⟨hentry.1, hentry.2.2⟩, ih hrest]
      rfl

/-- An entry of a sound block lies in the block with its name. -/
theorem fits_of_entryOffsets {b rounds offset : Nat} {offsets : List Nat}
    (h : entryOffsets m b rounds offset = some offsets) {o : Nat} (ho : o ∈ offsets) :
    o + 8 + m.load (b * 1024 + o + 6) 1 ≤ 1024 := by
  have hfits := (fits_of_chain (chain_of_entryOffsets h)).2 o ho
  omega

/-- An entry of a sound block starts at a multiple of 4, and so does the next one. -/
theorem aligned_of_entryOffsets {b rounds offset : Nat} {offsets : List Nat}
    (h : entryOffsets m b rounds offset = some offsets) (haligned : offset % 4 = 0) :
    ∀ o ∈ offsets, o % 4 = 0 ∧ m.load (b * 1024 + o + 4) 2 % 4 = 0 ∧
      8 ≤ m.load (b * 1024 + o + 4) 2 ∧ o + m.load (b * 1024 + o + 4) 2 ≤ 1024 := by
  induction rounds generalizing offset offsets with
  | zero => cases h
  | succ rounds ih =>
    rcases entryOffsets_succ h with ⟨-, rfl⟩ | ⟨-, hentry, rest, hrest, rfl⟩
    · exact List.forall_mem_nil _
    · have hle := (fits_of_chain (chain_of_entryOffsets hrest)).1
      exact List.forall_mem_cons.mpr ⟨⟨haligned, by omega⟩, ih hrest (by omega)⟩

/-- The blocks that the size of a directory covers. -/
def Layout.coveredBlocks (L : Layout) (m : Memory) (d : Nat) : List Nat :=
  (L.fileBlocks m d).take (m.load (L.inodeAt d + 4) 4 / 1024)

/-- They are sound, hold no metadata and are no indirect blocks. -/
theorem Consistent.covered (h : Consistent L m) {d b : Nat} (hused : L.inUse m d = true)
    (hdir : L.isDirectory m d = true) (hb : b ∈ L.coveredBlocks m d) :
    (3 ≤ b ∧ b < L.blocks) ∧ b ∉ L.metadata ∧ L.directoryBlock m b = true ∧
      ∀ n, L.inUse m n = true → L.word m n 12 ≠ b := by
  obtain ⟨hlo, hhi, -⟩ := Layout.inUse_iff.mp hused
  have hwell := h.directories d (List.mem_range'_1.mpr ⟨hlo, by omega⟩) hused hdir
  rw [Layout.wellFormed, List.all_eq_true] at hwell
  have hsound := hwell b hb
  rw [Bool.and_eq_true, decide_eq_true_iff] at hsound
  obtain ⟨hne, hblock⟩ := hsound
  obtain ⟨q, a, hq, ha, hload⟩ := Layout.exists_slot_of_fileBlocks (List.mem_of_mem_take hb)
  have hheld : L.held (L.inUse m) m (d, q) = some b :=
    Layout.held_eq_some_iff.mpr ⟨hused, a, ha, hload, hne⟩
  have hgranted := h.owners.granted hheld
  have hdata := hgranted.data
  rw [Layout.mem_metadata] at hdata
  refine ⟨⟨by omega, hgranted.inside⟩, hgranted.data, hblock, fun n hn hword => ?_⟩
  have hindirect := Layout.held_indirect hn (hword ▸ hne)
  rw [hword] at hindirect
  exact hq (congrArg Prod.snd (h.owners.unique hheld hindirect))

/-- A block that was cleared and got one entry holds the name of that entry. -/
theorem liveNames_withEntry {b fileType inode : Nat} {name : List UInt8}
    (hinode : 1 ≤ inode ∧ inode < 2 ^ 32) (hname : name.length ≤ 255)
    (h : ∀ a, a / 1024 = b → m' a =
      withEntry (m.fill (b * 1024) 1024 0) (b * 1024) fileType inode (name.length + 8) name a) :
    liveNames m' b 1024 0 = [name] := by
  rw [liveNames_congr h]
  obtain ⟨hnumber, hrec, hlen, -, hbytes⟩ :=
    withEntry_header (m.fill (b * 1024) 1024 0) (b * 1024) fileType inode (name.length + 8) name
  generalize hfilled : withEntry (m.fill (b * 1024) 1024 0) (b * 1024) fileType inode
    (name.length + 8) name = filled at hnumber hrec hlen hbytes
  rw [Nat.mod_eq_of_lt (by omega)] at hnumber hrec hlen
  have hzero : ∀ i k, name.length + 8 ≤ i → i + k ≤ 1024 → filled.load (b * 1024 + i) k = 0 := by
    intro i k hi hk
    have hsame : ∀ j < k,
        filled (b * 1024 + i + j) = (m.fill (b * 1024) 1024 0) (b * 1024 + i + j) :=
      fun j hj => by rw [← hfilled, withEntry_apply_of_outside (by omega)]
    rw [load_congr hsame]
    exact load_fill_zero (by omega)
  have hlive : liveAt filled b 0 = true := by
    rw [liveAt, Nat.add_zero, hnumber]
    exact decide_eq_true (by omega)
  have hat : nameAt filled b 0 = name := by
    rw [nameAt, Nat.add_zero, hlen, hbytes]
  have hrest : liveNames filled b 1023 (name.length + 8) = [] := by
    have h6 := hzero (name.length + 8 + 6) 1 (by omega) (by omega)
    have h4 := hzero (name.length + 8 + 4) 2 (by omega) (by omega)
    have h0 := hzero (name.length + 8) 4 (by omega) (by omega)
    rw [← Nat.add_assoc] at h6 h4
    rw [liveNames, h6, h4, if_pos (by omega), liveAt, h0]
    rfl
  rw [liveNames, Nat.add_zero, hlen, hrec, if_pos (by omega), if_pos hlive, hat,
    if_neg (by omega), Nat.zero_add, hrest]
  rfl

/-! ## Searching -/

theorem char_of_slice {path : CString} {start n : Int} {p : UInt8} {rest : List UInt8}
    (h : path.slice start n = some (p :: rest)) :
    path.char start = some p ∧ path.slice (start + 1) (n - 1) = some rest := by
  rw [CString.slice] at h
  split at h
  · next hin =>
    obtain ⟨hstart, hn, hend⟩ := hin
    obtain ⟨s, rfl⟩ := Int.eq_ofNat_of_zero_le hstart
    obtain ⟨k, rfl⟩ := Int.eq_ofNat_of_zero_le hn
    simp only [Int.toNat_natCast, Option.some.injEq] at h
    cases k with
    | zero => cases h
    | succ k =>
      have hlt : s < path.bytes.length := by omega
      rw [List.drop_eq_getElem_cons hlt, List.take_succ_cons, List.cons.injEq] at h
      obtain ⟨hp, hrest⟩ := h
      constructor
      · rw [CString.char, if_pos hstart, Int.toNat_natCast, List.getElem?_append_left hlt,
          List.getElem?_eq_getElem hlt, hp]
      · rw [CString.slice, if_pos ⟨by omega, by omega, by omega⟩,
          show ((s : Int) + 1).toNat = s + 1 by omega, show ((k + 1 : Nat) - 1 : Int).toNat = k by
            omega, hrest]
  · cases h

/-- `match_name` decides whether the string is a prefix of the slice of the path. -/
theorem matchName_eq {path : CString} {start last : Int} {actual name : List UInt8}
    (h : path.slice start (last - start + 1) = some name) :
    matchName path actual start last = some (decide (actual <+: name)) := by
  induction actual generalizing start name with
  | nil => simp [matchName]
  | cons c actual ih =>
    have hlen := length_of_slice h
    rw [matchName]
    cases name with
    | nil =>
      rw [List.length_nil] at hlen
      rw [if_pos (by omega)]
      simp
    | cons p rest =>
      rw [List.length_cons] at hlen
      obtain ⟨hchar, hslice⟩ := char_of_slice h
      rw [if_neg (by omega), hchar]
      change (if p ≠ c then some false else matchName path actual (start + 1) last) = _
      by_cases hpc : p = c
      · have hrest : path.slice (start + 1) (last - (start + 1) + 1) = some rest := by
          rw [← hslice]
          congr 1
          omega
        rw [if_neg (not_not.mpr hpc), ih hrest, hpc]
        simp only [List.cons_prefix_cons, true_and]
      · rw [if_pos hpc]
        have hne : ¬ (c = p ∧ actual <+: rest) := fun hand => hpc hand.1.symm
        simp only [List.cons_prefix_cons, hne, decide_false]

/-- The name of an entry as a C string. -/
def stringAt (m : Memory) (b offset : Nat) : List UInt8 := (nameAt m b offset).takeWhile (· ≠ 0)

/-- Whether a search for `name` takes the entry at an offset. -/
def takes (m : Memory) (b : Nat) (dirsOnly : Bool) (name : List UInt8) (offset : Nat) : Bool :=
  (!dirsOnly || m.load (b * 1024 + offset + 7) 1 = ext2FtDir) && stringAt m b offset <+: name

theorem readEntry_apply {b offset field n : Nat} (hb : b < 128) (h : offset + field + n ≤ 1024) :
    readEntry (b * 1024 : Nat) offset field n m = .ok (m.load (b * 1024 + offset + field) n) m := by
  rw [readEntry, if_pos h]
  exact read_apply _ (by omega) (by omega) m

theorem readName_apply {b offset : Nat} (hb : b < 128)
    (hfits : offset + 8 + m.load (b * 1024 + offset + 6) 1 ≤ 1024) :
    readName (b * 1024 : Nat) offset m = .ok (stringAt m b offset) m := by
  have hbytes : readBytes ((b * 1024 : Nat) + (offset + dirEntrySize : Nat))
      (m.load (b * 1024 + offset + 6) 1) m = .ok (nameAt m b offset) m := by
    rw [readBytes, dirEntrySize, ← Int.natCast_add, access_of_le (by omega), ← Nat.add_assoc]
    rfl
  rw [readName, bind_of_ok (readEntry_apply hb (by omega)), if_pos hfits, bind_of_ok hbytes]
  rfl

theorem entryMatches_apply {path : CString} {start last : Int} {name : List UInt8}
    (hname : ∀ actual, matchName path actual start last = some (decide (actual <+: name)))
    (dirsOnly : Bool) {b offset : Nat} (hb : b < 128)
    (hfits : offset + 8 + m.load (b * 1024 + offset + 6) 1 ≤ 1024) :
    entryMatches path start last dirsOnly (b * 1024 : Nat) offset m =
      .ok (takes m b dirsOnly name offset) m := by
  have hcompare : (do Program.require .undefined (matchName path
      (← readName (b * 1024 : Nat) offset) start last) : DiskM Bool) m =
        .ok (decide (stringAt m b offset <+: name)) m := by
    rw [bind_of_ok (readName_apply hb hfits), hname]
    rfl
  cases dirsOnly with
  | false => exact hcompare
  | true =>
    rw [entryMatches]
    change (readEntry (b * 1024 : Nat) offset 7 1 >>= _) m = _
    rw [bind_of_ok (readEntry_apply hb (by omega))]
    by_cases hdir : m.load (b * 1024 + offset + 7) 1 = ext2FtDir
    · rw [if_neg (not_not.mpr hdir), takes, decide_eq_true hdir]
      exact hcompare
    · rw [if_pos hdir, takes, decide_eq_false hdir]
      rfl

/-- The loop over a sound block finds the first entry that the search takes. -/
theorem findEntry_apply {path : CString} {start last : Int} {name : List UInt8}
    (hname : ∀ actual, matchName path actual start last = some (decide (actual <+: name)))
    (dirsOnly : Bool) {b rounds offset : Nat} {offsets : List Nat} (hb : b < 128)
    (h : entryOffsets m b rounds offset = some offsets) {r : Nat} (hr : rounds ≤ r) :
    findEntry path start last dirsOnly (b * 1024 : Nat) 1024 r offset m =
      .ok (offsets.find? (takes m b dirsOnly name)) m := by
  induction rounds generalizing offset offsets r with
  | zero => cases h
  | succ rounds ih =>
    obtain ⟨r, rfl⟩ := Nat.exists_eq_add_of_le' hr
    rw [← Nat.add_assoc, findEntry]
    rcases entryOffsets_succ h with ⟨rfl, rfl⟩ | ⟨-, hentry, rest, hrest, rfl⟩
    · rw [if_neg (by omega)]
      rfl
    · rw [if_pos (by omega), bind_of_ok (entryMatches_apply hname dirsOnly hb
        (fits_of_entryOffsets h List.mem_cons_self))]
      by_cases htakes : takes m b dirsOnly name offset = true
      · rw [if_pos htakes, List.find?_cons_of_pos htakes]
        rfl
      · rw [if_neg htakes, List.find?_cons_of_neg htakes,
          bind_of_ok (readEntry_apply hb (by omega))]
        exact ih hrest (by omega)

/-- A search in a directory of one sound block. -/
theorem searchInode_apply {path : CString} {start last : Int} {name : List UInt8} {n : Nat}
    {offsets : List Nat}
    (hname : ∀ actual, matchName path actual start last = some (decide (actual <+: name)))
    (dirsOnly : Bool) (hn : 1 ≤ n ∧ n ≤ L.inodes) (hsize : m.load (L.inodeAt n + 4) 4 = 1024)
    (hb : L.word m n 0 < 128) (h : entryOffsets m (L.word m n 0) 129 0 = some offsets) :
    searchInode path start last dirsOnly (L.inodeAt n) m =
      .ok ((offsets.find? (takes m (L.word m n 0) dirsOnly name)).map fun o =>
        (((L.word m n 0 * 1024 : Nat) : Int), o)) m := by
  obtain ⟨-, hbound⟩ := L.inodeAt_bound hn
  have hsize' : read (iSize (L.inodeAt n)) 4 m = .ok 1024 m := by
    rw [← hsize]
    exact read_apply _ (by simp only [iSize]; omega) (by omega) m
  rw [searchInode, bind_of_ok (L.read_word hn (by decide) m), bind_of_ok hsize',
    blockOffset_of_lt (by omega), bind_of_ok (findEntry_apply hname dirsOnly hb h (by decide))]
  cases offsets.find? (takes m (L.word m n 0) dirsOnly name) with
  | none => rfl
  | some o => rfl

/-! ## Stepping to a directory -/

theorem walk_inode {path : CString} {indices : ThreeIndices} {flag : Bool} {rounds : Nat}
    {inode anchor : Int} {info : INodeInfo}
    (h : walk path indices flag rounds inode anchor m = .ok (some info) m') :
    info.iNode = inodeTableAt m + 128 * (info.iNodeNumber - 1) := by
  induction rounds generalizing inode anchor with
  | zero => cases h
  | succ rounds ih =>
    rw [walk] at h
    obtain ⟨found, u, hsearch, h⟩ := bind_ok.mp h
    obtain rfl : m = u := (readOnly_searchInode _ _ _ _ _).of_ok hsearch
    cases found with
    | none => cases h
    | some found =>
      obtain ⟨number, u, hnumber, h⟩ := bind_ok.mp h
      obtain rfl : m = u := (readOnly_readEntry _ _ _ _).of_ok hnumber
      rw [bind_of_ok (getInode_apply _ m)] at h
      obtain ⟨len, u, hlen, h⟩ := bind_ok.mp h
      obtain rfl : m = u := (readOnly_readEntry _ _ _ _).of_ok hlen
      generalize (if flag = true then indices.lastDir else indices.lastChar + 2) = last at h
      split at h
      · cases h
        rfl
      · exact ih h

/-- The inode that is found is the one of the number that is found. -/
theorem stepToTarget_inode {path : CString} {flag : Bool} {info : INodeInfo}
    (h : stepToTarget path flag m = .ok (some info) m') :
    info.iNode = inodeTableAt m + 128 * (info.iNodeNumber - 1) := by
  rw [stepToTarget] at h
  obtain ⟨indices, u, hindices, h⟩ := bind_ok.mp h
  obtain ⟨-, rfl⟩ := require_ok.mp hindices
  rw [bind_of_ok (getInode_apply 2 m)] at h
  split at h
  · split at h
    · cases h
    · rw [bind_of_ok (getInode_apply 2 m)] at h
      cases h
      rfl
  · exact walk_inode h

end OsAssignments.Ext2
