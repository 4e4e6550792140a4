import OsAssignments.Ext2.Sample
import OsAssignments.Ext2.Unlink
import OsAssignments.Ext2.Window

/-!
# Looking up a directory

The entries of a directory are those on the chains of its blocks, and the directory with a name
is that of the first live entry of directory type with the name. `find_sub_dir_inode` takes the
first entry of directory type with the name, live or not, in the direct blocks that begin with a
live entry, and a null pointer for block 0.
-/

namespace OsAssignments.Ext2

open Memory Program

variable {L : Layout} {m : Memory} {name : List UInt8}

/-! ## The entries of a directory -/

/-- The name of the entry at `p`. -/
def entryNameAt (m : Memory) (p : Nat) : List UInt8 := m.bytes (p + 8) (m.load (p + 6) 1)

/-- Whether the entry at `p` has directory type and the name. -/
def isDirNamed (m : Memory) (name : List UInt8) (p : Nat) : Bool :=
  m.load (p + 7) 1 = ext2FtDir && entryNameAt m p = name

/-- The entries of a block. -/
def blockEntries (m : Memory) (b : Nat) : List Nat :=
  ((chain m b 129 0).getD []).map (b * 1024 + ·)

namespace Layout

/-- The entries of a directory. -/
def entries (L : Layout) (m : Memory) (d : Nat) : List Nat :=
  ((L.fileBlocks m d).filter (· ≠ 0)).flatMap (blockEntries m)

/-- The inode of the first live entry of directory type with the name. -/
def subDirectory (L : Layout) (m : Memory) (d : Nat) (name : List UInt8) : Option Nat :=
  ((L.entries m d).find? fun p => m.load p 4 ≠ 0 && isDirNamed m name p).map fun p => m.load p 4

/-- The directory that the names lead to. -/
def follow (L : Layout) (m : Memory) : Nat → List (List UInt8) → Option Nat
  | d, [] => some d
  | d, name :: names => (L.subDirectory m d name).bind fun d' => follow L m d' names

end Layout

/-- The name of an entry is followed by a NUL within the entry, and holds none. -/
structure Terminated (m : Memory) (p : Nat) : Prop where
  room : 8 + m.load (p + 6) 1 < m.load (p + 4) 2
  zero : m (p + 8 + m.load (p + 6) 1) = 0
  noNul : 0 ∉ entryNameAt m p

/-- The directories of an image are well formed: their chains end at the end of the block, their
names can be compared, and their live entries name inodes in use. -/
structure SoundDirectories (L : Layout) (m : Memory) : Prop where
  holds : L.Holds m
  root : L.inUse m 2 = true ∧ L.isDirectory m 2 = true
  blocks : ∀ d, L.inUse m d = true → L.isDirectory m d = true → ∀ b ∈ L.fileBlocks m d, b ≠ 0 →
    b < L.blocks ∧ (chain m b 129 0).isSome = true
  terminated : ∀ d, L.inUse m d = true → L.isDirectory m d = true → ∀ p ∈ L.entries m d,
    Terminated m p
  named : ∀ d, L.inUse m d = true → L.isDirectory m d = true → ∀ p ∈ L.entries m d,
    m.load p 4 ≠ 0 → L.inUse m (m.load p 4) = true ∧
      (m.load (p + 7) 1 = ext2FtDir → L.isDirectory m (m.load p 4) = true)

/-! ## Comparing names -/

/-- A string that ends in a NUL differs from every other string. -/
theorem differs_of_ne {e q : Nat} {s : List UInt8} (hs : m.bytes q s.length = s)
    (hzero : m (q + s.length) = 0) (hnul : 0 ∉ s) (hname : 0 ∉ name) (hin : q + s.length < e)
    (hne : name ≠ s) : Differs m e q name := by
  induction name generalizing s q with
  | nil =>
    cases s with
    | nil => exact absurd rfl hne
    | cons x s =>
      rw [List.length_cons, bytes_succ] at hs
      have hx := (List.cons.inj hs).1
      exact ⟨by omega, fun h => List.ne_of_not_mem_cons hnul (h.symm.trans hx)⟩
  | cons c name ih =>
    refine ⟨by omega, or_iff_not_imp_left.mpr fun hc => ?_⟩
    replace hc := not_not.mp hc
    cases s with
    | nil => exact absurd (hzero.symm.trans hc) (List.ne_of_not_mem_cons hname)
    | cons x s =>
      rw [List.length_cons, bytes_succ] at hs
      obtain ⟨hx, hs⟩ := List.cons.inj hs
      rw [List.length_cons, Nat.add_left_comm, Nat.add_comm s.length] at hzero
      rw [List.length_cons] at hin
      refine ih hs hzero (List.not_mem_of_not_mem_cons hnul) (List.not_mem_of_not_mem_cons hname)
        (by omega) fun h => hne ?_
      rw [h, ← hx, hc]

/-! ## Scanning blocks -/

/-- The search for the first entry of directory type with the name finds it. -/
theorem finds_isDirNamed {ps : List Nat} (hterm : ∀ p ∈ ps, Terminated m p)
    (hin : ∀ p ∈ ps, p + m.load (p + 4) 2 ≤ 131072) (hname : 0 ∉ name) :
    Finds m ext2FtDir name ps (ps.find? (isDirNamed m name)) := by
  induction ps with
  | nil => rfl
  | cons p ps ih =>
    obtain ⟨hterminated, hterm⟩ := List.forall_mem_cons.mp hterm
    obtain ⟨hlast, hin⟩ := List.forall_mem_cons.mp hin
    have hroom := hterminated.room
    have hlen : (entryNameAt m p).length = m.load (p + 6) 1 := length_bytes m _ _
    have hbytes : m.bytes (p + 8) (entryNameAt m p).length = entryNameAt m p := by
      rw [hlen]
      rfl
    have hzero : m (p + 8 + (entryNameAt m p).length) = 0 := by
      rw [hlen]
      exact hterminated.zero
    rw [Finds]
    by_cases hnamed : isDirNamed m name p = true
    · rw [List.find?_cons_of_pos hnamed]
      simp only [isDirNamed, Bool.and_eq_true, decide_eq_true_iff] at hnamed
      obtain ⟨htype, rfl⟩ := hnamed
      exact .inl ⟨htype, ⟨by omega, hbytes, hzero⟩, rfl⟩
    · rw [List.find?_cons_of_neg hnamed]
      refine .inr ⟨fun htype => ?_, ih hterm hin⟩
      refine differs_of_ne hbytes hzero hterminated.noNul hname (by omega) fun heq => hnamed ?_
      rw [isDirNamed, decide_eq_true htype, decide_eq_true heq.symm]
      rfl

/-- The entry that a search finds in a block, which it does not enter when the first entry is
deleted. -/
def foundIn (m : Memory) (name : List UInt8) (b : Nat) : Option Nat :=
  if b = 0 ∨ m.load (b * 1024) 4 = 0 then none else (blockEntries m b).find? (isDirNamed m name)

theorem checkInodeBlock_apply {b : Nat} (hb : b < 128) (hne : b ≠ 0)
    (h : (chain m b 129 0).isSome = true) (hterm : ∀ p ∈ blockEntries m b, Terminated m p)
    (hname : 0 ∉ name) : checkInodeBlock b name ext2FtDir m =
      .ok ((foundIn m name b).map Int.ofNat) m := by
  obtain ⟨offsets, hoffsets⟩ := Option.isSome_iff_exists.mp h
  have hentries : blockEntries m b = offsets.map (b * 1024 + ·) := by
    rw [blockEntries, hoffsets]
    rfl
  rw [checkInodeBlock_eq hb, foundIn]
  by_cases hzero : m.load (b * 1024) 4 = 0
  · rw [if_pos hzero, if_pos (.inr hzero)]
    rfl
  · rw [if_neg hzero, if_neg (not_or.mpr ⟨hne, hzero⟩), scanBlock_ok hb hoffsets, ← hentries]
    refine finds_isDirNamed hterm (fun p hp => ?_) hname
    rw [hentries] at hp
    obtain ⟨o, ho, rfl⟩ := List.mem_map.mp hp
    have hfits := (fits_of_chain hoffsets).2 o ho
    omega

/-! ## Searching a directory -/

namespace SoundDirectories

variable {d : Nat}

/-- Every entry lies in the block whose chain it is on. -/
theorem entry_block (h : SoundDirectories L m) (hused : L.inUse m d = true)
    (hdir : L.isDirectory m d = true) {b p : Nat} (hb : b ∈ L.fileBlocks m d) (hne : b ≠ 0)
    (hp : p ∈ blockEntries m b) : p ∈ L.entries m d ∧ p / 1024 = b ∧ p + 8 ≤ 131072 := by
  obtain ⟨hlt, hchain⟩ := h.blocks d hused hdir b hb hne
  obtain ⟨offsets, hoffsets⟩ := Option.isSome_iff_exists.mp hchain
  have hmem : p ∈ L.entries m d :=
    List.mem_flatMap.mpr ⟨b, List.mem_filter.mpr ⟨hb, by simpa using hne⟩, hp⟩
  rw [blockEntries, hoffsets] at hp
  obtain ⟨o, ho, rfl⟩ := List.mem_map.mp hp
  have hfits := (fits_of_chain hoffsets).2 o ho
  have hmapped := L.mapped
  exact ⟨hmem, by omega, by omega⟩

/-- The search through the direct pointers goes on until it finds an entry in a block. A null
pointer is read as block 0. -/
theorem findAmong_found (h : SoundDirectories L m) (hused : L.inUse m d = true)
    (hdir : L.isDirectory m d = true) (hname : 0 ∉ name) {rounds i : Nat} (hi : i + rounds ≤ 12)
    (hboot : 0 ∈ ((List.range' i rounds).map (L.word m d)).takeWhile
      (fun b => (foundIn m name b).isNone) → m.load 0 4 = 0) :
    findAmong name (L.inodeAt d) ext2FtDir rounds i m =
      .ok ((((List.range' i rounds).map (L.word m d)).findSome? (foundIn m name)).map Int.ofNat)
        m := by
  obtain ⟨hlo, hhi, -⟩ := Layout.inUse_iff.mp hused
  have hmapped := L.mapped
  induction rounds generalizing i with
  | zero => rfl
  | succ rounds ih =>
    rw [List.range'_succ, List.map_cons] at hboot ⊢
    have hcheck : checkInodeBlock (toInt (L.word m d i)) name ext2FtDir m =
        .ok ((foundIn m name (L.word m d i)).map Int.ofNat) m := by
      by_cases hnull : L.word m d i = 0
      · have hfound : foundIn m name (L.word m d i) = none := if_pos (.inl hnull)
        have hzero : m.load 0 4 = 0 := hboot (by
          rw [List.takeWhile_cons_of_pos (by rw [hfound]; rfl), hnull]
          exact List.mem_cons_self)
        rw [hfound, hnull]
        exact (checkInodeBlock_eq (by decide)).trans (if_pos hzero)
      · have hmem : L.word m d i ∈ L.fileBlocks m d :=
          List.mem_append_left _ (List.mem_map.mpr ⟨i, List.mem_range.mpr (by omega), rfl⟩)
        obtain ⟨hlt, hchain⟩ := h.blocks d hused hdir _ hmem hnull
        rw [toInt_of_lt (by omega)]
        exact checkInodeBlock_apply (by omega) hnull hchain (fun p hp => h.terminated d hused hdir p
          (h.entry_block hused hdir hmem hnull hp).1) hname
    rw [findAmong, bind_of_ok (L.read_word ⟨hlo, hhi⟩ (by omega) m), bind_of_ok hcheck,
      List.findSome?_cons]
    cases hfound : foundIn m name (L.word m d i) with
    | some p => rfl
    | none =>
      refine ih (by omega) fun hmem => hboot ?_
      rw [List.takeWhile_cons_of_pos (by rw [hfound]; rfl)]
      exact List.mem_cons_of_mem _ hmem

end SoundDirectories

end OsAssignments.Ext2
