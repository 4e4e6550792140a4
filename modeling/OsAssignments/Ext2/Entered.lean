import OsAssignments.Ext2.Frame

/-!
# Where a run writes

Besides the bitmaps, the counters and the inode that it takes, a run of either tool writes the
two blocks that it picks and one pointer to the first of them. The pointer is an unused one of
the directory. In a directory without room it is a word of the boot block, where the program
looks for the indirect block that is missing, so that the entry is in no directory at all.
-/

namespace OsAssignments.Ext2

open Memory Program

variable {L : Layout} {U : Nat → Bool} {m m' : Memory}

/-! ## The pointer to the block of the entry -/

/-- The words of the boot block that are taken for block numbers are null. -/
def EmptyBoot (m : Memory) : Prop := ∀ k < 225, m.load (4 * k) 4 = 0

/-- Where the number of the block of the new entry is stored: in the first null pointer among the
direct ones if there is one, in one of the indirect block, or in the boot block. -/
inductive Spot (L : Layout) (m : Memory) (d a : Nat) : Prop
  | pointer (q : Pointer) (hq : q ≠ .indirect) (ha : L.slotAt m (d, q) = some a)
      (hnull : m.load a 4 = 0)
      (hfirst : ∀ i (hi : L.FirstNull m d i), q = .direct ⟨i, hi.direct⟩)
  | boot (hfull : ¬ L.HasRoom m d) (ha : a + 4 ≤ 1024)

/-- Entering a name clears the first free index, stores it at the spot, fills the entry and marks
the next block. -/
theorem Layout.Backed.enter_spot {d k e fileType : Nat} {path : CString} {lastDir lastChar : Int}
    {x : Unit} (hd : L.Backed m d) (hm : L.Holds m) (hroom : L.HasRoom m d ∨ EmptyBoot m)
    (he : firstClear (fun i => L.marked m (i + 1)) L.blocks = some e) (hk : k + 1 < 2 ^ 32)
    (hadd : addEntry d fileType k path lastDir lastChar m = .ok x m') :
    ∃ a name, Spot L m d a ∧ path.slice lastDir (lastChar - lastDir + 1) = some name ∧
      m' = markBlock (withEntry ((m.fill (e * 1024) 1024 0).store a 4 e) (e * 1024) fileType
        (k + 1) (name.length + 8) name) e := by
  by_cases hfull : L.HasRoom m d
  · obtain ⟨q, a, name, hq, ha, hnull, hfirst, hslice, hm'⟩ := hd.enter hm hfull he hk hadd
    exact ⟨a, name, .pointer q hq ha hnull hfirst, hslice, hm'⟩
  · have hboot := hroom.resolve_left hfull
    obtain ⟨p, n, e', name, m₁, hp, hspot, hslice, -, rfl⟩ := addEntry_ok hd.numbered.1 hk hadd
    have haddr : Ext2.inodeAt m d = L.inodeAt d := by
      obtain ⟨hlo, hhi⟩ := hd.numbered
      rw [Ext2.inodeAt, hm.inodeTableAt (by omega), Layout.inodeAt]
    have hword : ∀ i < 12, L.word m d i ≠ 0 := fun i hi hnull => hfull (.inl ⟨i, hi, hnull⟩)
    have hindirect : L.word m d 12 = 0 := of_not_not fun hne => hfull (.inr hne)
    rw [haddr] at hp
    generalize hr : (some ((e' + 1 : Nat) : Int)) = r at hspot
    -- The direct pointers are not null and point to marked blocks.
    cases hp with
    | direct =>
      cases hspot with
      | nothing => cases hr
      | fresh k e hk hnull => exact absurd hnull (hword k hk.2)
      | unmarked k b hk hload hb hclear =>
        have hmark := (hd.granted (.direct ⟨k, hk.2⟩) _ rfl (hword k hk.2)).marked
        rw [show m.load (L.inodeAt d + 40 + 4 * k) 4 = b + 1 from hload, ← hm.blockBit,
          hclear] at hmark
        cases hmark
    | indirect =>
      have hzero : offsetOf (m.load (L.inodeAt d + 88) 4) = 0 := by
        rw [show m.load (L.inodeAt d + 88) 4 = 0 from hindirect]
        rfl
      rw [hzero] at hspot
      cases hspot with
      | nothing => cases hr
      | fresh k e₁ hk hnull hbefore he₁ hin hslot =>
        obtain rfl : e' = e₁ := by
          have hr' := Option.some.inj hr
          omega
        rw [hm.firstClear, he] at he₁
        obtain rfl := Option.some.inj he₁
        exact ⟨0 + 4 * k, name, .boot hfull (by omega), hslice, rfl⟩
      | unmarked k b hk hload hb hclear =>
        have hnull := hboot k hk.2
        rw [Nat.zero_add, hnull] at hload
        omega

namespace Spot

variable {d a : Nat}

/-- The spot is in the boot block, in the inode of the directory or in a block of data. -/
theorem outside (hs : Spot L m d a) (hd : L.Backed m d) {y : Nat} (hy : y / 1024 ∈ L.metadata)
    (hout : y < L.inodeAt d ∨ L.inodeAt d + 128 ≤ y) : y < a ∨ a + 4 ≤ y := by
  cases hs with
  | pointer q hq ha hnull hfirst =>
    rcases hd.slot_cases ha with hin | ⟨b, hb, hlo, hhi⟩
    · omega
    · have hne : y / 1024 ≠ b := fun heq => hb.data (heq ▸ hy)
      omega
  | boot hfull ha =>
    have hpos := (L.lt_blocks hy).1
    omega

/-- The spot is not in the header of an inode. -/
theorem outside_header (hs : Spot L m d a) (hd : L.Backed m d) {n y : Nat}
    (hn : 1 ≤ n ∧ n ≤ L.inodes) (hy : L.inodeAt n ≤ y ∧ y < L.inodeAt n + 40) :
    y < a ∨ a + 4 ≤ y := by
  obtain ⟨h3, -, -, hmem⟩ := L.inode_apart hn (y := y) (by omega)
  cases hs with
  | pointer q hq ha hnull hfirst =>
    rcases hd.slot_cases ha with hin | ⟨b, hb, hlo, hhi⟩
    · by_cases hne : n = d
      · subst hne
        omega
      · have hdisj := L.inode_disjoint hn.1 hd.numbered.1 hne
        omega
    · have hne : y / 1024 ≠ b := fun heq => hb.data (heq ▸ hmem)
      omega
  | boot hfull ha => omega

/-- The spot is in none of the blocks that decide the layout and the bits. -/
theorem not_decides (hs : Spot L m d a) (hd : L.Backed m d) {y : Nat} (hy : L.Decides y) :
    y < a ∨ a + 4 ≤ y := by
  refine hs.outside hd (Layout.mem_metadata.mpr (by rcases hy with h | h | h | h <;> simp [h])) ?_
  by_contra hin
  have hfar := L.inode_apart hd.numbered (y := y) (by omega)
  rcases hy with h | h | h | h <;> omega

/-- The four bytes at the spot are in one block. -/
theorem one_block (hs : Spot L m d a) {i : Nat} (hi : i < 4) : (a + i) / 1024 = a / 1024 := by
  cases hs with
  | pointer q hq ha hnull hfirst =>
    have haligned := Owned.slotAt_aligned ha
    omega
  | boot hfull ha => omega

/-- The spot depends on the pointers of the directory and the blocks outside the metadata. -/
theorem congr (hs : Spot L m d a) (hd : L.Backed m d)
    (hinode : ∀ y, L.inodeAt d ≤ y → y < L.inodeAt d + 128 → m' y = m y)
    (hdata : ∀ y, y / 1024 ∉ L.metadata → m' y = m y)
    (hmarked : ∀ b ≤ L.blocks, L.marked m' b = L.marked m b) : Spot L m' d a := by
  obtain ⟨hd', hroom⟩ := hd.congr hinode hdata hmarked
  have hback := (hd'.congr (fun y hlo hhi => (hinode y hlo hhi).symm)
    (fun y hy => (hdata y hy).symm) fun b hb => (hmarked b hb).symm).2
  cases hs with
  | boot hfull ha => exact .boot (fun hr => hfull (hback hr)) ha
  | pointer q hq ha hnull hfirst =>
    have hword : ∀ i < 13, L.word m' d i = L.word m d i := fun i hi =>
      load_congr fun j hj => hinode _ (by omega) (by omega)
    refine .pointer q hq ?_ ?_ fun i hi => ?_
    · cases q with
      | direct i => exact ha
      | indirect => exact ha
      | entry k => simpa only [Layout.slotAt, hword 12 (by decide)] using ha
    · rw [← hnull]
      refine load_congr fun j hj => ?_
      rcases hd.slot_cases ha with hin | ⟨b, hb, hlo, hhi⟩
      · exact hinode _ (by omega) (by omega)
      · refine hdata _ ?_
        rw [show (a + j) / 1024 = b by omega]
        exact hb.data
    · have hi12 := hi.direct
      exact hfirst i ⟨hi12, (hword i (by omega)).symm.trans hi.null, fun j hj =>
        hword j (by omega) ▸ hi.before j hj⟩

end Spot

/-! ## Entering a name -/

/-- Filling an entry over memories that agree at an address. -/
theorem withEntry_congr {p fileType inode recLen y : Nat} {name : List UInt8} (h : m' y = m y) :
    withEntry m' p fileType inode recLen name y = withEntry m p fileType inode recLen name y :=
  write_congr (store_congr (store_congr (store_congr (store_congr h))))

/-- What a new entry leaves: it changes the picked block, the spot and one bit. -/
structure AddedEntry (L : Layout) (e a fileType n : Nat) (name : List UInt8) (m m' : Memory) :
    Prop where
  holds : L.Holds m'
  used : L.inUse m' = L.inUse m
  marked : ∀ b ≤ L.blocks, L.marked m' b = (L.marked m b || decide (e = b - 1))
  other : ∀ y, y / 1024 ≠ L.blockBitmap → y / 1024 ≠ e → (y < a ∨ a + 4 ≤ y) → m' y = m y
  stored : a / 1024 ≠ e → m'.load a 4 = e
  block : a / 1024 ≠ e → ∀ y, y / 1024 = e → m' y =
    withEntry (m.fill (e * 1024) 1024 0) (e * 1024) fileType n (name.length + 8) name y

theorem Spot.added {d a e k fileType : Nat} {name : List UInt8} (hs : Spot L m d a)
    (hd : L.Backed m d) (hm : L.Holds m) (he : e < L.blocks) (hdata : e ∉ L.metadata)
    (hname : name.length ≤ 255) (h : m' = markBlock (withEntry
      ((m.fill (e * 1024) 1024 0).store a 4 e) (e * 1024) fileType k (name.length + 8) name) e) :
    AddedEntry L e a fileType k name m m' := by
  obtain ⟨hbb, hib, hbi, -⟩ := L.separate
  have hmapped := L.mapped
  generalize hfilled : withEntry ((m.fill (e * 1024) 1024 0).store a 4 e) (e * 1024) fileType k
    (name.length + 8) name = filled at h
  have hother : ∀ y, y / 1024 ≠ e → (y < a ∨ a + 4 ≤ y) → filled y = m y := fun y hy ha => by
    rw [← hfilled, withEntry_apply_of_outside (by omega), store_apply_of_outside ha,
      fill_apply_of_outside (by omega)]
  have hdecides : ∀ y, L.Decides y → filled y = m y := fun y hy =>
    hother y (fun heq => hdata (heq ▸ Layout.mem_metadata.mpr (by
      rcases hy with h | h | h | h <;> simp [h]))) (hs.not_decides hd hy)
  have hholds : L.Holds filled := hm.congr fun y hy => hdecides y (by
    rcases hy with hy | hy
    · exact .inl (by omega)
    · exact .inr (.inl (by omega)))
  have hmark : ∀ y, y / 1024 ≠ L.blockBitmap → m' y = filled y := fun y hy => by
    rw [h, Owned.markBlock_apply hholds he hy]
  have hne : e ≠ L.blockBitmap := fun heq => hdata (heq ▸ Layout.mem_metadata.mpr (by simp))
  refine ⟨hholds.congr fun y hy => hmark y (by omega), ?_, fun b hb => ?_,
    fun y hbit hy ha => (hmark y hbit).trans (hother y hy ha), fun ha => ?_, fun ha y hy => ?_⟩
  · exact Owned.inUse_congr fun y hy => by
      rw [hmark y (by omega), hdecides y (.inr (.inr (.inr hy)))]
  · rw [h, Layout.marked, markBlock, hholds.blockBitmapAt, bit_orBit]
    exact congrArg (· || _) (Owned.marked_congr hb fun y hy => hdecides y (.inr (.inr (.inl hy))))
  · have hload : ∀ i < 4, m' (a + i) = (m.fill (e * 1024) 1024 0).store a 4 e (a + i) :=
      fun i hi => by
        have hblock := hs.one_block hi
        have hbit : (a + i) / 1024 ≠ L.blockBitmap := fun heq => by
          have hout := hs.not_decides hd (y := a + i) (.inr (.inr (.inl heq)))
          omega
        rw [hmark _ hbit, ← hfilled, withEntry_apply_of_outside (by omega)]
    rw [load_congr hload, load_store_same]
    exact Nat.mod_eq_of_lt (by omega)
  · have hout : y < a ∨ a + 4 ≤ y := by
      by_contra hin
      have hblock := hs.one_block (i := y - a) (by omega)
      rw [show a + (y - a) = y by omega] at hblock
      omega
    rw [hmark y (by omega), ← hfilled]
    exact withEntry_congr (store_apply_of_outside hout)

/-! ## A run -/

/-- The new name. -/
def Command.newName (c : Command) : Option (List UInt8) :=
  (generatePosition c.path).bind fun indices =>
    c.path.slice indices.lastDir (indices.lastChar - indices.lastDir + 1)

/-- The type of the new entry. -/
def Command.fileType : Command → Nat
  | mkdir _ => ext2FtDir
  | cp _ _ _ => ext2FtRegFile

/-- A run that finds the directory `parent` and picks the blocks `e` and `d` outside the metadata.
The name is short enough for an entry, and the file is so short that no pointer to a block of it
is stored past those of the inode. -/
structure Command.Finds (L : Layout) (c : Command) (m : Memory) (parent e d : Nat) : Prop where
  directory : c.directory m = some (parent : Int)
  used : L.inUse m parent = true
  picks : L.picks m = some (e, d)
  data : e ∉ L.metadata ∧ d ∉ L.metadata
  name : ∀ k, c.nameLength = some k → k ≤ 255
  short : c.contents.length < 34 * 1024

/-- The directory has room for the new name, or the boot block takes it. -/
structure Command.Lands (L : Layout) (c : Command) (m : Memory) (parent e d : Nat) : Prop extends
    c.Finds L m parent e d where
  room : L.HasRoom m parent ∨ EmptyBoot m

/-- From an image that differs from `m` in an inode not in use and in the bitmap of the inodes, the
entry goes to the first picked block, and the next block to be picked is the second. -/
theorem Command.Lands.enter {c : Command} {parent e d n k fileType : Nat} {base entered : Memory}
    {path : CString} {lastDir lastChar : Int} {x : Unit} (hc : c.Lands L m parent e d)
    (h : Owned L (L.inUse m) m) (hn : 1 ≤ n ∧ n ≤ L.inodes) (hunused : L.inUse m n = false)
    (hm : L.Holds base) (hbase : ∀ y, y / 1024 ≠ L.inodeBitmap →
      (y < L.inodeAt n ∨ L.inodeAt n + 128 ≤ y) → base y = m y)
    (hname : lastChar - lastDir + 1 ≤ 255) (hk : k + 1 < 2 ^ 32)
    (hadd : addEntry parent fileType k path lastDir lastChar base = .ok x entered) :
    ∃ a name, Spot L m parent a ∧ path.slice lastDir (lastChar - lastDir + 1) = some name ∧
      AddedEntry L e a fileType (k + 1) name base entered ∧
      firstClear (fun i => L.marked entered (i + 1)) L.blocks = some d := by
  obtain ⟨hbb, hib, hbi, -⟩ := L.separate
  obtain ⟨he, hd⟩ := Layout.picks_eq_some.mp hc.picks
  have hbacked := h.backed hc.used
  have hne := L.ne_of_inUse hc.used hunused
  have hfar : ∀ y, L.inodeAt n ≤ y → y < L.inodeAt n + 128 → 3 ≤ y / 1024 ∧
      y / 1024 ≠ L.blockBitmap ∧ y / 1024 ≠ L.inodeBitmap := fun y hlo hhi => by
    obtain ⟨h3, hb, hi, -⟩ := L.inode_apart hn ⟨hlo, hhi⟩
    exact ⟨h3, hb, hi⟩
  have hinode : ∀ y, L.inodeAt parent ≤ y → y < L.inodeAt parent + 128 → base y = m y :=
    fun y hlo hhi => by
      have hfar' := L.inode_apart hbacked.numbered ⟨hlo, hhi⟩
      have hdisj := L.inode_disjoint hbacked.numbered.1 hn.1 hne
      exact hbase y (by omega) (by omega)
  have hdata : ∀ y, y / 1024 ∉ L.metadata → base y = m y := fun y hy =>
    hbase y (fun hib => hy (hib ▸ Layout.mem_metadata.mpr (by simp))) (by
      by_contra hin
      exact hy (L.inode_mem_metadata hn (by omega)))
  have hmarked : ∀ b ≤ L.blocks, L.marked base b = L.marked m b := fun b hb =>
    Owned.marked_congr hb fun y hy => hbase y (by omega) (by
      by_contra hin
      have := hfar y (by omega) (by omega)
      omega)
  obtain ⟨hbacked', hroom⟩ := hbacked.congr hinode hdata hmarked
  have hboot : EmptyBoot m → EmptyBoot base := fun hboot i hi => by
    rw [← hboot i hi]
    refine load_congr fun j hj => hdata _ fun hmem => ?_
    have hpos := (L.lt_blocks hmem).1
    omega
  have hfirst : firstClear (fun i => L.marked base (i + 1)) L.blocks = some e := by
    rw [← he]
    exact firstClear_congr fun i hi => hmarked (i + 1) hi
  obtain ⟨a, name, hspot, hslice, hentered⟩ :=
    hbacked'.enter_spot hm (hc.room.imp hroom hboot) hfirst hk hadd
  have hlen := length_of_slice hslice
  have hadded := hspot.added hbacked' hm (firstClear_eq_some_iff.mp he).2.1 hc.data.1 (by omega)
    hentered
  refine ⟨a, name, hspot.congr hbacked' (fun y hlo hhi => (hinode y hlo hhi).symm)
    (fun y hy => (hdata y hy).symm) (fun b hb => (hmarked b hb).symm), hslice, hadded, ?_⟩
  rw [← hd]
  exact Owned.firstClear_marked fun b hb => by rw [hadded.marked b hb, hmarked b hb]

/-- What a run leaves outside the bitmaps and the counters: it changes the two picked blocks, the
spot and the inode `n`, which comes into use with the mode of a regular file and the size 0. -/
structure Entered (L : Layout) (c : Command) (parent n e d a : Nat) (name : List UInt8)
    (m m' : Memory) : Prop where
  spot : Spot L m parent a
  named : c.newName = some name
  numbered : 1 ≤ n ∧ n ≤ L.inodes
  unused : L.inUse m n = false
  holds : L.Holds m'
  used : L.inUse m' = Function.update (L.inUse m) n true
  other : ∀ y, 3 ≤ y / 1024 → y / 1024 ≠ L.blockBitmap → y / 1024 ≠ L.inodeBitmap →
    y / 1024 ≠ e → y / 1024 ≠ d → (y < L.inodeAt n ∨ L.inodeAt n + 128 ≤ y) →
      (y < a ∨ a + 4 ≤ y) → m' y = m y
  stored : 3 ≤ a / 1024 → a / 1024 ≠ e → a / 1024 ≠ d → m'.load a 4 = e
  block : a / 1024 ≠ e → ∀ y, y / 1024 = e → m' y =
    withEntry (m.fill (e * 1024) 1024 0) (e * 1024) c.fileType n (name.length + 8) name y
  mode : m'.load (L.inodeAt n) 2 = ext2SIfreg
  size : m'.load (L.inodeAt n + 4) 4 = 0

/-- The first picked block is not one of the first three. -/
theorem Command.Lands.picked {c : Command} {parent e d : Nat} (hc : c.Lands L m parent e d)
    (h : Owned L (L.inUse m) m) : 3 ≤ e ∧ L.Granted m e ∧ e < d ∧ d < L.blocks := by
  obtain ⟨he, hd⟩ := Layout.picks_eq_some.mp hc.picks
  obtain ⟨hpos, hgranted⟩ := h.granted_firstClear he hc.data.1
  have hdata := hgranted.data
  simp only [Layout.mem_metadata, not_or] at hdata
  exact ⟨by omega, hgranted, lt_of_firstClear_update he hd, (firstClear_eq_some_iff.mp hd).2.1⟩

/-- Another inode than that of the directory goes through the entry of a name unchanged. -/
theorem Command.Lands.inode_kept {c : Command} {parent e d n a fileType y : Nat}
    {name : List UInt8} {base entered : Memory} (hc : c.Lands L m parent e d)
    (h : Owned L (L.inUse m) m) (hn : 1 ≤ n ∧ n ≤ L.inodes) (hunused : L.inUse m n = false)
    (hspot : Spot L m parent a) (hadded : AddedEntry L e a fileType n name base entered)
    (hy : L.inodeAt n ≤ y ∧ y < L.inodeAt n + 128) : entered y = base y := by
  have hbacked := h.backed hc.used
  have hne := L.ne_of_inUse hc.used hunused
  have hdisj := L.inode_disjoint hbacked.numbered.1 hn.1 hne
  obtain ⟨-, hb, -, hmem⟩ := L.inode_apart hn hy
  exact hadded.other y hb (fun heq => hc.data.1 (heq ▸ hmem))
    (hspot.outside hbacked hmem (by omega))

/-- The new name fits into an entry. -/
theorem Command.Lands.length_le {c : Command} {parent e d : Nat} {name : List UInt8}
    (hc : c.Lands L m parent e d) (hname : c.newName = some name) : name.length ≤ 255 := by
  obtain ⟨indices, hindices, hslice⟩ := Option.bind_eq_some_iff.mp hname
  have hle : indices.lastChar - indices.lastDir + 1 ≤ 255 :=
    hc.name _ (show _ = some _ from congrArg (Option.map _) hindices)
  have hlen := length_of_slice hslice
  omega

/-- The bytes that a run leaves as the new entry left them are as `Entered` says. -/
theorem AddedEntry.bytes {c : Command} {parent e d n a : Nat} {name : List UInt8}
    {base entered : Memory} (hadded : AddedEntry L e a c.fileType n name base entered)
    (hc : c.Lands L m parent e d) (h : Owned L (L.inUse m) m) (hn : 1 ≤ n ∧ n ≤ L.inodes)
    (hunused : L.inUse m n = false) (hspot : Spot L m parent a)
    (hbase : ∀ y, y / 1024 ≠ L.inodeBitmap → (y < L.inodeAt n ∨ L.inodeAt n + 128 ≤ y) →
      base y = m y)
    (htail : ∀ y, 3 ≤ y / 1024 → y / 1024 ≠ L.blockBitmap → y / 1024 ≠ L.inodeBitmap →
      y / 1024 ≠ d → (y < L.inodeAt n ∨ L.inodeAt n + 128 ≤ y) → m' y = entered y) :
    (∀ y, 3 ≤ y / 1024 → y / 1024 ≠ L.blockBitmap → y / 1024 ≠ L.inodeBitmap → y / 1024 ≠ e →
      y / 1024 ≠ d → (y < L.inodeAt n ∨ L.inodeAt n + 128 ≤ y) → (y < a ∨ a + 4 ≤ y) →
        m' y = m y) ∧
      (3 ≤ a / 1024 → a / 1024 ≠ e → a / 1024 ≠ d → m'.load a 4 = e) ∧
      (a / 1024 ≠ e → ∀ y, y / 1024 = e → m' y = withEntry (m.fill (e * 1024) 1024 0) (e * 1024)
        c.fileType n (name.length + 8) name y) := by
  obtain ⟨hpos, hgranted, hed, -⟩ := hc.picked h
  have hbacked := h.backed hc.used
  have hne := L.ne_of_inUse hc.used hunused
  refine ⟨fun y h3 hbb hib he hd hout ha => ?_, fun h3 he hd => ?_, fun hae y hy => ?_⟩
  · rw [htail y h3 hbb hib hd hout, hadded.other y hbb he ha, hbase y hib hout]
  · rw [← hadded.stored he]
    refine load_congr fun i hi => ?_
    have hblock := hspot.one_block hi
    have hdecides := fun hy => hspot.not_decides hbacked (y := a + i) hy
    refine htail _ (by omega) (fun hbb => ?_) (fun hib => ?_) (by omega) ?_
    · have hout := hdecides (.inr (.inr (.inl hbb)))
      omega
    · have hout := hdecides (.inr (.inr (.inr hib)))
      omega
    · by_contra hin
      have hdisj := L.inode_disjoint hbacked.numbered.1 hn.1 hne
      have hout := hspot.outside hbacked (y := a + i)
        (L.inode_mem_metadata hn (by omega)) (by omega)
      omega
  · have hdata := hgranted.data
    have hout : y < L.inodeAt n ∨ L.inodeAt n + 128 ≤ y := by
      by_contra hin
      exact hdata (hy ▸ L.inode_mem_metadata hn (by omega))
    have hbits : e ≠ L.blockBitmap ∧ e ≠ L.inodeBitmap := by
      simp only [Layout.mem_metadata, not_or] at hdata
      exact ⟨hdata.2.2.1, hdata.2.2.2.1⟩
    rw [htail y (by omega) (by omega) (by omega) (by omega) hout, hadded.block hae y hy]
    refine withEntry_congr ?_
    rw [fill_apply_of_inside (by omega), fill_apply_of_inside (by omega)]

/-- The new directory's block changes and is marked, and in its inode the mode and the first pointer
change. -/
theorem withDirectory_block {inode k d parent y : Nat} (hblock : y / 1024 ≠ d) :
    withDirectory m inode k d parent y =
      (((markBlock m d).store (inode + 40) 4 d).store inode 2 ext2SIfreg) y := by
  have hone : ([0x2e] : List UInt8).length = 1 := rfl
  have htwo : ([0x2e, 0x2e] : List UInt8).length = 2 := rfl
  rw [withDirectory, withEntry_apply_of_outside (by omega), withEntry_apply_of_outside (by omega)]

theorem withDirectory_apply {inode k d parent y : Nat} (hm : L.Holds m) (hd : d < L.blocks)
    (hbit : y / 1024 ≠ L.blockBitmap) (hblock : y / 1024 ≠ d) :
    withDirectory m inode k d parent y =
      ((m.store (inode + 40) 4 d).store inode 2 ext2SIfreg) y := by
  rw [withDirectory_block hblock]
  exact store_congr (store_congr (Owned.markBlock_apply hm hd hbit))

/-- The block of the new directory is the next one to be picked. It is cleared, and nothing else. -/
theorem MkdirRun.cleared_apply {path : CString} {d : Nat} (run : MkdirRun path m m')
    (hm : L.Holds run.entered)
    (hnext : firstClear (fun i => L.marked run.entered (i + 1)) L.blocks = some d) :
    run.data = d ∧ ∀ y, y / 1024 ≠ d → run.cleared y = run.entered y := by
  obtain ⟨d', hd', hfirst, -, hclear⟩ := findFreeBlock_ok run.clear
  rw [hm.firstClear, hnext] at hfirst
  obtain rfl := Option.some.inj hfirst
  refine ⟨by omega, fun y hy => ?_⟩
  rw [hclear, fill_apply_of_outside (by omega)]

/-- From the entry to the counters, a run of `ext2_mkdir` changes the block of the new directory,
and in its inode the mode and the first pointer; it marks the block and counts one less. -/
theorem MkdirRun.counted_kept {path : CString} {d : Nat} (run : MkdirRun path m m')
    (hindex : run.index < L.inodes)
    (hinode : inodeTableAt run.taken + 128 * run.index = L.inodeAt (run.index + 1))
    (hm : L.Holds run.entered)
    (hnext : firstClear (fun i => L.marked run.entered (i + 1)) L.blocks = some d)
    (hdata : d ∉ L.metadata) :
    L.Holds run.counted ∧ L.inUse run.counted = L.inUse run.entered ∧
      (∀ y, 3 ≤ y / 1024 → y / 1024 ≠ L.blockBitmap → y / 1024 ≠ d →
        run.counted y = ((run.entered.store (L.inodeAt (run.index + 1) + 40) 4 d).store
          (L.inodeAt (run.index + 1)) 2 ext2SIfreg) y) ∧
      (∀ b ≤ L.blocks, L.marked run.counted b = (L.marked run.entered b || decide (d = b - 1))) ∧
      run.entered.load 1036 4 = (run.counted.load 1036 4 + 1) % 2 ^ 32 := by
  have hn : 1 ≤ run.index + 1 ∧ run.index + 1 ≤ L.inodes := ⟨by omega, hindex⟩
  obtain ⟨hbb, hib, hbi, -⟩ := L.separate
  have hmapped := L.mapped
  have hne : d ≠ 1 ∧ d ≠ 2 ∧ d ≠ L.blockBitmap ∧ d ≠ L.inodeBitmap := by
    simp only [Layout.mem_metadata, not_or] at hdata
    exact ⟨hdata.1, hdata.2.1, hdata.2.2.1, hdata.2.2.2.1⟩
  have hout : ∀ y, L.Decides y →
      y < L.inodeAt (run.index + 1) ∨ L.inodeAt (run.index + 1) + 128 ≤ y := fun y hy => by
    by_contra hin
    have hfar := L.inode_apart hn (y := y) (by omega)
    rcases hy with h | h | h | h <;> omega
  have hlt := (firstClear_eq_some_iff.mp hnext).2.1
  obtain ⟨hd, hcleared⟩ := run.cleared_apply hm hnext
  have hholds : L.Holds run.cleared := hm.congr fun y hy => hcleared y (by omega)
  have hcount := run.count
  rw [hinode, hd] at hcount
  have hfilled : ∀ y, y / 1024 ≠ L.blockBitmap → y / 1024 ≠ d →
      withDirectory run.cleared (L.inodeAt (run.index + 1)) run.index d
        (toUnsigned (run.parent.iNodeNumber + 1)) y = ((run.entered.store
          (L.inodeAt (run.index + 1) + 40) 4 d).store (L.inodeAt (run.index + 1)) 2 ext2SIfreg) y :=
    fun y hbit hy => by
      rw [withDirectory_apply hholds hlt hbit hy]
      exact store_congr (store_congr (hcleared y hy))
  have hsame : ∀ y, L.Decides y → y / 1024 ≠ L.blockBitmap →
      (y < 1036 ∨ 1044 ≤ y) → (y < 2060 ∨ 2066 ≤ y) → run.counted y = run.entered y :=
    fun y hy hbit hsuper hgroup => by
      have hy' := hout y hy
      rw [countOne_ok hcount y hsuper hgroup, hfilled y hbit (by
        rcases hy with h | h | h | h <;> omega), store_apply_of_outside (by omega),
        store_apply_of_outside (by omega)]
  refine ⟨hm.congr fun y hy => hsame y ?_ (by omega) (by omega) (by omega), Owned.inUse_congr
    fun y hy => hsame y (.inr (.inr (.inr hy))) (by omega) (by omega) (by omega),
    fun y h3 hb hy => ?_, fun b hb => ?_, ?_⟩
  · rcases hy with hy | hy
    · exact .inl (by omega)
    · exact .inr (.inl (by omega))
  · rw [countOne_ok hcount y (by omega) (by omega), hfilled y hb hy]
  · have hbits : L.marked run.counted b = L.marked (markBlock run.cleared d) b :=
      Owned.marked_congr hb fun y hy => by
        have hy' := hout y (.inr (.inr (.inl hy)))
        rw [countOne_ok hcount y (by omega) (by omega), withDirectory_block (by omega),
          store_apply_of_outside (by omega), store_apply_of_outside (by omega)]
    rw [hbits, Layout.marked, markBlock, hholds.blockBitmapAt, bit_orBit]
    exact congrArg (· || _) (Owned.marked_congr hb fun y hy => hcleared y (by omega))
  · rw [← (countOne_counts hcount).1]
    refine load_congr fun j hj => ?_
    have hy' := hout (1036 + j) (.inl (by omega))
    rw [hfilled _ (by omega) (by omega), store_apply_of_outside (by omega),
      store_apply_of_outside (by omega)]

/-- At last it marks the inode. -/
theorem MkdirRun.finish {path : CString} {d : Nat} (run : MkdirRun path m m')
    (hindex : run.index < L.inodes)
    (hinode : inodeTableAt run.taken + 128 * run.index = L.inodeAt (run.index + 1))
    (hm : L.Holds run.entered)
    (hnext : firstClear (fun i => L.marked run.entered (i + 1)) L.blocks = some d)
    (hdata : d ∉ L.metadata) :
    L.Holds m' ∧ L.inUse m' = Function.update (L.inUse run.entered) (run.index + 1) true ∧
      (∀ y, 3 ≤ y / 1024 → y / 1024 ≠ L.blockBitmap → y / 1024 ≠ L.inodeBitmap → y / 1024 ≠ d →
        m' y = ((run.entered.store (L.inodeAt (run.index + 1) + 40) 4 d).store
          (L.inodeAt (run.index + 1)) 2 ext2SIfreg) y) ∧
      (∀ b ≤ L.blocks, L.marked m' b = (L.marked run.entered b || decide (d = b - 1))) ∧
      run.entered.load 1036 4 = (m'.load 1036 4 + 1) % 2 ^ 32 := by
  obtain ⟨hbb, hib, hbi, -⟩ := L.separate
  obtain ⟨hcounted, hused, hbytes, hmarked, hsuper⟩ :=
    run.counted_kept hindex hinode hm hnext hdata
  have hmark : ∀ y, y / 1024 ≠ L.inodeBitmap → m' y = run.counted y := fun y hy =>
    (congrFun run.mark y).trans (Owned.markInode_apply hcounted hindex hy)
  refine ⟨hcounted.congr fun y hy => hmark y (by omega), ?_, fun y h3 hb hi hy => ?_,
    fun b hb => ?_, ?_⟩
  · rw [← hused]
    exact (congrArg L.inUse run.mark).trans (Owned.inUse_markInode hcounted hindex)
  · rw [hmark y hi, hbytes y h3 hb hy]
  · rw [← hmarked b hb]
    exact Owned.marked_congr hb fun y hy => hmark y (by omega)
  · rw [hsuper]
    congr 2
    exact (load_congr fun j hj => hmark _ (by omega)).symm

/-- A run of `ext2_mkdir` stores the number of the second picked block in its inode. -/
theorem MkdirRun.entered_of {path : CString} {parent e d : Nat} (run : MkdirRun path m m')
    (h : Owned L (L.inUse m) m) (hc : (Command.mkdir path).Lands L m parent e d) :
    ∃ a name, Entered L (.mkdir path) parent (run.index + 1) e d a name m m' ∧
      L.word m' (run.index + 1) 0 = d := by
  obtain ⟨hindex, hinode, hunused⟩ := Owned.taken h.holds run.free
  have hn : 1 ≤ run.index + 1 ∧ run.index + 1 ≤ L.inodes := ⟨by omega, hindex⟩
  obtain ⟨htaken, -, -, hused₁⟩ := h.take hn hunused
  have htake : run.taken = m.fill (L.inodeAt (run.index + 1)) 128 0 := by rw [run.take, hinode]
  rw [← htake] at htaken hused₁
  have hparent : run.parent.iNodeNumber = parent :=
    Option.some.inj (run.directory_eq.symm.trans hc.directory)
  have hname := hc.name _ run.nameLength_eq
  have hsize := L.inodes_le
  have henter := run.enter
  rw [hparent] at henter
  have hbase : ∀ y, y / 1024 ≠ L.inodeBitmap → (y < L.inodeAt (run.index + 1) ∨
      L.inodeAt (run.index + 1) + 128 ≤ y) → run.taken y = m y := fun y _ hy => by
    rw [htake, fill_apply_of_outside hy]
  obtain ⟨a, name, hspot, hslice, hadded, hnext⟩ :=
    hc.enter h hn hunused htaken.holds hbase hname (by omega) henter
  obtain ⟨hholds, hused, hend, -⟩ := run.finish hindex (by
    rw [htaken.holds.inodeTableAt (by omega)]
    rfl) hadded.holds hnext hc.data.2
  have htail : ∀ y, 3 ≤ y / 1024 → y / 1024 ≠ L.blockBitmap → y / 1024 ≠ L.inodeBitmap →
      y / 1024 ≠ d → (y < L.inodeAt (run.index + 1) ∨ L.inodeAt (run.index + 1) + 128 ≤ y) →
        m' y = run.entered y := fun y h3 hb hi hy hout => by
    rw [hend y h3 hb hi hy, store_apply_of_outside (by omega), store_apply_of_outside (by omega)]
  obtain ⟨hother, hstored, hblock⟩ :=
    hadded.bytes (c := .mkdir path) hc h hn hunused hspot hbase htail
  -- In the inode, what is cleared stays as it is but for the mode and the first pointer.
  have hinode' : ∀ i k, i + k ≤ 128 → m'.load (L.inodeAt (run.index + 1) + i) k =
      ((run.entered.store (L.inodeAt (run.index + 1) + 40) 4 d).store
        (L.inodeAt (run.index + 1)) 2 ext2SIfreg).load (L.inodeAt (run.index + 1) + i) k :=
    fun i k hik => load_congr fun j hj => by
      obtain ⟨h3, hb, hi, hmem⟩ := L.inode_apart hn (y := L.inodeAt (run.index + 1) + i + j)
        (by omega)
      exact hend _ h3 hb hi fun heq => hc.data.2 (heq ▸ hmem)
  refine ⟨a, name, ⟨hspot, ?_, hn, hunused, hholds, ?_, hother, hstored, hblock, ?_, ?_⟩, ?_⟩
  · rw [Command.newName, Command.path, run.position, Option.bind_some, hslice]
  · rw [hused, hadded.used, hused₁]
  · have hmode := hinode' 0 2 (by decide)
    rw [Nat.add_zero, load_store_same] at hmode
    exact hmode
  · rw [hinode' 4 4 (by decide), load_store_of_disjoint (by omega),
      load_store_of_disjoint (by omega)]
    have hzero : ∀ j < 4, run.entered (L.inodeAt (run.index + 1) + 4 + j) =
        (m.fill (L.inodeAt (run.index + 1)) 128 0) (L.inodeAt (run.index + 1) + 4 + j) :=
      fun j hj => by rw [hc.inode_kept h hn hunused hspot hadded (by omega), htake]
    rw [load_congr hzero]
    exact load_fill_zero (by omega)
  · have hpos := hc.picked h
    have hmapped := L.mapped
    rw [Layout.word, Nat.mul_zero, Nat.add_zero, hinode' 40 4 (by decide),
      load_store_of_disjoint (by omega), load_store_same]
    exact Nat.mod_eq_of_lt (by omega)

/-- A run of `ext2_cp` copies the file into the second picked block. -/
theorem CpRun.entered_of {source target : CString} {file : Option (List UInt8)} {parent e d : Nat}
    (run : CpRun source file target m m') (h : Owned L (L.inUse m) m)
    (hc : (Command.cp source file target).Lands L m parent e d) :
    ∃ a name, Entered L (.cp source file target) parent (run.index + 1) e d a name m m' := by
  obtain ⟨hindex, hunused, hinode, -⟩ := run.toCpStart.claimed_eq h.holds
  obtain ⟨hclaimed, hused, hclaim⟩ := run.toCpStart.claimed_bytes h.holds
  obtain ⟨-, -, -, hbase⟩ := run.toCpStart.claimed_apply h.holds
  have hn : 1 ≤ run.index + 1 ∧ run.index + 1 ≤ L.inodes := ⟨by omega, hindex⟩
  have hparent : run.directory.iNodeNumber = parent :=
    Option.some.inj (run.directory_eq.symm.trans hc.directory)
  have hname := hc.name _ run.nameLength_eq
  have hsize := L.inodes_le
  have henter := run.enter
  rw [hparent] at henter
  obtain ⟨a, name, hspot, hslice, hadded, hnext⟩ :=
    hc.enter h hn hunused hclaimed hbase hname (by omega) henter
  -- The inode is still clear behind its mode when the contents are copied.
  have hentered : ∀ i k, i + k ≤ 128 → run.entered.load (L.inodeAt (run.index + 1) + i) k =
      ((m.fill (L.inodeAt (run.index + 1)) 128 0).store (L.inodeAt (run.index + 1)) 2
        ext2SIfreg).load (L.inodeAt (run.index + 1) + i) k := fun i k hik =>
    load_congr fun j hj => by
      obtain ⟨-, -, hi, -⟩ := L.inode_apart hn (y := L.inodeAt (run.index + 1) + i + j) (by omega)
      rw [hc.inode_kept h hn hunused hspot hadded (by omega), hclaim _ hi]
  have hzero : ∀ i k, 2 ≤ i → i + k ≤ 128 →
      run.entered.load (L.inodeAt (run.index + 1) + i) k = 0 := fun i k hi hik => by
    rw [hentered i k hik, load_store_of_disjoint (by omega)]
    exact load_fill_zero (by omega)
  have hfill := run.fill
  rw [hinode] at hfill
  have hshort := hc.short
  simp only [Command.contents, run.opened, Option.getD_some] at hshort
  have hconfined := (fillFile_kept hn hadded.holds hnext hc.data.2 (hzero 88 4 (by decide)
    (by decide)) hfill).2 hshort
  have hkept := hconfined.kept hn hc.data.2
  have hcount : ∀ y, 3 ≤ y / 1024 → m' y = run.filled y := fun y hy =>
    countOne_ok run.count y (by omega) (by omega)
  have htail : ∀ y, 3 ≤ y / 1024 → y / 1024 ≠ L.blockBitmap → y / 1024 ≠ L.inodeBitmap →
      y / 1024 ≠ d → (y < L.inodeAt (run.index + 1) ∨ L.inodeAt (run.index + 1) + 128 ≤ y) →
        m' y = run.entered y := fun y h3 _ _ hy hout => by
    rw [hcount y h3]
    exact hconfined y (by omega) hy (by omega)
  obtain ⟨hother, hstored, hblock⟩ :=
    hadded.bytes (c := .cp source file target) hc h hn hunused hspot hbase htail
  have hheader : ∀ i k, i + k ≤ 40 → m'.load (L.inodeAt (run.index + 1) + i) k =
      run.entered.load (L.inodeAt (run.index + 1) + i) k := fun i k hik => by
    rw [← hkept.header hik]
    refine load_congr fun j hj => ?_
    obtain ⟨h3, -, -, -⟩ := L.inode_apart hn (y := L.inodeAt (run.index + 1) + i + j) (by omega)
    exact hcount _ h3
  obtain ⟨-, hib, -, -⟩ := L.separate
  refine ⟨a, name, ⟨hspot, ?_, hn, hunused, ?_, ?_, hother, hstored, hblock, ?_, ?_⟩⟩
  · rw [Command.newName, Command.path, run.position, Option.bind_some, hslice]
  · exact (hkept.holds hadded.holds).congr fun y hy => countOne_ok run.count y (by omega) (by omega)
  · rw [Owned.inUse_congr (m := run.filled) fun y hy => hcount y (by omega), hkept.inUse,
      hadded.used, hused]
  · have hmode := hheader 0 2 (by decide)
    rw [hentered 0 2 (by decide), Nat.add_zero, load_store_same] at hmode
    exact hmode
  · rw [hheader 4 4 (by decide)]
    exact hzero 4 4 (by decide) (by decide)

/-- What a successful run of either tool leaves. -/
theorem Command.Lands.entered {c : Command} {parent e d : Nat} {x : Unit}
    (hc : c.Lands L m parent e d) (h : Owned L (L.inUse m) m) (hrun : c.run m = .ok x m') :
    ∃ n a name, Entered L c parent n e d a name m m' ∧
      ∀ path, c = .mkdir path → L.word m' n 0 = d := by
  rw [Command.run_ok] at hrun
  cases c with
  | mkdir path =>
    obtain ⟨run⟩ := mkdir_ok hrun
    obtain ⟨a, name, hentered, hword⟩ := run.entered_of h hc
    exact ⟨_, a, name, hentered, fun _ _ => hword⟩
  | cp source file target =>
    obtain ⟨-, ⟨run⟩⟩ := cp_ok hrun
    obtain ⟨a, name, hentered⟩ := run.entered_of h hc
    exact ⟨_, a, name, hentered, fun path heq => by cases heq⟩

/-! ## What stays -/

namespace Entered

variable {c : Command} {parent n e d a : Nat} {name : List UInt8}

/-- The new inode has the mode of a regular file. -/
theorem not_directory (h : Entered L c parent n e d a name m m') : L.isDirectory m' n = false := by
  rw [Layout.isDirectory, h.mode]
  decide

/-- An inode in use goes through a run unchanged outside the spot. -/
theorem inode_apply (h : Entered L c parent n e d a name m m') (hc : c.Lands L m parent e d)
    {p y : Nat} (hp : L.inUse m p = true) (hy : L.inodeAt p ≤ y ∧ y < L.inodeAt p + 128)
    (ha : y < a ∨ a + 4 ≤ y) : m' y = m y := by
  obtain ⟨hlo, hhi, -⟩ := Layout.inUse_iff.mp hp
  have hne : p ≠ n := fun heq => by
    rw [heq, h.unused] at hp
    cases hp
  have hdisj := L.inode_disjoint hlo h.numbered.1 hne
  obtain ⟨h3, hb, hi, hmem⟩ := L.inode_apart ⟨hlo, hhi⟩ hy
  exact h.other y h3 hb hi (fun heq => hc.data.1 (heq ▸ hmem))
    (fun heq => hc.data.2 (heq ▸ hmem)) (by omega) ha

/-- The inodes in use keep their modes. -/
theorem isDirectory_eq (h : Entered L c parent n e d a name m m') (howned : Owned L (L.inUse m) m)
    (hc : c.Lands L m parent e d) {p : Nat} (hp : L.inUse m p = true) :
    L.isDirectory m' p = L.isDirectory m p := by
  obtain ⟨hlo, hhi, -⟩ := Layout.inUse_iff.mp hp
  have hload : m'.load (L.inodeAt p) 2 = m.load (L.inodeAt p) 2 := load_congr fun j hj =>
    h.inode_apply hc hp (by omega)
      (h.spot.outside_header (howned.backed hc.used) ⟨hlo, hhi⟩ (by omega))
  rw [Layout.isDirectory, Layout.isDirectory, hload]

/-- So does another block that may be owned. -/
theorem data_apply (h : Entered L c parent n e d a name m m') {b y : Nat} (hb : L.Granted m b)
    (hpos : b ≠ 0) (he : b ≠ e) (hd : b ≠ d) (hy : y / 1024 = b) (ha : y < a ∨ a + 4 ≤ y) :
    m' y = m y := by
  have hdata := hb.data
  have hout : y < L.inodeAt n ∨ L.inodeAt n + 128 ≤ y := by
    by_contra hin
    exact hdata (hy ▸ L.inode_mem_metadata h.numbered (by omega))
  simp only [Layout.mem_metadata, not_or] at hdata
  obtain ⟨h1, h2, hbb, hib, -⟩ := hdata
  exact h.other y (by omega) (by omega) (by omega) (by omega) (by omega) hout ha

/-- The inodes in use stay in use. -/
theorem used_of_used (h : Entered L c parent n e d a name m m') {p : Nat}
    (hp : L.inUse m p = true) : L.inUse m' p = true := by
  rw [h.used]
  by_cases hpn : p = n
  · rw [hpn, Function.update_self]
  · rw [Function.update_of_ne hpn, hp]

end Entered

end OsAssignments.Ext2
