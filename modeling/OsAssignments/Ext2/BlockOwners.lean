import OsAssignments.Ext2.Sample

/-!
# Block ownership over a sequence of runs

A block picked by the allocator is marked used but may belong to somebody. When it belongs to
nobody, a run hands the two blocks it picks to one pointer each, and ownership stays
exclusive.
-/

namespace OsAssignments.Ext2

open Memory Program

variable {L : Layout} {U : Nat → Bool} {m m' : Memory}

/-! ## What a run finds -/

theorem MkdirRun.directory_eq {path : CString} (run : MkdirRun path m m') :
    (Command.mkdir path).directory m = some run.parent.iNodeNumber := by
  simp only [Command.directory, run.found]

theorem MkdirRun.nameLength_eq {path : CString} (run : MkdirRun path m m') :
    (Command.mkdir path).nameLength = some (run.indices.lastChar - run.indices.lastDir + 1) :=
  congrArg (Option.map _) run.position

section

variable {source target : CString} {file : Option (List UInt8)}

theorem CpStart.directory_eq (start : CpStart source file target m) :
    (Command.cp source file target).directory m = some start.directory.iNodeNumber := by
  simp only [Command.directory, start.found]

theorem CpStart.nameLength_eq (start : CpStart source file target m) :
    (Command.cp source file target).nameLength =
      some (start.indices.lastChar - start.indices.lastDir + 1) :=
  congrArg (Option.map _) start.position

end

/-! ## Spare blocks -/

/-- A block that is neither metadata nor referenced. -/
structure Layout.Spare (L : Layout) (U : Nat → Bool) (m : Memory) (b : Nat) : Prop where
  data : b ∉ L.metadata
  free : ∀ s, L.held U m s ≠ some b

/-- Pointer `i` is the first null one among the direct pointers of directory `d`. -/
structure Layout.FirstNull (L : Layout) (m : Memory) (d i : Nat) : Prop where
  direct : i < 12
  null : L.word m d i = 0
  before : ∀ j < i, L.word m d j ≠ 0

/-- The least null one of the direct pointers. -/
theorem Layout.exists_firstNull {d i : Nat} (hi : i < 12) (hnull : L.word m d i = 0) :
    ∃ k, L.FirstNull m d k := by
  have hex : ∃ k, L.word m d k = 0 := ⟨i, hnull⟩
  have hle := Nat.find_min' hex hnull
  exact ⟨Nat.find hex, by omega, Nat.find_spec hex, fun j hj => Nat.find_min hex hj⟩

/-- In a directory whose blocks are marked used, `find_spot_for_inode_entry` finds a null pointer,
the first null one among the direct pointers if there is one, and gives it the first free index. -/
theorem Layout.Backed.spot {d p n e : Nat} {m₁ : Memory} (hd : L.Backed m d) (hm : L.Holds m)
    (hroom : L.HasRoom m d) (hp : Pointers m (Ext2.inodeAt m d) p n)
    (hs : SpotAmong m p 0 n (some (e + 1 : Nat)) m₁) :
    ∃ q a, q ≠ .indirect ∧ L.slotAt m (d, q) = some a ∧ m.load a 4 = 0 ∧
      (∀ i (hi : L.FirstNull m d i), q = .direct ⟨i, hi.direct⟩) ∧
      firstClear (fun i => L.marked m (i + 1)) L.blocks = some e ∧
      m₁ = (m.fill (e * 1024) 1024 0).store a 4 e := by
  obtain ⟨hlo, hhi⟩ := hd.numbered
  have haddr : Ext2.inodeAt m d = L.inodeAt d := by
    rw [Ext2.inodeAt, hm.inodeTableAt (by omega), Layout.inodeAt]
  -- Every pointer that the loop visits is a slot of the directory: a direct one, or one of the
  -- indirect block when no direct one is null.
  have hslot : ∀ k < n, ∃ q : Pointer, q ≠ .indirect ∧ L.slotAt m (d, q) = some (p + 4 * k) ∧
      ((∃ hk : k < 12, q = .direct ⟨k, hk⟩ ∧ p = L.inodeAt d + 40) ∨
        ∀ i < 12, L.word m d i ≠ 0) := by
    rw [haddr] at hp
    cases hp with
    | direct =>
      exact fun k hk => ⟨.direct ⟨k, hk⟩, Pointer.noConfusion, rfl, .inl ⟨hk, rfl, rfl⟩⟩
    | indirect hfull =>
      have hne : L.word m d 12 ≠ 0 := by
        rcases hroom with ⟨i, hi, hnull⟩ | hne
        · exact absurd hnull (hfull i hi)
        · exact hne
      have hin : L.word m d 12 < L.blocks := (hd.granted .indirect _ rfl hne).inside
      have hmapped := L.mapped
      have hoffset : offsetOf (m.load (L.inodeAt d + 88) 4) = L.word m d 12 * 1024 :=
        offsetOf_eq (show L.word m d 12 < 2 ^ 22 by omega)
      intro k hk
      refine ⟨.entry ⟨k, by omega⟩, Pointer.noConfusion, ?_, .inr hfull⟩
      rw [Layout.slotAt, if_neg hne, hoffset]
  generalize hr : (some ((e + 1 : Nat) : Int)) = r at hs
  cases hs with
  | nothing hfull => cases hr
  | fresh k e' hk hnull hbefore he hin hbound =>
    obtain rfl : e = e' := by
      have hr' := Option.some.inj hr
      omega
    obtain ⟨q, hind, hqa, hplace⟩ := hslot k hk.2
    rw [hm.firstClear] at he
    refine ⟨q, _, hind, hqa, hnull, fun i hi => ?_, he, rfl⟩
    rcases hplace with ⟨hk12, rfl, rfl⟩ | hfull
    · obtain hlt | rfl | hgt := Nat.lt_trichotomy i k
      · exact absurd hi.null (hbefore i (Nat.zero_le i) hlt)
      · rfl
      · exact absurd hnull (hi.before k hgt)
    · exact absurd hi.null (hfull i hi.direct)
  | unmarked k b hk hload hb hclear =>
    obtain ⟨q, hind, hqa, -⟩ := hslot k hk.2
    have hmark := (hd.granted q _ hqa (by omega)).marked
    rw [hload] at hmark
    rw [hm.blockBit, hmark] at hclear
    cases hclear

/-- A pointer of the directory is in its inode, or in a block that may be owned. -/
theorem Layout.Backed.slot_cases {d a : Nat} {q : Pointer} (hd : L.Backed m d)
    (ha : L.slotAt m (d, q) = some a) :
    L.inodeAt d + 40 ≤ a ∧ a + 4 ≤ L.inodeAt d + 92 ∨
      ∃ b, L.Granted m b ∧ b * 1024 ≤ a ∧ a + 4 ≤ b * 1024 + 1024 := by
  cases q with
  | direct i =>
    cases ha
    exact .inl ⟨by omega, by omega⟩
  | indirect =>
    cases ha
    exact .inl ⟨by omega, by omega⟩
  | entry k =>
    rw [Layout.slotAt] at ha
    by_cases hnull : L.word m d 12 = 0
    · rw [if_pos hnull] at ha
      cases ha
    · rw [if_neg hnull] at ha
      cases ha
      exact .inr ⟨L.word m d 12, hd.granted .indirect _ rfl hnull, by omega, by omega⟩

/-- The pointers of the directory and the blocks it may own decide where it has room. -/
theorem Layout.Backed.congr {d : Nat} (hd : L.Backed m d)
    (hinode : ∀ a, L.inodeAt d ≤ a → a < L.inodeAt d + 128 → m' a = m a)
    (hdata : ∀ a, a / 1024 ∉ L.metadata → m' a = m a)
    (hmarked : ∀ b ≤ L.blocks, L.marked m' b = L.marked m b) :
    L.Backed m' d ∧ (L.HasRoom m d → L.HasRoom m' d) := by
  have hword : ∀ i < 13, L.word m' d i = L.word m d i := fun i hi =>
    load_congr fun j hj => hinode _ (by omega) (by omega)
  have hslot : ∀ q, L.slotAt m' (d, q) = L.slotAt m (d, q) := by
    intro q
    cases q with
    | direct i => rfl
    | indirect => rfl
    | entry k => simp only [slotAt, hword 12 (by decide)]
  refine ⟨⟨hd.numbered, fun q a ha hne => ?_⟩, ?_⟩
  · rw [hslot] at ha
    have hload : m'.load a 4 = m.load a 4 := load_congr fun j hj => by
      rcases hd.slot_cases ha with hin | ⟨b, hb, hlo, hhi⟩
      · exact hinode _ (by omega) (by omega)
      · refine hdata _ ?_
        rw [show (a + j) / 1024 = b by omega]
        exact hb.data
    rw [hload] at hne ⊢
    have hgranted := hd.granted q a ha hne
    exact ⟨hgranted.inside, hgranted.data, (hmarked _ hgranted.inside.le).trans hgranted.marked⟩
  · rintro (⟨i, hi, hnull⟩ | hne)
    · exact .inl ⟨i, hi, (hword i (by omega)).trans hnull⟩
    · refine .inr ?_
      rwa [hword 12 (by decide)]

/-- Entering a name clears the first free index, stores it in a pointer of the directory, fills the
entry and marks the next block. -/
theorem Layout.Backed.enter {d k e fileType : Nat} {path : CString} {lastDir lastChar : Int}
    {x : Unit} (hd : L.Backed m d) (hm : L.Holds m) (hroom : L.HasRoom m d)
    (he : firstClear (fun i => L.marked m (i + 1)) L.blocks = some e) (hk : k + 1 < 2 ^ 32)
    (hadd : addEntry d fileType k path lastDir lastChar m = .ok x m') :
    ∃ q a name, q ≠ .indirect ∧ L.slotAt m (d, q) = some a ∧ m.load a 4 = 0 ∧
      (∀ i (hi : L.FirstNull m d i), q = .direct ⟨i, hi.direct⟩) ∧
      path.slice lastDir (lastChar - lastDir + 1) = some name ∧
      m' = markBlock (withEntry ((m.fill (e * 1024) 1024 0).store a 4 e) (e * 1024) fileType
        (k + 1) (name.length + 8) name) e := by
  obtain ⟨p, n, e', name, m₁, hp, hspot, hslice, -, rfl⟩ := addEntry_ok hd.numbered.1 hk hadd
  obtain ⟨q, a, hind, ha, hnull, hfirst, he', rfl⟩ := hd.spot hm hroom hp hspot
  obtain rfl : e = e' := Option.some.inj (he.symm.trans he')
  exact ⟨q, a, name, hind, ha, hnull, hfirst, hslice, rfl⟩

namespace Owned

/-- The block before the first free bit is marked. -/
theorem granted_firstClear (h : Owned L U m) {e : Nat}
    (he : firstClear (fun i => L.marked m (i + 1)) L.blocks = some e) (hdata : e ∉ L.metadata) :
    1 ≤ e ∧ L.Granted m e := by
  obtain ⟨hclear, hlt, hall⟩ := firstClear_eq_some_iff.mp he
  have hpos : 1 ≤ e := by
    refine Nat.one_le_iff_ne_zero.mpr fun h0 => ?_
    have hfirst := h.reserved 1 (Layout.mem_metadata.mpr (.inl rfl))
    rw [h0] at hclear
    rw [hclear] at hfirst
    cases hfirst
  have hmark := hall (e - 1) (by omega)
  rw [Nat.sub_add_cancel hpos] at hmark
  exact ⟨hpos, hlt, hdata, hmark⟩

/-- A new entry gives one block to a pointer of the directory, and marks the next block. -/
theorem enter (h : Owned L U m) {d k e fileType : Nat} {path : CString} {lastDir lastChar : Int}
    {x : Unit} (hd : U d = true) (hroom : L.HasRoom m d)
    (he : firstClear (fun i => L.marked m (i + 1)) L.blocks = some e) (hspare : L.Spare U m e)
    (hname : lastChar - lastDir + 1 ≤ 255) (hk : k + 1 < 2 ^ 32)
    (hadd : addEntry d fileType k path lastDir lastChar m = .ok x m') :
    ∃ s : Slot, s.1 = d ∧ s.2 ≠ .indirect ∧ Owned L U m' ∧
      L.held U m' = Function.update (L.held U m) s (some e) ∧
      (∀ b ≤ L.blocks, L.marked m' b = (L.marked m b || decide (e = b - 1))) ∧
      L.inUse m' = L.inUse m := by
  obtain ⟨q, a, name, hind, hsa, hnull, -, hslice, rfl⟩ :=
    (h.backed hd).enter h.holds hroom he hk hadd
  obtain ⟨hpos, hgranted⟩ := h.granted_firstClear he hspare.data
  have hlen := length_of_slice hslice
  -- Clearing the block, storing the pointer and filling the entry leave everything else alone.
  have hclear : ∀ c, c / 1024 ≠ e → m.fill (e * 1024) 1024 0 c = m c := fun c hc =>
    fill_apply_of_outside (by omega)
  have hcleared : Keeps L U m (m.fill (e * 1024) 1024 0) :=
    h.write_block hspare.data (fun n => hspare.free _) hclear
  have hshows : ∀ {c}, L.Shows U m c → m.fill (e * 1024) 1024 0 c = m c := fun hc =>
    hclear _ (h.block_ne_of_shows hspare.data (fun n => hspare.free _) hc)
  have hself : ∀ n, ((n, .indirect) : Slot) ≠ (d, q) := fun n hns =>
    hind (congrArg Prod.snd hns).symm
  obtain ⟨howned, hheld, hmarked, hused⟩ := hcleared.owned.assign (s := (d, q)) hd hind
    ((Layout.slotAt_congr hd fun c hc => hshows hc).trans hsa)
    ⟨hgranted.inside, hgranted.data, (hcleared.marked e hgranted.inside.le).trans hgranted.marked⟩
    (by omega) fun t => by
      rw [hcleared.held]
      exact hspare.free t
  rw [hcleared.held] at hheld
  have hfilled : Keeps L U ((m.fill (e * 1024) 1024 0).store a 4 e)
      (withEntry ((m.fill (e * 1024) 1024 0).store a 4 e) (e * 1024) fileType (k + 1)
        (name.length + 8) name) :=
    howned.write_block hspare.data
      (fun n => by
        rw [hheld, Function.update_of_ne (hself n)]
        exact hspare.free _)
      fun c hc => withEntry_apply_of_outside (by omega)
  obtain ⟨howned', hheld', hbits, hused'⟩ := hfilled.owned.mark_block hgranted.inside
  refine ⟨(d, q), rfl, hind, howned', ?_, fun b hb => ?_, ?_⟩
  · rw [hheld', hfilled.held, hheld]
  · rw [hbits, hfilled.marked b hb, hmarked b hb, hcleared.marked b hb]
  · rw [hused', hfilled.used, hused, hcleared.used]

/-- The bits after the first picked block is marked. -/
theorem firstClear_marked {e : Nat}
    (hbits : ∀ b ≤ L.blocks, L.marked m' b = (L.marked m b || decide (e = b - 1))) :
    firstClear (fun i => L.marked m' (i + 1)) L.blocks =
      firstClear (Function.update (fun i => L.marked m (i + 1)) e true) L.blocks := by
  refine firstClear_congr fun i hi => ?_
  rw [hbits (i + 1) hi, Nat.add_sub_cancel]
  by_cases hie : i = e
  · rw [hie, Function.update_self, decide_eq_true rfl, Bool.or_true]
  · rw [Function.update_of_ne hie, decide_eq_false fun h => hie h.symm, Bool.or_false]

theorem slotAt_first (m : Memory) (n : Nat) :
    L.slotAt m (n, .direct 0) = some (L.inodeAt n + 40) := by
  simp only [Layout.slotAt, Fin.val_zero, Nat.mul_zero, Nat.add_zero]

/-- A spare block may be given to the first pointer of an inode. -/
theorem first_pointer (h : Owned L U m) {n d : Nat} (hn : U n = true)
    (hgranted : L.Granted m d) (hpos : 1 ≤ d) (hspare : L.Spare U m d) :
    Owned L U (m.store (L.inodeAt n + 40) 4 d) ∧
      L.held U (m.store (L.inodeAt n + 40) 4 d) =
        Function.update (L.held U m) (n, .direct 0) (some d) ∧
      (∀ b ≤ L.blocks, L.marked (m.store (L.inodeAt n + 40) 4 d) b = L.marked m b) ∧
      L.inUse (m.store (L.inodeAt n + 40) 4 d) = L.inUse m :=
  h.assign hn Pointer.noConfusion (slotAt_first _ n) hgranted (by omega) hspare.free

/-- The block of a new directory goes to the first pointer of its inode, and the block after it
is marked. -/
theorem directory (h : Owned L U m) {n k d parent : Nat} (hn : U n = true)
    (hgranted : L.Granted m d) (hpos : 1 ≤ d) (hspare : L.Spare U m d) :
    Owned L U (withDirectory m (L.inodeAt n) k d parent) ∧
      L.held U (withDirectory m (L.inodeAt n) k d parent) =
        Function.update (L.held U m) (n, .direct 0) (some d) ∧
      L.inUse (withDirectory m (L.inodeAt n) k d parent) = L.inUse m := by
  obtain ⟨hmark, hheld₁, hbits, hused₁⟩ := h.mark_block hgranted.inside
  obtain ⟨hstore, hheld₂, hmarked₂, hused₂⟩ := hmark.first_pointer hn
    ⟨hgranted.inside, hgranted.data, by rw [hbits, hgranted.marked, Bool.true_or]⟩ hpos
    ⟨hspare.data, fun t => hheld₁ ▸ hspare.free t⟩
  rw [hheld₁] at hheld₂
  have hmode : Keeps L U ((markBlock m d).store (L.inodeAt n + 40) 4 d)
      (((markBlock m d).store (L.inodeAt n + 40) 4 d).store (L.inodeAt n) 2 ext2SIfreg) :=
    hstore.write_inode (h.numbered n hn) (fun a ha => store_apply_of_outside (by omega))
      fun _ a hlo _ => store_apply_of_outside (by omega)
  have hind : ∀ n', L.held U (((markBlock m d).store (L.inodeAt n + 40) 4 d).store
      (L.inodeAt n) 2 ext2SIfreg) (n', .indirect) ≠ some d := fun n' => by
    rw [hmode.held, hheld₂, Function.update_of_ne fun h => Pointer.noConfusion (Prod.mk.inj h).2]
    exact hspare.free _
  have hentries : Keeps L U _ (withDirectory m (L.inodeAt n) k d parent) :=
    hmode.owned.write_block hspare.data hind fun a ha => by
      have hdot : ([0x2e] : List UInt8).length = 1 := rfl
      have hdots : ([0x2e, 0x2e] : List UInt8).length = 2 := rfl
      rw [withDirectory, withEntry_apply_of_outside (by omega),
        withEntry_apply_of_outside (by omega)]
  refine ⟨hentries.owned, ?_, ?_⟩
  · rw [hentries.held, hmode.held, hheld₂]
  · rw [hentries.used, hmode.used, hused₂, hused₁]

/-- The counters of the super block and the group descriptor own nothing. -/
theorem counters (h : Owned L U m) {x : Unit} (hcount : countOne m = .ok x m') :
    Keeps L U m m' :=
  h.write_counters (fun a ha => countOne_ok hcount a (by omega) (by omega)) fun a h1 h2 =>
    countOne_ok hcount a (by omega) (by omega)

end Owned

/-! ## One run -/

/-- The condition under which a run spares the owners of blocks: the directory it finds exists
and has room, the two blocks it picks belong to nobody, the name is short enough for an
entry, and at most one block of data is copied. -/
structure Command.SparesOwners (L : Layout) (c : Command) (m : Memory) : Prop where
  directory : ∀ d, c.directory m = some d →
    ∃ n : Nat, d = n ∧ L.inUse m n = true ∧ L.HasRoom m n
  picks : ∃ e d, L.picks m = some (e, d) ∧ L.Spare (L.inUse m) m e ∧ L.Spare (L.inUse m) m d
  name : ∀ n, c.nameLength = some n → n ≤ 255
  short : c.contents.length < 1024

namespace Owned

/-- The inode that is taken is not in use, and its pointers are in the inode table. -/
theorem taken {k : Nat} (h : L.Holds m) (hk : freeInode m = some k) :
    k < L.inodes ∧ inodeTableAt m + 128 * k = L.inodeAt (k + 1) ∧ L.inUse m (k + 1) = false := by
  obtain ⟨-, hk, hfree⟩ := freeInode_eq_some hk
  rw [h.inodes] at hk
  refine ⟨hk, ?_, Bool.eq_false_iff.mpr fun hused => ?_⟩
  · rw [h.inodeTableAt (by omega), Layout.inodeAt, Nat.add_sub_cancel]
  · obtain ⟨-, -, hbit⟩ := Layout.inUse_iff.mp hused
    rw [inodeBit, h.inodeBitmapAt] at hfree
    rw [Nat.add_sub_cancel, hfree] at hbit
    cases hbit

end Owned

/-- In a layout, `ext2_cp` clears an inode of the table, sets its mode and then its bit. -/
theorem CpStart.claimed_eq {source target : CString} {file : Option (List UInt8)}
    (start : CpStart source file target m) (h : L.Holds m) :
    start.index < L.inodes ∧ L.inUse m (start.index + 1) = false ∧
      inodeTableAt start.taken + 128 * start.index = L.inodeAt (start.index + 1) ∧
      start.claimed = markInode ((m.fill (L.inodeAt (start.index + 1)) 128 0).store
        (L.inodeAt (start.index + 1)) 2 ext2SIfreg) start.index := by
  obtain ⟨hindex, hinode, hunused⟩ := Owned.taken h start.free
  have htake : start.taken = m.fill (L.inodeAt (start.index + 1)) 128 0 := by
    rw [start.take, hinode]
  have hn : 1 ≤ start.index + 1 ∧ start.index + 1 ≤ L.inodes := ⟨by omega, hindex⟩
  have hsame : ∀ a, 1024 ≤ a ∧ a < 1032 ∨ 2048 ≤ a ∧ a < 2060 → start.taken a = m a := by
    intro a ha
    have hfar := L.inode_apart hn (y := L.inodeAt (start.index + 1)) (by omega)
    rw [htake, fill_apply_of_outside (by omega)]
  have hinode' : inodeTableAt start.taken + 128 * start.index = L.inodeAt (start.index + 1) := by
    rw [Layout.inodeAt, Nat.add_sub_cancel, (h.congr hsame).inodeTableAt (by omega)]
  refine ⟨hindex, hunused, hinode', ?_⟩
  rw [start.claim, hinode', htake]

/-- Claiming the inode changes its bit, the mode and what is cleared. -/
theorem CpStart.claimed_bytes {source target : CString} {file : Option (List UInt8)}
    (start : CpStart source file target m) (h : L.Holds m) :
    L.Holds start.claimed ∧
      L.inUse start.claimed = Function.update (L.inUse m) (start.index + 1) true ∧
      ∀ a, a / 1024 ≠ L.inodeBitmap → start.claimed a = (m.fill (L.inodeAt (start.index + 1)) 128
        0).store (L.inodeAt (start.index + 1)) 2 ext2SIfreg a := by
  obtain ⟨hindex, -, -, hclaim⟩ := start.claimed_eq h
  have hn : 1 ≤ start.index + 1 ∧ start.index + 1 ≤ L.inodes := ⟨by omega, hindex⟩
  obtain ⟨-, hib, -, -⟩ := L.separate
  have hfar : ∀ a, L.inodeAt (start.index + 1) ≤ a → a < L.inodeAt (start.index + 1) + 128 →
      3 ≤ a / 1024 ∧ a / 1024 ≠ L.inodeBitmap := fun a hlo hhi =>
    ⟨(L.inode_apart hn ⟨hlo, hhi⟩).1, (L.inode_apart hn ⟨hlo, hhi⟩).2.2.1⟩
  generalize htaken : (m.fill (L.inodeAt (start.index + 1)) 128 0).store
    (L.inodeAt (start.index + 1)) 2 ext2SIfreg = taken at hclaim
  have hother : ∀ a, (a < L.inodeAt (start.index + 1) ∨ L.inodeAt (start.index + 1) + 128 ≤ a) →
      taken a = m a := fun a ha => by
    rw [← htaken, store_apply_of_outside (by omega), fill_apply_of_outside ha]
  have hholds : L.Holds taken := h.congr fun a ha => hother a (by
    by_contra hin
    have hblock := hfar a (by omega) (by omega)
    omega)
  have hmark : ∀ a, a / 1024 ≠ L.inodeBitmap → start.claimed a = taken a := fun a ha => by
    rw [hclaim, Owned.markInode_apply hholds hindex ha]
  refine ⟨hholds.congr fun a ha => hmark a (by omega), ?_, hmark⟩
  rw [hclaim, Owned.inUse_markInode hholds hindex, Owned.inUse_congr (m := m) fun a ha => ?_]
  refine hother a ?_
  by_contra hin
  exact (hfar a (by omega) (by omega)).2 ha

/-- Claiming the inode leaves it zero after the mode, and changes nothing else but its bit. -/
theorem CpStart.claimed_apply {source target : CString} {file : Option (List UInt8)}
    (start : CpStart source file target m) (h : L.Holds m) :
    L.Holds start.claimed ∧
      L.inUse start.claimed = Function.update (L.inUse m) (start.index + 1) true ∧
      (∀ a, L.inodeAt (start.index + 1) + 2 ≤ a → a < L.inodeAt (start.index + 1) + 128 →
        start.claimed a = 0) ∧
      ∀ a, a / 1024 ≠ L.inodeBitmap → (a < L.inodeAt (start.index + 1) ∨
        L.inodeAt (start.index + 1) + 128 ≤ a) → start.claimed a = m a := by
  obtain ⟨hholds, hused, hbytes⟩ := start.claimed_bytes h
  have hn : 1 ≤ start.index + 1 ∧ start.index + 1 ≤ L.inodes :=
    ⟨by omega, (start.claimed_eq h).1⟩
  refine ⟨hholds, hused, fun a hlo hhi => ?_, fun a ha hout => ?_⟩
  · obtain ⟨-, -, hi, -⟩ := L.inode_apart hn (y := a) (by omega)
    rw [hbytes a hi, store_apply_of_outside (by omega), fill_apply_of_inside (by omega)]
  · rw [hbytes a ha, store_apply_of_outside (by omega), fill_apply_of_outside hout]

namespace Owned

/-- The room of a directory shows in what it holds. -/
theorem hasRoom_iff {n : Nat} (hU : U n = true) : L.HasRoom m n ↔
    (∃ i : Fin 12, L.held U m (n, .direct i) = none) ∨ L.held U m (n, .indirect) ≠ none := by
  have hnull : ∀ {p : Pointer} {i : Nat}, L.slotAt m (n, p) = some (L.inodeAt n + 40 + 4 * i) →
      (L.held U m (n, p) = none ↔ L.word m n i = 0) := by
    intro p i ha
    simp only [Layout.held, hU, ite_true, ha, Layout.word]
    split <;> simp_all
  have hind := hnull (p := .indirect) (i := 12) rfl
  constructor
  · rintro (⟨i, hi, h0⟩ | hne)
    · exact .inl ⟨⟨i, hi⟩, (hnull rfl).mpr h0⟩
    · exact .inr fun h => hne (hind.mp h)
  · rintro (⟨i, h0⟩ | hne)
    · exact .inl ⟨i, i.isLt, (hnull rfl).mp h0⟩
    · exact .inr fun h => hne (hind.mpr h)

/-- From an image `c` with the owners and the marks of `m`, the entry takes the first block that
is picked and the search for a data block finds the second. -/
theorem pick {c entered cleared : Memory} {parent e d k fileType : Nat} {path : CString}
    {lastDir lastChar r : Int} {x : Unit} (hc : Owned L U c)
    (hheld : L.held U c = L.held (L.inUse m) m)
    (hmarked : ∀ b ≤ L.blocks, L.marked c b = L.marked m b)
    (hpicks : L.picks m = some (e, d)) (hspare_e : L.Spare (L.inUse m) m e)
    (hspare_d : L.Spare (L.inUse m) m d) (hp : U parent = true)
    (hused : L.inUse m parent = true) (hroom : L.HasRoom m parent)
    (hname : lastChar - lastDir + 1 ≤ 255) (hk : k + 1 < 2 ^ 32)
    (henter : addEntry parent fileType k path lastDir lastChar c = .ok x entered)
    (hclear : findFreeBlock entered = .ok r cleared) :
    r = d ∧ 1 ≤ d ∧ Owned L U cleared ∧ L.Granted cleared d ∧ L.Spare U cleared d ∧
      L.inUse cleared = L.inUse c := by
  obtain ⟨he, hd⟩ := Layout.picks_eq_some.mp hpicks
  have hfirst : firstClear (fun i => L.marked c (i + 1)) L.blocks = some e := by
    rw [← he]
    exact firstClear_congr fun i hi => hmarked (i + 1) hi
  have hroom' : L.HasRoom c parent := by
    rw [hasRoom_iff hp, hheld]
    exact (hasRoom_iff hused).mp hroom
  obtain ⟨s, hsp, hind, hentered, hheld', hbits, hused'⟩ := hc.enter hp hroom' hfirst
    ⟨hspare_e.data, fun t => hheld ▸ hspare_e.free t⟩ hname hk henter
  -- The search goes on behind the block that is now marked.
  have hnext : firstClear (fun i => L.marked entered (i + 1)) L.blocks = some d := by
    rw [← hd]
    exact firstClear_marked fun b hb => by rw [hbits b hb, hmarked b hb]
  have hed : e ≠ d := (lt_of_firstClear_update he hd).ne
  obtain ⟨d', rfl, hd', -, rfl⟩ := findFreeBlock_ok hclear
  rw [hentered.holds.firstClear, hnext] at hd'
  obtain rfl := Option.some.inj hd'
  rw [hheld] at hheld'
  have hfree : ∀ t, L.held U entered t ≠ some d := fun t ht => by
    rw [hheld'] at ht
    by_cases hts : t = s
    · rw [hts, Function.update_self] at ht
      exact hed (Option.some.inj ht)
    · rw [Function.update_of_ne hts] at ht
      exact hspare_d.free t ht
  obtain ⟨hpos, hgranted⟩ := hentered.granted_firstClear hnext hspare_d.data
  have hkeep : Keeps L U entered (entered.fill (d * 1024) 1024 0) :=
    hentered.write_block hspare_d.data (fun _ => hfree _) fun a ha =>
      fill_apply_of_outside (by omega)
  refine ⟨rfl, hpos, hkeep.owned, ?_, ?_, hkeep.used.trans hused'⟩
  · exact ⟨hgranted.inside, hgranted.data,
      (hkeep.marked _ hgranted.inside.le).trans hgranted.marked⟩
  · exact ⟨hspare_d.data, fun t => hkeep.held ▸ hfree t⟩

/-- A successful run of `ext2_mkdir` that spares the owners keeps ownership exclusive. -/
theorem mkdir {path : CString} (h : Owned L (L.inUse m) m) (run : MkdirRun path m m')
    (hc : (Command.mkdir path).SparesOwners L m) : Owned L (L.inUse m') m' := by
  obtain ⟨e, d, hpicks, hspare_e, hspare_d⟩ := hc.picks
  obtain ⟨hindex, hinode, hunused⟩ := taken h.holds run.free
  obtain ⟨parent, hparent, hused, hroom⟩ := hc.directory _ run.directory_eq
  have hname := hc.name _ run.nameLength_eq
  have hne := L.ne_of_inUse hused hunused
  -- The cleared inode counts as in use from here on.
  obtain ⟨htaken, hheld₁, hmarked₁, hused₁⟩ :=
    h.take (n := run.index + 1) ⟨by omega, hindex⟩ hunused
  have htake : run.taken = m.fill (L.inodeAt (run.index + 1)) 128 0 := by rw [run.take, hinode]
  rw [← htake] at htaken hheld₁ hmarked₁ hused₁
  have hsize : run.index + 1 < 2 ^ 32 := by
    have hmapped := run.mapped
    omega
  have henter := run.enter
  rw [hparent] at henter
  obtain ⟨hdata, hpos, hcleared, hgranted, hspare, hused₂⟩ := htaken.pick hheld₁ hmarked₁
    hpicks hspare_e hspare_d ((Function.update_of_ne hne ..).trans hused) hused hroom hname
    hsize henter run.clear
  obtain rfl : run.data = d := by omega
  have hcount := run.count
  rw [htaken.holds.inodeTableAt (by omega), show L.inodeTable * 1024 + 128 * run.index =
    L.inodeAt (run.index + 1) from rfl] at hcount
  obtain ⟨hfilled, -, hused₃⟩ := hcleared.directory (Function.update_self ..) hgranted hpos hspare
  have hcounted := hfilled.counters hcount
  obtain ⟨hdone, -, -, hused₄⟩ := hcounted.owned.use_inode hindex
  have hfinal : L.inUse m' = Function.update (L.inUse m) (run.index + 1) true :=
    (congrArg L.inUse run.mark).trans (by
      rw [hused₄, hcounted.used, hused₃, hused₂, hused₁])
  have hlast : ∀ {V}, Owned L V (markInode run.counted run.index) → Owned L V m' :=
    fun hV => run.mark.symm ▸ hV
  rw [hfinal]
  exact hlast hdone

/-- A file of less than one block takes one free block. -/
theorem fillFile_short {inode : Nat} {file : List UInt8} {x : Unit} (hshort : file.length < 1024)
    (h : fillFile inode file m = .ok x m') : ∃ (d : Nat) (cleared : Memory),
      findFreeBlock m = .ok d cleared ∧ d * 1024 + 1024 ≤ 131072 ∧
        m' = (cleared.store (inode + 40) 4 d).write (d * 1024) file := by
  rw [fillFile] at h
  have hneeded : toInt ((file.length / blockSize + 1) % 2 ^ 32) = 1 := by
    rw [Nat.div_eq_of_lt (show file.length < blockSize from hshort)]
    rfl
  rw [hneeded] at h
  obtain ⟨⟨left, rest⟩, u, hdirect, h⟩ := bind_ok.mp h
  rw [fillDirect, if_neg (by decide)] at hdirect
  obtain ⟨r, cleared, hclear, hdirect⟩ := bind_ok.mp hdirect
  obtain ⟨d, rfl, hd, hbound, hfill⟩ := findFreeBlock_ok hclear
  obtain ⟨_, v, hfound, hdirect⟩ := bind_ok.mp hdirect
  obtain ⟨-, rfl⟩ := ensure_ok.mp hfound
  obtain ⟨_, v, hwrite, hdirect⟩ := bind_ok.mp hdirect
  obtain ⟨p, hp, -, rfl⟩ := write_ok.mp hwrite
  obtain ⟨_, v, hread, hdirect⟩ := bind_ok.mp hdirect
  obtain ⟨_, w, hcopy, hread⟩ := bind_ok.mp hread
  obtain ⟨q, hq, -, rfl⟩ := memcpy_ok.mp hcopy
  cases hread
  rw [fillDirect, if_pos (by decide)] at hdirect
  cases hdirect
  obtain ⟨_, w, hbeyond, hdone⟩ := bind_ok.mp h
  rw [fillBeyond, if_pos (by decide)] at hbeyond
  cases hbeyond
  obtain ⟨-, rfl⟩ := ensure_ok.mp hdone
  rw [getBlock, show blockSize = 1024 from rfl] at hq
  obtain rfl : p = inode + 40 := by
    simp only [iBlock] at hp
    omega
  obtain rfl : q = d * 1024 := by omega
  rw [toUnsigned_natCast (by omega), List.take_of_length_le (show file.length ≤ blockSize from
    hshort.le)]
  exact ⟨d, _, hclear, hbound, rfl⟩

/-- `ext2_cp` clears the inode, sets its mode and then its bit. -/
theorem claimed {source target : CString} {file : Option (List UInt8)}
    (h : Owned L (L.inUse m) m) (start : CpStart source file target m) :
    Owned L (Function.update (L.inUse m) (start.index + 1) true) start.claimed ∧
      L.held (Function.update (L.inUse m) (start.index + 1) true) start.claimed =
        L.held (L.inUse m) m ∧
      (∀ b ≤ L.blocks, L.marked start.claimed b = L.marked m b) := by
  obtain ⟨hindex, hunused, -, hclaim⟩ := start.claimed_eq h.holds
  have hn : 1 ≤ start.index + 1 ∧ start.index + 1 ≤ L.inodes := ⟨by omega, hindex⟩
  obtain ⟨htaken, hheld₁, hmarked₁, -⟩ := h.take hn hunused
  have hmode : Keeps L _ (m.fill (L.inodeAt (start.index + 1)) 128 0)
      ((m.fill (L.inodeAt (start.index + 1)) 128 0).store (L.inodeAt (start.index + 1)) 2
        ext2SIfreg) :=
    htaken.write_inode hn (fun a ha => store_apply_of_outside (by omega)) fun _ a hlo _ =>
      store_apply_of_outside (by omega)
  obtain ⟨hclaimed, hheld₂, hmarked₂, -⟩ := hmode.owned.use_inode hindex
  rw [← hclaim] at hclaimed hheld₂ hmarked₂
  refine ⟨hclaimed, ?_, fun b hb => ?_⟩
  · rw [hheld₂, hmode.held, hheld₁]
  · rw [hmarked₂ b hb, hmode.marked b hb, hmarked₁ b hb]

/-- A successful run of `ext2_cp` that spares the owners keeps ownership exclusive. -/
theorem cp {source target : CString} {file : Option (List UInt8)} (h : Owned L (L.inUse m) m)
    (run : CpRun source file target m m') (hc : (Command.cp source file target).SparesOwners L m) :
    Owned L (L.inUse m') m' := by
  obtain ⟨e, d, hpicks, hspare_e, hspare_d⟩ := hc.picks
  obtain ⟨hindex, hunused, hinode', -⟩ := run.toCpStart.claimed_eq h.holds
  obtain ⟨-, hused₂, -, -⟩ := run.toCpStart.claimed_apply h.holds
  obtain ⟨hclaimed, hheld, hmarked⟩ := h.claimed run.toCpStart
  obtain ⟨parent, hparent, hused, hroom⟩ := hc.directory _ run.directory_eq
  have hname := hc.name _ run.nameLength_eq
  have hshort : run.contents.length < 1024 := by
    have hlen := hc.short
    simp only [Command.contents, run.opened, Option.getD_some] at hlen
    exact hlen
  have hne := L.ne_of_inUse hused hunused
  have hsize : run.index + 1 < 2 ^ 32 := by
    have hmapped := run.mapped
    omega
  have henter := run.enter
  rw [hparent] at henter
  obtain ⟨d', cleared, hclear, -, hfilled⟩ := fillFile_short hshort run.fill
  rw [hinode'] at hfilled
  obtain ⟨hdata, hpos, hcleared, hgranted, hspare, hused₃⟩ :=
    hclaimed.pick hheld hmarked hpicks hspare_e hspare_d
      ((Function.update_of_ne hne ..).trans hused) hused hroom hname hsize henter hclear
  obtain rfl : d' = d := by omega
  -- The one block of data goes to the first pointer.
  obtain ⟨hstored, hheld₄, hmarked₄, hused₄⟩ := hcleared.first_pointer (Function.update_self ..)
    hgranted hpos hspare
  have hdata' : Keeps L _ _ run.filled := hstored.write_block hspare.data (fun n => by
    rw [hheld₄, Function.update_of_ne fun h => Pointer.noConfusion (Prod.mk.inj h).2]
    exact hspare.free _) fun a ha => by
      rw [hfilled, write_apply_of_outside (by omega)]
  have hcounted := hdata'.owned.counters run.count
  have hfinal : L.inUse m' = Function.update (L.inUse m) (run.index + 1) true := by
    rw [hcounted.used, hdata'.used, hused₄, hused₃, hused₂]
  rw [hfinal]
  exact hcounted.owned

end Owned

/-! ## A sequence of runs -/

/-- From a consistent image, ownership of blocks stays exclusive in every sequence of successful
runs each of which spares the owners. -/
theorem exclusiveBlocks_of_spared {cs : List Command} (h : Consistent L m)
    (hrun : Guarded Command.run (fun c => c.SparesOwners L) cs m m') : L.ExclusiveBlocks m' := by
  have hstep : ∀ (c : Command) (s t : Memory), c.SparesOwners L s → c.run s = .ok () t →
      Owned L (L.inUse s) s → Owned L (L.inUse t) t := by
    intro c s t hc hok hs
    rw [Command.run_ok] at hok
    cases c with
    | mkdir path =>
      obtain ⟨run⟩ := mkdir_ok hok
      exact hs.mkdir run hc
    | cp source file target =>
      obtain ⟨-, ⟨run⟩⟩ := cp_ok hok
      exact hs.cp run hc
  exact (hrun.induction hstep h.owned).owners

/-! ## Two runs in the sample image -/

/-- A run in an image without indirect blocks that finds a directory with a null direct pointer and
picks two blocks that no pointer holds. -/
theorem Command.SparesOwners.of_direct {c : Command} {n i e d : Nat} {k : Int}
    (hdirect : ∀ n ∈ List.range' 1 L.inodes, L.inUse m n = true → L.word m n 12 = 0)
    (hdirectory : c.directory m = some (n : Int)) (hused : L.inUse m n = true) (hi : i < 12)
    (hnull : L.word m n i = 0) (hpicks : L.picks m = some (e, d))
    (hdata : e ∉ L.metadata ∧ d ∉ L.metadata)
    (hfree : ∀ b ∈ [e, d], b ∉ L.directSlots.filterMap (L.held (L.inUse m) m))
    (hname : c.nameLength = some k) (hk : k ≤ 255) (hshort : c.contents.length < 1024) :
    c.SparesOwners L m where
  directory := fun d' hd' =>
    ⟨n, Option.some.inj (hd'.symm.trans hdirectory), hused, .inl ⟨i, hi, hnull⟩⟩
  picks := ⟨e, d, hpicks,
    ⟨hdata.1, Layout.held_ne_of_direct hdirect (hfree e List.mem_cons_self)⟩,
    ⟨hdata.2, Layout.held_ne_of_direct hdirect (hfree d (by simp))⟩⟩
  name := fun k' hk' => by
    obtain rfl := Option.some.inj (hk'.symm.trans hname)
    exact hk
  short := hshort

/-- The run that makes `/a/b` in the image with a lost block spares the owners. -/
theorem sparesOwners_sample : (Command.mkdir abPath).SparesOwners sampleLayout (sample true) :=
  .of_direct (n := 11) (i := 1) (e := 9) (d := 10) (direct_sample true) (by decide +kernel)
    (by decide +kernel) (by decide) (by decide +kernel) (by decide +kernel) (by decide)
    (by rw [held_sample]; decide) (show _ = some 1 by decide) (by decide) (by decide)

/-- The image with a lost block after `/a/b` has been made. -/
def sampleWith : Memory := final ((Command.mkdir abPath).run (sample true))

theorem run_sample : (Command.mkdir abPath).run (sample true) = .ok () sampleWith := by
  obtain ⟨_, m', hrun, -⟩ := exists_of_holds
    (show holds ((Command.mkdir abPath).run (sample true)) (fun _ _ => true) = true by
      decide +kernel)
  rw [sampleWith, hrun, final_ok]

/-- So does the run that makes `/a/c` there. -/
theorem sparesOwners_sampleWith : (Command.mkdir acPath).SparesOwners sampleLayout sampleWith := by
  have hheld : sampleLayout.directSlots.filterMap
      (sampleLayout.held (sampleLayout.inUse sampleWith) sampleWith) = [7, 8, 9, 10] := by
    decide +kernel
  refine .of_direct (n := 11) (i := 2) (e := 11) (d := 12) (by decide +kernel) (by decide +kernel)
    (by decide +kernel) (by decide) (by decide +kernel) (by decide +kernel) (by decide) ?_
    (show _ = some 1 by decide) (by decide) (by decide)
  rw [hheld]
  decide

/-- Both runs, one after the other. -/
theorem guarded_sample : ∃ m', Guarded Command.run (fun c => c.SparesOwners sampleLayout)
    [.mkdir abPath, .mkdir acPath] (sample true) m' := by
  obtain ⟨_, m', hrun, -⟩ := exists_of_holds
    (show holds ((Command.mkdir acPath).run sampleWith) (fun _ _ => true) = true by decide +kernel)
  exact ⟨m', .cons sparesOwners_sample run_sample (.cons sparesOwners_sampleWith hrun .nil)⟩

theorem exclusiveBlocks_of_spared_sample : ∃ m', Guarded Command.run
    (fun c => c.SparesOwners sampleLayout) [.mkdir abPath, .mkdir acPath] (sample true) m' ∧
      sampleLayout.ExclusiveBlocks m' := by
  obtain ⟨m', hguarded⟩ := guarded_sample
  exact ⟨m', hguarded, exclusiveBlocks_of_spared (consistent_sample true) hguarded⟩

/-- In a consistent image without lost blocks, making `/a/b` gives the block of `a` to a second
pointer of `a`. -/
theorem not_exclusiveBlocks : Consistent sampleLayout (sample false) ∧
    ∃ m', runAll Command.run [.mkdir abPath] (sample false) = .ok () m' ∧
      ¬ sampleLayout.ExclusiveBlocks m' := by
  refine ⟨consistent_sample false, ?_⟩
  obtain ⟨_, m', hrun, hheld⟩ := exists_of_holds
    (show holds (runAll Command.run [.mkdir abPath] (sample false)) (fun _ m' =>
      sampleLayout.held (sampleLayout.inUse m') m' (11, .direct 0) = some 8 &&
        sampleLayout.held (sampleLayout.inUse m') m' (11, .direct 1) = some 8) = true by
      decide +kernel)
  refine ⟨m', hrun, fun h => ?_⟩
  rw [Bool.and_eq_true, decide_eq_true_iff, decide_eq_true_iff] at hheld
  have hsame := h.unique hheld.1 hheld.2
  cases hsame

end OsAssignments.Ext2
