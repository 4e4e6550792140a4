import OsAssignments.Ext2.Image

/-!
# Exclusive ownership, one store at a time

The invariant of an image under change: its layout holds, its metadata is marked, and the
inodes of a set `U` own their blocks exclusively. Each kind of store the tools make keeps it,
and says which blocks are held afterwards.
-/

namespace OsAssignments.Ext2

open Memory

/-- The inodes of `U` own their blocks exclusively. -/
structure Owned (L : Layout) (U : Nat → Bool) (m : Memory) : Prop where
  holds : L.Holds m
  reserved : ∀ b ∈ L.metadata, L.marked m b = true
  numbered : ∀ n, U n = true → 1 ≤ n ∧ n ≤ L.inodes
  owners : Exclusive (L.Granted m) (L.held U m)

/-- Directory `d` is an inode of the table that points to blocks a file may own only. -/
structure Layout.Backed (L : Layout) (m : Memory) (d : Nat) : Prop where
  numbered : 1 ≤ d ∧ d ≤ L.inodes
  granted : ∀ p a, L.slotAt m (d, p) = some a → m.load a 4 ≠ 0 → L.Granted m (m.load a 4)

variable {L : Layout} {U : Nat → Bool} {m m' : Memory}

namespace Layout

theorem inUse_iff {n : Nat} : L.inUse m n = true ↔
    1 ≤ n ∧ n ≤ L.inodes ∧ m.bit (L.inodeBitmap * 1024) (n - 1) = true := by
  simp only [inUse, Bool.and_eq_true, decide_eq_true_eq, and_assoc]

theorem held_eq_some_iff {s : Slot} {b : Nat} : L.held U m s = some b ↔
    U s.1 = true ∧ ∃ a, L.slotAt m s = some a ∧ m.load a 4 = b ∧ b ≠ 0 := by
  rw [held]
  by_cases hU : U s.1 = true
  · rw [if_pos hU]
    cases hs : L.slotAt m s with
    | none => simp
    | some a =>
      by_cases hnull : m.load a 4 = 0
      · simp only [hnull, ite_true]
        constructor
        · intro h
          cases h
        · rintro ⟨-, c, hc, hb, hne⟩
          obtain rfl := Option.some.inj hc
          exact absurd (hb.symm.trans hnull) hne
      · simp only [hnull, ite_false, Option.some.injEq]
        constructor
        · rintro rfl
          exact ⟨hU, a, rfl, rfl, hnull⟩
        · rintro ⟨-, c, rfl, hb, -⟩
          exact hb
  · rw [if_neg hU]
    simp [hU]

/-- The indirect block of an inode in `U`. -/
theorem held_indirect {n : Nat} (hU : U n = true) (hne : L.word m n 12 ≠ 0) :
    L.held U m (n, .indirect) = some (L.word m n 12) :=
  held_eq_some_iff.mpr ⟨hU, _, rfl, rfl, hne⟩

/-- The bytes that decide which blocks the inodes of `U` hold. -/
structure Shows (L : Layout) (U : Nat → Bool) (m : Memory) (a : Nat) : Prop where
  shows : (∃ n, U n = true ∧ L.inodeAt n + 40 ≤ a ∧ a < L.inodeAt n + 92) ∨
    ∃ n, U n = true ∧ L.word m n 12 ≠ 0 ∧ a / 1024 = L.word m n 12

theorem word_congr {n i : Nat} (hU : U n = true) (hi : i < 13)
    (hsame : ∀ a, L.Shows U m a → m' a = m a) : L.word m' n i = L.word m n i :=
  load_congr fun j hj => hsame _ ⟨.inl ⟨n, hU, by omega, by omega⟩⟩

theorem slotAt_congr {s : Slot} (hU : U s.1 = true)
    (hsame : ∀ a, L.Shows U m a → m' a = m a) : L.slotAt m' s = L.slotAt m s := by
  obtain ⟨n, p⟩ := s
  cases p with
  | direct i => rfl
  | indirect => rfl
  | entry k => simp only [slotAt, word_congr hU (show 12 < 13 by decide) hsame]

/-- The bytes of a pointer are among those that decide. -/
theorem shows_slot {s : Slot} {a i : Nat} (hU : U s.1 = true) (hs : L.slotAt m s = some a)
    (hi : i < 4) : L.Shows U m (a + i) := by
  obtain ⟨n, p⟩ := s
  cases p with
  | direct j =>
    cases hs
    exact ⟨.inl ⟨n, hU, by omega, by omega⟩⟩
  | indirect =>
    cases hs
    exact ⟨.inl ⟨n, hU, by omega, by omega⟩⟩
  | entry k =>
    rw [slotAt] at hs
    by_cases hnull : L.word m n 12 = 0
    · rw [if_pos hnull] at hs
      cases hs
    · rw [if_neg hnull] at hs
      cases hs
      exact ⟨.inr ⟨n, hU, hnull, by omega⟩⟩

/-- What is held depends on those bytes only. -/
theorem held_congr (hsame : ∀ a, L.Shows U m a → m' a = m a) : L.held U m' = L.held U m := by
  funext s
  by_cases hU : U s.1 = true
  · simp only [held, hU, ite_true, slotAt_congr hU hsame]
    cases hs : L.slotAt m s with
    | none => rfl
    | some a => simp only [load_congr (m := m') fun i hi => hsame _ (shows_slot hU hs hi)]
  · simp only [held, hU, Bool.false_eq_true, ite_false]

end Layout

/-- A consistent image starts with the invariant, for the inodes in use. -/
theorem Consistent.owned (h : Consistent L m) : Owned L (L.inUse m) m :=
  ⟨h.holds, h.reserved, fun n hn => by
    obtain ⟨hlo, hhi, -⟩ := Layout.inUse_iff.mp hn
    exact ⟨hlo, hhi⟩, h.owners⟩

namespace Owned

theorem backed (h : Owned L U m) {d : Nat} (hd : U d = true) : L.Backed m d :=
  ⟨h.numbered d hd, fun _ _ ha hne =>
    h.owners.granted (Layout.held_eq_some_iff.mpr ⟨hd, _, ha, rfl, hne⟩)⟩

/-- The blocks that decide are the inode table and the indirect blocks, which are not metadata. -/
theorem shows_block (h : Owned L U m) {a : Nat} (ha : L.Shows U m a) :
    (L.inodeTable ≤ a / 1024 ∧ a / 1024 < L.inodeTable + (L.inodes * 128 + 1023) / 1024) ∨
      ∃ n, U n = true ∧ L.held U m (n, .indirect) = some (a / 1024) ∧ a / 1024 ∉ L.metadata := by
  rcases ha.shows with ⟨n, hU, hlo, hhi⟩ | ⟨n, hU, hne, hblock⟩
  · exact .inl (Layout.inode_block (h.numbered n hU) (by omega))
  · have hheld := Layout.held_indirect hU hne
    rw [← hblock] at hheld
    exact .inr ⟨n, hU, hheld, (h.owners.granted hheld).data⟩

/-- The bit of a block lies in the block bitmap. -/
theorem marked_block {b : Nat} (hb : b ≤ L.blocks) :
    (L.blockBitmap * 1024 + (b - 1) / 8) / 1024 = L.blockBitmap := by
  have hmapped := L.mapped
  omega

theorem marked_congr {b : Nat} (hb : b ≤ L.blocks)
    (hsame : ∀ a, a / 1024 = L.blockBitmap → m' a = m a) : L.marked m' b = L.marked m b :=
  bit_congr (hsame _ (marked_block hb))

/-- The bit of an inode lies in the inode bitmap. -/
theorem inUse_congr (hsame : ∀ a, a / 1024 = L.inodeBitmap → m' a = m a) :
    L.inUse m' = L.inUse m := by
  funext n
  rw [Bool.eq_iff_iff, Layout.inUse_iff, Layout.inUse_iff]
  refine and_congr_right fun h1 => and_congr_right fun h2 => ?_
  have hinodes := L.inodes_le
  rw [bit_congr (hsame _ (by omega))]

end Owned

/-- Stores after which the same inodes hold the same blocks, and nothing is marked or put in use. -/
structure Keeps (L : Layout) (U : Nat → Bool) (m m' : Memory) : Prop where
  owned : Owned L U m'
  held : L.held U m' = L.held U m
  marked : ∀ b ≤ L.blocks, L.marked m' b = L.marked m b
  used : L.inUse m' = L.inUse m

theorem Keeps.trans {m'' : Memory} (h : Keeps L U m m') (h' : Keeps L U m' m'') :
    Keeps L U m m'' :=
  ⟨h'.owned, h'.held.trans h.held, fun b hb => (h'.marked b hb).trans (h.marked b hb),
    h'.used.trans h.used⟩

namespace Owned

/-- A block that decides nothing and is none of the metadata the invariant reads. -/
theorem not_shows_of_metadata (h : Owned L U m) {a : Nat} (ha : L.Shows U m a) :
    a / 1024 ≠ 1 ∧ a / 1024 ≠ 2 ∧ a / 1024 ≠ L.blockBitmap ∧ a / 1024 ≠ L.inodeBitmap := by
  obtain ⟨hbb, hib, -, htable⟩ := L.separate
  rcases h.shows_block ha with ⟨hlo, hhi⟩ | ⟨n, -, -, hdata⟩
  · have hblock := htable _ hlo hhi
    omega
  · rw [Layout.mem_metadata] at hdata
    simp only [not_or] at hdata
    exact ⟨hdata.1, hdata.2.1, hdata.2.2.1, hdata.2.2.2.1⟩

/-- Ownership depends on the pointers and the marks. -/
theorem of_same (h : Owned L U m) (hm : L.Holds m') (hheld : L.held U m' = L.held U m)
    (hmarked : ∀ b ≤ L.blocks, L.marked m' b = L.marked m b) : Owned L U m' := by
  refine ⟨hm, fun b hb => ?_, h.numbered, ?_⟩
  · rw [hmarked b (Layout.lt_blocks hb).2.le]
    exact h.reserved b hb
  · rw [hheld]
    refine h.owners.mono fun b hb => ⟨hb.inside, hb.data, ?_⟩
    rw [hmarked b hb.inside.le]
    exact hb.marked

/-- Stores that leave the layout, the bitmaps and the bytes that decide alone. -/
theorem frame (h : Owned L U m)
    (hlayout : ∀ a, 1024 ≤ a ∧ a < 1032 ∨ 2048 ≤ a ∧ a < 2060 → m' a = m a)
    (hbitmaps : ∀ a, a / 1024 = L.blockBitmap ∨ a / 1024 = L.inodeBitmap → m' a = m a)
    (hsame : ∀ a, L.Shows U m a → m' a = m a) : Keeps L U m m' := by
  have hheld := Layout.held_congr hsame
  have hmarked : ∀ b ≤ L.blocks, L.marked m' b = L.marked m b :=
    fun b hb => marked_congr hb fun a ha => hbitmaps a (.inl ha)
  exact ⟨h.of_same (h.holds.congr hlayout) hheld hmarked, hheld, hmarked,
    inUse_congr fun a ha => hbitmaps a (.inr ha)⟩

/-- A block that is neither metadata nor an indirect block decides nothing. -/
theorem block_ne_of_shows (h : Owned L U m) {b : Nat} (hb : b ∉ L.metadata)
    (hind : ∀ n, L.held U m (n, .indirect) ≠ some b) {a : Nat} (ha : L.Shows U m a) :
    a / 1024 ≠ b := by
  intro hab
  rcases h.shows_block ha with htable | ⟨n, -, hheld, -⟩
  · rw [hab] at htable
    exact hb (Layout.mem_metadata.mpr (.inr (.inr (.inr (.inr htable)))))
  · exact hind n (hab ▸ hheld)

/-- Stores into one block that is neither metadata nor an indirect block. -/
theorem write_block (h : Owned L U m) {b : Nat} (hb : b ∉ L.metadata)
    (hind : ∀ n, L.held U m (n, .indirect) ≠ some b) (hsame : ∀ a, a / 1024 ≠ b → m' a = m a) :
    Keeps L U m m' := by
  have hmem : ∀ {c}, c ∈ L.metadata → c ≠ b := fun hc hcb => hb (hcb ▸ hc)
  refine h.frame (fun a ha => hsame a ?_) (fun a ha => hsame a ?_)
    fun a ha => hsame a (h.block_ne_of_shows hb hind ha)
  · rcases ha with ha | ha
    · have h1 := hmem (Layout.mem_metadata.mpr (.inl rfl))
      omega
    · have h2 := hmem (Layout.mem_metadata.mpr (.inr (.inl rfl)))
      omega
  · rcases ha with ha | ha
    · exact hmem (Layout.mem_metadata.mpr (.inr (.inr (.inl ha))))
    · exact hmem (Layout.mem_metadata.mpr (.inr (.inr (.inr (.inl ha)))))

/-- Stores into the super block and the group descriptor that leave the layout alone. -/
theorem write_counters (h : Owned L U m)
    (hlayout : ∀ a, 1024 ≤ a ∧ a < 1032 ∨ 2048 ≤ a ∧ a < 2060 → m' a = m a)
    (hsame : ∀ a, a / 1024 ≠ 1 → a / 1024 ≠ 2 → m' a = m a) : Keeps L U m m' := by
  obtain ⟨hbb, hib, -, -⟩ := L.separate
  refine h.frame hlayout (fun a ha => hsame a (by omega) (by omega)) fun a ha => ?_
  obtain ⟨h1, h2, -, -⟩ := h.not_shows_of_metadata ha
  exact hsame a h1 h2

/-- Setting the bit of a block stores into the block bitmap. -/
theorem markBlock_apply (h : L.Holds m) {e : Nat} (he : e < L.blocks) {a : Nat}
    (ha : a / 1024 ≠ L.blockBitmap) : markBlock m e a = m a := by
  have hmapped := L.mapped
  rw [markBlock, h.blockBitmapAt]
  exact orBit_apply_of_ne (by omega)

/-- Setting the bit of an inode stores into the inode bitmap. -/
theorem markInode_apply (h : L.Holds m) {k : Nat} (hk : k < L.inodes) {a : Nat}
    (ha : a / 1024 ≠ L.inodeBitmap) : markInode m k a = m a := by
  have hinodes := L.inodes_le
  rw [markInode, h.inodeBitmapAt]
  exact orBit_apply_of_ne (by omega)

/-- `set_block_bitmap` marks one more block. -/
theorem mark_block (h : Owned L U m) {e : Nat} (he : e < L.blocks) :
    Owned L U (markBlock m e) ∧ L.held U (markBlock m e) = L.held U m ∧
      (∀ b, L.marked (markBlock m e) b = (L.marked m b || decide (e = b - 1))) ∧
      L.inUse (markBlock m e) = L.inUse m := by
  obtain ⟨hbb, hib, hne, -⟩ := L.separate
  have hmapped := L.mapped
  have hbits : ∀ b, L.marked (markBlock m e) b = (L.marked m b || decide (e = b - 1)) := by
    intro b
    rw [Layout.marked, Layout.marked, markBlock, h.holds.blockBitmapAt, bit_orBit]
  have hmore : ∀ b, L.marked m b = true → L.marked (markBlock m e) b = true := fun b hb => by
    rw [hbits, hb, Bool.true_or]
  have hsame : ∀ a, a / 1024 ≠ L.blockBitmap → markBlock m e a = m a :=
    fun a ha => markBlock_apply h.holds he ha
  have hheld : L.held U (markBlock m e) = L.held U m := Layout.held_congr fun a ha =>
    hsame a (h.not_shows_of_metadata ha).2.2.1
  refine ⟨⟨h.holds.congr fun a ha => hsame a (by omega), fun b hb => hmore b (h.reserved b hb),
    h.numbered, ?_⟩, hheld, hbits, inUse_congr fun a ha => hsame a (by omega)⟩
  rw [hheld]
  exact h.owners.mono fun b hb => ⟨hb.inside, hb.data, hmore b hb.marked⟩

/-- Setting the bit of an inode puts it in use. -/
theorem inUse_markInode (h : L.Holds m) {k : Nat} (hk : k < L.inodes) :
    L.inUse (markInode m k) = Function.update (L.inUse m) (k + 1) true := by
  funext n
  rw [Bool.eq_iff_iff, Layout.inUse_iff, markInode, h.inodeBitmapAt, bit_orBit]
  by_cases hn : n = k + 1
  · subst hn
    simp only [Function.update_self, Nat.add_sub_cancel, decide_true, Bool.or_true, and_true,
      iff_true]
    omega
  · rw [Function.update_of_ne hn, Layout.inUse_iff]
    have hkn : 1 ≤ n → k ≠ n - 1 := by omega
    constructor
    · rintro ⟨h1, h2, hbit⟩
      simp only [hkn h1, decide_false, Bool.or_false] at hbit
      exact ⟨h1, h2, hbit⟩
    · rintro ⟨h1, h2, hbit⟩
      exact ⟨h1, h2, by rw [hbit, Bool.true_or]⟩

/-- `set_inode_bitmap` puts one more inode in use. -/
theorem use_inode (h : Owned L U m) {k : Nat} (hk : k < L.inodes) :
    Owned L U (markInode m k) ∧ L.held U (markInode m k) = L.held U m ∧
      (∀ b ≤ L.blocks, L.marked (markInode m k) b = L.marked m b) ∧
      L.inUse (markInode m k) = Function.update (L.inUse m) (k + 1) true := by
  obtain ⟨-, hib, hne, -⟩ := L.separate
  have hsame : ∀ a, a / 1024 ≠ L.inodeBitmap → markInode m k a = m a :=
    fun a ha => markInode_apply h.holds hk ha
  have hheld : L.held U (markInode m k) = L.held U m := Layout.held_congr fun a ha =>
    hsame a (h.not_shows_of_metadata ha).2.2.2
  have hmarked : ∀ b ≤ L.blocks, L.marked (markInode m k) b = L.marked m b :=
    fun b hb => marked_congr hb fun a ha => hsame a (by omega)
  exact ⟨h.of_same (h.holds.congr fun a ha => hsame a (by omega)) hheld hmarked, hheld, hmarked,
    inUse_markInode h.holds hk⟩

/-- Stores into one inode that leave its pointers alone if it is in `U`. -/
theorem write_inode (h : Owned L U m) {n : Nat} (hn : 1 ≤ n ∧ n ≤ L.inodes)
    (hsame : ∀ a, a < L.inodeAt n ∨ L.inodeAt n + 128 ≤ a → m' a = m a)
    (hkeep : U n = true → ∀ a, L.inodeAt n + 40 ≤ a → a < L.inodeAt n + 92 → m' a = m a) :
    Keeps L U m m' := by
  obtain ⟨hbb, hib, -, -⟩ := L.separate
  have hblock : ∀ a, L.inodeAt n ≤ a → a < L.inodeAt n + 128 → 3 ≤ a / 1024 ∧
      a / 1024 ≠ L.blockBitmap ∧ a / 1024 ≠ L.inodeBitmap := fun a hlo hhi => by
    obtain ⟨h3, hb, hi, -⟩ := L.inode_apart hn ⟨hlo, hhi⟩
    exact ⟨h3, hb, hi⟩
  have hother : ∀ a, (L.inodeAt n ≤ a → a < L.inodeAt n + 128 → False) → m' a = m a := by
    intro a ha
    refine hsame a ?_
    by_cases hlo : L.inodeAt n ≤ a
    · exact .inr (Nat.le_of_not_lt (ha hlo))
    · exact .inl (Nat.lt_of_not_le hlo)
  refine h.frame (fun a ha => hother a fun hlo hhi => ?_) (fun a ha => hother a fun hlo hhi => ?_)
    fun a ha => ?_
  · have := hblock a hlo hhi
    omega
  · have := hblock a hlo hhi
    omega
  · rcases ha.shows with ⟨n', hU, hlo, hhi⟩ | ⟨n', hU, hne, hind⟩
    · by_cases hnn : n' = n
      · subst hnn
        exact hkeep hU a hlo hhi
      · have hdisj := L.inode_disjoint (h.numbered n' hU).1 hn.1 hnn
        exact hsame a (by omega)
    · refine hother a fun hlo hhi => ?_
      have hdata := (h.owners.granted (Layout.held_indirect hU hne)).data
      rw [← hind] at hdata
      exact hdata (L.inode_mem_metadata hn ⟨hlo, hhi⟩)

/-- `find_free_inode` clears an inode outside `U`, which then holds nothing. -/
theorem take (h : Owned L U m) {n : Nat} (hn : 1 ≤ n ∧ n ≤ L.inodes) (hU : U n = false) :
    Owned L (Function.update U n true) (m.fill (L.inodeAt n) 128 0) ∧
      L.held (Function.update U n true) (m.fill (L.inodeAt n) 128 0) = L.held U m ∧
      (∀ b ≤ L.blocks, L.marked (m.fill (L.inodeAt n) 128 0) b = L.marked m b) ∧
      L.inUse (m.fill (L.inodeAt n) 128 0) = L.inUse m := by
  have hcleared : Keeps L U m (m.fill (L.inodeAt n) 128 0) :=
    h.write_inode hn (fun a ha => fill_apply_of_outside ha) fun hUn => by
      rw [hU] at hUn
      cases hUn
  obtain ⟨howned, hheld, hmarked, hused⟩ := hcleared
  have hzero : ∀ i, i < 13 → L.word (m.fill (L.inodeAt n) 128 0) n i = 0 :=
    fun i hi => load_fill_zero (by omega)
  have hgrow : L.held (Function.update U n true) (m.fill (L.inodeAt n) 128 0) = L.held U m := by
    rw [← hheld]
    funext s
    by_cases hs : s.1 = n
    · have hnone : ∀ V : Nat → Bool, L.held V (m.fill (L.inodeAt n) 128 0) s = none := by
        intro V
        refine Option.eq_none_iff_forall_ne_some.mpr fun b hb => ?_
        obtain ⟨-, a, ha, hload, hne⟩ := Layout.held_eq_some_iff.mp hb
        obtain ⟨n', p⟩ := s
        obtain rfl : n' = n := hs
        cases p with
        | direct i =>
          cases ha
          exact hne (hload.symm.trans (hzero i (by omega)))
        | indirect =>
          cases ha
          exact hne (hload.symm.trans (hzero 12 (by decide)))
        | entry k =>
          rw [Layout.slotAt, if_pos (hzero 12 (by decide))] at ha
          cases ha
      rw [hnone, hnone]
    · simp only [Layout.held, Function.update_of_ne hs]
  refine ⟨⟨howned.holds, howned.reserved, fun n' hn' => ?_, ?_⟩, hgrow, hmarked, hused⟩
  · by_cases hnn : n' = n
    · exact hnn ▸ hn
    · rw [Function.update_of_ne hnn] at hn'
      exact h.numbered n' hn'
  · rw [hgrow, ← hheld]
    exact howned.owners

/-! ## Storing a block number -/

/-- A pointer is stored in its inode, or in the indirect block that the inode holds. -/
theorem slotAt_cases {s : Slot} {a : Nat} (hU : U s.1 = true) (hs : L.slotAt m s = some a) :
    (s.2.index < 13 ∧ a = L.inodeAt s.1 + 40 + 4 * s.2.index) ∨
      ∃ b k, k < 256 ∧ s.2.index = 13 + k ∧ a = b * 1024 + 4 * k ∧
        L.held U m (s.1, .indirect) = some b := by
  obtain ⟨n, p⟩ := s
  cases p with
  | direct i =>
    cases hs
    exact .inl ⟨by simp only [Pointer.index]; omega, rfl⟩
  | indirect =>
    cases hs
    exact .inl ⟨by simp only [Pointer.index]; omega, rfl⟩
  | entry k =>
    rw [Layout.slotAt] at hs
    split at hs
    · cases hs
    · next hne =>
      cases hs
      exact .inr ⟨_, k, k.isLt, rfl, rfl, Layout.held_indirect hU hne⟩

/-- Different pointers are stored at different addresses. -/
theorem slotAt_inj (h : Owned L U m) {s t : Slot} {a : Nat} (hs : U s.1 = true)
    (ht : U t.1 = true) (hsa : L.slotAt m s = some a) (hta : L.slotAt m t = some a) : s = t := by
  have hfar : ∀ {n i b k : Nat} {t : Slot}, U n = true → i < 13 → k < 256 →
      L.held U m t = some b → L.inodeAt n + 40 + 4 * i ≠ b * 1024 + 4 * k := by
    intro n i b k t hn hi hk hb heq
    have hmem := L.inode_mem_metadata (h.numbered n hn)
      (a := L.inodeAt n + 40 + 4 * i) ⟨by omega, by omega⟩
    rw [heq, show (b * 1024 + 4 * k) / 1024 = b by omega] at hmem
    exact (h.owners.granted hb).data hmem
  have hext : s.1 = t.1 → s.2.index = t.2.index → s = t :=
    fun hn hi => Prod.ext hn (Pointer.index_inj hi)
  rcases slotAt_cases hs hsa with ⟨hi, hai⟩ | ⟨b, k, hk, hik, hab, hb⟩
  · rcases slotAt_cases ht hta with ⟨hj, haj⟩ | ⟨c, l, hl, hjl, hac, hc⟩
    · have hn : s.1 = t.1 := by
        by_cases hn : s.1 = t.1
        · exact hn
        · have hdisj := L.inode_disjoint (h.numbered _ hs).1 (h.numbered _ ht).1 hn
          omega
      exact hext hn (by rw [hn] at hai; omega)
    · exact absurd (hai.symm.trans hac) (hfar hs hi hl hc)
  · rcases slotAt_cases ht hta with ⟨hj, haj⟩ | ⟨c, l, hl, hjl, hac, hc⟩
    · exact absurd (haj.symm.trans hab) (hfar ht hj hk hb)
    · obtain rfl : b = c := by omega
      have hslot := h.owners.unique hb hc
      exact hext (Prod.mk.inj hslot).1 (by omega)

theorem slotAt_aligned {s : Slot} {a : Nat} (hs : L.slotAt m s = some a) : a % 4 = 0 := by
  obtain ⟨n, p⟩ := s
  cases p with
  | direct i =>
    cases hs
    rw [Layout.inodeAt]
    omega
  | indirect =>
    cases hs
    rw [Layout.inodeAt]
    omega
  | entry k =>
    rw [Layout.slotAt] at hs
    split at hs
    · cases hs
    · cases hs
      omega

/-- Storing the number of a granted block that nobody holds in a null pointer hands the block to
that pointer, unless the pointer is the one to an indirect block. -/
theorem assign (h : Owned L U m) {s : Slot} {a b : Nat} (hs : U s.1 = true)
    (hind : s.2 ≠ .indirect) (hsa : L.slotAt m s = some a) (hb : L.Granted m b) (hne : b ≠ 0)
    (hfree : ∀ t, L.held U m t ≠ some b) :
    Owned L U (m.store a 4 b) ∧
      L.held U (m.store a 4 b) = Function.update (L.held U m) s (some b) ∧
      (∀ c ≤ L.blocks, L.marked (m.store a 4 b) c = L.marked m c) ∧
      L.inUse (m.store a 4 b) = L.inUse m := by
  have hmapped := L.mapped
  have hblocks := hb.inside
  have hother : ∀ {t c}, U t.1 = true → L.slotAt m t = some c → t ≠ s →
      (m.store a 4 b).load c 4 = m.load c 4 := by
    intro t c ht htc hts
    have hac : c ≠ a := fun hca => hts (h.slotAt_inj ht hs (hca ▸ htc) hsa)
    have h1 := slotAt_aligned hsa
    have h2 := slotAt_aligned htc
    exact load_store_of_disjoint (by omega)
  have hword : ∀ n, U n = true → L.word (m.store a 4 b) n 12 = L.word m n 12 := fun n hn =>
    hother (t := (n, .indirect)) hn rfl fun hts => hind (hts ▸ rfl)
  have hslot : ∀ t : Slot, U t.1 = true → L.slotAt (m.store a 4 b) t = L.slotAt m t := by
    rintro ⟨n, p⟩ hn
    cases p with
    | direct i => rfl
    | indirect => rfl
    | entry k => simp only [Layout.slotAt, hword n hn]
  have hheld : L.held U (m.store a 4 b) = Function.update (L.held U m) s (some b) := by
    funext t
    by_cases hts : t = s
    · subst hts
      rw [Function.update_self, Layout.held_eq_some_iff]
      refine ⟨hs, a, (hslot t hs).trans hsa, ?_, hne⟩
      rw [load_store_same]
      omega
    · rw [Function.update_of_ne hts]
      by_cases ht : U t.1 = true
      · simp only [Layout.held, ht, ite_true, hslot t ht]
        cases hc : L.slotAt m t with
        | none => rfl
        | some c => simp only [hother ht hc hts]
      · simp only [Layout.held, ht, Bool.false_eq_true, ite_false]
  have hshows := h.not_shows_of_metadata (Layout.shows_slot (i := 0) hs hsa (by decide))
  have haligned := slotAt_aligned hsa
  have hsame : ∀ c, c / 1024 ≠ a / 1024 → m.store a 4 b c = m c := fun c hc =>
    store_apply_of_outside (by omega)
  rw [Nat.add_zero] at hshows
  have hmarked : ∀ c ≤ L.blocks, L.marked (m.store a 4 b) c = L.marked m c := fun c hc =>
    marked_congr hc fun x hx => hsame x (by omega)
  refine ⟨⟨h.holds.congr fun c hc => hsame c (by omega), fun c hc => ?_, h.numbered, ?_⟩, hheld,
    hmarked, inUse_congr fun x hx => hsame x (by omega)⟩
  · rw [hmarked c (Layout.lt_blocks hc).2.le]
    exact h.reserved c hc
  · rw [hheld]
    refine (h.owners.assign hb hfree).mono fun c hc => ⟨hc.inside, hc.data, ?_⟩
    rw [hmarked c hc.inside.le]
    exact hc.marked

end Owned

end OsAssignments.Ext2
