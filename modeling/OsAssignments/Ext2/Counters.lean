import OsAssignments.Ext2.Copy
import OsAssignments.Ext2.Entered
import OsAssignments.Ext2.LastLink

/-!
# Free counters over a sequence of runs

A run that marks one block and counts one, or frees different blocks and counts each, keeps the
counters equal to the numbers of clear bits. `ext2_mkdir` marks two blocks and counts one.
-/

namespace OsAssignments.Ext2

open Memory Program

variable {L : Layout} {m m' : Memory}

/-- The free counts of the super block and the group descriptor are the numbers of clear bits of
the bitmaps. -/
structure CountersMatch (m : Memory) : Prop where
  superBlocks : m.load 1036 4 = countClear (blockBit m) (blocksCount m)
  groupBlocks : m.load 2060 2 = countClear (blockBit m) (blocksCount m)
  superInodes : m.load 1040 4 = countClear (inodeBit m) (inodesCount m)
  groupInodes : m.load 2062 2 = countClear (inodeBit m) (inodesCount m)

namespace Layout

/-- The counts of a layout's marks and of its inodes in use. -/
def Matches (L : Layout) (m : Memory) : Prop :=
  (m.load 1036 4 = countClear (fun i => L.marked m (i + 1)) L.blocks ∧
    m.load 2060 2 = countClear (fun i => L.marked m (i + 1)) L.blocks) ∧
  m.load 1040 4 = countClear (fun i => L.inUse m (i + 1)) L.inodes ∧
    m.load 2062 2 = countClear (fun i => L.inUse m (i + 1)) L.inodes

theorem Holds.matches_iff (h : L.Holds m) : L.Matches m ↔ CountersMatch m := by
  have hblocks : countClear (Ext2.blockBit m) (blocksCount m) =
      countClear (fun i => L.marked m (i + 1)) L.blocks := by
    rw [h.blocks]
    exact countClear_congr fun i _ => h.blockBit i
  have hinodes : countClear (inodeBit m) (inodesCount m) =
      countClear (fun i => L.inUse m (i + 1)) L.inodes := by
    rw [h.inodes]
    refine countClear_congr fun i hi => ?_
    rw [Bool.eq_iff_iff, inUse_iff, inodeBit, h.inodeBitmapAt, Nat.add_sub_cancel]
    exact ⟨fun hbit => ⟨by omega, hi, hbit⟩, fun hbit => hbit.2.2⟩
  constructor
  · rintro ⟨⟨h1, h2⟩, h3, h4⟩
    exact ⟨h1.trans hblocks.symm, h2.trans hblocks.symm, h3.trans hinodes.symm,
      h4.trans hinodes.symm⟩
  · rintro ⟨h1, h2, h3, h4⟩
    exact ⟨⟨h1.trans hblocks, h2.trans hblocks⟩, h3.trans hinodes, h4.trans hinodes⟩

namespace Matches

/-- Stores elsewhere do not matter. -/
theorem congr (h : L.Matches m) (hsame : ∀ a, L.Decides a → m' a = m a) : L.Matches m' := by
  have hload : ∀ p n, 1024 ≤ p → p + n ≤ 3072 → m'.load p n = m.load p n := fun p n hlo hhi =>
    load_congr fun i hi => hsame _ (by
      by_cases h1 : (p + i) / 1024 = 1
      · exact .inl h1
      · exact .inr (.inl (by omega)))
  have hmarked : countClear (fun i => L.marked m' (i + 1)) L.blocks =
      countClear (fun i => L.marked m (i + 1)) L.blocks := countClear_congr fun i hi =>
    Owned.marked_congr (b := i + 1) hi fun a ha => hsame a (.inr (.inr (.inl ha)))
  have hused : L.inUse m' = L.inUse m :=
    Owned.inUse_congr fun a ha => hsame a (.inr (.inr (.inr ha)))
  rw [Matches, hload 1036 4 (by decide) (by decide), hload 2060 2 (by decide) (by decide),
    hload 1040 4 (by decide) (by decide), hload 2062 2 (by decide) (by decide), hmarked, hused]
  exact h

/-- Freeing different blocks that are marked. -/
theorem freed {bs : List Nat} (h : L.Matches m) (hfreed : Freed L bs m m') (hnodup : bs.Nodup)
    (hbs : ∀ b ∈ bs, 1 ≤ b ∧ b ≤ L.blocks ∧ L.marked m b = true) : L.Matches m' := by
  obtain ⟨⟨h1, h2⟩, h3, h4⟩ := h
  obtain ⟨-, hib, hbi, -⟩ := L.separate
  have hmapped := L.mapped
  have hload : ∀ p n, p + n ≤ 1024 ∨ 1040 ≤ p ∧ p + n ≤ 2060 ∨ 2062 ≤ p ∧ p + n ≤ 3072 →
      m'.load p n = m.load p n := fun p n hp => load_congr fun i hi => by
    have hbb := L.separate.1
    exact hfreed.same _ (by omega) (by omega) (by omega)
  have hused : L.inUse m' = L.inUse m := Owned.inUse_congr fun a ha =>
    hfreed.same a (by omega) (by omega) (by omega)
  -- The bits that are cleared have the numbers of the blocks less one as their indices.
  have hindices : (bs.map (· - 1)).Nodup := hnodup.map_on fun b hb c hc heq => by
    have hb' := (hbs b hb).1
    have hc' := (hbs c hc).1
    omega
  have hcount : countClear (fun i => L.marked m' (i + 1)) L.blocks =
      countClear (fun i => L.marked m (i + 1)) L.blocks + bs.length := by
    have hlength : (bs.map (· - 1)).length = bs.length := List.length_map _
    rw [← hlength, ← countClear_clear hindices fun i hi => ?_]
    · refine countClear_congr fun i hi => ?_
      rw [hfreed.marked (i + 1) (by omega) (by omega)]
      congr 2
      rw [decide_eq_decide, List.mem_map]
      constructor
      · intro hmem
        exact ⟨i + 1, hmem, Nat.add_sub_cancel ..⟩
      · rintro ⟨b, hb, rfl⟩
        rwa [Nat.sub_add_cancel (hbs b hb).1]
    · obtain ⟨b, hb, rfl⟩ := List.mem_map.mp hi
      obtain ⟨hlo, hhi, hmark⟩ := hbs b hb
      rw [Nat.sub_add_cancel hlo]
      exact ⟨by omega, hmark⟩
  have hle := countClear_le (fun i => L.marked m' (i + 1)) L.blocks
  refine ⟨⟨?_, ?_⟩, ?_, ?_⟩
  · rw [hfreed.superBlocks, h1]
    omega
  · rw [hfreed.groupBlocks, h2]
    omega
  · rw [hload 1040 4 (by omega), hused, h3]
  · rw [hload 2062 2 (by omega), hused, h4]

/-- Freeing an inode in use. -/
theorem withoutInode {k : Nat} (h : L.Matches m) (hm : L.Holds m) (hk : k < L.inodes)
    (hused : L.inUse m (k + 1) = true) : L.Matches (withoutInode m k) := by
  obtain ⟨⟨h1, h2⟩, h3, h4⟩ := h
  obtain ⟨hbb, hib, hbi, -⟩ := L.separate
  have hinodes := L.inodes_le
  obtain ⟨happly, hbits, hsuper, hgroup, -⟩ := withoutInode_spec hm hk
  have hmarked : countClear (fun i => L.marked (Ext2.withoutInode m k) (i + 1)) L.blocks =
      countClear (fun i => L.marked m (i + 1)) L.blocks := countClear_congr fun i hi =>
    Owned.marked_congr (b := i + 1) hi fun a ha => happly a (by omega) (by omega) (by omega)
  have hcount : countClear (fun i => L.inUse (Ext2.withoutInode m k) (i + 1)) L.inodes =
      countClear (fun i => L.inUse m (i + 1)) L.inodes + 1 := by
    have hone : countClear (Function.update (fun i => L.inUse m (i + 1)) k false) L.inodes =
        countClear (fun i => L.inUse m (i + 1)) L.inodes + 1 := countClear_update_false hk hused
    rw [← hone]
    refine countClear_congr fun i hi => ?_
    rw [hbits]
    by_cases hik : i = k
    · rw [hik, Function.update_self, Function.update_self]
    · rw [Function.update_of_ne hik, Function.update_of_ne (by omega)]
  have hle := countClear_le (fun i => L.inUse (Ext2.withoutInode m k) (i + 1)) L.inodes
  refine ⟨⟨?_, ?_⟩, by omega, by omega⟩
  · rw [hmarked, ← h1]
    exact load_congr fun i hi => happly _ (by omega) (by omega) (by omega)
  · rw [hmarked, ← h2]
    exact load_congr fun i hi => happly _ (by omega) (by omega) (by omega)

/-- Marking one block, putting one inode in use and counting one of each. -/
theorem of_effect {n e d : Nat} (h : L.Matches m) (hpicks : L.picks m = some (e, d))
    (hn : 1 ≤ n ∧ n ≤ L.inodes) (hunused : L.inUse m n = false)
    (heffect : CpEffect L n e m m') : L.Matches m' := by
  obtain ⟨⟨h1, h2⟩, h3, h4⟩ := h
  obtain ⟨he, -⟩ := picks_eq_some.mp hpicks
  obtain ⟨hclear, hlt, -⟩ := firstClear_eq_some_iff.mp he
  obtain ⟨c, x, hsame, hcount⟩ := heffect.counted
  obtain ⟨hc1, hc3, hc2, hc4⟩ := countOne_counts hcount
  have hload : ∀ p n, 1024 ≤ p → p + n ≤ 3072 → c.load p n = m.load p n := fun p n hlo hhi =>
    load_congr fun i hi => hsame _ (by omega)
  have hmarked : countClear (fun i => L.marked m' (i + 1)) L.blocks + 1 =
      countClear (fun i => L.marked m (i + 1)) L.blocks := by
    have hone : countClear (Function.update (fun i => L.marked m (i + 1)) e true) L.blocks + 1 =
        countClear (fun i => L.marked m (i + 1)) L.blocks := countClear_update_true hlt hclear
    rw [← hone]
    congr 1
    refine countClear_congr fun i hi => ?_
    rw [heffect.marked (i + 1) hi, Nat.add_sub_cancel]
    by_cases hie : i = e
    · rw [hie, Function.update_self, decide_eq_true rfl, Bool.or_true]
    · rw [Function.update_of_ne hie, decide_eq_false (Ne.symm hie), Bool.or_false]
  have hused : countClear (fun i => L.inUse m' (i + 1)) L.inodes + 1 =
      countClear (fun i => L.inUse m (i + 1)) L.inodes := by
    have hone :
        countClear (Function.update (fun i => L.inUse m (i + 1)) (n - 1) true) L.inodes + 1 =
        countClear (fun i => L.inUse m (i + 1)) L.inodes :=
      countClear_update_true (by omega) (by simp only [Nat.sub_add_cancel hn.1, hunused])
    rw [← hone]
    congr 1
    refine countClear_congr fun i hi => ?_
    rw [heffect.used]
    by_cases hin : i = n - 1
    · rw [hin, Function.update_self, Nat.sub_add_cancel hn.1, Function.update_self]
    · rw [Function.update_of_ne hin, Function.update_of_ne (by omega)]
  rw [hload 1036 4 (by decide) (by decide)] at hc1
  rw [hload 1040 4 (by decide) (by decide)] at hc3
  rw [hload 2060 2 (by decide) (by decide)] at hc2
  rw [hload 2062 2 (by decide) (by decide)] at hc4
  have hlt1 := m'.load_lt 1036 4
  have hlt2 := m'.load_lt 2060 2
  have hlt3 := m'.load_lt 1040 4
  have hlt4 := m'.load_lt 2062 2
  exact ⟨⟨by omega, by omega⟩, by omega, by omega⟩

end Matches

end Layout

/-! ## Removing an entry -/

/-- What removing the entry at `p` must meet: it names an inode of the table, neither its length
nor the length that is grown lies where counters or bitmaps are, and an inode that loses its
last link is in use and frees different blocks that are marked. -/
structure Layout.Removes (L : Layout) (m : Memory) (p : Nat) : Prop where
  inode : 1 ≤ m.load p 4 ∧ m.load p 4 ≤ L.inodes
  entry : ∀ a, p + 4 ≤ a → a < p + 6 → a / 1024 ∉ L.metadata
  grown : ∀ r a, r + m.load (p + 4) 2 = p + 4 → r ≤ a → a < r + 2 → ¬ L.Decides a
  released : m.load (L.inodeAt (m.load p 4) + 26) 2 = 1 → L.inUse m (m.load p 4) = true ∧
    L.Releasable m (m.load p 4) ∧ (L.freedBlocks m (m.load p 4)).Nodup ∧
    ∀ b ∈ L.freedBlocks m (m.load p 4), L.marked m b = true

/-- One link less, and the release where none is left. -/
theorem Layout.Matches.dropLink {p : Nat} {x : Unit} (h : L.Matches m) (hm : L.Holds m)
    (hp : L.Removes m p) (hdrop : dropLink (toInt (m.load p 4)) m = .ok x m') :
    L.Holds m' ∧ L.Matches m' ∧ ∀ a, a / 1024 ∉ L.metadata → m' a = m a := by
  have hinode := hp.inode
  have hreleased := hp.released
  generalize m.load p 4 = n at hinode hreleased hdrop
  have hinodes := L.inodes_le
  obtain ⟨hbb, hib, hbi, -⟩ := L.separate
  have hapart := L.inode_apart hinode (y := L.inodeAt n + 26) (by omega)
  obtain ⟨haligned, -⟩ := L.inodeAt_bound hinode
  rw [toInt_of_lt (by omega)] at hdrop
  have hsame : ∀ a, a < L.inodeAt n + 26 ∨ L.inodeAt n + 28 ≤ a →
      withoutLink m (L.inodeAt n + 26) a = m a := fun a ha => store_apply_of_outside (by omega)
  have hholds := holds_withoutLink hm hinode
  have hmatches : L.Matches (withoutLink m (L.inodeAt n + 26)) := h.congr fun a ha => hsame a (by
    rcases ha with ha | ha | ha | ha <;> omega)
  obtain ⟨hpointers, hdata⟩ := withoutLink_congr (m := m) hinode
  rcases (dropLink_iff hm hinode).mp hdrop with ⟨-, rfl⟩ | ⟨hone, hrelease⟩
  · exact ⟨hholds, hmatches, hdata⟩
  · obtain ⟨hused, hreleasable, hnodup, hmarked⟩ := hreleased hone
    obtain ⟨hfreed, hreleasable'⟩ := hreleasable.congr hpointers hdata
    obtain ⟨u, hfree, rfl⟩ := releaseInode_ok hholds hinode
      (fun b hb => (hreleasable'.blocks b hb).2) hreleasable'.indirect hrelease
    rw [hfreed] at hfree
    have hbits : ∀ b ≤ L.blocks, L.marked (withoutLink m (L.inodeAt n + 26)) b = L.marked m b :=
      fun b hb => Owned.marked_congr hb fun a ha => hsame a (by omega)
    have husedu : L.inUse u (n - 1 + 1) = true := by
      rw [Nat.sub_add_cancel hinode.1, ← hused]
      refine congrFun (Owned.inUse_congr fun a ha => ?_) n
      rw [hfree.same a (by omega) (by omega) (by omega), hsame a (by omega)]
    have hmatches' := hmatches.freed hfree hnodup fun b hb => by
      obtain ⟨hlo, hhi⟩ := hreleasable.blocks b hb
      exact ⟨hlo, hhi, (hbits b hhi).trans (hmarked b hb)⟩
    have hholdsu := hfree.holds hholds
    obtain ⟨happly, -⟩ := withoutInode_spec hholdsu (show n - 1 < L.inodes by omega)
    refine ⟨hholdsu.congr fun a ha => happly a (by omega) (by omega) (by omega),
      hmatches'.withoutInode hholdsu (by omega) husedu, fun a ha => ?_⟩
    have hmem := ha
    rw [mem_metadata] at hmem
    simp only [not_or] at hmem
    rw [happly a (by omega) (by omega) hmem.2.2.2.1, hfree.data ha, hdata a ha]

/-- Removing an entry. -/
theorem Layout.Matches.unlinkEntry {p : Nat} {x : Unit} (h : L.Matches m) (hm : L.Holds m)
    (hp : L.Removes m p) (hunlink : unlinkEntry p m = .ok x m') : L.Holds m' ∧ L.Matches m' := by
  obtain ⟨p', u, hpp, hdrop, hgrow⟩ := unlinkEntry_ok hunlink
  obtain rfl := Int.ofNat.inj hpp
  obtain ⟨hholds, hmatches, hdata⟩ := h.dropLink hm hp hdrop
  obtain ⟨r, hr, -, rfl⟩ := growPrevious_ok hgrow
  have hlength : u.load (p + 4) 2 = m.load (p + 4) 2 :=
    load_congr fun i hi => hdata _ (hp.entry _ (by omega) (by omega))
  rw [hlength] at hr ⊢
  have hsame : ∀ a, L.Decides a →
      u.store r 2 ((u.load r 2 + m.load (p + 4) 2) % 65536) a = u a := fun a ha =>
    store_apply_of_outside (by
      by_contra hin
      exact hp.grown r a (by omega) (by omega) (by omega) ha)
  refine ⟨hholds.congr fun a ha => hsame a ?_, hmatches.congr hsame⟩
  rcases ha with ha | ha
  · exact .inl (by omega)
  · exact .inr (.inl (by omega))

/-! ## Runs of the three tools -/

/-- A run of one of the three tools. -/
inductive Tool
  | make (c : Command)
  | remove (path : CString)

/-- A run that must be successful. -/
def Tool.run : Tool → DiskM Unit
  | make c => c.run
  | remove path => do
    let status ← rm path
    Program.ensure (.exit status) (status = 0)

/-- The condition under which a run counts right: it makes no directory; a copy spares the
metadata, and the directory that it finds points to blocks a file may own; a removal meets
the conditions on the entry that it finds. -/
def Tool.CountsRight (t : Tool) (m : Memory) : Prop :=
  ∃ L : Layout, L.Holds m ∧
    match t with
    | make (.mkdir _) => False
    | make (.cp source file target) => (Command.cp source file target).SparesMetadata L m ∧
        ∀ n : Nat, (Command.cp source file target).directory m = some (n : Int) → L.Backed m n
    | remove path => ∀ p : Nat, findFile path m = .ok (p : Int) m → L.Removes m p

theorem CountersMatch.step {t : Tool} (ht : t.CountsRight m) (hrun : t.run m = .ok () m')
    (h : CountersMatch m) : CountersMatch m' := by
  obtain ⟨L, hm, ht⟩ := ht
  have hmatches := hm.matches_iff.mpr h
  cases t with
  | make c =>
    cases c with
    | mkdir path => exact ht.elim
    | cp source file target =>
      obtain ⟨hc, hbacked⟩ := ht
      obtain ⟨-, ⟨run⟩⟩ := cp_ok (Command.run_ok.mp hrun)
      obtain ⟨e, d, hpicks, hlo, hhi, hunused, heffect⟩ := run.effect hm hc.toClear hbacked
        fun hlen => hc.ahead (by
          simp only [Command.contents, run.opened, Option.getD_some]
          omega)
      exact heffect.holds.matches_iff.mp (hmatches.of_effect hpicks ⟨hlo, hhi⟩ hunused heffect)
  | remove path =>
    obtain ⟨status, u, hrm, hstatus⟩ := bind_ok.mp hrun
    obtain ⟨-, rfl⟩ := ensure_ok.mp hstatus
    obtain ⟨-, entry, hfind, hunlink⟩ := rm_ok.mp hrm
    obtain ⟨p, -, rfl, -⟩ := unlinkEntry_ok hunlink
    obtain ⟨hholds, hmatches'⟩ := hmatches.unlinkEntry hm (ht p hfind) hunlink
    exact hholds.matches_iff.mp hmatches'

/-- From an image whose free counters match the bitmaps, they match after every sequence of
successful runs each of which counts right. -/
theorem countersMatch_of_countsRight {ts : List Tool} (h : CountersMatch m)
    (hrun : Guarded Tool.run Tool.CountsRight ts m m') : CountersMatch m' := by
  have hstep : ∀ (t : Tool) (s u : Memory), t.CountsRight s → t.run s = .ok () u →
      CountersMatch s → CountersMatch u := fun _ _ _ ht hok hs => hs.step ht hok
  exact hrun.induction hstep h

theorem countersMatch_sample (lost : Bool) : CountersMatch (sample lost) :=
  (consistent_sample lost).holds.matches_iff.mp
    ⟨⟨by cases lost <;> decide +kernel, by cases lost <;> decide +kernel⟩,
      by cases lost <;> decide +kernel, by cases lost <;> decide +kernel⟩

/-- The path `/g`. -/
def gPath : CString := ⟨[0x2f, 0x67], by decide⟩

/-- The counters match after copying `g` into `/` and removing `/a/f`, which releases an inode and
its twelve blocks. -/
theorem countersMatch_of_countsRight_sample : ∃ m', Guarded Tool.run Tool.CountsRight
    [.make (.cp gPath (some [1]) rootPath), .remove afPath] (withFile true) m' ∧
      sampleLayout.inUse m' 12 = false ∧ CountersMatch m' := by
  have hconsistent := consistent_withFile true
  have hspares : (Command.cp gPath (some [1]) rootPath).SparesMetadata sampleLayout
      (withFile true) :=
    .of_short (n := 2) (e := 20) (d := 21) (by decide +kernel) (by decide +kernel)
      (.inl ⟨1, by decide, by decide +kernel⟩) (by decide +kernel) (by decide)
      (show _ = some 1 by decide) (by decide) (by decide)
  obtain ⟨_, m₁, hcp, hq⟩ := exists_of_holds
    (show holds ((Tool.make (.cp gPath (some [1]) rootPath)).run (withFile true)) (fun _ m₁ =>
      holds (findFile afPath m₁) (fun p _ => p = 8216) &&
      holds ((Tool.remove afPath).run m₁) (fun _ m₂ => !sampleLayout.inUse m₂ 12) &&
      (inodesCount m₁ = 16 && blocksCount m₁ = 128 && m₁.load 2048 4 = 3 && m₁.load 2052 4 = 4 &&
        m₁.load 2056 4 = 5) &&
      (m₁.load 8216 4 = 12 && m₁.load 8220 2 = 1000 && sampleLayout.inUse m₁ 12 &&
        sampleLayout.word m₁ 12 13 = 0 &&
        sampleLayout.freedBlocks m₁ 12 = List.range' 9 12 &&
        (List.range' 9 12).all fun b => sampleLayout.marked m₁ b)) = true by decide +kernel)
  simp only [Bool.and_eq_true, decide_eq_true_iff, List.all_eq_true] at hq
  obtain ⟨⟨⟨hfind, hrm⟩, ⟨⟨⟨h1, h2⟩, h3⟩, h4⟩, h5⟩,
    ⟨⟨⟨⟨hinode, hlength⟩, hused⟩, hnull⟩, hfreed⟩, hmarked⟩ := hq
  obtain ⟨_, m₂, hrm, hreleased⟩ := exists_of_holds hrm
  have hremoves : sampleLayout.Removes m₁ 8216 := by
    refine ⟨by rw [hinode]; decide, fun a hlo hhi => ?_, fun r a hr hlo hhi => ?_, fun _ => ?_⟩
    · rw [show a / 1024 = 8 by omega]
      decide
    · rw [hlength] at hr
      have hblock : a / 1024 = 7 := by omega
      rw [Layout.Decides, hblock]
      decide
    · rw [hinode, hfreed]
      refine ⟨hused, ⟨fun b hb => ?_, .inl hnull⟩, List.nodup_range', hmarked⟩
      rw [hfreed] at hb
      have hrange := List.mem_range'_1.mp hb
      exact ⟨by omega, show b ≤ 128 by omega⟩
  have hright : (Tool.remove afPath).CountsRight m₁ := by
    refine ⟨sampleLayout, ⟨h1, h2, h3, h4, h5⟩, fun p hp => ?_⟩
    obtain ⟨p', u, hfind, hp'⟩ := exists_of_holds hfind
    rw [hp] at hfind
    cases hfind
    rw [decide_eq_true_iff] at hp'
    rwa [show p = 8216 by omega]
  have hguarded : Guarded Tool.run Tool.CountsRight
      [.make (.cp gPath (some [1]) rootPath), .remove afPath] (withFile true) m₂ :=
    .cons (b := .make (.cp gPath (some [1]) rootPath)) ⟨sampleLayout, hconsistent.holds, hspares,
      fun _ hn => hspares.toClear.backed hconsistent.owned hn⟩ hcp (.cons hright hrm .nil)
  refine ⟨m₂, hguarded, Bool.not_eq_true' _ ▸ hreleased, ?_⟩
  refine countersMatch_of_countsRight ?_ hguarded
  exact hconsistent.holds.matches_iff.mp
    ⟨⟨by decide +kernel, by decide +kernel⟩, by decide +kernel, by decide +kernel⟩

/-! ## Runs that make directories -/

/-- A run of `ext2_mkdir` marks two blocks and counts one. -/
theorem MkdirRun.marked_eq {path : CString} {parent e d : Nat} (run : MkdirRun path m m')
    (h : Owned L (L.inUse m) m) (hc : (Command.mkdir path).Lands L m parent e d) :
    (∀ b ≤ L.blocks, L.marked m' b =
      (L.marked m b || decide (e = b - 1) || decide (d = b - 1))) ∧
      m.load 1036 4 = (m'.load 1036 4 + 1) % 2 ^ 32 := by
  obtain ⟨hindex, hinode, hunused⟩ := Owned.taken h.holds run.free
  have hn : 1 ≤ run.index + 1 ∧ run.index + 1 ≤ L.inodes := ⟨by omega, hindex⟩
  obtain ⟨htaken, -, hmarked, -⟩ := h.take hn hunused
  have htake : run.taken = m.fill (L.inodeAt (run.index + 1)) 128 0 := by rw [run.take, hinode]
  rw [← htake] at htaken hmarked
  have hname := hc.name _ run.nameLength_eq
  have hsize := L.inodes_le
  have henter := run.enter
  rw [show run.parent.iNodeNumber = parent from
    Option.some.inj (run.directory_eq.symm.trans hc.directory)] at henter
  have hbase : ∀ y, y / 1024 ≠ L.inodeBitmap → (y < L.inodeAt (run.index + 1) ∨
      L.inodeAt (run.index + 1) + 128 ≤ y) → run.taken y = m y := fun y _ hy => by
    rw [htake, fill_apply_of_outside hy]
  obtain ⟨a, name, hspot, -, hadded, hnext⟩ :=
    hc.enter h hn hunused htaken.holds hbase hname (by omega) henter
  obtain ⟨-, -, -, hbits, hcount⟩ := run.finish hindex (by
    rw [htaken.holds.inodeTableAt (by omega)]
    rfl) hadded.holds hnext hc.data.2
  refine ⟨fun b hb => by rw [hbits b hb, hadded.marked b hb, hmarked b hb], ?_⟩
  rw [← hcount]
  refine load_congr fun j hj => ?_
  have hbacked := h.backed hc.used
  obtain ⟨hbb, hib, -, -⟩ := L.separate
  obtain ⟨hpos, -, -, -⟩ := hc.picked h
  have hspot' := hspot.not_decides hbacked (y := 1036 + j) (.inl (by omega))
  have hfar : 1036 + j < L.inodeAt (run.index + 1) ∨
      L.inodeAt (run.index + 1) + 128 ≤ 1036 + j := by
    by_contra hin
    have hapart := L.inode_apart hn (y := 1036 + j) (by omega)
    omega
  rw [hadded.other _ (by omega) (by omega) hspot', hbase _ (by omega) hfar]

/-- No run of `ext2_mkdir` leaves counters that match: they match before it or after it, not both
times. -/
theorem not_countersMatch_of_mkdir {path : CString} {parent e d : Nat} {x : Unit}
    (h : Owned L (L.inUse m) m) (hc : (Command.mkdir path).Lands L m parent e d)
    (hrun : (Command.mkdir path).run m = .ok x m') (hmatch : CountersMatch m) :
    ¬ CountersMatch m' := by
  intro hmatch'
  obtain ⟨run⟩ := mkdir_ok (Command.run_ok.mp hrun)
  obtain ⟨hbits, hcount⟩ := run.marked_eq h hc
  obtain ⟨_, _, _, hentered, -⟩ := hc.entered h hrun
  obtain ⟨he, hd⟩ := Layout.picks_eq_some.mp hc.picks
  obtain ⟨hclear, hlt, -⟩ := firstClear_eq_some_iff.mp he
  obtain ⟨hclear', hlt', -⟩ := firstClear_eq_some_iff.mp hd
  have hbefore := (h.holds.matches_iff.mpr hmatch).1.1
  have hafter := (hentered.holds.matches_iff.mpr hmatch').1.1
  have hone : countClear (Function.update (fun i => L.marked m (i + 1)) e true) L.blocks + 1 =
      countClear (fun i => L.marked m (i + 1)) L.blocks := countClear_update_true hlt hclear
  have htwo : countClear (Function.update (Function.update (fun i => L.marked m (i + 1)) e true)
      d true) L.blocks + 1 =
        countClear (Function.update (fun i => L.marked m (i + 1)) e true) L.blocks :=
    countClear_update_true hlt' hclear'
  have hmarks : countClear (fun i => L.marked m' (i + 1)) L.blocks =
      countClear (Function.update (Function.update (fun i => L.marked m (i + 1)) e true) d true)
        L.blocks := countClear_congr fun i hi => by
    rw [hbits (i + 1) hi, Nat.add_sub_cancel, Function.update_apply, Function.update_apply]
    by_cases hid : i = d
    · simp [hid]
    · by_cases hie : i = e
      · simp [hie]
      · simp [hid, hie, Ne.symm hid, Ne.symm hie]
  have hsmall := m.load_lt 1036 4
  omega

/-- Making `/a/b` in the sample image marks two blocks and counts one. -/
theorem not_countersMatch : CountersMatch (sample false) ∧
    ∃ m', runAll Tool.run [.make (.mkdir abPath)] (sample false) = .ok () m' ∧
      ¬ CountersMatch m' := by
  refine ⟨countersMatch_sample false, ?_⟩
  obtain ⟨_, m', hrun, hq⟩ := exists_of_holds
    (show holds (runAll Tool.run [.make (.mkdir abPath)] (sample false)) (fun _ m' =>
      m'.load 1036 4 = 118 && countClear (blockBit m') (blocksCount m') = 117) = true by
      decide +kernel)
  rw [Bool.and_eq_true, decide_eq_true_iff, decide_eq_true_iff] at hq
  obtain ⟨hcount, hclear⟩ := hq
  refine ⟨m', hrun, fun h => ?_⟩
  have hsame := h.superBlocks
  omega

end OsAssignments.Ext2
