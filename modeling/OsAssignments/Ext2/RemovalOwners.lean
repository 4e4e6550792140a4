import OsAssignments.Ext2.Journal
import OsAssignments.Ext2.Counters
import OsAssignments.Ext2.OneName

/-!
# Owners after removals

A removal takes a link from an inode, and with the last one its bit and the bits of its blocks;
then it stores into the entry before the removed one. Where that store meets no pointer, blocks
have one owner after every sequence of runs of the three tools, and files that no run names stay as
they are.
-/

namespace OsAssignments.Ext2

open Memory Program

variable {L : Layout} {U : Nat → Bool} {m m' : Memory}

/-! ## Giving blocks back -/

namespace Owned

variable {n : Nat} {u : Memory}

/-- Blocks of one inode are freed: the others own what they owned. -/
theorem freed {bs : List Nat} (h : Owned L U m) (hfree : Freed L bs m u)
    (hbs : ∀ b ∈ bs, ∃ q, L.held U m (n, q) = some b) :
    Owned L (Function.update U n false) u ∧ L.held U u = L.held U m := by
  obtain ⟨hbb, -, -, -⟩ := L.separate
  have hmapped := L.mapped
  have hheld : L.held U u = L.held U m := Layout.held_congr fun a ha => by
    obtain ⟨h1, h2, hb, -⟩ := h.not_shows_of_metadata ha
    exact hfree.same a (by omega) (by omega) hb
  have hmarked : ∀ b, 1 ≤ b → b < L.blocks → L.marked m b = true → b ∉ bs →
      L.marked u b = true := fun b hlo hhi hmark hb => by
    rw [hfree.marked b hlo (by omega), hmark, decide_eq_false hb]
    rfl
  refine ⟨⟨hfree.holds h.holds, fun b hb => ?_, fun k hk => ?_, ?_⟩, hheld⟩
  · obtain ⟨hlo, hhi⟩ := L.lt_blocks hb
    refine hmarked b hlo hhi (h.reserved b hb) fun hmem => ?_
    obtain ⟨q, hq⟩ := hbs b hmem
    exact (h.owners.granted hq).data hb
  · by_cases hkn : k = n
    · rw [hkn, Function.update_self] at hk
      cases hk
    · rw [Function.update_of_ne hkn] at hk
      exact h.numbered k hk
  · refine h.owners.restrict fun s b hs => ?_
    obtain ⟨hsU, a, ha, hload, hne⟩ := Layout.held_eq_some_iff.mp hs
    have hsn : s.1 ≠ n := fun heq => by
      rw [heq, Function.update_self] at hsU
      cases hsU
    rw [Function.update_of_ne hsn] at hsU
    have hold : L.held U m s = some b := by
      rw [← hheld]
      exact Layout.held_eq_some_iff.mpr ⟨hsU, a, ha, hload, hne⟩
    have hgranted := h.owners.granted hold
    refine ⟨hold, hgranted.inside, hgranted.data,
      hmarked b (by omega) hgranted.inside hgranted.marked fun hmem => ?_⟩
    obtain ⟨q, hq⟩ := hbs b hmem
    exact hsn (congrArg Prod.fst (h.owners.unique hold hq))

/-- Counting an inode free and clearing its bit takes nothing from the others. -/
theorem withoutInode {k : Nat} (h : Owned L U m) (hk : k < L.inodes) :
    Owned L U (Ext2.withoutInode m k) ∧ L.held U (Ext2.withoutInode m k) = L.held U m := by
  obtain ⟨hbb, hib, hbi, -⟩ := L.separate
  obtain ⟨happly, -⟩ := withoutInode_spec h.holds hk
  have hheld : L.held U (Ext2.withoutInode m k) = L.held U m := Layout.held_congr fun a ha => by
    obtain ⟨h1, h2, -, hi⟩ := h.not_shows_of_metadata ha
    exact happly a (by omega) (by omega) hi
  refine ⟨h.of_same (h.holds.congr fun a ha => happly a (by omega) (by omega) (by omega)) hheld
    fun b hb => marked_congr hb fun a ha => happly a (by omega) (by omega) (by omega), hheld⟩

/-- A count of links is no pointer. -/
theorem withoutLink (h : Owned L U m) (hn : 1 ≤ n ∧ n ≤ L.inodes) :
    Keeps L U m (Ext2.withoutLink m (L.inodeAt n + 26)) :=
  h.write_inode hn (fun a ha => store_apply_of_outside (by omega)) fun _ a hlo _ =>
    store_apply_of_outside (by omega)

end Owned

/-! ## One link less -/

/-- What one link less of inode `n` leaves of the owners. -/
structure Withdrawn (L : Layout) (n : Nat) (m u : Memory) : Prop where
  owned : Owned L (L.inUse u) u
  used : ∀ k ≠ n, L.inUse u k = L.inUse m k
  held : ∀ s b, L.held (L.inUse u) u s = some b → L.held (L.inUse m) m s = some b
  same : ∀ a, ¬ L.Decides a → a < L.inodeAt n + 26 ∨ L.inodeAt n + 28 ≤ a → u a = m a

/-- The blocks that a release frees are those of the direct pointers, where pointer 13 is null. -/
theorem exists_of_freed {n b : Nat} (hn : U n = true) (hdouble : L.word m n 13 = 0)
    (hb : b ∈ L.freedBlocks m n) (hne : b ≠ 0) : ∃ q, L.held U m (n, q) = some b := by
  rw [Layout.freedBlocks, if_pos hdouble, List.append_nil] at hb
  obtain ⟨i, hi, rfl⟩ := List.mem_map.mp hb
  exact ⟨.direct ⟨i, List.mem_range.mp hi⟩,
    Layout.held_eq_some_iff.mpr ⟨hn, _, rfl, rfl, hne⟩⟩

theorem Owned.dropLink {n : Nat} {u : Memory} (h : Owned L (L.inUse m) m)
    (hn : L.inUse m n = true)
    (hdouble : m.load (L.inodeAt n + 26) 2 = 1 → L.word m n 13 = 0)
    (hdrop : Ext2.dropLink n m = .ok () u) : Withdrawn L n m u := by
  have hnumbered := h.numbered n hn
  have hkeeps := h.withoutLink hnumbered
  obtain ⟨hpointers, hdata⟩ := withoutLink_congr (m := m) hnumbered
  rcases (dropLink_iff h.holds hnumbered).mp hdrop with ⟨hmany, rfl⟩ | ⟨hone, hrelease⟩
  · refine ⟨?_, fun k _ => congrFun hkeeps.used k, fun s b hs => ?_, fun a _ ha =>
      store_apply_of_outside (by omega)⟩
    · rw [hkeeps.used]
      exact hkeeps.owned
    · rwa [hkeeps.used, hkeeps.held] at hs
  · have hzero := hdouble hone
    obtain ⟨hword, hfreed⟩ := Layout.freedBlocks_congr (.inl hzero) hpointers hdata
    have hblocks : ∀ b ∈ L.freedBlocks m n, b ≤ L.blocks := fun b hb => by
      by_cases hb0 : b = 0
      · omega
      · obtain ⟨q, hq⟩ := exists_of_freed hn hzero hb hb0
        exact (h.owners.granted hq).inside.le
    have hspec := dropLink_spec h.holds hnumbered hblocks (.inl hzero) hdrop
    have hpositive := hspec.positive hone
    obtain ⟨v, hfree, rfl⟩ := releaseInode_ok hkeeps.owned.holds hnumbered
      (hfreed ▸ hblocks) (.inl (hword.trans hzero)) hrelease
    rw [hfreed] at hfree
    obtain ⟨hv, hheld⟩ := hkeeps.owned.freed (n := n) hfree fun b hb => by
      rw [hkeeps.held]
      exact exists_of_freed hn hzero hb fun hb0 => hpositive (hb0 ▸ hb)
    obtain ⟨hu, hheld'⟩ := hv.withoutInode (show n - 1 < L.inodes by omega)
    have hused : L.inUse (Ext2.withoutInode v (n - 1)) = Function.update (L.inUse m) n false := by
      obtain ⟨-, hinUse, -⟩ := withoutInode_spec hv.holds (show n - 1 < L.inodes by omega)
      rw [hinUse, Nat.sub_add_cancel hnumbered.1, ← hkeeps.used]
      congr 1
      exact Owned.inUse_congr fun a ha => by
        obtain ⟨-, hib, hbi, -⟩ := L.separate
        exact hfree.same a (by omega) (by omega) (by omega)
    refine ⟨hused ▸ hu, fun k hk => hspec.inUse k hk, fun s b hs => ?_, hspec.same⟩
    rw [hused, hheld'] at hs
    obtain ⟨hsU, a, ha, hload, hne⟩ := Layout.held_eq_some_iff.mp hs
    rw [← hkeeps.held, ← hheld]
    refine Layout.held_eq_some_iff.mpr ⟨?_, a, ha, hload, hne⟩
    by_cases hsn : s.1 = n
    · rw [hsn, Function.update_self] at hsU
      cases hsU
    · rwa [Function.update_of_ne hsn] at hsU

/-! ## A removal -/

/-- What the removal of the entry at `p` must meet. It names an inode in use, which has a null
pointer 13 if this is its last link. Neither the length of the entry nor the length that is grown
is in the metadata, and the latter is in one block, which is no indirect block. -/
structure Layout.Withdraws (L : Layout) (m : Memory) (p : Nat) : Prop where
  used : L.inUse m (m.load p 4) = true
  double : m.load (L.inodeAt (m.load p 4) + 26) 2 = 1 → L.word m (m.load p 4) 13 = 0
  entry : ∀ i < 2, (p + 4 + i) / 1024 ∉ L.metadata
  grown : ∀ r, r + m.load (p + 4) 2 = p + 4 → (r + 1) / 1024 = r / 1024 ∧ r / 1024 ∉ L.metadata ∧
    ∀ n, L.held (L.inUse m) m (n, .indirect) ≠ some (r / 1024)

/-- A removal stores one length and takes one link. -/
theorem Withdrawn.of_unlinkEntry {p : Nat} {x : Unit} (h : Owned L (L.inUse m) m)
    (hp : L.Withdraws m p) (hunlink : unlinkEntry p m = .ok x m') :
    ∃ r u, r + m.load (p + 4) 2 = p + 4 ∧ Withdrawn L (m.load p 4) m u ∧
      Keeps L (L.inUse u) u m' ∧ ∀ y, y < r ∨ r + 2 ≤ y → m' y = u y := by
  obtain ⟨p', u, hpp, hdrop, hgrow⟩ := unlinkEntry_ok hunlink
  obtain rfl := Int.ofNat.inj hpp
  have hnumbered := h.numbered _ hp.used
  have hinodes := L.inodes_le
  rw [toInt_of_lt (by omega)] at hdrop
  have hwithdrawn := h.dropLink hp.used hp.double hdrop
  obtain ⟨r, hr, -, rfl⟩ := growPrevious_ok hgrow
  have hlength : u.load (p + 4) 2 = m.load (p + 4) 2 := load_congr fun i hi => by
    obtain ⟨hdecides, hout⟩ := L.outside_of_data hnumbered (hp.entry i hi)
    exact hwithdrawn.same _ hdecides (by omega)
  rw [hlength] at hr ⊢
  have hsum : r + m.load (p + 4) 2 = p + 4 := by omega
  obtain ⟨hone, hdata, hindirect⟩ := hp.grown r hsum
  refine ⟨r, u, hsum, hwithdrawn, hwithdrawn.owned.write_block hdata
    (fun n hn => hindirect n (hwithdrawn.held _ _ hn)) fun a ha =>
      store_apply_of_outside (by omega), fun y hy => store_apply_of_outside hy⟩

/-- A removal keeps ownership exclusive. -/
theorem Owned.unlinkEntry {p : Nat} {x : Unit} (h : Owned L (L.inUse m) m)
    (hp : L.Withdraws m p) (hunlink : Ext2.unlinkEntry p m = .ok x m') :
    Owned L (L.inUse m') m' := by
  obtain ⟨-, u, -, -, hkeeps, -⟩ := Withdrawn.of_unlinkEntry h hp hunlink
  rw [hkeeps.used]
  exact hkeeps.owned

/-- A file stays as it is when its inode and the blocks that it holds do. -/
theorem Layout.SameFile.of_held {f : Nat} (hf : U f = true)
    (hinode : ∀ y, L.inodeAt f ≤ y → y < L.inodeAt f + 128 → m' y = m y)
    (hblocks : ∀ q b y, L.held U m (f, q) = some b → y / 1024 = b → m' y = m y) :
    L.SameFile f m m' := by
  have hword : ∀ i < 13, L.word m' f i = L.word m f i := fun i hi =>
    load_congr fun j hj => hinode _ (by omega) (by omega)
  refine ⟨bytes_congr fun j hj => hinode _ (by omega) (by omega), ?_,
    fun b hb hnull => bytes_congr fun j hj => ?_⟩
  · rw [Layout.fileBlocks, Layout.fileBlocks, hword 12 (by decide)]
    congr 1
    · exact List.map_congr_left fun i hi => hword i (by have := List.mem_range.mp hi; omega)
    · split
      · rfl
      · next hind =>
        refine List.map_congr_left fun k hk => load_congr fun j hj => ?_
        have hk' := List.mem_range.mp hk
        exact hblocks _ _ _ (Layout.held_indirect hf hind) (by omega)
  · obtain ⟨q, a, -, ha, rfl⟩ := Layout.exists_slot_of_fileBlocks hb
    exact hblocks q _ _ (Layout.held_eq_some_iff.mpr ⟨hf, a, ha, rfl, hnull⟩) (by omega)

/-- A removal leaves a file alone that loses no link and has no part in the block of the length
that is grown. -/
theorem Owned.sameFile_unlinkEntry {p f : Nat} {x : Unit} (h : Owned L (L.inUse m) m)
    (hp : L.Withdraws m p) (hf : L.inUse m f = true) (hne : f ≠ m.load p 4)
    (hapart : ∀ r, r + m.load (p + 4) 2 = p + 4 →
      ∀ q, L.held (L.inUse m) m (f, q) ≠ some (r / 1024))
    (hunlink : Ext2.unlinkEntry p m = .ok x m') :
    L.SameFile f m m' ∧ L.inUse m' f = true := by
  obtain ⟨r, u, hsum, hwithdrawn, hkeeps, hother⟩ := Withdrawn.of_unlinkEntry h hp hunlink
  obtain ⟨hone, hdata, -⟩ := hp.grown r hsum
  have hnumbered := h.numbered _ hp.used
  have hfile := h.numbered f hf
  have hkept : ∀ y, ¬ L.Decides y → (y < L.inodeAt (m.load p 4) + 26 ∨
      L.inodeAt (m.load p 4) + 28 ≤ y) → y / 1024 ≠ r / 1024 → m' y = m y := fun y hy hout hr => by
    rw [hother y (by omega), hwithdrawn.same y hy hout]
  refine ⟨.of_held hf (fun y hlo hhi => ?_) (fun q b y hq hy => ?_), ?_⟩
  · obtain ⟨h3, hbb, hib, hmem⟩ := L.inode_apart hfile ⟨hlo, hhi⟩
    have hdisj := L.inode_disjoint hfile.1 hnumbered.1 hne
    refine hkept y ?_ (by omega) fun heq => hdata (heq ▸ hmem)
    simp only [Layout.Decides, not_or]
    omega
  · obtain ⟨hdecides, hout⟩ := L.outside_of_data hnumbered (y := y)
      (hy ▸ (h.owners.granted hq).data)
    exact hkept y hdecides (by omega) fun heq => hapart r hsum q (by rw [← heq, hy, hq])
  · rw [hkeeps.used, hwithdrawn.used f hne, hf]

/-! ## Sequences of runs of the three tools -/

/-- A run spares the owners of blocks: it makes or copies as it must, or removes an entry as it
must. -/
def Tool.SparesOwners (L : Layout) (t : Tool) (m : Memory) : Prop :=
  match t with
  | make c => c.SparesOwners L m
  | remove path => ∀ p : Nat, findFile path m = .ok (p : Int) m → L.Withdraws m p

/-- A run does not name file `f`: it adds to another directory, or removes an entry of another
file from a block that `f` has no part in. -/
def Tool.Avoids (L : Layout) (f : Nat) (t : Tool) (m : Memory) : Prop :=
  match t with
  | make c => c.directory m ≠ some (f : Int)
  | remove path => ∀ p : Nat, findFile path m = .ok (p : Int) m → f ≠ m.load p 4 ∧
      ∀ r, r + m.load (p + 4) 2 = p + 4 → ∀ q, L.held (L.inUse m) m (f, q) ≠ some (r / 1024)

/-- A removal that is successful finds an entry and removes it. -/
theorem remove_ok {path : CString} (hrun : (Tool.remove path).run m = .ok () m') :
    ∃ p : Nat, findFile path m = .ok (p : Int) m ∧ unlinkEntry p m = .ok () m' := by
  obtain ⟨status, u, hrm, hstatus⟩ := bind_ok.mp hrun
  obtain ⟨-, rfl⟩ := ensure_ok.mp hstatus
  obtain ⟨-, entry, hfind, hunlink⟩ := rm_ok.mp hrm
  obtain ⟨p, -, rfl, -⟩ := unlinkEntry_ok hunlink
  exact ⟨p, hfind, hunlink⟩

theorem Tool.SparesOwners.owned {t : Tool} (ht : t.SparesOwners L m) (h : Owned L (L.inUse m) m)
    (hrun : t.run m = .ok () m') : Owned L (L.inUse m') m' := by
  cases t with
  | make c => exact Command.SparesOwners.owned ht h hrun
  | remove path =>
    obtain ⟨p, hfind, hunlink⟩ := remove_ok hrun
    exact h.unlinkEntry (ht p hfind) hunlink

theorem Tool.SparesOwners.sameFile {t : Tool} {f : Nat} (ht : t.SparesOwners L m)
    (h : Owned L (L.inUse m) m) (hf : L.inUse m f = true) (havoids : t.Avoids L f m)
    (hrun : t.run m = .ok () m') : L.SameFile f m m' ∧ L.inUse m' f = true := by
  cases t with
  | make c =>
    obtain ⟨parent, n, e, d, a, q, name, hands⟩ := Command.SparesOwners.hands ht h hrun
    have hne : f ≠ parent := fun heq => havoids (heq ▸ hands.lands.directory)
    exact ⟨hands.sameFile hf hne, hands.used_of_used hf⟩
  | remove path =>
    obtain ⟨p, hfind, hunlink⟩ := remove_ok hrun
    obtain ⟨hne, hapart⟩ := havoids p hfind
    exact h.sameFile_unlinkEntry (ht p hfind) hf hne hapart hunlink

/-- The entry that the search for a file finds, by a check. -/
theorem findFile_eq {path : CString} {p : Nat}
    (h : holds (findFile path m) (fun entry _ => entry = (p : Int)) = true) (p' : Nat)
    (hp' : findFile path m = .ok (p' : Int) m) : p' = p := by
  obtain ⟨entry, u, hfind, hentry⟩ := exists_of_holds h
  rw [hp'] at hfind
  cases hfind
  exact Int.ofNat.inj (of_decide_eq_true hentry)

/-- A removal of a file that keeps a link or has none, where the length that is grown lies in a
block of directory `d`, meets both conditions for files other than these two. -/
theorem Tool.remove_spares {path : CString} {p n d g : Nat} {q : Pointer}
    (h : L.ExclusiveBlocks m) (hfind : ∀ p' : Nat, findFile path m = .ok (p' : Int) m → p' = p)
    (hinode : m.load p 4 = n) (hused : L.inUse m n = true)
    (hlinks : m.load (L.inodeAt n + 26) 2 ≠ 1) (hentry : ∀ i < 2, (p + 4 + i) / 1024 ∉ L.metadata)
    (hsum : g + m.load (p + 4) 2 = p + 4) (hone : (g + 1) / 1024 = g / 1024)
    (hdata : g / 1024 ∉ L.metadata) (hq : q ≠ .indirect)
    (hheld : L.held (L.inUse m) m (d, q) = some (g / 1024)) :
    (Tool.remove path).SparesOwners L m ∧
      ∀ f, f ≠ n → f ≠ d → (Tool.remove path).Avoids L f m := by
  have hgrown : ∀ r, r + m.load (p + 4) 2 = p + 4 → r = g := fun r hr => by omega
  refine ⟨fun p' hp' => ?_, fun f hfn hfd p' hp' => ?_⟩
  · obtain rfl := hfind p' hp'
    refine ⟨hinode ▸ hused, fun hlast => ?_, hentry, fun r hr => ?_⟩
    · rw [hinode] at hlast
      exact absurd hlast hlinks
    · obtain rfl := hgrown r hr
      exact ⟨hone, hdata, fun k hk => hq (Prod.mk.inj (h.unique hheld hk)).2⟩
  · obtain rfl := hfind p' hp'
    refine ⟨hinode ▸ hfn, fun r hr q' hq' => ?_⟩
    obtain rfl := hgrown r hr
    exact hfd (Prod.mk.inj (h.unique hq' hheld)).1

/-- Copying `f` into `/a` in the sample image spares the owners of blocks. -/
theorem sparesOwners_copy :
    (Command.cp fPath (some [1]) aPath).SparesOwners sampleLayout (sample true) :=
  .of_direct (n := 11) (i := 1) (e := 9) (d := 10) (direct_sample true) (by decide +kernel)
    (by decide +kernel) (by decide) (by decide +kernel) (by decide +kernel) (by decide)
    (by rw [held_sample]; decide) (show _ = some 1 by decide) (by decide) (by decide)

/-- Copying `f` into `/a` in the sample image and removing it again meets both conditions, and does
not name the root. -/
theorem guarded_tools_sample : ∃ m', Guarded Tool.run
    (fun t s => t.SparesOwners sampleLayout s ∧ t.Avoids sampleLayout 2 s)
    [.make (.cp fPath (some [1]) aPath), .remove afPath] (sample true) m' := by
  obtain ⟨_, m₁, hcp, hq⟩ := exists_of_holds
    (show holds ((Command.cp fPath (some [1]) aPath).run (sample true)) (fun _ m₁ =>
      holds (findFile afPath m₁) (fun p _ => p = 9216) &&
      holds ((Tool.remove afPath).run m₁) (fun _ _ => true) &&
      (m₁.load 9216 4 = 12 && m₁.load 9220 2 = 9 &&
        m₁.load (sampleLayout.inodeAt 12 + 26) 2 = 0 && sampleLayout.inUse m₁ 12 &&
        sampleLayout.held (sampleLayout.inUse m₁) m₁ (11, .direct 0) = some 8)) = true by
      decide +kernel)
  simp only [Bool.and_eq_true, decide_eq_true_iff] at hq
  obtain ⟨⟨hfind, hrm⟩, ⟨⟨⟨hinode, hlength⟩, hlinks⟩, hused⟩, hheld⟩ := hq
  obtain ⟨_, m₂, hrm, -⟩ := exists_of_holds hrm
  have howners := (sparesOwners_copy.owned (consistent_sample true).owned hcp).owners
  -- The length that is grown lies in the block of `/a`.
  obtain ⟨hremoves, havoids⟩ := Tool.remove_spares (p := 9216) (g := 9211)
    howners (findFile_eq hfind) hinode hused (by rw [hlinks]; decide) (by decide)
    (by rw [hlength]) (by decide) (by decide) Pointer.noConfusion hheld
  have hdirectory : (Command.cp fPath (some [1]) aPath).directory (sample true) ≠
      some ((2 : Nat) : Int) := by
    decide +kernel
  exact ⟨m₂, .cons (b := .make (.cp fPath (some [1]) aPath)) ⟨sparesOwners_copy, hdirectory⟩ hcp
    (.cons ⟨hremoves, havoids 2 (by decide) (by decide)⟩ hrm .nil)⟩

theorem owned_of_tools {ts : List Tool} (h : Owned L (L.inUse m) m)
    (hruns : Guarded Tool.run (fun t => t.SparesOwners L) ts m m') : Owned L (L.inUse m') m' := by
  have hstep : ∀ (t : Tool) (s u : Memory), t.SparesOwners L s → t.run s = .ok () u →
      Owned L (L.inUse s) s → Owned L (L.inUse u) u := fun _ _ _ ht hrun hs => ht.owned hs hrun
  exact hruns.induction hstep h

/-- A file that no run names goes through the runs unchanged. -/
theorem sameFile_of_owned {ts : List Tool} {f : Nat} (h : Owned L (L.inUse m) m)
    (hruns : Guarded Tool.run (fun t s => t.SparesOwners L s ∧ t.Avoids L f s) ts m m')
    (hf : L.inUse m f = true) : L.SameFile f m m' ∧ L.inUse m' f = true := by
  have hstep : ∀ (t : Tool) (s u : Memory), t.SparesOwners L s ∧ t.Avoids L f s →
      t.run s = .ok () u → (Owned L (L.inUse s) s ∧ L.SameFile f m s ∧ L.inUse s f = true) →
        Owned L (L.inUse u) u ∧ L.SameFile f m u ∧ L.inUse u f = true := by
    rintro t s u ⟨ht, havoids⟩ hrun ⟨howned, hsame, hused⟩
    obtain ⟨hsame', hused'⟩ := ht.sameFile howned hused havoids hrun
    exact ⟨ht.owned howned hrun, hsame.trans hsame', hused'⟩
  exact (hruns.induction hstep ⟨h, .refl L f m, hf⟩).2

/-- From a consistent image, ownership of blocks stays exclusive in every sequence of successful
runs of `ext2_mkdir`, `ext2_cp` and `ext2_rm` each of which spares the owners. -/
theorem exclusiveBlocks_of_tools {ts : List Tool} (h : Consistent L m)
    (hruns : Guarded Tool.run (fun t => t.SparesOwners L) ts m m') : L.ExclusiveBlocks m' := by
  exact (owned_of_tools h.owned hruns).owners

theorem exclusiveBlocks_of_tools_sample : ∃ m', Guarded Tool.run
    (fun t => t.SparesOwners sampleLayout)
    [.make (.cp fPath (some [1]) aPath), .remove afPath] (sample true) m' ∧
      sampleLayout.ExclusiveBlocks m' := by
  obtain ⟨m', hruns⟩ := guarded_tools_sample
  have hspared := hruns.mono (fun _ _ h => h.1)
  exact ⟨m', hspared, exclusiveBlocks_of_tools (consistent_sample true) hspared⟩

/-- A file that no run of such a sequence names goes through it unchanged. -/
theorem sameFile_of_tools {ts : List Tool} {f : Nat} (h : Consistent L m)
    (hruns : Guarded Tool.run (fun t s => t.SparesOwners L s ∧ t.Avoids L f s) ts m m')
    (hf : L.inUse m f = true) : L.SameFile f m m' ∧ L.inUse m' f = true :=
  sameFile_of_owned h.owned hruns hf

theorem sameFile_of_tools_sample : ∃ m', sampleLayout.SameFile 2 (sample true) m' ∧
    sampleLayout.inUse m' 2 = true := by
  obtain ⟨m', hruns⟩ := guarded_tools_sample
  exact ⟨m', sameFile_of_tools (consistent_sample true) hruns (by decide +kernel)⟩

/-- A file shorter than a block that `ext2_cp` copies somewhere in such a sequence is in the inode
that comes into use, for as long as no later run names that inode. -/
theorem copied_of_tools {before after : List Tool} {source target : CString} {file : List UInt8}
    {n : Nat} {s u : Memory} (h : Consistent L m)
    (hbefore : Guarded Tool.run (fun t => t.SparesOwners L) before m s)
    (hc : (Command.cp source (some file) target).SparesOwners L s)
    (hrun : (Command.cp source (some file) target).run s = .ok () u)
    (hnew : L.inUse s n = false) (hused : L.inUse u n = true)
    (hafter : Guarded Tool.run (fun t v => t.SparesOwners L v ∧ t.Avoids L n v) after u m') :
    L.Copied m' n file ∧ L.inUse m' n = true := by
  have hs := owned_of_tools h.owned hbefore
  obtain ⟨-, ⟨run⟩⟩ := cp_ok (Command.run_ok.mp hrun)
  have hcopied := run.copied hs hc
  rw [show run.contents = file from (Option.some.inj run.opened).symm] at hcopied
  -- The run takes one inode, the first free one.
  obtain ⟨_, _, _, _, _, _, _, hands⟩ := hc.hands hs hrun
  obtain ⟨k, hk, rfl⟩ := hands.freeInode_eq hrun
  obtain rfl : run.index = k := Option.some.inj (run.free.symm.trans hk)
  have hn : n = run.index + 1 := by
    by_contra hne
    rw [hands.used, Function.update_of_ne hne, hnew] at hused
    cases hused
  rw [← hn] at hcopied
  obtain ⟨hsame, hused'⟩ := sameFile_of_owned (hc.owned hs hrun) hafter hused
  exact ⟨hcopied.sameFile hsame, hused'⟩

/-- The image with a file of two links in which block 10 is marked used although nothing refers to
it. -/
def withLost : Memory :=
  let writes : List (Nat × List UInt8) :=
    [(1036, leBytes 4 117), (2060, leBytes 2 117), (3073, [0x03])]
  writes.foldl (fun m w => m.write w.1 w.2) withLinks

theorem consistent_withLost : Consistent sampleLayout withLost := by
  have hheld : sampleLayout.directSlots.filterMap
      (sampleLayout.held (sampleLayout.inUse withLost) withLost) = [7, 8, 9] := by
    decide +kernel
  refine ⟨?_, ?_, ?_, ?_, ?_, ?_, ?_, ?_⟩
  · constructor <;> decide +kernel
  · decide +kernel
  · refine Layout.exclusiveBlocks_of_direct (by decide +kernel) ?_ ?_
    · rw [hheld]
      decide
    · rw [hheld]
      decide +kernel
  all_goals decide +kernel

theorem sparesOwners_withLost :
    (Command.cp gPath (some [1, 2]) rootPath).SparesOwners sampleLayout withLost := by
  have hheld : sampleLayout.directSlots.filterMap
      (sampleLayout.held (sampleLayout.inUse withLost) withLost) = [7, 8, 9] := by
    decide +kernel
  refine .of_direct (n := 2) (i := 1) (e := 10) (d := 11) (by decide +kernel) (by decide +kernel)
    (by decide +kernel) (by decide) (by decide +kernel) (by decide +kernel) (by decide) ?_
    (show _ = some 1 by decide) (by decide) (by decide)
  rw [hheld]
  decide

/-- A copy of `g` is still there after the removal of `/a/f`. -/
theorem copied_of_tools_sample : ∃ u m',
    (Command.cp gPath (some [1, 2]) rootPath).run withLost = .ok () u ∧
      (Tool.remove afPath).run u = .ok () m' ∧ sampleLayout.Copied m' 13 [1, 2] := by
  obtain ⟨_, u, hcp, hq⟩ := exists_of_holds
    (show holds ((Command.cp gPath (some [1, 2]) rootPath).run withLost) (fun _ u =>
      holds (findFile afPath u) (fun p _ => p = 8216) &&
      holds ((Tool.remove afPath).run u) (fun _ _ => true) &&
      (u.load 8216 4 = 12 && u.load 8220 2 = 12 &&
        u.load (sampleLayout.inodeAt 12 + 26) 2 = 2 && sampleLayout.inUse u 12 &&
        sampleLayout.inUse u 13 &&
        sampleLayout.held (sampleLayout.inUse u) u (11, .direct 0) = some 8)) = true by
      decide +kernel)
  simp only [Bool.and_eq_true, decide_eq_true_iff] at hq
  obtain ⟨⟨hfind, hrm⟩, ⟨⟨⟨⟨hinode, hlength⟩, hlinks⟩, hused⟩, hnew⟩, hheld⟩ := hq
  obtain ⟨_, m', hrm, -⟩ := exists_of_holds hrm
  have howners := (sparesOwners_withLost.owned consistent_withLost.owned hcp).owners
  obtain ⟨hremoves, havoids⟩ := Tool.remove_spares (p := 8216) (g := 8208)
    howners (findFile_eq hfind) hinode hused (by rw [hlinks]; decide) (by decide)
    (by rw [hlength]) (by decide) (by decide) Pointer.noConfusion hheld
  have hafter : Guarded Tool.run
      (fun t v => t.SparesOwners sampleLayout v ∧ t.Avoids sampleLayout 13 v)
      [.remove afPath] u m' :=
    .cons ⟨hremoves, havoids 13 (by decide) (by decide)⟩ hrm .nil
  exact ⟨u, m', hcp, hrm, (copied_of_tools consistent_withLost .nil
    sparesOwners_withLost hcp (by decide +kernel) hnew hafter).1⟩

end OsAssignments.Ext2
