import OsAssignments.Ext2.LastLink
import OsAssignments.Ext2.Listing

/-!
# Removing one name

A removal should take one entry out of the listing of its directory, and leave the other blocks
and the other links of the file alone. It takes the entry for one that follows an entry of the
same length. Where none lies that length before it, the entry stays listed and the length is
added to other bytes.
-/

namespace OsAssignments.Ext2

open Memory Program

variable {L : Layout} {m m' u : Memory} {path : CString} {d b o n g k : Nat} {r : Record}
  {offsets : List Nat}

/-! ## Listed files -/

/-- The listing of directory `d` shows the entry `r`. -/
def Layout.Lists (L : Layout) (m : Memory) (d : Nat) (r : Record) : Prop :=
  L.inUse m d = true ∧ L.isDirectory m d = true ∧
    ∃ b ∈ L.coveredBlocks m d, ∃ records, listing m b = some records ∧ r ∈ records

/-- Directory `d` lists the entry `r` of a regular file. Pointer 13 of the file is null or gives a
block of block numbers. -/
structure ListedFile (L : Layout) (m : Memory) (d : Nat) (r : Record) : Prop where
  lists : L.Lists m d r
  regular : m.load (L.inodeAt r.inode) 2 &&& 0xf000 = ext2SIfreg
  double : L.word m r.inode 13 = 0 ∨
    (L.word m r.inode 13 < L.blocks ∧ L.word m r.inode 13 ∉ L.metadata) ∧
      ∀ i < 256, m.load (L.word m r.inode 13 * 1024 + 4 * i) 4 < L.blocks

/-- Block `b`, inode `n`, the counters and the bitmaps are all that differs. -/
def SameElsewhere (L : Layout) (b n : Nat) (m m' : Memory) : Prop :=
  ∀ a, a / 1024 ≠ b → ¬ L.Decides a → a < L.inodeAt n ∨ L.inodeAt n + 128 ≤ a → m' a = m a

/-- In `m'` the listing of directory `d` has lost the entry `r` and nothing else, and the other
links of the file are listed and counted. -/
structure TakesOne (L : Layout) (m : Memory) (d : Nat) (r : Record) (m' : Memory) : Prop where
  blocks : L.coveredBlocks m' d = L.coveredBlocks m d
  listing : ∀ b ∈ L.coveredBlocks m d,
    listing m' b = (listing m b).map (without r.position)
  same : SameElsewhere L (r.position / 1024) r.inode m m'
  links : ∀ d' r', L.Lists m d' r' → r'.inode = r.inode → r'.position ≠ r.position →
    L.Lists m' d' r' ∧
      m'.load (L.inodeAt r.inode + 26) 2 + 1 = m.load (L.inodeAt r.inode + 26) 2

/-- A removal of `path`, which should take away the entry `r`: the search ends at no other entry,
and the removal returns and takes away this one. -/
structure RemovesName (L : Layout) (m : Memory) (path : CString) (d : Nat) (r : Record) :
    Prop where
  search : ∀ entry u, findFile path m = .ok entry u → entry = r.position
  run : ∃ m', deleteFileInode path m = .ok () m' ∧ TakesOne L m d r m'

/-- The condition on the image: the search ends at the entry, the only link of a file is one of a
file with twelve direct blocks, a link count of 0 is not that of a file with other links, and a
longer entry skips this one. -/
structure RemovableName (L : Layout) (m : Memory) (path : CString) (r : Record) : Prop where
  found : findFile path m = .ok r.position m
  direct : m.load (L.inodeAt r.inode + 26) 2 = 1 → ∀ i < 12, L.word m r.inode i ≠ 0
  counted : m.load (L.inodeAt r.inode + 26) 2 = 0 →
    ∀ d' r', L.Lists m d' r' → r'.inode = r.inode → r'.position = r.position
  skipped : Skips m (r.position / 1024) (r.position % 1024)

/-! ## The place of an entry -/

/-- The entry `r` is at offset `o` of block `b`. -/
structure Place (L : Layout) (m : Memory) (r : Record) (b o : Nat) (offsets : List Nat) :
    Prop where
  record : r = recordAt m b o
  chain : entryOffsets m b 129 0 = some offsets
  mem : o ∈ offsets
  live : liveAt m b o = true
  inside : 3 ≤ b ∧ b < L.blocks
  data : b ∉ L.metadata
  apart : ∀ n, L.inUse m n = true → L.word m n 12 ≠ b
  used : L.inUse m r.inode = true

theorem Layout.Lists.place (h : Consistent L m) (hr : L.Lists m d r) :
    ∃ b o offsets, b ∈ L.coveredBlocks m d ∧ Place L m r b o offsets := by
  obtain ⟨hused, hdir, b, hb, records, hrecords, hmem⟩ := hr
  obtain ⟨hinside, hdata, hblock, hapart⟩ := h.covered hused hdir hb
  obtain ⟨offsets, hoffsets, rfl⟩ := Option.map_eq_some_iff.mp hrecords
  obtain ⟨o, ho, rfl⟩ := List.mem_map.mp hmem
  obtain ⟨ho, hlive⟩ := List.mem_filter.mp ho
  refine ⟨b, o, offsets, hb, rfl, hoffsets, ho, hlive, hinside, hdata, hapart, ?_⟩
  rw [Layout.directoryBlock, hoffsets, Option.any_some, List.all_eq_true] at hblock
  have hentry := hblock o ho
  rw [Bool.or_eq_true, decide_eq_true_iff] at hentry
  exact hentry.resolve_left (of_decide_eq_true hlive)

namespace Place

theorem numbered (hp : Place L m r b o offsets) : 1 ≤ r.inode ∧ r.inode ≤ L.inodes := by
  obtain ⟨hlo, hhi, -⟩ := Layout.inUse_iff.mp hp.used
  exact ⟨hlo, hhi⟩

/-- The length of the entry, and where the entry lies in its block. -/
theorem aligned (hp : Place L m r b o offsets) :
    r.position = b * 1024 + o ∧ r.inode = m.load (b * 1024 + o) 4 ∧ o % 4 = 0 ∧
      m.load (b * 1024 + o + 4) 2 % 4 = 0 ∧ 8 ≤ m.load (b * 1024 + o + 4) 2 ∧
        o + m.load (b * 1024 + o + 4) 2 ≤ 1024 := by
  have hlengths := aligned_of_entryOffsets hp.chain (Nat.zero_mod 4) o hp.mem
  rw [hp.record]
  exact ⟨rfl, rfl, hlengths⟩

end Place

/-! ## What stays -/

/-- Inode `n` and its indirect block are the same in `m'`. -/
structure SamePointers (L : Layout) (n : Nat) (m m' : Memory) : Prop where
  inode : ∀ y, L.inodeAt n ≤ y → y < L.inodeAt n + 128 → m' y = m y
  indirect : L.word m n 12 ≠ 0 → ∀ y, y / 1024 = L.word m n 12 → m' y = m y

namespace SamePointers

theorem field (h : SamePointers L n m m') {i k : Nat} (hi : i + k ≤ 128) :
    m'.load (L.inodeAt n + i) k = m.load (L.inodeAt n + i) k :=
  load_congr fun j hj => h.inode _ (by omega) (by omega)

theorem word (h : SamePointers L n m m') {i : Nat} (hi : i < 15) :
    L.word m' n i = L.word m n i := by
  rw [Layout.word, Layout.word, Nat.add_assoc]
  exact h.field (by omega)

theorem fileBlocks (h : SamePointers L n m m') : L.fileBlocks m' n = L.fileBlocks m n := by
  have hdirect : (List.range 12).map (L.word m' n) = (List.range 12).map (L.word m n) :=
    List.map_congr_left fun i hi => h.word (by have := List.mem_range.mp hi; omega)
  rw [Layout.fileBlocks, Layout.fileBlocks, hdirect, h.word (by decide)]
  by_cases hnull : L.word m n 12 = 0
  · rw [if_pos hnull, if_pos hnull]
  · rw [if_neg hnull, if_neg hnull]
    have hentries : ∀ k ∈ List.range 256, m'.load (L.word m n 12 * 1024 + 4 * k) 4 =
        m.load (L.word m n 12 * 1024 + 4 * k) 4 := fun k hk =>
      load_congr fun j hj => h.indirect hnull _ (by have := List.mem_range.mp hk; omega)
    rw [List.map_congr_left hentries]

theorem isDirectory (h : SamePointers L n m m') : L.isDirectory m' n = L.isDirectory m n := by
  rw [Layout.isDirectory, Layout.isDirectory, ← Nat.add_zero (L.inodeAt n), h.field (by decide)]

end SamePointers

/-- A block that holds no metadata, other than `b`, stays. -/
theorem SameElsewhere.data (h : SameElsewhere L b n m m') (hn : 1 ≤ n ∧ n ≤ L.inodes) {a : Nat}
    (ha : a / 1024 ≠ b) (hdata : a / 1024 ∉ L.metadata) : m' a = m a := by
  obtain ⟨hdecides, hout⟩ := L.outside_of_data hn hdata
  exact h a ha hdecides hout

/-- So do the pointers of another inode in use, when block `b` is not its indirect block. -/
theorem SameElsewhere.pointers (h : SameElsewhere L b n m m') (hm : Consistent L m)
    (hn : 1 ≤ n ∧ n ≤ L.inodes) (hb : b ∉ L.metadata) (hd : L.inUse m d = true) (hne : d ≠ n)
    (hapart : L.word m d 12 ≠ b) : SamePointers L d m m' := by
  have hbacked := hm.owned.backed hd
  refine ⟨fun a hlo hhi => ?_, fun hne a ha => ?_⟩
  · obtain ⟨h3, hbb, hib, hmem⟩ := L.inode_apart hbacked.numbered ⟨hlo, hhi⟩
    refine h a (ne_of_mem_of_not_mem hmem hb) ?_ ?_
    · rw [Layout.Decides]
      omega
    · rcases L.inode_disjoint hn.1 hbacked.numbered.1 hne.symm with hbelow | habove
      · exact .inr (by omega)
      · exact .inl (by omega)
  · have hdata : L.word m d 12 ∉ L.metadata := (hbacked.granted .indirect _ rfl hne).data
    rw [← ha] at hapart hdata
    exact h.data hn hapart hdata

/-- Where the link has been counted less, a longer entry changes the listing of the block as it
does before. -/
theorem LinkDropped.listing_lengthen (h : LinkDropped L n m u) (hn : 1 ≤ n ∧ n ≤ L.inodes)
    (hb : b ∉ L.metadata) (hg : g % 4 = 0) :
    listing (lengthen u g k) b = listing (lengthen m g k) b := by
  refine listing_congr fun a ha => ?_
  by_cases hin : g / 1024 = b
  · have hload : u.load g 2 = m.load g 2 := load_congr fun i hi => h.data hn (by
      rwa [show (g + i) / 1024 = b by omega])
    rw [lengthen, lengthen, hload]
    refine store_congr (h.data hn ?_)
    rwa [ha]
  · rw [lengthen, lengthen, store_apply_of_outside (by omega), store_apply_of_outside (by omega)]
    refine h.data hn ?_
    rwa [ha]

/-- A longer entry in block `b` changes that block only. -/
theorem LinkDropped.elsewhere (h : LinkDropped L n m u) (hg : g % 4 = 0) (hb : g / 1024 = b) :
    SameElsewhere L b n m (lengthen u g k) := fun a ha hdecides hout => by
  rw [lengthen, store_apply_of_outside (by omega)]
  exact h.same a hdecides (by omega)

/-- Other listings do not show the entry. -/
theorem map_without_listing {position : Nat} (hne : position / 1024 ≠ b) :
    (listing m b).map (without position) = listing m b := by
  cases hlisting : listing m b with
  | none => rfl
  | some records =>
    obtain ⟨offsets, hoffsets, rfl⟩ := Option.map_eq_some_iff.mp hlisting
    refine congrArg some (List.filter_eq_self.mpr fun r hr => ?_)
    obtain ⟨o, ho, rfl⟩ := List.mem_map.mp hr
    have hfits := fits_of_entryOffsets hoffsets (List.mem_filter.mp ho).1
    refine decide_eq_true fun heq => hne ?_
    change b * 1024 + o = position at heq
    omega

/-- The blocks of a directory stay with its pointers. -/
theorem SamePointers.coveredBlocks (h : SamePointers L d m m') :
    L.coveredBlocks m' d = L.coveredBlocks m d := by
  rw [Layout.coveredBlocks, Layout.coveredBlocks, h.fileBlocks, h.field (by decide)]

/-! ## The removal of the entry -/

/-- A directory is not a regular file. -/
theorem ListedFile.ne_directory (hr : ListedFile L m d r) {d' : Nat}
    (hdir : L.isDirectory m d' = true) : d' ≠ r.inode := by
  rintro rfl
  have hmode := (of_decide_eq_true hdir).symm.trans hr.regular
  exact absurd hmode (by decide)

/-- The blocks that a release of the file would free. -/
theorem ListedFile.freedBlocks (h : Consistent L m) (hr : ListedFile L m d r)
    (hused : L.inUse m r.inode = true) :
    (∀ b ∈ L.freedBlocks m r.inode, b ≤ L.blocks) ∧
      (0 ∉ L.freedBlocks m r.inode ↔ ∀ i < 12, L.word m r.inode i ≠ 0) := by
  have hbacked := h.owned.backed hused
  have hindirect : ∀ b ∈ L.freedBlocks m r.inode, b ∉ (List.range 12).map (L.word m r.inode) →
      b ≠ 0 ∧ b < L.blocks := by
    intro b hb hnot
    have hb := (List.mem_append.mp hb).resolve_left hnot
    by_cases hnull : L.word m r.inode 13 = 0
    · rw [if_pos hnull] at hb
      cases hb
    · rw [if_neg hnull] at hb
      obtain ⟨i, hi, hword⟩ := List.mem_filterMap.mp hb
      have hi' := List.mem_range.mp hi
      have hlt := (hr.double.resolve_left hnull).2 i (by omega)
      rw [Option.ite_none_left_eq_some] at hword
      obtain ⟨hne, hword⟩ := hword
      obtain rfl := Option.some.inj hword
      exact ⟨hne, hlt⟩
  refine ⟨fun b hb => ?_, fun hpositive i hi hnull => ?_, fun hdirect hzero => ?_⟩
  · by_cases hmem : b ∈ (List.range 12).map (L.word m r.inode)
    · obtain ⟨i, hi, rfl⟩ := List.mem_map.mp hmem
      by_cases hnull : L.word m r.inode i = 0
      · omega
      · have hgranted : L.Granted m (L.word m r.inode i) :=
          hbacked.granted (.direct ⟨i, List.mem_range.mp hi⟩) _ rfl hnull
        exact hgranted.inside.le
    · exact (hindirect b hb hmem).2.le
  · exact hpositive (List.mem_append_left _ (List.mem_map.mpr ⟨i, List.mem_range.mpr hi, hnull⟩))
  · by_cases hmem : 0 ∈ (List.range 12).map (L.word m r.inode)
    · obtain ⟨i, hi, hnull⟩ := List.mem_map.mp hmem
      exact hdirect i (List.mem_range.mp hi) hnull
    · exact (hindirect 0 hzero hmem).1 rfl

/-- A removal counts one link less and enlarges a field. -/
theorem Place.delete_iff (hp : Place L m r b o offsets) (h : Consistent L m)
    (hr : ListedFile L m d r) (hfound : findFile path m = .ok r.position m)
    (hg : g + m.load (b * 1024 + o + 4) 2 = b * 1024 + o + 4) :
    deleteFileInode path m = .ok () m' ↔ ∃ u, dropLink r.inode m = .ok () u ∧
      LinkDropped L r.inode m u ∧ m' = lengthen u g (m.load (b * 1024 + o + 4) 2) := by
  obtain ⟨hposition, hinode, h4, hrec4, hrec, hend⟩ := hp.aligned
  have hn := hp.numbered
  have hinside := hp.inside
  have hmapped := L.mapped
  have hinodes := L.inodes_le
  obtain ⟨hblocks, -⟩ := hr.freedBlocks h hp.used
  have hextra := hr.double.imp_right And.left
  have hnumber : toInt (m.load (b * 1024 + o) 4) = r.inode := by
    rw [← hinode, toInt_of_lt (by omega)]
  have hspec : ∀ u, dropLink r.inode m = .ok () u → LinkDropped L r.inode m u := fun u hu =>
    dropLink_spec h.holds hn hblocks hextra hu
  rw [deleteFileInode, bind_of_ok hfound, hposition, unlinkEntry_iff (by omega) hg fun u hu => ?_,
    hnumber]
  · exact exists_congr fun u => and_congr_right fun hu => (and_iff_right (hspec u hu)).symm
  · rw [hnumber] at hu
    refine load_congr fun i hi => (hspec u hu).data hn ?_
    rw [show (b * 1024 + o + 4 + i) / 1024 = b by omega]
    exact hp.data

/-- A longer entry that skips this one takes exactly its name away. -/
theorem Place.takesOne (hp : Place L m r b o offsets) (h : Consistent L m)
    (hr : ListedFile L m d r) (hu : LinkDropped L r.inode m u)
    (hg : g + m.load (b * 1024 + o + 4) 2 = b * 1024 + o + 4) (hskips : Skips m b o)
    (hcounted : m.load (L.inodeAt r.inode + 26) 2 = 0 →
      ∀ d' r', L.Lists m d' r' → r'.inode = r.inode → r'.position = r.position) :
    TakesOne L m d r (lengthen u g (m.load (b * 1024 + o + 4) 2)) := by
  obtain ⟨hposition, -, h4, hrec4, hrec, hend⟩ := hp.aligned
  have hn := hp.numbered
  have hinside := hp.inside
  have hdata := hp.data
  have hin : g / 1024 = b := by
    obtain ⟨before, q, between, after, rest, hskip⟩ := hskips
    have hlength := hskip.length
    omega
  have hlost := (listing_lengthen_iff hp.chain hp.mem hp.live hg).mpr hskips
  rw [← hu.listing_lengthen hn hdata (by omega)] at hlost
  have hlinks : (lengthen u g (m.load (b * 1024 + o + 4) 2)).load (L.inodeAt r.inode + 26) 2 =
      u.load (L.inodeAt r.inode + 26) 2 := by
    obtain ⟨haligned, -⟩ := L.inodeAt_bound hn
    exact load_store_of_disjoint (by omega)
  have hused : L.inUse (lengthen u g (m.load (b * 1024 + o + 4) 2)) = L.inUse u :=
    Owned.inUse_congr fun a ha => store_apply_of_outside (by
      have hbitmap : b ≠ L.inodeBitmap := fun heq =>
        hdata (Layout.mem_metadata.mpr (.inr (.inr (.inr (.inl heq)))))
      omega)
  have hsame := hu.elsewhere (k := m.load (b * 1024 + o + 4) 2) (by omega) hin
  generalize lengthen u g (m.load (b * 1024 + o + 4) 2) = m' at *
  have hlisting : ∀ c ∉ L.metadata, listing m' c = (listing m c).map (without r.position) := by
    intro c hc
    by_cases hcb : c = b
    · rw [hcb, hlost, hposition]
    · rw [map_without_listing (by omega)]
      refine listing_congr fun a ha => hsame.data hn (by omega) ?_
      rwa [ha]
  have hpointers : ∀ d', L.inUse m d' = true → L.isDirectory m d' = true →
      SamePointers L d' m m' := fun d' hd' hdir' =>
    hsame.pointers h hn hdata hd' (hr.ne_directory hdir') (hp.apart d' hd')
  refine ⟨(hpointers d hr.lists.1 hr.lists.2.1).coveredBlocks,
    fun c hc => hlisting c (h.covered hr.lists.1 hr.lists.2.1 hc).2.1, ?_, ?_⟩
  · rwa [show r.position / 1024 = b by omega]
  · intro d' r' hlists hlink hne
    have hpos : m.load (L.inodeAt r.inode + 26) 2 ≠ 0 := fun hzero =>
      hne (hcounted hzero d' r' hlists hlink)
    have hlt := m.load_lt (L.inodeAt r.inode + 26) 2
    obtain ⟨hd', hdir', c, hc, records, hrecords, hmem⟩ := hlists
    have hsame' := hpointers d' hd' hdir'
    refine ⟨⟨?_, hsame'.isDirectory.trans hdir', c, ?_, without r.position records, ?_,
      List.mem_filter.mpr ⟨hmem, decide_eq_true hne⟩⟩, ?_⟩
    · rw [hused, hu.inUse d' (hr.ne_directory hdir'), hd']
    · rwa [hsame'.coveredBlocks]
    · rw [hlisting c (h.covered hd' hdir' hc).2.1, hrecords, Option.map_some]
    · rw [hlinks, hu.links]
      omega

/-! ## When exactly one name is removed -/

/-- A removal takes away exactly one name when the search ends at its entry, the only link is one
of a file with twelve direct blocks, a file with other links has a link count, and the entry lies
its own length after one that leads on to the same live entries when it becomes longer. -/
theorem removesName_iff (h : Consistent L m) (hr : ListedFile L m d r) :
    RemovesName L m path d r ↔ RemovableName L m path r := by
  obtain ⟨b, o, offsets, hb, hp⟩ := hr.lists.place h
  obtain ⟨hposition, -, h4, hrec4, hrec, hend⟩ := hp.aligned
  have hn := hp.numbered
  have hinside := hp.inside
  obtain ⟨hblocks, hpositive⟩ := hr.freedBlocks h hp.used
  have hextra := hr.double.imp_right And.left
  have hblock : r.position / 1024 = b := by omega
  have hoffset : r.position % 1024 = o := by omega
  obtain ⟨g, hg⟩ : ∃ g, g + m.load (b * 1024 + o + 4) 2 = b * 1024 + o + 4 :=
    ⟨b * 1024 + o + 4 - m.load (b * 1024 + o + 4) 2, by omega⟩
  constructor
  · rintro ⟨hsearch, m', hrun, htakes⟩
    obtain ⟨entry, v, hfound, -⟩ := bind_ok.mp hrun
    obtain rfl := hsearch entry v hfound
    obtain rfl : m = v := (readOnly_findFile path).of_ok hfound
    obtain ⟨u, -, hu, rfl⟩ := (hp.delete_iff h hr hfound hg).mp hrun
    have hlisting := htakes.listing b hb
    rw [hu.listing_lengthen hn hp.data (by omega), hposition,
      listing_lengthen_iff hp.chain hp.mem hp.live hg] at hlisting
    refine ⟨hfound, fun hone => hpositive.mp (hu.positive hone),
      fun hzero d' r' hlists hsame => ?_, ?_⟩
    · by_contra hne
      have hless := (htakes.links d' r' hlists hsame hne).2
      omega
    · rwa [hblock, hoffset]
  · rintro ⟨hfound, hdirect, hcounted, hskipped⟩
    rw [hblock, hoffset] at hskipped
    obtain ⟨u, hdrop⟩ := dropLink_returns h.holds hn hblocks hextra
      fun hone => hpositive.mpr (hdirect hone)
    have hu := dropLink_spec h.holds hn hblocks hextra hdrop
    refine ⟨fun entry v hrun => ?_, _,
      (hp.delete_iff h hr hfound hg).mpr ⟨u, hdrop, hu, rfl⟩,
      hp.takesOne h hr hu hg hskipped hcounted⟩
    rw [hfound] at hrun
    cases hrun
    rfl

/-! ## A file with two links and one with a long entry -/

/-- The image in which `/a/f` and `/a/h` are links of inode 12. -/
def withLinks : Memory :=
  let writes : List (Nat × List UInt8) := [(6554, leBytes 2 2),
    (8216, direntBytes 12 12 1 [0x66]), (8228, direntBytes 12 988 1 [0x68])]
  writes.foldl (fun m w => m.write w.1 w.2) (withFile false)

theorem consistent_withLinks : Consistent sampleLayout withLinks := by
  have hheld : sampleLayout.directSlots.filterMap
      (sampleLayout.held (sampleLayout.inUse withLinks) withLinks) = [7, 8, 9] := by
    decide +kernel
  refine ⟨?_, ?_, ?_, ?_, ?_, ?_, ?_, ?_⟩
  · constructor <;> decide +kernel
  · decide +kernel
  · refine Layout.exclusiveBlocks_of_direct (by decide +kernel) ?_ ?_
    · rw [hheld]
      decide
    · rw [hheld]
      decide +kernel
  all_goals decide +kernel

theorem foundFile_withLinks : findFile afPath withLinks = .ok 8216 withLinks := by
  obtain ⟨p, u, hfound, hp⟩ := exists_of_holds
    (show holds (findFile afPath withLinks) (fun p _ => p = 8216) = true by decide +kernel)
  obtain rfl := of_decide_eq_true hp
  obtain rfl := (readOnly_findFile afPath).of_ok hfound
  exact hfound

theorem listedFile_withLinks :
    ListedFile sampleLayout withLinks 11 (recordAt withLinks 8 24) where
  lists := ⟨by decide +kernel, by decide +kernel, 8, by decide +kernel,
    [0, 12, 24, 36].map (recordAt withLinks 8), by decide +kernel, by decide +kernel⟩
  regular := by decide +kernel
  double := .inl (by decide +kernel)

/-- The link `/a/f`, which is as long as the entry before it, is removed. -/
theorem removesName_withLinks :
    RemovesName sampleLayout withLinks afPath 11 (recordAt withLinks 8 24) := by
  refine (removesName_iff consistent_withLinks listedFile_withLinks).mpr
    ⟨foundFile_withLinks, fun hone => ?_, fun hzero => ?_, [0], 12, [], [36], [36], ?_⟩
  · exact absurd hone (by decide +kernel)
  · exact absurd hzero (by decide +kernel)
  · constructor <;> decide +kernel

theorem listedFile_withFile :
    ListedFile sampleLayout (withFile true) 11 (recordAt (withFile true) 8 24) where
  lists := ⟨by decide +kernel, by decide +kernel, 8, by decide +kernel,
    [0, 12, 24].map (recordAt (withFile true) 8), by decide +kernel, by decide +kernel⟩
  regular := by decide +kernel
  double := .inl (by decide +kernel)

/-- Where `/a/f` is the last entry its length reaches to the end of the block, and is added to a
field in the block of the root directory. -/
theorem not_removesName : Consistent sampleLayout (withFile true) ∧
    ListedFile sampleLayout (withFile true) 11 (recordAt (withFile true) 8 24) ∧
    findFile afPath (withFile true) = .ok (8216 : Nat) (withFile true) ∧
    ¬ RemovesName sampleLayout (withFile true) afPath 11 (recordAt (withFile true) 8 24) := by
  refine ⟨consistent_withFile true, listedFile_withFile, foundFile_withFile true, ?_⟩
  rintro ⟨-, m', hrun, htakes⟩
  have hdecides : ¬ sampleLayout.Decides 7220 := by
    rw [Layout.Decides]
    decide
  have hsame := htakes.same 7220 (by decide +kernel) hdecides (.inr (by decide +kernel))
  have hchanged : holds (deleteFileInode afPath (withFile true))
      (fun _ m' => m' 7220 = withFile true 7220) = false := by decide +kernel
  rw [hrun] at hchanged
  exact absurd hsame (of_decide_eq_false hchanged)

end OsAssignments.Ext2
