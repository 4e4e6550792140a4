import OsAssignments.Ext2.Names

/-!
# The links that runs add

What a live entry of a directory says is a link: a number, a type and a name. A run adds one link
to one directory, and the image before the run tells which. The links of a sequence of runs make
up its journal. Where every run spares the owners of blocks, each directory gains the links that
the journal records for it, all to different inodes that were free, and a file that the journal
does not name as a directory stays as it is.
-/

namespace OsAssignments.Ext2

open Memory Program

variable {L : Layout} {m m' : Memory} {c : Command}

/-! ## Links -/

/-- What an entry says. -/
structure Link where
  number : Nat
  fileType : Nat
  name : List UInt8
deriving DecidableEq, Repr

/-- The entry at an offset of a block. -/
def linkAt (m : Memory) (b offset : Nat) : Link :=
  ⟨m.load (b * 1024 + offset) 4, m.load (b * 1024 + offset + 7) 1, nameAt m b offset⟩

/-- The offsets of the live entries of a block, up to an entry of length 0 or one that does not fit
into the block. -/
def liveOffsets (m : Memory) (b : Nat) : Nat → Nat → List Nat
  | 0, _ => []
  | rounds + 1, offset =>
    let recLen := m.load (b * 1024 + offset + 4) 2
    if offset + 8 + m.load (b * 1024 + offset + 6) 1 ≤ 1024 then
      (if liveAt m b offset then [offset] else []) ++
        if recLen = 0 then [] else liveOffsets m b rounds (offset + recLen)
    else []

/-- The links of the live entries of a block. -/
def liveLinks (m : Memory) (b : Nat) : List Link := (liveOffsets m b 1024 0).map (linkAt m b)

/-- The links in the blocks of a directory. -/
def Layout.links (L : Layout) (m : Memory) (n : Nat) : List Link :=
  ((L.fileBlocks m n).filter (· ≠ 0)).flatMap (liveLinks m)

theorem liveNames_eq {b : Nat} (rounds offset : Nat) :
    liveNames m b rounds offset = (liveOffsets m b rounds offset).map (nameAt m b) := by
  induction rounds generalizing offset with
  | zero => rfl
  | succ rounds ih =>
    rw [liveNames, liveOffsets]
    by_cases hfits : offset + 8 + m.load (b * 1024 + offset + 6) 1 ≤ 1024
    · rw [if_pos hfits, if_pos hfits, List.map_append, ih]
      by_cases hlive : liveAt m b offset = true <;>
        by_cases hend : m.load (b * 1024 + offset + 4) 2 = 0 <;> simp [hlive, hend]
    · rw [if_neg hfits, if_neg hfits]
      rfl

/-- The names of a directory are those of its links. -/
theorem Layout.names_eq_links (L : Layout) (m : Memory) (n : Nat) :
    L.names m n = (L.links m n).map Link.name := by
  rw [names, links, List.map_flatMap]
  refine List.flatMap_congr fun b _ => ?_
  rw [liveNames_eq, liveLinks, List.map_map]
  rfl

/-- The entries that are listed fit into the block. -/
theorem fits_of_liveOffsets {b rounds offset o : Nat} (ho : o ∈ liveOffsets m b rounds offset) :
    o + 8 + m.load (b * 1024 + o + 6) 1 ≤ 1024 := by
  induction rounds generalizing offset with
  | zero => cases ho
  | succ rounds ih =>
    rw [liveOffsets] at ho
    split at ho
    · next hfits =>
      rcases List.mem_append.mp ho with ho | ho
      · split at ho
        · rwa [List.mem_singleton.mp ho]
        · cases ho
      · split at ho
        · cases ho
        · exact ih ho
    · cases ho

theorem liveOffsets_congr {b : Nat} (h : ∀ a, a / 1024 = b → m' a = m a) (rounds offset : Nat) :
    liveOffsets m' b rounds offset = liveOffsets m b rounds offset := by
  induction rounds generalizing offset with
  | zero => rfl
  | succ rounds ih =>
    by_cases hin : offset + 8 ≤ 1024
    · have hload := load_header h hin
      have hlive : liveAt m' b offset = liveAt m b offset := by
        rw [liveAt, liveAt, ← Nat.add_zero (b * 1024 + offset), hload 0 4 (by decide)]
      simp only [liveOffsets, hload 6 1 (by decide), hload 4 2 (by decide), hlive, ih]
    · rw [liveOffsets, liveOffsets, if_neg (by omega), if_neg (by omega)]

/-- The links of a block depend on its bytes only. -/
theorem liveLinks_congr {b : Nat} (h : ∀ a, a / 1024 = b → m' a = m a) :
    liveLinks m' b = liveLinks m b := by
  rw [liveLinks, liveLinks, liveOffsets_congr h]
  refine List.map_congr_left fun o ho => ?_
  have hfits := fits_of_liveOffsets ho
  have hload := load_header h (show o + 8 ≤ 1024 by omega)
  have hnumber := hload 0 4 (by decide)
  rw [Nat.add_zero] at hnumber
  rw [linkAt, linkAt, nameAt, nameAt, hnumber, hload 7 1 (by decide), hload 6 1 (by decide),
    bytes_congr fun j hj => h _ (by omega)]

/-- A live first entry is the first that is listed. -/
theorem liveOffsets_first {b : Nat} (rounds : Nat) (hlive : liveAt m b 0 = true)
    (hfits : 8 + m.load (b * 1024 + 6) 1 ≤ 1024) :
    ∃ rest, liveOffsets m b (rounds + 1) 0 = 0 :: rest := by
  rw [liveOffsets, Nat.add_zero, Nat.zero_add, if_pos hfits, if_pos hlive]
  exact ⟨_, rfl⟩

/-- A block that was cleared and got one entry holds the link of that entry. -/
theorem liveLinks_withEntry {b fileType inode : Nat} {name : List UInt8}
    (hinode : 1 ≤ inode ∧ inode < 2 ^ 32) (htype : fileType < 2 ^ 8) (hname : name.length ≤ 255)
    (h : ∀ a, a / 1024 = b → m' a =
      withEntry (m.fill (b * 1024) 1024 0) (b * 1024) fileType inode (name.length + 8) name a) :
    liveLinks m' b = [⟨inode, fileType, name⟩] := by
  have hnames := liveNames_withEntry hinode hname h
  obtain ⟨hnumber, -, hlen, htype', hbytes⟩ :=
    withEntry_header (m.fill (b * 1024) 1024 0) (b * 1024) fileType inode (name.length + 8) name
  have hload : ∀ i k, i + k ≤ 8 → m'.load (b * 1024 + i) k =
      (withEntry (m.fill (b * 1024) 1024 0) (b * 1024) fileType inode (name.length + 8) name).load
        (b * 1024 + i) k := fun i k hik => load_congr fun j hj => h _ (by omega)
  have hnumber' := hload 0 4 (by decide)
  rw [Nat.add_zero, hnumber] at hnumber'
  have hlen' := (hload 6 1 (by decide)).trans hlen
  have hkind := (hload 7 1 (by decide)).trans htype'
  rw [Nat.mod_eq_of_lt (by omega)] at hnumber' hlen' hkind
  -- The first entry is live, and the names say that it is the only one.
  have hlive : liveAt m' b 0 = true := by
    rw [liveAt, Nat.add_zero, hnumber']
    exact decide_eq_true (by omega)
  obtain ⟨rest, hrest⟩ := liveOffsets_first 1023 hlive (by omega)
  rw [liveNames_eq, hrest, List.map_cons] at hnames
  obtain ⟨hat, hnil⟩ := List.cons.inj hnames
  rw [liveLinks, hrest, List.map_eq_nil_iff.mp hnil, List.map_singleton, linkAt, hat,
    Nat.add_zero, hnumber', hkind]

/-! ## One run -/

namespace Hands

variable {parent n e d a : Nat} {q : Pointer} {name : List UInt8}

/-- The links in a directory, by its pointers. -/
theorem links_eq {p : Nat} (hp : L.inUse m p = true) : L.links m p =
    (dataPointers.filterMap fun q => L.held (L.inUse m) m (p, q)).flatMap (liveLinks m) := by
  rw [Layout.links, Layout.filter_fileBlocks hp]

/-- The blocks that a directory held hold the same links. -/
theorem liveLinks_kept (h : Hands L c parent n e d a q name m m') (p : Nat) :
    (dataPointers.filterMap fun q => L.held (L.inUse m) m (p, q)).flatMap (liveLinks m') =
      (dataPointers.filterMap fun q => L.held (L.inUse m) m (p, q)).flatMap (liveLinks m) := by
  refine List.flatMap_congr fun b hb => ?_
  obtain ⟨q', hq', hheld⟩ := List.mem_filterMap.mp hb
  exact liveLinks_congr fun y hy => h.block_kept (mem_dataPointers.mp hq') hheld hy

/-- The other directories have the links that they had. -/
theorem links_other (h : Hands L c parent n e d a q name m m') {p : Nat}
    (hp : L.inUse m p = true) (hne : p ≠ parent) : L.links m' p = L.links m p := by
  rw [links_eq hp, links_eq (h.used_of_used hp), ← h.liveLinks_kept p]
  congr 1
  exact List.filterMap_congr fun q' _ => h.held_kept hp fun heq => hne (Prod.mk.inj heq).1

/-- The spot is outside the block of the entry. -/
theorem spot_ne (h : Hands L c parent n e d a q name m m') : a / 1024 ≠ e := by
  rcases Owned.slotAt_cases h.lands.used h.slot with ⟨hi, ha⟩ | ⟨w, k, hk, -, ha, hw⟩
  · dsimp only at hi ha
    obtain ⟨-, -, -, hmem⟩ :=
      L.inode_apart (h.owned.numbered _ h.lands.used) (y := a) (by omega)
    exact fun heq => h.lands.data.1 (heq ▸ hmem)
  · have hwe : w ≠ e := fun heq => h.spare.1.free _ (heq ▸ hw)
    omega

/-- The directory has one more link, to the inode that the run takes. -/
theorem links_parent (h : Hands L c parent n e d a q name m m') :
    (L.links m' parent).Perm (⟨n, c.fileType, name⟩ :: L.links m parent) := by
  have hp := h.lands.used
  have hinodes := L.inodes_le
  have hnumbered := h.numbered
  have htype : c.fileType < 2 ^ 8 := by
    cases c with
    | mkdir path => exact show ext2FtDir < 2 ^ 8 by decide
    | cp source file target => exact show ext2FtRegFile < 2 ^ 8 by decide
  have hentry : liveLinks m' e = [⟨n, c.fileType, name⟩] :=
    liveLinks_withEntry ⟨hnumbered.1, by omega⟩ htype (h.lands.length_le h.named)
      (h.block h.spot_ne)
  have hnone : L.held (L.inUse m) m (parent, q) = none := by
    simp only [Layout.held, hp, ite_true, h.slot, h.null]
  have hperm := filterMap_perm nodup_dataPointers (mem_dataPointers.mpr h.data) hnone h.held_spot
    fun q' _ hq' => h.held_kept hp fun heq => hq' (Prod.mk.inj heq).2
  rw [links_eq (h.used_of_used hp), links_eq hp, ← h.liveLinks_kept parent]
  refine (hperm.flatMap_right (liveLinks m')).trans ?_
  rw [List.flatMap_cons, hentry]
  exact List.Perm.refl _

end Hands

/-! ## What a run records -/

/-- A link in a directory. -/
structure Addition where
  parent : Nat
  link : Link
deriving DecidableEq, Repr

/-- What a run is about to add, read off the image before it. -/
def Command.addition (c : Command) (m : Memory) : Option Addition := do
  let parent ← c.directory m
  let index ← freeInode m
  let name ← c.newName
  return ⟨parent.toNat, index + 1, c.fileType, name⟩

/-- What the runs of a sequence are about to add, each read off the image that it starts in. -/
def journal : List Command → Memory → List Addition
  | [], _ => []
  | c :: cs, m =>
    match c.run m with
    | .ok _ m' => (c.addition m).toList ++ journal cs m'
    | .error _ _ => []

/-- The inodes that a journal names, in the order of the runs. -/
def numbers (records : List Addition) : List Nat := records.map fun r => r.link.number

/-- The links that a journal records for a directory. -/
def linksFor (p : Nat) (records : List Addition) : List Link :=
  (records.filter fun r => r.parent = p).map Addition.link

/-- No block of a file, no pointer to one and no byte of its inode changes. -/
structure Layout.SameFile (L : Layout) (f : Nat) (m m' : Memory) : Prop where
  inode : m'.bytes (L.inodeAt f) 128 = m.bytes (L.inodeAt f) 128
  blocks : L.fileBlocks m' f = L.fileBlocks m f
  data : ∀ b ∈ L.fileBlocks m f, b ≠ 0 → m'.bytes (b * 1024) 1024 = m.bytes (b * 1024) 1024

theorem Layout.SameFile.refl (L : Layout) (f : Nat) (m : Memory) : L.SameFile f m m :=
  ⟨rfl, rfl, fun _ _ _ => rfl⟩

theorem Layout.SameFile.trans {f : Nat} {m'' : Memory} (h : L.SameFile f m m')
    (h' : L.SameFile f m' m'') : L.SameFile f m m'' :=
  ⟨h'.inode.trans h.inode, h'.blocks.trans h.blocks, fun b hb hne =>
    (h'.data b (h.blocks ▸ hb) hne).trans (h.data b hb hne)⟩

namespace Hands

variable {parent n e d a : Nat} {q : Pointer} {name : List UInt8}

/-- The run takes the first free inode. -/
theorem freeInode_eq {x : Unit} (h : Hands L c parent n e d a q name m m')
    (hrun : c.run m = .ok x m') : ∃ k, freeInode m = some k ∧ n = k + 1 := by
  have hsame : ∀ k, L.inUse m' = Function.update (L.inUse m) (k + 1) true → n = k + 1 := by
    intro k hk
    by_contra hne
    have hn := congrFun (h.used.symm.trans hk) n
    rw [Function.update_self, Function.update_of_ne hne, h.unused] at hn
    cases hn
  rw [Command.run_ok] at hrun
  cases c with
  | mkdir path =>
    obtain ⟨run⟩ := mkdir_ok hrun
    obtain ⟨_, _, hentered, -⟩ := run.entered_of h.owned h.lands
    exact ⟨run.index, run.free, hsame _ hentered.used⟩
  | cp source file target =>
    obtain ⟨-, ⟨run⟩⟩ := cp_ok hrun
    obtain ⟨_, _, hentered⟩ := run.entered_of h.owned h.lands
    exact ⟨run.index, run.free, hsame _ hentered.used⟩

theorem addition_eq {x : Unit} (h : Hands L c parent n e d a q name m m')
    (hrun : c.run m = .ok x m') : c.addition m = some ⟨parent, n, c.fileType, name⟩ := by
  obtain ⟨k, hk, rfl⟩ := h.freeInode_eq hrun
  simp only [Command.addition, h.lands.directory, hk, h.named, Option.bind_eq_bind,
    Option.bind_some, Option.pure_def, Int.toNat_natCast]

theorem journal_cons (h : Hands L c parent n e d a q name m m') (hrun : c.run m = .ok () m')
    (cs : List Command) :
    journal (c :: cs) m = ⟨parent, n, c.fileType, name⟩ :: journal cs m' := by
  rw [journal, hrun, h.addition_eq hrun]
  rfl

/-- Inodes below 12 are never taken. -/
theorem number_ge {x : Unit} (h : Hands L c parent n e d a q name m m')
    (hrun : c.run m = .ok x m') : 12 ≤ n := by
  obtain ⟨k, hk, rfl⟩ := h.freeInode_eq hrun
  obtain ⟨hlo, -⟩ := freeInode_eq_some hk
  omega

/-- A direct pointer changes only when the run set it. -/
theorem direct_kept (h : Hands L c parent n e d a q name m m') {p i : Nat}
    (hp : L.inUse m p = true) (hi : i < 12) (hne : (p, Pointer.direct ⟨i, hi⟩) ≠ (parent, q)) :
    L.word m' p i = L.word m p i :=
  h.load_kept hp hne rfl

/-- A file that is not the directory of the run stays as it is. -/
theorem sameFile (h : Hands L c parent n e d a q name m m') {f : Nat}
    (hf : L.inUse m f = true) (hne : f ≠ parent) : L.SameFile f m m' := by
  have hapart : ∀ q', (f, q') ≠ (parent, q) := fun q' heq => hne (Prod.mk.inj heq).1
  have hnumbered := h.owned.numbered _ hf
  have hbacked := h.owned.backed h.lands.used
  have hword : ∀ i < 13, L.word m' f i = L.word m f i := by
    intro i hi
    by_cases h12 : i = 12
    · subst h12
      exact h.load_kept hf (hapart .indirect) rfl
    · exact h.direct_kept hf (by omega) (hapart _)
  refine ⟨bytes_congr fun j hj => ?_, ?_, fun b hb hnull => bytes_congr fun j hj => ?_⟩
  · obtain ⟨-, -, -, hmem⟩ := L.inode_apart hnumbered (y := L.inodeAt f + j) (by omega)
    have hdisj := L.inode_disjoint hnumbered.1 hbacked.numbered.1 hne
    exact h.inode_apply h.lands hf (by omega) (h.spot.outside hbacked hmem (by omega))
  · rw [Layout.fileBlocks, Layout.fileBlocks, hword 12 (by decide)]
    congr 1
    · exact List.map_congr_left fun i hi => hword i (by have := List.mem_range.mp hi; omega)
    · split
      · rfl
      · next hind =>
        refine List.map_congr_left fun k hk => ?_
        refine h.load_kept hf (hapart (.entry ⟨k, List.mem_range.mp hk⟩)) ?_
        rw [Layout.slotAt, if_neg hind]
  · obtain ⟨q', a', hq', ha', rfl⟩ := Layout.exists_slot_of_fileBlocks hb
    exact h.block_kept hq' (Layout.held_eq_some_iff.mpr ⟨hf, a', ha', rfl, hnull⟩) (by omega)

end Hands

/-! ## Sequences of runs -/

/-- What a sequence of runs leaves, by its journal. -/
structure Layout.Recorded (L : Layout) (records : List Addition) (m m' : Memory) : Prop where
  distinct : (numbers records).Nodup
  fresh : ∀ n ∈ numbers records, 12 ≤ n ∧ n ≤ L.inodes ∧ L.inUse m n = false
  used : ∀ n, L.inUse m' n = true ↔ L.inUse m n = true ∨ n ∈ numbers records
  links : ∀ p, L.inUse m p = true → (L.links m' p).Perm (linksFor p records ++ L.links m p)
  untouched : ∀ f, L.inUse m f = true → (∀ r ∈ records, r.parent ≠ f) → L.SameFile f m m'

theorem Layout.Recorded.nil (L : Layout) (m : Memory) : L.Recorded [] m m where
  distinct := List.nodup_nil
  fresh := fun n hn => by cases hn
  used := fun n => by simp [numbers]
  links := fun p _ => List.Perm.refl _
  untouched := fun f _ _ => .refl L f m

theorem numbers_cons (r : Addition) (records : List Addition) :
    numbers (r :: records) = r.link.number :: numbers records := rfl

/-- A run before a sequence puts its record before the journal. -/
theorem Hands.recorded {parent n e d a : Nat} {q : Pointer} {name : List UInt8} {m'' : Memory}
    {x : Unit} {records : List Addition} (h : Hands L c parent n e d a q name m m')
    (hrun : c.run m = .ok x m') (hrest : L.Recorded records m' m'') :
    L.Recorded (⟨parent, n, c.fileType, name⟩ :: records) m m'' := by
  have hused : ∀ k, L.inUse m' k = true ↔ L.inUse m k = true ∨ k = n := fun k => by
    rw [h.used]
    by_cases hk : k = n
    · simp [hk]
    · simp [hk]
  refine ⟨?_, fun k hk => ?_, fun k => ?_, fun p hp => ?_, fun f hf hother => ?_⟩
  · rw [numbers_cons, List.nodup_cons]
    refine ⟨fun hmem => ?_, hrest.distinct⟩
    have hfree := (hrest.fresh n hmem).2.2
    rw [(hused n).mpr (.inr rfl)] at hfree
    cases hfree
  · rcases List.mem_cons.mp hk with rfl | hk
    · exact ⟨h.number_ge hrun, h.numbered.2, h.unused⟩
    · obtain ⟨hlo, hhi, hfree⟩ := hrest.fresh k hk
      refine ⟨hlo, hhi, Bool.eq_false_iff.mpr fun hk' => ?_⟩
      rw [(hused k).mpr (.inl hk')] at hfree
      cases hfree
  · rw [hrest.used, hused, numbers_cons, List.mem_cons, or_assoc]
  · have hlinks := hrest.links p ((hused p).mpr (.inl hp))
    by_cases hpp : p = parent
    · subst hpp
      rw [linksFor, List.filter_cons_of_pos (by simp), List.map_cons, List.cons_append]
      exact hlinks.trans ((h.links_parent.append_left _).trans List.perm_middle)
    · rw [linksFor, List.filter_cons_of_neg (by simpa using fun heq => hpp heq.symm),
        ← h.links_other hp hpp]
      exact hlinks
  · have hne : f ≠ parent := fun heq => hother _ List.mem_cons_self heq.symm
    exact (h.sameFile hf hne).trans (hrest.untouched f ((hused f).mpr (.inl hf))
      fun r hr => hother r (List.mem_cons_of_mem _ hr))

/-- Every run of the sequence is recorded, and the journal says what the sequence leaves. -/
theorem recorded_of_runs {cs : List Command} (h : Owned L (L.inUse m) m)
    (hruns : Guarded Command.run (fun c => c.SparesOwners L) cs m m') :
    (journal cs m).length = cs.length ∧ L.Recorded (journal cs m) m m' := by
  induction hruns with
  | nil => exact ⟨rfl, .nil L _⟩
  | @cons c cs s t u hc hrun hrest ih =>
    obtain ⟨parent, n, e, d, a, q, name, hands⟩ := hc.hands h hrun
    obtain ⟨hlength, hrecorded⟩ := ih (hc.owned h hrun)
    rw [hands.journal_cons hrun]
    exact ⟨by rw [List.length_cons, List.length_cons, hlength], hands.recorded hrun hrecorded⟩

/-! ## Copied files -/

/-- The first block of inode `n` has the bytes of a file shorter than a block, and zeros behind
them. -/
structure Layout.Copied (L : Layout) (m : Memory) (n : Nat) (file : List UInt8) : Prop where
  pointer : L.word m n 0 ≠ 0
  block : m.bytes (L.word m n 0 * 1024) 1024 = file ++ List.replicate (1024 - file.length) 0

/-- What stays as it is keeps the bytes. -/
theorem Layout.Copied.sameFile {n : Nat} {file : List UInt8} (h : L.Copied m n file)
    (hsame : L.SameFile n m m') : L.Copied m' n file := by
  have hfirst : ∀ s : Memory, (L.fileBlocks s n)[0]? = some (L.word s n 0) := fun s => by
    rw [Layout.fileBlocks, List.getElem?_append_left (by simp), List.getElem?_map]
    rfl
  have hword : L.word m' n 0 = L.word m n 0 := by
    have hblocks := hfirst m'
    rw [hsame.blocks, hfirst m] at hblocks
    exact (Option.some.inj hblocks).symm
  have hmem : L.word m n 0 ∈ L.fileBlocks m n := List.mem_of_getElem? (hfirst m)
  refine ⟨hword ▸ h.pointer, ?_⟩
  rw [hword, hsame.data _ hmem h.pointer, h.block]

/-- A block that may be given out is no metadata, so that it is apart from every inode. -/
theorem Layout.Granted.inode_disjoint {b n : Nat} (hb : L.Granted m b)
    (hn : 1 ≤ n ∧ n ≤ L.inodes) :
    L.inodeAt n + 128 ≤ b * 1024 ∨ b * 1024 + 1024 ≤ L.inodeAt n := by
  have hblocks : ∀ j < 128, (L.inodeAt n + j) / 1024 ≠ b := fun j hj heq =>
    hb.data (heq ▸ L.inode_mem_metadata hn (by omega))
  have hfirst := hblocks 0 (by decide)
  have hlast := hblocks 127 (by decide)
  omega

/-- A file written over a cleared block. -/
theorem bytes_write_fill {a n : Nat} {file : List UInt8} (hlen : file.length ≤ n)
    (h : m.bytes a n = List.replicate n 0) :
    (m.write a file).bytes a n = file ++ List.replicate (n - file.length) 0 := by
  obtain ⟨k, rfl⟩ := Nat.exists_eq_add_of_le hlen
  rw [bytes_add, List.replicate_add] at h
  obtain ⟨-, hrest⟩ := List.append_inj h (by simp)
  rw [bytes_add, bytes_write_same, bytes_write_of_disjoint (.inr (Nat.le_refl _)), hrest,
    Nat.add_sub_cancel_left]

/-- A successful run of `ext2_cp` that spares the owners copies a file shorter than a block. -/
theorem CpRun.copied {source target : CString} {file : Option (List UInt8)}
    (run : CpRun source file target m m') (h : Owned L (L.inUse m) m)
    (hc : (Command.cp source file target).SparesOwners L m) :
    L.Copied m' (run.index + 1) run.contents := by
  obtain ⟨e, d, hpicks, hspare_e, hspare_d⟩ := hc.picks
  obtain ⟨hindex, hunused, hinode, -⟩ := run.toCpStart.claimed_eq h.holds
  obtain ⟨hclaimed, hheld, hmarked⟩ := h.claimed run.toCpStart
  obtain ⟨parent, hparent, hused, hroom⟩ := hc.directory _ run.directory_eq
  have hname := hc.name _ run.nameLength_eq
  have hn : 1 ≤ run.index + 1 ∧ run.index + 1 ≤ L.inodes := ⟨by omega, hindex⟩
  have hshort : run.contents.length < 1024 := by
    have hlen := hc.short
    simp only [Command.contents, run.opened, Option.getD_some] at hlen
    exact hlen
  have hne := L.ne_of_inUse hused hunused
  have hsize := L.inodes_le
  have hmapped := L.mapped
  have henter := run.enter
  rw [hparent] at henter
  obtain ⟨d', cleared, hclear, -, hfilled⟩ := Owned.fillFile_short hshort run.fill
  rw [hinode] at hfilled
  obtain ⟨hdata, hpos, -, hgranted, -, -⟩ := hclaimed.pick hheld hmarked hpicks hspare_e hspare_d
    ((Function.update_of_ne hne ..).trans hused) hused hroom hname (by omega) henter hclear
  obtain rfl : d' = d := by omega
  obtain ⟨d'', hd'', -, -, hzero⟩ := findFreeBlock_ok hclear
  obtain rfl : d' = d'' := by omega
  have hinside := hgranted.inside
  have hapart := hgranted.inode_disjoint hn
  have hcount : ∀ y, 3 ≤ y / 1024 → m' y = run.filled y := fun y hy =>
    countOne_ok run.count y (by omega) (by omega)
  obtain ⟨h3, -, -, -⟩ := L.inode_apart hn (y := L.inodeAt (run.index + 1) + 40) (by omega)
  have hmeta := hgranted.data
  simp only [Layout.mem_metadata, not_or] at hmeta
  have hword : L.word m' (run.index + 1) 0 = d' := by
    have hload : m'.load (L.inodeAt (run.index + 1) + 40) 4 =
        run.filled.load (L.inodeAt (run.index + 1) + 40) 4 :=
      load_congr fun j hj => hcount _ (by omega)
    rw [Layout.word, Nat.mul_zero, Nat.add_zero, hload, hfilled,
      load_write_of_disjoint (by omega), load_store_same]
    exact Nat.mod_eq_of_lt (by omega)
  refine ⟨by omega, ?_⟩
  have hbytes : m'.bytes (d' * 1024) 1024 = run.filled.bytes (d' * 1024) 1024 :=
    bytes_congr fun j hj => hcount _ (by omega)
  rw [hword, hbytes, hfilled]
  refine bytes_write_fill hshort.le ?_
  have hclean : ∀ j < 1024, (cleared.store (L.inodeAt (run.index + 1) + 40) 4 d') (d' * 1024 + j) =
      cleared (d' * 1024 + j) := fun j hj => store_apply_of_outside (by omega)
  rw [bytes_congr hclean, hzero]
  exact bytes_fill_of_inside ⟨Nat.le_refl _, Nat.le_refl _⟩

/-! ## What a journal says -/

/-- Making `/a/b` and `/a/c` in the sample image records two new links in `/a`. -/
theorem journal_sample : journal [.mkdir abPath, .mkdir acPath] (sample true) =
    [⟨11, 12, 2, [0x62]⟩, ⟨11, 13, 2, [0x63]⟩] := by
  decide +kernel

/-- A sequence takes a new inode with every run, none of them twice and none that is reserved, and
takes no other. -/
theorem taken_of_spared {cs : List Command} (h : Consistent L m)
    (hruns : Guarded Command.run (fun c => c.SparesOwners L) cs m m') :
    (numbers (journal cs m)).length = cs.length ∧ (numbers (journal cs m)).Nodup ∧
      (∀ n ∈ numbers (journal cs m), 12 ≤ n ∧ n ≤ L.inodes ∧ L.inUse m n = false) ∧
      ∀ n, L.inUse m' n = true ↔ L.inUse m n = true ∨ n ∈ numbers (journal cs m) := by
  obtain ⟨hlength, hrecorded⟩ := recorded_of_runs h.owned hruns
  refine ⟨?_, hrecorded.distinct, hrecorded.fresh, hrecorded.used⟩
  rw [numbers, List.length_map, hlength]

theorem taken_of_spared_sample : ∃ m', ∀ n, sampleLayout.inUse m' n = true ↔
    sampleLayout.inUse (sample true) n = true ∨ n ∈ [12, 13] := by
  obtain ⟨m', hruns⟩ := guarded_sample
  obtain ⟨-, -, -, hused⟩ := taken_of_spared (consistent_sample true) hruns
  rw [journal_sample] at hused
  exact ⟨m', hused⟩

/-- Each directory gains the links that the journal records for it and loses none, and where its
links led to inodes in use they still do. -/
theorem links_of_spared {cs : List Command} (h : Consistent L m)
    (hruns : Guarded Command.run (fun c => c.SparesOwners L) cs m m') {p : Nat}
    (hp : L.inUse m p = true) :
    (L.links m' p).Perm (linksFor p (journal cs m) ++ L.links m p) ∧
      ((∀ l ∈ L.links m p, L.inUse m l.number = true) →
        ∀ l ∈ L.links m' p, L.inUse m' l.number = true) := by
  obtain ⟨-, hrecorded⟩ := recorded_of_runs h.owned hruns
  have hperm := hrecorded.links p hp
  refine ⟨hperm, fun hlive l hl => (hrecorded.used _).mpr ?_⟩
  rcases List.mem_append.mp (hperm.mem_iff.mp hl) with hnew | hold
  · obtain ⟨r, hr, rfl⟩ := List.mem_map.mp hnew
    exact .inr (List.mem_map.mpr ⟨r, (List.mem_filter.mp hr).1, rfl⟩)
  · exact .inl (hlive l hold)

theorem links_of_spared_sample : ∃ m', (sampleLayout.links m' 11).Perm
    (⟨12, 2, [0x62]⟩ :: ⟨13, 2, [0x63]⟩ :: sampleLayout.links (sample true) 11) := by
  obtain ⟨m', hruns⟩ := guarded_sample
  obtain ⟨hperm, -⟩ := links_of_spared (consistent_sample true) hruns (p := 11) (by decide +kernel)
  rw [journal_sample] at hperm
  exact ⟨m', hperm⟩

end OsAssignments.Ext2
