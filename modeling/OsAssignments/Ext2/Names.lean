import OsAssignments.Ext2.Entered
import OsAssignments.Ext2.Entries
import OsAssignments.Ext2.Failure

/-!
# Names that exist already

Before they add a name, both tools look for it among the entries of the first block of the
directory. They take deleted entries too, and an entry whose name is only a prefix of the new
one; `ext2_mkdir` passes over entries that are not of directory type. Where the search tells
existing names from new ones, no name is entered twice.
-/

namespace OsAssignments.Ext2

open Memory Program

variable {L : Layout} {U : Nat → Bool} {m m' : Memory} {c : Command}

/-! ## Reports -/

namespace Command

/-- `ext2_mkdir` looks at the entries of directory type only. -/
def dirsOnly : Command → Bool
  | mkdir _ => true
  | cp _ _ _ => false

/-- The search for the directory. -/
def target : Command → DiskM (Option INodeInfo)
  | mkdir path => stepToTarget path true
  | cp _ _ target => stepToTarget target false

/-- What is copied can be opened. -/
def Opens : Command → Prop
  | mkdir _ => True
  | cp _ file _ => file ≠ none

/-- The run reports that the name exists: the search for it in the directory ends at an entry. -/
def Reports (c : Command) (m : Memory) : Prop :=
  c.Opens ∧ ∃ indices info entry, generatePosition c.path = some indices ∧
    c.target m = .ok (some info) m ∧
    searchInode c.path indices.lastDir indices.lastChar c.dirsOnly info.iNode m =
      .ok (some entry) m

/-- How a run ends that refuses a name: `ext2_mkdir` returns an error, and `ext2_cp` calls `exit`.
Neither has changed the image. -/
def refusal (c : Command) (m : Memory) : EStateM.Result Stop Memory Int :=
  match c with
  | mkdir _ => .ok enoent m
  | cp _ _ _ => .error (.exit 1) m

/-- Nothing else than the name stands in the way of the run: an inode is free, and the contents fit
into a file. -/
def Supplied (c : Command) (m : Memory) : Prop :=
  freeInode m ≠ none ∧ c.contents.length < 237 * 1024

/-- After the report the run ends, and refuses the name. -/
theorem Reports.main_eq (h : c.Reports m) : c.main m = c.refusal m := by
  obtain ⟨hopens, indices, info, entry, hindices, htarget, hsearch⟩ := h
  cases c with
  | mkdir path =>
    change generatePosition path = _ at hindices
    change stepToTarget path true m = _ at htarget
    change searchInode path _ _ true _ m = _ at hsearch
    rw [main, Ext2.mkdir, require_bind hindices, bind_of_ok htarget]
    exact bind_of_ok hsearch
  | cp source file target =>
    change generatePosition source = _ at hindices
    change stepToTarget target false m = _ at htarget
    change searchInode source _ _ false _ m = _ at hsearch
    obtain ⟨contents, hfile⟩ := Option.ne_none_iff_exists'.mp hopens
    rw [main, Ext2.cp, require_bind hfile, bind_of_ok htarget]
    change (Program.require (.exit 1) (some info) >>= _) m = _
    rw [require_bind rfl, require_bind hindices, bind_of_ok hsearch]
    rfl

/-- A successful run has not reported the name. -/
theorem not_reports_of_run {x : Unit} (hrun : c.run m = .ok x m') : ¬ c.Reports m := by
  intro hreports
  rw [run_ok, hreports.main_eq] at hrun
  cases c with
  | mkdir path => cases hrun
  | cp source file target => cases hrun

/-- A run whose searches succeed has opened the file. -/
theorem Proceeds.opens (h : c.Proceeds m) : c.Opens := by
  cases c with
  | mkdir path => trivial
  | cp source file target => exact h.1

/-- The search for the name in the directory has ended without an entry. -/
theorem Proceeds.search (h : c.Proceeds m) : ∃ indices info,
    generatePosition c.path = some indices ∧ c.target m = .ok (some info) m ∧
      searchInode c.path indices.lastDir indices.lastChar c.dirsOnly info.iNode m =
        .ok none m := by
  cases c with
  | mkdir path => exact h
  | cp source file target => exact h.2

/-- A run whose searches succeed does not refuse the name when nothing else stands in its way. -/
theorem Proceeds.main_ne (h : c.Proceeds m) (hsupplied : c.Supplied m) :
    c.main m ≠ c.refusal m := by
  intro hrefused
  obtain ⟨hfree, hshort⟩ := hsupplied
  cases c with
  | mkdir path =>
    rcases mkdir_fails hrefused (by decide) with ⟨hstop, -⟩ | ⟨-, hnone, -⟩
    · exact hstop h
    · exact hfree hnone
  | cp source file target =>
    rcases cp_fails hrefused with ⟨hstop, -⟩ | ⟨-, ⟨hnone, -⟩ | ⟨start, hfill⟩⟩
    · exact hstop h
    · exact hfree hnone
    · refine not_fillFile_error ?_ hfill
      simpa only [contents, start.opened, Option.getD_some] using hshort

end Command

/-! ## Telling names apart -/

namespace Layout

/-- The offsets of the entries of a directory's first block. -/
def firstEntries (L : Layout) (m : Memory) (d : Nat) : List Nat :=
  (entryOffsets m (L.word m d 0) 129 0).getD []

/-- A directory with the size of one block, whose first block is sound, and which has no two live
entries with the same name. -/
structure NamedOnce (L : Layout) (m : Memory) (d : Nat) : Prop where
  size : m.load (L.inodeAt d + 4) 4 = 1024
  first : L.word m d 0 ≠ 0
  inside : L.word m d 0 < L.blocks
  sound : (entryOffsets m (L.word m d 0) 129 0).isSome = true
  unique : (L.names m d).Nodup

end Layout

/-- No entry that the search takes misleads it, and none is missing: where the name is new, no entry
of the first block, live or deleted, is of the type looked for and has a name that begins the new
one; where it is not new, there is such an entry. -/
structure Command.TellsApart (L : Layout) (c : Command) (m : Memory) (d : Nat)
    (name : List UInt8) : Prop where
  fresh : name ∉ L.names m d → ∀ o ∈ L.firstEntries m d,
    takes m (L.word m d 0) c.dirsOnly name o = false
  taken : name ∈ L.names m d → ∃ o ∈ L.firstEntries m d,
    takes m (L.word m d 0) c.dirsOnly name o = true

/-- The directory that a run finds, with its inode. -/
theorem Command.exists_info {d : Nat} (h : L.Holds m) (hd : 1 ≤ d ∧ d ≤ L.inodes)
    (hdir : c.directory m = some (d : Int)) :
    ∃ info, c.target m = .ok (some info) m ∧ info.iNode = L.inodeAt d := by
  have hstep : ∃ path flag, c.target = stepToTarget path flag := by
    cases c with
    | mkdir path => exact ⟨path, true, rfl⟩
    | cp source file target => exact ⟨target, false, rfl⟩
  have hfound : ∃ info u, c.target m = .ok (some info) u ∧ info.iNodeNumber = d := by
    cases htarget : c.target m with
    | error e u =>
      cases c <;> simp only [target] at htarget <;> simp [directory, htarget] at hdir
    | ok found u =>
      cases found with
      | none => cases c <;> simp only [target] at htarget <;> simp [directory, htarget] at hdir
      | some info =>
        refine ⟨info, u, rfl, ?_⟩
        cases c <;> simp only [target] at htarget <;> simpa [directory, htarget] using hdir
  obtain ⟨info, u, hinfo, hnumber⟩ := hfound
  obtain ⟨path, flag, hstep⟩ := hstep
  rw [hstep] at hinfo ⊢
  obtain rfl : m = u := (readOnly_stepToTarget path flag).of_ok hinfo
  refine ⟨info, hinfo, ?_⟩
  rw [stepToTarget_inode hinfo, hnumber, h.inodeTableAt (by omega), Layout.inodeAt]
  omega

/-- The search for the name in the directory that a run finds. -/
theorem Command.search_apply {d : Nat} {name : List UInt8} {offsets : List Nat} (h : L.Holds m)
    (hn : 1 ≤ d ∧ d ≤ L.inodes) (hd : L.NamedOnce m d) (hdir : c.directory m = some (d : Int))
    (hname : c.newName = some name)
    (hoffsets : entryOffsets m (L.word m d 0) 129 0 = some offsets) :
    ∃ indices info, generatePosition c.path = some indices ∧ c.target m = .ok (some info) m ∧
      searchInode c.path indices.lastDir indices.lastChar c.dirsOnly info.iNode m =
        .ok ((offsets.find? (takes m (L.word m d 0) c.dirsOnly name)).map fun o =>
          (((L.word m d 0 * 1024 : Nat) : Int), o)) m := by
  obtain ⟨indices, hindices, hslice⟩ := Option.bind_eq_some_iff.mp hname
  obtain ⟨info, htarget, hinode⟩ := c.exists_info h hn hdir
  have hblock := hd.inside
  have hmapped := L.mapped
  refine ⟨indices, info, hindices, htarget, ?_⟩
  rw [hinode]
  exact searchInode_apply (fun _ => matchName_eq hslice) c.dirsOnly hn hd.size (by omega) hoffsets

/-- The report says whether the search takes an entry of the first block. -/
theorem Command.reports_iff {d : Nat} {name : List UInt8} (h : L.Holds m)
    (hn : 1 ≤ d ∧ d ≤ L.inodes) (hd : L.NamedOnce m d) (hdir : c.directory m = some (d : Int))
    (hname : c.newName = some name) (hopens : c.Opens) :
    c.Reports m ↔ ∃ o ∈ L.firstEntries m d, takes m (L.word m d 0) c.dirsOnly name o = true := by
  obtain ⟨offsets, hoffsets⟩ := Option.isSome_iff_exists.mp hd.sound
  obtain ⟨indices, info, hindices, htarget, hsearch⟩ :=
    c.search_apply h hn hd hdir hname hoffsets
  rw [Layout.firstEntries, hoffsets, Option.getD_some]
  constructor
  · rintro ⟨-, indices', info', entry, hindices', htarget', hsearch'⟩
    obtain rfl := Option.some.inj (hindices.symm.trans hindices')
    cases htarget.symm.trans htarget'
    rw [hsearch] at hsearch'
    cases hfind : offsets.find? (takes m (L.word m d 0) c.dirsOnly name) with
    | none =>
      rw [hfind] at hsearch'
      cases hsearch'
    | some o => exact ⟨o, List.mem_of_find?_eq_some hfind, List.find?_some hfind⟩
  · rintro ⟨o, ho, htakes⟩
    obtain ⟨o', hfind⟩ := Option.isSome_iff_exists.mp (List.find?_isSome.mpr ⟨o, ho, htakes⟩)
    rw [hfind, Option.map_some] at hsearch
    exact ⟨hopens, indices, info, _, hindices, htarget, hsearch⟩

/-- A run that finds the directory reports the name or goes on. -/
theorem Command.reports_or_proceeds {d : Nat} {name : List UInt8} (h : L.Holds m)
    (hn : 1 ≤ d ∧ d ≤ L.inodes) (hd : L.NamedOnce m d) (hdir : c.directory m = some (d : Int))
    (hname : c.newName = some name) (hopens : c.Opens) : c.Reports m ∨ c.Proceeds m := by
  obtain ⟨offsets, hoffsets⟩ := Option.isSome_iff_exists.mp hd.sound
  obtain ⟨indices, info, hindices, htarget, hsearch⟩ :=
    c.search_apply h hn hd hdir hname hoffsets
  cases hfind : offsets.find? (takes m (L.word m d 0) c.dirsOnly name) with
  | some o =>
    rw [hfind] at hsearch
    exact .inl ⟨hopens, indices, info, _, hindices, htarget, hsearch⟩
  | none =>
    rw [hfind] at hsearch
    refine .inr ?_
    cases c with
    | mkdir path => exact ⟨indices, info, hindices, htarget, hsearch⟩
    | cp source file target => exact ⟨hopens, indices, info, hindices, htarget, hsearch⟩

/-- The report is right exactly where the search tells the names of the directory from the new
one. -/
theorem Command.reports_right_iff {d : Nat} {name : List UInt8} (h : L.Holds m)
    (hn : 1 ≤ d ∧ d ≤ L.inodes) (hd : L.NamedOnce m d) (hdir : c.directory m = some (d : Int))
    (hname : c.newName = some name) (hopens : c.Opens) :
    (c.Reports m ↔ name ∈ L.names m d) ↔ c.TellsApart L m d name := by
  rw [c.reports_iff h hn hd hdir hname hopens]
  constructor
  · intro hright
    refine ⟨fun hnew o ho => Bool.eq_false_iff.mpr fun htakes => ?_, hright.mpr⟩
    exact hnew (hright.mp ⟨o, ho, htakes⟩)
  · intro htells
    refine ⟨fun hexists => ?_, htells.taken⟩
    obtain ⟨o, ho, htakes⟩ := hexists
    by_contra hnew
    rw [htells.fresh hnew o ho] at htakes
    cases htakes

/-! ## The blocks of a directory as a family -/

/-- The pointers to the blocks of a file, in order. -/
def dataPointers : List Pointer :=
  (List.finRange 12).map .direct ++ (List.finRange 256).map .entry

theorem mem_dataPointers {q : Pointer} : q ∈ dataPointers ↔ q ≠ .indirect := by
  rw [dataPointers, List.mem_append, List.mem_map, List.mem_map]
  cases q with
  | direct i => simp
  | indirect => simp
  | entry k => simp

theorem nodup_dataPointers : dataPointers.Nodup := by
  refine List.Nodup.append ((List.nodup_finRange 12).map fun i j h => Pointer.direct.inj h)
    ((List.nodup_finRange 256).map fun i j h => Pointer.entry.inj h) fun q hdirect hentry => ?_
  obtain ⟨i, -, rfl⟩ := List.mem_map.mp hdirect
  obtain ⟨k, -, h⟩ := List.mem_map.mp hentry
  cases h

/-- The numbers of a family that are not zero. -/
theorem filter_map_ne_zero {β : Type} (bs : List β) (f : β → Nat) :
    (bs.map f).filter (· ≠ 0) = bs.filterMap fun b => if f b = 0 then none else some (f b) := by
  induction bs with
  | nil => rfl
  | cons b bs ih =>
    rw [List.map_cons, List.filterMap_cons]
    by_cases hb : f b = 0
    · rw [List.filter_cons_of_neg (by simp [hb]), ih]
      simp only [hb, ite_true]
    · rw [List.filter_cons_of_pos (by simp [hb]), ih]
      simp only [hb, ite_false]

/-- The blocks of an inode in `U` are what its pointers to blocks hold. -/
theorem Layout.filter_fileBlocks {n : Nat} (hU : U n = true) :
    (L.fileBlocks m n).filter (· ≠ 0) = dataPointers.filterMap fun q => L.held U m (n, q) := by
  have hdirect : ((List.range 12).map (L.word m n)).filter (· ≠ 0) =
      ((List.finRange 12).map Pointer.direct).filterMap fun q => L.held U m (n, q) := by
    rw [← List.map_coe_finRange_eq_range, List.map_map, filter_map_ne_zero, List.filterMap_map]
    refine List.filterMap_congr fun i _ => ?_
    simp only [Function.comp_apply, held, hU, ite_true]
    rfl
  have hentries : (if L.word m n 12 = 0 then [] else (List.range 256).map fun k =>
      m.load (L.word m n 12 * 1024 + 4 * k) 4).filter (· ≠ 0) =
        ((List.finRange 256).map Pointer.entry).filterMap fun q => L.held U m (n, q) := by
    by_cases hnull : L.word m n 12 = 0
    · rw [if_pos hnull, List.filterMap_map]
      refine (List.filterMap_eq_nil_iff.mpr fun k _ => ?_).symm
      simp only [Function.comp_apply, held, hU, ite_true, slotAt, hnull]
    · rw [if_neg hnull, ← List.map_coe_finRange_eq_range, List.map_map, filter_map_ne_zero,
        List.filterMap_map]
      refine List.filterMap_congr fun k _ => ?_
      simp only [Function.comp_apply, held, hU, ite_true, slotAt, hnull, ite_false]
  rw [fileBlocks, List.filter_append, hdirect, hentries, dataPointers, List.filterMap_append]

/-- Where one more pointer holds a block, one more block is held. -/
theorem filterMap_perm {qs : List Pointer} {f g : Pointer → Option Nat} {q : Pointer} {e : Nat}
    (hnodup : qs.Nodup) (hq : q ∈ qs) (hnone : f q = none) (hsome : g q = some e)
    (hother : ∀ q' ∈ qs, q' ≠ q → g q' = f q') : (qs.filterMap g).Perm (e :: qs.filterMap f) := by
  obtain ⟨before, after, rfl⟩ := List.append_of_mem hq
  obtain ⟨-, hafter, hapart⟩ := List.nodup_append.mp hnodup
  have hbefore : before.filterMap g = before.filterMap f := List.filterMap_congr fun q' hq' =>
    hother q' (List.mem_append_left _ hq') (hapart q' hq' q List.mem_cons_self)
  have hrest : after.filterMap g = after.filterMap f := List.filterMap_congr fun q' hq' =>
    hother q' (List.mem_append_right _ (List.mem_cons_of_mem q hq')) fun heq =>
      (List.nodup_cons.mp hafter).1 (heq ▸ hq')
  rw [List.filterMap_append, List.filterMap_append, List.filterMap_cons_some hsome,
    List.filterMap_cons_none hnone, hbefore, hrest]
  exact List.perm_middle

/-! ## One run -/

/-- A run that gives the block of the entry to pointer `q` of the directory, and whose two blocks
belong to nobody. -/
structure Hands (L : Layout) (c : Command) (parent n e d a : Nat) (q : Pointer)
    (name : List UInt8) (m m' : Memory) : Prop extends Entered L c parent n e d a name m m' where
  owned : Owned L (L.inUse m) m
  lands : c.Lands L m parent e d
  spare : L.Spare (L.inUse m) m e ∧ L.Spare (L.inUse m) m d
  data : q ≠ .indirect
  slot : L.slotAt m (parent, q) = some a
  null : m.load a 4 = 0
  first : ∀ i (hi : L.FirstNull m parent i), q = .direct ⟨i, hi.direct⟩

namespace Hands

variable {parent n e d a : Nat} {q : Pointer} {name : List UInt8}

/-- The spot is in no block that another pointer holds. -/
theorem outside (h : Hands L c parent n e d a q name m m') {p b y : Nat} {q' : Pointer}
    (hq' : q' ≠ .indirect) (hb : L.held (L.inUse m) m (p, q') = some b) (hy : y / 1024 = b) :
    y < a ∨ a + 4 ≤ y := by
  have hgranted := h.owned.owners.granted hb
  rcases Owned.slotAt_cases h.lands.used h.slot with ⟨hi, ha⟩ | ⟨w, k, hk, -, ha, hw⟩
  · by_contra hin
    refine hgranted.data (hy ▸ L.inode_mem_metadata (h.owned.numbered _ h.lands.used) ?_)
    dsimp only at hi ha
    omega
  · have hne : b ≠ w := fun heq => by
      have hslot := h.owned.owners.unique hb (heq ▸ hw)
      exact hq' (Prod.mk.inj hslot).2
    omega

/-- A block that a pointer to a block holds goes through the run unchanged. -/
theorem block_kept (h : Hands L c parent n e d a q name m m') {p b y : Nat} {q' : Pointer}
    (hq' : q' ≠ .indirect) (hb : L.held (L.inUse m) m (p, q') = some b) (hy : y / 1024 = b) :
    m' y = m y := by
  obtain ⟨-, -, -, -, hne⟩ := Layout.held_eq_some_iff.mp hb
  exact h.data_apply (h.owned.owners.granted hb) hne
    (fun heq => h.spare.1.free _ (heq ▸ hb)) (fun heq => h.spare.2.free _ (heq ▸ hb)) hy
    (h.outside hq' hb hy)

/-- What another pointer stores goes through the run unchanged. -/
theorem load_kept (h : Hands L c parent n e d a q name m m') {p a' : Nat} {q' : Pointer}
    (hp : L.inUse m p = true) (hne : (p, q') ≠ (parent, q)) (ha' : L.slotAt m (p, q') = some a') :
    m'.load a' 4 = m.load a' 4 := by
  have hapart : a' ≠ a := fun heq =>
    hne (h.owned.slotAt_inj hp h.lands.used ha' (heq ▸ h.slot))
  have haligned := Owned.slotAt_aligned h.slot
  have haligned' := Owned.slotAt_aligned ha'
  refine load_congr fun j hj => ?_
  rcases Owned.slotAt_cases hp ha' with ⟨hi, hin⟩ | ⟨w, k, hk, -, hin, hw⟩
  · dsimp only at hi hin
    exact h.inode_apply h.lands hp (by omega) (by omega)
  · obtain ⟨-, -, -, -, hnull⟩ := Layout.held_eq_some_iff.mp hw
    exact h.data_apply (h.owned.owners.granted hw) hnull
      (fun heq => h.spare.1.free _ (heq ▸ hw)) (fun heq => h.spare.2.free _ (heq ▸ hw))
      (by omega) (by omega)

theorem slotAt_kept (h : Hands L c parent n e d a q name m m') {p : Nat}
    (hp : L.inUse m p = true) (q' : Pointer) : L.slotAt m' (p, q') = L.slotAt m (p, q') := by
  have hword : L.word m' p 12 = L.word m p 12 :=
    h.load_kept hp (fun heq => h.data (Prod.mk.inj heq).2.symm)
      (show L.slotAt m (p, .indirect) = _ from rfl)
  cases q' with
  | direct i => rfl
  | indirect => rfl
  | entry k => simp only [Layout.slotAt, hword]

/-- Another pointer holds what it held. -/
theorem held_kept (h : Hands L c parent n e d a q name m m') {p : Nat} {q' : Pointer}
    (hp : L.inUse m p = true) (hne : (p, q') ≠ (parent, q)) :
    L.held (L.inUse m') m' (p, q') = L.held (L.inUse m) m (p, q') := by
  simp only [Layout.held, hp, h.used_of_used hp, ite_true, h.slotAt_kept hp]
  cases ha' : L.slotAt m (p, q') with
  | none => rfl
  | some a' => simp only [h.load_kept hp hne ha']

/-- The pointer holds the block of the entry. -/
theorem held_spot (h : Hands L c parent n e d a q name m m') :
    L.held (L.inUse m') m' (parent, q) = some e := by
  obtain ⟨hpos, -, -, -⟩ := h.lands.picked h.owned
  refine Layout.held_eq_some_iff.mpr ⟨h.used_of_used h.lands.used, a,
    (h.slotAt_kept h.lands.used q).trans h.slot, ?_, by omega⟩
  rcases Owned.slotAt_cases h.lands.used h.slot with ⟨hi, ha⟩ | ⟨w, k, hk, -, ha, hw⟩
  · dsimp only at hi ha
    obtain ⟨h3, -, -, hmem⟩ := L.inode_apart (h.owned.numbered _ h.lands.used) (y := a) (by omega)
    exact h.stored h3 (fun heq => h.lands.data.1 (heq ▸ hmem))
      fun heq => h.lands.data.2 (heq ▸ hmem)
  · have hdata := (h.owned.owners.granted hw).data
    obtain ⟨-, -, -, -, hnull⟩ := Layout.held_eq_some_iff.mp hw
    have hwe : w ≠ e := fun heq => h.spare.1.free _ (heq ▸ hw)
    have hwd : w ≠ d := fun heq => h.spare.2.free _ (heq ▸ hw)
    simp only [Layout.mem_metadata, not_or] at hdata
    exact h.stored (by omega) (by omega) (by omega)

/-- The names in a directory, by its pointers. -/
theorem names_eq {p : Nat} (hp : L.inUse m p = true) : L.names m p =
    (dataPointers.filterMap fun q => L.held (L.inUse m) m (p, q)).flatMap
      fun b => liveNames m b 1024 0 := by
  rw [Layout.names, Layout.filter_fileBlocks hp]

/-- The blocks that a directory held hold the same names. -/
theorem liveNames_kept (h : Hands L c parent n e d a q name m m') (p : Nat) :
    (dataPointers.filterMap fun q => L.held (L.inUse m) m (p, q)).flatMap
        (fun b => liveNames m' b 1024 0) =
      (dataPointers.filterMap fun q => L.held (L.inUse m) m (p, q)).flatMap
        fun b => liveNames m b 1024 0 := by
  refine List.flatMap_congr fun b hb => ?_
  obtain ⟨q', hq', hheld⟩ := List.mem_filterMap.mp hb
  exact liveNames_congr (fun y hy => h.block_kept (mem_dataPointers.mp hq') hheld hy) 1024 0

/-- The other directories have the names that they had. -/
theorem names_other (h : Hands L c parent n e d a q name m m') {p : Nat}
    (hp : L.inUse m p = true) (hne : p ≠ parent) : L.names m' p = L.names m p := by
  rw [names_eq hp, names_eq (h.used_of_used hp), ← h.liveNames_kept p]
  congr 1
  exact List.filterMap_congr fun q' _ => h.held_kept hp fun heq => hne (Prod.mk.inj heq).1

/-- The directory has the new name besides those that it had. -/
theorem names_parent (h : Hands L c parent n e d a q name m m') :
    (L.names m' parent).Perm (name :: L.names m parent) := by
  have hp := h.lands.used
  have hspot : a / 1024 ≠ e := by
    rcases Owned.slotAt_cases hp h.slot with ⟨hi, ha⟩ | ⟨w, k, hk, -, ha, hw⟩
    · dsimp only at hi ha
      obtain ⟨-, -, -, hmem⟩ := L.inode_apart (h.owned.numbered _ hp) (y := a) (by omega)
      exact fun heq => h.lands.data.1 (heq ▸ hmem)
    · have hwe : w ≠ e := fun heq => h.spare.1.free _ (heq ▸ hw)
      omega
  have hinodes := L.inodes_le
  have hnumbered := h.numbered
  have hentry : liveNames m' e 1024 0 = [name] := liveNames_withEntry ⟨hnumbered.1, by omega⟩
    (h.lands.length_le h.named) (h.block hspot)
  have hnone : L.held (L.inUse m) m (parent, q) = none := by
    simp only [Layout.held, hp, ite_true, h.slot, h.null]
  have hperm := filterMap_perm nodup_dataPointers (mem_dataPointers.mpr h.data) hnone h.held_spot
    fun q' _ hq' => h.held_kept hp fun heq => hq' (Prod.mk.inj heq).2
  rw [names_eq (h.used_of_used hp), names_eq hp, ← h.liveNames_kept parent]
  refine (hperm.flatMap_right fun b => liveNames m' b 1024 0).trans ?_
  rw [List.flatMap_cons, hentry]
  exact List.Perm.refl _

/-- Directories stay as a search needs them, when the name is new. -/
theorem namedOnce (h : Hands L c parent n e d a q name m m') (hnew : name ∉ L.names m parent)
    (hall : ∀ p, L.inUse m p = true → L.isDirectory m p = true → L.NamedOnce m p) {p : Nat}
    (hp' : L.inUse m' p = true) (hdir' : L.isDirectory m' p = true) : L.NamedOnce m' p := by
  have hpn : p ≠ n := fun heq => by
    rw [heq, h.not_directory] at hdir'
    cases hdir'
  have hp : L.inUse m p = true := by
    rwa [h.used, Function.update_of_ne hpn] at hp'
  rw [h.isDirectory_eq h.owned h.lands hp] at hdir'
  have hold := hall p hp hdir'
  obtain ⟨hlo, hhi, -⟩ := Layout.inUse_iff.mp hp
  have hword : L.word m' p 0 = L.word m p 0 :=
    h.load_kept hp (fun heq => by
      obtain ⟨rfl, rfl⟩ := Prod.mk.inj heq
      have hslot := h.slot
      cases hslot
      exact hold.first h.null) (show L.slotAt m (p, .direct 0) = _ from rfl)
  have hheld : L.held (L.inUse m) m (p, .direct 0) = some (L.word m p 0) :=
    Layout.held_eq_some_iff.mpr ⟨hp, _, rfl, rfl, hold.first⟩
  refine ⟨?_, ?_, ?_, ?_, ?_⟩
  · rw [← hold.size]
    exact load_congr fun j hj => h.inode_apply h.lands hp (by omega)
      (h.spot.outside_header (h.owned.backed h.lands.used) ⟨hlo, hhi⟩ (by omega))
  · rw [hword]
    exact hold.first
  · rw [hword]
    exact hold.inside
  · rw [hword, entryOffsets_congr fun y hy => h.block_kept (fun hq => by cases hq) hheld hy]
    exact hold.sound
  · by_cases hne : p = parent
    · rw [hne]
      refine h.names_parent.nodup_iff.mpr (List.nodup_cons.mpr ⟨hnew, ?_⟩)
      exact hne ▸ hold.unique
    · rw [h.names_other hp hne]
      exact hold.unique

end Hands

/-! ## Sequences of runs -/

/-- A successful run that spares the owners of blocks hands the block of the entry to a pointer. -/
theorem Command.SparesOwners.hands {x : Unit} (hc : c.SparesOwners L m)
    (h : Owned L (L.inUse m) m) (hrun : c.run m = .ok x m') :
    ∃ parent n e d a q name, Hands L c parent n e d a q name m m' := by
  have hfound : ∃ i, c.directory m = some i := by
    rw [run_ok] at hrun
    cases c with
    | mkdir path =>
      obtain ⟨run⟩ := mkdir_ok hrun
      exact ⟨_, run.directory_eq⟩
    | cp source file target =>
      obtain ⟨-, ⟨run⟩⟩ := cp_ok hrun
      exact ⟨_, run.directory_eq⟩
  obtain ⟨i, hi⟩ := hfound
  obtain ⟨parent, rfl, hused, hroom⟩ := hc.directory i hi
  obtain ⟨e, d, hpicks, hspare_e, hspare_d⟩ := hc.picks
  have hshort := hc.short
  have hlands : c.Lands L m parent e d := ⟨⟨hi, hused, hpicks, ⟨hspare_e.data, hspare_d.data⟩,
    hc.name, by omega⟩, .inl hroom⟩
  obtain ⟨n, a, name, hentered, -⟩ := hlands.entered h hrun
  cases hentered.spot with
  | boot hfull => exact absurd hroom hfull
  | pointer q hq ha hnull hfirst =>
    exact ⟨parent, n, e, d, a, q, name, hentered, h, hlands, ⟨hspare_e, hspare_d⟩, hq, ha, hnull,
      hfirst⟩

/-- A run that spares the owners of blocks keeps ownership exclusive. -/
theorem Command.SparesOwners.owned {x : Unit} (hc : c.SparesOwners L m)
    (h : Owned L (L.inUse m) m) (hrun : c.run m = .ok x m') : Owned L (L.inUse m') m' := by
  rw [run_ok] at hrun
  cases c with
  | mkdir path =>
    obtain ⟨run⟩ := mkdir_ok hrun
    exact h.mkdir run hc
  | cp source file target =>
    obtain ⟨-, ⟨run⟩⟩ := cp_ok hrun
    exact h.cp run hc

/-- The condition on a run of a sequence: it spares the owners of blocks, and the search tells the
names of its directory from the new one. -/
structure Command.KeepsApart (L : Layout) (c : Command) (m : Memory) : Prop where
  owners : c.SparesOwners L m
  directory : ∀ d : Nat, c.directory m = some (d : Int) → L.isDirectory m d = true
  tells : ∀ (d : Nat) (name : List UInt8), c.directory m = some (d : Int) →
    c.newName = some name → c.TellsApart L m d name

/-- A run that finds a directory without the name and without an entry that the search takes. -/
theorem Command.KeepsApart.of_directory {d : Nat} {name : List UInt8} (howners : c.SparesOwners L m)
    (hdirectory : c.directory m = some (d : Int)) (hdir : L.isDirectory m d = true)
    (hname : c.newName = some name) (hnew : name ∉ L.names m d)
    (hfree : ∀ o ∈ L.firstEntries m d, takes m (L.word m d 0) c.dirsOnly name o = false) :
    c.KeepsApart L m := by
  have hd : ∀ d' : Nat, c.directory m = some (d' : Int) → d' = d := fun d' hd' =>
    Int.ofNat.inj (Option.some.inj (hd'.symm.trans hdirectory))
  refine ⟨howners, fun d' hd' => hd d' hd' ▸ hdir, fun d' name' hd' hname' => ?_⟩
  obtain rfl := hd d' hd'
  obtain rfl := Option.some.inj (hname.symm.trans hname')
  exact ⟨fun _ => hfree, fun hmem => absurd hmem hnew⟩

/-- A report is right exactly where the search tells the names of the directory from the new one; it
ends the run with a refusal, and where nothing else stands in the way of the run, a refusal is a
report. Where the search tells the names apart in every run of a sequence, no directory has two live
entries with the same name. -/
theorem reports_and_names (h : L.Holds m)
    (hall : ∀ d, L.inUse m d = true → L.isDirectory m d = true → L.NamedOnce m d) :
    (∀ (c : Command) (d : Nat) (name : List UInt8), c.directory m = some (d : Int) →
      L.inUse m d = true → L.isDirectory m d = true → c.newName = some name → c.Opens →
        ((c.Reports m ↔ name ∈ L.names m d) ↔ c.TellsApart L m d name) ∧
          (c.Reports m → c.main m = c.refusal m) ∧
            (c.Supplied m → c.main m = c.refusal m → c.Reports m)) ∧
      ∀ cs m', L.ExclusiveBlocks m → (∀ b ∈ L.metadata, L.marked m b = true) →
        Guarded Command.run (fun c => c.KeepsApart L) cs m m' →
          ∀ d, L.inUse m' d = true → L.isDirectory m' d = true → (L.names m' d).Nodup := by
  refine ⟨fun c d name hdir hused hisdir hname hopens => ?_,
    fun cs m' howners hreserved hruns => ?_⟩
  · obtain ⟨hlo, hhi, -⟩ := Layout.inUse_iff.mp hused
    have hd := hall d hused hisdir
    refine ⟨c.reports_right_iff h ⟨hlo, hhi⟩ hd hdir hname hopens, fun hreports =>
      hreports.main_eq, fun hsupplied hrefused => ?_⟩
    rcases c.reports_or_proceeds h ⟨hlo, hhi⟩ hd hdir hname hopens with hreports | hproceeds
    · exact hreports
    · exact absurd hrefused (hproceeds.main_ne hsupplied)
  · have hstart : Owned L (L.inUse m) m := ⟨h, hreserved, fun n hn => by
      obtain ⟨hlo, hhi, -⟩ := Layout.inUse_iff.mp hn
      exact ⟨hlo, hhi⟩, howners⟩
    have hstep : ∀ (c : Command) (s t : Memory), c.KeepsApart L s → c.run s = .ok () t →
        (Owned L (L.inUse s) s ∧
          ∀ d, L.inUse s d = true → L.isDirectory s d = true → L.NamedOnce s d) →
        Owned L (L.inUse t) t ∧
          ∀ d, L.inUse t d = true → L.isDirectory t d = true → L.NamedOnce t d := by
      rintro c s t hc hrun ⟨howned, hnamed⟩
      refine ⟨hc.owners.owned howned hrun, fun d hd hdir => ?_⟩
      obtain ⟨parent, n, e, d', a, q, name, hands⟩ := hc.owners.hands howned hrun
      have hparent := hands.lands.directory
      have htells := hc.tells parent name hparent hands.named
      -- A successful run has not reported the name, so that it is new.
      have hnew : name ∉ L.names s parent := fun hmem =>
        c.not_reports_of_run hrun ((c.reports_right_iff howned.holds
          (howned.numbered _ hands.lands.used) (hnamed parent hands.lands.used
            (hc.directory parent hparent)) hparent hands.named
              (Command.proceeds_of_run hrun).opens).mpr htells |>.mpr hmem)
      exact hands.namedOnce hnew hnamed hd hdir
    exact fun d hd hdir => ((hruns.induction hstep ⟨hstart, hall⟩).2 d hd hdir).unique

/-! ## A directory in the sample image -/

/-- The names in the two directories of the sample image. -/
theorem names_sample (lost : Bool) :
    sampleLayout.names (sample lost) 2 = [[0x2e], [0x2e, 0x2e], [0x61]] ∧
      sampleLayout.names (sample lost) 11 = [[0x2e], [0x2e, 0x2e]] := by
  cases lost <;> decide +kernel

theorem namedOnce_sample (lost : Bool) {d : Nat} (hused : sampleLayout.inUse (sample lost) d = true)
    (hdir : sampleLayout.isDirectory (sample lost) d = true) :
    sampleLayout.NamedOnce (sample lost) d := by
  obtain ⟨hroot, ha⟩ := names_sample lost
  rcases directories_sample lost hused hdir with rfl | rfl
  · refine ⟨?_, ?_, ?_, ?_, by rw [hroot]; decide⟩
    all_goals cases lost <;> decide +kernel
  · refine ⟨?_, ?_, ?_, ?_, by rw [ha]; decide⟩
    all_goals cases lost <;> decide +kernel

/-- Making `/a/b` and then `/a/c` in the image with a lost block meets the condition, and gives no
name twice. -/
theorem reports_and_names_sample : ∃ m', Guarded Command.run (fun c => c.KeepsApart sampleLayout)
    [.mkdir abPath, .mkdir acPath] (sample true) m' ∧ ∀ d, sampleLayout.inUse m' d = true →
      sampleLayout.isDirectory m' d = true → (sampleLayout.names m' d).Nodup := by
  obtain ⟨_, m', hrun, -⟩ := exists_of_holds
    (show holds ((Command.mkdir acPath).run sampleWith) (fun _ _ => true) = true by decide +kernel)
  have hfirst : (Command.mkdir abPath).KeepsApart sampleLayout (sample true) :=
    .of_directory sparesOwners_sample (d := 11) (by decide +kernel) (by decide +kernel)
      (show (Command.mkdir abPath).newName = some [0x62] by decide)
      (by rw [(names_sample true).2]; decide) (by decide +kernel)
  have hsecond : (Command.mkdir acPath).KeepsApart sampleLayout sampleWith :=
    .of_directory sparesOwners_sampleWith (d := 11) (by decide +kernel) (by decide +kernel)
      (show (Command.mkdir acPath).newName = some [0x63] by decide) (by decide +kernel)
      (by decide +kernel)
  have hguarded : Guarded Command.run (fun c => c.KeepsApart sampleLayout)
      [.mkdir abPath, .mkdir acPath] (sample true) m' :=
    .cons hfirst run_sample (.cons hsecond hrun .nil)
  have hconsistent := consistent_sample true
  exact ⟨m', hguarded, (reports_and_names hconsistent.holds
    fun d => namedOnce_sample true).2 _ _ hconsistent.owners hconsistent.reserved hguarded⟩

/-- The path `/ab`. -/
def abNamePath : CString := ⟨[0x2f, 0x61, 0x62], by decide⟩

/-- Where the root has the directory `a`, copying the file `/ab` there is refused although that name
is new and nothing else stands in the way. -/
theorem reports_prefix : Consistent sampleLayout (sample false) ∧
    (∀ d, sampleLayout.inUse (sample false) d = true →
      sampleLayout.isDirectory (sample false) d = true → sampleLayout.NamedOnce (sample false) d) ∧
    (Command.cp abNamePath (some []) rootPath).directory (sample false) = some ((2 : Nat) : Int) ∧
    (Command.cp abNamePath (some []) rootPath).newName = some [0x61, 0x62] ∧
    (Command.cp abNamePath (some []) rootPath).Supplied (sample false) ∧
    (Command.cp abNamePath (some []) rootPath).Reports (sample false) ∧
    (Command.cp abNamePath (some []) rootPath).main (sample false) =
      .error (.exit 1) (sample false) ∧
    [0x61, 0x62] ∉ sampleLayout.names (sample false) 2 := by
  have hdirectory : (Command.cp abNamePath (some []) rootPath).directory (sample false) =
      some ((2 : Nat) : Int) := by
    decide +kernel
  have hname : (Command.cp abNamePath (some []) rootPath).newName = some [0x61, 0x62] := by
    decide
  have hreports : (Command.cp abNamePath (some []) rootPath).Reports (sample false) := by
    refine (Command.reports_iff (consistent_sample false).holds ⟨by decide, by decide⟩
      (namedOnce_sample false (by decide +kernel) (by decide +kernel)) hdirectory hname
      (Option.some_ne_none _)).mpr ⟨24, ?_, ?_⟩
    · decide +kernel
    · decide +kernel
  refine ⟨consistent_sample false, fun d => namedOnce_sample false, hdirectory, hname,
    ⟨by decide +kernel, by decide⟩, hreports, hreports.main_eq, ?_⟩
  rw [(names_sample false).1]
  decide

end OsAssignments.Ext2
