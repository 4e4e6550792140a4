import OsAssignments.Ext2.Frame

/-!
# What `ext2_cp` stores

`ext2_cp` copies data into a block but never sets `i_size`. The new inode keeps the size 0 that
`find_free_inode` leaves, so that only the empty file is stored.
-/

namespace OsAssignments.Ext2

open Memory Program

variable {L : Layout} {m m' : Memory}

/-- The condition under which a run leaves the bitmaps and other inodes sound: neither picked
block is metadata, and a file so long that pointers are stored past those of the inode finds
no bitmap behind the inode table. -/
structure Command.SparesMetadata (L : Layout) (c : Command) (m : Memory) : Prop
    extends c.Clear L m where
  ahead : 27 * 1024 ≤ c.contents.length →
    L.blockBitmap < L.inodeTable ∧ L.inodeBitmap < L.inodeTable

/-- Inode `n` has the length of the file as its size, and its blocks read as the file. -/
def Layout.Stored (L : Layout) (m : Memory) (n : Nat) (file : List UInt8) : Prop :=
  m.load (L.inodeAt n + 4) 4 = file.length ∧ L.contents m n = file

/-- The only inode that comes into use is the one whose bit the run sets. -/
theorem CpEffect.eq_of_new {n n' e : Nat} (h : CpEffect L n e m m') (hnew : L.inUse m n' = false)
    (hused : L.inUse m' n' = true) : n' = n := by
  by_contra hne
  rw [h.used, Function.update_of_ne hne, hnew] at hused
  cases hused

/-- A successful run that spares the metadata stores the file in the inode that comes into use
exactly when the file is empty. -/
theorem stored_iff {source target : CString} {file : List UInt8} {n : Nat} (h : Consistent L m)
    (hc : (Command.cp source (some file) target).SparesMetadata L m)
    (hrun : cp source (some file) target m = .ok 0 m') (hnew : L.inUse m n = false)
    (hused : L.inUse m' n = true) : L.Stored m' n file ↔ file = [] := by
  obtain ⟨-, ⟨run⟩⟩ := cp_ok hrun
  have hfile : run.contents = file := (Option.some.inj run.opened).symm
  obtain ⟨e, d, -, -, -, -, heffect⟩ := run.effect h.holds hc.toClear
    (fun _ hn => hc.toClear.backed h.owned hn) fun hlen => by
    rw [hfile] at hlen
    exact hc.ahead (by simp only [Command.contents, Option.getD_some]; omega)
  obtain rfl := heffect.eq_of_new hnew hused
  have hsize := heffect.header 4 4 (by decide) (by decide)
  constructor
  · rintro ⟨hlen, -⟩
    exact List.length_eq_zero_iff.mp (hlen.symm.trans hsize)
  · rintro rfl
    refine ⟨hsize, ?_⟩
    rw [Layout.contents, hsize, List.take_zero]

/-- A run that finds a directory with room and picks blocks of data, for a file without pointers
past those of the inode. -/
theorem Command.SparesMetadata.of_short {c : Command} {n e d : Nat} {k : Int}
    (hdirectory : c.directory m = some (n : Int)) (hused : L.inUse m n = true)
    (hroom : L.HasRoom m n) (hpicks : L.picks m = some (e, d))
    (hdata : e ∉ L.metadata ∧ d ∉ L.metadata) (hname : c.nameLength = some k) (hk : k ≤ 255)
    (hshort : c.contents.length < 27 * 1024) : c.SparesMetadata L m where
  directory := fun d' hd' => ⟨n, Option.some.inj (hd'.symm.trans hdirectory), hused, hroom⟩
  picks := ⟨e, d, hpicks, hdata.1, hdata.2⟩
  name := by
    intro k' hk'
    obtain rfl := Option.some.inj (hk'.symm.trans hname)
    exact hk
  ahead := fun hlong => by omega

theorem sparesMetadata_sample (file : List UInt8) (hfile : file.length ≤ 1) :
    (Command.cp fPath (some file) rootPath).SparesMetadata sampleLayout (sample true) :=
  .of_short (n := 2) (show (Command.cp fPath (some []) rootPath).directory (sample true) = _ by
    decide +kernel) (by decide +kernel) (.inl ⟨1, by decide +kernel⟩) (e := 9) (d := 10)
    (by decide +kernel) (by decide) (k := 1)
    (show (Command.cp fPath (some []) rootPath).nameLength = _ by decide) (by decide) (by
      simp only [Command.contents, Option.getD_some]
      omega)

/-- Copying one byte into the directory `a`. -/
theorem sparesMetadata_copy :
    (Command.cp fPath (some [1]) aPath).SparesMetadata sampleLayout (sample true) :=
  .of_short (n := 11) (by decide +kernel) (by decide +kernel) (.inl ⟨1, by decide +kernel⟩) (e := 9)
    (d := 10) (by decide +kernel) (by decide) (k := 1) (by decide) (by decide) (by decide)

/-- Copying the empty file to the root of the sample image stores it. -/
theorem stored_sample : ∃ m', cp fPath (some []) rootPath (sample true) = .ok 0 m' ∧
    sampleLayout.Stored m' 12 [] := by
  obtain ⟨status, m', hrun, hq⟩ := exists_of_holds
    (show holds (cp fPath (some []) rootPath (sample true)) (fun status m' =>
      status = 0 && sampleLayout.inUse m' 12) = true by decide +kernel)
  rw [Bool.and_eq_true, decide_eq_true_iff] at hq
  obtain ⟨rfl, hused⟩ := hq
  exact ⟨m', hrun, (stored_iff (consistent_sample true) (sparesMetadata_sample [] (by decide)) hrun
    (by decide +kernel) hused).mpr rfl⟩

/-- Copying one byte to the root of the sample image does not store it: the size stays 0. -/
theorem not_stored : Consistent sampleLayout (sample false) ∧
    ∃ m', cp fPath (some [1]) rootPath (sample false) = .ok 0 m' ∧
      sampleLayout.inUse (sample false) 12 = false ∧ sampleLayout.inUse m' 12 = true ∧
      ¬ sampleLayout.Stored m' 12 [1] := by
  refine ⟨consistent_sample false, ?_⟩
  obtain ⟨status, m', hrun, hq⟩ := exists_of_holds
    (show holds (cp fPath (some [1]) rootPath (sample false)) (fun status m' =>
      status = 0 && sampleLayout.inUse m' 12 && m'.load (sampleLayout.inodeAt 12 + 4) 4 = 0) =
        true by decide +kernel)
  rw [Bool.and_eq_true, Bool.and_eq_true, decide_eq_true_iff, decide_eq_true_iff] at hq
  obtain ⟨⟨rfl, hused⟩, hsize⟩ := hq
  refine ⟨m', hrun, by decide +kernel, hused, fun hstored => ?_⟩
  have hone := hsize.symm.trans hstored.1
  cases hone

end OsAssignments.Ext2
