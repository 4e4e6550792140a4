import OsAssignments.Ext2.Copy
import OsAssignments.Ext2.Release

/-!
# Removing a copied file

`ext2_cp` never sets the link count of the inode that it takes, and a removal counts down from
0 to 65535. The inode is not released.
-/

namespace OsAssignments.Ext2

open Memory Program

variable {L : Layout} {m m₁ m₂ m' : Memory}

/-! ## Giving back -/

/-- The search of a removal ends at an entry that names inode `n`. -/
def LeadsTo (path : CString) (m : Memory) (n : Nat) : Prop :=
  ∃ p : Nat, findFile path m = .ok p m ∧ m.load p 4 = n

/-- What should hold when the file of inode `n`, copied between `m` and `m₁`, has been removed
in `m₂`. -/
structure GivenBack (L : Layout) (n : Nat) (m m₁ m₂ : Memory) : Prop where
  used : L.inUse m₂ = L.inUse m
  superFreeInodes : m₂.load 1040 4 = m.load 1040 4
  groupFreeInodes : m₂.load 2062 2 = m.load 2062 2
  data : ∀ b ∈ L.fileBlocks m₁ n, b ≠ 0 → L.marked m₂ b = false

/-- A removal of a file whose link count is 0 stores the count and one field more. -/
theorem unlinkEntry_zero {n p : Nat} {x : Unit} (hm : L.Holds m) (hn : 1 ≤ n ∧ n ≤ L.inodes)
    (hentry : m.load p 4 = n) (hlinks : m.load (L.inodeAt n + 26) 2 = 0)
    (h : unlinkEntry p m = .ok x m') :
    ∃ r v, m' = (m.store (L.inodeAt n + 26) 2 65535).store r 2 v := by
  obtain ⟨p', u, hp, hdrop, hgrow⟩ := unlinkEntry_ok h
  obtain rfl := Int.ofNat.inj hp
  have hinodes := L.inodes_le
  rw [hentry, toInt_of_lt (by omega)] at hdrop
  have hwithout : withoutLink m (L.inodeAt n + 26) = m.store (L.inodeAt n + 26) 2 65535 := by
    rw [withoutLink, hlinks]
    rfl
  rcases (dropLink_iff hm hn).mp hdrop with ⟨-, rfl⟩ | ⟨hone, -⟩
  · obtain ⟨r, -, -, rfl⟩ := growPrevious_ok hgrow
    rw [hwithout]
    exact ⟨r, _, rfl⟩
  · omega

/-- A copy that spares the metadata, followed by a removal of the file copied, does not give the
inode back. -/
theorem not_givenBack {source target path : CString} {file : List UInt8} {n : Nat} {r : Int}
    (h : Consistent L m) (hc : (Command.cp source (some file) target).SparesMetadata L m)
    (hcp : cp source (some file) target m = .ok 0 m₁) (hnew : L.inUse m n = false)
    (hused : L.inUse m₁ n = true) (hpath : LeadsTo path m₁ n) (hrm : rm path m₁ = .ok r m₂) :
    ¬ GivenBack L n m m₁ m₂ := by
  intro hback
  obtain ⟨-, ⟨run⟩⟩ := cp_ok hcp
  have hfile : run.contents = file := (Option.some.inj run.opened).symm
  obtain ⟨e, d, -, hlo, hhi, -, heffect⟩ := run.effect h.holds hc.toClear
    (fun _ hn => hc.toClear.backed h.owned hn) fun hlen => by
    rw [hfile] at hlen
    exact hc.ahead (by simp only [Command.contents, Option.getD_some]; omega)
  obtain rfl := heffect.eq_of_new hnew hused
  obtain ⟨p, hfind, hentry⟩ := hpath
  obtain ⟨-, entry, hfind', hunlink⟩ := rm_ok.mp hrm
  rw [hfind] at hfind'
  cases hfind'
  have hlinks := heffect.header 26 2 (by decide) (by decide)
  obtain ⟨r, v, rfl⟩ := unlinkEntry_zero heffect.holds ⟨hlo, hhi⟩ hentry hlinks hunlink
  -- The two counters of the copy stand; the field that is stored last overlaps at most one.
  obtain ⟨c, x, hsame, hcount⟩ := heffect.counted
  obtain ⟨-, hsuper, -, hgroup⟩ := countOne_counts hcount
  have hsuper' : c.load 1040 4 = m.load 1040 4 := load_congr fun i hi => hsame _ (by omega)
  have hgroup' : c.load 2062 2 = m.load 2062 2 := load_congr fun i hi => hsame _ (by omega)
  have hfar := L.inode_apart ⟨hlo, hhi⟩ (y := L.inodeAt (run.index + 1)) (by omega)
  have hfirst := hback.superFreeInodes
  have hsecond := hback.groupFreeInodes
  have h32 := m.load_lt 1040 4
  have h16 := m.load_lt 2062 2
  by_cases hr : r + 2 ≤ 1040 ∨ 1044 ≤ r
  · rw [load_store_of_disjoint (by omega), load_store_of_disjoint (by omega)] at hfirst
    omega
  · rw [load_store_of_disjoint (by omega), load_store_of_disjoint (by omega)] at hsecond
    omega

/-- Copying `f` into `/a` and removing `/a/f` does not give inode 12 back. -/
theorem not_givenBack_sample : ∃ m₁ m₂, cp fPath (some [1]) aPath (sample true) = .ok 0 m₁ ∧
    rm afPath m₁ = .ok 0 m₂ ∧ ¬ GivenBack sampleLayout 12 (sample true) m₁ m₂ := by
  obtain ⟨status, m₁, hcp, hq⟩ := exists_of_holds
    (show holds (cp fPath (some [1]) aPath (sample true)) (fun status m₁ =>
      status = 0 && sampleLayout.inUse m₁ 12 && holds (findFile afPath m₁) (fun p m' =>
        p = 9216 && m'.load 9216 4 = 12) && holds (rm afPath m₁) (fun _ _ => true)) = true by
      decide +kernel)
  simp only [Bool.and_eq_true, decide_eq_true_iff] at hq
  obtain ⟨⟨⟨rfl, hused⟩, hfind⟩, hrm⟩ := hq
  obtain ⟨p, m', hfind, hp⟩ := exists_of_holds hfind
  obtain rfl : m₁ = m' := (readOnly_findFile afPath).of_ok hfind
  simp only [Bool.and_eq_true, decide_eq_true_iff] at hp
  obtain ⟨rfl, hentry⟩ := hp
  obtain ⟨r, m₂, hrm, -⟩ := exists_of_holds hrm
  obtain ⟨rfl, -⟩ := rm_ok.mp hrm
  have hleads : LeadsTo afPath m₁ 12 := ⟨9216, hfind, hentry⟩
  exact ⟨m₁, m₂, hcp, hrm, not_givenBack (consistent_sample true) sparesMetadata_copy hcp
    (by decide +kernel) hused hleads hrm⟩

/-- In the image without lost blocks the free inodes are one less afterwards. -/
theorem not_givenBack_counters : Consistent sampleLayout (sample false) ∧
    ∃ m₁ m₂, cp fPath (some [1]) aPath (sample false) = .ok 0 m₁ ∧ rm afPath m₁ = .ok 0 m₂ ∧
      ¬ GivenBack sampleLayout 12 (sample false) m₁ m₂ := by
  refine ⟨consistent_sample false, ?_⟩
  obtain ⟨status, m₁, hcp, hq⟩ := exists_of_holds
    (show holds (cp fPath (some [1]) aPath (sample false)) (fun status m₁ =>
      status = 0 && holds (rm afPath m₁) (fun r m₂ => r = 0 && m₂.load 1040 4 = 4)) = true by
      decide +kernel)
  simp only [Bool.and_eq_true, decide_eq_true_iff] at hq
  obtain ⟨rfl, hrm⟩ := hq
  obtain ⟨r, m₂, hrm, hr⟩ := exists_of_holds hrm
  simp only [Bool.and_eq_true, decide_eq_true_iff] at hr
  obtain ⟨rfl, hcount⟩ := hr
  refine ⟨m₁, m₂, hcp, hrm, fun hback => ?_⟩
  have hbefore : (sample false).load 1040 4 = 5 := by decide +kernel
  have hsame := hback.superFreeInodes
  omega

end OsAssignments.Ext2
