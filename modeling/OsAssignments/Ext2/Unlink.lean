import OsAssignments.Ext2.Removal
import OsAssignments.Ext2.Runs

/-!
# What a removal stores

The search reads only. After it, the link count of the inode goes down by one, an inode without
links is released, and the length of the entry is added to a field that lies one entry length
before it, whatever is there.
-/

namespace OsAssignments.Ext2

open Program

variable {m m' : Memory}

/-! ## The search -/

theorem readOnly_sameString (a : Int) (s : List UInt8) : ReadOnly (sameString a s) := by
  induction s generalizing a with
  | nil => exact .bind (readOnly_read _ _) fun _ => .pure _
  | cons b s ih => exact .bind (readOnly_read _ _) fun _ => .ite (.pure _) (ih _)

theorem readOnly_scanEntries (origin : Int) (name : List UInt8) (fType rounds : Nat)
    (current : Int) : ReadOnly (scanEntries origin name fType rounds current) := by
  induction rounds generalizing current with
  | zero => exact .stop _
  | succ rounds ih =>
    have hnext := ReadOnly.bind (readOnly_read (entryRecLen current) 2) fun recLen =>
      ih (current + recLen)
    exact .ite (.pure _) (.bind (readOnly_read _ _) fun _ => .ite
      (.bind (readOnly_sameString _ _) fun _ => .ite (.pure _) hnext) hnext)

theorem readOnly_checkInodeBlock (block : Int) (name : List UInt8) (fType : Nat) :
    ReadOnly (checkInodeBlock block name fType) :=
  .bind (readOnly_read _ _) fun _ => .ite (.pure _) (readOnly_scanEntries _ _ _ _ _)

theorem readOnly_findAmong (name : List UInt8) (dirInode : Int) (fType rounds i : Nat) :
    ReadOnly (findAmong name dirInode fType rounds i) := by
  induction rounds generalizing i with
  | zero => exact .pure _
  | succ rounds ih =>
    refine .bind (readOnly_read _ _) fun _ => .bind (readOnly_checkInodeBlock _ _ _) fun found => ?_
    cases found with
    | none => exact ih _
    | some entry => exact .pure _

theorem readOnly_followDirs (rounds : Nat) (nDir : Option (List UInt8)) (inode : Int)
    (entry : Option Int) : ReadOnly (followDirs rounds nDir inode entry) := by
  induction rounds generalizing nDir inode entry with
  | zero => exact .stop _
  | succ rounds ih =>
    cases nDir with
    | none => exact .pure _
    | some nDir =>
      refine .bind (.require _ _) fun name => ?_
      cases name with
      | none => exact .bind (.require _ _) fun _ => ih _ _ _
      | some name =>
        exact .bind (readOnly_findAmong _ _ _ _ _) fun _ => .bind (.require _ _) fun _ =>
          .bind (readOnly_read _ _) fun _ => .bind (readOnly_getInode _) fun _ =>
            .bind (.require _ _) fun _ => ih _ _ _

theorem readOnly_findDirInode (directory : CString) : ReadOnly (findDirInode directory) :=
  .bind (readOnly_getInode _) fun _ => .bind (.require _ _) fun _ => readOnly_followDirs _ _ _ _

theorem readOnly_findFile (directory : CString) : ReadOnly (findFile directory) :=
  .bind (readOnly_findDirInode _) fun _ => .bind (.require _ _) fun _ =>
    .bind (readOnly_read _ _) fun _ => .bind (readOnly_getInode _) fun _ =>
      .bind (readOnly_findAmong _ _ _ _ _) fun _ => .require _ _

/-- The entry of the last directory has been read. -/
theorem followDirs_mapped {rounds : Nat} {nDir : Option (List UInt8)} {inode a : Int}
    {entry : Option Int} (hentry : ∀ x ∈ entry, ∃ p : Nat, x = p ∧ p + 4 ≤ 131072)
    (h : followDirs rounds nDir inode entry m = .ok (some a) m') :
    ∃ p : Nat, a = p ∧ p + 4 ≤ 131072 := by
  induction rounds generalizing nDir inode entry m with
  | zero => cases h
  | succ rounds ih =>
    cases nDir with
    | none =>
      cases h
      exact hentry a rfl
    | some nDir =>
      rw [followDirs] at h
      obtain ⟨name, u, -, h⟩ := bind_ok.mp h
      cases name with
      | none =>
        obtain ⟨rest, v, -, h⟩ := bind_ok.mp h
        exact ih hentry h
      | some name =>
        obtain ⟨_, u₁, -, h⟩ := bind_ok.mp h
        obtain ⟨found, u₂, -, h⟩ := bind_ok.mp h
        obtain ⟨number, u₃, hread, h⟩ := bind_ok.mp h
        obtain ⟨p, hp, hin, -, -⟩ := read_ok.mp hread
        obtain ⟨next, u₄, -, h⟩ := bind_ok.mp h
        obtain ⟨rest, u₅, -, h⟩ := bind_ok.mp h
        refine ih (fun x hx => ?_) h
        obtain rfl := Option.some.inj hx
        exact ⟨p, hp, hin⟩

theorem findDirInode_mapped {directory : CString} {a : Int}
    (h : findDirInode directory m = .ok (some a) m') : ∃ p : Nat, a = p ∧ p + 4 ≤ 131072 := by
  obtain ⟨root, u, -, h⟩ := bind_ok.mp h
  obtain ⟨nDir, v, -, h⟩ := bind_ok.mp h
  exact followDirs_mapped (fun x hx => by cases hx) h

/-- A successful removal is a search and a change. -/
theorem rm_ok {path : CString} {r : Int} : rm path m = .ok r m' ↔
    r = 0 ∧ ∃ entry, findFile path m = .ok entry m ∧ unlinkEntry entry m = .ok () m' := by
  rw [rm, deleteFileInode, bind_ok]
  constructor
  · rintro ⟨_, u, h, hreturn⟩
    cases hreturn
    obtain ⟨entry, v, hfind, hunlink⟩ := bind_ok.mp h
    obtain rfl : m = v := (readOnly_findFile path).of_ok hfind
    exact ⟨rfl, entry, hfind, hunlink⟩
  · rintro ⟨rfl, entry, hfind, hunlink⟩
    exact ⟨(), m', bind_ok.mpr ⟨entry, m, hfind, hunlink⟩, rfl⟩

/-! ## The change -/

/-- The address of the link count of an inode. -/
def linksAt (m : Memory) (number : Int) : Int := inodeTableAt m + 128 * (number - 1) + 26

/-- Memory after one link less has been counted in the field at `q`. -/
def withoutLink (m : Memory) (q : Nat) : Memory :=
  m.store q 2 ((m.load q 2 + (-1 : Int)) % 65536).toNat

/-- Memory after `k` has been added to the length in the field at `g`. -/
def lengthen (m : Memory) (g k : Nat) : Memory := m.store g 2 ((m.load g 2 + k) % 65536)

theorem growPrevious_ok {p : Nat} {x : Unit} (h : growPrevious p m = .ok x m') :
    ∃ r : Nat, (r : Int) = p - m.load (p + 4) 2 + 4 ∧ r + 2 ≤ 131072 ∧
      m' = m.store r 2 ((m.load r 2 + m.load (p + 4) 2) % 65536) := by
  rw [growPrevious] at h
  obtain ⟨recLen, u, hread, h⟩ := bind_ok.mp h
  obtain ⟨q, hq, -, rfl, rfl⟩ := read_ok.mp hread
  obtain ⟨r, hr, hbound, rfl⟩ := add_ok.mp h
  simp only [entryRecLen] at hq hr
  obtain rfl : q = p + 4 := by omega
  refine ⟨r, hr.symm, hbound, ?_⟩
  rw [← Int.natCast_add, show (256 : Int) ^ 2 = (65536 : Nat) from rfl, ← Int.natCast_emod,
    Int.toNat_natCast]

/-- What a removal of an entry does. -/
theorem unlinkEntry_ok {entry : Int} {x : Unit} (h : unlinkEntry entry m = .ok x m') :
    ∃ (p : Nat) (u : Memory), entry = p ∧ dropLink (toInt (m.load p 4)) m = .ok () u ∧
      growPrevious p u = .ok () m' := by
  rw [unlinkEntry] at h
  obtain ⟨number, u₁, hnumber, h⟩ := bind_ok.mp h
  obtain ⟨p, rfl, -, rfl, rfl⟩ := read_ok.mp hnumber
  obtain ⟨_, u, hdrop, hgrow⟩ := bind_ok.mp h
  exact ⟨p, u, rfl, hdrop, hgrow⟩

/-- The field that a removal enlarges, where the length of the entry survives the first part. -/
theorem unlinkEntry_iff {p g : Nat} (hp : p + 8 ≤ 131072) (hg : g + m.load (p + 4) 2 = p + 4)
    (hkeep : ∀ u, dropLink (toInt (m.load p 4)) m = .ok () u →
      u.load (p + 4) 2 = m.load (p + 4) 2) : unlinkEntry p m = .ok () m' ↔
      ∃ u, dropLink (toInt (m.load p 4)) m = .ok () u ∧ m' = lengthen u g (m.load (p + 4) 2) := by
  constructor
  · intro h
    obtain ⟨p', u, hpp, hdrop, hgrow⟩ := unlinkEntry_ok h
    obtain rfl := Int.ofNat.inj hpp
    obtain ⟨r, hr, -, rfl⟩ := growPrevious_ok hgrow
    rw [hkeep u hdrop] at hr ⊢
    obtain rfl : r = g := by omega
    exact ⟨u, hdrop, rfl⟩
  · rintro ⟨u, hdrop, rfl⟩
    rw [unlinkEntry, bind_of_ok (read_apply (entryInode p) (p := p) rfl (by omega) m),
      bind_of_ok hdrop, growPrevious, bind_of_ok (read_apply (entryRecLen p) (p := p + 4)
      (by simp only [entryRecLen]; omega) (by omega) u), hkeep u hdrop]
    refine (add_apply _ (p := g) ?_ (by omega) _ u).trans ?_
    · simp only [entryRecLen]
      omega
    · rw [lengthen, ← Int.natCast_add, show (256 : Int) ^ 2 = (65536 : Nat) from rfl,
        ← Int.natCast_emod, Int.toNat_natCast]

end OsAssignments.Ext2
