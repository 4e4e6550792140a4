import OsAssignments.Ext2.Lookup

/-!
# The search in one block

`check_inode_block` compares C strings. It reads the name of an entry beyond its `name_len`
bytes up to a difference from the name or its NUL, and whether the entry is live only matters
for the first one. The search finds the first live entry with the type and the name where
nothing disturbs it: no other entry of the type before it agrees with the name as a C string,
and a NUL follows its own name.
-/

namespace OsAssignments.Ext2

open Memory Program

variable {m : Memory} {b fileType : Nat} {name : List UInt8}

/-! ## What the search is for -/

/-- Whether the entry at `p` is live and has the type and the name. -/
def isLiveNamed (m : Memory) (fileType : Nat) (name : List UInt8) (p : Nat) : Bool :=
  m.load p 4 ≠ 0 && (m.load (p + 7) 1 = fileType && entryNameAt m p = name)

/-- `check_inode_block` returns the first live entry of the block with the type and the name, or
NULL if there is none. -/
def FindsEntry (m : Memory) (b fileType : Nat) (name : List UInt8) : Prop :=
  checkInodeBlock b name fileType m =
    .ok (((blockEntries m b).find? (isLiveNamed m fileType name)).map Int.ofNat) m

/-! ## What disturbs it -/

/-- A NUL follows the name of the entry at `p`, as long as the given one, in the mapping. -/
def Ended (m : Memory) (name : List UInt8) (p : Nat) : Prop :=
  p + 8 + name.length < 131072 ∧ m (p + 8 + name.length) = 0

instance (p : Nat) : Decidable (Ended m name p) := inferInstanceAs (Decidable (_ ∧ _))

/-- Nothing disturbs the search: the entries before the one that is looked for let it pass, and
that one ends in a NUL. A block whose first entry is deleted is not searched. -/
def Undisturbed (m : Memory) (b fileType : Nat) (name : List UInt8) : Prop :=
  if m.load (b * 1024) 4 = 0 then ∀ p ∈ blockEntries m b, ¬ isLiveNamed m fileType name p = true
  else
    (∀ p ∈ (blockEntries m b).takeWhile fun p => !isLiveNamed m fileType name p,
      Passes m 131072 fileType name p) ∧
    ∀ p ∈ (blockEntries m b).find? (isLiveNamed m fileType name), Ended m name p

/-- The loop finds the entry that is looked for when the ones before it pass and it is ended. -/
theorem finds_iff {ps : List Nat} (hnodup : ps.Nodup) :
    Finds m fileType name ps (ps.find? (isLiveNamed m fileType name)) ↔
      (∀ p ∈ ps.takeWhile fun p => !isLiveNamed m fileType name p,
        Passes m 131072 fileType name p) ∧
        ∀ p ∈ ps.find? (isLiveNamed m fileType name), Ended m name p := by
  induction ps with
  | nil =>
    exact iff_of_true rfl ⟨List.forall_mem_nil _, fun p hp => absurd hp (Option.not_mem_none p)⟩
  | cons p ps ih =>
    obtain ⟨hp, hnodup⟩ := List.nodup_cons.mp hnodup
    have hrest := ih hnodup
    rw [Finds]
    cases hlive : isLiveNamed m fileType name p with
    | true =>
      have hnamed := hlive
      simp only [isLiveNamed, Bool.and_eq_true, decide_eq_true_iff] at hnamed
      obtain ⟨-, htype, hname⟩ := hnamed
      have hbytes : m.bytes (p + 8) name.length = name := by
        have hlen := congrArg List.length hname
        rw [entryNameAt, length_bytes] at hlen
        rw [← hlen]
        exact hname
      rw [List.find?_cons_of_pos hlive, List.takeWhile_cons_of_neg (by rw [hlive]; decide)]
      constructor
      · rintro (⟨-, ⟨hin, -, hzero⟩, -⟩ | ⟨-, h⟩)
        · refine ⟨List.forall_mem_nil _, fun q hq => ?_⟩
          obtain rfl := Option.some.inj hq
          exact ⟨hin, hzero⟩
        · exact absurd h.mem hp
      · rintro ⟨-, hended⟩
        obtain ⟨hin, hzero⟩ := hended p rfl
        exact .inl ⟨htype, ⟨hin, hbytes, hzero⟩, rfl⟩
    | false =>
      have hnot : ¬ isLiveNamed m fileType name p = true := by
        rw [hlive]
        exact Bool.false_ne_true
      rw [List.find?_cons_of_neg hnot, List.takeWhile_cons_of_pos (by rw [hlive]; rfl),
        List.forall_mem_cons, and_assoc, ← hrest]
      constructor
      · rintro (⟨-, -, hfound⟩ | h)
        · exact absurd (List.mem_of_find?_eq_some hfound) hp
        · exact h
      · exact .inr

/-! ## The search -/

/-- The entries of a block lie in the order of its chain. -/
theorem sorted_of_chain {rounds offset : Nat} {offsets : List Nat}
    (h : chain m b rounds offset = some offsets) :
    (∀ o ∈ offsets, offset ≤ o) ∧ offsets.Pairwise (· < ·) := by
  induction rounds generalizing offset offsets with
  | zero => cases h
  | succ rounds ih =>
    rcases chain_succ h with ⟨rfl, rfl⟩ | ⟨-, hentry, rest, hrest, rfl⟩
    · exact ⟨List.forall_mem_nil _, .nil⟩
    · obtain ⟨hle, hsorted⟩ := ih hrest
      have habove : ∀ o ∈ rest, offset < o := fun o ho => by
        have := hle o ho
        omega
      refine ⟨fun o ho => ?_, List.pairwise_cons.mpr ⟨habove, hsorted⟩⟩
      rcases List.mem_cons.mp ho with rfl | ho
      · exact Nat.le_refl o
      · exact (habove o ho).le

/-- `check_inode_block` finds exactly the named entry of a well-formed block if and only if
nothing disturbs it. -/
theorem findsEntry_iff (hb : b < 128) (h : (entryOffsets m b 129 0).isSome = true) :
    FindsEntry m b fileType name ↔ Undisturbed m b fileType name := by
  obtain ⟨offsets, hoffsets⟩ := Option.isSome_iff_exists.mp h
  have hchain := chain_of_entryOffsets hoffsets
  have hentries : blockEntries m b = offsets.map (b * 1024 + ·) := by
    rw [blockEntries, hchain]
    rfl
  have hnodup : (blockEntries m b).Nodup := by
    rw [hentries, List.nodup_map_iff fun x y hxy => Nat.add_left_cancel hxy]
    exact (sorted_of_chain hchain).2.imp Nat.ne_of_lt
  rw [FindsEntry, Undisturbed, checkInodeBlock_eq hb]
  by_cases hzero : m.load (b * 1024) 4 = 0
  · rw [if_pos hzero, if_pos hzero, ← List.find?_eq_none]
    cases (blockEntries m b).find? (isLiveNamed m fileType name) with
    | none => exact iff_of_true rfl rfl
    | some p => exact iff_of_false (fun h => by cases h) (Option.some_ne_none p)
  · rw [if_neg hzero, if_neg hzero, ← finds_iff hnodup, hentries, scanBlock_ok hb hchain]

/-! ## Two blocks -/

/-- The root directory of the sample is searched for `a`. -/
theorem findsEntry_sample : FindsEntry (sample false) 7 ext2FtDir [0x61] := by
  refine (findsEntry_iff (by decide) (by decide +kernel)).mpr ?_
  rw [Undisturbed, if_neg (by decide +kernel)]
  decide +kernel

/-- A block with the files `abcd` and `e`, the first one without padding. -/
def tight : Memory :=
  (Memory.write (fun _ => 0) 7168 (direntBytes 12 12 1 [0x61, 0x62, 0x63, 0x64])).write 7180
    (direntBytes 13 1012 1 [0x65])

/-- The file `abcd` is not found: the comparison goes on into the next entry. -/
theorem not_findsEntry : (entryOffsets tight 7 129 0).isSome = true ∧
    ¬ FindsEntry tight 7 ext2FtRegFile [0x61, 0x62, 0x63, 0x64] := by
  refine ⟨by decide +kernel, fun h => ?_⟩
  have hfind : (blockEntries tight 7).find?
      (isLiveNamed tight ext2FtRegFile [0x61, 0x62, 0x63, 0x64]) = some 7168 := by decide +kernel
  have hnone : holds (checkInodeBlock (7 : Nat) [0x61, 0x62, 0x63, 0x64] ext2FtRegFile tight)
      (fun found _ => found.isNone) = true := by decide +kernel
  rw [FindsEntry, hfind] at h
  rw [h] at hnone
  exact Bool.false_ne_true hnone

end OsAssignments.Ext2
