import Mathlib.Data.List.Find
import Mathlib.Data.List.TakeWhile
import OsAssignments.Ext2.Entries
import OsAssignments.Ext2.Paths
import OsAssignments.Ext2.Resolve

/-!
# Stepping to a directory

`step_to_target` takes, in each directory, the first entry of directory type whose name begins
the rest of the path, and cuts the path one byte after that name. It resolves a path where that
entry is the one of the next name.
-/

namespace OsAssignments.Ext2

open Memory Program

variable {L : Layout} {m : Memory} {path : CString} {names : List (List UInt8)} {trailing : Nat}

/-! ## Directories of one block -/

/-- Every directory of the image occupies one block whose chain is sound, and its entries have C
strings for names and name inodes in use. -/
structure OneBlockDirectories (L : Layout) (m : Memory) : Prop where
  holds : L.Holds m
  root : L.inUse m 2 = true ∧ L.isDirectory m 2 = true
  size : ∀ d, L.inUse m d = true → L.isDirectory m d = true → m.load (L.inodeAt d + 4) 4 = 1024
  block : ∀ d, L.inUse m d = true → L.isDirectory m d = true →
    (L.fileBlocks m d).filter (· ≠ 0) = [L.word m d 0] ∧ L.word m d 0 < L.blocks ∧
      (entryOffsets m (L.word m d 0) 129 0).isSome = true
  noNul : ∀ d, L.inUse m d = true → L.isDirectory m d = true → ∀ p ∈ L.entries m d,
    0 ∉ entryNameAt m p
  named : ∀ d, L.inUse m d = true → L.isDirectory m d = true → ∀ p ∈ L.entries m d,
    L.inUse m (m.load p 4) = true ∧
      (m.load (p + 7) 1 = ext2FtDir → L.isDirectory m (m.load p 4) = true)

/-! ## The loose walk -/

/-- Whether the entry at `p` has directory type and its name begins the rest of the path. -/
def isDirPrefix (m : Memory) (rest : List UInt8) (p : Nat) : Bool :=
  m.load (p + 7) 1 = ext2FtDir && entryNameAt m p <+: rest

/-- The directory that the walk ends at when it takes the first such entry each time and cuts the
path one byte after its name. Every round makes the rest shorter. -/
def Layout.loosely (L : Layout) (m : Memory) : Nat → Nat → List UInt8 → Option Nat
  | 0, _, _ => none
  | rounds + 1, d, rest =>
    ((L.entries m d).find? (isDirPrefix m rest)).bind fun p =>
      if (entryNameAt m p).length = rest.length then some (m.load p 4)
      else L.loosely m rounds (m.load p 4) (rest.drop ((entryNameAt m p).length + 1))

/-- The number of rounds does not matter once it is large enough. -/
theorem Layout.loosely_rounds {d r r' : Nat} {rest : List UInt8} (hr : rest.length < r)
    (hr' : rest.length < r') : L.loosely m r d rest = L.loosely m r' d rest := by
  induction r generalizing r' d rest with
  | zero => omega
  | succ r ih =>
    obtain ⟨r', rfl⟩ := Nat.exists_eq_add_of_le' (show 1 ≤ r' by omega)
    rw [loosely, loosely]
    cases hfind : (L.entries m d).find? (isDirPrefix m rest) with
    | none => rfl
    | some p =>
      have hprefix := List.find?_some hfind
      simp only [isDirPrefix, Bool.and_eq_true, decide_eq_true_iff] at hprefix
      have hlen := hprefix.2.length_le
      simp only [Option.bind_some]
      by_cases hall : (entryNameAt m p).length = rest.length
      · rw [if_pos hall, if_pos hall]
      · rw [if_neg hall, if_neg hall]
        exact ih (by rw [List.length_drop]; omega) (by rw [List.length_drop]; omega)

/-! ## The rest of a path -/

/-- The bytes of the path from `start` up to `last`. -/
def CString.rest (path : CString) (start last : Int) : List UInt8 :=
  (path.bytes.take (last + 1).toNat).drop start.toNat

theorem CString.rest_add {start : Int} (hstart : 0 ≤ start) (k : Nat) (last : Int) :
    path.rest (start + k) last = (path.rest start last).drop k := by
  rw [rest, rest, List.drop_drop, show (start + k).toNat = start.toNat + k by omega]

theorem CString.slice_rest {start last : Int} (hstart : 0 ≤ start) (hle : start ≤ last + 1)
    (hlast : last < path.bytes.length) :
    path.slice start (last - start + 1) = some (path.rest start last) := by
  rw [slice, if_pos (by omega), rest, List.drop_take,
    show (last - start + 1).toNat = (last + 1).toNat - start.toNat by omega]

/-- `match_name` compares with the rest of the path, also when nothing is left of it. -/
theorem matchName_rest {start last : Int} (hstart : 0 ≤ start) (hlast : last < path.bytes.length)
    (actual : List UInt8) :
    matchName path actual start last = some (decide (actual <+: path.rest start last)) := by
  by_cases hle : start ≤ last + 1
  · exact matchName_eq (CString.slice_rest hstart hle hlast)
  · have hnil : path.rest start last = [] := by
      rw [CString.rest, List.drop_eq_nil_of_le]
      rw [List.length_take]
      omega
    rw [hnil]
    cases actual with
    | nil => rfl
    | cons c actual =>
      rw [matchName, if_pos (by omega)]
      rfl

namespace OneBlockDirectories

variable {d : Nat}

/-- The entries of a directory are those of its block. -/
theorem entries_eq (h : OneBlockDirectories L m) (hused : L.inUse m d = true)
    (hdir : L.isDirectory m d = true) : ∃ offsets,
      entryOffsets m (L.word m d 0) 129 0 = some offsets ∧ L.word m d 0 < 128 ∧
        L.entries m d = offsets.map (L.word m d 0 * 1024 + ·) := by
  obtain ⟨hone, hlt, hsome⟩ := h.block d hused hdir
  obtain ⟨offsets, hoffsets⟩ := Option.isSome_iff_exists.mp hsome
  have hmapped := L.mapped
  refine ⟨offsets, hoffsets, by omega, ?_⟩
  rw [Layout.entries, hone, List.flatMap_singleton, blockEntries, chain_of_entryOffsets hoffsets]
  rfl

/-- A search takes the first entry of directory type whose name begins the rest of the path. -/
theorem searchInode_eq (h : OneBlockDirectories L m) (hused : L.inUse m d = true)
    (hdir : L.isDirectory m d = true) {start last : Int} {rest : List UInt8} (hstart : 0 ≤ start)
    (hlast : last < path.bytes.length) (hrest : path.rest start last = rest) :
    (L.entries m d).find? (isDirPrefix m rest) = none ∧
      searchInode path start last true (L.inodeAt d) m = .ok none m ∨
    ∃ o, (L.entries m d).find? (isDirPrefix m rest) = some (L.word m d 0 * 1024 + o) ∧
      o + 8 + m.load (L.word m d 0 * 1024 + o + 6) 1 ≤ 1024 ∧
      searchInode path start last true (L.inodeAt d) m =
        .ok (some (((L.word m d 0 * 1024 : Nat) : Int), o)) m := by
  obtain ⟨offsets, hoffsets, hb, hentries⟩ := h.entries_eq hused hdir
  obtain ⟨hlo, hhi, -⟩ := Layout.inUse_iff.mp hused
  have hsearch := searchInode_apply (matchName_rest hstart hlast) true ⟨hlo, by omega⟩
    (h.size d hused hdir) hb hoffsets
  rw [hrest] at hsearch
  have htakes : ∀ o ∈ offsets, takes m (L.word m d 0) true rest o =
      isDirPrefix m rest (L.word m d 0 * 1024 + o) := by
    intro o ho
    have hnul := h.noNul d hused hdir (L.word m d 0 * 1024 + o)
      (hentries ▸ List.mem_map.mpr ⟨o, ho, rfl⟩)
    have hstring : stringAt m (L.word m d 0) o = entryNameAt m (L.word m d 0 * 1024 + o) :=
      List.takeWhile_eq_self_iff.mpr fun b hb => decide_eq_true fun h0 => hnul (h0 ▸ hb)
    rw [takes, isDirPrefix, hstring, Bool.not_true, Bool.false_or]
  have hsame : offsets.find? (takes m (L.word m d 0) true rest) =
      offsets.find? (isDirPrefix m rest ∘ (L.word m d 0 * 1024 + ·)) := List.find?_congr htakes
  rw [hsame] at hsearch
  rw [hentries, List.find?_map]
  cases hfind : offsets.find? (isDirPrefix m rest ∘ (L.word m d 0 * 1024 + ·)) with
  | none =>
    rw [hfind] at hsearch
    exact .inl ⟨rfl, hsearch⟩
  | some o =>
    rw [hfind] at hsearch
    have hfits := fits_of_entryOffsets hoffsets (List.mem_of_find?_eq_some hfind)
    exact .inr ⟨o, rfl, hfits, hsearch⟩

/-- The loop makes the loose walk over the rest of the path, less a tail that no name of an entry
reaches into, when it stops where that tail begins. -/
theorem walk_eq (h : OneBlockDirectories L m) (hused : L.inUse m d = true)
    (hdir : L.isDirectory m d = true) {indices : ThreeIndices} {flag : Bool} {start : Int}
    {rest tail : List UInt8}
    (htail : ∀ d, L.inUse m d = true → L.isDirectory m d = true → ∀ p ∈ L.entries m d,
      ∀ rest, entryNameAt m p <+: rest ++ tail ↔ entryNameAt m p <+: rest)
    (hstart : 0 ≤ start) (hlast : indices.lastChar < path.bytes.length)
    (hrest : path.rest start indices.lastChar = rest ++ tail)
    (hstop : (if flag then indices.lastDir else indices.lastChar + 2) = start + rest.length + 1)
    {r r' : Nat} (hr : rest.length < r) (hr' : rest.length < r') :
    walk path indices flag r (L.inodeAt d) start m =
      .ok ((L.loosely m r' d rest).map fun n => ⟨L.inodeAt n, n⟩) m := by
  induction r generalizing d start rest r' with
  | zero => omega
  | succ r ih =>
    obtain ⟨r', rfl⟩ := Nat.exists_eq_add_of_le' (show 1 ≤ r' by omega)
    have hshort : (L.entries m d).find? (isDirPrefix m (rest ++ tail)) =
        (L.entries m d).find? (isDirPrefix m rest) := List.find?_congr fun p hp => by
      rw [isDirPrefix, isDirPrefix, decide_eq_decide.mpr (htail d hused hdir p hp rest)]
    rw [walk, Layout.loosely]
    rcases h.searchInode_eq hused hdir hstart hlast hrest with
      ⟨hfind, hsearch⟩ | ⟨o, hfind, hfits, hsearch⟩
    · rw [hshort] at hfind
      rw [bind_of_ok hsearch, hfind]
      rfl
    · rw [hshort] at hfind
      rw [bind_of_ok hsearch, hfind]
      obtain ⟨-, -, hb, -⟩ := h.entries_eq hused hdir
      have hnamed := h.named d hused hdir _ (List.mem_of_find?_eq_some hfind)
      have hmatch := List.find?_some hfind
      simp only [isDirPrefix, Bool.and_eq_true, decide_eq_true_iff] at hmatch
      obtain ⟨htype, hprefix⟩ := hmatch
      have hlen : (entryNameAt m (L.word m d 0 * 1024 + o)).length =
          m.load (L.word m d 0 * 1024 + o + 6) 1 := length_bytes m _ _
      have hle := hprefix.length_le
      rw [hlen] at hle
      obtain ⟨hin, hisdir⟩ := hnamed
      have hisdir := hisdir htype
      obtain ⟨hlo, hhi, -⟩ := Layout.inUse_iff.mp hin
      have hnumber := readEntry_apply (m := m) hb (show o + 0 + 4 ≤ 1024 by omega)
      have hnameLen := readEntry_apply (m := m) hb (show o + 6 + 1 ≤ 1024 by omega)
      rw [Nat.add_zero] at hnumber
      simp only [Option.bind_some, hlen]
      have hinodes := L.inodes_le
      have he : toInt (m.load (L.word m d 0 * 1024 + o) 4) =
          (m.load (L.word m d 0 * 1024 + o) 4 : Nat) := toInt_of_lt (by omega)
      rw [bind_of_ok hnumber, he, bind_of_ok (h.holds.getInode ⟨hlo, by omega⟩),
        bind_of_ok hnameLen, hstop]
      by_cases hall : m.load (L.word m d 0 * 1024 + o + 6) 1 = rest.length
      · rw [if_pos hall, if_pos (by omega)]
        rfl
      · rw [if_neg hall, if_neg (by omega)]
        have hdrop := @CString.rest_add path _ hstart
          (m.load (L.word m d 0 * 1024 + o + 6) 1 + 1) indices.lastChar
        rw [hrest, List.drop_append_of_le_length (by omega), Int.natCast_add,
          ← Int.add_assoc] at hdrop
        exact ih hin hisdir (by omega) hdrop (by rw [hstop, List.length_drop]; omega)
          (by rw [List.length_drop]; omega) (by rw [List.length_drop]; omega)

/-- All entries are live. -/
theorem subDirectory_eq (h : OneBlockDirectories L m) (hused : L.inUse m d = true)
    (hdir : L.isDirectory m d = true) (name : List UInt8) : L.subDirectory m d name =
      ((L.entries m d).find? (isDirNamed m name)).map fun p => m.load p 4 := by
  have hlive : ∀ p ∈ L.entries m d, (m.load p 4 ≠ 0 && isDirNamed m name p) =
      isDirNamed m name p := by
    intro p hp
    obtain ⟨hlo, -⟩ := Layout.inUse_iff.mp (h.named d hused hdir p hp).1
    have hne : decide (m.load p 4 ≠ 0) = true := decide_eq_true (by omega)
    rw [hne, Bool.true_and]
  rw [Layout.subDirectory, List.find?_congr hlive]

end OneBlockDirectories

/-! ## The names of a path -/

/-- A name and, each after a slash, the names after it. -/
def joined : List (List UInt8) → List UInt8
  | [] => []
  | name :: names => name ++ spell (names.map fun name => (0, name))

theorem spell_names {name : List UInt8} :
    spell ((name :: names).map fun name => (0, name)) = slash :: joined (name :: names) := rfl

theorem length_joined (name : List UInt8) (hne : names ≠ []) :
    (joined (name :: names)).length = name.length + 1 + (joined names).length ∧
      (joined (name :: names)).drop (name.length + 1) = joined names := by
  cases names with
  | nil => exact absurd rfl hne
  | cons next names =>
    rw [joined, spell_names]
    refine ⟨by rw [List.length_append, List.length_cons]; omega, ?_⟩
    rw [← List.drop_drop, List.drop_left]
    rfl

/-- In every directory on the way, the first entry of directory type whose name begins the rest of
the path is the one of the next name. -/
def Layout.RightWay (L : Layout) (m : Memory) : Nat → List (List UInt8) → Prop
  | _, [] => True
  | d, name :: names =>
    (L.entries m d).find? (isDirPrefix m (joined (name :: names))) =
        (L.entries m d).find? (isDirNamed m name) ∧
      ∀ e, L.subDirectory m d name = some e → L.RightWay m e names

/-- On the right way the loose walk ends where the names lead. -/
theorem Layout.RightWay.loosely_eq (h : OneBlockDirectories L m) {d : Nat} (hne : names ≠ [])
    (hused : L.inUse m d = true) (hdir : L.isDirectory m d = true) (hway : L.RightWay m d names) :
    L.loosely m ((joined names).length + 1) d (joined names) = L.follow m d names := by
  induction names generalizing d with
  | nil => exact absurd rfl hne
  | cons name names ih =>
    obtain ⟨hright, hway⟩ := hway
    rw [h.subDirectory_eq hused hdir] at hway
    rw [Layout.loosely, hright, Layout.follow, h.subDirectory_eq hused hdir]
    cases hfind : (L.entries m d).find? (isDirNamed m name) with
    | none => rfl
    | some p =>
      obtain ⟨hin, hisdir⟩ := h.named d hused hdir p (List.mem_of_find?_eq_some hfind)
      have hnamed := List.find?_some hfind
      simp only [isDirNamed, Bool.and_eq_true, decide_eq_true_iff] at hnamed
      obtain ⟨htype, rfl⟩ := hnamed
      rw [hfind] at hway
      replace hway := hway _ rfl
      simp only [Option.map_some, Option.bind_some]
      by_cases hlast : names = []
      · rw [hlast, if_pos (by simp [joined, spell])]
        rfl
      · obtain ⟨hlength, hdrop⟩ := length_joined (entryNameAt m p) hlast
        have hrest := ih hlast hin (hisdir htype) hway
        rw [if_neg (by omega), hdrop]
        exact (Layout.loosely_rounds (by omega) (by omega)).trans hrest

/-! ## `step_to_target` -/

/-- A slash at the start stops the way back from the end. -/
theorem slashBefore_some (hslash : path.char 0 = some slash) (i : Nat) :
    ∃ j, slashBefore path i = some j := by
  induction i with
  | zero => exact ⟨0, if_pos hslash⟩
  | succ i ih =>
    by_cases hi : path.char (i + 1 : Nat) = some slash
    · exact ⟨i + 1, if_pos hi⟩
    · obtain ⟨j, hj⟩ := ih
      exact ⟨j, (if_neg hi).trans hj⟩

/-- The last byte is not a slash. -/
theorem exists_last (hne : names ≠ []) (hproper : Proper (names.map fun name => (0, name))) :
    ∃ before b, joined names = before ++ [b] ∧ b ≠ slash := by
  induction names with
  | nil => exact absurd rfl hne
  | cons name names ih =>
    by_cases hlast : names = []
    · obtain ⟨hname, hnoSlash⟩ := hproper (0, name) List.mem_cons_self
      rcases List.eq_nil_or_concat' name with h | ⟨before, b, rfl⟩
      · exact absurd h hname
      · refine ⟨before, b, ?_, fun h => hnoSlash (h ▸ by simp)⟩
        rw [hlast]
        exact List.append_nil _
    · obtain ⟨before, b, hbefore, hb⟩ := ih hlast fun s hs =>
        hproper s (List.mem_cons_of_mem (0, name) hs)
      obtain ⟨next, rest, rfl⟩ := List.exists_cons_of_ne_nil hlast
      refine ⟨name ++ slash :: before, b, ?_, hb⟩
      rw [joined, spell_names, hbefore, List.append_assoc, List.cons_append]

/-- The last character of the path is that of the last name. -/
theorem generatePosition_names
    (hpath : Spells path (names.map fun name => (0, name)) trailing) (htrailing : trailing ≤ 1)
    (hne : names ≠ []) : ∃ lastDir : Int, generatePosition path =
      some ⟨1, (joined names).length, lastDir⟩ := by
  obtain ⟨before, b, hlast, hb⟩ := exists_last hne hpath.proper
  obtain ⟨name, rest, rfl⟩ := List.exists_cons_of_ne_nil hne
  have hbytes : path.bytes = slash :: (before ++ [b]) ++ List.replicate trailing slash := by
    rw [← hlast, ← spell_names]
    exact hpath.bytes
  have hstart : path.char 0 = some slash := by
    rw [CString.char, if_pos (Int.le_refl 0), hbytes]
    rfl
  obtain ⟨j, hj⟩ := slashBefore_some hstart (before.length + 1)
  have hchar : path.char (before.length + 1 : Nat) = some b := by
    rw [CString.char_natCast, hbytes, List.append_assoc, List.cons_append,
      List.getElem?_cons_succ, List.append_assoc, List.getElem?_append_right (Nat.le_refl _),
      Nat.sub_self]
    rfl
  rw [hlast, List.length_append, List.length_singleton]
  refine ⟨j + 1, ?_⟩
  obtain rfl | rfl : trailing = 0 ∨ trailing = 1 := by omega
  · have hend : (path.bytes.length : Int) - 1 = (before.length + 1 : Nat) := by
      rw [hbytes]
      simp
    simp only [generatePosition, hend, hchar, Option.bind_eq_bind, Option.bind_some, if_neg hb,
      Int.toNat_natCast, hj]
    rw [if_neg (by omega)]
    rfl
  · have hend : (path.bytes.length : Int) - 1 = (before.length + 2 : Nat) := by
      rw [hbytes]
      simp
    have hslash : path.char (before.length + 2 : Nat) = some slash := by
      rw [CString.char_natCast, hbytes, List.append_assoc, List.cons_append,
        List.getElem?_cons_succ, List.append_assoc, List.getElem?_append_right (by omega),
        show before.length + 1 - before.length = 1 by omega]
      rfl
    have hback : ((before.length + 2 : Nat) : Int) - 1 = (before.length + 1 : Nat) := by omega
    simp only [generatePosition, hend, hslash, Option.bind_eq_bind, Option.bind_some, if_true,
      hback, Int.toNat_natCast, hj]
    rw [if_neg (by omega)]
    rfl

/-- `step_to_target` with flag 0 makes the loose walk from the root. -/
theorem stepToTarget_eq (h : OneBlockDirectories L m)
    (hpath : Spells path (names.map fun name => (0, name)) trailing) (htrailing : trailing ≤ 1)
    (hempty : path.bytes ≠ []) (hlength : path.bytes.length < 2 ^ 31) :
    stepToTarget path false m = .ok ((if names = [] then some 2
      else L.loosely m ((joined names).length + 1) 2 (joined names)).map fun n =>
        ⟨L.inodeAt n, n⟩) m := by
  obtain ⟨hlo, hhi, -⟩ := Layout.inUse_iff.mp h.root.1
  have hinode : getInode 2 m = .ok (L.inodeAt 2 : Int) m := h.holds.getInode ⟨hlo, by omega⟩
  cases names with
  | nil =>
    have hposition : generatePosition path = some ⟨-1, -1, -1⟩ := by
      have hbytes : path.bytes = [slash] := by
        obtain rfl | rfl : trailing = 0 ∨ trailing = 1 := by omega
        · exact absurd hpath.bytes hempty
        · exact hpath.bytes
      simp only [generatePosition, CString.char, hbytes]
      rfl
    rw [stepToTarget, require_bind hposition, bind_of_ok hinode]
    change (getInode 2 >>= _) m = _
    rw [bind_of_ok hinode]
    rfl
  | cons name names =>
    obtain ⟨lastDir, hposition⟩ := generatePosition_names hpath htrailing (List.cons_ne_nil _ _)
    have hbytes : path.bytes = [slash] ++ joined (name :: names) ++ List.replicate trailing slash :=
      hpath.bytes
    have hrest : path.rest 1 (joined (name :: names)).length = joined (name :: names) ++ [] := by
      rw [CString.rest, hbytes, List.append_assoc, List.append_nil,
        show (((joined (name :: names)).length : Int) + 1).toNat =
          [slash].length + (joined (name :: names)).length by
            rw [List.length_singleton]; omega, List.take_length_add_append,
        List.take_left]
      rfl
    have hlong := congrArg List.length hbytes
    simp only [List.length_append, List.length_singleton] at hlong
    have hrounds : (joined (name :: names)).length < 2 ^ 31 := by omega
    rw [if_neg (List.cons_ne_nil name names), stepToTarget, require_bind hposition,
      bind_of_ok hinode, if_neg (show ¬ (1 : Int) = -1 by decide)]
    generalize 2 ^ 31 = rounds at hrounds
    refine h.walk_eq h.root.1 h.root.2 (fun _ _ _ _ _ _ => by rw [List.append_nil])
      (Int.le_of_lt Int.one_pos)
      (show ((joined (name :: names)).length : Int) < path.bytes.length by omega) hrest ?_ hrounds
      (Nat.lt_succ_self _)
    change ((joined (name :: names)).length : Int) + 2 = 1 + (joined (name :: names)).length + 1
    omega

/-- `step_to_target` with flag 0 returns the directory that the names lead to, and NULL where they
lead nowhere. -/
def ResolvesPath (L : Layout) (m : Memory) (path : CString) (names : List (List UInt8)) : Prop :=
  match L.follow m 2 names with
  | some n => stepToTarget path false m = .ok (some ⟨L.inodeAt n, n⟩) m
  | none => stepToTarget path false m = .ok none m

/-- A path is resolved when the walk keeps to the right way. -/
theorem resolvesPath_of_rightWay (h : OneBlockDirectories L m)
    (hpath : Spells path (names.map fun name => (0, name)) trailing) (htrailing : trailing ≤ 1)
    (hempty : path.bytes ≠ []) (hlength : path.bytes.length < 2 ^ 31)
    (hway : L.RightWay m 2 names) : ResolvesPath L m path names := by
  have hresult := stepToTarget_eq h hpath htrailing hempty hlength
  have hleads : (if names = [] then some 2
      else L.loosely m ((joined names).length + 1) 2 (joined names)) = L.follow m 2 names := by
    by_cases hroot : names = []
    · rw [hroot]
      rfl
    · rw [if_neg hroot, hway.loosely_eq h hroot h.root.1 h.root.2]
  rw [hleads] at hresult
  rw [ResolvesPath, hresult]
  cases L.follow m 2 names with
  | none => rfl
  | some n => rfl

/-! ## Two paths in the sample image -/

theorem oneBlockDirectories_sample : OneBlockDirectories sampleLayout (sample false) where
  holds := (consistent_sample false).holds
  root := by decide +kernel
  size := by
    intro d hused hdir
    rcases directories_sample false hused hdir with rfl | rfl <;> decide +kernel
  block := by
    intro d hused hdir
    rcases directories_sample false hused hdir with rfl | rfl <;> decide +kernel
  noNul := by
    intro d hused hdir
    rcases directories_sample false hused hdir with rfl | rfl <;> decide +kernel
  named := by
    intro d hused hdir
    rcases directories_sample false hused hdir with rfl | rfl <;> decide +kernel

/-- The path `/a` is resolved. -/
theorem resolvesPath_sample : ResolvesPath sampleLayout (sample false) aPath [[0x61]] := by
  have hpath : Spells aPath ([[0x61]].map fun name => (0, name)) 0 := ⟨rfl, by decide⟩
  exact resolvesPath_of_rightWay oneBlockDirectories_sample hpath (by decide) (by decide)
    (by decide) ⟨by decide +kernel, fun _ _ => trivial⟩

/-- The path `/..`. -/
def dotsPath : CString := ⟨[0x2f, 0x2e, 0x2e], by decide⟩

/-- The path `/..` is not resolved: the entry `.` is taken for it. -/
theorem not_resolvesPath : OneBlockDirectories sampleLayout (sample false) ∧
    Spells dotsPath ([[0x2e, 0x2e]].map fun name => (0, name)) 0 ∧
    ¬ ResolvesPath sampleLayout (sample false) dotsPath [[0x2e, 0x2e]] := by
  refine ⟨oneBlockDirectories_sample, ⟨rfl, by decide⟩, fun h => ?_⟩
  have hfollow : sampleLayout.follow (sample false) 2 [[0x2e, 0x2e]] = some 2 := by decide +kernel
  rw [ResolvesPath, hfollow] at h
  have hnone : holds (stepToTarget dotsPath false (sample false)) (fun found _ => found.isNone) =
      true := by decide +kernel
  rw [h] at hnone
  cases hnone

end OsAssignments.Ext2
