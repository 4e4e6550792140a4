import OsAssignments.Ext2.Resolve

/-!
# What a search finds

`find_sub_dir_inode` takes the first entry of directory type with the name in the direct blocks
that begin with a live entry. It is a steady search when that entry is live and no null pointer
is taken for a block 0 with entries. Steady searches lead `find_dir_inode` from directory to
directory. They are not misled when the entry is always the first live one of the directory;
even then the names after a repeated slash are dropped, and one name alone leads to nothing.
-/

namespace OsAssignments.Ext2

open Memory Program

variable {L : Layout} {m : Memory} {path : CString} {name : List UInt8}
  {names : List (List UInt8)} {dirs : List (Nat × List UInt8)} {last : Nat × List UInt8}
  {trailing : Nat}

/-! ## Steady searches -/

namespace Layout

/-- The entry that a search finds in a directory: the first one of directory type with the name in
the direct blocks that it enters, live or not. -/
def foundEntry (L : Layout) (m : Memory) (d : Nat) (name : List UInt8) : Option Nat :=
  ((List.range 12).map (L.word m d)).findSome? (foundIn m name)

/-- A search leads nowhere arbitrary: the entry that it finds is live, and if it passes a null
pointer, block 0 begins with zeros. -/
structure Steady (L : Layout) (m : Memory) (d : Nat) (name : List UInt8) : Prop where
  live : ∀ p ∈ L.foundEntry m d name, m.load p 4 ≠ 0
  boot : 0 ∈ ((List.range 12).map (L.word m d)).takeWhile (fun b => (foundIn m name b).isNone) →
    m.load 0 4 = 0

/-- The first live entry of directory type with the name. -/
def subEntry (L : Layout) (m : Memory) (d : Nat) (name : List UInt8) : Option Nat :=
  (L.entries m d).find? fun p => m.load p 4 ≠ 0 && isDirNamed m name p

/-- A search is not misled: it is steady, and the first entry with the name in the blocks that it
enters, if there is one, is the first live one of the directory. -/
structure Unmisled (L : Layout) (m : Memory) (d : Nat) (name : List UInt8) : Prop extends
    L.Steady m d name where
  first : ∀ p ∈ L.foundEntry m d name, L.subEntry m d name = some p

/-- What holds of the searches for the names, one directory after the other. -/
def Along (L : Layout) (m : Memory) (P : Nat → List UInt8 → Prop) : Nat → List (List UInt8) → Prop
  | _, [] => True
  | d, name :: names => P d name ∧ ∀ p ∈ L.foundEntry m d name, L.Along m P (m.load p 4) names

/-- The searches for the names are steady. -/
abbrev SteadyAlong (L : Layout) (m : Memory) : Nat → List (List UInt8) → Prop :=
  L.Along m (L.Steady m)

/-- They are not misled. -/
abbrev UnmisledAlong (L : Layout) (m : Memory) : Nat → List (List UInt8) → Prop :=
  L.Along m (L.Unmisled m)

/-- There is an entry with the name in the blocks that each of them enters. -/
abbrev FoundAlong (L : Layout) (m : Memory) : Nat → List (List UInt8) → Prop :=
  L.Along m fun d name => (L.foundEntry m d name).isSome = true

theorem Along.mono {P Q : Nat → List UInt8 → Prop} (hPQ : ∀ d name, P d name → Q d name) {d : Nat}
    (h : L.Along m P d names) : L.Along m Q d names := by
  induction names generalizing d with
  | nil => trivial
  | cons name names ih =>
    obtain ⟨hsearch, hrest⟩ := h
    exact ⟨hPQ d name hsearch, fun p hp => ih (hrest p hp)⟩

/-- The searches lead to a directory where there is always an entry. -/
theorem foundAlong_iff {d : Nat} :
    L.FoundAlong m d names ↔ ∃ e, through m (L.foundEntry m) d names = some e := by
  induction names generalizing d with
  | nil => exact iff_of_true trivial ⟨d, rfl⟩
  | cons name names ih =>
    rw [FoundAlong, Along, through]
    cases hfound : L.foundEntry m d name with
    | none =>
      refine iff_of_false (fun h => by cases h.1) ?_
      rintro ⟨e, he⟩
      cases he
    | some p =>
      rw [Option.bind_some, ← ih]
      exact ⟨fun h => h.2 p rfl, fun h => ⟨rfl, fun q hq => Option.some.inj hq ▸ h⟩⟩

/-- Searches that are not misled lead where the names lead. -/
theorem UnmisledAlong.follow_eq {d e : Nat} (h : L.UnmisledAlong m d names)
    (hthrough : through m (L.foundEntry m) d names = some e) : L.follow m d names = some e := by
  induction names generalizing d with
  | nil => exact hthrough
  | cons name names ih =>
    obtain ⟨hsearch, hrest⟩ := h
    obtain ⟨p, hp, hthrough⟩ := Option.bind_eq_some_iff.mp hthrough
    have hsub : L.subDirectory m d name = some (m.load p 4) :=
      Option.map_eq_some_iff.mpr ⟨p, hsearch.first p hp, rfl⟩
    rw [follow, hsub]
    exact ih (hrest p hp) hthrough

end Layout

/-! ## The search -/

namespace SoundDirectories

variable {d : Nat}

/-- An entry that is found is one of the directory. -/
theorem foundEntry_mem (h : SoundDirectories L m) (hused : L.inUse m d = true)
    (hdir : L.isDirectory m d = true) {p : Nat} (hp : L.foundEntry m d name = some p) :
    p ∈ L.entries m d ∧ m.load (p + 7) 1 = ext2FtDir ∧ p + 4 ≤ 131072 := by
  obtain ⟨b, hb, hfound⟩ := List.exists_of_findSome?_eq_some hp
  rw [foundIn] at hfound
  split at hfound
  · cases hfound
  · next hentered =>
    obtain ⟨hne, -⟩ := not_or.mp hentered
    obtain ⟨hentry, -, hbound⟩ := h.entry_block hused hdir (List.mem_append_left _ hb) hne
      (List.mem_of_find?_eq_some hfound)
    have hnamed := List.find?_some hfound
    rw [isDirNamed, Bool.and_eq_true, decide_eq_true_iff] at hnamed
    exact ⟨hentry, hnamed.1, by omega⟩

/-- The inode of a live entry that is found is a directory in use. -/
theorem foundEntry_sound (h : SoundDirectories L m) (hused : L.inUse m d = true)
    (hdir : L.isDirectory m d = true) {p : Nat} (hp : L.foundEntry m d name = some p)
    (hlive : m.load p 4 ≠ 0) :
    L.inUse m (m.load p 4) = true ∧ L.isDirectory m (m.load p 4) = true := by
  obtain ⟨hentry, htype, -⟩ := h.foundEntry_mem hused hdir hp
  obtain ⟨hin, hisdir⟩ := h.named d hused hdir p hentry hlive
  exact ⟨hin, hisdir htype⟩

/-! ## One search after the other -/

/-- Where they are steady the searches return what they find. -/
theorem searchedAlong_found (h : SoundDirectories L m) (hnul : ∀ name ∈ names, (0 : UInt8) ∉ name)
    (hused : L.inUse m d = true) (hdir : L.isDirectory m d = true)
    (hsteady : L.SteadyAlong m d names) : L.SearchedAlong m (L.foundEntry m) d names := by
  induction names generalizing d with
  | nil => trivial
  | cons name names ih =>
    obtain ⟨hsearch, hsteady⟩ := hsteady
    have hboot := hsearch.boot
    rw [List.range_eq_range'] at hboot
    refine ⟨?_, fun p hp => ?_⟩
    · rw [findSubDirInode, h.findAmong_found hused hdir (hnul name List.mem_cons_self)
        (Nat.le_refl 12) hboot, Layout.foundEntry, List.range_eq_range']
    · obtain ⟨hin, hisdir⟩ := h.foundEntry_sound hused hdir hp (hsearch.live p hp)
      obtain ⟨hlo, hhi, -⟩ := Layout.inUse_iff.mp hin
      exact ⟨(h.foundEntry_mem hused hdir hp).2.2, ⟨hlo, hhi⟩,
        ih (fun name hname => hnul name (List.mem_cons_of_mem _ hname)) hin hisdir (hsteady p hp)⟩

/-- Steady searches lead to a directory in use. -/
theorem through_sound (h : SoundDirectories L m) {e : Nat} (hused : L.inUse m d = true)
    (hdir : L.isDirectory m d = true) (hsteady : L.SteadyAlong m d names)
    (hthrough : through m (L.foundEntry m) d names = some e) :
    L.inUse m e = true ∧ L.isDirectory m e = true := by
  induction names generalizing d with
  | nil =>
    obtain rfl := Option.some.inj hthrough
    exact ⟨hused, hdir⟩
  | cons name names ih =>
    obtain ⟨hsearch, hsteady⟩ := hsteady
    obtain ⟨p, hp, hrest⟩ := Option.bind_eq_some_iff.mp hthrough
    obtain ⟨hin, hisdir⟩ := h.foundEntry_sound hused hdir hp (hsearch.live p hp)
    exact ih hin hisdir (hsteady p hp) hrest

end SoundDirectories

/-! ## The directory part of a path -/

/-- `find_dir_inode` returns an entry of the directory that the names lead to from the root, and
NULL where they lead nowhere. -/
def ResolvesDirectory (L : Layout) (m : Memory) (path : CString) (names : List (List UInt8)) :
    Prop :=
  match L.follow m 2 names with
  | some n => ∃ p : Nat, findDirInode path m = .ok (some (p : Int)) m ∧ m.load p 4 = n
  | none => findDirInode path m = .ok none m

/-- Where its searches are not misled, `find_dir_inode` resolves the directory part when there are
names before the first repeated slash, each of them is found, and they lead where all names lead,
or when there are none and the names lead nowhere. -/
theorem resolvesDirectory_iff (h : SoundDirectories L m)
    (hpath : Spells path (dirs ++ [last]) trailing)
    (hsearches : L.UnmisledAlong m 2 (followed dirs)) :
    ResolvesDirectory L m path (dirs.map (·.2)) ↔
      if followed dirs = [] then L.follow m 2 (dirs.map (·.2)) = none
      else L.FoundAlong m 2 (followed dirs) ∧
        L.follow m 2 (followed dirs) = L.follow m 2 (dirs.map (·.2)) := by
  obtain ⟨-, hhi, -⟩ := Layout.inUse_iff.mp h.root.1
  have hsteady := hsearches.mono fun _ _ => Layout.Unmisled.toSteady
  have hled := findDirInode_led h.holds hhi hpath
    (h.searchedAlong_found hpath.noNul h.root.1 h.root.2 hsteady)
  rw [ResolvesDirectory]
  by_cases hnil : followed dirs = []
  · rw [if_pos hnil, hled.none_left hnil]
    cases L.follow m 2 (dirs.map (·.2)) with
    | none => exact iff_of_true rfl rfl
    | some n =>
      refine iff_of_false ?_ (Option.some_ne_none n)
      rintro ⟨p, hp, -⟩
      cases hp
  · rw [if_neg hnil, Layout.foundAlong_iff]
    cases hthrough : through m (L.foundEntry m) 2 (followed dirs) with
    | none =>
      -- The null pointer of the name that is not found is followed.
      have hmissing := hled.missing hthrough
      refine iff_of_false ?_ ?_
      · cases L.follow m 2 (dirs.map (·.2)) with
        | none => exact hmissing none m
        | some n =>
          rintro ⟨p, hp, -⟩
          exact hmissing _ _ hp
      · rintro ⟨⟨e, he⟩, -⟩
        cases he
    | some e =>
      obtain ⟨p, hp, -, hload⟩ := hled.found hnil e hthrough
      rw [hp, Layout.UnmisledAlong.follow_eq hsearches hthrough]
      cases L.follow m 2 (dirs.map (·.2)) with
      | none => exact iff_of_false (fun h => by cases h) fun h => by cases h.2
      | some n =>
        constructor
        · rintro ⟨q, hq, rfl⟩
          injection hq with hq
          obtain rfl := Int.ofNat.inj (Option.some.inj hq)
          exact ⟨⟨e, rfl⟩, by rw [hload]⟩
        · rintro ⟨-, hn⟩
          exact ⟨p, rfl, hload.trans (Option.some.inj hn)⟩

/-! ## Two paths in the sample image -/

theorem soundDirectories_sample : SoundDirectories sampleLayout (sample false) where
  holds := (consistent_sample false).holds
  root := by decide +kernel
  blocks := by
    intro d hused hdir
    rcases directories_sample false hused hdir with rfl | rfl <;> decide +kernel
  terminated := by
    intro d hused hdir p hp
    have hall : ∀ d ∈ [2, 11], ∀ p ∈ sampleLayout.entries (sample false) d,
        8 + (sample false).load (p + 6) 1 < (sample false).load (p + 4) 2 ∧
          sample false (p + 8 + (sample false).load (p + 6) 1) = 0 ∧
            0 ∉ entryNameAt (sample false) p := by decide +kernel
    have hd : d ∈ [2, 11] := by simpa using directories_sample false hused hdir
    obtain ⟨hroom, hzero, hnoNul⟩ := hall d hd p hp
    exact ⟨hroom, hzero, hnoNul⟩
  named := by
    intro d hused hdir
    rcases directories_sample false hused hdir with rfl | rfl <;> decide +kernel

theorem unmisled_sample : sampleLayout.Unmisled (sample false) 2 [0x61] where
  live := by decide +kernel
  boot := by decide +kernel
  first := by decide +kernel

/-- The directory part of `/a/f` is resolved. -/
theorem resolvesDirectory_sample :
    ResolvesDirectory sampleLayout (sample false) afPath ([(0, [0x61])].map (·.2)) := by
  have hpath : Spells afPath ([(0, [0x61])] ++ [(0, [0x66])]) 0 := ⟨rfl, by decide⟩
  refine (resolvesDirectory_iff soundDirectories_sample hpath
    ⟨unmisled_sample, fun _ _ => trivial⟩).mpr ?_
  rw [if_neg (by decide)]
  exact ⟨⟨by decide +kernel, fun _ _ => trivial⟩, rfl⟩

/-- The directory part of `/f` is not: there is no entry of the root. -/
theorem not_resolvesDirectory : SoundDirectories sampleLayout (sample false) ∧
    Spells fPath ([] ++ [(0, [0x66])]) 0 ∧
    ¬ ResolvesDirectory sampleLayout (sample false) fPath [] := by
  refine ⟨soundDirectories_sample, ⟨rfl, by decide⟩, ?_⟩
  rintro ⟨p, hp, -⟩
  have hnone : holds (findDirInode fPath (sample false)) (fun entry _ => entry = none) = true := by
    decide +kernel
  rw [hp] at hnone
  cases hnone

end OsAssignments.Ext2
