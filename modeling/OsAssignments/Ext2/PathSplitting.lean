import Mathlib.Data.List.TakeWhile
import OsAssignments.Ext2.Resolve

/-!
# The names in the directory part of a path

The loop of `find_dir_inode` on its strings alone. Every round takes a name and the slash before
it off the string, so that the loop ends; the names are the components of the directory part up to
its first empty one, and the searches in the directories are made for them in order.
-/

namespace OsAssignments.Ext2

open Program

variable {path : CString} {rounds : Nat}

/-- The loop of `find_dir_inode` without its searches: in each round the string and the name taken
off it. Nothing is returned when a null string is passed to `next_index`, or when the rounds do
not suffice. -/
def dirRounds : Nat → Option (List UInt8) → Option (List (List UInt8 × Option (List UInt8)))
  | 0, _ => none
  | _ + 1, none => some []
  | rounds + 1, some nDir => do
    let name ← nextSubDirName nDir
    let next ← nextDir nDir
    return (nDir, name) :: (← dirRounds rounds next)

/-- The searches of `find_dir_inode` for names, one directory after the other. -/
def followNames : List (List UInt8) → Int → Option Int → DiskM (Option Int)
  | [], _, entry => return entry
  | name :: names, inode, _ => do
    let found ← Program.require .undefined (← findSubDirInode name inode ext2FtDir)
    let inode ← getInode (toInt (← read (entryInode found) 4))
    followNames names inode (some found)

/-- The components of an absolute directory path; those between two slashes are empty. -/
def components (dir : List UInt8) : List (List UInt8) := dir.tail.splitOn slash

/-! ## The rounds -/

/-- A round that finds a name finds it between two slashes, and leaves what follows. -/
def TakesName (round : List UInt8 × Option (List UInt8)) : Prop :=
  ∀ name, round.2 = some name → ∃ next, nextDir round.1 = some (some next) ∧
    round.1 = slash :: (name ++ next) ∧ name ≠ [] ∧ slash ∉ name ∧ next.head? = some slash

theorem dirRounds_stops {rest : List UInt8} (hrest : ∀ b ∈ rest.head?, b = slash) (rounds : Nat) :
    dirRounds (rounds + 2) (some (slash :: rest)) = some [(slash :: rest, none)] := by
  obtain ⟨hname, hnext⟩ := takeName_stops hrest
  rw [dirRounds, hname, hnext]
  rfl

theorem dirRounds_name {name : List UInt8} (rest : List UInt8) (hname : name ≠ [] ∧ slash ∉ name)
    {log : List (List UInt8 × Option (List UInt8))}
    (hlog : dirRounds rounds (some (slash :: rest)) = some log) :
    dirRounds (rounds + 1) (some (slash :: (name ++ slash :: rest))) =
      some ((slash :: (name ++ slash :: rest), some name) :: log) := by
  obtain ⟨htake, hnext⟩ := takeName rest hname
  rw [dirRounds, htake, hnext]
  change (do return _ :: (← dirRounds rounds (some (slash :: rest)))) = _
  rw [hlog]
  rfl

theorem takesName_stops (nDir : List UInt8) : TakesName (nDir, none) := fun name h => by cases h

theorem takesName_name {name : List UInt8} (rest : List UInt8) (hname : name ≠ [] ∧ slash ∉ name) :
    TakesName (slash :: (name ++ slash :: rest), some name) := by
  intro name' h
  obtain rfl := Option.some.inj h
  exact ⟨slash :: rest, (takeName rest hname).2, rfl, hname.1, hname.2, rfl⟩

/-- On a string that ends with a slash the loop ends, and finds the components up to the first
empty one. -/
theorem dirRounds_ends {u : List UInt8} (hend : ∀ b ∈ u.getLast?, b = slash)
    (hrounds : u.length + 2 ≤ rounds) :
    ∃ log, dirRounds rounds (some (slash :: u)) = some log ∧ (∀ round ∈ log, TakesName round) ∧
      log.filterMap (·.2) = (u.splitOn slash).takeWhile (· ≠ []) := by
  induction rounds generalizing u with
  | zero => omega
  | succ rounds ih =>
    by_cases hstops : ∀ b ∈ u.head?, b = slash
    · obtain ⟨rounds, rfl⟩ := Nat.exists_eq_add_of_le' (show 1 ≤ rounds by omega)
      refine ⟨_, dirRounds_stops hstops rounds, fun round hround => ?_, ?_⟩
      · rw [List.mem_singleton.mp hround]
        exact takesName_stops _
      · cases u with
        | nil => rfl
        | cons b u =>
          obtain rfl := hstops b rfl
          have hsplit := List.splitOn_append_cons_self (a := slash) [] u
          rw [List.nil_append] at hsplit
          rw [hsplit]
          rfl
    · -- A name comes first, and the slash after it.
      obtain ⟨b, hb, hne⟩ : ∃ b, u.head? = some b ∧ b ≠ slash := by
        simpa using hstops
      have hmem : slash ∈ u := by
        cases hlast : u.getLast? with
        | none =>
          rw [List.getLast?_eq_none_iff.mp hlast] at hb
          cases hb
        | some c => exact hend c hlast ▸ List.mem_of_getLast? hlast
      obtain ⟨name, rest, rfl, hnoSlash⟩ := List.eq_append_cons_of_mem hmem
      have hname : name ≠ [] := by
        rintro rfl
        exact hne (Option.some.inj hb).symm
      have hrest : ∀ c ∈ rest.getLast?, c = slash := fun c hc => hend c (by
        rw [List.getLast?_append, List.getLast?_cons, Option.mem_def.mp hc]
        rfl)
      rw [List.length_append, List.length_cons] at hrounds
      obtain ⟨log, hlog, htakes, hnames⟩ := ih hrest (by omega)
      refine ⟨_, dirRounds_name rest ⟨hname, hnoSlash⟩ hlog, fun round hround => ?_, ?_⟩
      · rcases List.mem_cons.mp hround with rfl | hround
        · exact takesName_name rest ⟨hname, hnoSlash⟩
        · exact htakes round hround
      · rw [List.splitOn_append_cons_self_of_not_mem hnoSlash, List.takeWhile_cons,
          if_pos (by simpa using hname), ← hnames]
        rfl

/-! ## The directory part -/

/-- The directory part of an absolute path begins with a slash. -/
theorem dirname_absolute (habsolute : path.bytes.head? = some slash) :
    ∃ rest, dirname path.bytes = some (slash :: rest) := by
  by_cases hname : ∃ b ∈ path.bytes, b ≠ slash
  · obtain ⟨dirs, last, trailing, hspells⟩ := exists_spells habsolute hname
    rw [hspells.dirname]
    by_cases hroot : dirs = []
    · rw [if_pos hroot]
      by_cases htwo : last.1 = 1
      · rw [if_pos htwo]
        exact ⟨[slash], rfl⟩
      · rw [if_neg htwo]
        exact ⟨[], rfl⟩
    · rw [if_neg hroot]
      cases dirs with
      | nil => exact absurd rfl hroot
      | cons s dirs => exact ⟨_, rfl⟩
  · have hall : ∀ b ∈ path.bytes, decide (b = slash) = true := fun b hb =>
      decide_eq_true (by_contra fun hne => hname ⟨b, hb, hne⟩)
    have htrimmed : path.bytes.reverse.dropWhile (· = slash) = [] :=
      List.dropWhile_eq_nil_iff.mpr fun b hb => hall b (List.mem_reverse.mp hb)
    have hdir : path.bytes.dropWhile (· = slash) = [] := List.dropWhile_eq_nil_iff.mpr hall
    have hne : path.bytes ≠ [] := by
      intro hnil
      rw [hnil] at habsolute
      cases habsolute
    rw [dirname]
    simp only [htrimmed, if_true, hdir, if_neg hne]
    by_cases htwo : path.bytes.length = 2
    · rw [if_pos htwo]
      exact ⟨[slash], rfl⟩
    · rw [if_neg htwo]
      exact ⟨[], rfl⟩

theorem takeWhile_nonempty (names : List (List UInt8)) :
    (names ++ [[]]).takeWhile (· ≠ []) = names.takeWhile (· ≠ []) := by
  induction names with
  | nil => rfl
  | cons name names ih =>
    rw [List.cons_append, List.takeWhile_cons, List.takeWhile_cons, ih]

/-- The loop on a directory with a slash appended. -/
theorem dirRounds_directory (rest : List UInt8) :
    ∃ log, dirRounds ((slash :: rest ++ [slash]).length + 2) (some (slash :: rest ++ [slash])) =
      some log ∧ (∀ round ∈ log, TakesName round) ∧
        log.filterMap (·.2) = (components (slash :: rest)).takeWhile (· ≠ []) := by
  have hlength : (rest ++ [slash]).length + 2 ≤ (slash :: rest ++ [slash]).length + 2 := by simp
  obtain ⟨log, hlog, htakes, hnames⟩ := dirRounds_ends (by simp) hlength
  refine ⟨log, hlog, htakes, ?_⟩
  rw [hnames, List.splitOn_append_cons_self, List.splitOn_nil, takeWhile_nonempty]
  rfl

/-- The loop on the directory part of a path with a slash appended ends without a null string, every
name is found between slashes, and the names are the components up to the first empty one. -/
def SplitsPath (path : CString) : Prop :=
  ∃ dir log, dirname path.bytes = some dir ∧
    dirRounds ((dir ++ [slash]).length + 2) (some (dir ++ [slash])) = some log ∧
    (∀ round ∈ log, TakesName round) ∧
    log.filterMap (·.2) = (components dir).takeWhile (· ≠ [])

/-- Every absolute path is split so. -/
theorem splitsPath (habsolute : path.bytes.head? = some slash) : SplitsPath path := by
  obtain ⟨rest, hdir⟩ := dirname_absolute habsolute
  obtain ⟨log, hlog⟩ := dirRounds_directory rest
  exact ⟨slash :: rest, log, hdir, hlog⟩

theorem splitsPath_af : SplitsPath afPath := splitsPath rfl

/-! ## The searches -/

/-- The loop of `find_dir_inode` searches for the names that its strings give. -/
theorem followDirs_eq {nDir : Option (List UInt8)} {inode : Int} {entry : Option Int}
    {log : List (List UInt8 × Option (List UInt8))} (hlog : dirRounds rounds nDir = some log) :
    followDirs rounds nDir inode entry = followNames (log.filterMap (·.2)) inode entry := by
  induction rounds generalizing nDir inode entry log with
  | zero => cases hlog
  | succ rounds ih =>
    cases nDir with
    | none =>
      obtain rfl := Option.some.inj hlog
      rfl
    | some nDir =>
      obtain ⟨name, hname, hlog⟩ := Option.bind_eq_some_iff.mp hlog
      obtain ⟨next, hnext, hlog⟩ := Option.bind_eq_some_iff.mp hlog
      obtain ⟨rest, hrest, hlog⟩ := Option.bind_eq_some_iff.mp hlog
      obtain rfl := Option.some.inj hlog
      cases name with
      | none =>
        rw [followDirs]
        simp only [hname, hnext, require, pure_bind, ih hrest]
        rfl
      | some name =>
        rw [followDirs]
        simp only [hname, hnext, require, pure_bind, ih hrest]
        rfl

/-- `find_dir_inode` follows the names of the directory part up to the first empty one. -/
theorem findDirInode_eq (habsolute : path.bytes.head? = some slash) {nDir : List UInt8}
    (hdir : getDirName path = some nDir) : ∃ dir, dirname path.bytes = some dir ∧
      findDirInode path = (do
        let inode ← getInode 2
        followNames ((components dir).takeWhile (· ≠ [])) inode none) := by
  obtain ⟨rest, hrest⟩ := dirname_absolute habsolute
  obtain ⟨log, hlog, -, hnames⟩ := dirRounds_directory rest
  have hnDir : nDir = slash :: rest ++ [slash] := by
    rw [getDirName, hrest] at hdir
    split at hdir
    · next heq =>
      obtain rfl := Option.some.inj heq
      split at hdir
      · exact (Option.some.inj hdir).symm
      · cases hdir
    · cases hdir
  refine ⟨slash :: rest, hrest, ?_⟩
  rw [findDirInode, hdir, hnDir, ← hnames]
  simp only [require, pure_bind, followDirs_eq hlog]

end OsAssignments.Ext2
