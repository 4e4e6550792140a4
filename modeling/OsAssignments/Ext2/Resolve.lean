import OsAssignments.Ext2.Lookup

/-!
# Resolving the directory part of a path

`find_dir_inode` takes the names between single slashes off the directory part of a path, one
after the other, and stops at the first repeated slash. It follows a null pointer where a name is
missing, and gives one where no name is left to follow.
-/

namespace OsAssignments.Ext2

open Program

variable {L : Layout} {m : Memory} {path : CString} {dirs : List (Nat × List UInt8)}
  {last : Nat × List UInt8} {trailing : Nat}

/-! ## Slashes and names -/

/-- The bytes of names, each after one slash and as many more as its number says. -/
def spell (segments : List (Nat × List UInt8)) : List UInt8 :=
  segments.flatMap fun s => List.replicate (s.1 + 1) slash ++ s.2

/-- No name is empty or holds a slash. -/
def Proper (segments : List (Nat × List UInt8)) : Prop :=
  ∀ s ∈ segments, s.2 ≠ [] ∧ slash ∉ s.2

instance (segments : List (Nat × List UInt8)) : Decidable (Proper segments) :=
  inferInstanceAs (Decidable (∀ s ∈ segments, s.2 ≠ [] ∧ slash ∉ s.2))

/-- A path consists of such names, and of slashes after the last one. -/
structure Spells (path : CString) (segments : List (Nat × List UInt8)) (trailing : Nat) :
    Prop where
  bytes : path.bytes = spell segments ++ List.replicate trailing slash
  proper : Proper segments

/-- The names before the first repeated slash. -/
def followed (dirs : List (Nat × List UInt8)) : List (List UInt8) :=
  (dirs.takeWhile (·.1 = 0)).map (·.2)

theorem spell_append (segments rest : List (Nat × List UInt8)) :
    spell (segments ++ rest) = spell segments ++ spell rest := List.flatMap_append

theorem spell_single (s : Nat × List UInt8) :
    spell [s] = List.replicate (s.1 + 1) slash ++ s.2 := List.flatMap_singleton _ _

theorem Proper.append {segments : List (Nat × List UInt8)} {s : Nat × List UInt8}
    (h : Proper segments) (hs : s.2 ≠ [] ∧ slash ∉ s.2) : Proper (segments ++ [s]) := by
  intro t ht
  rcases List.mem_append.mp ht with ht | ht
  · exact h t ht
  · rw [List.mem_singleton.mp ht]
    exact hs

/-- Bytes that begin with a slash, if there are any, are slashes and names. -/
theorem exists_spelling (bytes : List UInt8) (hstart : ∀ b ∈ bytes.head?, b = slash) :
    ∃ segments trailing, bytes = spell segments ++ List.replicate trailing slash ∧
      Proper segments := by
  induction bytes using List.reverseRecOn with
  | nil => exact ⟨[], 0, rfl, fun s hs => by cases hs⟩
  | append_singleton bytes b ih =>
    have hprefix : ∀ b ∈ bytes.head?, b = slash := fun c hc => hstart c (by
      rw [List.head?_append, Option.mem_def.mp hc]
      rfl)
    obtain ⟨segments, trailing, hbytes, hproper⟩ := ih hprefix
    by_cases hb : b = slash
    · refine ⟨segments, trailing + 1, ?_, hproper⟩
      rw [hbytes, hb, List.replicate_succ', List.append_assoc]
    · have hnoSlash : slash ∉ [b] := fun h => hb (List.mem_singleton.mp h).symm
      cases trailing with
      | succ k =>
        refine ⟨segments ++ [(k, [b])], 0, ?_, hproper.append ⟨List.cons_ne_nil b [], hnoSlash⟩⟩
        rw [hbytes, spell_append, spell_single, List.append_assoc, List.replicate_zero,
          List.append_nil]
      | zero =>
        rw [List.replicate_zero, List.append_nil] at hbytes
        rcases List.eq_nil_or_concat' segments with rfl | ⟨segments, ⟨k, name⟩, rfl⟩
        · rw [hbytes] at hstart
          exact absurd (hstart b rfl) hb
        · have hlast := hproper (k, name) (by simp)
          refine ⟨segments ++ [(k, name ++ [b])], 0, ?_, ?_⟩
          · rw [hbytes, spell_append, spell_append, spell_single, spell_single,
              List.replicate_zero, List.append_nil, List.append_assoc, List.append_assoc]
          · refine Proper.append (fun s hs => hproper s (by simp [hs])) ⟨by simp, fun h => ?_⟩
            rcases List.mem_append.mp h with h | h
            · exact hlast.2 h
            · exact hnoSlash h

/-- An absolute path with a name is directories, a last name and slashes. -/
theorem exists_spells (habsolute : path.bytes.head? = some slash)
    (hname : ∃ b ∈ path.bytes, b ≠ slash) :
    ∃ dirs last trailing, Spells path (dirs ++ [last]) trailing := by
  obtain ⟨segments, trailing, hbytes, hproper⟩ := exists_spelling path.bytes (fun b hb => by
    rw [habsolute] at hb
    exact (Option.some.inj hb).symm)
  rcases List.eq_nil_or_concat' segments with rfl | ⟨dirs, last, rfl⟩
  · obtain ⟨b, hb, hne⟩ := hname
    rw [hbytes] at hb
    exact absurd (List.eq_of_mem_replicate hb) hne
  · exact ⟨dirs, last, trailing, hbytes, hproper⟩

/-! ## `dirname` -/

theorem dropWhile_name {name rest : List UInt8} (hname : name ≠ [] ∧ slash ∉ name) :
    (name ++ rest).dropWhile (· = slash) = name ++ rest := by
  obtain ⟨hne, hnoSlash⟩ := hname
  cases name with
  | nil => exact absurd rfl hne
  | cons b name =>
    have hb : ¬ decide (b = slash) = true := fun h =>
      hnoSlash (of_decide_eq_true h ▸ List.mem_cons_self)
    exact List.dropWhile_cons_of_neg hb

theorem dropWhile_slashes (k : Nat) (rest : List UInt8) :
    (List.replicate k slash ++ rest).dropWhile (· = slash) = rest.dropWhile (· = slash) :=
  List.dropWhile_append_of_pos fun _ hb => decide_eq_true (List.eq_of_mem_replicate hb)

/-- `dirname` cuts off the last name and the slashes around it. -/
theorem Spells.dirname (h : Spells path (dirs ++ [last]) trailing) :
    dirname path.bytes = some (if dirs = [] then
      if last.1 = 1 then [slash, slash] else [slash] else spell dirs) := by
  obtain ⟨k, name⟩ := last
  have hlast := h.proper (k, name) (by simp)
  have hreverse : name.reverse ≠ [] ∧ slash ∉ name.reverse :=
    ⟨by simpa using hlast.1, by simpa using hlast.2⟩
  have htrimmed : path.bytes.reverse.dropWhile (· = slash) =
      name.reverse ++ (List.replicate (k + 1) slash ++ (spell dirs).reverse) := by
    rw [h.bytes, spell_append, spell_single, List.reverse_append, List.reverse_replicate,
      dropWhile_slashes, List.reverse_append, List.reverse_append, List.reverse_replicate,
      List.append_assoc, dropWhile_name hreverse]
  have habove : (name.reverse ++ (List.replicate (k + 1) slash ++ (spell dirs).reverse)).dropWhile
      (· ≠ slash) = List.replicate (k + 1) slash ++ (spell dirs).reverse := by
    have hall : ∀ b ∈ name.reverse, decide (b ≠ slash) = true := fun b hb =>
      decide_eq_true fun heq => hreverse.2 (heq ▸ hb)
    rw [List.dropWhile_append_of_pos hall, List.replicate_succ, List.cons_append]
    exact List.dropWhile_cons_of_neg (by simp)
  have hdir : (List.replicate (k + 1) slash ++ (spell dirs).reverse).dropWhile (· = slash) =
      (spell dirs).reverse := by
    rw [dropWhile_slashes]
    rcases List.eq_nil_or_concat' dirs with rfl | ⟨dirs, ⟨j, dir⟩, rfl⟩
    · rfl
    · have hbefore := h.proper (j, dir) (by simp)
      rw [spell_append, spell_single, List.reverse_append, List.reverse_append, List.append_assoc]
      exact dropWhile_name ⟨by simpa using hbefore.1, by simpa using hbefore.2⟩
  have hne : name.reverse ++ (List.replicate (k + 1) slash ++ (spell dirs).reverse) ≠ [] := by
    simp [hlast.1]
  have hne' : List.replicate (k + 1) slash ++ (spell dirs).reverse ≠ [] := by simp
  simp only [Ext2.dirname, htrimmed, if_neg hne, habove, hdir, if_neg hne']
  by_cases hroot : dirs = []
  · rw [if_pos hroot, hroot]
    simp [spell]
  · have hspell : (spell dirs).reverse ≠ [] := by
      rcases List.eq_nil_or_concat' dirs with h | ⟨dirs, s, rfl⟩
      · exact absurd h hroot
      · rw [spell_append, spell_single]
        simp
    rw [if_neg hroot, if_neg hspell, List.reverse_reverse]

/-! ## The string helpers -/

theorem substring_cons (b : UInt8) (s : List UInt8) :
    substring (b :: s) 1 ((b :: s).length - 1) = some s := by
  rw [substring, List.length_cons, Nat.add_sub_cancel, if_neg (by omega), List.drop_succ_cons,
    List.drop_zero, List.take_length]

theorem nextIndex_name {name rest : List UInt8} (hname : slash ∉ name) :
    nextIndex (name ++ slash :: rest) = name.length := by
  have hno : ∀ b ∈ name, ¬ decide (b = slash) = true := fun b hb h =>
    hname (of_decide_eq_true h ▸ hb)
  rw [nextIndex, List.findIdx_append, if_neg]
  · rw [List.findIdx_cons, decide_eq_true rfl]
    exact Nat.zero_add _
  · rw [List.findIdx_lt_length]
    rintro ⟨b, hb, h⟩
    exact hno b hb h

/-- A name after one slash is taken off. -/
theorem takeName {name : List UInt8} (rest : List UInt8) (hname : name ≠ [] ∧ slash ∉ name) :
    nextSubDirName (slash :: (name ++ slash :: rest)) = some (some name) ∧
      nextDir (slash :: (name ++ slash :: rest)) = some (some (slash :: rest)) := by
  have hlength : name.length ≠ 0 := fun h => hname.1 (List.length_eq_zero_iff.mp h)
  have hsubstring := substring_cons slash (name ++ slash :: rest)
  constructor
  · rw [nextSubDirName, hsubstring]
    change some (if nextIndex (name ++ slash :: rest) ≠ 0 then _ else _) = _
    rw [nextIndex_name hname.2, if_pos hlength, substring, if_neg (by simp; omega),
      List.drop_succ_cons, List.drop_zero, List.take_left]
  · rw [nextDir, hsubstring]
    change some (if nextIndex (name ++ slash :: rest) ≠ 0 then _ else _) = _
    rw [nextIndex_name hname.2, if_pos hlength, List.drop_succ_cons, List.drop_left,
      List.take_of_length_le (by simp)]

/-- After a repeated slash, and after the last one, no name is found. -/
theorem takeName_stops {rest : List UInt8} (hrest : ∀ b ∈ rest.head?, b = slash) :
    nextSubDirName (slash :: rest) = some none ∧ nextDir (slash :: rest) = some none := by
  have hsubstring := substring_cons slash rest
  have hindex : nextIndex rest = 0 := by
    cases rest with
    | nil => rfl
    | cons b rest =>
      rw [nextIndex, List.findIdx_cons, decide_eq_true (hrest b rfl)]
      rfl
  constructor
  · rw [nextSubDirName, hsubstring]
    change some (if nextIndex rest ≠ 0 then _ else _) = _
    rw [hindex]
    rfl
  · rw [nextDir, hsubstring]
    change some (if nextIndex rest ≠ 0 then _ else _) = _
    rw [hindex]
    rfl

/-! ## Following the names -/

/-- The directory that the names lead to when `find` gives the entry of a name in a directory. -/
def through (m : Memory) (find : Nat → List UInt8 → Option Nat) :
    Nat → List (List UInt8) → Option Nat
  | d, [] => some d
  | d, name :: names => (find d name).bind fun p => through m find (m.load p 4) names

/-- The searches for the names, one directory after the other, return what `find` gives, which are
entries of inodes. -/
def Layout.SearchedAlong (L : Layout) (m : Memory) (find : Nat → List UInt8 → Option Nat) :
    Nat → List (List UInt8) → Prop
  | _, [] => True
  | d, name :: names =>
    findSubDirInode name (L.inodeAt d) ext2FtDir m = .ok ((find d name).map Int.ofNat) m ∧
      ∀ p, find d name = some p → p + 4 ≤ 131072 ∧ (1 ≤ m.load p 4 ∧ m.load p 4 ≤ L.inodes) ∧
        L.SearchedAlong m find (m.load p 4) names

theorem spell_slash (dirs : List (Nat × List UInt8)) :
    ∃ rest, spell dirs ++ [slash] = slash :: rest := by
  cases dirs with
  | nil => exact ⟨[], rfl⟩
  | cons s dirs => exact ⟨_, rfl⟩

/-- What the loop makes of the names: an entry of the directory that they lead to, the entry it
started with where there are none, and nothing defined where they lead nowhere. -/
structure LedThrough (m : Memory) (find : Nat → List UInt8 → Option Nat) (d : Nat)
    (names : List (List UInt8)) (entry : Option Int) (x : DiskM (Option Int)) : Prop where
  none_left : names = [] → x m = .ok entry m
  found : names ≠ [] → ∀ n, through m find d names = some n →
    ∃ p : Nat, x m = .ok (some (p : Int)) m ∧ p + 4 ≤ 131072 ∧ m.load p 4 = n
  missing : through m find d names = none → ∀ r m', x m ≠ .ok r m'

namespace LedThrough

variable {find : Nat → List UInt8 → Option Nat} {d p : Nat} {names : List (List UInt8)}
  {entry : Option Int} {x y : DiskM (Option Int)}

theorem nil (hx : x m = .ok entry m) : LedThrough m find d [] entry x :=
  ⟨fun _ => hx, fun hne => absurd rfl hne, fun hmissing => by cases hmissing⟩

/-- A name that is not found ends it. -/
theorem cons_none (hfind : find d name = none) (hx : ∀ r m', x m ≠ .ok r m') :
    LedThrough m find d (name :: names) entry x := by
  have hthrough : through m find d (name :: names) = none := by
    rw [through, hfind]
    rfl
  refine ⟨fun hnil => absurd hnil (List.cons_ne_nil _ _), fun _ n hn => ?_, fun _ => hx⟩
  rw [hthrough] at hn
  cases hn

/-- A name that is found leads on from its entry. -/
theorem cons_some (hfind : find d name = some p) (hbound : p + 4 ≤ 131072)
    (h : LedThrough m find (m.load p 4) names (some (p : Int)) y) (hxy : x m = y m) :
    LedThrough m find d (name :: names) entry x := by
  have hthrough : through m find d (name :: names) = through m find (m.load p 4) names := by
    rw [through, hfind]
    rfl
  refine ⟨fun hnil => absurd hnil (List.cons_ne_nil _ _), fun _ n hn => ?_, fun hmissing => ?_⟩
  · rw [hthrough] at hn
    rw [hxy]
    by_cases hleft : names = []
    · rw [hleft] at hn
      exact ⟨p, h.none_left hleft, hbound, Option.some.inj hn⟩
    · exact h.found hleft n hn
  · rw [hxy]
    exact h.missing (hthrough.symm.trans hmissing)

end LedThrough

/-- The loop stops at a repeated slash and at the end. -/
theorem followDirs_stops (rest : List UInt8) (hrest : ∀ b ∈ rest.head?, b = slash)
    (rounds : Nat) (inode : Int) (entry : Option Int) :
    followDirs (rounds + 2) (some (slash :: rest)) inode entry m = .ok entry m := by
  obtain ⟨hname, hnext⟩ := takeName_stops hrest
  rw [followDirs, hname, hnext]
  rfl

/-- The loop follows the names before the first repeated slash. -/
theorem followDirs_led {find : Nat → List UInt8 → Option Nat} (h : L.Holds m) {d rounds : Nat}
    (hproper : Proper dirs) (hsearched : L.SearchedAlong m find d (followed dirs))
    (entry : Option Int) (hrounds : dirs.length + 2 ≤ rounds) :
    LedThrough m find d (followed dirs) entry
      (followDirs rounds (some (spell dirs ++ [slash])) (L.inodeAt d) entry) := by
  induction dirs generalizing d rounds entry with
  | nil =>
    obtain ⟨rounds, rfl⟩ := Nat.exists_eq_add_of_le' hrounds
    exact .nil (followDirs_stops [] (fun b hb => by cases hb) rounds _ _)
  | cons s dirs ih =>
    obtain ⟨k, name⟩ := s
    have hname := hproper (k, name) List.mem_cons_self
    cases k with
    | succ k =>
      obtain ⟨rounds, rfl⟩ := Nat.exists_eq_add_of_le' (show 2 ≤ rounds by omega)
      exact .nil (followDirs_stops (List.replicate (k + 1) slash ++ name ++ spell dirs ++ [slash])
        (fun b hb => (Option.some.inj hb).symm) rounds _ _)
    | zero =>
      obtain ⟨rounds, rfl⟩ := Nat.exists_eq_add_of_le' (show 1 ≤ rounds by omega)
      rw [List.length_cons] at hrounds
      obtain ⟨rest, hrest⟩ := spell_slash dirs
      have hbytes : spell ((0, name) :: dirs) ++ [slash] = slash :: (name ++ slash :: rest) := by
        rw [← hrest]
        exact congrArg (slash :: ·) (List.append_assoc name (spell dirs) [slash])
      have hfollowed : followed ((0, name) :: dirs) = name :: followed dirs := by
        rw [followed, List.takeWhile_cons_of_pos rfl]
        rfl
      obtain ⟨htake, hnext⟩ := takeName rest hname
      rw [hfollowed] at hsearched ⊢
      obtain ⟨hsearch, hsearched⟩ := hsearched
      have hround : followDirs (rounds + 1) (some (spell ((0, name) :: dirs) ++ [slash]))
          (L.inodeAt d) entry = (do
            let found ← require .undefined (← findSubDirInode name (L.inodeAt d) ext2FtDir)
            let inode ← getInode (toInt (← read (entryInode found) 4))
            followDirs rounds (some (spell dirs ++ [slash])) inode (some found)) := by
        rw [hbytes, followDirs]
        simp only [htake, hnext, hrest, require, pure_bind]
      rw [hround]
      cases hfind : find d name with
      | none =>
        rw [hfind] at hsearch
        refine .cons_none hfind fun r m' hr => ?_
        rw [bind_of_ok hsearch] at hr
        cases hr
      | some p =>
        obtain ⟨hbound, ⟨hlo, hhi⟩, hsearched⟩ := hsearched p hfind
        have hinodes := L.inodes_le
        have hnumber : toInt (m.load p 4) = (m.load p 4 : Nat) := toInt_of_lt (by omega)
        have hled := ih (fun s hs => hproper s (List.mem_cons_of_mem _ hs)) hsearched
          (some (p : Int)) (show dirs.length + 2 ≤ rounds by omega)
        rw [hfind] at hsearch
        refine .cons_some hfind hbound hled ?_
        rw [bind_of_ok hsearch,
          require_bind (show (some p).map Int.ofNat = some (p : Int) from rfl),
          bind_of_ok (read_apply _ (p := p) rfl hbound m), hnumber,
          bind_of_ok (h.getInode ⟨hlo, hhi⟩)]

/-! ## `find_dir_inode` -/

theorem length_spell (dirs : List (Nat × List UInt8)) : dirs.length ≤ (spell dirs).length := by
  induction dirs with
  | nil => exact Nat.le_refl _
  | cons s dirs ih =>
    have hlength : (spell (s :: dirs)).length = s.1 + 1 + s.2.length + (spell dirs).length := by
      rw [spell, List.flatMap_cons, List.length_append, List.length_append, List.length_replicate]
      rfl
    rw [hlength, List.length_cons]
    omega

/-- `get_dir_name` always has room for its slash. -/
theorem Spells.getDirName (h : Spells path (dirs ++ [last]) trailing) :
    getDirName path = some ((if dirs = [] then
      if last.1 = 1 then [slash, slash] else [slash] else spell dirs) ++ [slash]) := by
  have hlength : path.bytes.length =
      (spell dirs).length + (last.1 + 1 + last.2.length) + trailing := by
    rw [h.bytes, spell_append, spell_single]
    simp only [List.length_append, List.length_replicate]
  have hname := List.length_pos_iff.mpr (h.proper last (by simp)).1
  rw [Ext2.getDirName, h.dirname]
  by_cases hroot : dirs = []
  · rw [if_pos hroot]
    by_cases htwo : last.1 = 1
    · rw [if_pos htwo]
      exact if_pos (show 2 < path.bytes.length by omega)
    · rw [if_neg htwo]
      exact if_pos (show 1 < path.bytes.length by omega)
  · rw [if_neg hroot]
    exact if_pos (show (spell dirs).length < path.bytes.length by omega)

/-- `find_dir_inode` follows the names before the first repeated slash. -/
theorem findDirInode_led {find : Nat → List UInt8 → Option Nat} (h : L.Holds m)
    (hinodes : 2 ≤ L.inodes) (hpath : Spells path (dirs ++ [last]) trailing)
    (hsearched : L.SearchedAlong m find 2 (followed dirs)) :
    LedThrough m find 2 (followed dirs) none (findDirInode path) := by
  have hinode : getInode 2 m = .ok (L.inodeAt 2 : Int) m :=
    h.getInode ⟨show 1 ≤ 2 by decide, hinodes⟩
  have hstart : ∀ nDir, getDirName path = some nDir →
      findDirInode path m = followDirs (nDir.length + 2) (some nDir) (L.inodeAt 2) none m :=
    fun nDir hdir => by rw [findDirInode, bind_of_ok hinode, require_bind hdir]
  have hdirName := hpath.getDirName
  by_cases hroot : dirs = []
  · rw [hroot]
    refine ⟨fun _ => ?_, fun hne => absurd rfl hne, fun hmissing => by cases hmissing⟩
    rw [hstart _ hdirName, if_pos hroot]
    by_cases htwo : last.1 = 1
    · rw [if_pos htwo]
      exact followDirs_stops [slash, slash] (fun b hb => (Option.some.inj hb).symm) _ _ _
    · rw [if_neg htwo]
      exact followDirs_stops [slash] (fun b hb => (Option.some.inj hb).symm) _ _ _
  · rw [if_neg hroot] at hdirName
    have hproper : Proper dirs := fun s hs => hpath.proper s (List.mem_append_left _ hs)
    have hlength := length_spell dirs
    have hled := followDirs_led h hproper hsearched none
      (show dirs.length + 2 ≤ (spell dirs ++ [slash]).length + 2 by
        rw [List.length_append]
        omega)
    refine ⟨fun hnil => ?_, fun hne n hn => ?_, fun hmissing => ?_⟩
    · exact (hstart _ hdirName).trans (hled.none_left hnil)
    · obtain ⟨p, hp, hbound, hload⟩ := hled.found hne n hn
      exact ⟨p, (hstart _ hdirName).trans hp, hbound, hload⟩
    · rw [hstart _ hdirName]
      exact hled.missing hmissing

/-- The names on the way hold no NUL. -/
theorem Spells.noNul (h : Spells path (dirs ++ [last]) trailing) :
    ∀ name ∈ followed dirs, (0 : UInt8) ∉ name := by
  intro name hname hzero
  obtain ⟨s, hs, rfl⟩ := List.mem_map.mp hname
  refine path.noNul ?_
  rw [h.bytes, spell_append]
  exact List.mem_append_left _ (List.mem_append_left _ (List.mem_flatMap.mpr
    ⟨s, (List.takeWhile_sublist _).subset hs, List.mem_append_right _ hzero⟩))

end OsAssignments.Ext2
