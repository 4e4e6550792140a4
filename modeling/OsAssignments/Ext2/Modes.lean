import OsAssignments.Ext2.StepToTarget

/-!
# The two modes of `step_to_target`

With flag 1 the walk stops at the index of the last component, with flag 0 at the end of the
path. On a path and on the path without its last component these are the same index, and no name
of an entry reaches across the slash in front of it. Both are compared with the index only after
an entry has been consumed, so that the walk with flag 1 never stops at a last component that
the path starts with.
-/

namespace OsAssignments.Ext2

open Memory Program

variable {L : Layout} {m : Memory} {path parent : CString} {names : List (List UInt8)}
  {last : List UInt8}

/-- The names in the directories of an image are not empty and hold no slash. -/
def ProperNames (L : Layout) (m : Memory) : Prop :=
  ∀ d, L.inUse m d = true → L.isDirectory m d = true → ∀ p ∈ L.entries m d,
    entryNameAt m p ≠ [] ∧ slash ∉ entryNameAt m p

/-- `step_to_target` with flag 1 on a path returns what it returns with flag 0 on the parent. -/
def ModesAgree (m : Memory) (path parent : CString) : Prop :=
  stepToTarget path true m = stepToTarget parent false m

/-! ## A path and its parent -/

/-- A name without slashes does not reach across a slash. -/
theorem prefix_append_slash {name : List UInt8} (hname : slash ∉ name) (rest tail : List UInt8) :
    name <+: rest ++ slash :: tail ↔ name <+: rest := by
  induction rest generalizing name with
  | nil =>
    cases name with
    | nil => exact iff_of_true List.nil_prefix List.nil_prefix
    | cons c name =>
      have hc := List.ne_of_not_mem_cons hname
      rw [List.nil_append, List.cons_prefix_cons, List.prefix_nil]
      exact iff_of_false (fun h => hc h.1.symm) (List.cons_ne_nil c name)
  | cons b rest ih =>
    cases name with
    | nil => exact iff_of_true List.nil_prefix List.nil_prefix
    | cons c name =>
      rw [List.cons_append, List.cons_prefix_cons, List.cons_prefix_cons,
        ih (List.not_mem_of_not_mem_cons hname)]

/-- The path ends in its last component. -/
theorem names_of_spells (hpath : Spells path ((names ++ [last]).map fun name => (0, name)) 0) :
    Names path (spell (names.map fun name => (0, name))) last := by
  have hproper := hpath.proper (0, last) (List.mem_map.mpr
    ⟨last, List.mem_append_right names (List.mem_singleton_self last), rfl⟩)
  refine ⟨?_, hproper.1, hproper.2⟩
  rw [hpath.bytes, List.map_append, spell_append, List.replicate_zero, List.append_nil,
    List.map_singleton, spell_single]
  rfl

/-! ## A last component that is the first -/

/-- The walk with flag 1 does not stop once it has reached the index where it should. -/
theorem OneBlockDirectories.walk_never (h : OneBlockDirectories L m) (hnames : ProperNames L m)
    {d : Nat} (hused : L.inUse m d = true) (hdir : L.isDirectory m d = true)
    {indices : ThreeIndices} {start : Int} (hstart : 0 ≤ start)
    (hlast : indices.lastChar < path.bytes.length) (hpast : indices.lastDir ≤ start) {r : Nat}
    (hr : (path.rest start indices.lastChar).length < r) :
    walk path indices true r (L.inodeAt d) start m = .ok none m := by
  induction r generalizing d start with
  | zero => omega
  | succ r ih =>
    rw [walk]
    rcases h.searchInode_eq hused hdir hstart hlast rfl with
      ⟨-, hsearch⟩ | ⟨o, hfind, hfits, hsearch⟩
    · rw [bind_of_ok hsearch]
      rfl
    · obtain ⟨-, -, hb, -⟩ := h.entries_eq hused hdir
      have hmem := List.mem_of_find?_eq_some hfind
      obtain ⟨hin, hisdir⟩ := h.named d hused hdir _ hmem
      have hmatch := List.find?_some hfind
      simp only [isDirPrefix, Bool.and_eq_true, decide_eq_true_iff] at hmatch
      obtain ⟨htype, hprefix⟩ := hmatch
      have hpos := List.length_pos_iff.mpr (hnames d hused hdir _ hmem).1
      have hle := hprefix.length_le
      rw [entryNameAt, length_bytes] at hpos hle
      have hnumber := readEntry_apply (m := m) hb (show o + 0 + 4 ≤ 1024 by omega)
      have hnameLen := readEntry_apply (m := m) hb (show o + 6 + 1 ≤ 1024 by omega)
      obtain ⟨hlo, hhi, -⟩ := Layout.inUse_iff.mp hin
      have hinodes := L.inodes_le
      have he : toInt (m.load (L.word m d 0 * 1024 + o) 4) =
          (m.load (L.word m d 0 * 1024 + o) 4 : Nat) := toInt_of_lt (by omega)
      rw [Nat.add_zero] at hnumber
      have hdrop := @CString.rest_add path _ hstart
        (m.load (L.word m d 0 * 1024 + o + 6) 1 + 1) indices.lastChar
      rw [Int.natCast_add, ← Int.add_assoc] at hdrop
      rw [bind_of_ok hsearch]
      change (readEntry (L.word m d 0 * 1024 : Nat) o 0 4 >>= _) m = _
      rw [bind_of_ok hnumber, he, bind_of_ok (h.holds.getInode ⟨hlo, by omega⟩),
        bind_of_ok hnameLen, if_pos rfl, if_neg (by omega)]
      refine ih hin (hisdir htype) (by omega) (by omega) ?_
      rw [Int.natCast_one] at hdrop
      rw [hdrop, List.length_drop]
      omega

/-! ## The two modes -/

/-- A path that ends in a name is walked from the root. -/
theorem stepToTarget_names (h : OneBlockDirectories L m) {above : List UInt8}
    (hpath : Names path above last) : stepToTarget path true m =
      walk path ⟨1, (above.length + last.length : Nat), (above.length + 1 : Nat)⟩ true (2 ^ 31)
        (L.inodeAt 2) 1 m := by
  obtain ⟨hlo, hhi, -⟩ := Layout.inUse_iff.mp h.root.1
  have hinode : getInode 2 m = .ok (L.inodeAt 2 : Int) m := h.holds.getInode ⟨hlo, by omega⟩
  rw [stepToTarget, require_bind hpath.generatePosition, bind_of_ok hinode,
    if_neg (show ¬ (1 : Int) = -1 by decide)]

/-- With flag 1 nothing is found for a path of one component. -/
theorem stepToTarget_single (h : OneBlockDirectories L m) (hnames : ProperNames L m)
    (hpath : Names path [] last) (hlength : path.bytes.length < 2 ^ 31) :
    stepToTarget path true m = .ok none m := by
  have hlong := hpath.length
  rw [List.length_nil] at hlong
  have hrounds : (path.rest 1 (0 + last.length : Nat)).length < 2 ^ 31 := by
    rw [CString.rest, List.length_drop, List.length_take]
    omega
  rw [stepToTarget_names h hpath]
  generalize 2 ^ 31 = rounds at hrounds
  exact h.walk_never hnames h.root.1 h.root.2 (Int.le_of_lt Int.one_pos)
    (show ((0 + last.length : Nat) : Int) < path.bytes.length by omega) (Int.le_refl 1) hrounds

/-- With flag 1 the walk is the loose one to the parent. -/
theorem stepToTarget_parent (h : OneBlockDirectories L m) (hnames : ProperNames L m)
    (hne : names ≠ []) (hpath : Names path (spell (names.map fun name => (0, name))) last)
    (hlength : path.bytes.length < 2 ^ 31) :
    stepToTarget path true m = .ok ((L.loosely m ((joined names).length + 1) 2 (joined names)).map
      fun n => ⟨L.inodeAt n, n⟩) m := by
  have habove : spell (names.map fun name => (0, name)) = slash :: joined names := by
    obtain ⟨name, names, rfl⟩ := List.exists_cons_of_ne_nil hne
    exact spell_names
  rw [habove] at hpath
  have hlong := hpath.length
  rw [List.length_cons] at hlong
  have hrest : path.rest 1 ((slash :: joined names).length + last.length : Nat) =
      joined names ++ slash :: last := by
    rw [CString.rest, List.take_of_length_le (by rw [List.length_cons]; omega), hpath.split]
    rfl
  have hrounds : (joined names).length < 2 ^ 31 := by omega
  rw [stepToTarget_names h hpath]
  generalize 2 ^ 31 = rounds at hrounds
  refine h.walk_eq h.root.1 h.root.2 (fun d hused hdir p hp rest =>
    prefix_append_slash (hnames d hused hdir p hp).2 rest last) (Int.le_of_lt Int.one_pos)
    (show (((slash :: joined names).length + last.length : Nat) : Int) < path.bytes.length by
      rw [List.length_cons]; omega) hrest ?_ hrounds (Nat.lt_succ_self _)
  change (((joined names).length + 1 + 1 : Nat) : Int) = 1 + (joined names).length + 1
  omega

/-- The two modes agree exactly on the paths of more than one component. -/
theorem modesAgree_iff (h : OneBlockDirectories L m) (hnames : ProperNames L m)
    (hpath : Spells path ((names ++ [last]).map fun name => (0, name)) 0)
    (hparent : Spells parent (names.map fun name => (0, name)) (if names = [] then 1 else 0))
    (hlength : path.bytes.length < 2 ^ 31) : ModesAgree m path parent ↔ names ≠ [] := by
  have hsplit := names_of_spells hpath
  have hlong := hsplit.length
  have htrailing : (if names = [] then 1 else 0) ≤ 1 := by split <;> omega
  have hbytes := hparent.bytes
  have hshort : parent.bytes.length < 2 ^ 31 := by
    have hpos := hsplit.length_pos
    rw [hbytes, List.length_append, List.length_replicate]
    omega
  have hempty : parent.bytes ≠ [] := by
    rw [hbytes]
    cases names with
    | nil => exact List.cons_ne_nil _ _
    | cons name names => exact List.cons_ne_nil _ _
  rw [ModesAgree, stepToTarget_eq h hparent htrailing hempty hshort]
  by_cases hroot : names = []
  · subst hroot
    rw [stepToTarget_single h hnames hsplit hlength]
    exact iff_of_false (fun heq => by cases heq) (not_not.mpr rfl)
  · rw [if_neg hroot, stepToTarget_parent h hnames hroot hsplit hlength]
    exact iff_of_true rfl hroot

/-! ## Two paths in the sample image -/

theorem properNames_sample : ProperNames sampleLayout (sample false) := by
  intro d hused hdir
  rcases directories_sample false hused hdir with rfl | rfl <;> decide +kernel

/-- The modes agree on `/a/f`. -/
theorem modesAgree_sample : ModesAgree (sample false) afPath aPath :=
  (@modesAgree_iff _ _ _ _ [[0x61]] [0x66] oneBlockDirectories_sample properNames_sample
    ⟨rfl, by decide⟩ ⟨rfl, by decide⟩ (by decide)).mpr (by decide)

/-- The modes do not agree on `/a`, whose parent is the root. -/
theorem not_modesAgree : OneBlockDirectories sampleLayout (sample false) ∧
    ProperNames sampleLayout (sample false) ∧
    Spells aPath ([[0x61]].map fun name => (0, name)) 0 ∧ Spells rootPath [] 1 ∧
    ¬ ModesAgree (sample false) aPath rootPath := by
  refine ⟨oneBlockDirectories_sample, properNames_sample, ⟨rfl, by decide⟩, ⟨rfl, by decide⟩,
    fun h => ?_⟩
  have hnone : holds (stepToTarget aPath true (sample false)) (fun found _ => found.isNone) =
      true := by decide +kernel
  have hsome : holds (stepToTarget rootPath false (sample false)) (fun found _ => found.isNone) =
      false := by decide +kernel
  rw [h, hsome] at hnone
  exact Bool.false_ne_true hnone

end OsAssignments.Ext2
