import OsAssignments.Ext2.Entries
import OsAssignments.Ext2.Removal

/-!
# Reading inside a block

The search of `check_inode_block` with a reader in the place of the accesses to the image. With
`read` it is the search itself. With the reader that is undefined outside a block it returns only
if every byte that it reads lies in that block, and then it returns what the search returns. The
loop goes on behind an entry that differs from the name before the end of what can be read.
-/

namespace OsAssignments.Ext2

open Memory Program

variable {m : Memory} {b fileType : Nat} {name : List UInt8}

/-- A way to read the unsigned field of some bytes at an address. -/
abbrev Reader := Int → Nat → DiskM Nat

/-- `read` in the block at `origin`, undefined outside it. -/
def readWithin (origin : Int) : Reader := fun a n =>
  if origin ≤ a ∧ a + n ≤ origin + blockSize then read a n else Program.stop .undefined

/-- From `lo` on the reader gives the bytes of `m` up to `e` and nothing behind. -/
def Reads (rd : Reader) (m : Memory) (lo e : Nat) : Prop :=
  ∀ (k n v : Nat) (m' : Memory), lo ≤ k →
    (rd k n m = .ok v m' ↔ k + n ≤ e ∧ v = m.load k n ∧ m = m')

theorem reads_read (m : Memory) : Reads read m 0 131072 := by
  intro k n v m' _
  rw [read_ok]
  constructor
  · rintro ⟨p, hp, hin, rfl, rfl⟩
    obtain rfl := Int.ofNat.inj hp
    exact ⟨hin, rfl, rfl⟩
  · rintro ⟨hin, rfl, rfl⟩
    exact ⟨k, rfl, hin, rfl, rfl⟩

theorem reads_readWithin {b : Nat} (hb : b < 128) (m : Memory) :
    Reads (readWithin (b * 1024 : Nat)) m (b * 1024) (b * 1024 + 1024) := by
  intro k n v m' hk
  have hin : ((b * 1024 : Nat) : Int) ≤ k ∧ (k : Int) + n ≤ (b * 1024 : Nat) + blockSize ↔
      k + n ≤ b * 1024 + 1024 := by
    simp only [blockSize]
    omega
  by_cases hend : k + n ≤ b * 1024 + 1024
  · rw [readWithin, if_pos (hin.mpr hend), reads_read m k n v m' (Nat.zero_le k)]
    exact and_congr_left fun _ => iff_of_true (by omega) hend
  · rw [readWithin, if_neg fun h => hend (hin.mp h)]
    refine iff_of_false (fun h => by cases h) fun h => hend h.1

/-! ## The search with a reader -/

def sameStringIn (rd : Reader) (a : Int) : List UInt8 → DiskM Bool
  | [] => do return (← rd a 1) = 0
  | b :: s => do
    if (← rd a 1) ≠ b.toNat then return false
    sameStringIn rd (a + 1) s

def scanEntriesIn (rd : Reader) (origin : Int) (name : List UInt8) (fType : Nat) :
    Nat → Int → DiskM (Option Int)
  | 0, _ => Program.stop .loop
  | rounds + 1, current =>
    if current = origin + blockSize then return none
    else do
      if (← rd (entryFileType current) 1) = fType then
        if ← sameStringIn rd (entryName current) name then return some current
      let recLen ← rd (entryRecLen current) 2
      scanEntriesIn rd origin name fType rounds (current + recLen)

def checkInodeBlockIn (rd : Int → Reader) (block : Int) (name : List UInt8) (fType : Nat) :
    DiskM (Option Int) := do
  let origin := block * blockSize
  if (← rd origin (entryInode origin) 4) = 0 then return none
  scanEntriesIn (rd origin) origin name fType (imageSize + 1) origin

theorem sameStringIn_read (a : Int) (s : List UInt8) : sameStringIn read a s = sameString a s := by
  induction s generalizing a with
  | nil => rfl
  | cons b s ih => rw [sameStringIn, sameString, ih]

theorem scanEntriesIn_read (origin : Int) (name : List UInt8) (fType rounds : Nat)
    (current : Int) : scanEntriesIn read origin name fType rounds current =
      scanEntries origin name fType rounds current := by
  induction rounds generalizing current with
  | zero => rfl
  | succ rounds ih => simp only [scanEntriesIn, scanEntries, sameStringIn_read, ih]

/-- With `read` it is the search. -/
theorem checkInodeBlockIn_read (block : Int) (name : List UInt8) (fType : Nat) :
    checkInodeBlockIn (fun _ => read) block name fType = checkInodeBlock block name fType := by
  rw [checkInodeBlockIn, checkInodeBlock]
  simp only [scanEntriesIn_read]

/-! ## Less reading -/

theorem below_readWithin (origin a : Int) (n : Nat) : Below (readWithin origin a n) (read a n) := by
  intro m v m' h
  rw [readWithin] at h
  split at h
  · exact h
  · cases h

section

variable {rd rd' : Reader} (hrd : ∀ a n, Below (rd a n) (rd' a n))
include hrd

theorem below_sameStringIn (a : Int) (s : List UInt8) :
    Below (sameStringIn rd a s) (sameStringIn rd' a s) := by
  induction s generalizing a with
  | nil => exact .bind (hrd a 1) fun _ => .refl _
  | cons b s ih => exact .bind (hrd a 1) fun _ => .ite (.refl _) (ih _)

theorem below_scanEntriesIn (origin : Int) (name : List UInt8) (fType rounds : Nat)
    (current : Int) : Below (scanEntriesIn rd origin name fType rounds current)
      (scanEntriesIn rd' origin name fType rounds current) := by
  induction rounds generalizing current with
  | zero => exact .refl _
  | succ rounds ih =>
    have hnext := Below.bind (hrd (entryRecLen current) 2) fun recLen => ih (current + recLen)
    exact .ite (.refl _) (.bind (hrd _ 1) fun _ => .ite
      (.bind (below_sameStringIn hrd _ name) fun _ => .ite (.refl _) hnext) hnext)

end

/-- The search that may read nothing outside the block finds what the search finds. -/
theorem below_checkInodeBlockIn (block : Int) (name : List UInt8) (fType : Nat) :
    Below (checkInodeBlockIn readWithin block name fType) (checkInodeBlock block name fType) := by
  rw [← checkInodeBlockIn_read]
  exact .bind (below_readWithin _ _ _) fun _ => .ite (.refl _)
    (below_scanEntriesIn (fun _ _ => below_readWithin _ _ _) _ name fType _ _)

/-! ## Comparing strings -/

/-- The string at `q` differs from `s` before `e`. -/
def Differs (m : Memory) (e : Nat) : Nat → List UInt8 → Prop
  | q, [] => q < e ∧ m q ≠ 0
  | q, c :: s => q < e ∧ (m q ≠ c ∨ Differs m e (q + 1) s)

instance decidableDiffers (m : Memory) (e : Nat) :
    (q : Nat) → (s : List UInt8) → Decidable (Differs m e q s)
  | _, [] => inferInstanceAs (Decidable (_ ∧ _))
  | q, _ :: s =>
    have := decidableDiffers m e (q + 1) s
    inferInstanceAs (Decidable (_ ∧ (_ ∨ _)))

/-- The string at `q` is `s`, with its NUL before `e`. -/
def Agrees (m : Memory) (e q : Nat) (s : List UInt8) : Prop :=
  q + s.length < e ∧ m.bytes q s.length = s ∧ m (q + s.length) = 0

instance (e q : Nat) (s : List UInt8) : Decidable (Agrees m e q s) :=
  inferInstanceAs (Decidable (_ ∧ _ ∧ _))

theorem agrees_cons {e q : Nat} {c : UInt8} {s : List UInt8} :
    Agrees m e q (c :: s) ↔ q < e ∧ m q = c ∧ Agrees m e (q + 1) s := by
  rw [Agrees, Agrees, List.length_cons, bytes_succ, List.cons.injEq,
    show q + (s.length + 1) = q + 1 + s.length by omega]
  constructor
  · rintro ⟨hin, ⟨hc, hs⟩, hzero⟩
    exact ⟨by omega, hc, hin, hs, hzero⟩
  · rintro ⟨-, hc, hin, hs, hzero⟩
    exact ⟨hin, ⟨hc, hs⟩, hzero⟩

/-- A search for the name that reads up to `e` goes on behind the entry at `p`. -/
def Passes (m : Memory) (e fileType : Nat) (name : List UInt8) (p : Nat) : Prop :=
  m.load (p + 7) 1 = fileType → Differs m e (p + 8) name

instance (e p : Nat) : Decidable (Passes m e fileType name p) :=
  inferInstanceAs (Decidable (_ → _))

section

variable {rd : Reader} {lo e : Nat} (hrd : Reads rd m lo e)
include hrd

theorem Reads.bind_ok {α : Type} {k n : Nat} {f : Nat → DiskM α} {r : α} {m' : Memory}
    (hk : lo ≤ k) : (rd k n >>= f) m = .ok r m' ↔ k + n ≤ e ∧ f (m.load k n) m = .ok r m' := by
  rw [Program.bind_ok]
  constructor
  · rintro ⟨v, u, hread, h⟩
    obtain ⟨hin, rfl, rfl⟩ := (hrd k n v u hk).mp hread
    exact ⟨hin, h⟩
  · rintro ⟨hin, h⟩
    exact ⟨_, m, (hrd k n _ m hk).mpr ⟨hin, rfl, rfl⟩, h⟩

/-- A comparison returns when it meets a difference or the end of both strings before `e`. -/
theorem sameStringIn_ok {q : Nat} (hq : lo ≤ q) {s : List UInt8} {r : Bool} {m' : Memory} :
    sameStringIn rd q s m = .ok r m' ↔
      m = m' ∧ (r = true ∧ Agrees m e q s ∨ r = false ∧ Differs m e q s) := by
  induction s generalizing q with
  | nil =>
    rw [sameStringIn, hrd.bind_ok hq, load_one]
    by_cases hzero : m q = 0
    · have hsame : decide ((m q).toNat = 0) = true := decide_eq_true (congrArg UInt8.toNat hzero)
      rw [hsame]
      constructor
      · rintro ⟨hin, h⟩
        cases h
        exact ⟨rfl, .inl ⟨rfl, hin, rfl, hzero⟩⟩
      · rintro ⟨rfl, ⟨rfl, hin, -⟩ | ⟨-, -, hne⟩⟩
        · exact ⟨hin, rfl⟩
        · exact absurd hzero hne
    · have hsame : decide ((m q).toNat = 0) = false :=
        decide_eq_false fun h => hzero (UInt8.toNat_inj.mp h)
      rw [hsame]
      constructor
      · rintro ⟨hin, h⟩
        cases h
        exact ⟨rfl, .inr ⟨rfl, hin, hzero⟩⟩
      · rintro ⟨rfl, ⟨-, -, -, h⟩ | ⟨rfl, hin, -⟩⟩
        · exact absurd h hzero
        · exact ⟨hin, rfl⟩
  | cons c s ih =>
    rw [sameStringIn, hrd.bind_ok hq, load_one, agrees_cons, Differs]
    by_cases hc : m q = c
    · rw [if_neg (not_not.mpr (congrArg UInt8.toNat hc)), ← Int.natCast_one, ← Int.natCast_add,
        ih (Nat.le_succ_of_le hq)]
      constructor
      · rintro ⟨hin, rfl, ⟨rfl, hagrees⟩ | ⟨rfl, hdiffers⟩⟩
        · exact ⟨rfl, .inl ⟨rfl, hin, hc, hagrees⟩⟩
        · exact ⟨rfl, .inr ⟨rfl, hin, .inr hdiffers⟩⟩
      · rintro ⟨rfl, ⟨rfl, hin, -, hagrees⟩ | ⟨rfl, hin, hne | hdiffers⟩⟩
        · exact ⟨hin, rfl, .inl ⟨rfl, hagrees⟩⟩
        · exact absurd hc hne
        · exact ⟨hin, rfl, .inr ⟨rfl, hdiffers⟩⟩
    · rw [if_pos fun h => hc (UInt8.toNat_inj.mp h)]
      constructor
      · rintro ⟨hin, h⟩
        cases h
        exact ⟨rfl, .inr ⟨rfl, hin, .inl hc⟩⟩
      · rintro ⟨rfl, ⟨-, -, h, -⟩ | ⟨rfl, hin, -⟩⟩
        · exact absurd h hc
        · exact ⟨hin, rfl⟩

/-! ## One round -/

/-- A round takes the entry at `p` when it has the type and agrees with the name, and goes on when
the entry passes. -/
theorem scanEntriesIn_ok {a p r : Nat} (hp : lo ≤ p) {found : Option Int} :
    scanEntriesIn rd a name fileType (r + 1) p m = .ok found m ↔
      if p = a + 1024 then found = none
      else p + 8 ≤ e ∧
        (m.load (p + 7) 1 = fileType ∧ Agrees m e (p + 8) name ∧ found = some (p : Int) ∨
          Passes m e fileType name p ∧
            scanEntriesIn rd a name fileType r (p + m.load (p + 4) 2 : Nat) m = .ok found m) := by
  rw [scanEntriesIn]
  by_cases hend : p = a + 1024
  · rw [if_pos hend, hend, if_pos (Int.natCast_add a 1024)]
    constructor
    · intro h
      cases h
      rfl
    · rintro rfl
      rfl
  · have hne : ¬ (p : Int) = a + blockSize := by
      simp only [blockSize]
      omega
    have hnext : p + 8 ≤ e → ((do
        let recLen ← rd (entryRecLen p) 2
        scanEntriesIn rd a name fileType r (p + (recLen : Int)) : DiskM (Option Int)) m =
          .ok found m ↔
            scanEntriesIn rd a name fileType r (p + m.load (p + 4) 2 : Nat) m = .ok found m) := by
      intro hin
      rw [show entryRecLen p = (p + 4 : Nat) from rfl, hrd.bind_ok (by omega), ← Int.natCast_add]
      exact and_iff_right (by omega)
    have hsame := @sameStringIn_ok m rd lo e hrd (p + 8) (Nat.le_add_right_of_le hp) name
    rw [if_neg hend, if_neg hne]
    change (rd (p + 7 : Nat) 1 >>= _) m = _ ↔ _
    rw [hrd.bind_ok (by omega), Passes]
    refine and_congr_right fun hin => ?_
    rw [← hnext hin]
    by_cases htype : m.load (p + 7) 1 = fileType
    · rw [if_pos htype, Program.bind_ok]
      constructor
      · rintro ⟨same, u, h, hthen⟩
        obtain ⟨rfl, ⟨rfl, hagrees⟩ | ⟨rfl, hdiffers⟩⟩ := hsame.mp h
        · rw [if_pos rfl] at hthen
          cases hthen
          exact .inl ⟨htype, hagrees, rfl⟩
        · rw [if_neg Bool.false_ne_true] at hthen
          exact .inr ⟨fun _ => hdiffers, hthen⟩
      · rintro (⟨-, hagrees, rfl⟩ | ⟨hpasses, h⟩)
        · exact ⟨true, m, hsame.mpr ⟨rfl, .inl ⟨rfl, hagrees⟩⟩, rfl⟩
        · refine ⟨false, m, hsame.mpr ⟨rfl, .inr ⟨rfl, hpasses htype⟩⟩, ?_⟩
          rw [if_neg Bool.false_ne_true]
          exact h
    · rw [if_neg htype]
      constructor
      · intro h
        exact .inr ⟨fun h => absurd h htype, h⟩
      · rintro (⟨h, -⟩ | ⟨-, h⟩)
        · exact absurd h htype
        · exact h

end

/-! ## The loop -/

/-- What the loop over the entries of a block finds: the first one that has the type and agrees
with the name, where those before it pass. -/
def Finds (m : Memory) (fileType : Nat) (name : List UInt8) : List Nat → Option Nat → Prop
  | [], found => found = none
  | p :: ps, found =>
    m.load (p + 7) 1 = fileType ∧ Agrees m 131072 (p + 8) name ∧ found = some p ∨
      Passes m 131072 fileType name p ∧ Finds m fileType name ps found

theorem map_ofNat_eq_some {found : Option Nat} {p : Nat} :
    found.map Int.ofNat = some (p : Int) ↔ found = some p := by
  rw [Option.map_eq_some_iff]
  constructor
  · rintro ⟨q, rfl, hq⟩
    exact congrArg some (Int.ofNat.inj hq)
  · rintro rfl
    exact ⟨p, rfl, rfl⟩

theorem scanEntries_ok {rounds offset : Nat} {offsets : List Nat} (hb : b < 128)
    (h : chain m b rounds offset = some offsets) {r : Nat} (hr : rounds ≤ r)
    {found : Option Nat} :
    scanEntries (b * 1024 : Nat) name fileType r (b * 1024 + offset : Nat) m =
      .ok (found.map Int.ofNat) m ↔ Finds m fileType name (offsets.map (b * 1024 + ·)) found := by
  rw [← scanEntriesIn_read]
  induction rounds generalizing offset offsets r with
  | zero => cases h
  | succ rounds ih =>
    obtain ⟨r, rfl⟩ := Nat.exists_eq_add_of_le' hr
    rw [← Nat.add_assoc, scanEntriesIn_ok (reads_read m) (Nat.zero_le _)]
    rcases chain_succ h with ⟨rfl, rfl⟩ | ⟨hend, hentry, rest, hrest, rfl⟩
    · rw [if_pos rfl, List.map_nil, Finds, Option.map_eq_none_iff]
    · rw [if_neg fun h => hend (Nat.add_left_cancel h), List.map_cons, Finds, map_ofNat_eq_some,
        Nat.add_assoc (b * 1024) offset (m.load (b * 1024 + offset + 4) 2), ih hrest (by omega)]
      exact and_iff_right (by omega)

theorem Finds.mem {ps : List Nat} {p : Nat} (h : Finds m fileType name ps (some p)) : p ∈ ps := by
  induction ps with
  | nil => cases h
  | cons q ps ih =>
    rcases h with ⟨-, -, h⟩ | ⟨-, h⟩
    · exact List.mem_cons.mpr (.inl (Option.some.inj h))
    · exact List.mem_cons_of_mem q (ih h)

/-- A block is searched unless it begins with a deleted entry. -/
theorem checkInodeBlock_eq (hb : b < 128) : checkInodeBlock b name fileType m =
    if m.load (b * 1024) 4 = 0 then .ok none m
    else scanEntries (b * 1024 : Nat) name fileType (imageSize + 1) (b * 1024 : Nat) m := by
  have horigin : (b : Int) * (blockSize : Int) = (b * 1024 : Nat) := by
    simp only [blockSize]
    omega
  rw [checkInodeBlock, horigin, bind_of_ok (read_apply _ (p := b * 1024)
    (by simp only [entryInode]) (by omega) m)]
  by_cases hzero : m.load (b * 1024) 4 = 0
  · rw [if_pos hzero, if_pos hzero]
    rfl
  · rw [if_neg hzero, if_neg hzero]

/-- On a block with a chain of entries the loop finds what it finds among them. -/
theorem scanBlock_ok {offsets : List Nat} (hb : b < 128) (h : chain m b 129 0 = some offsets)
    {found : Option Nat} :
    scanEntries (b * 1024 : Nat) name fileType (imageSize + 1) (b * 1024 : Nat) m =
      .ok (found.map Int.ofNat) m ↔ Finds m fileType name (offsets.map (b * 1024 + ·)) found := by
  have hrounds : 129 ≤ imageSize + 1 := by
    simp only [imageSize]
    omega
  generalize imageSize + 1 = rounds at hrounds
  have hscan := @scanEntries_ok m b fileType name 129 0 offsets hb h rounds hrounds found
  rwa [Nat.add_zero] at hscan

end OsAssignments.Ext2
