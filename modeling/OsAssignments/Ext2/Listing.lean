import OsAssignments.Ext2.Entries
import OsAssignments.Ext2.Unlink
import OsAssignments.Library.Chain

/-!
# Listing a directory block

A listing shows the live entries of a block in the order of the `rec_len` chain. Adding the
length of one entry to the length of another redirects one link of the chain. The listing loses
exactly the first of the two when the other lies just that length before it, with no live entry
in between, and the longer entry leads back to the live entries that followed.
-/

namespace OsAssignments.Ext2

open Memory

variable {L : Layout} {m m' : Memory} {b o r k : Nat} {offsets : List Nat}

/-! ## The chain of a block -/

/-- Where a sound entry leads. -/
def nextEntry (m : Memory) (b offset : Nat) : Option Nat :=
  let recLen := m.load (b * 1024 + offset + 4) 2
  if offset % 4 = 0 ∧ offset + 8 ≤ 1024 ∧ recLen % 4 = 0 ∧
      8 + m.load (b * 1024 + offset + 6) 1 ≤ recLen then some (offset + recLen)
  else none

theorem nextEntry_eq_some {z : Nat} : nextEntry m b o = some z ↔
    (o % 4 = 0 ∧ o + 8 ≤ 1024 ∧ m.load (b * 1024 + o + 4) 2 % 4 = 0 ∧
      8 + m.load (b * 1024 + o + 6) 1 ≤ m.load (b * 1024 + o + 4) 2) ∧
        o + m.load (b * 1024 + o + 4) 2 = z := by
  simp only [nextEntry, Option.ite_none_right_eq_some, Option.some.injEq]

theorem nextEntry_stop : nextEntry m b 1024 = none := by
  simp only [nextEntry]
  exact if_neg (by omega)

theorem nextEntry_lt (x z : Nat) (h : nextEntry m b x = some z) : x < z := by
  obtain ⟨hentry, rfl⟩ := nextEntry_eq_some.mp h
  omega

/-- A chain has at most one entry for every 8 bytes. -/
theorem length_le_of_chain (h : Chain (nextEntry m b) 1024 o offsets) :
    o + 8 * offsets.length ≤ 1024 := by
  induction offsets generalizing o with
  | nil =>
    obtain rfl : o = 1024 := h
    exact Nat.le_refl _
  | cons x offsets ih =>
    obtain ⟨rfl, z, hz, h⟩ := h
    have hrest := ih h
    obtain ⟨hentry, rfl⟩ := nextEntry_eq_some.mp hz
    rw [List.length_cons]
    omega

theorem entryOffsets_iff_chain {rounds : Nat} (ho : o % 4 = 0) :
    entryOffsets m b rounds o = some offsets ↔
      Chain (nextEntry m b) 1024 o offsets ∧ offsets.length < rounds := by
  induction rounds generalizing o offsets with
  | zero =>
    rw [entryOffsets]
    simp only [reduceCtorEq, Nat.not_lt_zero, and_false]
  | succ rounds ih =>
    by_cases hend : o = 1024
    · rw [entryOffsets, if_pos hend, Option.some.injEq]
      constructor
      · rintro rfl
        exact ⟨hend, Nat.succ_pos rounds⟩
      · rintro ⟨h, -⟩
        have hlength := length_le_of_chain h
        exact (List.length_eq_zero_iff.mp (by omega)).symm
    · rw [entryOffsets, if_neg hend]
      by_cases hentry : o + 8 ≤ 1024 ∧ m.load (b * 1024 + o + 4) 2 % 4 = 0 ∧
          8 + m.load (b * 1024 + o + 6) 1 ≤ m.load (b * 1024 + o + 4) 2
      · have hnext : nextEntry m b o = some (o + m.load (b * 1024 + o + 4) 2) :=
          nextEntry_eq_some.mpr ⟨⟨ho, hentry⟩, rfl⟩
        have hrest := fun rest => @ih (o + m.load (b * 1024 + o + 4) 2) rest (by omega)
        rw [if_pos hentry, Option.map_eq_some_iff]
        constructor
        · rintro ⟨rest, hoffsets, rfl⟩
          obtain ⟨hchain, hlt⟩ := (hrest rest).mp hoffsets
          exact ⟨⟨rfl, _, hnext, hchain⟩, Nat.succ_lt_succ hlt⟩
        · rintro ⟨hchain, hlt⟩
          cases offsets with
          | nil => exact absurd hchain hend
          | cons x rest =>
            obtain ⟨rfl, z, hz, hchain⟩ := hchain
            obtain rfl := Option.some.inj (hz.symm.trans hnext)
            exact ⟨rest, (hrest rest).mpr ⟨hchain, Nat.lt_of_succ_lt_succ hlt⟩, rfl⟩
      · rw [if_neg hentry]
        constructor
        · intro h
          cases h
        · rintro ⟨hchain, -⟩
          cases offsets with
          | nil => exact absurd hchain hend
          | cons x rest =>
            obtain ⟨rfl, z, hz, -⟩ := hchain
            exact absurd (nextEntry_eq_some.mp hz).1.2 hentry

/-- The entries of a sound block form a chain. -/
theorem entryOffsets_iff (ho : o % 4 = 0) : entryOffsets m b 129 o = some offsets ↔
    Chain (nextEntry m b) 1024 o offsets := by
  rw [entryOffsets_iff_chain ho, and_iff_left_iff_imp]
  intro h
  have hlength := length_le_of_chain h
  omega

/-! ## Listings -/

/-- A live entry as a listing shows it. -/
structure Record where
  position : Nat
  inode : Nat
  fileType : Nat
  name : List UInt8
  deriving DecidableEq

/-- The entry at an offset of a block. -/
def recordAt (m : Memory) (b offset : Nat) : Record where
  position := b * 1024 + offset
  inode := m.load (b * 1024 + offset) 4
  fileType := m.load (b * 1024 + offset + 7) 1
  name := nameAt m b offset

/-- The live entries of a block in order, if its chain is sound. -/
def listing (m : Memory) (b : Nat) : Option (List Record) :=
  (entryOffsets m b 129 0).map fun offsets => (offsets.filter (liveAt m b)).map (recordAt m b)

/-- A listing without the entry at `position`. -/
def without (position : Nat) (records : List Record) : List Record :=
  records.filter (·.position ≠ position)

theorem recordAt_congr (h : ∀ a, a / 1024 = b → m' a = m a)
    (ho : o + 8 + m.load (b * 1024 + o + 6) 1 ≤ 1024) :
    recordAt m' b o = recordAt m b o ∧ liveAt m' b o = liveAt m b o := by
  have hload : ∀ i k, i + k ≤ 8 →
      m'.load (b * 1024 + o + i) k = m.load (b * 1024 + o + i) k := load_header h (by omega)
  have hnumber := hload 0 4 (by decide)
  rw [Nat.add_zero] at hnumber
  have hname : nameAt m' b o = nameAt m b o := by
    rw [nameAt, nameAt, hload 6 1 (by decide)]
    exact bytes_congr fun j hj => h _ (by omega)
  rw [recordAt, recordAt, liveAt, liveAt, hnumber, hload 7 1 (by decide), hname]
  exact ⟨rfl, rfl⟩

/-- The listing of a block depends on its bytes only. -/
theorem listing_congr (h : ∀ a, a / 1024 = b → m' a = m a) : listing m' b = listing m b := by
  rw [listing, listing, entryOffsets_congr h]
  cases hoffsets : entryOffsets m b 129 0 with
  | none => rfl
  | some offsets =>
    have hrecord : ∀ o ∈ offsets, recordAt m' b o = recordAt m b o ∧ liveAt m' b o = liveAt m b o :=
      fun o ho => recordAt_congr h (fits_of_entryOffsets hoffsets ho)
    have hlive : offsets.filter (liveAt m' b) = offsets.filter (liveAt m b) :=
      List.filter_congr fun o ho => (hrecord o ho).2
    rw [Option.map_some, Option.map_some, hlive]
    exact congrArg some (List.map_congr_left fun o ho =>
      (hrecord o (List.mem_filter.mp ho).1).1)

/-- Taking the entry at `o` out of a listing takes its offset out of the list. -/
theorem without_map (offsets : List Nat) :
    without (b * 1024 + o) (offsets.map (recordAt m b)) =
      (offsets.filter (· ≠ o)).map (recordAt m b) := by
  rw [without, List.filter_map]
  congr 1
  exact List.filter_congr fun x _ => by simp [recordAt]

/-- A list of records gives the offsets. -/
theorem eq_of_map_recordAt {xs ys : List Nat}
    (h : xs.map (recordAt m' b) = ys.map (recordAt m b)) : xs = ys := by
  have hpositions := congrArg (List.map (·.position)) h
  rw [List.map_map, List.map_map] at hpositions
  exact List.map_injective_iff.mpr (fun x y hxy => Nat.add_left_cancel hxy) hpositions

/-! ## Adding one length to another -/

/-- The link of an entry depends on its own length. -/
theorem nextEntry_lengthen {g : Nat} (hg : g % 4 = 0) (hne : g ≠ b * 1024 + o + 4) :
    nextEntry (lengthen m g k) b o = nextEntry m b o := by
  by_cases ho : o % 4 = 0
  · have hrec : (lengthen m g k).load (b * 1024 + o + 4) 2 = m.load (b * 1024 + o + 4) 2 :=
      load_store_of_disjoint (by omega)
    have hlen : (lengthen m g k).load (b * 1024 + o + 6) 1 = m.load (b * 1024 + o + 6) 1 :=
      load_store_of_disjoint (by omega)
    simp only [nextEntry, hrec, hlen]
  · simp only [nextEntry, ho, false_and, ite_false]

/-- A longer entry leads further. -/
theorem nextEntry_lengthen_self {z : Nat} (hr : nextEntry m b r = some z) (hk : k % 4 = 0)
    (hsum : m.load (b * 1024 + r + 4) 2 + k < 65536) :
    nextEntry (lengthen m (b * 1024 + r + 4) k) b r = some (z + k) := by
  obtain ⟨hentry, rfl⟩ := nextEntry_eq_some.mp hr
  have hrec : (lengthen m (b * 1024 + r + 4) k).load (b * 1024 + r + 4) 2 =
      m.load (b * 1024 + r + 4) 2 + k := by
    rw [lengthen, load_store_same]
    omega
  have hlen : (lengthen m (b * 1024 + r + 4) k).load (b * 1024 + r + 6) 1 =
      m.load (b * 1024 + r + 6) 1 := load_store_of_disjoint (by omega)
  rw [nextEntry_eq_some, hrec, hlen]
  omega

/-- The longer entry of a chain redirects its link, and nothing else. -/
theorem entryOffsets_lengthen {before tail xs : List Nat}
    (h : entryOffsets m b 129 0 = some (before ++ r :: tail)) (hk : k % 4 = 0)
    (hle : k ≤ 1024) : entryOffsets (lengthen m (b * 1024 + r + 4) k) b 129 0 = some xs ↔
      ∃ rest, xs = before ++ r :: rest ∧
        entryOffsets m b 129 (r + m.load (b * 1024 + r + 4) 2 + k) = some rest := by
  obtain ⟨h4, hrec4, -, hend⟩ := aligned_of_entryOffsets h (Nat.zero_mod 4) r
    (List.mem_append_right before List.mem_cons_self)
  have hchain := (entryOffsets_iff (Nat.zero_mod 4)).mp h
  obtain ⟨-, -, z, hz, -⟩ := chain_append.mp hchain
  obtain ⟨hentry, rfl⟩ := nextEntry_eq_some.mp hz
  have hupdate : nextEntry (lengthen m (b * 1024 + r + 4) k) b = Function.update (nextEntry m b) r
      (some (r + m.load (b * 1024 + r + 4) 2 + k)) := by
    funext x
    by_cases hx : x = r
    · rw [hx, Function.update_self, nextEntry_lengthen_self hz hk (by omega)]
    · rw [Function.update_of_ne hx, nextEntry_lengthen (by omega) (by omega)]
  rw [entryOffsets_iff (Nat.zero_mod 4), hupdate, hchain.redirect_iff nextEntry_stop]
  refine exists_congr fun rest => and_congr_right fun _ => ?_
  rw [entryOffsets_iff (by omega), and_iff_right_iff_imp]
  intro hrest hr
  have hge := (hrest.pairwise nextEntry_lt).1 r hr
  omega

/-- A store that misses the inode, the type and the name of an entry. -/
theorem recordAt_lengthen {g : Nat} (h : g + 2 ≤ b * 1024 + o ∨ g = b * 1024 + o + 4 ∨
    b * 1024 + o + 8 + m.load (b * 1024 + o + 6) 1 ≤ g) :
    recordAt (lengthen m g k) b o = recordAt m b o ∧
      liveAt (lengthen m g k) b o = liveAt m b o := by
  have hnumber : (lengthen m g k).load (b * 1024 + o) 4 = m.load (b * 1024 + o) 4 :=
    load_store_of_disjoint (by omega)
  have htype : (lengthen m g k).load (b * 1024 + o + 7) 1 = m.load (b * 1024 + o + 7) 1 :=
    load_store_of_disjoint (by omega)
  have hlen : (lengthen m g k).load (b * 1024 + o + 6) 1 = m.load (b * 1024 + o + 6) 1 :=
    load_store_of_disjoint (by omega)
  have hname : nameAt (lengthen m g k) b o = nameAt m b o := by
    rw [nameAt, nameAt, hlen]
    exact bytes_congr fun i hi => store_apply_of_outside (by omega)
  rw [recordAt, recordAt, liveAt, liveAt, hnumber, htype, hname]
  exact ⟨rfl, rfl⟩

/-- The entries on a chain with a longer entry `r` show the same records as before. -/
theorem recordAt_of_mem {before tail rest : List Nat}
    (h : entryOffsets m b 129 0 = some (before ++ r :: tail)) (hk : k % 4 = 0)
    (hrest : entryOffsets m b 129 (r + m.load (b * 1024 + r + 4) 2 + k) = some rest)
    (ho : o ∈ before ++ r :: rest) :
    recordAt (lengthen m (b * 1024 + r + 4) k) b o = recordAt m b o ∧
      liveAt (lengthen m (b * 1024 + r + 4) k) b o = liveAt m b o := by
  have hchain := (entryOffsets_iff (Nat.zero_mod 4)).mp h
  have hmem : r ∈ before ++ r :: tail := List.mem_append_right before List.mem_cons_self
  obtain ⟨h4, hrec4, hrec, hend⟩ := aligned_of_entryOffsets h (Nat.zero_mod 4) r hmem
  refine recordAt_lengthen ?_
  rcases List.mem_append.mp ho with ho | ho
  · have hlt : o < r := (List.pairwise_append.mp (hchain.pairwise nextEntry_lt).2).2.2 o ho r
      List.mem_cons_self
    obtain ⟨z, hz, hleast⟩ := hchain.exists_next nextEntry_lt (List.mem_append_left _ ho)
    have hle := hleast r hmem hlt
    obtain ⟨hentry, rfl⟩ := nextEntry_eq_some.mp hz
    omega
  · rcases List.mem_cons.mp ho with rfl | ho
    · exact .inr (.inl rfl)
    · have hge := (((entryOffsets_iff (by omega)).mp hrest).pairwise nextEntry_lt).1 o ho
      omega

/-- An entry that a longer entry `r` skips. It lies its own length after `r`, with the entries
`between` in between, which are not live. What the longer entry leads to is `rest`, and the live
ones among these are those that followed. -/
structure Skip (m : Memory) (b o : Nat) (before : List Nat) (r : Nat)
    (between after rest : List Nat) : Prop where
  chain : entryOffsets m b 129 0 = some (before ++ r :: (between ++ o :: after))
  length : r + m.load (b * 1024 + o + 4) 2 = o
  between : between.filter (liveAt m b) = []
  onward : entryOffsets m b 129 (o + m.load (b * 1024 + r + 4) 2) = some rest
  after : rest.filter (liveAt m b) = after.filter (liveAt m b)

/-- Some entry skips the one at `o` when it becomes longer. -/
def Skips (m : Memory) (b o : Nat) : Prop :=
  ∃ before r between after rest, Skip m b o before r between after rest

/-- The live entries of a chain without one of them. -/
theorem filter_filter_ne {before between after : List Nat} (p : Nat → Bool)
    (hnodup : (before ++ r :: (between ++ o :: after)).Nodup) :
    ((before ++ r :: (between ++ o :: after)).filter p).filter (· ≠ o) =
      (before ++ [r]).filter p ++ (between.filter p ++ after.filter p) := by
  have hsplit : before ++ r :: (between ++ o :: after) =
      (before ++ [r]) ++ (between ++ o :: after) := by simp
  rw [hsplit] at hnodup ⊢
  obtain ⟨-, htail, hapart⟩ := List.nodup_append.mp hnodup
  obtain ⟨-, hafter, hbetween⟩ := List.nodup_append.mp htail
  have hout : ∀ l : List Nat, o ∉ l → l.filter (· ≠ o) = l := fun l hl =>
    List.filter_eq_self.mpr fun x hx => decide_eq_true (ne_of_mem_of_not_mem hx hl)
  have hwithout : ((before ++ [r]) ++ (between ++ o :: after)).filter (· ≠ o) =
      (before ++ [r]) ++ (between ++ after) := by
    rw [List.filter_append, hout _ fun ho => hapart o ho o (List.mem_append_right _
      List.mem_cons_self) rfl, List.filter_append, hout between fun ho => hbetween o ho o
      List.mem_cons_self rfl, List.filter_cons_of_neg (by simp),
      hout after (List.nodup_cons.mp hafter).1]
  rw [List.filter_comm, hwithout, List.filter_append, List.filter_append between]

/-- Where the listing loses just the entry, the entry before it skips it. -/
theorem skips_of_listing {g : Nat} (hoffsets : entryOffsets m b 129 0 = some offsets)
    (ho : o ∈ offsets) (hlive : liveAt m b o = true)
    (hg : g + m.load (b * 1024 + o + 4) 2 = b * 1024 + o + 4)
    (h : listing (lengthen m g (m.load (b * 1024 + o + 4) 2)) b =
      (listing m b).map (without (b * 1024 + o))) : Skips m b o := by
  obtain ⟨h4, hrec4, hrec, hend⟩ := aligned_of_entryOffsets hoffsets (Nat.zero_mod 4) o ho
  have hchain := (entryOffsets_iff (Nat.zero_mod 4)).mp hoffsets
  rw [listing, listing, hoffsets, Option.map_some, Option.map_some, without_map] at h
  obtain ⟨xs, hxs, h⟩ := Option.map_eq_some_iff.mp h
  have hpositions := eq_of_map_recordAt h
  by_cases hr : ∃ r ∈ offsets, r + m.load (b * 1024 + o + 4) 2 = o
  · obtain ⟨r, hr, hlength⟩ := hr
    obtain rfl : g = b * 1024 + r + 4 := by omega
    obtain ⟨before, tail, rfl⟩ := List.append_of_mem hr
    have hsorted := (hchain.pairwise nextEntry_lt).2
    have htail : o ∈ tail := by
      rcases List.mem_append.mp ho with ho | ho
      · have hlt := (List.pairwise_append.mp hsorted).2.2 o ho r List.mem_cons_self
        omega
      · exact (List.mem_cons.mp ho).resolve_left (by omega)
    obtain ⟨between, after, rfl⟩ := List.append_of_mem htail
    obtain ⟨rest, rfl, hrest⟩ := (entryOffsets_lengthen hoffsets hrec4 (by omega)).mp hxs
    have hlive' : (before ++ r :: rest).filter
        (liveAt (lengthen m (b * 1024 + r + 4) (m.load (b * 1024 + o + 4) 2)) b) =
        (before ++ r :: rest).filter (liveAt m b) :=
      List.filter_congr fun x hx => (recordAt_of_mem hoffsets hrec4 hrest hx).2
    rw [hlive', filter_filter_ne _ (hchain.nodup nextEntry_stop),
      show before ++ r :: rest = (before ++ [r]) ++ rest by simp, List.filter_append,
      List.append_cancel_left_eq] at hpositions
    obtain ⟨hr4, hrecr4, hrecr, hendr⟩ := aligned_of_entryOffsets hoffsets (Nat.zero_mod 4) r hr
    have hbetween : between.filter (liveAt m b) = [] := by
      rw [List.eq_nil_iff_forall_not_mem]
      intro x hx
      have hmem : x ∈ rest.filter (liveAt m b) := hpositions ▸ List.mem_append_left _ hx
      have hge := (((entryOffsets_iff (by omega)).mp hrest).pairwise nextEntry_lt).1 x
        (List.mem_filter.mp hmem).1
      have hsorted' := (List.pairwise_cons.mp (List.pairwise_append.mp hsorted).2.1).2
      have hlt := (List.pairwise_append.mp hsorted').2.2 x (List.mem_filter.mp hx).1 o
        List.mem_cons_self
      omega
    rw [hbetween, List.nil_append] at hpositions
    refine ⟨before, r, between, after, rest, hoffsets, hlength, hbetween, ?_, hpositions⟩
    rwa [show o + m.load (b * 1024 + r + 4) 2 =
      r + m.load (b * 1024 + r + 4) 2 + m.load (b * 1024 + o + 4) 2 by omega]
  · -- No length on the chain has changed, so that the entry is still listed.
    have hsame := hchain.congr fun x hx => nextEntry_lengthen
      (k := m.load (b * 1024 + o + 4) 2) (g := g) (by omega)
      (fun heq => hr ⟨x, hx, by omega⟩)
    obtain rfl := hsame.unique nextEntry_stop ((entryOffsets_iff (Nat.zero_mod 4)).mp hxs)
    have hstill : liveAt (lengthen m g (m.load (b * 1024 + o + 4) 2)) b o = true := by
      rw [(recordAt_lengthen (.inl (by omega))).2, hlive]
    have hmem := hpositions ▸ List.mem_filter.mpr ⟨ho, hstill⟩
    exact absurd rfl (of_decide_eq_true (List.mem_filter.mp hmem).2)

/-- The entry is skipped when the length before it is made longer. -/
theorem Skips.listing {g : Nat} (hoffsets : entryOffsets m b 129 0 = some offsets)
    (ho : o ∈ offsets) (hg : g + m.load (b * 1024 + o + 4) 2 = b * 1024 + o + 4)
    (h : Skips m b o) : Ext2.listing (lengthen m g (m.load (b * 1024 + o + 4) 2)) b =
      (Ext2.listing m b).map (without (b * 1024 + o)) := by
  obtain ⟨h4, hrec4, hrec, hend⟩ := aligned_of_entryOffsets hoffsets (Nat.zero_mod 4) o ho
  have hchain := (entryOffsets_iff (Nat.zero_mod 4)).mp hoffsets
  obtain ⟨before, r, between, after, rest, hskip⟩ := h
  obtain rfl := Option.some.inj (hoffsets.symm.trans hskip.chain)
  have hlength := hskip.length
  obtain rfl : g = b * 1024 + r + 4 := by omega
  have hrest : entryOffsets m b 129 (r + m.load (b * 1024 + r + 4) 2 +
      m.load (b * 1024 + o + 4) 2) = some rest := by
    rw [← hskip.onward]
    congr 1
    omega
  rw [Ext2.listing, Ext2.listing,
    (entryOffsets_lengthen hoffsets hrec4 (by omega)).mpr ⟨rest, rfl, hrest⟩,
    hoffsets, Option.map_some, Option.map_some, Option.map_some, without_map,
    filter_filter_ne _ (hchain.nodup nextEntry_stop), hskip.between, List.nil_append,
    ← hskip.after, ← List.filter_append, List.append_assoc, List.singleton_append,
    List.filter_congr fun x hx => (recordAt_of_mem hoffsets hrec4 hrest hx).2]
  exact congrArg some (List.map_congr_left fun x hx =>
    (recordAt_of_mem hoffsets hrec4 hrest (List.mem_filter.mp hx).1).1)

/-- The listing loses exactly the entry whose length is added when it is skipped. -/
theorem listing_lengthen_iff {g : Nat} (hoffsets : entryOffsets m b 129 0 = some offsets)
    (ho : o ∈ offsets) (hlive : liveAt m b o = true)
    (hg : g + m.load (b * 1024 + o + 4) 2 = b * 1024 + o + 4) :
    listing (lengthen m g (m.load (b * 1024 + o + 4) 2)) b =
      (listing m b).map (without (b * 1024 + o)) ↔ Skips m b o :=
  ⟨skips_of_listing hoffsets ho hlive hg, Skips.listing hoffsets ho hg⟩

end OsAssignments.Ext2
