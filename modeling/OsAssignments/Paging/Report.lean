import Mathlib.Data.List.FinRange
import OsAssignments.Library.Listing
import OsAssignments.Paging.Counts
import OsAssignments.Paging.Queue

/-!
# The page tables as they are printed

Translation of `print_pagetbl` and `print_pagedirectory`. What is printed is kept as lines with
their values. After a simulation it names each page that is in memory or on swap once, with the
frame that holds it or the slot that stores it.
-/

namespace OsAssignments.Paging

open Listing (Line)

variable {σ : Type} {s : Sim σ} {p : PtePtr}

/-! ## Printing -/

/-- What a line of a page table says of its entry. -/
inductive PageLine
  | valid (dirty : Bool) (frame : Nat)
  | onswap (swapOff : Int)

/-- The line of an entry that is valid or on swap. -/
def describePte (e : PgtblEntry) : Except Stop PageLine :=
  if e.frame &&& pgValid ≠ 0#32 then
    .ok (.valid (decide (e.frame &&& pgDirty ≠ 0#32)) (e.frame >>> pageShift).toNat)
  else if e.frame &&& pgOnswap = 0#32 then .error .abort
  else .ok (.onswap e.swapOff)

def isInvalid (e : PgtblEntry) : Bool :=
  decide (e.frame &&& pgValid = 0#32) && decide (e.frame &&& pgOnswap = 0#32)

def printPagetbl (pgtbl : Fin ptrsPerPgtbl → PgtblEntry) : Except Stop (List (Line PageLine)) :=
  Listing.list isInvalid describePte (List.ofFn pgtbl)

/-- The table that a directory entry points to, printed. -/
def printPde : Option (Fin ptrsPerPgtbl → PgtblEntry) → Except Stop (List (Line PageLine))
  | some pgtbl => printPagetbl pgtbl
  | none => .error .undefined

/-- What `print_pagedirectory` prints. -/
abbrev Report := List (Line (List (Line PageLine)))

def printPagedirectory (s : Sim σ) : Except Stop Report :=
  Listing.list (fun pde => pde.isNone) printPde (List.ofFn s.pgdir)

/-! ## What is to be printed -/

/-- The line for a page, if there is one. -/
def Sim.pageLine (s : Sim σ) (p : PtePtr) : Option PageLine :=
  match (s.status p).home with
  | some f => some (.valid (s.status p).dirty f)
  | none =>
    if (s.status p).swapped then
      (s.status p).slot.map fun i => .onswap (i * simPageSize : Nat)
    else none

/-- All entries in order. -/
def ptes : List PtePtr :=
  (List.finRange ptrsPerPgdir).flatMap fun dir => (List.finRange ptrsPerPgtbl).map (PtePtr.mk dir)

/-- The lines for pages, with the indices of their entries. -/
def Report.entries (r : Report) : List ((Nat × Nat) × PageLine) :=
  (r.filterMap Line.entry).flatMap fun (dir, lines) =>
    (lines.filterMap Line.entry).map fun (tbl, line) => ((dir, tbl), line)

/-- The report of a state names every index of the directory and of each of its tables once and in
order, and has a line for each page that is in memory or on swap. -/
structure Reported (s : Sim σ) (r : Report) : Prop where
  directory : r.flatMap Line.indices = (List.range ptrsPerPgdir).map Nat.cast
  tables : ∀ entry ∈ r.filterMap Line.entry,
    entry.2.flatMap Line.indices = (List.range ptrsPerPgtbl).map Nat.cast
  pages : r.entries = ptes.filterMap fun p =>
    (s.pageLine p).map fun line => ((p.dir.val, p.tbl.val), line)

/-- The frame that a line names. -/
def PageLine.frame : PageLine → Option Nat
  | .valid _ f => some f
  | .onswap _ => none

/-- The swap offset that a line names. -/
def PageLine.swapOff : PageLine → Option Int
  | .valid _ _ => none
  | .onswap off => some off

/-- The frames that are named. -/
def Report.frames (r : Report) : List Nat := r.entries.filterMap fun x => x.2.frame

/-- The swap offsets that are named. -/
def Report.offsets (r : Report) : List Int := r.entries.filterMap fun x => x.2.swapOff

/-! ## One entry -/

/-- There is no line for a page whose entry is neither valid nor on swap. -/
theorem Sim.pageLine_of_invalid {e : PgtblEntry} (he : s.entry p = some e)
    (h : isInvalid e = true) : s.pageLine p = none := by
  rw [isInvalid, Bool.and_eq_true, decide_eq_true_eq, decide_eq_true_eq,
    PgtblEntry.and_pgValid_eq_zero_iff, PgtblEntry.and_pgOnswap_eq_zero_iff] at h
  have hswapped : (s.status p).swapped = false := by
    rw [Sim.status_of_entry he]
    exact h.2
  simp only [Sim.pageLine, Sim.home_of_invalid he h.1, hswapped, Bool.false_eq_true, ite_false]

/-- The line of an entry is the one for its page, so that the assert holds. -/
theorem Good.describePte (hs : Good s) {e : PgtblEntry} (he : s.entry p = some e)
    (h : isInvalid e = false) :
    ∃ line, Paging.describePte e = .ok line ∧ s.pageLine p = some line := by
  rw [Paging.describePte]
  cases hvalid : e.valid with
  | true =>
    have hframe : e.frame &&& pgValid ≠ 0#32 := by
      rw [ne_eq, PgtblEntry.and_pgValid_eq_zero_iff, hvalid]
      exact Bool.noConfusion
    have hdirty : decide (e.frame &&& pgDirty ≠ 0#32) = (s.status p).dirty := by
      rw [Sim.status_of_entry he]
      change _ = e.dirty
      rw [Bool.eq_iff_iff, decide_eq_true_eq, ne_eq, PgtblEntry.and_pgDirty_eq_zero_iff,
        Bool.not_eq_false]
    refine ⟨_, if_pos hframe, ?_⟩
    simp only [Sim.pageLine, Sim.home_of_valid he hvalid, hdirty]
    rfl
  | false =>
    have hframe : e.frame &&& pgValid = 0#32 := PgtblEntry.and_pgValid_eq_zero_iff.mpr hvalid
    have honswap : e.frame &&& pgOnswap ≠ 0#32 := by
      rw [isInvalid, hframe] at h
      simpa using h
    have hswapped : (s.status p).swapped = true := by
      rw [ne_eq, PgtblEntry.and_pgOnswap_eq_zero_iff, Bool.not_eq_false] at honswap
      rw [Sim.status_of_entry he]
      exact honswap
    obtain ⟨i, hi⟩ := Option.ne_none_iff_exists'.mp (hs.inv.slot_of_swapped p hswapped)
    have hslot : (s.status p).slot = some i := hi
    have hoff : e.swapOff = (i * simPageSize : Nat) := by
      refine hs.swapOff_of_slot he ?_
      rw [Sim.status_of_entry he] at hslot
      exact hslot
    refine ⟨.onswap e.swapOff, ?_, ?_⟩
    · rw [if_neg (not_not.mpr hframe), if_neg honswap]
    · simp only [Sim.pageLine, Sim.home_of_invalid he hvalid, hswapped, hslot, hoff, ite_true,
        Option.map_some]

/-! ## Whole tables -/

theorem zipIdx_ofFn {α : Type} {n : Nat} (f : Fin n → α) :
    (List.ofFn f).zipIdx = (List.finRange n).map fun i => (f i, i.val) := by
  refine List.ext_getElem (by simp) fun i hi hi' => ?_
  simp

/-- The printed table of a directory entry. -/
theorem Good.printPagetbl (hs : Good s) {dir : Fin ptrsPerPgdir}
    {pgtbl : Fin ptrsPerPgtbl → PgtblEntry} (hdir : s.pgdir dir = some pgtbl) :
    ∃ lines, Paging.printPagetbl pgtbl = .ok lines ∧
      lines.flatMap Line.indices = (List.range ptrsPerPgtbl).map Nat.cast ∧
      lines.filterMap Line.entry = (List.finRange ptrsPerPgtbl).filterMap fun tbl =>
        (s.pageLine ⟨dir, tbl⟩).map fun line => (tbl.val, line) := by
  have hentry : ∀ tbl, s.entry ⟨dir, tbl⟩ = some (pgtbl tbl) := by
    intro tbl
    rw [Sim.entry, hdir]
    rfl
  have hshown : ∀ e ∈ List.ofFn pgtbl, isInvalid e = false →
      Paging.describePte e = .ok (((Paging.describePte e).toOption).getD (.onswap 0)) := by
    intro e he h
    obtain ⟨tbl, rfl⟩ := List.mem_ofFn.mp he
    obtain ⟨line, hline, -⟩ := hs.describePte (hentry tbl) h
    rw [hline]
    rfl
  obtain ⟨lines, hlines, hindices, hentries⟩ := Listing.list_spec hshown
  refine ⟨lines, hlines, ?_, ?_⟩
  · rw [hindices, List.length_ofFn]
  · rw [hentries, zipIdx_ofFn, List.filterMap_map]
    refine List.filterMap_congr fun tbl _ => ?_
    simp only [Function.comp_apply]
    cases h : isInvalid (pgtbl tbl) with
    | true =>
      rw [if_pos rfl, Sim.pageLine_of_invalid (hentry tbl) h]
      rfl
    | false =>
      obtain ⟨line, hline, hpage⟩ := hs.describePte (hentry tbl) h
      rw [if_neg Bool.false_ne_true, hline, hpage]
      rfl

/-- No assert fails, and the report is that of the state. -/
theorem Good.printPagedirectory (hs : Good s) :
    ∃ r, Paging.printPagedirectory s = .ok r ∧ Reported s r := by
  have hshown : ∀ pde ∈ List.ofFn s.pgdir, pde.isNone = false →
      printPde pde = .ok ((printPde pde).toOption.getD []) := by
    intro pde hpde h
    obtain ⟨dir, rfl⟩ := List.mem_ofFn.mp hpde
    obtain ⟨pgtbl, hdir⟩ := Option.isSome_iff_exists.mp (Option.isNone_eq_false_iff.mp h)
    obtain ⟨lines, hlines, -⟩ := hs.printPagetbl hdir
    rw [hdir]
    simp only [printPde, hlines]
    rfl
  obtain ⟨r, hr, hindices, hentries⟩ := Listing.list_spec hshown
  rw [zipIdx_ofFn, List.filterMap_map] at hentries
  refine ⟨r, hr, ?_, ?_, ?_⟩
  · rw [hindices, List.length_ofFn]
  · rintro ⟨i, lines⟩ hentry
    rw [hentries] at hentry
    obtain ⟨dir, -, hdir⟩ := List.mem_filterMap.mp hentry
    cases hpgdir : s.pgdir dir with
    | none => simp [hpgdir] at hdir
    | some pgtbl =>
      obtain ⟨lines', hlines, hall, -⟩ := hs.printPagetbl hpgdir
      simp only [Function.comp_apply, hpgdir, Option.isNone_some, Bool.false_eq_true, ite_false,
        printPde, hlines, Option.some.injEq, Prod.mk.injEq] at hdir
      rw [← hdir.2]
      exact hall
  · rw [Report.entries, hentries, List.filterMap_eq_flatMap_toList, List.flatMap_assoc, ptes,
      List.filterMap_flatMap]
    refine List.flatMap_congr fun dir _ => ?_
    rw [List.filterMap_map]
    cases hpgdir : s.pgdir dir with
    | none =>
      have hnone : ∀ tbl, s.pageLine ⟨dir, tbl⟩ = none := by
        intro tbl
        have hentry : s.entry ⟨dir, tbl⟩ = none := by
          rw [Sim.entry, hpgdir]
          rfl
        simp [Sim.pageLine, Sim.status, hentry]
      simp only [Function.comp_def, hpgdir, hnone]
      simp
    | some pgtbl =>
      obtain ⟨lines, hlines, -, hpages⟩ := hs.printPagetbl hpgdir
      simp only [Function.comp_apply, hpgdir, Option.isNone_some, Bool.false_eq_true, ite_false,
        printPde, hlines, Option.toList_some, List.flatMap_singleton]
      change List.map _ (lines.filterMap Line.entry) = _
      rw [hpages, List.map_filterMap]
      refine List.filterMap_congr fun tbl _ => ?_
      rw [Option.map_map]
      rfl

/-! ## The pages that are named -/

theorem mem_ptes (p : PtePtr) : p ∈ ptes :=
  List.mem_flatMap.mpr ⟨p.dir, List.mem_finRange _,
    List.mem_map.mpr ⟨p.tbl, List.mem_finRange _, rfl⟩⟩

theorem nodup_ptes : ptes.Nodup := by
  refine List.nodup_flatMap.mpr ⟨fun dir _ => ?_, ?_⟩
  · refine (List.nodup_finRange _).map fun tbl tbl' h => ?_
    exact congrArg PtePtr.tbl h
  · refine (List.nodup_finRange _).imp fun {dir dir'} hne => ?_
    intro p hp hp'
    obtain ⟨_, -, rfl⟩ := List.mem_map.mp hp
    obtain ⟨_, -, heq⟩ := List.mem_map.mp hp'
    exact hne (congrArg PtePtr.dir heq).symm

/-- What the lines say in one respect is what the pages say in order. -/
theorem Reported.filterMap_eq {r : Report} (h : Reported s r) {α : Type} (f : PageLine → Option α) :
    (r.entries.filterMap fun x => f x.2) = ptes.filterMap fun p => (s.pageLine p).bind f := by
  rw [h.pages, List.filterMap_filterMap]
  refine List.filterMap_congr fun p _ => ?_
  cases s.pageLine p <;> rfl

theorem frame_pageLine (s : Sim σ) (p : PtePtr) :
    (s.pageLine p).bind PageLine.frame = (s.status p).home := by
  rw [Sim.pageLine]
  cases (s.status p).home with
  | some f => rfl
  | none =>
    dsimp only
    split
    · cases (s.status p).slot <;> rfl
    · rfl

/-- An offset is printed for a page that is on swap, and is that of its slot. -/
theorem swapOff_pageLine {off : Int} (h : (s.pageLine p).bind PageLine.swapOff = some off) :
    ∃ i, (s.status p).slot = some i ∧ off = (i * simPageSize : Nat) := by
  rw [Sim.pageLine] at h
  cases hhome : (s.status p).home with
  | some f =>
    rw [hhome] at h
    cases h
  | none =>
    rw [hhome] at h
    dsimp only at h
    split at h
    · cases hslot : (s.status p).slot with
      | none =>
        rw [hslot] at h
        cases h
      | some i =>
        rw [hslot] at h
        exact ⟨i, rfl, (Option.some.inj h).symm⟩
    · cases h

/-- The frames in use are named, each of them once. -/
theorem Reported.frames {r : Report} (h : Reported s r) (hs : Good s) :
    r.frames.Perm (List.range s.usedFrames) := by
  obtain ⟨k, hk, hused⟩ := hs.used
  rw [usedFrames_eq hk hused, Report.frames, h.filterMap_eq]
  simp only [frame_pageLine]
  refine (List.perm_ext_iff_of_nodup ?_ List.nodup_range).mpr fun f => ?_
  · refine nodup_ptes.filterMap fun p q f hp hq => ?_
    exact Option.some.inj (((hs.inv.home_iff p f).mp hp).symm.trans ((hs.inv.home_iff q f).mp hq))
  · rw [List.mem_filterMap, List.mem_range, ← hused]
    constructor
    · rintro ⟨p, -, hp⟩
      have hholder : s.holder f = some p := (hs.inv.home_iff p f).mp hp
      by_contra hfree
      rw [Sim.holder, if_neg hfree] at hholder
      cases hholder
    · intro hin
      obtain ⟨p, -, hholder⟩ := hs.holder_of_inUse hin
      exact ⟨p, mem_ptes p, (hs.inv.home_iff p f).mpr hholder⟩

/-- No offset is named twice, and each is that of a marked slot inside the swap file. -/
theorem Reported.offsets {r : Report} (h : Reported s r) (hs : Good s) :
    r.offsets.Nodup ∧
      ∀ off ∈ r.offsets, ∃ i : Nat,
        off = (i * simPageSize : Nat) ∧ s.swapmap.bit i = true ∧
          i * simPageSize + simPageSize ≤ s.swapfileSize := by
  rw [Report.offsets, h.filterMap_eq]
  refine ⟨nodup_ptes.filterMap fun p q off hp hq => ?_, fun off hoff => ?_⟩
  · obtain ⟨i, hi, heq⟩ := swapOff_pageLine hp
    obtain ⟨j, hj, heq'⟩ := swapOff_pageLine hq
    simp only [simPageSize] at heq heq'
    obtain rfl : i = j := by omega
    exact hs.inv.slot_inj p q i hi hj
  · obtain ⟨p, -, hp⟩ := List.mem_filterMap.mp hoff
    obtain ⟨i, hi, rfl⟩ := swapOff_pageLine hp
    exact ⟨i, rfl, hs.inv.slot_taken p i hi, hs.stored p i hi⟩

/-! ## After a simulation -/

variable {env : Env} {P : Policy σ} {swapsize : BitVec 32} {memsize : Nat} {physmem : Memory}
  {alg : σ}

end OsAssignments.Paging
