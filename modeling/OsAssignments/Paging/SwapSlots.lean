import Mathlib.Data.List.Dedup
import OsAssignments.Paging.Outcome
import OsAssignments.Paging.Versions

/-!
# Swap slots

Every page owns at most one slot and every taken slot has one owner, so what a page reads
back is what it wrote last, and the swap space is full only when every slot belongs to a
different page. The history says which pages were written and with what content.
-/

namespace OsAssignments.Paging

open Pager (Move)

variable {σ : Type} {env : Env} {P : Policy σ} {swapsize : BitVec 32} {memsize : Nat}
  {physmem : Memory} {alg : σ} {s t u : Sim σ} {a : Access} {m : Move PtePtr} {c : List UInt8}

/-! ## Pages written to swap -/

/-- What a page's frame held at its latest `swap_pageout`. -/
def lastPageout : List Event → PtePtr → Option (List UInt8)
  | [], _ => none
  | .pageout p c :: older, x => if p = x then some c else lastPageout older x
  | _ :: older, x => lastPageout older x

/-- The page that an event wrote to swap. -/
def Event.pagedOut : Event → Option PtePtr
  | .pageout p _ => some p
  | _ => none

theorem mem_pagedOut_iff (history : List Event) (x : PtePtr) :
    x ∈ history.filterMap Event.pagedOut ↔ lastPageout history x ≠ none := by
  induction history with
  | nil => simp [lastPageout]
  | cons ev history ih =>
    rw [List.filterMap_cons]
    cases ev with
    | pageout p c =>
      by_cases hp : p = x
      · simp [Event.pagedOut, lastPageout, hp]
      · simp [Event.pagedOut, lastPageout, hp, Ne.symm hp, ih]
    | access | evict | load | pagein | swapFull | wrongContent => exact ih

theorem lastPageout_arrivals (s : Sim σ) (p : PtePtr) (h : List Event) :
    lastPageout (s.arrivals p c m ++ h) = lastPageout h := by
  have hrest : lastPageout ((if (s.status p).swapped then [Event.pagein p c] else []) ++ h) =
      lastPageout h := by
    split <;> rfl
  cases m with
  | hit f => rfl
  | fill f | dropped f q | wroteBack f q i => exact hrest

theorem lastPageout_wrongContent (v : BitVec 64) (b : Prop) [Decidable b] (h : List Event) :
    lastPageout ((if b then [] else [.wrongContent v]) ++ h) = lastPageout h := by
  split <;> rfl

/-- The slots of the pages hold what the pages wrote last. -/
def SlotsRecorded (s : Sim σ) : Prop :=
  ∀ x, lastPageout s.history x = (s.status x).slot.map s.pager.store

/-- Making room for a page keeps the record of the slots. -/
theorem SlotsRecorded.vacate (hs : Good s) (h : SlotsRecorded s) {p : PtePtr}
    (hm : s.pager.Enabled p m) (x : PtePtr) :
    lastPageout (s.evictions m ++ s.history) x =
      ((s.pager.vacate m).status x).slot.map (s.pager.vacate m).store := by
  cases m with
  | hit f => exact h x
  | fill f => exact h x
  | dropped f q =>
    refine (h x).trans ?_
    change Option.map _ _ = ((s.pager.drop q).status x).slot.map s.pager.store
    rw [Pager.status_drop]
    split
    · rename_i hx
      rw [hx]
      rfl
    · rfl
  | wroteBack f q i =>
    change (if q = x then some (s.pager.frame f) else lastPageout s.history x) =
      ((s.pager.writeBack q f i).status x).slot.map (s.pager.writeBack q f i).store
    rw [Pager.status_writeBack]
    by_cases hx : x = q
    · rw [if_pos hx.symm, if_pos hx]
      change some _ = some (Function.update s.pager.store i (s.pager.frame f) i)
      rw [Function.update_self]
    · rw [if_neg (Ne.symm hx), if_neg hx, h x]
      cases hslot : (s.status x).slot with
      | none =>
        change (s.pager.status x).slot = none at hslot
        rw [hslot]
        rfl
      | some j =>
        have hstore := hs.inv.store_vacate hm (x := x) (fun hq => hx (Option.some.inj hq).symm)
          hslot
        change (s.pager.status x).slot = some j at hslot
        rw [hslot]
        exact congrArg some hstore.symm

theorem SlotsRecorded.accessed (hs : Good s) (h : SlotsRecorded s)
    (hacc : Accessed env s a m c u t) : SlotsRecorded t := by
  intro x
  have hstatus : (t.status x).slot = ((s.pager.vacate m).status x).slot := by
    have hu : t.status = u.status := by rw [hacc.rest]; rfl
    rw [hu]
    change (u.pager.status x).slot = _
    rw [hacc.served.pager, Pager.slot_touch]
    exact Pager.slot_serve m c x
  have hstore : t.pager.store = (s.pager.vacate m).store := by
    have hu : t.pager.store = u.pager.store := by rw [hacc.rest]; rfl
    rw [hu, hacc.served.pager]
    exact Pager.store_serve m c
  rw [hstatus, hstore, ← h.vacate hs hacc.served.enabled x, hacc.history, lastPageout_wrongContent,
    hacc.served.history]
  change lastPageout (_ ++ _) x = _
  rw [lastPageout_arrivals]
  rfl

theorem slotsRecorded_of_simulate (hP : P.OnlyRef) :
    ∀ trace s, simulate env P swapsize trace (Sim.start memsize physmem alg) = .ok () s →
      Good s ∧ (SlotsRecorded s ∧ s.swapmap.nbits = swapsize) := by
  refine simulate_induction hP (fun _ s => SlotsRecorded s ∧ s.swapmap.nbits = swapsize) ?_ ?_
  · intro s _ hs
    refine ⟨fun x => ?_, hs.nbits⟩
    rw [hs.history, hs.status]
    rfl
  · intro pre s a m c u t _ hs ih _ _ hacc
    refine ⟨ih.1.accessed hs hacc, ?_⟩
    rw [hacc.rest]
    exact hacc.served.nbits.trans ih.2

/-! ## The slots in use -/

/-- Offsets and bitmap agree on the slots: no two pages share one, every offset is that of a
slot marked in the bitmap, and every slot marked in the bitmap has a page. -/
structure SlotsExact (swapsize : BitVec 32) (s : Sim σ) : Prop where
  distinct : ∀ p q e e', s.entry p = some e → s.entry q = some e' → e.swapOff ≠ invalidSwap →
    e'.swapOff ≠ invalidSwap → p ≠ q → e.swapOff ≠ e'.swapOff
  offset : ∀ p e, s.entry p = some e → e.swapOff ≠ invalidSwap → ∃ i : BitVec 32, i < swapsize ∧
    e.swapOff = 16 * i.toNat ∧ bitmapIsset s.swapmap i ≠ 0#32 ∧ 0 ≤ e.swapOff ∧ e.swapOff < 2 ^ 31
  owned : ∀ i : BitVec 32, i < swapsize → bitmapIsset s.swapmap i ≠ 0#32 →
    ∃ p e, s.entry p = some e ∧ e.swapOff = 16 * i.toNat

theorem Good.slotsExact (hs : Good s) (hnbits : s.swapmap.nbits = swapsize) :
    SlotsExact swapsize s where
  distinct p q e e' he he' hoff _ hne heq := by
    rcases hs.offset p e he with hinvalid | ⟨i, _, _, hi⟩
    · exact hoff hinvalid
    · have hp : (s.status p).slot = some i := by
        rw [Sim.status_of_entry he]
        exact PgtblEntry.slot_of_swapOff hi
      have hq : (s.status q).slot = some i := by
        rw [Sim.status_of_entry he']
        exact PgtblEntry.slot_of_swapOff (heq.symm.trans hi)
      exact hne (hs.inv.slot_inj p q i hp hq)
  offset p e he hoff := by
    rcases hs.offset p e he with hinvalid | ⟨i, hlt, hn, hi⟩
    · exact absurd hinvalid hoff
    · have hslot : (s.status p).slot = some i := by
        rw [Sim.status_of_entry he]
        exact PgtblEntry.slot_of_swapOff hi
      have htoNat : (BitVec.ofNat 32 i).toNat = i := by
        rw [BitVec.toNat_ofNat]
        omega
      refine ⟨BitVec.ofNat 32 i, ?_, ?_, ?_, ?_, ?_⟩
      · rw [BitVec.lt_def, htoNat, ← hnbits]
        exact hn
      · rw [hi, htoNat]
        simp only [simPageSize]
        omega
      · rw [Bitmap.bitmapIsset_ne_zero_iff, htoNat]
        exact hs.inv.slot_taken p i hslot
      · rw [hi]
        omega
      · rw [hi]
        simp only [simPageSize]
        omega
  owned i hi hset := by
    rw [Bitmap.bitmapIsset_ne_zero_iff] at hset
    obtain ⟨p, hp⟩ := hs.owned i.toNat (by rw [hnbits]; exact hi) hset
    cases he : s.entry p with
    | none => simp [Sim.status, he] at hp
    | some e =>
      rw [Sim.status_of_entry he] at hp
      refine ⟨p, e, he, ?_⟩
      rw [hs.swapOff_of_slot he hp]
      simp only [simPageSize]
      omega

/-! ## Reading back and running out of slots -/

/-- A page reads back from swap what it wrote last. -/
def ReadsBack (ev : Event) (older : List Event) : Prop :=
  ∀ p c, ev = .pagein p c → lastPageout older p = some c

/-- The distinct pages that were evicted dirty, with the one being evicted. -/
def dirtyPages (victim : Option PtePtr) (older : List Event) : List PtePtr :=
  (victim.toList ++ older.filterMap Event.pagedOut).dedup

/-- The swap space is reported full only after more pages than it has slots were evicted
dirty, counting the one being evicted. -/
def FullWhenExceeded (swapsize : BitVec 32) (ev : Event) (older : List Event) : Prop :=
  ∀ q, ev = .swapFull q → swapsize.toNat < (dirtyPages q older).length

theorem each_evictions {Φ : Event → List Event → Prop} (hs : Each Φ s.history)
    (hpageout : ∀ p c older, Φ (.pageout p c) older)
    (hevict : ∀ f pages older, Φ (.evict f pages) older) (m : Move PtePtr) :
    Each Φ (s.evictions m ++ s.history) := by
  cases m with
  | hit f => exact hs
  | fill f => exact hs
  | dropped f q => exact .cons (hevict _ _ _) hs
  | wroteBack f q i => exact .cons (hpageout _ _ _) (.cons (hevict _ _ _) hs)

/-- What is read back while a page is brought in is what the page wrote last. -/
theorem SlotsRecorded.readsBack (hs : Good s) (h : SlotsRecorded s)
    (hio : ∀ n, (env.io n).Succeeds) {p : PtePtr} {vaddr : BitVec 64} {type : Char}
    (hserved : Served env s.counted p vaddr type m c u) (hmiss : ∀ f, m ≠ .hit f)
    (hw : (s.status p).swapped = true) :
    lastPageout (s.evictions m ++ s.history) p = some c := by
  obtain ⟨i, hi⟩ := Option.ne_none_iff_exists'.mp (hs.inv.slot_of_swapped p hw)
  have hm : s.pager.Enabled p m := hserved.enabled
  rw [h.vacate hs hm p, hs.inv.status_vacate hm, hi, hserved.paged hio hmiss hw i hi]
  rfl

/-- When every slot below the capacity is taken, as many pages were written to swap. -/
theorem SlotsRecorded.full (hs : Good s) (h : SlotsRecorded s)
    (hnbits : s.swapmap.nbits = swapsize) (hswap : swapsize.toNat ≤ 2 ^ 32 - 32)
    (halloc : bitmapAlloc s.swapmap = .ok none) {q : PtePtr} (hq : (s.status q).slot = none)
    (older : List Event) (holder : older.filterMap Event.pagedOut =
      s.history.filterMap Event.pagedOut) :
    swapsize.toNat < (dirtyPages (some q) older).length := by
  have howner : ∀ i : Fin swapsize.toNat, ∃ p, (s.status p).slot = some i.val := by
    intro i
    have hi := i.isLt
    refine hs.owned i (hnbits ▸ hi) (Bitmap.bitmapAlloc_none halloc ?_)
    rw [hnbits, Bitmap.divRoundUp_toNat hswap]
    omega
  choose owner howner using howner
  have hmem : ∀ p, (s.status p).slot ≠ none → p ∈ older.filterMap Event.pagedOut := by
    intro p hp
    rw [holder, mem_pagedOut_iff, h p]
    simpa using hp
  have hnodup : (q :: (List.finRange swapsize.toNat).map owner).Nodup := by
    rw [List.nodup_cons]
    constructor
    · intro hin
      obtain ⟨i, _, hi⟩ := List.mem_map.mp hin
      have hslot := howner i
      rw [hi, hq] at hslot
      cases hslot
    · refine (List.nodup_finRange _).map fun i j hij => ?_
      have hslot := (howner i).symm.trans
        ((congrArg (fun p => (s.status p).slot) hij).trans (howner j))
      exact Fin.ext (Option.some.inj hslot)
  have hsubset : q :: (List.finRange swapsize.toNat).map owner ⊆ dirtyPages (some q) older := by
    intro p hp
    rw [dirtyPages, List.mem_dedup, Option.toList_some, List.singleton_append]
    rcases List.mem_cons.mp hp with rfl | hin
    · exact List.mem_cons_self
    · obtain ⟨i, _, rfl⟩ := List.mem_map.mp hin
      exact List.mem_cons_of_mem _ (hmem _ (by rw [howner]; exact Option.some_ne_none _))
  have hlen := (List.subperm_of_subset hnodup hsubset).length_le
  rw [List.length_cons, List.length_map, List.length_finRange] at hlen
  exact hlen

/-- No frame of a small machine has a number too large for an entry. -/
theorem memsize_le_of_simulate (hP : P.OnlyRef) (hmem : memsize ≤ 2 ^ 19) {pre : List Access}
    {s : Sim σ} (h : simulate env P swapsize pre (Sim.start memsize physmem alg) = .ok () s) :
    ¬ 2 ^ 19 < s.memsize := by
  rw [memsize_of_simulate hP h]
  omega

/-- Every page reads back what it wrote last. -/
theorem readsBack_of_simulate (hP : P.OnlyRef) (hmem : memsize ≤ 2 ^ 19)
    (hio : ∀ n, (env.io n).Succeeds) (trace : List Access) :
    Each ReadsBack (Program.final
      (simulate env P swapsize trace (Sim.start memsize physmem alg))).history := by
  refine each_of_simulate hP ReadsBack ?_
  rintro pre a post s evs _ hpre hs ⟨evs', hevs, hcases⟩ heach
  obtain ⟨_, hrecorded, _⟩ := slotsRecorded_of_simulate hP pre s hpre
  have hevictions := each_evictions (Φ := ReadsBack) heach (fun _ _ _ => nofun)
    (fun _ _ _ => nofun)
  have heach' : Each ReadsBack (evs' ++ s.history) := by
    cases hevs with
    | lost => exact heach
    | unfinished _ _ hunfinished =>
      cases hunfinished with
      | refused => exact heach
      | chosen => exact .cons nofun heach
      | full => exact .cons nofun (.cons nofun heach)
      | vacated => exact hevictions _
      | unmapped c hlarge => exact absurd hlarge (memsize_le_of_simulate hP hmem hpre)
    | @served m c u v _ hserved _ =>
      rw [List.cons_append, List.append_assoc]
      refine .cons nofun ?_
      by_cases hhit : ∃ f, m = .hit f
      · obtain ⟨f, rfl⟩ := hhit
        exact heach
      · have hmiss : ∀ f, m ≠ .hit f := fun f hf => hhit ⟨f, hf⟩
        have harrivals : s.arrivals (pteOf a.vaddr) c m = .load (pteOf a.vaddr) m.frame ::
            if (s.status (pteOf a.vaddr)).swapped then [.pagein (pteOf a.vaddr) c] else [] := by
          cases m with
          | hit f => exact absurd rfl (hmiss f)
          | fill f | dropped f q | wroteBack f q i => rfl
        rw [harrivals]
        refine .cons nofun ?_
        split
        · rename_i hw
          refine .cons ?_ (hevictions m)
          rintro p d ⟨rfl, rfl⟩
          exact hrecorded.readsBack hs hio hserved hmiss hw
        · exact hevictions m
  rcases hcases with rfl | rfl
  · exact heach'
  · exact .cons nofun heach'

/-- The swap space is full only when more pages than it has slots were evicted dirty. -/
theorem fullWhenExceeded_of_simulate (hP : P.OnlyRef) (hmem : memsize ≤ 2 ^ 19)
    (hswap : swapsize.toNat ≤ 2 ^ 32 - 32) (trace : List Access) :
    Each (FullWhenExceeded swapsize) (Program.final
      (simulate env P swapsize trace (Sim.start memsize physmem alg))).history := by
  refine each_of_simulate hP (FullWhenExceeded swapsize) ?_
  rintro pre a post s evs _ hpre hs ⟨evs', hevs, hcases⟩ heach
  obtain ⟨_, hrecorded, hnbits⟩ := slotsRecorded_of_simulate hP pre s hpre
  have hevictions := each_evictions (Φ := FullWhenExceeded swapsize) heach (fun _ _ _ _ => nofun)
    (fun _ _ _ _ => nofun)
  have heach' : Each (FullWhenExceeded swapsize) (evs' ++ s.history) := by
    cases hevs with
    | lost => exact heach
    | unfinished _ _ hunfinished =>
      cases hunfinished with
      | refused => exact heach
      | chosen => exact .cons (fun _ => nofun) heach
      | full _ _ hslot halloc =>
        refine .cons ?_ (.cons (fun _ => nofun) heach)
        rintro q ⟨rfl⟩
        exact hrecorded.full hs hnbits hswap halloc hslot _ rfl
      | vacated => exact hevictions _
      | unmapped c hlarge => exact absurd hlarge (memsize_le_of_simulate hP hmem hpre)
    | @served m c u v _ hserved _ =>
      rw [List.cons_append, List.append_assoc]
      refine .cons (fun _ => nofun) ?_
      cases m with
      | hit f => exact heach
      | fill f | dropped f q | wroteBack f q i =>
        refine .cons (fun _ => nofun) ?_
        split
        · exact .cons (fun _ => nofun) (hevictions _)
        · exact hevictions _
  rcases hcases with rfl | rfl
  · exact heach'
  · exact .cons (fun _ => nofun) heach'

/-- Swap slots are neither shared nor leaked, every page reads back what it wrote last, and
the swap space is full only when more pages than it has slots were evicted dirty. -/
theorem swapSlots_exact (hP : P.OnlyRef) (hmem : memsize ≤ 2 ^ 19)
    (hio : ∀ n, (env.io n).Succeeds) (hswap : swapsize.toNat ≤ 2 ^ 32 - 32)
    (trace : List Access) :
    (∀ s, simulate env P swapsize trace (Sim.start memsize physmem alg) = .ok () s →
      SlotsExact swapsize s) ∧
    Each ReadsBack (Program.final
      (simulate env P swapsize trace (Sim.start memsize physmem alg))).history ∧
    Each (FullWhenExceeded swapsize) (Program.final
      (simulate env P swapsize trace (Sim.start memsize physmem alg))).history := by
  refine ⟨fun s h => ?_, readsBack_of_simulate hP hmem hio trace,
    fullWhenExceeded_of_simulate hP hmem hswap trace⟩
  obtain ⟨hs, _, hnbits⟩ := slotsRecorded_of_simulate hP trace s h
  exact hs.slotsExact hnbits

theorem swapSlots_exact_of_alternation :
    (∀ s, simulate calmEnv fifo 4#32 alternation (Sim.start 1 (fun _ => 0) 0) = .ok () s →
      SlotsExact 4#32 s) ∧
    Each ReadsBack (Program.final
      (simulate calmEnv fifo 4#32 alternation (Sim.start 1 (fun _ => 0) 0))).history ∧
    Each (FullWhenExceeded 4#32) (Program.final
      (simulate calmEnv fifo 4#32 alternation (Sim.start 1 (fun _ => 0) 0))).history :=
  swapSlots_exact fifo_onlyRef (by decide) (fun _ => ⟨rfl, rfl⟩) (by decide) alternation

end OsAssignments.Paging
