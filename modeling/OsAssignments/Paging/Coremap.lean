import OsAssignments.Paging.Run
import OsAssignments.Paging.Queue

/-!
# The coremap and the page tables

Between two accesses every frame in use and every valid page table entry point at each
other, whatever frames the replacement algorithm chooses.
-/

namespace OsAssignments.Paging

variable {σ : Type} {env : Env} {P : Policy σ} {swapsize : BitVec 32} {memsize : Nat}
  {physmem : Memory} {alg : σ} {s : Sim σ}

/-- The coremap and the page tables are inverse to each other. -/
structure CoremapInverse (s : Sim σ) : Prop where
  frame_valid : ∀ f, (s.coremap f).inUse = true → ∃ p e, (s.coremap f).pte = some p ∧
    s.entry p = some e ∧ e.frame &&& pgValid ≠ 0#32 ∧ (e.frame >>> pageShift).toNat = f
  entry_valid : ∀ p e, s.entry p = some e → e.frame &&& pgValid ≠ 0#32 →
    (s.coremap (e.frame >>> pageShift).toNat).inUse = true ∧
      (s.coremap (e.frame >>> pageShift).toNat).pte = some p
  not_both : ∀ p e, s.entry p = some e →
    ¬ (e.frame &&& pgValid ≠ 0#32 ∧ e.frame &&& pgOnswap ≠ 0#32)
  initial : ∃ k, k ≤ s.memsize ∧ ∀ f, (s.coremap f).inUse = true ↔ f < k
  swapOff : ∀ p e, s.entry p = some e → e.frame &&& pgOnswap ≠ 0#32 → e.swapOff ≠ invalidSwap

theorem PgtblEntry.and_pgValid_ne_zero_iff {e : PgtblEntry} :
    e.frame &&& pgValid ≠ 0#32 ↔ e.valid = true := by
  rw [ne_eq, and_pgValid_eq_zero_iff, Bool.not_eq_false]

theorem PgtblEntry.and_pgOnswap_ne_zero_iff {e : PgtblEntry} :
    e.frame &&& pgOnswap ≠ 0#32 ↔ e.onswap = true := by
  rw [ne_eq, and_pgOnswap_eq_zero_iff, Bool.not_eq_false]

theorem Good.coremapInverse (hs : Good s) : CoremapInverse s where
  frame_valid f hf := by
    obtain ⟨p, hp, hholder⟩ := hs.holder_of_inUse hf
    obtain ⟨e, he, hv, hnumber, _⟩ := hs.entry_of_holder hholder
    exact ⟨p, e, hp, he, PgtblEntry.and_pgValid_ne_zero_iff.mpr hv, hnumber⟩
  entry_valid p e he hv := by
    have hhome := Sim.home_of_valid he (PgtblEntry.and_pgValid_ne_zero_iff.mp hv)
    have hholder : s.holder e.number = some p := (hs.inv.home_iff p e.number).mp hhome
    unfold Sim.holder at hholder
    split at hholder
    · rename_i hin
      exact ⟨hin, hholder⟩
    · cases hholder
  not_both p e he := by
    rintro ⟨hv, hw⟩
    have hhome := Sim.home_of_valid he (PgtblEntry.and_pgValid_ne_zero_iff.mp hv)
    have hnone : (s.status p).home = none := by
      refine hs.inv.home_of_swapped p ?_
      change (s.status p).swapped = true
      rw [Sim.status_of_entry he]
      exact PgtblEntry.and_pgOnswap_ne_zero_iff.mp hw
    rw [hhome] at hnone
    cases hnone
  initial := hs.used
  swapOff p e he hw hoff := by
    refine hs.inv.slot_of_swapped p ?_ ?_
    · change (s.status p).swapped = true
      rw [Sim.status_of_entry he]
      exact PgtblEntry.and_pgOnswap_ne_zero_iff.mp hw
    · change (s.status p).slot = none
      rw [Sim.status_of_entry he]
      change e.slot = none
      rw [PgtblEntry.slot, if_pos hoff]

/-- Coremap and page tables are inverse to each other after every sequence of accesses. -/
theorem coremapInverse_of_simulate (hP : P.OnlyRef) {trace : List Access}
    (h : simulate env P swapsize trace (Sim.start memsize physmem alg) = .ok () s) :
    CoremapInverse s :=
  (good_of_simulate hP h).coremapInverse

/-- An environment in which no system call fails and the allocator returns zeroed memory. -/
def calmEnv : Env := ⟨fun _ => ⟨true, simPageSize⟩, fun _ => some fun _ => 0#64⟩

/-- Two pages that alternate in a single frame. -/
def alternation : List Access := [⟨'S', 0x1000#64⟩, ⟨'L', 0x2000#64⟩, ⟨'L', 0x1000#64⟩]

theorem coremapInverse_of_alternation :
    ∃ s, simulate calmEnv fifo 4#32 alternation (Sim.start 1 (fun _ => 0) 0) = .ok () s ∧
      CoremapInverse s := by
  obtain ⟨_, s, hs, _⟩ := Program.exists_of_holds (show Program.holds
    (simulate calmEnv fifo 4#32 alternation (Sim.start 1 (fun _ => 0) 0)) (fun _ _ => true) = true
    by decide +kernel)
  exact ⟨s, hs, coremapInverse_of_simulate fifo_onlyRef hs⟩

end OsAssignments.Paging
