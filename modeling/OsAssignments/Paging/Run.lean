import OsAssignments.Paging.Step

/-!
# Simulations

A simulation sets up empty page tables and then performs its accesses. Every state it
reaches between two accesses satisfies the invariant, and facts about such states are
proved by induction over the accesses performed so far.
-/

namespace OsAssignments.Paging

open Pager (Move)

variable {σ : Type} {env : Env} {P : Policy σ} {swapsize : BitVec 32} {memsize : Nat}
  {physmem : Memory} {alg : σ} {s t : Sim σ}

/-- A state in which no page has been accessed yet. -/
structure Fresh (memsize : Nat) (swapsize : BitVec 32) (s : Sim σ) : Prop where
  good : Good s
  entry : ∀ p, s.entry p = none
  inUse : ∀ f, (s.coremap f).inUse = false
  counters : s.counters = ⟨0, 0, 0, 0⟩
  refCount : s.refCount = 0
  history : s.history = []
  nbits : s.swapmap.nbits = swapsize
  memsize : s.memsize = memsize

theorem Fresh.status (h : Fresh memsize swapsize s) (p : PtePtr) :
    s.status p = ⟨none, false, false, none⟩ := by
  simp only [Sim.status, h.entry]

theorem Fresh.holder (h : Fresh memsize swapsize s) (f : Nat) : s.holder f = none := by
  simp only [Sim.holder, h.inUse, Bool.false_eq_true, ite_false]

theorem Fresh.content (h : Fresh memsize swapsize s) (p : PtePtr) : s.pager.content p = none := by
  rw [Pager.content_eq_none_iff h.good.inv]
  change (s.status p).home = none ∧ (s.status p).swapped = false
  rw [h.status]
  exact ⟨rfl, rfl⟩

theorem Fresh.of_changesOnlyRef (hs : Fresh memsize swapsize s) (h : ChangesOnlyRef s t) :
    Fresh memsize swapsize t where
  good := hs.good.of_changesOnlyRef h
  entry p := by
    cases he : t.entry p with
    | none => rfl
    | some e =>
      obtain ⟨e₀, he₀, _⟩ := h.exists_entry he
      rw [hs.entry] at he₀
      cases he₀
  inUse f := (h.frame f).1.trans (hs.inUse f)
  counters := by
    rw [← hs.counters, h.rest]
    rfl
  refCount := by rw [← hs.refCount, h.rest]
  history := h.history_eq.trans hs.history
  nbits := by rw [← hs.nbits, h.rest]
  memsize := h.memsize_eq.trans hs.memsize

/-- The set-up leaves nothing in memory and nothing on swap. -/
theorem setup_ok (hP : P.OnlyRef)
    (h : setup P swapsize (Sim.start memsize physmem alg) = .ok () s) :
    Fresh memsize swapsize s := by
  rw [setup, Program.bind_ok] at h
  obtain ⟨_, s₁, hswap, h⟩ := h
  obtain ⟨swapmap, hmap, rfl⟩ := swapInit_ok hswap
  rw [initPagetable, Program.modify_bind] at h
  refine Fresh.of_changesOnlyRef ?_ ((hP.init).of_ok h)
  obtain ⟨hnbits, hsized, hclear⟩ := Bitmap.bitmapCreate_spec hmap
  have hentry : ∀ p, Sim.entry { Sim.start memsize physmem alg with
      swapmap := swapmap, pgdir := fun _ => none } p = none := fun p => rfl
  have hstatus : ∀ p, Sim.status { Sim.start memsize physmem alg with
      swapmap := swapmap, pgdir := fun _ => none } p = ⟨none, false, false, none⟩ := fun p => rfl
  refine ⟨⟨⟨hsized, ?_, ?_, ?_⟩, ?_, ⟨0, Nat.zero_le _, ?_⟩, ?_⟩, hentry, fun _ => rfl, rfl, rfl,
    rfl, hnbits, rfl⟩
  · intro p e he
    cases (hentry p).symm.trans he
  · intro i hi hset
    change i < swapmap.nbits.toNat at hi
    change swapmap.bit i = true at hset
    rw [hnbits] at hi
    rw [hclear i hi] at hset
    cases hset
  · intro p i hi
    cases (congrArg PageStatus.slot (hstatus p)).symm.trans hi
  · exact Pager.inv_empty _ _ _
  · intro f
    simp [Sim.start]
  · intro f hf
    cases hf

/-- The set-up ends with a call of the algorithm's `init` on its uninitialised data. -/
theorem setup_init (h : setup P swapsize (Sim.start memsize physmem alg) = .ok () s) :
    ∃ v, v.bookkeeping = (alg, fun _ => 0) ∧ P.init v = .ok () s := by
  rw [setup, Program.bind_ok] at h
  obtain ⟨_, s₁, hswap, h⟩ := h
  obtain ⟨swapmap, -, rfl⟩ := swapInit_ok hswap
  exact ⟨_, rfl, h⟩

/-- What holds once the data structures are set up and is preserved by every access holds
in every state between two accesses, and so does the invariant. -/
theorem simulate_induction (hP : P.OnlyRef)
    (Inv : List Access → Sim σ → Prop)
    (hfresh : ∀ s, setup P swapsize (Sim.start memsize physmem alg) = .ok () s →
      Fresh memsize swapsize s → Inv [] s)
    (hstep : ∀ pre s a m c u t,
      simulate env P swapsize pre (Sim.start memsize physmem alg) = .ok () s → Good s → Inv pre s →
      accessMem env P a s = .ok () t →
      findPhyspage env P a.vaddr a.type s = .ok (m.frame * simPageSize) u →
      Accessed env s a m c u t → Inv (pre ++ [a]) t) :
    ∀ trace s, simulate env P swapsize trace (Sim.start memsize physmem alg) = .ok () s →
      Good s ∧ Inv trace s := by
  intro trace s h
  obtain ⟨s₀, hsetup, h⟩ := simulate_ok.mp h
  have hfresh₀ := setup_ok hP hsetup
  refine Program.runAll_induction (fun pre s => Good s ∧ Inv pre s)
    ⟨hfresh₀.good, hfresh s₀ hsetup hfresh₀⟩ ?_ trace s h
  intro pre s a t hpre ⟨hs, hinv⟩ ha
  obtain ⟨_, m, c, u, hfind, hacc⟩ := hs.accessMem hP ha
  have hrun : simulate env P swapsize pre (Sim.start memsize physmem alg) = .ok () s :=
    simulate_ok.mpr ⟨s₀, hsetup, hpre⟩
  exact ⟨hacc.good, hstep pre s a m c u t hrun hs hinv ha hfind hacc⟩

/-- The invariant holds between any two accesses. -/
theorem good_of_simulate (hP : P.OnlyRef) {trace : List Access}
    (h : simulate env P swapsize trace (Sim.start memsize physmem alg) = .ok () s) : Good s :=
  (simulate_induction hP (fun _ _ => True) (fun _ _ _ => trivial)
    (fun _ _ _ _ _ _ _ _ _ _ _ _ _ => trivial) trace s h).1

theorem memsize_of_simulate (hP : P.OnlyRef) {trace : List Access}
    (h : simulate env P swapsize trace (Sim.start memsize physmem alg) = .ok () s) :
    s.memsize = memsize := by
  refine (simulate_induction hP (fun _ s => s.memsize = memsize) (fun _ _ hs => hs.memsize) ?_
    trace s h).2
  intro pre s a m c u t _ _ ih _ _ hacc
  rw [hacc.rest]
  exact hacc.served.memsize.trans ih

end OsAssignments.Paging
