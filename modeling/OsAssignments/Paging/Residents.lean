import OsAssignments.Library.Replacement
import OsAssignments.Paging.Counts
import OsAssignments.Paging.Fifo

/-!
# The pages in memory as a replacement problem

Seen from the set of pages in memory, a simulation is a run of requests to a memory with
`memsize` frames, whatever the replacement algorithm does: a page leaves only when no frame
is free. What is known about the recorded choices of the algorithm restricts the run.
-/

namespace OsAssignments.Paging

open Pager (Move)
open Replacement (Serves Run missed)

variable {σ : Type} {env : Env} {P : Policy σ} {swapsize : BitVec 32} {memsize : Nat}
  {physmem : Memory} {alg : σ} {s t u v : Sim σ} {a : Access} {m : Move PtePtr} {c : List UInt8}

/-! ## The pages in memory -/

/-- The pages in memory. -/
def Sim.resident (s : Sim σ) : Finset PtePtr :=
  ((List.range s.memsize).filterMap s.holder).toFinset

theorem Good.mem_resident (hs : Good s) {x : PtePtr} :
    x ∈ s.resident ↔ ∃ f, s.holder f = some x := by
  rw [Sim.resident, List.mem_toFinset, List.mem_filterMap]
  constructor
  · rintro ⟨f, -, hf⟩
    exact ⟨f, hf⟩
  · rintro ⟨f, hf⟩
    exact ⟨f, List.mem_range.mpr (hs.home_lt ((hs.inv.home_iff x f).mpr hf)), hf⟩

theorem Good.mem_resident_iff_home (hs : Good s) {x : PtePtr} :
    x ∈ s.resident ↔ (s.status x).home ≠ none := by
  rw [hs.mem_resident, Option.ne_none_iff_exists']
  exact exists_congr fun f => (hs.inv.home_iff x f).symm

theorem Good.card_resident (hs : Good s) : s.resident.card = s.usedFrames := by
  have hnodup : ((List.range s.memsize).filterMap s.holder).Nodup := by
    refine List.Nodup.filterMap (fun f g x hf hg => ?_) List.nodup_range
    exact hs.inv.holder_ne hg hf
  rw [Sim.resident, List.toFinset_card_of_nodup hnodup, List.length_filterMap_eq_countP,
    Sim.usedFrames]
  refine List.countP_congr fun f _ => ?_
  rw [hs.isSome_holder_iff]

/-- When no frame is free, as many pages are in memory as there are frames. -/
theorem Good.card_resident_of_full (hs : Good s) (hfull : s.freeFrame = none) :
    s.resident.card = s.memsize := by
  rw [hs.card_resident, Sim.usedFrames, List.countP_eq_length.mpr, List.length_range]
  exact fun f hf => Good.inUse_of_freeFrame_none hfull (List.mem_range.mp hf)

theorem Good.card_resident_lt (hs : Good s) (hfree : s.freeFrame ≠ none) :
    s.resident.card < s.memsize := by
  obtain ⟨f, hf⟩ := Option.ne_none_iff_exists'.mp hfree
  obtain ⟨hlt, -, hused⟩ := hs.freeFrame_eq_some hf
  rw [hs.card_resident, usedFrames_eq hlt.le hused]
  exact hlt

/-! ## One access -/

/-- Filling a free frame adds the page. -/
theorem resident_fill (hs : Good s) (ht : Good t) {p : PtePtr} {f : Nat} (hf : s.holder f = none)
    (hholder : t.holder = Function.update s.holder f (some p)) :
    t.resident = insert p s.resident := by
  ext x
  rw [Finset.mem_insert, ht.mem_resident, hs.mem_resident, hholder]
  constructor
  · rintro ⟨g, hg⟩
    rw [Function.update_apply] at hg
    split at hg
    · exact .inl (Option.some.inj hg).symm
    · exact .inr ⟨g, hg⟩
  · rintro (rfl | ⟨g, hg⟩)
    · exact ⟨f, Function.update_self ..⟩
    · refine ⟨g, ?_⟩
      rw [Function.update_of_ne, hg]
      rintro rfl
      rw [hf] at hg
      cases hg

/-- A page that gets the frame of another one takes its place. -/
theorem resident_replace (hs : Good s) (ht : Good t) {p q : PtePtr} {f : Nat}
    (hf : s.holder f = some q) (hholder : t.holder = Function.update s.holder f (some p)) :
    t.resident = insert p (s.resident.erase q) := by
  ext x
  rw [Finset.mem_insert, Finset.mem_erase, ht.mem_resident, hs.mem_resident, hholder]
  constructor
  · rintro ⟨g, hg⟩
    rw [Function.update_apply] at hg
    split at hg
    · exact .inl (Option.some.inj hg).symm
    · rename_i hgf
      refine .inr ⟨?_, g, hg⟩
      rintro rfl
      exact hgf (hs.inv.holder_ne hf hg)
  · rintro (rfl | ⟨hne, g, hg⟩)
    · exact ⟨f, Function.update_self ..⟩
    · refine ⟨g, ?_⟩
      rw [Function.update_of_ne, hg]
      rintro rfl
      exact hne (Option.some.inj (hg.symm.trans hf))

/-- An access is a request of its page; the page that leaves is the victim of the move. -/
theorem Accessed.serves (hs : Good s) (h : Accessed env s a m c u t) (hcons : Consulted P s m v) :
    Serves s.memsize s.resident (pteOf a.vaddr) m.victim t.resident := by
  have hm : s.pager.Enabled (pteOf a.vaddr) m := h.served.enabled
  have habsent : (s.status (pteOf a.vaddr)).home = none → pteOf a.vaddr ∉ s.resident := by
    intro hnone
    rw [hs.mem_resident_iff_home, not_not]
    exact hnone
  have hfull : m.victim ≠ none → s.resident.card = s.memsize := by
    cases hcons with
    | kept hvictim => exact fun h => absurd hvictim h
    | chose w _ hchooses => exact fun _ => hs.card_resident_of_full hchooses.full
  cases m with
  | hit f =>
    have hsame : t.resident = s.resident := by
      have hholder : t.holder = s.holder := h.holder_eq.trans h.served.holder_hit
      have hsize : t.memsize = s.memsize := by
        rw [h.rest]
        exact h.served.memsize
      rw [Sim.resident, Sim.resident, hholder, hsize]
    rw [hsame]
    exact .hit (hs.mem_resident.mpr ⟨f, (hs.inv.home_iff _ f).mp hm⟩)
  | fill f =>
    have hholder := h.holder_eq.trans (h.served.holder_miss fun g => nofun)
    rw [resident_fill hs h.good hm.2 hholder]
    refine .fill (habsent hm.1) (hs.card_resident_lt fun hnone => ?_)
    cases hcons with
    | kept _ hhit =>
      obtain ⟨g, hg⟩ := hhit hnone
      cases hg
    | chose w hvictim => exact hvictim rfl
  | dropped f q | wroteBack f q i =>
    have hholder := h.holder_eq.trans (h.served.holder_miss fun g => nofun)
    have hq : s.holder f = some q := hm.2.1
    rw [resident_replace hs h.good hq hholder]
    exact .replace q (habsent hm.1) (hfull nofun) (hs.mem_resident.mpr ⟨f, hq⟩)

/-- An access misses exactly when its page is not in memory. -/
theorem Accessed.missCount (hs : Good s) (h : Accessed env s a m c u t) (hnonneg : 0 ≤ s.missCount)
    (hlt : s.missCount + 1 < 2 ^ 31) :
    t.missCount = s.missCount + missed s.resident (pteOf a.vaddr) := by
  have hcount : t.missCount = (s.counters.tally m).miss := by
    rw [h.rest]
    exact congrArg Counters.miss h.served.counters
  have hm : s.pager.Enabled (pteOf a.vaddr) m := h.served.enabled
  have habsent : (s.status (pteOf a.vaddr)).home = none →
      missed s.resident (pteOf a.vaddr) = 1 := by
    intro hnone
    refine Replacement.missed_of_notMem ?_
    rw [hs.mem_resident_iff_home, not_not]
    exact hnone
  have hup := countUp_eq hnonneg hlt
  rw [hcount]
  cases m with
  | hit f =>
    rw [Replacement.missed_of_mem (hs.mem_resident.mpr ⟨f, (hs.inv.home_iff _ f).mp hm⟩)]
    exact (add_zero _).symm
  | fill f | dropped f q | wroteBack f q i =>
    rw [habsent hm.1]
    exact hup

/-- Each way in which `find_physpage` is seen to serve an access is one in which the access is. -/
theorem Accessed.of_served {m' : Move PtePtr} {c' : List UInt8} (h : Accessed env s a m c u t)
    (hserved : Served env s.counted (pteOf a.vaddr) a.vaddr a.type m' c' u)
    (hframe : m.frame * simPageSize = m'.frame * simPageSize) : Accessed env s a m' c' u t := by
  have hsame : m.frame = m'.frame := Nat.eq_of_mul_eq_mul_right (by decide) hframe
  exact ⟨hserved, h.good, hsame ▸ h.pager, hsame ▸ h.history, h.rest⟩

/-- The choice of the victim of an access is recorded before everything else it records. -/
theorem Accessed.chose {Φ : Nat → List (Option PtePtr) → List Event → Prop}
    (h : Accessed env s a m c u t) (heach : Each (Chose Φ) t.history) :
    Each (Chose Φ) s.history ∧ ∀ q, m.victim = some q →
      Φ m.frame s.pages s.history ∧ s.holder m.frame = some q := by
  have hhist : ∃ newer, t.history = newer ++ (s.evictions m ++ s.history) ∧
      ∀ ev ∈ newer, ev.NoChoice := by
    refine ⟨(if address (u.pager.frame m.frame) = a.vaddr.toNat then []
      else [.wrongContent a.vaddr]) ++ (.access a.type a.vaddr (pteOf a.vaddr) ::
        s.arrivals (pteOf a.vaddr) c m), ?_, List.forall_mem_append.mpr ⟨?_,
          List.forall_mem_cons.mpr ⟨?_, noChoice_arrivals s _ m⟩⟩⟩
    · rw [h.history, h.served.history, List.append_assoc, List.cons_append]
      rfl
    · split <;> simp [Event.NoChoice]
    · simp [Event.NoChoice]
  obtain ⟨newer, hhist, hnewer⟩ := hhist
  rw [hhist, each_chose_append hnewer, Sim.evictions, List.append_assoc,
    each_chose_append (noChoice_pageouts s m)] at heach
  have hm : s.pager.Enabled (pteOf a.vaddr) m := h.served.enabled
  cases m with
  | hit f | fill f => exact ⟨heach, fun q hq => absurd hq.symm (Option.some_ne_none q)⟩
  | dropped f q | wroteBack f q i =>
    obtain ⟨hchose, holder⟩ := each_cons.mp heach
    refine ⟨holder, fun q' hq' => ?_⟩
    obtain rfl := Option.some.inj hq'
    exact ⟨hchose f s.pages rfl, hm.2.1⟩

/-! ## Simulations -/

/-- The pages that a trace requests. -/
def requests (trace : List Access) : List PtePtr := trace.map fun a => pteOf a.vaddr

/-- A simulation is a run of requests, restricted by what is known about its choices. -/
theorem run_of_simulate (hP : P.OnlyRef) {Φ : Nat → List (Option PtePtr) → List Event → Prop}
    {Ψ : List PtePtr → Finset PtePtr → PtePtr → Prop}
    (hΨ : ∀ pre s f q, simulate env P swapsize pre (Sim.start memsize physmem alg) = .ok () s →
      Good s → s.holder f = some q → Φ f s.pages s.history → Ψ (requests pre) s.resident q) :
    ∀ trace s, simulate env P swapsize trace (Sim.start memsize physmem alg) = .ok () s →
      Good s ∧ (Each (Chose Φ) s.history → ∃ n : Nat,
        Run memsize Ψ (requests trace) s.resident n ∧ n ≤ trace.length ∧
          (trace.length < 2 ^ 31 → s.missCount = n)) := by
  refine simulate_induction hP _ ?_ ?_
  · intro s _ hfresh _
    have hempty : s.resident = ∅ := by
      rw [Finset.eq_empty_iff_forall_notMem]
      intro x hx
      obtain ⟨f, hf⟩ := hfresh.good.mem_resident.mp hx
      rw [hfresh.holder] at hf
      cases hf
    exact ⟨0, hempty ▸ .nil, le_rfl, fun _ => congrArg Counters.miss hfresh.counters⟩
  · intro pre s a m c u t hpre hs ih ha hfind hacc heach
    obtain ⟨_, m', c', v, hframe, hserved, hcons, -⟩ := hs.findPhyspage hP hfind
    have hacc := hacc.of_served hserved hframe
    obtain ⟨hbefore, hchoice⟩ := hacc.chose heach
    obtain ⟨n, hrun, hle, hn⟩ := ih hbefore
    have hsize := memsize_of_simulate hP hpre
    have hmissed : missed s.resident (pteOf a.vaddr) ≤ 1 := by
      rw [missed]
      split <;> omega
    rw [List.length_append, List.length_singleton]
    refine ⟨n + missed s.resident (pteOf a.vaddr), ?_, by omega, fun hlen => ?_⟩
    · rw [requests, List.map_append]
      refine hrun.concat (hsize ▸ hacc.serves hs hcons) fun q hq => ?_
      obtain ⟨hΦ, hholder⟩ := hchoice q hq
      exact hΨ pre s _ q hpre hs hholder hΦ
    · have hcount := hn (by omega)
      rw [hacc.missCount hs (by omega) (by omega), hcount, Nat.cast_add]

/-- Nothing is required of the choices. -/
theorem chose_any (history : List Event) : Each (Chose fun _ _ _ => True) history := by
  induction history with
  | nil => exact .nil
  | cons ev older ih => exact .cons (fun _ _ _ => trivial) ih

/-- Every simulation is a run of requests. -/
theorem exists_run (hP : P.OnlyRef) {trace : List Access}
    (h : simulate env P swapsize trace (Sim.start memsize physmem alg) = .ok () s) :
    ∃ n : Nat, Run memsize (fun _ _ _ => True) (requests trace) s.resident n ∧
      (trace.length < 2 ^ 31 → s.missCount = n) := by
  obtain ⟨n, hrun, -, hn⟩ := (run_of_simulate hP (Φ := fun _ _ _ => True)
    (Ψ := fun _ _ _ => True) (fun _ _ _ _ _ _ _ _ => trivial) trace s h).2 (chose_any _)
  exact ⟨n, hrun, hn⟩

/-! ## Traces that fit into memory -/

/-- Every page of a trace misses at least once. Pages are evicted exactly when there are more
pages in the trace than frames; otherwise every page misses once and all of them stay. -/
theorem evictions_eq_zero_iff (hP : P.OnlyRef) {trace : List Access}
    (hlen : trace.length < 2 ^ 31)
    (h : simulate env P swapsize trace (Sim.start memsize physmem alg) = .ok () s) :
    (requests trace).toFinset.card ≤ s.missCount ∧
    (s.evictCleanCount + s.evictDirtyCount = 0 ↔ (requests trace).toFinset.card ≤ memsize) ∧
    ((requests trace).toFinset.card ≤ memsize → s.missCount = (requests trace).toFinset.card ∧
      ∀ x, (s.status x).home ≠ none ↔ x ∈ requests trace) := by
  obtain ⟨hs, htally⟩ := tallied_of_simulate hP trace s h
  obtain ⟨n, hrun, hn⟩ := exists_run hP h
  have hn := hn hlen
  have hdistinct := hrun.card_toFinset_le
  have hmisses := (htally hlen).misses
  have hused := hs.card_resident
  have hframes := hrun.card_le
  refine ⟨by omega, ⟨fun hzero => ?_, fun hfits => ?_⟩, fun hfits => ?_⟩
  · omega
  · obtain ⟨hresident, hcount⟩ := hrun.eq_toFinset hfits
    rw [hresident] at hused
    omega
  · obtain ⟨hresident, hcount⟩ := hrun.eq_toFinset hfits
    refine ⟨by omega, fun x => ?_⟩
    rw [← hs.mem_resident_iff_home, hresident, List.mem_toFinset]

theorem evictions_of_alternation :
    ∃ s, simulate calmEnv fifo 4#32 alternation (Sim.start 2 (fun _ => 0) 0) = .ok () s ∧
      (requests alternation).toFinset.card ≤ s.missCount ∧
      (s.evictCleanCount + s.evictDirtyCount = 0 ↔
        (requests alternation).toFinset.card ≤ 2) ∧
      ((requests alternation).toFinset.card ≤ 2 →
        s.missCount = (requests alternation).toFinset.card ∧
        ∀ x, (s.status x).home ≠ none ↔ x ∈ requests alternation) := by
  obtain ⟨_, s, hs, _⟩ := Program.exists_of_holds (show Program.holds
    (simulate calmEnv fifo 4#32 alternation (Sim.start 2 (fun _ => 0) 0)) (fun _ _ => true) = true
    by decide +kernel)
  exact ⟨s, hs, evictions_eq_zero_iff fifo_onlyRef (by decide) hs⟩

end OsAssignments.Paging
