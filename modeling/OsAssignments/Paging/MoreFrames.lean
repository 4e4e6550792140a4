import OsAssignments.Paging.Comparison

/-!
# More frames

Where a list of the pages that depends on the trace alone decides which page leaves, a memory
with more frames holds more pages and misses no more often. The pages in the order of their last
use are such a list, forwards for the victims that `lru.c` is meant to find and backwards for
those that it finds. For the victims of `opt.c` it is the order of first use, with the first page
put last.
-/

namespace OsAssignments.Paging

open Pager (Move)
open Replacement (Run Hindmost firstUses)

variable {σ τ : Type} {env env' : Env} {P : Policy σ} {Q : Policy τ}
  {swapsize swapsize' : BitVec 32} {memsize memsize' : Nat} {physmem physmem' : Memory} {alg : σ}
  {alg' : τ} {s : Sim σ} {t : Sim τ} {trace : List Access} {order : List PtePtr → List PtePtr}
  {Φ : Nat → List (Option PtePtr) → List Event → Prop}

/-- The list decides about every choice that has the property. -/
def ListDecides (order : List PtePtr → List PtePtr)
    (Φ : Nat → List (Option PtePtr) → List Event → Prop) (env : Env) (P : Policy σ)
    (swapsize : BitVec 32) (start : Sim σ) : Prop :=
  ∀ pre s f q, simulate env P swapsize pre start = .ok () s → Good s → s.holder f = some q →
    Φ f s.pages s.history → Hindmost order (requests pre) s.resident q

/-- With more frames a simulation keeps all pages that it keeps with fewer and misses no more
often, if a list decides about its choices. -/
theorem mono_of_listDecides (hP : P.OnlyRef) (hQ : Q.OnlyRef) (hlen : trace.length < 2 ^ 31)
    (hle : memsize ≤ memsize') (hall : ∀ ps, ∀ x ∈ ps, x ∈ order ps)
    (hdecides : ListDecides order Φ env P swapsize (Sim.start memsize physmem alg))
    (hdecides' : ListDecides order Φ env' Q swapsize' (Sim.start memsize' physmem' alg'))
    (h : simulate env P swapsize trace (Sim.start memsize physmem alg) = .ok () s)
    (hchose : Each (Chose Φ) s.history)
    (h' : simulate env' Q swapsize' trace (Sim.start memsize' physmem' alg') = .ok () t)
    (hchose' : Each (Chose Φ) t.history) :
    t.missCount ≤ s.missCount ∧
      ∀ x, (s.status x).home ≠ none → (t.status x).home ≠ none := by
  obtain ⟨hs, hruns⟩ := run_of_simulate hP hdecides trace s h
  obtain ⟨ht, hrunt⟩ := run_of_simulate hQ hdecides' trace t h'
  obtain ⟨n, hrun, -, hn⟩ := hruns hchose
  obtain ⟨n', hrun', -, hn'⟩ := hrunt hchose'
  have hmisses := Run.le_of_hindmost hall hle hrun hrun'
  rw [hn hlen, hn' hlen]
  refine ⟨by exact_mod_cast hmisses, fun x hx => ?_⟩
  rw [← ht.mem_resident_iff_home]
  exact Run.subset_of_hindmost hall hle hrun hrun' (hs.mem_resident_iff_home.mpr hx)

/-- Requested pages are in memory, as many as there are or as there are frames. -/
theorem resident_requested (hP : P.OnlyRef)
    (h : simulate env P swapsize trace (Sim.start memsize physmem alg) = .ok () s) :
    s.resident ⊆ (requests trace).toFinset ∧
      s.resident.card = min memsize (requests trace).toFinset.card := by
  obtain ⟨n, hrun, -⟩ := exists_run hP h
  exact ⟨hrun.subset, hrun.card_eq⟩

/-! ## The page used least recently -/

instance LeastRecent.decidable (f : Nat) (pages : List (Option PtePtr)) (history : List Event) :
    Decidable (LeastRecent f pages history) :=
  decidable_of_iff (∃ p ∈ victimOf f pages, ∀ q ∈ pages.filterMap id,
    age history q ≤ age history p)
    (by simp [LeastRecent, victimOf, Option.join_eq_some_iff])

theorem leastRecent_decides (hP : P.OnlyRef) :
    ListDecides List.reverse LeastRecent env P swapsize (Sim.start memsize physmem alg) := by
  rintro pre s f q hpre hs hq ⟨p, hp, hleast⟩ x hx
  obtain rfl : p = q := by
    have hvictim := victimOf_pages hs hq
    rw [victimOf, hp] at hvictim
    exact Option.some.inj hvictim
  obtain ⟨g, hg⟩ := hs.mem_resident.mp hx
  have hpage := victimOf_pages hs hg
  rw [victimOf, Option.join_eq_some_iff] at hpage
  have hage := hleast x (List.mem_of_getElem? hpage)
  rw [age, age, (accessedPages_of_simulate hP pre s hpre).2] at hage
  exact hage

/-- An algorithm that always evicts the page accessed least recently keeps with more frames all
pages that it keeps with fewer, and misses no more often. -/
theorem leastRecent_mono (hP : P.OnlyRef) (hQ : Q.OnlyRef) (hlen : trace.length < 2 ^ 31)
    (hle : memsize ≤ memsize')
    (h : simulate env P swapsize trace (Sim.start memsize physmem alg) = .ok () s)
    (hrecent : Each (Chose LeastRecent) s.history)
    (h' : simulate env' Q swapsize' trace (Sim.start memsize' physmem' alg') = .ok () t)
    (hrecent' : Each (Chose LeastRecent) t.history) :
    t.missCount ≤ s.missCount ∧
      ∀ x, (s.status x).home ≠ none → (t.status x).home ≠ none :=
  mono_of_listDecides hP hQ hlen hle (fun _ _ => List.mem_reverse.mpr) (leastRecent_decides hP)
    (leastRecent_decides hQ) h hrecent h' hrecent'

theorem leastRecent_mono_of_alternation :
    ∃ s t, simulate calmEnv fifo 4#32 alternation (Sim.start 1 (fun _ => 0) 0) = .ok () s ∧
      simulate calmEnv fifo 4#32 alternation (Sim.start 2 (fun _ => 0) 0) = .ok () t ∧
      t.missCount ≤ s.missCount ∧
      ∀ x, (s.status x).home ≠ none → (t.status x).home ≠ none := by
  obtain ⟨_, s, hs, hchose⟩ := Program.exists_of_holds (show Program.holds
    (simulate calmEnv fifo 4#32 alternation (Sim.start 1 (fun _ => 0) 0))
    (fun _ s => decide (Each (Chose LeastRecent) s.history)) = true by decide +kernel)
  obtain ⟨_, t, ht, hchose'⟩ := Program.exists_of_holds (show Program.holds
    (simulate calmEnv fifo 4#32 alternation (Sim.start 2 (fun _ => 0) 0))
    (fun _ s => decide (Each (Chose LeastRecent) s.history)) = true by decide +kernel)
  exact ⟨s, t, hs, ht, leastRecent_mono fifo_onlyRef fifo_onlyRef (by decide) (by decide) hs
    (of_decide_eq_true hchose) ht (of_decide_eq_true hchose')⟩

/-! ## The page used last -/

theorem mostRecent_decides (hP : P.OnlyRef) :
    ListDecides List.dedup MostRecent env P swapsize (Sim.start memsize physmem alg) := by
  intro pre s f q hpre hs hq hlast x hx
  exact Replacement.idxOf_dedup_le (hlast.usedLast hP hpre hq)
    (List.mem_toFinset.mp ((resident_requested hP hpre).1 hx))

/-- With the functions of `lru.c` and more frames all pages are kept that are kept with fewer, and
no more accesses miss. -/
theorem lru_mono {memory memory' : NodeMemory} {data data' : Lru} {s t : Sim Lru}
    (hmem : 1 ≤ memsize) (hle : memsize ≤ memsize') (hlen : trace.length < 2 ^ 31)
    (h : simulate env (lru memory) swapsize trace (Sim.start memsize physmem data) = .ok () s)
    (h' : simulate env' (lru memory') swapsize' trace (Sim.start memsize' physmem' data') =
      .ok () t) :
    t.missCount ≤ s.missCount ∧
      ∀ x, (s.status x).home ≠ none → (t.status x).home ≠ none :=
  mono_of_listDecides (lru_onlyRef memory) (lru_onlyRef memory') hlen hle
    (fun _ _ => List.mem_dedup.mpr) (mostRecent_decides (lru_onlyRef memory))
    (mostRecent_decides (lru_onlyRef memory')) h (mostRecent_of_simulate hmem h) h'
    (mostRecent_of_simulate (hmem.trans hle) h')

theorem lru_mono_of_threePages :
    ∃ s t, simulate calmEnv (lru cleanMemory) 4#32 threePages
        (Sim.start 1 (fun _ => 0) ⟨.empty, none, none⟩) = .ok () s ∧
      simulate calmEnv (lru cleanMemory) 4#32 threePages
        (Sim.start 2 (fun _ => 0) ⟨.empty, none, none⟩) = .ok () t ∧
      t.missCount ≤ s.missCount ∧
      ∀ x, (s.status x).home ≠ none → (t.status x).home ≠ none := by
  obtain ⟨_, s, hs, _⟩ := Program.exists_of_holds (show Program.holds
    (simulate calmEnv (lru cleanMemory) 4#32 threePages
      (Sim.start 1 (fun _ => 0) ⟨.empty, none, none⟩)) (fun _ _ => true) = true
    by decide +kernel)
  obtain ⟨_, t, ht, _⟩ := Program.exists_of_holds (show Program.holds
    (simulate calmEnv (lru cleanMemory) 4#32 threePages
      (Sim.start 2 (fun _ => 0) ⟨.empty, none, none⟩)) (fun _ _ => true) = true
    by decide +kernel)
  exact ⟨s, t, hs, ht, lru_mono (by decide) (by decide) (by decide) hs ht⟩

/-! ## The page in the first frame -/

section

variable {mallocs : Mallocs} {tracefile : Option (List UInt8)} {type : Char} {data : Opt}
  {s t u v : Sim Opt} {a : Access} {m : Move PtePtr} {c : List UInt8} {ps : List PtePtr}

/-- Whoever has to leave leaves the first frame. -/
theorem Spent.frame_eq_zero (h : Spent s) (hmem : 1 ≤ s.memsize)
    (hcons : Consulted (opt mallocs tracefile type) s m v) (hvictim : m.victim ≠ none) :
    m.frame = 0 := by
  cases hcons with
  | kept hnone => exact absurd hnone hvictim
  | chose w _ hchooses =>
    obtain ⟨hfull, v', hbook, _, hsize, hcall⟩ := hchooses
    exact (EStateM.Result.ok.inj (hcall.symm.trans (h.evict hmem hfull hbook hsize))).1

/-- A page is brought into the first frame that is not in use. -/
theorem Accessed.fill_eq {f : Nat} (hs : Good s) (h : Accessed env s a (.fill f) c u t) :
    f = s.resident.card := by
  obtain ⟨k, hk, hused⟩ := hs.used
  obtain ⟨k', hk', hused'⟩ := h.good.used
  have hholder : t.holder = Function.update s.holder f (some (pteOf a.vaddr)) :=
    h.holder_eq.trans (h.served.holder_miss fun g hg => by cases hg)
  have hafter : ∀ g, g = f ∨ g < k ↔ g < k' := by
    intro g
    rw [← hused', ← h.good.isSome_holder_iff, hholder, Function.update_apply, ← hused,
      ← hs.isSome_holder_iff]
    by_cases hg : g = f
    · simp [hg]
    · simp [hg]
  have hfree : ¬ f < k := by
    have hnone : s.holder f = none := h.served.enabled.2
    rw [← hused, ← hs.isSome_holder_iff, hnone]
    exact Bool.false_ne_true
  have hf := hafter f
  have hkf := hafter k
  rw [hs.card_resident, usedFrames_eq hk hused]
  omega

/-- Every frame but the first holds its page in the order of first use. -/
def Settled (ps : List PtePtr) (s : Sim Opt) : Prop :=
  ∀ f, f ≠ 0 → f < s.memsize → s.holder f = (firstUses ps)[f]?

theorem Settled.accessed (hs : Good s) (h : Settled ps s)
    (hsub : s.resident ⊆ ps.toFinset) (hcard : s.resident.card = min s.memsize ps.toFinset.card)
    (hacc : Accessed env s a m c u t) (hfull : m.victim ≠ none → s.resident.card = s.memsize)
    (hzero : m.victim ≠ none → m.frame = 0) : Settled (ps ++ [pteOf a.vaddr]) t := by
  intro f hf hlt
  have hsize : t.memsize = s.memsize := by
    rw [hacc.rest]
    exact hacc.served.memsize
  rw [hsize] at hlt
  rw [← Replacement.length_firstUses] at hcard
  rw [hacc.holder_eq]
  have hm : s.pager.Enabled (pteOf a.vaddr) m := hacc.served.enabled
  cases m with
  | hit g =>
    have hin : pteOf a.vaddr ∈ ps :=
      List.mem_toFinset.mp (hsub (hs.mem_resident.mpr ⟨g, (hs.inv.home_iff _ g).mp hm⟩))
    rw [hacc.served.holder_hit, Replacement.firstUses_concat_of_mem hin]
    exact h f hf hlt
  | fill g =>
    obtain rfl := hacc.fill_eq hs
    have hholder : t.holder = Function.update s.holder s.resident.card (some (pteOf a.vaddr)) :=
      hacc.holder_eq.trans (hacc.served.holder_miss fun g => nofun)
    have hroom : s.resident.card < s.memsize := by
      rw [← hsize]
      refine hacc.good.home_lt ((hacc.good.inv.home_iff (pteOf a.vaddr) _).mpr ?_)
      change t.holder s.resident.card = _
      rw [hholder, Function.update_self]
    -- While a frame is free all requested pages are in memory.
    have hall : s.resident = ps.toFinset := by
      refine Finset.eq_of_subset_of_card_le hsub ?_
      rw [← Replacement.length_firstUses]
      omega
    have hnew : pteOf a.vaddr ∉ ps := by
      rw [← List.mem_toFinset, ← hall, hs.mem_resident_iff_home, not_not]
      exact hm.1
    have hlength : (firstUses ps).length = s.resident.card := by omega
    rw [← hacc.holder_eq, hholder, Replacement.firstUses_concat_of_notMem hnew,
      Function.update_apply]
    split
    · rename_i heq
      rw [heq, ← hlength, List.getElem?_concat_length]
    · rename_i hne
      rw [h f hf hlt]
      rcases Nat.lt_or_ge f (firstUses ps).length with hbefore | hbehind
      · rw [List.getElem?_append_left hbefore]
      · rw [List.getElem?_eq_none hbehind, List.getElem?_eq_none]
        rw [List.length_append, List.length_singleton]
        omega
  | dropped g q | wroteBack g q i =>
    have hframe : g = 0 := hzero nofun
    have hcount := hfull nofun
    rw [hacc.served.holder_miss fun g => nofun,
      Replacement.getElem?_firstUses_append (by omega)]
    change Function.update s.holder g _ f = _
    rw [hframe, Function.update_of_ne hf]
    exact h f hf hlt

theorem settled_of_simulate (hmem : 1 ≤ memsize) : ∀ trace s,
    simulate env (opt mallocs tracefile type) swapsize trace (Sim.start memsize physmem data) =
      .ok () s → Good s ∧ Settled (requests trace) s := by
  have hP := opt_onlyRef mallocs tracefile type
  refine simulate_induction hP (fun pre s => Settled (requests pre) s) ?_ ?_
  · intro s _ hfresh f _ _
    exact hfresh.holder f
  · intro pre s a m c u t hpre hs h _ hfind hacc
    have hsize := memsize_of_simulate hP hpre
    obtain ⟨_, hspent⟩ := spent_of_simulate hmem pre s hpre
    obtain ⟨hsub, hcard⟩ := resident_requested hP hpre
    obtain ⟨_, m', c', v, hframe, hserved, hcons, -⟩ := hs.findPhyspage hP hfind
    rw [requests, List.map_append, List.map_singleton]
    refine h.accessed hs hsub (hsize ▸ hcard) (hacc.of_served hserved hframe) ?_
      (hspent.frame_eq_zero (by omega) hcons)
    cases hcons with
    | kept hnone => exact fun hvictim => absurd hnone hvictim
    | chose w _ hchooses => exact fun _ => hs.card_resident_of_full hchooses.full

/-- With the functions of `opt.c` a page in any frame but the first stays there until the end. -/
theorem opt_keeps (hmem : 1 ≤ memsize) {pre post : List Access}
    (h : simulate env (opt mallocs tracefile type) swapsize pre (Sim.start memsize physmem data) =
      .ok () s)
    (h' : simulate env (opt mallocs tracefile type) swapsize (pre ++ post)
      (Sim.start memsize physmem data) = .ok () t) {f : Nat} (hf : f ≠ 0) {p : PtePtr}
    (hp : (s.status p).home = some f) : (t.status p).home = some f := by
  have hP := opt_onlyRef mallocs tracefile type
  obtain ⟨hs, hsettled⟩ := settled_of_simulate hmem _ s h
  obtain ⟨ht, hsettled'⟩ := settled_of_simulate hmem _ t h'
  have hsize := (memsize_of_simulate hP h').trans (memsize_of_simulate hP h).symm
  have hlt := hs.home_lt hp
  have hholder := (hs.inv.home_iff p f).mp hp
  change s.holder f = some p at hholder
  rw [hsettled f hf hlt] at hholder
  refine (ht.inv.home_iff p f).mpr ?_
  change t.holder f = some p
  have hrequests : requests (pre ++ post) = requests pre ++ requests post := List.map_append
  rw [hsettled' f hf (hsize ▸ hlt), hrequests,
    Replacement.getElem?_firstUses_append (List.getElem?_eq_some_iff.mp hholder).1]
  exact hholder

theorem opt_keeps_of_threePages :
    ∃ t, simulate calmEnv (opt (fun _ => true) (some comesBack) 'L') 4#32
        (threePages.take 2 ++ threePages.drop 2) (Sim.start 2 (fun _ => 0) ⟨.empty, none⟩) =
          .ok () t ∧ (t.status (pteOf 0x2000#64)).home = some 1 := by
  obtain ⟨_, s, hs, hhome⟩ := Program.exists_of_holds (show Program.holds
    (simulate calmEnv (opt (fun _ => true) (some comesBack) 'L') 4#32 (threePages.take 2)
      (Sim.start 2 (fun _ => 0) ⟨.empty, none⟩))
    (fun _ s => (s.status (pteOf 0x2000#64)).home = some 1) = true by decide +kernel)
  obtain ⟨_, t, ht, _⟩ := Program.exists_of_holds (show Program.holds
    (simulate calmEnv (opt (fun _ => true) (some comesBack) 'L') 4#32
      (threePages.take 2 ++ threePages.drop 2) (Sim.start 2 (fun _ => 0) ⟨.empty, none⟩))
    (fun _ _ => true) = true by decide +kernel)
  exact ⟨t, ht, opt_keeps (by decide) hs ht (by decide) (of_decide_eq_true hhome)⟩

/-- Whatever `opt.c` chooses is the first frame. -/
theorem firstFrame_of_simulate (hmem : 1 ≤ memsize)
    (h : simulate env (opt mallocs tracefile type) swapsize trace (Sim.start memsize physmem data) =
      .ok () s) : Each (Chose fun f _ _ => f = 0) s.history := by
  have hP := opt_onlyRef mallocs tracefile type
  have heach : Each (Chose fun f _ _ => f = 0) (Program.final (simulate env
      (opt mallocs tracefile type) swapsize trace (Sim.start memsize physmem data))).history := by
    refine (each_chose_iff hP _ (fun _ => 0) ?_).mpr fun _ _ _ _ _ => rfl
    intro pre s hpre hfull v hbook _ hsize
    obtain ⟨_, hspent⟩ := spent_of_simulate hmem pre s hpre
    have hmemsize := memsize_of_simulate hP hpre
    exact ⟨v, hspent.evict (by omega) hfull hbook hsize⟩
  rw [h] at heach
  exact heach

theorem firstFrame_decides (hmem : 1 ≤ memsize) :
    ListDecides (fun ps => (firstUses ps).rotate 1) (fun f _ _ => f = 0) env
      (opt mallocs tracefile type) swapsize (Sim.start memsize physmem data) := by
  rintro pre s _ q hpre hs hq rfl x hx
  obtain ⟨_, hsettled⟩ := settled_of_simulate hmem pre s hpre
  obtain ⟨hsub, -⟩ := resident_requested (opt_onlyRef mallocs tracefile type) hpre
  obtain ⟨g, hg⟩ := hs.mem_resident.mp hx
  by_cases hzero : g = 0
  · rw [hzero, hq] at hg
    rw [Option.some.inj hg]
  · have hlt := hs.home_lt ((hs.inv.home_iff x g).mpr hg)
    have hfirst := hsettled g hzero hlt
    rw [hg] at hfirst
    have hin : q ∈ firstUses (requests pre) := Replacement.mem_firstUses.mpr
      (List.mem_toFinset.mp (hsub (hs.mem_resident.mpr ⟨0, hq⟩)))
    obtain ⟨k, hk⟩ := List.mem_iff_getElem?.mp hin
    refine Replacement.idxOf_rotate_le (Replacement.nodup_firstUses _) (Nat.pos_of_ne_zero hzero)
      hfirst.symm hk ?_
    by_contra hbetween
    have hheld := hsettled k (by omega) (by omega)
    have := hs.inv.holder_ne hq (hheld.trans hk)
    omega

/-- With the functions of `opt.c` and more frames all pages are kept that are kept with fewer, and
no more accesses miss. -/
theorem opt_mono {mallocs' : Mallocs} {tracefile' : Option (List UInt8)} {type' : Char}
    {data' : Opt} (hmem : 1 ≤ memsize) (hle : memsize ≤ memsize') (hlen : trace.length < 2 ^ 31)
    (h : simulate env (opt mallocs tracefile type) swapsize trace (Sim.start memsize physmem data) =
      .ok () s)
    (h' : simulate env' (opt mallocs' tracefile' type') swapsize' trace
      (Sim.start memsize' physmem' data') = .ok () t) :
    t.missCount ≤ s.missCount ∧
      ∀ x, (s.status x).home ≠ none → (t.status x).home ≠ none :=
  mono_of_listDecides (opt_onlyRef mallocs tracefile type) (opt_onlyRef mallocs' tracefile' type')
    hlen hle (fun _ _ h => List.mem_rotate.mpr (Replacement.mem_firstUses.mpr h))
    (firstFrame_decides hmem) (firstFrame_decides (hmem.trans hle)) h
    (firstFrame_of_simulate hmem h) h' (firstFrame_of_simulate (hmem.trans hle) h')

theorem opt_mono_of_threePages :
    ∃ s t, simulate calmEnv (opt (fun _ => true) (some comesBack) 'L') 4#32 threePages
        (Sim.start 1 (fun _ => 0) ⟨.empty, none⟩) = .ok () s ∧
      simulate calmEnv (opt (fun _ => true) (some comesBack) 'L') 4#32 threePages
        (Sim.start 2 (fun _ => 0) ⟨.empty, none⟩) = .ok () t ∧
      t.missCount ≤ s.missCount ∧
      ∀ x, (s.status x).home ≠ none → (t.status x).home ≠ none := by
  obtain ⟨_, s, hs, _⟩ := Program.exists_of_holds (show Program.holds
    (simulate calmEnv (opt (fun _ => true) (some comesBack) 'L') 4#32 threePages
      (Sim.start 1 (fun _ => 0) ⟨.empty, none⟩)) (fun _ _ => true) = true by decide +kernel)
  obtain ⟨_, t, ht, _⟩ := Program.exists_of_holds (show Program.holds
    (simulate calmEnv (opt (fun _ => true) (some comesBack) 'L') 4#32 threePages
      (Sim.start 2 (fun _ => 0) ⟨.empty, none⟩)) (fun _ _ => true) = true by decide +kernel)
  exact ⟨s, t, hs, ht, opt_mono (by decide) (by decide) (by decide) hs ht⟩

end

end OsAssignments.Paging
