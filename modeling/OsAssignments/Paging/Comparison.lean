import OsAssignments.Library.QueueReplacement
import OsAssignments.Paging.LookAhead
import OsAssignments.Paging.Recency
import OsAssignments.Paging.Residents

/-!
# Comparing replacement algorithms

Simulations of one trace differ in their misses only through the victims that their
replacement algorithms choose and through the number of frames. An algorithm whose victims
are those that `opt.c` is meant to find is optimal, and the one of `fifo.c` is competitive. What
`lru.c` evicts is the page used last.
-/

namespace OsAssignments.Paging

open Pager (Move)
open Replacement (Run NeededLast)

variable {σ τ : Type} {env env' : Env} {P : Policy σ} {Q : Policy τ}
  {swapsize swapsize' : BitVec 32} {memsize memsize' : Nat} {physmem physmem' : Memory} {alg : σ}
  {alg' : τ} {s : Sim σ} {t : Sim τ} {trace rest : List Access}

/-! ## Testing choices -/

deriving instance DecidableEq for Event

instance Chose.decidable {Φ : Nat → List (Option PtePtr) → List Event → Prop}
    [∀ f pages older, Decidable (Φ f pages older)] (older : List Event) :
    ∀ ev, Decidable (Chose Φ ev older)
  | .evict f pages => decidable_of_iff (Φ f pages older)
      ⟨fun h _ _ heq => by cases heq; exact h, fun h => h f pages rfl⟩
  | .access .. | .load .. | .pageout .. | .pagein .. | .swapFull _ | .wrongContent _ =>
    isTrue fun _ _ => nofun

instance FurthestUse.decidable (rest : List Access) (f : Nat) (pages : List (Option PtePtr)) :
    Decidable (FurthestUse rest f pages) :=
  decidable_of_iff (∃ p ∈ victimOf f pages, nextUse rest p = none ∨ ∃ n ∈ nextUse rest p,
    ∀ q ∈ pages.filterMap id, ∃ k ∈ nextUse rest q, k ≤ n)
    (by simp [FurthestUse, victimOf, Option.join_eq_some_iff])

instance ChoseFurthest.decidable (f : Nat) (pages : List (Option PtePtr)) (history : List Event) :
    Decidable (ChoseFurthest trace f pages history) :=
  inferInstanceAs (Decidable (FurthestUse _ f pages))

/-! ## The page needed last -/

/-- An address of 36 bits reaches the entry of its page. -/
theorem pageOf_eq_page_iff {vaddr : BitVec 64} (h : vaddr.toNat < 2 ^ 36) (p : PtePtr) :
    (pageOf vaddr).toNat = p.page ↔ pteOf vaddr = p := by
  have hdir := toNat_pgdirIndex vaddr
  have htbl := toNat_pgtblIndex vaddr
  have hdirlt : p.dir.val < 4096 := p.dir.isLt
  have htbllt : p.tbl.val < 4096 := p.tbl.isLt
  have hpte : pteOf vaddr = p ↔ (pteOf vaddr).dir.val = p.dir ∧ (pteOf vaddr).tbl.val = p.tbl := by
    cases p
    rw [pteOf, PtePtr.mk.injEq, Fin.ext_iff, Fin.ext_iff]
  rw [hpte, toNat_pageOf, PtePtr.page]
  simp only [pteOf, Fin.val_ofNat, ptrsPerPgdir, ptrsPerPgtbl]
  omega

/-- A page is among the next requests exactly when its next use is near. -/
theorem mem_take_requests_iff (hrest : ∀ a ∈ rest, a.vaddr.toNat < 2 ^ 36) (x : PtePtr) (n : Nat) :
    x ∈ (requests rest).take n ↔ ∃ k, nextUse rest x = some k ∧ k < n := by
  constructor
  · intro hx
    obtain ⟨i, hi, hget⟩ := List.mem_take_iff_getElem.mp hx
    rw [requests, List.length_map] at hi
    have hlt : i < rest.length := by omega
    have huse : (pageOf rest[i].vaddr).toNat = x.page := by
      rw [pageOf_eq_page_iff (hrest _ (List.getElem_mem hlt)), ← hget]
      simp [requests]
    have hsome : (nextUse rest x).isSome := by
      rw [nextUse, List.findIdx?_isSome, List.any_eq_true]
      exact ⟨rest[i], List.getElem_mem hlt, decide_eq_true huse⟩
    obtain ⟨k, hk⟩ := Option.isSome_iff_exists.mp hsome
    refine ⟨k, hk, ?_⟩
    obtain ⟨_, _, hfirst⟩ := List.findIdx?_eq_some_iff_getElem.mp hk
    by_contra hge
    exact hfirst i (by omega) (decide_eq_true huse)
  · rintro ⟨k, hk, hlt⟩
    obtain ⟨hklt, huse, _⟩ := List.findIdx?_eq_some_iff_getElem.mp hk
    rw [decide_eq_true_eq, pageOf_eq_page_iff (hrest _ (List.getElem_mem hklt))] at huse
    refine List.mem_take_iff_getElem.mpr ⟨k, ?_, ?_⟩
    · rw [requests, List.length_map]
      omega
    · simp [requests, huse]

/-- The page whose next use is furthest away is needed last. -/
theorem FurthestUse.neededLast (hs : Good s) (hrest : ∀ a ∈ rest, a.vaddr.toNat < 2 ^ 36) {f : Nat}
    {q : PtePtr} (hq : s.holder f = some q) (h : FurthestUse rest f s.pages) :
    NeededLast (requests rest) s.resident q := by
  obtain ⟨p, hp, hfurthest⟩ := h
  obtain rfl : p = q := by
    have hvictim := victimOf_pages hs hq
    rw [victimOf, hp] at hvictim
    exact Option.some.inj hvictim
  intro n hn x hx
  rw [mem_take_requests_iff hrest] at hn ⊢
  obtain ⟨k, hk, hlt⟩ := hn
  rcases hfurthest with hnever | ⟨k', hk', hothers⟩
  · rw [hnever] at hk
    cases hk
  · obtain rfl := Option.some.inj (hk.symm.trans hk')
    obtain ⟨g, hg⟩ := hs.mem_resident.mp hx
    have hpage : some x ∈ s.pages := by
      have hvictim := victimOf_pages hs hg
      rw [victimOf, Option.join_eq_some_iff] at hvictim
      exact List.mem_of_getElem? hvictim
    obtain ⟨j, hj, hle⟩ := hothers x hpage
    exact ⟨j, hj, by omega⟩

/-- An algorithm that always evicts a page whose next use is furthest away has the fewest misses
of all algorithms on at most as many frames. -/
theorem misses_le_of_choseFurthest (hP : P.OnlyRef) (hQ : Q.OnlyRef)
    (hlen : trace.length < 2 ^ 31) (hrange : ∀ a ∈ trace, a.vaddr.toNat < 2 ^ 36)
    (hle : memsize' ≤ memsize)
    (h : simulate env P swapsize trace (Sim.start memsize physmem alg) = .ok () s)
    (hfurthest : Each (Chose (ChoseFurthest trace)) s.history)
    (h' : simulate env' Q swapsize' trace (Sim.start memsize' physmem' alg') = .ok () t) :
    s.missCount ≤ t.missCount := by
  have hchoices : ∀ pre s f q,
      simulate env P swapsize pre (Sim.start memsize physmem alg) = .ok () s → Good s →
      s.holder f = some q → ChoseFurthest trace f s.pages s.history →
      NeededLast ((requests trace).drop ((requests pre).length + 1)) s.resident q := by
    intro pre s f q hpre hs hq hchose
    rw [ChoseFurthest, (length_accessedPages hP pre s hpre).2] at hchose
    have hneeded := hchose.neededLast hs
      (fun a ha => hrange a (List.mem_of_mem_drop ha)) hq
    rw [requests, requests, List.length_map, ← List.map_drop]
    exact hneeded
  obtain ⟨n, hrun, -, hn⟩ := (run_of_simulate hP
    (Ψ := fun ps S q => NeededLast ((requests trace).drop (ps.length + 1)) S q)
    hchoices trace s h).2 hfurthest
  obtain ⟨n', hrun', hn'⟩ := exists_run hQ h'
  rw [hn hlen, hn' hlen]
  exact_mod_cast Run.neededLast_le hle hrun hrun'

theorem misses_le_of_threePages :
    ∃ s t, simulate calmEnv fifo 4#32 threePages (Sim.start 2 (fun _ => 0) 0) = .ok () s ∧
      simulate calmEnv (lru cleanMemory) 4#32 threePages
        (Sim.start 2 (fun _ => 0) ⟨.empty, none, none⟩) = .ok () t ∧
      s.missCount ≤ t.missCount := by
  obtain ⟨_, s, hs, hchose⟩ := Program.exists_of_holds (show Program.holds
    (simulate calmEnv fifo 4#32 threePages (Sim.start 2 (fun _ => 0) 0))
    (fun _ s => decide (Each (Chose (ChoseFurthest threePages)) s.history)) = true
    by decide +kernel)
  obtain ⟨_, t, ht, _⟩ := Program.exists_of_holds (show Program.holds
    (simulate calmEnv (lru cleanMemory) 4#32 threePages
      (Sim.start 2 (fun _ => 0) ⟨.empty, none, none⟩)) (fun _ _ => true) = true
    by decide +kernel)
  exact ⟨s, t, hs, ht, misses_le_of_choseFurthest fifo_onlyRef (lru_onlyRef cleanMemory)
    (by decide) (by decide) (by decide) hs (of_decide_eq_true hchose) ht⟩

/-! ## First in, first out -/

section

variable {ind : Nat} {s t u v : Sim Nat} {a : Access} {m : Move PtePtr} {c : List UInt8}

/-- The pages in memory are those that were brought in last. -/
theorem Rotating.resident (hs : Good s) (h : Rotating s) :
    s.resident = ((loadedPages s.history).take s.memsize).toFinset := by
  ext x
  rw [hs.mem_resident, List.mem_toFinset, List.mem_take_iff_getElem]
  constructor
  · rintro ⟨f, hf⟩
    obtain ⟨hloads, hsize⟩ := (h.used f).mp (by rw [hf]; rfl)
    have hi : (s.loads - 1 - f) % s.memsize < s.memsize := Nat.mod_lt _ (by omega)
    have hle := Nat.mod_le (s.loads - 1 - f) s.memsize
    have hdiv := Nat.div_add_mod (s.loads - 1 - f) s.memsize
    generalize (s.loads - 1 - f) % s.memsize = i at hi hle hdiv
    have hframe : (s.loads - 1 - i) % s.memsize = f := by
      rw [show s.loads - 1 - i = s.memsize * ((s.loads - 1 - f) / s.memsize) + f by omega,
        Nat.mul_add_mod, Nat.mod_eq_of_lt hsize]
    have hlen : i < (loadedPages s.history).length := by
      change i < s.loads
      omega
    have hheld := h.held i _ hi (List.getElem?_eq_getElem hlen)
    rw [hframe, hf] at hheld
    exact ⟨i, by omega, (Option.some.inj hheld).symm⟩
  · rintro ⟨i, hi, rfl⟩
    exact ⟨_, h.held i _ (by omega) (List.getElem?_eq_getElem (by omega))⟩

/-- The pages brought in last after an access. -/
theorem Accessed.loadedPages_take (hs : Good s) (hrot : Rotating s) (h : Accessed env s a m c u t) :
    (loadedPages t.history).take s.memsize =
      Replacement.enqueue s.memsize ((loadedPages s.history).take s.memsize) (pteOf a.vaddr) := by
  have hm : s.pager.Enabled (pteOf a.vaddr) m := h.served.enabled
  have hmem : pteOf a.vaddr ∈ (loadedPages s.history).take s.memsize ↔
      (s.status (pteOf a.vaddr)).home ≠ none := by
    rw [← hs.mem_resident_iff_home, hrot.resident hs, List.mem_toFinset]
  rw [h.loadedPages_eq, Replacement.enqueue]
  by_cases hhit : ∃ f, m = .hit f
  · obtain ⟨f, rfl⟩ := hhit
    have hhome : (s.status (pteOf a.vaddr)).home = some f := hm
    rw [if_pos (hmem.mpr (hhome ▸ Option.some_ne_none f)), h.served.loadedPages_hit]
    rfl
  · have hmiss : ∀ f, m ≠ .hit f := fun f hf => hhit ⟨f, hf⟩
    have hnone : (s.status (pteOf a.vaddr)).home = none := by
      cases m with
      | hit f => exact absurd rfl (hmiss f)
      | fill f | dropped f q | wroteBack f q i => exact hm.1
    rw [if_neg fun hin => hmem.mp hin hnone, h.served.loadedPages_miss hmiss]
    cases s.memsize with
    | zero => rfl
    | succ k =>
      rw [List.take_succ_cons, List.take_succ_cons, List.take_take, Nat.min_eq_left (Nat.le_succ k)]
      rfl

/-- The pages in memory and the misses are those of a queue. -/
theorem fifo_of_simulate (hmem : 1 ≤ memsize) : ∀ trace s,
    simulate env fifo swapsize trace (Sim.start memsize physmem ind) = .ok () s → Good s ∧
      ((loadedPages s.history).take memsize = (Replacement.fifo memsize (requests trace)).1 ∧
      (trace.length < 2 ^ 31 → s.missCount = (Replacement.fifo memsize (requests trace)).2 ∧
        (Replacement.fifo memsize (requests trace)).2 ≤ trace.length)) := by
  refine simulate_induction fifo_onlyRef _ ?_ ?_
  · intro s _ hfresh
    rw [hfresh.history]
    exact ⟨List.take_nil, fun _ => ⟨congrArg Counters.miss hfresh.counters, Nat.zero_le _⟩⟩
  · intro pre s a m c u t hpre hs ih _ _ hacc
    obtain ⟨hqueue, hcount⟩ := ih
    have hsize := memsize_of_simulate fifo_onlyRef hpre
    obtain ⟨_, hrot⟩ := rotating_of_simulate hmem pre s hpre
    have hresident := hrot.resident hs
    rw [hsize, hqueue] at hresident
    have htake := hacc.loadedPages_take hs hrot
    rw [hsize, hqueue] at htake
    rw [requests, List.map_append, List.map_singleton, Replacement.fifo_concat]
    refine ⟨htake, fun hlen => ?_⟩
    rw [List.length_append, List.length_singleton] at hlen ⊢
    obtain ⟨hmisses, hle⟩ := hcount (by omega)
    rw [hacc.missCount hs (by omega) (by omega), hresident, hmisses]
    have hmissed : Replacement.missed (Replacement.fifo memsize (requests pre)).1.toFinset
        (pteOf a.vaddr) ≤ 1 := by
      rw [Replacement.missed]
      split <;> omega
    refine ⟨rfl, ?_⟩
    change _ + _ ≤ _
    exact Nat.add_le_add hle hmissed

/-- The simulator with the functions of `fifo.c` keeps the pages of a queue and misses as often. -/
theorem fifo_refines (hmem : 1 ≤ memsize) (hlen : trace.length < 2 ^ 31)
    (h : simulate env fifo swapsize trace (Sim.start memsize physmem ind) = .ok () s) :
    s.missCount = (Replacement.fifo memsize (requests trace)).2 ∧
      ∀ x, (s.status x).home ≠ none ↔ x ∈ (Replacement.fifo memsize (requests trace)).1 := by
  obtain ⟨hs, hqueue, hcount⟩ := fifo_of_simulate hmem trace s h
  obtain ⟨_, hrot⟩ := rotating_of_simulate hmem trace s h
  refine ⟨(hcount hlen).1, fun x => ?_⟩
  rw [← hs.mem_resident_iff_home, hrot.resident hs, List.mem_toFinset,
    memsize_of_simulate fifo_onlyRef h, hqueue]

theorem fifo_refines_of_usedOldest :
    ∃ s, simulate calmEnv fifo 4#32 usedOldest (Sim.start 2 (fun _ => 0) 0) = .ok () s ∧
      s.missCount = (Replacement.fifo 2 (requests usedOldest)).2 ∧
      ∀ x, (s.status x).home ≠ none ↔ x ∈ (Replacement.fifo 2 (requests usedOldest)).1 := by
  obtain ⟨_, s, hs, _⟩ := Program.exists_of_holds (show Program.holds
    (simulate calmEnv fifo 4#32 usedOldest (Sim.start 2 (fun _ => 0) 0)) (fun _ _ => true) = true
    by decide +kernel)
  exact ⟨s, hs, fifo_refines (by decide) (by decide) hs⟩

/-- With `k` frames the simulator with the functions of `fifo.c` misses, up to a constant, at
most `k / (k - h + 1)` times as often as with any other functions and `h` frames. -/
theorem fifo_competitive {τ : Type} {Q : Policy τ} {alg' : τ} {t : Sim τ} (hQ : Q.OnlyRef)
    (hlen : trace.length < 2 ^ 31) (hmem : 1 ≤ memsize') (hle : memsize' ≤ memsize)
    (h : simulate env fifo swapsize trace (Sim.start memsize physmem ind) = .ok () s)
    (h' : simulate env' Q swapsize' trace (Sim.start memsize' physmem' alg') = .ok () t) :
    ((memsize - memsize' + 1 : Nat) : Int) * s.missCount ≤
      memsize * t.missCount + ((memsize' - 1) * (memsize - memsize') : Nat) := by
  obtain ⟨_, _, hcount⟩ := fifo_of_simulate (hmem.trans hle) trace s h
  obtain ⟨n, hrun, hn⟩ := exists_run hQ h'
  have hn := hn hlen
  rw [(hcount hlen).1, hn]
  exact_mod_cast hrun.fifo_misses_le hmem hle

theorem fifo_competitive_of_threePages :
    ∃ s t, simulate calmEnv fifo 4#32 threePages (Sim.start 2 (fun _ => 0) 0) = .ok () s ∧
      simulate calmEnv (lru cleanMemory) 4#32 threePages
        (Sim.start 1 (fun _ => 0) ⟨.empty, none, none⟩) = .ok () t ∧
      ((2 - 1 + 1 : Nat) : Int) * s.missCount ≤
        (2 : Nat) * t.missCount + ((1 - 1) * (2 - 1) : Nat) := by
  obtain ⟨_, s, hs, _⟩ := Program.exists_of_holds (show Program.holds
    (simulate calmEnv fifo 4#32 threePages (Sim.start 2 (fun _ => 0) 0)) (fun _ _ => true) = true
    by decide +kernel)
  obtain ⟨_, t, ht, _⟩ := Program.exists_of_holds (show Program.holds
    (simulate calmEnv (lru cleanMemory) 4#32 threePages
      (Sim.start 1 (fun _ => 0) ⟨.empty, none, none⟩)) (fun _ _ => true) = true
    by decide +kernel)
  exact ⟨s, t, hs, ht, fifo_competitive (lru_onlyRef cleanMemory) (by decide) (by decide)
    (by decide) hs ht⟩

end

/-! ## What `lru.c` evicts -/

theorem accessedPages_of_simulate (hP : P.OnlyRef) : ∀ trace s,
    simulate env P swapsize trace (Sim.start memsize physmem alg) = .ok () s →
      Good s ∧ accessedPages s.history = (requests trace).reverse := by
  refine simulate_induction hP (fun pre s => accessedPages s.history = (requests pre).reverse) ?_ ?_
  · intro s _ hfresh
    rw [hfresh.history]
    rfl
  · intro pre s a m c u t _ _ ih _ _ hacc
    rw [hacc.accessedPages, ih, requests, requests, List.map_append, List.reverse_append]
    rfl

/-- The frame holds the page of the latest access. -/
def MostRecent (f : Nat) (pages : List (Option PtePtr)) (history : List Event) : Prop :=
  ∃ p, pages[f]? = some (some p) ∧ (accessedPages history).head? = some p

theorem MostRecent.usedLast (hP : P.OnlyRef) {pre : List Access}
    (hpre : simulate env P swapsize pre (Sim.start memsize physmem alg) = .ok () s) {f : Nat}
    {q : PtePtr} (hq : s.holder f = some q) (h : MostRecent f s.pages s.history) :
    Replacement.UsedLast (requests pre) s.resident q := by
  obtain ⟨hs, hpages⟩ := accessedPages_of_simulate hP pre s hpre
  obtain ⟨p, hp, hlast⟩ := h
  have hvictim := victimOf_pages hs hq
  rw [victimOf, hp] at hvictim
  rw [hpages, List.head?_reverse] at hlast
  exact hlast.trans hvictim

section

variable {memory : NodeMemory} {data : Lru} {s : Sim Lru} {ind : Nat} {t : Sim Nat}

/-- Whatever `lru.c` chooses is the frame of the page that was accessed last. -/
theorem each_mostRecent (hmem : 1 ≤ memsize) (trace : List Access) :
    Each (Chose MostRecent) (Program.final
      (simulate env (lru memory) swapsize trace (Sim.start memsize physmem data))).history := by
  refine (each_chose_iff (lru_onlyRef memory) MostRecent Lru.bottomFrame
    fun pre s hpre hfull => ?_).mpr fun pre a post s h => ?_
  · obtain ⟨hs, hrecent, hsize⟩ := recent_before hmem hpre
    exact hrecent.choosesFrame hs (by omega) hfull
  · obtain ⟨hs, hrecent, hsize⟩ := recent_before hmem h.before
    obtain ⟨p, pages, n, _, hpages, _, _, hhome, hn⟩ := hrecent.bottom (by omega) h.needs.full
    rw [hn] at hhome
    obtain ⟨q, hq, hqhome⟩ := hs.pages_of_full h.needs.full (hs.home_lt hhome)
    have hp : s.holder (Lru.bottomFrame s) = some p := (hs.inv.home_iff p _).mp hhome
    obtain rfl : q = p :=
      Option.some.inj (((hs.inv.home_iff q _).mp hqhome).symm.trans hp)
    exact ⟨q, hq, by rw [hpages]; rfl⟩

theorem mostRecent_of_simulate (hmem : 1 ≤ memsize)
    (h : simulate env (lru memory) swapsize trace (Sim.start memsize physmem data) = .ok () s) :
    Each (Chose MostRecent) s.history := by
  have heach : Each (Chose MostRecent) (Program.final (simulate env (lru memory) swapsize trace
    (Sim.start memsize physmem data))).history := each_mostRecent hmem trace
  rw [h] at heach
  exact heach

/-- Every call of `lru_evict` returns the frame of the page that was accessed last. -/
theorem evictsMostRecent (hmem : 1 ≤ memsize) {newer older : List Event} {f : Nat}
    {pages : List (Option PtePtr)} (h : (Program.final (simulate env (lru memory) swapsize trace
      (Sim.start memsize physmem data))).history = newer ++ .evict f pages :: older) :
    ∃ p, pages[f]? = some (some p) ∧ (accessedPages older).head? = some p := by
  have heach : Each (Chose MostRecent) (Program.final (simulate env (lru memory) swapsize trace
    (Sim.start memsize physmem data))).history := each_mostRecent hmem trace
  rw [h] at heach
  obtain ⟨hchose, -⟩ := each_cons.mp (heach.of_suffix (List.suffix_append newer _))
  exact hchose f pages rfl

theorem evictsMostRecent_of_threePages : ∃ (older : List Event)
    (pages : List (Option PtePtr)) (p : PtePtr), pages[1]? = some (some p) ∧
    (accessedPages older).head? = some p := by
  have hevict : Event.evict 1 [some (pteOf 0x1000#64), some (pteOf 0x2000#64)] ∈
      (Program.final (simulate calmEnv (lru cleanMemory) 4#32 threePages
        (Sim.start 2 (fun _ => 0) ⟨.empty, none, none⟩))).history := by decide +kernel
  obtain ⟨newer, older, h⟩ := List.append_of_mem hevict
  obtain ⟨p, hp, hlast⟩ := evictsMostRecent (by decide) h
  exact ⟨older, _, p, hp, hlast⟩

/-- When a full memory is followed by a new page and its last page in turn, every access misses
with the functions of `lru.c`, but only one of them with those of `fifo.c`. -/
theorem lru_thrashes (hmem : 2 ≤ memsize) (hlen : trace.length < 2 ^ 31) {pages : List PtePtr}
    {x y : PtePtr} {k : Nat} (hnodup : (pages ++ [y]).Nodup)
    (hfull : (pages ++ [y]).length = memsize) (hx : x ∉ pages ++ [y])
    (htrace : requests trace = pages ++ [y] ++ Replacement.inTurn x y (k + 1))
    (h : simulate env (lru memory) swapsize trace (Sim.start memsize physmem data) = .ok () s)
    (h' : simulate env' fifo swapsize' trace (Sim.start memsize physmem' ind) = .ok () t) :
    s.missCount = trace.length ∧ t.missCount = memsize + 1 := by
  have hP := lru_onlyRef memory
  have heach := mostRecent_of_simulate (by omega) h
  obtain ⟨n, hrun, -, hn⟩ := (run_of_simulate hP
    (fun _ _ _ _ hpre _ hq hlast => hlast.usedLast hP hpre hq) trace s h).2 heach
  rw [htrace] at hrun
  obtain ⟨-, hmisses⟩ := hrun.misses_inTurn hnodup hfull hx (k + 1)
  have hlength := congrArg List.length htrace
  rw [requests, List.length_map, List.length_append, hfull, Replacement.inTurn,
    List.length_flatten] at hlength
  obtain ⟨-, -, hcount⟩ := fifo_of_simulate (by omega) _ t h'
  obtain ⟨hfifo, -⟩ := hcount hlen
  rw [htrace, Replacement.fifo_misses_inTurn hmem hnodup hfull hx] at hfifo
  refine ⟨?_, by exact_mod_cast hfifo⟩
  rw [hn hlen, hmisses, hlength]
  simp [Nat.mul_comm]

/-- Three pages, and then the second one again. -/
def secondAgain : List Access := threePages ++ [⟨'L', 0x2000#64⟩]

theorem lru_thrashes_of_secondAgain :
    ∃ s t, simulate calmEnv (lru cleanMemory) 4#32 secondAgain
        (Sim.start 2 (fun _ => 0) ⟨.empty, none, none⟩) = .ok () s ∧
      simulate calmEnv fifo 4#32 secondAgain (Sim.start 2 (fun _ => 0) 0) = .ok () t ∧
      s.missCount = secondAgain.length ∧ t.missCount = (2 : Nat) + 1 := by
  obtain ⟨_, s, hs, _⟩ := Program.exists_of_holds (show Program.holds
    (simulate calmEnv (lru cleanMemory) 4#32 secondAgain
      (Sim.start 2 (fun _ => 0) ⟨.empty, none, none⟩)) (fun _ _ => true) = true
    by decide +kernel)
  obtain ⟨_, t, ht, _⟩ := Program.exists_of_holds (show Program.holds
    (simulate calmEnv fifo 4#32 secondAgain (Sim.start 2 (fun _ => 0) 0)) (fun _ _ => true) = true
    by decide +kernel)
  have htrace : requests secondAgain = [pteOf 0x1000#64] ++ [pteOf 0x2000#64] ++
      Replacement.inTurn (pteOf 0x3000#64) (pteOf 0x2000#64) (0 + 1) := by decide +kernel
  exact ⟨s, t, hs, ht, lru_thrashes (by decide) (by decide) (by decide +kernel) rfl
    (by decide +kernel) htrace hs ht⟩

end

end OsAssignments.Paging
