import Mathlib.Data.List.Dedup
import OsAssignments.Paging.Recency
import OsAssignments.Paging.SwapCapacity
import OsAssignments.Paging.Translation

/-!
# The list of the frames in memory

The list from `bottom` is meant to hold the frame of each page in memory, the page accessed longest
ago first, and `evic` to mark the frames in it. No function sets `evic` to 1, so that the first call
of `lru_ref` leaves a frame in the list that is not marked.
-/

namespace OsAssignments.Paging

variable {σ : Type} {env : Env} {P : Policy σ} {memory : NodeMemory} {swapsize : BitVec 32}
  {memsize : Nat} {physmem : Memory} {p : PtePtr} {f : Nat} {vaddr : BitVec 64} {type : Char}

/-! ## What the list is to hold -/

/-- The frames of the pages in memory, that of the page accessed longest ago first. -/
def Sim.recentFrames (s : Sim σ) : List Nat :=
  (accessedPages s.history).reverse.dedup.filterMap fun p => (s.status p).home

/-- The list from `bottom` to `top` holds these frames in order, and `evic` marks them. -/
structure Lru.Lists (s : Sim Lru) (frames : List Nat) : Prop where
  list : ∃ cells, s.alg.nodes.Linked SNode.next s.alg.bottom cells ∧
    s.alg.top = cells.getLast?.map Prod.fst ∧ cells.map (fun cell => cell.2.ind) = frames
  marked : ∀ f < s.memsize, (s.coremap f).evic = 1 ↔ f ∈ frames

/-- The access gets as far as the call of `evict_fcn`, in state `t`. -/
def CallsEvict (env : Env) (vaddr : BitVec 64) (s t : Sim σ) : Prop :=
  ∃ p u e, walk env vaddr s.counted = .ok p u ∧ u.entry p = some e ∧
    e.frame &&& pgValid = 0#32 ∧ u.freeFrame = none ∧ t = u.missed

/-- Each call of `lru_ref` and `lru_evict` in a simulation returns and leaves the list of the frames
in memory behind, of which that of a victim is none. -/
structure KeepsList (env : Env) (memory : NodeMemory) (swapsize : BitVec 32) (start : Sim Lru)
    (trace : List Access) : Prop where
  ref : ∀ pre a post s p u, trace = pre ++ a :: post →
    simulate env (lru memory) swapsize pre start = .ok () s →
      beforeRef env (lru memory) a.vaddr a.type s = .ok p u →
        ∃ v, lruRef memory p u = .ok () v ∧ Lru.Lists v v.recentFrames
  evict : ∀ pre a post s u, trace = pre ++ a :: post →
    simulate env (lru memory) swapsize pre start = .ok () s → CallsEvict env a.vaddr s u →
      ∃ f v, lruEvict u = .ok f v ∧ Lru.Lists v (v.recentFrames.erase f)

/-! ## The frames in use -/

section

variable {alg : σ} {s : Sim σ}

/-- Every page in memory has been accessed. -/
theorem accessed_of_home (hP : P.OnlyRef) : ∀ trace s,
    simulate env P swapsize trace (Sim.start memsize physmem alg) = .ok () s →
      Good s ∧ ∀ p f, (s.status p).home = some f → p ∈ accessedPages s.history := by
  refine simulate_induction hP
    (fun _ s => ∀ p f, (s.status p).home = some f → p ∈ accessedPages s.history) ?_ ?_
  · intro s _ hfresh p f hhome
    rw [hfresh.status] at hhome
    cases hhome
  · intro pre s a m c u t _ _ ih _ _ hacc p f hhome
    rw [hacc.accessedPages]
    by_cases hp : p = pteOf a.vaddr
    · rw [hp]
      exact List.mem_cons_self
    · have hstatus : t.status p = (s.counted.pager.serve (pteOf a.vaddr) c m).status p := by
        have htouch := congrArg (fun A => A.status p) hacc.served.pager
        rw [Pager.status_touch, if_neg hp] at htouch
        rw [← htouch, hacc.rest]
        rfl
      rw [hstatus] at hhome
      exact List.mem_cons_of_mem _ (ih p f (Pager.home_of_home_serve hp hhome))

/-- Between two accesses these frames are the ones in use, each of them once. -/
theorem recentFrames_spec (hP : P.OnlyRef) {trace : List Access}
    (h : simulate env P swapsize trace (Sim.start memsize physmem alg) = .ok () s) :
    s.recentFrames.Nodup ∧ ∀ f, f ∈ s.recentFrames ↔ (s.coremap f).inUse = true := by
  obtain ⟨hs, haccessed⟩ := accessed_of_home hP trace s h
  constructor
  · refine List.Nodup.filterMap (fun p q f hp hq => ?_) (List.nodup_dedup _)
    exact Option.some.inj (((hs.inv.home_iff p f).mp hp).symm.trans ((hs.inv.home_iff q f).mp hq))
  · intro f
    rw [Sim.recentFrames, List.mem_filterMap]
    constructor
    · rintro ⟨p, -, hhome⟩
      have hholder : s.holder f = some p := (hs.inv.home_iff p f).mp hhome
      by_contra hfree
      rw [Sim.holder, if_neg hfree] at hholder
      cases hholder
    · intro hin
      obtain ⟨p, -, hholder⟩ := hs.holder_of_inUse hin
      have hhome := (hs.inv.home_iff p f).mpr hholder
      exact ⟨p, List.mem_dedup.mpr (List.mem_reverse.mpr (haccessed p f hhome)), hhome⟩

end

/-! ## The two calls -/

/-- When `evict_fcn` stops, `find_physpage` stops there. -/
theorem CallsEvict.stops {s t u : Sim σ} {e : Stop} (h : CallsEvict env vaddr s t)
    (hstop : P.evict t = .error e u) : findPhyspage env P vaddr type s = .error e u := by
  obtain ⟨p, v, en, hwalk, hen, hinvalid, hfull, rfl⟩ := h
  have hfull' : v.missed.freeFrame = none := hfull
  have htake : takeFrame env P v.missed = .error e u := by
    rw [takeFrame, Program.get_bind]
    simp only [hfull']
    exact Program.bind_error.mpr (.inl (Program.bind_error.mpr (.inl hstop)))
  have hmiss : handleMiss env P p vaddr v = .error e u := by
    rw [handleMiss, Program.modify_bind]
    exact Program.bind_error.mpr (.inl (Program.bind_error.mpr (.inl htake)))
  rw [findPhyspage, Program.modify_bind]
  refine (Program.bind_of_ok (show walk env vaddr _ = _ from hwalk)).trans ?_
  refine Program.bind_error.mpr (.inl ?_)
  rw [makeResident, readPte_bind hen, if_neg (not_not.mpr hinvalid)]
  exact hmiss

/-! ## The first access -/

theorem mapFrame_returns {s : Sim σ} {e : PgtblEntry} (he : s.entry p = some e)
    (hf : f < 2 ^ 19) : ∃ t, mapFrame p f s = .ok () t := by
  rw [mapFrame, if_pos hf, readPte_bind he]
  exact ⟨_, rfl⟩

theorem markAccessed_returns {s : Sim σ} {e : PgtblEntry} (he : s.entry p = some e) :
    ∃ t, markAccessed p vaddr type s = .ok () t := by
  rw [markAccessed, readPte_bind he]
  exact ⟨_, rfl⟩

/-- A page that is neither in memory nor on swap can be created when the free frame lies inside
`physmem`. -/
theorem makeResident_returns_iff {s : Sim σ} {e : PgtblEntry} (he : s.entry p = some e)
    (hframe : e.frame = 0#32) (hfree : s.freeFrame = some f) (hf : f < 2 ^ 19) :
    (∃ t, makeResident env P p vaddr s = .ok () t) ↔
      f * simPageSize + simPageSize ≤ s.physmemSize := by
  have hinvalid : e.frame &&& pgValid = 0#32 := by rw [hframe, BitVec.zero_and]
  have honswap : e.frame &&& pgOnswap = 0#32 := by rw [hframe, BitVec.zero_and]
  have hfree' : s.missed.freeFrame = some f := hfree
  have htake : takeFrame env P s.missed = .ok f s.missed := by
    rw [takeFrame, Program.get_bind]
    simp only [hfree']
    rfl
  have he' : (s.missed.setFrame f ⟨true, some p, (s.coremap f).evic⟩).entry p = some e := he
  have hfill : fillFrame env p f vaddr (s.missed.setFrame f ⟨true, some p, (s.coremap f).evic⟩) =
      initFrame f vaddr (s.missed.setFrame f ⟨true, some p, (s.coremap f).evic⟩) := by
    rw [fillFrame, readPte_bind he', if_neg (not_not.mpr honswap)]
  rw [makeResident, readPte_bind he, if_neg (not_not.mpr hinvalid)]
  constructor
  · rintro ⟨t, h⟩
    obtain ⟨f', u, v, htake', hfilled, -⟩ := handleMiss_ok.mp h
    obtain ⟨rfl, rfl⟩ := EStateM.Result.ok.inj (htake.symm.trans htake')
    have hinit := hfill.symm.trans hfilled
    rw [initFrame, Program.bind_ok] at hinit
    obtain ⟨_, w, haddr, -⟩ := hinit
    exact (frameAddr_ok.mp haddr).1
  · intro hroom
    have hinit : ∃ u, initFrame f vaddr
        (s.missed.setFrame f ⟨true, some p, (s.coremap f).evic⟩) = .ok () u ∧
          u.entry p = some e := by
      have haddr : frameAddr f (s.missed.setFrame f ⟨true, some p, (s.coremap f).evic⟩) =
          .ok (f * simPageSize) _ := frameAddr_ok.mpr ⟨hroom, rfl, rfl⟩
      rw [initFrame, Program.bind_of_ok haddr]
      exact ⟨_, rfl, he⟩
    obtain ⟨u, hu, heu⟩ := hinit
    obtain ⟨t, hmap⟩ := mapFrame_returns heu hf
    exact ⟨t, handleMiss_ok.mpr ⟨f, s.missed, u, htake, hfill.trans hu, hmap⟩⟩

theorem Fresh.freeFrame {s : Sim σ} (hs : Fresh memsize swapsize s) (hmem : 1 ≤ memsize) :
    s.freeFrame = some 0 := by
  obtain ⟨n, hn⟩ : ∃ n, s.memsize = n + 1 := ⟨memsize - 1, by rw [hs.memsize]; omega⟩
  rw [Sim.freeFrame, hn, List.range_succ_eq_map, List.find?_cons_of_pos]
  rw [hs.inUse]
  rfl

/-- The first access gets as far as `ref_fcn` when its entry can be made and the first frame lies
inside `physmem`. -/
theorem Fresh.beforeRef_returns_iff {s : Sim σ} (hs : Fresh memsize swapsize s)
    (hmem : 1 ≤ memsize) : (∃ p t, beforeRef env P vaddr type s = .ok p t) ↔
      (pgdirIndex vaddr).toNat < ptrsPerPgdir ∧ (env.tables (pteOf vaddr).dir).isSome ∧
        simPageSize ≤ s.physmemSize := by
  have hdir : s.counted.pgdir (pteOf vaddr).dir = none := by
    have hnone := hs.entry (pteOf vaddr)
    rwa [Sim.entry, Option.map_eq_none_iff] at hnone
  -- The walk leads to an entry of a new table, and the first frame is free.
  have hresident : ∀ t, walk env vaddr s.counted = .ok (pteOf vaddr) t →
      ((∃ u, makeResident env P (pteOf vaddr) vaddr t = .ok () u) ↔
        simPageSize ≤ s.physmemSize) := by
    intro t hwalk
    obtain ⟨-, -, ⟨e, he⟩, htabled⟩ := walk_ok hwalk
    have hframe : e.frame = 0#32 := by
      rcases htabled.new _ e he with hold | ⟨-, hzero, -⟩
      · cases (hs.entry _).symm.trans hold
      · exact hzero
    have hfree : t.freeFrame = some 0 := by
      rw [htabled.rest]
      exact hs.freeFrame hmem
    rw [makeResident_returns_iff he hframe hfree (by decide), htabled.rest, Nat.zero_mul,
      Nat.zero_add]
    rfl
  constructor
  · rintro ⟨p, t, h⟩
    obtain ⟨u, v, hwalk, hmake, -⟩ := beforeRef_ok.mp h
    obtain ⟨hlt, rfl, htable⟩ := walk_returns_iff.mp ⟨u, hwalk⟩
    rw [hdir] at htable
    exact ⟨hlt, htable.resolve_left Bool.false_ne_true, (hresident u hwalk).mp ⟨v, hmake⟩⟩
  · rintro ⟨hlt, htable, hroom⟩
    obtain ⟨u, hwalk⟩ := walk_returns_iff.mpr ⟨hlt, rfl, .inr htable⟩
    obtain ⟨v, hmake⟩ := (hresident u hwalk).mpr hroom
    obtain ⟨e, he⟩ := makeResident_entry hmake
    obtain ⟨w, hmark⟩ := markAccessed_returns he
    exact ⟨pteOf vaddr, w, beforeRef_ok.mpr ⟨u, v, hwalk, hmake, hmark⟩⟩

/-- The first access needs no victim. -/
theorem Fresh.not_callsEvict {s t : Sim σ} (hs : Fresh memsize swapsize s) (hmem : 1 ≤ memsize) :
    ¬ CallsEvict env vaddr s t := by
  rintro ⟨_, u, _, hwalk, -, -, hfull, -⟩
  obtain ⟨-, -, -, htabled⟩ := walk_ok hwalk
  have hfree : u.freeFrame = some 0 := by
    rw [htabled.rest]
    exact hs.freeFrame hmem
  rw [hfull] at hfree
  cases hfree

/-! ## The first call -/

variable {alg : Lru} {s t u v : Sim Lru} {trace : List Access}

/-- After a call of `lru_ref` the list is not as it is to be: the frame of the page is not
marked. -/
theorem not_lists_of_lruRef (hs : Good s) (h : Recent s) (hmem : 1 ≤ s.memsize)
    (hbefore : beforeRef env (lru memory) vaddr type s = .ok p u)
    (href : lruRef memory p u = .ok () v) : ¬ Lru.Lists v v.recentFrames := by
  obtain ⟨-, rfl, m, c, hserved, hcons, hhome⟩ := hs.beforeRef (lru_onlyRef memory) hbefore
  intro hlists
  have hunmarked := (lruRef_ok (h.consulted hs hmem hcons) hhome href).1
  have hchanges : ChangesOnlyRef u v := ((lru_onlyRef memory).ref _).of_ok href
  have hhome' : (v.status (pteOf vaddr)).home = some m.frame := by
    rw [hchanges.status_eq]
    exact hhome
  have hlt : m.frame < v.memsize := by
    rw [hchanges.memsize_eq]
    exact hserved.good.home_lt hhome
  have haccessed : pteOf vaddr ∈ accessedPages v.history := by
    rw [hchanges.history_eq, hserved.history]
    exact List.mem_cons_self
  have hmem' : m.frame ∈ v.recentFrames :=
    List.mem_filterMap.mpr ⟨_, List.mem_dedup.mpr (List.mem_reverse.mpr haccessed), hhome'⟩
  have hmarked := (hlists.marked _ hlt).mpr hmem'
  rw [hunmarked.evic] at hmarked
  cases hmarked

/-- The first access gets as far as `lru_ref`: its directory index is in range, its table can be
made, and the first frame lies inside `physmem`. -/
structure FirstServed (env : Env) (memsize : Nat) (vaddr : BitVec 64) : Prop where
  dir : (pgdirIndex vaddr).toNat < ptrsPerPgdir
  table : (env.tables (pteOf vaddr).dir).isSome
  frame : simPageSize ≤ memsize * simPageSize % 2 ^ 32

theorem lru_setup (memory : NodeMemory) (swapsize : BitVec 32) (memsize : Nat)
    (physmem : Memory) (alg : Lru) : ∃ s,
      setup (lru memory) swapsize (Sim.start memsize physmem alg) = .ok () s ∧
        s.physmemSize = memsize * simPageSize % 2 ^ 32 := by
  obtain ⟨b, hb⟩ := bitmapCreate_returns swapsize
  rw [setup, Program.bind_of_ok (swapInit_of_create hb)]
  exact ⟨_, rfl, rfl⟩

theorem firstServed_iff (type : Char) (hmem : 1 ≤ memsize)
    (hsetup : setup (lru memory) swapsize (Sim.start memsize physmem alg) = .ok () s) :
    (∃ p t, beforeRef env (lru memory) vaddr type s = .ok p t) ↔
      FirstServed env memsize vaddr := by
  obtain ⟨s', hs', hsize⟩ := lru_setup memory swapsize memsize physmem alg
  obtain rfl : s = s' := (EStateM.Result.ok.inj (hsetup.symm.trans hs')).2
  rw [(setup_ok (lru_onlyRef memory) hsetup).beforeRef_returns_iff hmem, hsize]
  constructor
  · rintro ⟨hdir, htable, hframe⟩
    exact ⟨hdir, htable, hframe⟩
  · rintro ⟨hdir, htable, hframe⟩
    exact ⟨hdir, htable, hframe⟩

/-- Before any call of `lru_ref` or `lru_evict` the first access gets as far as `lru_ref`. -/
theorem exists_firstServed (post : List Access) (hmem : 1 ≤ memsize) {pre : List Access}
    {a : Access}
    (hpre : simulate env (lru memory) swapsize pre (Sim.start memsize physmem alg) = .ok () s)
    (h : (∃ p t, beforeRef env (lru memory) a.vaddr a.type s = .ok p t) ∨
      ∃ t, CallsEvict env a.vaddr s t) :
    ∃ b ∈ (pre ++ a :: post).head?, FirstServed env memsize b.vaddr := by
  obtain ⟨s₀, hsetup, hrun⟩ := simulate_ok.mp hpre
  cases pre with
  | nil =>
    cases hrun
    have hfresh := setup_ok (lru_onlyRef memory) hsetup
    refine ⟨a, rfl, (firstServed_iff _ hmem hsetup).mp (h.resolve_right ?_)⟩
    rintro ⟨t, ht⟩
    exact hfresh.not_callsEvict hmem ht
  | cons b pre =>
    obtain ⟨u, haccess, -⟩ := Program.runAll_cons_ok.mp hrun
    rw [accessMem, Program.bind_ok] at haccess
    obtain ⟨_, v, hfind, -⟩ := haccess
    rw [findPhyspage_eq, Program.bind_ok] at hfind
    obtain ⟨p, w, hbefore, -⟩ := hfind
    exact ⟨b, rfl, (firstServed_iff _ hmem hsetup).mp ⟨p, w, hbefore⟩⟩

/-- A list that is kept has seen no call of `lru_ref`. -/
theorem KeepsList.not_firstServed (hmem : 1 ≤ memsize)
    (h : KeepsList env memory swapsize (Sim.start memsize physmem alg) trace) :
    ∀ a ∈ trace.head?, ¬ FirstServed env memsize a.vaddr := by
  intro a ha hserved
  obtain ⟨s, hsetup, -⟩ := lru_setup memory swapsize memsize physmem alg
  have hstart : simulate env (lru memory) swapsize [] (Sim.start memsize physmem alg) =
      .ok () s := simulate_nil_ok.mpr hsetup
  obtain ⟨post, rfl⟩ := List.head?_eq_some_iff.mp ha
  obtain ⟨p, u, hbefore⟩ := (firstServed_iff a.type hmem hsetup).mpr hserved
  obtain ⟨v, href, hlists⟩ := h.ref [] a post s p u rfl hstart hbefore
  obtain ⟨hs, hrecent, hsize⟩ := recent_before hmem hstart
  exact not_lists_of_lruRef hs hrecent (hsize ▸ hmem) hbefore href hlists

/-- The list is kept exactly in the simulations that never get as far as `lru_ref`. -/
theorem keepsList_iff (hmem : 1 ≤ memsize) (trace : List Access) :
    KeepsList env memory swapsize (Sim.start memsize physmem alg) trace ↔
      ∀ a ∈ trace.head?, ¬ FirstServed env memsize a.vaddr := by
  constructor
  · exact fun h => h.not_firstServed hmem
  · intro hnone
    constructor
    · intro pre a post s p u htrace hpre hbefore
      obtain ⟨b, hb, hserved⟩ := exists_firstServed post hmem hpre (.inl ⟨p, u, hbefore⟩)
      exact absurd hserved (hnone b (htrace ▸ hb))
    · intro pre a post s u htrace hpre hevict
      obtain ⟨b, hb, hserved⟩ := exists_firstServed post hmem hpre (.inr ⟨u, hevict⟩)
      exact absurd hserved (hnone b (htrace ▸ hb))

theorem keepsList_iff_of_threePages :
    KeepsList calmEnv cleanMemory 4#32 (Sim.start 2 (fun _ => 0) ⟨.empty, none, none⟩) threePages ↔
      ∀ a ∈ threePages.head?, ¬ FirstServed calmEnv 2 a.vaddr :=
  keepsList_iff (by decide) threePages

/-- The first access puts a frame into the list that is not marked. -/
theorem not_keepsList : ¬ KeepsList calmEnv cleanMemory 4#32
    (Sim.start 2 (fun _ => 0) ⟨.empty, none, none⟩) threePages := fun h =>
  h.not_firstServed (by decide) ⟨'L', 0x1000#64⟩ rfl ⟨by decide, rfl, by decide⟩

end OsAssignments.Paging
