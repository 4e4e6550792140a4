import OsAssignments.Paging.Coremap
import OsAssignments.Paging.Lru
import OsAssignments.Paging.Victims

/-!
# Which page least recently used replacement evicts

No function marks a frame in the coremap, so `lru_ref` appends a node at every access and
`bottom` follows the newest node. The frame that `lru_evict` returns is therefore that of
the page accessed last: the right one only when there is no other frame.
-/

namespace OsAssignments.Paging

open Pager (Move)

variable {env : Env} {memory : NodeMemory} {swapsize : BitVec 32} {memsize : Nat}
  {physmem : Memory} {alg : Lru} {s t v : Sim Lru} {ind : Nat}

/-! ## The list after one call -/

/-- No frame is marked, and `top` is null or refers to a node. -/
structure Lru.Unmarked (s : Sim Lru) : Prop where
  evic : ∀ f, (s.coremap f).evic = 0
  top : s.alg.top = none ∨ ∃ n, s.alg.nodes.load s.alg.top = some n

theorem Lru.Unmarked.congr (hs : Lru.Unmarked s) (h : t.bookkeeping = s.bookkeeping) :
    Lru.Unmarked t := by
  obtain ⟨halg, hevic⟩ := Prod.mk.inj h
  refine ⟨fun f => (congrFun hevic f).trans (hs.evic f), ?_⟩
  rw [show t.alg = s.alg from halg]
  exact hs.top

/-- The list after an access has a node for the accessed frame at `bottom`. -/
theorem Lru.append_ok (hs : Lru.Unmarked s) (h : Lru.append memory ind s = .ok () t) :
    Lru.Unmarked t ∧ (∃ n, t.alg.nodes.load t.alg.bottom = some n ∧ n.ind = ind) ∧
      ∃ n, t.alg.nodes.load t.alg.top = some n := by
  rw [Lru.append, Program.bind_ok] at h
  obtain ⟨refNode, u, hnew, h⟩ := h
  obtain ⟨garbage, _, rfl, hu⟩ := Lru.newNode_ok.mp hnew
  have hnode : u.alg.nodes.load (some s.alg.nodes.count) = some ⟨garbage, ind⟩ := by
    rw [hu]
    exact Heap.load_alloc_count
  have hevic : ∀ f, (u.coremap f).evic = 0 := by
    rw [hu]
    exact hs.evic
  have htop : u.alg.top = none ∨ ∃ τ, u.alg.nodes.load u.alg.top = some τ := by
    rw [hu]
    exact hs.top.imp_right fun ⟨τ, hτ⟩ => ⟨τ, Heap.load_alloc hτ⟩
  rw [Program.get_bind] at h
  by_cases hends : u.alg.top = none ∨ u.alg.bottom = none
  · rw [if_pos hends] at h
    cases h
    exact ⟨⟨hevic, .inr ⟨_, hnode⟩⟩, ⟨_, hnode, rfl⟩, _, hnode⟩
  · rw [if_neg hends, Program.bind_ok] at h
    obtain ⟨τ, hτ⟩ := htop.resolve_left (not_or.mp hends).1
    obtain ⟨_, u₁, hset, h⟩ := h
    obtain ⟨n, hn, rfl⟩ := Lru.setNext_ok.mp hset
    rw [Program.bind_ok] at h
    obtain ⟨n', u₂, hnode', h⟩ := h
    obtain ⟨hn', rfl⟩ := Lru.node_ok.mp hnode'
    obtain rfl := Option.some.inj ((Heap.load_store hn).symm.trans hn')
    cases h
    obtain ⟨τ', hτ'⟩ := Heap.exists_load_store u.alg.bottom
      { n with next := some s.alg.nodes.count } hτ
    refine ⟨⟨hevic, .inr ⟨τ', hτ'⟩⟩, ?_, τ', hτ'⟩
    change ∃ n', (u.alg.nodes.store u.alg.bottom _).load (some s.alg.nodes.count) = some n' ∧ _
    -- Should `bottom` be a stray pointer to the new node, the node keeps its frame.
    by_cases hsame : u.alg.bottom = some s.alg.nodes.count
    · rw [hsame] at hn ⊢
      obtain rfl := Option.some.inj (hnode.symm.trans hn)
      exact ⟨_, Heap.load_store hnode, rfl⟩
    · rw [Heap.load_store_of_ne hsame, hnode]
      exact ⟨_, rfl, rfl⟩

/-- A reference to a page in a frame appends a node for that frame. -/
theorem lruRef_ok (hs : Lru.Unmarked s) {p : PtePtr} {f : Nat}
    (hhome : (s.status p).home = some f) (h : lruRef memory p s = .ok () t) :
    Lru.Unmarked t ∧ (∃ n, t.alg.nodes.load t.alg.bottom = some n ∧ n.ind = f) ∧
      ∃ n, t.alg.nodes.load t.alg.top = some n := by
  rw [lruRef, Program.bind_ok] at h
  obtain ⟨e, u, hread, h⟩ := h
  obtain ⟨he, rfl⟩ := readPte_ok.mp hread
  have hnumber : (e.frame >>> pageShift).toNat = f := Sim.number_of_home he hhome
  rw [hnumber] at h
  rw [Program.bind_ok] at h
  obtain ⟨frame, u', hframe, h⟩ := h
  unfold coremapAt at hframe
  split at hframe
  · cases hframe
    rw [if_pos (hs.evic f)] at h
    exact Lru.append_ok hs h
  · cases hframe

theorem Lru.Unmarked.setEvic (hs : Lru.Unmarked s) :
    Lru.Unmarked (s.setFrame ind { s.coremap ind with evic := 0 }) where
  evic f := by
    change (Function.update s.coremap _ _ f).evic = 0
    rw [Function.update_apply]
    split
    · rfl
    · exact hs.evic f
  top := hs.top

/-- The victim is the frame of the node at `bottom`. -/
theorem lruEvict_eq (hs : Lru.Unmarked s) {n τ : SNode}
    (hbottom : s.alg.nodes.load s.alg.bottom = some n) (htop : s.alg.nodes.load s.alg.top = some τ)
    (hind : n.ind < s.memsize) : ∃ t, lruEvict s = .ok n.ind t ∧ Lru.Unmarked t := by
  have hne : s.alg.bottom ≠ none := by
    intro hnone
    rw [hnone] at hbottom
    cases hbottom
  have hlast : ∀ u : Sim Lru, u.memsize = s.memsize → Lru.Unmarked u →
      ∃ t, (setEvic n.ind 0 >>= fun _ => pure n.ind : SimM Lru Nat) u = .ok n.ind t ∧
        Lru.Unmarked t := fun u hsize hu =>
    ⟨_, setEvic_bind (by rw [hsize]; exact hind) _, hu.setEvic⟩
  rw [lruEvict, Program.get_bind, if_neg hne, Lru.node_bind hbottom, Lru.node_bind htop]
  by_cases hends : n.ind = τ.ind
  · rw [if_pos hends, Lru.setBottom_bind, Lru.setTop_bind]
    have hrest : Lru.Unmarked (s.withAlg { s.alg with bottom := none, top := none }) :=
      ⟨hs.evic, .inl rfl⟩
    exact hlast _ rfl hrest
  · rw [if_neg hends, Lru.setBottom_bind, Lru.freeNode_bind]
    have hkept : (s.alg.nodes.free s.alg.bottom).load s.alg.top = some τ := by
      rw [Heap.load_free_of_ne, htop]
      intro hsame
      rw [hsame, htop] at hbottom
      exact hends (congrArg SNode.ind (Option.some.inj hbottom)).symm
    have hrest : Lru.Unmarked (s.withAlg
        { s.alg with nodes := s.alg.nodes.free s.alg.bottom, bottom := n.next }) :=
      ⟨hs.evic, .inr ⟨τ, hkept⟩⟩
    exact hlast _ rfl hrest

/-! ## The list between two accesses -/

/-- No access has been made, or the node at `bottom` is for the frame of the page accessed last. -/
structure Recent (s : Sim Lru) : Prop where
  unmarked : Lru.Unmarked s
  last : (∀ f, (s.coremap f).inUse = false) ∨ ∃ p pages n τ, accessedPages s.history = p :: pages ∧
    s.alg.nodes.load s.alg.bottom = some n ∧ s.alg.nodes.load s.alg.top = some τ ∧
    (s.status p).home = some n.ind

/-- The frame of the node at `bottom`. -/
def Lru.bottomFrame (s : Sim Lru) : Nat :=
  ((s.alg.nodes.load s.alg.bottom).map SNode.ind).getD 0

/-- When every frame is in use, the node at `bottom` exists. -/
theorem Recent.bottom (h : Recent s) (hmem : 1 ≤ s.memsize) (hfull : s.freeFrame = none) :
    ∃ p pages n τ, accessedPages s.history = p :: pages ∧ s.alg.nodes.load s.alg.bottom = some n ∧
      s.alg.nodes.load s.alg.top = some τ ∧ (s.status p).home = some n.ind ∧
      n.ind = Lru.bottomFrame s := by
  rcases h.last with hunused | ⟨p, pages, n, τ, hpages, hbottom, htop, hhome⟩
  · have hin := Good.inUse_of_freeFrame_none hfull (f := 0) (by omega)
    rw [hunused 0] at hin
    cases hin
  · refine ⟨p, pages, n, τ, hpages, hbottom, htop, hhome, ?_⟩
    rw [Lru.bottomFrame, hbottom]
    rfl

/-- Asked for a victim, the algorithm returns that frame and forgets at most its node. -/
theorem Recent.evict (hs : Good s) (h : Recent s) (hmem : 1 ≤ s.memsize)
    (hfull : s.freeFrame = none) (hbook : v.bookkeeping = s.bookkeeping)
    (hsize : v.memsize = s.memsize) :
    ∃ w, lruEvict v = .ok (Lru.bottomFrame s) w ∧ Lru.Unmarked w := by
  obtain ⟨p, _, n, τ, _, hbottom, htop, hhome, hn⟩ := h.bottom hmem hfull
  have halg : v.alg = s.alg := (Prod.mk.inj hbook).1
  rw [← hn]
  refine lruEvict_eq (h.unmarked.congr hbook) (halg ▸ hbottom) (halg ▸ htop) ?_
  rw [hsize]
  exact hs.home_lt hhome

theorem Recent.choosesFrame (hs : Good s) (h : Recent s) (hmem : 1 ≤ s.memsize)
    (hfull : s.freeFrame = none) : ChoosesFrame (lru memory) s (Lru.bottomFrame s) := by
  intro v hbook _ hsize
  obtain ⟨w, hw, _⟩ := h.evict hs hmem hfull hbook hsize
  exact ⟨w, hw⟩

/-- Whatever the algorithm was asked during an access, no frame is marked afterwards. -/
theorem Recent.consulted (hs : Good s) (h : Recent s) (hmem : 1 ≤ s.memsize) {m : Move PtePtr}
    (hcons : Consulted (lru memory) s m v) : Lru.Unmarked v := by
  cases hcons with
  | kept _ _ hbook => exact h.unmarked.congr hbook
  | chose w _ hchooses hbook =>
    obtain ⟨hfull, v', hbook', _, hsize, hcall⟩ := hchooses
    obtain ⟨w', hw', hunmarked⟩ := h.evict hs hmem hfull hbook' hsize
    obtain rfl := (EStateM.Result.ok.inj (hcall.symm.trans hw')).2
    exact hunmarked.congr hbook

theorem Recent.accessed (hs : Good s) (h : Recent s) (hmem : 1 ≤ s.memsize) {a : Access}
    {m : Move PtePtr} {c : List UInt8} {u : Sim Lru}
    (hfind : findPhyspage env (lru memory) a.vaddr a.type s = .ok (m.frame * simPageSize) u)
    (hacc : Accessed env s a m c u t) : Recent t := by
  obtain ⟨_, m', _, v, _, hserved, hcons, hhome, href⟩ :=
    hs.findPhyspage (lru_onlyRef memory) hfind
  obtain ⟨hu, ⟨n, hbottom, hn⟩, τ, htop⟩ := lruRef_ok (h.consulted hs hmem hcons) hhome href
  have halg : t.alg = u.alg := by rw [hacc.rest]
  have hstatus : t.status = u.status := by rw [hacc.rest]; rfl
  refine ⟨hu.congr (by rw [hacc.rest]; rfl), .inr ⟨_, _, n, τ, hacc.accessedPages, ?_, ?_, ?_⟩⟩
  · rw [halg]
    exact hbottom
  · rw [halg]
    exact htop
  · rw [hstatus, hn]
    exact hserved.home

theorem recent_of_simulate (hmem : 1 ≤ memsize) : ∀ trace s,
    simulate env (lru memory) swapsize trace (Sim.start memsize physmem alg) = .ok () s →
      Good s ∧ Recent s := by
  refine simulate_induction (lru_onlyRef memory) (fun _ s => Recent s) ?_ ?_
  · intro s hsetup hfresh
    obtain ⟨v, hbook, hinit⟩ := setup_init hsetup
    cases hinit
    refine ⟨⟨fun f => ?_, .inl rfl⟩, .inl hfresh.inUse⟩
    change (if f < v.memsize then { v.coremap f with evic := 0 } else v.coremap f).evic = 0
    split
    · rfl
    · exact congrFun (Prod.mk.inj hbook).2 f
  · intro pre s a m c u t hpre hs h _ hfind hacc
    have hsize := memsize_of_simulate (lru_onlyRef memory) hpre
    exact h.accessed hs (hsize ▸ hmem) hfind hacc

/-! ## The pages evicted -/

/-- How many accesses followed the most recent access to a page. -/
def age (history : List Event) (p : PtePtr) : Nat := (accessedPages history).idxOf p

/-- The frame holds the page whose most recent access lies earliest. -/
def LeastRecent (f : Nat) (pages : List (Option PtePtr)) (history : List Event) : Prop :=
  ∃ p, pages[f]? = some (some p) ∧ ∀ q, some q ∈ pages → age history q ≤ age history p

/-- With more than one frame the chosen page is not the least recently used one. -/
theorem Recent.not_leastRecent (hs : Good s) (h : Recent s) (hmem : 2 ≤ s.memsize)
    (hfull : s.freeFrame = none) : ¬ LeastRecent (Lru.bottomFrame s) s.pages s.history := by
  rintro ⟨p, hp, hmin⟩
  obtain ⟨p', pages, n, _, hpages, _, _, hhome, hn⟩ := h.bottom (by omega) hfull
  -- The page in the frame of the node at `bottom` is the one accessed last.
  rw [hn] at hhome
  obtain ⟨q, hq, hqhome⟩ := hs.pages_of_full hfull (hs.home_lt hhome)
  obtain rfl : q = p := by
    rw [hp] at hq
    exact (Option.some.inj (Option.some.inj hq)).symm
  obtain rfl : p' = q :=
    Option.some.inj (((hs.inv.home_iff p' _).mp hhome).symm.trans ((hs.inv.home_iff q _).mp hqhome))
  -- Some other frame holds a page that was accessed before it.
  obtain ⟨g, hg, hne⟩ : ∃ g, g < s.memsize ∧ g ≠ Lru.bottomFrame s := by
    by_cases hzero : Lru.bottomFrame s = 0
    · exact ⟨1, by omega, by omega⟩
    · exact ⟨0, by omega, Ne.symm hzero⟩
  obtain ⟨q, hq', hqhome'⟩ := hs.pages_of_full hfull hg
  have hpq : p' ≠ q := by
    rintro rfl
    rw [hhome] at hqhome'
    exact hne (Option.some.inj hqhome').symm
  have hle := hmin q (List.mem_of_getElem? hq')
  rw [age, age, hpages, List.idxOf_cons_self, List.idxOf_cons_ne _ hpq] at hle
  omega

/-- A single frame holds the only page there is. -/
theorem Good.leastRecent_of_single {σ : Type} {s : Sim σ} (hs : Good s) (hmem : s.memsize = 1)
    (hfull : s.freeFrame = none) : LeastRecent 0 s.pages s.history := by
  obtain ⟨p, hp, _⟩ := hs.pages_of_full hfull (f := 0) (by omega)
  refine ⟨p, hp, fun q hq => ?_⟩
  obtain ⟨g, hg, hpte⟩ := List.mem_map.mp hq
  rw [List.mem_range, hmem] at hg
  obtain rfl : g = 0 := by omega
  rw [Sim.pages, List.getElem?_map, List.getElem?_range (by omega), Option.map_some, hpte] at hp
  obtain rfl := Option.some.inj (Option.some.inj hp)
  exact Nat.le_refl _

theorem Recent.bottomFrame_of_single (hs : Good s) (h : Recent s) (hmem : s.memsize = 1)
    (hfull : s.freeFrame = none) : Lru.bottomFrame s = 0 := by
  obtain ⟨_, _, n, _, _, _, _, hhome, hn⟩ := h.bottom (by omega) hfull
  have := hs.home_lt hhome
  omega

/-- Between two accesses the list is as described. -/
theorem recent_before (hmem : 1 ≤ memsize) {pre : List Access}
    (h : simulate env (lru memory) swapsize pre (Sim.start memsize physmem alg) = .ok () s) :
    Good s ∧ Recent s ∧ s.memsize = memsize :=
  have ⟨hs, hrecent⟩ := recent_of_simulate hmem pre s h
  ⟨hs, hrecent, memsize_of_simulate (lru_onlyRef memory) h⟩

theorem each_leastRecent_iff (hmem : 1 ≤ memsize) (trace : List Access) :
    Each (Chose LeastRecent) (Program.final
      (simulate env (lru memory) swapsize trace (Sim.start memsize physmem alg))).history ↔
    ∀ pre a post s, Evicting env (lru memory) swapsize (Sim.start memsize physmem alg) trace
      pre a post s → LeastRecent (Lru.bottomFrame s) s.pages s.history := by
  refine each_chose_iff (lru_onlyRef memory) LeastRecent Lru.bottomFrame fun pre s hpre hfull => ?_
  obtain ⟨hs, hrecent, hsize⟩ := recent_before hmem hpre
  exact hrecent.choosesFrame hs (by omega) hfull

/-- With more than one frame a single access that needs a victim gets the wrong one. -/
theorem Evicting.not_leastRecent (hmem : 2 ≤ memsize) {trace pre post : List Access} {a : Access}
    (h : Evicting env (lru memory) swapsize (Sim.start memsize physmem alg) trace pre a post s) :
    ¬ Each (Chose LeastRecent) (Program.final
      (simulate env (lru memory) swapsize trace (Sim.start memsize physmem alg))).history := by
  intro heach
  obtain ⟨hs, hrecent, hsize⟩ := recent_before (by omega) h.before
  exact hrecent.not_leastRecent hs (by omega) h.needs.full
    ((each_leastRecent_iff (by omega) trace).mp heach pre a post s h)

/-- The algorithm evicts the least recently used page exactly when there is a single frame
or no access ever needs a victim. -/
theorem evictsLeastRecent_iff (hmem : 1 ≤ memsize) (trace : List Access) :
    Each (Chose LeastRecent) (Program.final
      (simulate env (lru memory) swapsize trace (Sim.start memsize physmem alg))).history ↔
    memsize = 1 ∨ ∀ pre a post s, ¬ Evicting env (lru memory) swapsize
      (Sim.start memsize physmem alg) trace pre a post s := by
  constructor
  · intro heach
    by_cases hone : memsize = 1
    · exact .inl hone
    · exact .inr fun pre a post s h => h.not_leastRecent (by omega) heach
  · rw [each_leastRecent_iff hmem trace]
    rintro (hone | hnone) pre a post s h
    · obtain ⟨hs, hrecent, hsize⟩ := recent_before hmem h.before
      rw [hrecent.bottomFrame_of_single hs (by omega) h.needs.full]
      exact hs.leastRecent_of_single (by omega) h.needs.full
    · exact absurd h (hnone pre a post s)

/-- Memory whose `next` fields happen to be null. -/
def cleanMemory : NodeMemory := fun _ => some none

/-- Three pages that are accessed in turn. -/
def threePages : List Access := [⟨'L', 0x1000#64⟩, ⟨'L', 0x2000#64⟩, ⟨'L', 0x3000#64⟩]

theorem evictsLeastRecent_iff_of_threePages :
    Each (Chose LeastRecent) (Program.final (simulate calmEnv (lru cleanMemory) 4#32 threePages
      (Sim.start 2 (fun _ => 0) ⟨.empty, none, none⟩))).history ↔
    2 = 1 ∨ ∀ pre a post s, ¬ Evicting calmEnv (lru cleanMemory) 4#32
      (Sim.start 2 (fun _ => 0) ⟨.empty, none, none⟩) threePages pre a post s :=
  evictsLeastRecent_iff (by decide) threePages

/-- With two frames the third access evicts the second page instead of the first one. -/
theorem not_evictsLeastRecent :
    ¬ Each (Chose LeastRecent) (Program.final (simulate calmEnv (lru cleanMemory) 4#32 threePages
      (Sim.start 2 (fun _ => 0) ⟨.empty, none, none⟩))).history := by
  have hevicting : ∃ s, Evicting calmEnv (lru cleanMemory) 4#32
      (Sim.start 2 (fun _ => 0) ⟨.empty, none, none⟩) threePages (threePages.take 2)
      ⟨'L', 0x3000#64⟩ [] s := by
    obtain ⟨_, s, hs, hneeds⟩ := Program.exists_of_holds (show Program.holds
      (simulate calmEnv (lru cleanMemory) 4#32 (threePages.take 2)
        (Sim.start 2 (fun _ => 0) ⟨.empty, none, none⟩)) (needsVictim calmEnv 0x3000#64) = true
      by decide +kernel)
    exact ⟨s, rfl, hs, needsVictim_iff.mp hneeds⟩
  obtain ⟨s, h⟩ := hevicting
  exact h.not_leastRecent (by decide)

end OsAssignments.Paging
