import OsAssignments.Paging.Contents
import OsAssignments.Paging.Coremap
import OsAssignments.Paging.Opt
import OsAssignments.Paging.Victims

/-!
# What optimal replacement sees of the future

`opt_init` never links the nodes it allocates, so the list from `head` has at most one node
and is empty after the first access. From then on no page seems to be accessed again and
`opt_evict` returns frame 0, whatever the rest of the trace is.
-/

namespace OsAssignments.Paging

open Pager (Move)

variable {env : Env} {mallocs : Mallocs} {tracefile : Option (List UInt8)} {type : Char}
  {swapsize : BitVec 32} {memsize : Nat} {physmem : Memory} {alg : Opt} {s t v : Sim Opt}

/-! ## The list -/

/-- The list from `head` is empty or has one node. -/
def Opt.AtMostOne (s : Sim Opt) : Prop :=
  s.alg.head = none ∨ ∃ vaddr, s.alg.nodes.load s.alg.head = some ⟨vaddr, none⟩

/-- The list after `opt_init` has handled one more line. -/
def Opt.withNode (s : Sim Opt) (vaddr : BitVec 64) : Sim Opt :=
  s.withAlg ⟨s.alg.nodes.alloc ⟨vaddr, none⟩,
    if s.alg.head = none then some s.alg.nodes.count else s.alg.head⟩

/-- A line takes a node, which only the first one is linked to. -/
theorem Opt.readTrace_cons {buf : List UInt8} (hcomment : ¬ isComment buf = true)
    (lines : List (List UInt8)) (a : Access) :
    Opt.readTrace mallocs (buf :: lines) a s = if mallocs s.alg.nodes.count then
      Opt.readTrace mallocs lines (sscanf buf a) (Opt.withNode s (sscanf buf a).vaddr)
      else .error .undefined s := by
  rw [Opt.readTrace, if_neg hcomment]
  by_cases hmalloc : mallocs s.alg.nodes.count = true
  · obtain ⟨u, hu⟩ : ∃ u, u = s.withAlg
        { s.alg with nodes := s.alg.nodes.alloc ⟨(sscanf buf a).vaddr, none⟩ } := ⟨_, rfl⟩
    have hnew : Opt.newNode mallocs (sscanf buf a).vaddr s = .ok (some s.alg.nodes.count) u := by
      rw [Opt.newNode, Program.get_bind, if_pos hmalloc, hu]
      rfl
    have huhead : u.alg.head = s.alg.head := by
      rw [hu]
      rfl
    rw [if_pos hmalloc, Program.bind_of_ok hnew, Program.get_bind, Opt.withNode]
    by_cases hhead : s.alg.head = none
    · rw [if_pos (huhead.trans hhead), if_pos hhead, hu]
      rfl
    · rw [if_neg (huhead ▸ hhead), if_neg hhead, hu]
  · have hnew : Opt.newNode mallocs (sscanf buf a).vaddr s = .error .undefined s := by
      rw [Opt.newNode, Program.get_bind, if_neg hmalloc]
      rfl
    rw [if_neg hmalloc]
    exact Program.bind_error.mpr (.inl hnew)

theorem Opt.AtMostOne.withNode (hs : Opt.AtMostOne s) (vaddr : BitVec 64) :
    Opt.AtMostOne (Opt.withNode s vaddr) := by
  by_cases hhead : s.alg.head = none
  · refine .inr ⟨vaddr, ?_⟩
    simp only [Opt.withNode, Sim.alg_withAlg, if_pos hhead]
    exact Heap.load_alloc_count
  · obtain ⟨vaddr', hvaddr'⟩ := hs.resolve_left hhead
    refine .inr ⟨vaddr', ?_⟩
    simp only [Opt.withNode, Sim.alg_withAlg, if_neg hhead]
    exact Heap.load_alloc hvaddr'

/-- Reading the trace file links no second node to the first one. -/
theorem Opt.readTrace_ok (lines : List (List UInt8)) (a : Access) (hs : Opt.AtMostOne s)
    (h : Opt.readTrace mallocs lines a s = .ok () t) : Opt.AtMostOne t := by
  induction lines generalizing a s with
  | nil =>
    cases h
    exact hs
  | cons buf lines ih =>
    by_cases hcomment : isComment buf = true
    · rw [Opt.readTrace, if_pos hcomment] at h
      exact ih a hs h
    · rw [Opt.readTrace_cons hcomment] at h
      split at h
      · exact ih _ (hs.withNode _) h
      · cases h

/-- A reference drops the only node. -/
theorem optRef_ok {p : PtePtr} (hs : Opt.AtMostOne s) (h : optRef p s = .ok () t) :
    t.alg.head = none := by
  rw [optRef, Program.get_bind] at h
  by_cases hhead : s.alg.head = none
  · rw [if_neg (not_not.mpr hhead)] at h
    cases h
    exact hhead
  · rw [if_pos hhead, Program.bind_ok] at h
    obtain ⟨n, u, hnode, h⟩ := h
    rw [Opt.node, Program.get_bind] at hnode
    obtain ⟨hn, rfl⟩ := Program.require_ok.mp hnode
    obtain ⟨vaddr, hvaddr⟩ := hs.resolve_left hhead
    rw [hvaddr] at hn
    obtain rfl := Option.some.inj hn
    cases h
    rfl

/-- With an empty list the first frame is returned. -/
theorem optEvict_of_empty (hmem : 1 ≤ s.memsize) (hhead : s.alg.head = none) :
    optEvict s = .ok 0 s := by
  obtain ⟨n, hn⟩ := Nat.exists_eq_add_of_le hmem
  have hframes : List.range s.memsize = 0 :: (List.range n).map Nat.succ := by
    rw [hn, Nat.add_comm, List.range_succ_eq_map]
  have hnext : isNextFrame (s.coremap 0).pte s = .ok (-1) s := by
    rw [isNextFrame, Program.get_bind, hhead]
    cases s.alg.nodes.count <;> rfl
  rw [optEvict, Program.get_bind, hframes, Opt.choose, Program.get_bind, Program.bind_of_ok hnext]
  rfl

/-! ## The list between two accesses -/

/-- The list has at most one node, and none once a page is in memory. -/
structure Spent (s : Sim Opt) : Prop where
  atMostOne : Opt.AtMostOne s
  empty : (∀ f, (s.coremap f).inUse = false) ∨ s.alg.head = none

theorem Spent.head (h : Spent s) (hmem : 1 ≤ s.memsize) (hfull : s.freeFrame = none) :
    s.alg.head = none := by
  refine h.empty.resolve_left fun hunused => ?_
  have hin := Good.inUse_of_freeFrame_none hfull (f := 0) (by omega)
  rw [hunused 0] at hin
  cases hin

theorem Spent.evict (h : Spent s) (hmem : 1 ≤ s.memsize) (hfull : s.freeFrame = none)
    (hbook : v.bookkeeping = s.bookkeeping) (hsize : v.memsize = s.memsize) :
    optEvict v = .ok 0 v := by
  refine optEvict_of_empty (hsize ▸ hmem) ?_
  rw [show v.alg = s.alg from (Prod.mk.inj hbook).1]
  exact h.head hmem hfull

/-- An access empties the list. -/
theorem Spent.head_of_accessed (hs : Good s) (h : Spent s) (hmem : 1 ≤ s.memsize) {a : Access}
    {m : Move PtePtr} {c : List UInt8} {u : Sim Opt}
    (hfind : findPhyspage env (opt mallocs tracefile type) a.vaddr a.type s =
      .ok (m.frame * simPageSize) u) (hacc : Accessed env s a m c u t) : t.alg.head = none := by
  obtain ⟨_, m', _, v, _, _, hcons, _, href⟩ :=
    hs.findPhyspage (opt_onlyRef mallocs tracefile type) hfind
  have hv : v.alg = s.alg := by
    cases hcons with
    | kept _ _ hbook => exact (Prod.mk.inj hbook).1
    | chose w _ hchooses hbook =>
      obtain ⟨hfull, v', hbook', _, hsize, hcall⟩ := hchooses
      obtain rfl := (EStateM.Result.ok.inj (hcall.symm.trans
        (h.evict hmem hfull hbook' hsize))).2
      exact (Prod.mk.inj (hbook.trans hbook')).1
  have hone : Opt.AtMostOne v := by
    rw [Opt.AtMostOne, hv]
    exact h.atMostOne
  have hu : u.alg.head = none := optRef_ok (p := pteOf a.vaddr) hone href
  rw [hacc.rest]
  exact hu

theorem Spent.accessed (hs : Good s) (h : Spent s) (hmem : 1 ≤ s.memsize) {a : Access}
    {m : Move PtePtr} {c : List UInt8} {u : Sim Opt}
    (hfind : findPhyspage env (opt mallocs tracefile type) a.vaddr a.type s =
      .ok (m.frame * simPageSize) u) (hacc : Accessed env s a m c u t) : Spent t :=
  have hhead := h.head_of_accessed hs hmem hfind hacc
  ⟨.inl hhead, .inr hhead⟩

/-- The set-up reads the trace file into a list of at most one node. -/
theorem spent_of_setup (hfresh : Fresh memsize swapsize s)
    (hsetup : setup (opt mallocs tracefile type) swapsize (Sim.start memsize physmem alg) =
      .ok () s) : Spent s := by
  obtain ⟨v, _, hinit⟩ := setup_init hsetup
  change (Opt.setHead none >>= _) v = _ at hinit
  rw [Program.bind_ok] at hinit
  obtain ⟨_, u, hhead, hread⟩ := hinit
  cases hhead
  cases tracefile with
  | none => cases hread
  | some file => exact ⟨Opt.readTrace_ok _ _ (.inl rfl) hread, .inl hfresh.inUse⟩

theorem spent_of_simulate (hmem : 1 ≤ memsize) : ∀ trace s,
    simulate env (opt mallocs tracefile type) swapsize trace (Sim.start memsize physmem alg) =
      .ok () s → Good s ∧ Spent s := by
  refine simulate_induction (opt_onlyRef mallocs tracefile type) (fun _ s => Spent s) ?_ ?_
  · intro s hsetup hfresh
    exact spent_of_setup hfresh hsetup
  · intro pre s a m c u t hpre hs h _ hfind hacc
    have hsize := memsize_of_simulate (opt_onlyRef mallocs tracefile type) hpre
    exact h.accessed hs (hsize ▸ hmem) hfind hacc

/-! ## The pages evicted -/

/-- The page of an entry, as the number of the page an address must lie in to reach it. -/
def PtePtr.page (p : PtePtr) : Nat := p.dir * ptrsPerPgtbl + p.tbl

/-- How many accesses happen before the next access to a page, if there is one. -/
def nextUse (rest : List Access) (p : PtePtr) : Option Nat :=
  rest.findIdx? fun a => (pageOf a.vaddr).toNat = p.page

/-- The frame holds a page that is not accessed in the rest of the trace, or all pages are
accessed again and none of them later than the page of the frame. -/
def FurthestUse (rest : List Access) (f : Nat) (pages : List (Option PtePtr)) : Prop :=
  ∃ p, pages[f]? = some (some p) ∧ (nextUse rest p = none ∨ ∃ n, nextUse rest p = some n ∧
    ∀ q, some q ∈ pages → ∃ k, nextUse rest q = some k ∧ k ≤ n)

/-- The same for a choice in the history of a trace: the rest of the trace is what follows
the access that is being served. -/
def ChoseFurthest (trace : List Access) (f : Nat) (pages : List (Option PtePtr))
    (history : List Event) : Prop :=
  FurthestUse (trace.drop ((accessedPages history).length + 1)) f pages

theorem length_accessedPages {σ : Type} {P : Policy σ} {alg : σ} (hP : P.OnlyRef) : ∀ trace s,
    simulate env P swapsize trace (Sim.start memsize physmem alg) = .ok () s →
      Good s ∧ (accessedPages s.history).length = trace.length := by
  refine simulate_induction hP (fun pre s => (accessedPages s.history).length = pre.length) ?_ ?_
  · intro s _ hfresh
    rw [hfresh.history]
    rfl
  · intro pre s a m c u t _ _ ih _ _ hacc
    rw [hacc.accessedPages, List.length_cons, ih, List.length_append, List.length_singleton]

/-- At a choice the accesses so far and the access being served are gone from the trace. -/
theorem Evicting.choseFurthest_iff {σ : Type} {P : Policy σ} {alg : σ} {s : Sim σ} (hP : P.OnlyRef)
    {trace pre post : List Access} {a : Access}
    (h : Evicting env P swapsize (Sim.start memsize physmem alg) trace pre a post s) (f : Nat)
    (pages : List (Option PtePtr)) :
    ChoseFurthest trace f pages s.history ↔ FurthestUse post f pages := by
  rw [ChoseFurthest, (length_accessedPages hP pre s h.before).2, h.split, List.append_cons,
    ← List.length_singleton (a := a), ← List.length_append, List.drop_left]

theorem each_choseFurthest_iff (hmem : 1 ≤ memsize) (trace : List Access) :
    Each (Chose (ChoseFurthest trace)) (Program.final (simulate env (opt mallocs tracefile type)
      swapsize trace (Sim.start memsize physmem alg))).history ↔
    ∀ pre a post s, Evicting env (opt mallocs tracefile type) swapsize
      (Sim.start memsize physmem alg) trace pre a post s → FurthestUse post 0 s.pages := by
  have hP := opt_onlyRef mallocs tracefile type
  rw [each_chose_iff hP _ fun _ => 0]
  · exact forall_congr' fun pre => forall_congr' fun a => forall_congr' fun post =>
      forall_congr' fun s => forall_congr' fun h => h.choseFurthest_iff hP 0 s.pages
  · intro pre s hpre hfull v hbook _ hsize
    obtain ⟨_, hspent⟩ := spent_of_simulate hmem pre s hpre
    have hmemsize := memsize_of_simulate hP hpre
    exact ⟨v, hspent.evict (by omega) hfull hbook hsize⟩

/-- The algorithm chooses optimally exactly when, whenever a victim is needed, the page in
frame 0 is one whose next access is furthest away. -/
theorem choosesFurthest_iff (hmem : 1 ≤ memsize) (file : List UInt8) (type' : Char) :
    Each (Chose (ChoseFurthest (traceOf type' file))) (Program.final
      (simulateFile env (opt mallocs (some file) type) swapsize type' file
        (Sim.start memsize physmem alg))).history ↔
    ∀ pre a post s, Evicting env (opt mallocs (some file) type) swapsize
      (Sim.start memsize physmem alg) (traceOf type' file) pre a post s →
      FurthestUse post 0 s.pages := by
  rw [simulateFile_eq]
  exact each_choseFurthest_iff hmem (traceOf type' file)

/-- The lines `L 1000`, `L 2000`, `L 3000` and `L 1000`. -/
def comesBack : List UInt8 :=
  [0x4c, 0x20, 0x31, 0x30, 0x30, 0x30, 0x0a, 0x4c, 0x20, 0x32, 0x30, 0x30, 0x30, 0x0a,
    0x4c, 0x20, 0x33, 0x30, 0x30, 0x30, 0x0a, 0x4c, 0x20, 0x31, 0x30, 0x30, 0x30, 0x0a]

theorem choosesFurthest_iff_of_comesBack :
    Each (Chose (ChoseFurthest (traceOf 'L' comesBack))) (Program.final
      (simulateFile calmEnv (opt (fun _ => true) (some comesBack) 'L') 4#32 'L' comesBack
        (Sim.start 2 (fun _ => 0) ⟨.empty, none⟩))).history ↔
    ∀ pre a post s, Evicting calmEnv (opt (fun _ => true) (some comesBack) 'L') 4#32
      (Sim.start 2 (fun _ => 0) ⟨.empty, none⟩) (traceOf 'L' comesBack) pre a post s →
      FurthestUse post 0 s.pages :=
  choosesFurthest_iff (by decide) comesBack 'L'

/-- With two frames the third access evicts the page that the fourth one needs. -/
theorem not_choosesFurthest : (∀ a ∈ traceOf 'L' comesBack, a.vaddr.toNat % 4096 = 0) ∧
    ¬ Each (Chose (ChoseFurthest (traceOf 'L' comesBack))) (Program.final
      (simulateFile calmEnv (opt (fun _ => true) (some comesBack) 'L') 4#32 'L' comesBack
        (Sim.start 2 (fun _ => 0) ⟨.empty, none⟩))).history := by
  refine ⟨by decide +kernel, fun heach => ?_⟩
  rw [simulateFile_eq, each_choseFurthest_iff (by decide)] at heach
  obtain ⟨_, s, hs, hq⟩ := Program.exists_of_holds (show Program.holds
    (simulate calmEnv (opt (fun _ => true) (some comesBack) 'L') 4#32
      ((traceOf 'L' comesBack).take 2) (Sim.start 2 (fun _ => 0) ⟨.empty, none⟩))
    (fun _ s => needsVictim calmEnv 0x3000#64 () s &&
      s.pages = [some (pteOf 0x1000#64), some (pteOf 0x2000#64)]) = true by decide +kernel)
  rw [Bool.and_eq_true, decide_eq_true_eq] at hq
  obtain ⟨hneeds, hpages⟩ := hq
  obtain ⟨p, hp, hfurthest⟩ := heach ((traceOf 'L' comesBack).take 2) ⟨'L', 0x3000#64⟩
    [⟨'L', 0x1000#64⟩] s ⟨by decide +kernel, hs, needsVictim_iff.mp hneeds⟩
  rw [hpages] at hp hfurthest
  obtain rfl := Option.some.inj (Option.some.inj hp)
  rcases hfurthest with hnever | ⟨n, _, hothers⟩
  · exact absurd hnever (by decide +kernel)
  · obtain ⟨k, hk, _⟩ := hothers (pteOf 0x2000#64) (by decide +kernel)
    have hnone : nextUse [⟨'L', 0x1000#64⟩] (pteOf 0x2000#64) = none := by decide +kernel
    rw [hnone] at hk
    cases hk

end OsAssignments.Paging
