import OsAssignments.Paging.LookAhead
import OsAssignments.Paging.SwapCapacity

/-!
# The list of the accesses to come

The list from `head` is meant to hold the addresses of the accesses that are still to come. It
holds one address after `opt_init` and none after the first access, so that it follows a trace file
only when there is at most one access in it.
-/

namespace OsAssignments.Paging

open Pager (Move)

variable {env : Env} {mallocs : Mallocs} {type type' : Char} {swapsize : BitVec 32}
  {memsize : Nat} {physmem : Memory} {alg : Opt} {file : List UInt8} {s t : Sim Opt}
  {rest : List (BitVec 64)}

/-! ## What the list is to hold -/

/-- The list from `head` holds these addresses in order. -/
def Opt.Lists (s : Sim Opt) (rest : List (BitVec 64)) : Prop :=
  ∃ cells, s.alg.nodes.Linked AddrList.next s.alg.head cells ∧
    cells.map (fun cell => cell.2.vaddr) = rest

/-- How many accesses come before the next one to an address, or -1 when there is none. -/
def distance (rest : List (BitVec 64)) (vaddr : BitVec 64) : Int :=
  match rest.idxOf? vaddr with
  | some n => n
  | none => -1

/-- The list holds the rest of a trace, and `is_next_frame` returns for the address in a page table
entry how far its next access is. -/
structure LooksAhead (s : Sim Opt) (rest : List (BitVec 64)) : Prop where
  lists : Opt.Lists s rest
  next : ∀ p e, s.entry p = some e →
    isNextFrame (some p) s = .ok (distance rest e.vaddr) s

/-- `opt_init` returns, and after every number of accesses of a trace file the list holds the
addresses of the accesses that follow. -/
def FollowsTrace (env : Env) (mallocs : Mallocs) (type : Char) (swapsize : BitVec 32)
    (start : Sim Opt) (type' : Char) (file : List UInt8) : Prop :=
  (∃ s, setup (opt mallocs (some file) type) swapsize start = .ok () s) ∧
    ∀ k s, simulate env (opt mallocs (some file) type) swapsize ((traceOf type' file).take k)
      start = .ok () s → LooksAhead s (((traceOf type' file).drop k).map Access.vaddr)

/-! ## The two readers of the file -/

theorem sscanf_vaddr (buf : List UInt8) {a b : Access} (h : a.vaddr = b.vaddr) :
    (sscanf buf a).vaddr = (sscanf buf b).vaddr := by
  unfold sscanf
  split
  · exact h
  · split
    · exact h
    · rfl

/-- The addresses in a file do not depend on what `type` holds at first. -/
theorem vaddrs_accessesOf (lines : List (List UInt8)) {a b : Access} (h : a.vaddr = b.vaddr) :
    (accessesOf lines a).map Access.vaddr = (accessesOf lines b).map Access.vaddr := by
  induction lines generalizing a b with
  | nil => rfl
  | cons buf lines ih =>
    rw [accessesOf, accessesOf]
    split
    · exact ih h
    · have hvaddr := sscanf_vaddr buf h
      rw [List.map_cons, List.map_cons, hvaddr, ih hvaddr]

theorem vaddrs_traceOf (type type' : Char) (file : List UInt8) :
    (traceOf type file).map Access.vaddr = (traceOf type' file).map Access.vaddr :=
  vaddrs_accessesOf (linesOf file) rfl

theorem length_traceOf (type type' : Char) (file : List UInt8) :
    (traceOf type file).length = (traceOf type' file).length := by
  have hlength := congrArg List.length (vaddrs_traceOf type type' file)
  rwa [List.length_map, List.length_map] at hlength

/-! ## Reading the file into the list -/

/-- `opt_init` returns when each access of the file gets its node. -/
theorem Opt.readTrace_returns_iff (lines : List (List UInt8)) (a : Access) :
    (∃ t, Opt.readTrace mallocs lines a s = .ok () t) ↔
      ∀ i < (accessesOf lines a).length, mallocs (s.alg.nodes.count + i) = true := by
  induction lines generalizing a s with
  | nil => exact iff_of_true ⟨s, rfl⟩ fun i hi => by cases hi
  | cons buf lines ih =>
    by_cases hcomment : isComment buf = true
    · rw [Opt.readTrace, if_pos hcomment, accessesOf, if_pos hcomment]
      exact ih a
    · rw [Opt.readTrace_cons hcomment, accessesOf, if_neg hcomment, List.length_cons]
      have hcount : (Opt.withNode s (sscanf buf a).vaddr).alg.nodes.count =
          s.alg.nodes.count + 1 := rfl
      constructor
      · rintro ⟨t, h⟩ i hi
        split at h
        · next hmalloc =>
          cases i with
          | zero => exact hmalloc
          | succ i =>
            have hrest := (ih _).mp ⟨t, h⟩ i (by omega)
            rwa [hcount, Nat.add_right_comm] at hrest
        · cases h
      · intro hall
        have hmalloc : mallocs s.alg.nodes.count = true := hall 0 (by omega)
        rw [if_pos hmalloc]
        refine (ih _).mpr fun i hi => ?_
        rw [hcount, Nat.add_right_comm]
        exact hall (i + 1) (by omega)

theorem Opt.readTrace_of_nil (lines : List (List UInt8)) {a : Access}
    (h : Opt.readTrace mallocs lines a s = .ok () t) (hnil : accessesOf lines a = []) : t = s := by
  induction lines with
  | nil =>
    cases h
    rfl
  | cons buf lines ih =>
    by_cases hcomment : isComment buf = true
    · rw [Opt.readTrace, if_pos hcomment] at h
      rw [accessesOf, if_pos hcomment] at hnil
      exact ih h hnil
    · rw [accessesOf, if_neg hcomment] at hnil
      cases hnil

/-- The list holds the address of a single access. -/
theorem Opt.lists_of_readTrace (lines : List (List UInt8)) {a : Access} (hhead : s.alg.head = none)
    (h : Opt.readTrace mallocs lines a s = .ok () t) (hone : (accessesOf lines a).length ≤ 1) :
    Opt.Lists t ((accessesOf lines a).map Access.vaddr) := by
  induction lines with
  | nil =>
    cases h
    exact ⟨[], hhead, rfl⟩
  | cons buf lines ih =>
    by_cases hcomment : isComment buf = true
    · rw [Opt.readTrace, if_pos hcomment] at h
      rw [accessesOf, if_pos hcomment] at hone ⊢
      exact ih h hone
    · rw [Opt.readTrace_cons hcomment] at h
      rw [accessesOf, if_neg hcomment] at hone ⊢
      have hnil : accessesOf lines (sscanf buf a) = [] :=
        List.length_eq_zero_iff.mp (by rw [List.length_cons] at hone; omega)
      split at h
      · obtain rfl := Opt.readTrace_of_nil lines h hnil
        rw [hnil]
        refine ⟨[(s.alg.nodes.count, ⟨(sscanf buf a).vaddr, none⟩)], ⟨?_, ?_, rfl⟩, rfl⟩
        · simp only [Opt.withNode, Sim.alg_withAlg, if_pos hhead]
        · exact Heap.load_alloc_count
      · cases h

/-! ## After the set-up -/

theorem setup_returns_iff : (∃ s, setup (opt mallocs (some file) type) swapsize
    (Sim.start memsize physmem alg) = .ok () s) ↔
      ∀ i < (traceOf type file).length, mallocs (alg.nodes.count + i) = true := by
  obtain ⟨b, hb⟩ := bitmapCreate_returns swapsize
  rw [setup, Program.bind_of_ok (swapInit_of_create hb), initPagetable, Program.modify_bind]
  exact Opt.readTrace_returns_iff _ _

/-- The set-up reads the file into the list. -/
theorem lists_of_setup (hone : (traceOf type file).length ≤ 1)
    (h : setup (opt mallocs (some file) type) swapsize (Sim.start memsize physmem alg) =
      .ok () s) : Opt.Lists s ((traceOf type file).map Access.vaddr) := by
  obtain ⟨v, _, hinit⟩ := setup_init h
  change (Opt.setHead none >>= _) v = _ at hinit
  rw [Program.bind_ok] at hinit
  obtain ⟨_, u, hhead, hread⟩ := hinit
  cases hhead
  exact Opt.lists_of_readTrace (linesOf file) rfl hread hone

/-- A list of at most one node holds at most one address. -/
theorem Opt.AtMostOne.length_le (hs : Opt.AtMostOne s) (h : Opt.Lists s rest) :
    rest.length ≤ 1 := by
  obtain ⟨cells, hlinked, rfl⟩ := h
  rcases hs with hnone | ⟨vaddr, hload⟩
  · rw [hnone, Heap.linked_none_iff] at hlinked
    rw [hlinked]
    exact Nat.zero_le 1
  · obtain ⟨a, tail, -, rfl, htail⟩ := (Heap.linked_of_load hload).mp hlinked
    rw [Heap.linked_none_iff.mp htail]
    exact Nat.le_refl 1

/-! ## After the accesses -/

/-- After the first access the list is empty. -/
theorem head_of_simulate : ∀ trace s, simulate env (opt mallocs (some file) type) swapsize trace
    (Sim.start memsize physmem alg) = .ok () s →
      Good s ∧ Spent s ∧ (trace ≠ [] → s.alg.head = none) := by
  have hP := opt_onlyRef mallocs (some file) type
  refine simulate_induction hP (fun pre s => Spent s ∧ (pre ≠ [] → s.alg.head = none)) ?_ ?_
  · intro s hsetup hfresh
    exact ⟨spent_of_setup hfresh hsetup, fun hne => absurd rfl hne⟩
  · rintro pre s a m c u t hpre hs ⟨h, -⟩ _ hfind hacc
    -- A page in memory is in some frame.
    have hmem : 1 ≤ s.memsize := by
      have hlt := hacc.served.good.home_lt hacc.served.home
      rw [hacc.served.memsize] at hlt
      exact Nat.one_le_iff_ne_zero.mpr (Nat.ne_zero_of_lt hlt)
    exact ⟨h.accessed hs hmem hfind hacc, fun _ => h.head_of_accessed hs hmem hfind hacc⟩

theorem looksAhead_of_empty (hhead : s.alg.head = none) : LooksAhead s [] := by
  refine ⟨⟨[], hhead, rfl⟩, fun p e _ => ?_⟩
  rw [isNextFrame, Program.get_bind, hhead]
  cases s.alg.nodes.count <;> rfl

/-- A file that the list follows has at most one access. -/
theorem FollowsTrace.length_le (h : FollowsTrace env mallocs type swapsize
    (Sim.start memsize physmem alg) type' file) : (traceOf type' file).length ≤ 1 := by
  obtain ⟨⟨s, hsetup⟩, hfollows⟩ := h
  have hstart : simulate env (opt mallocs (some file) type) swapsize ((traceOf type' file).take 0)
      (Sim.start memsize physmem alg) = .ok () s := by
    rw [List.take_zero, simulate_nil_ok]
    exact hsetup
  have hlists := (hfollows 0 s hstart).lists
  have hone := (head_of_simulate _ s hstart).2.1.atMostOne
  simpa using hone.length_le hlists

/-- The list follows a trace file exactly when the file has at most one access, for which `malloc`
returns a node. -/
theorem followsTrace_iff : FollowsTrace env mallocs type swapsize (Sim.start memsize physmem alg)
    type' file ↔ (traceOf type' file).length ≤ 1 ∧
      ∀ i < (traceOf type' file).length, mallocs (alg.nodes.count + i) = true := by
  rw [length_traceOf type' type]
  constructor
  · intro h
    exact ⟨length_traceOf type' type file ▸ h.length_le, setup_returns_iff.mp h.1⟩
  · rintro ⟨hone, hmallocs⟩
    refine ⟨setup_returns_iff.mpr hmallocs, fun k s hs => ?_⟩
    by_cases hk : (traceOf type' file).take k = []
    · -- No access has been made, and the list is the one that `opt_init` reads.
      have hdrop : (traceOf type' file).drop k = traceOf type' file := by
        rcases List.take_eq_nil_iff.mp hk with rfl | hnil
        · rfl
        · rw [hnil, List.drop_nil]
      rw [hk, simulate_nil_ok] at hs
      rw [hdrop, vaddrs_traceOf type' type]
      refine ⟨lists_of_setup hone hs, fun p e he => ?_⟩
      rw [(setup_ok (opt_onlyRef ..) hs).entry] at he
      cases he
    · -- The only access has been made.
      have hdrop : (traceOf type' file).drop k = [] := by
        rw [List.drop_eq_nil_iff, length_traceOf type' type]
        have hpos : k ≠ 0 := fun h => hk (by rw [h, List.take_zero])
        omega
      rw [hdrop]
      exact looksAhead_of_empty ((head_of_simulate _ s hs).2.2 hk)

/-- A file of several accesses is not followed. -/
theorem not_followsTrace : ¬ FollowsTrace calmEnv (fun _ => true) 'L' 4#32
    (Sim.start 2 (fun _ => 0) ⟨.empty, none⟩) 'L' comesBack := fun h =>
  absurd h.length_le (by decide +kernel)

end OsAssignments.Paging
