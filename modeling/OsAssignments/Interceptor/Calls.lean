import OsAssignments.Interceptor.Bookkeeping
import OsAssignments.Interceptor.Coverage

/-!
# Calls that go through the module

A call of an intercepted system call goes through the interceptor, and a call of `exit_group`
through `my_exit_group`. Both go on to the function that was in the table before them, so that
every call ends in the kernel's own function. A process that has exited is forgotten until a
command names its pid again.
-/

namespace OsAssignments.Interceptor

open Code

variable {N : Numbers} {original : Nat → Nat} {k : Kernel} {pid : Int} {reg : PtRegs}

/-! ## Where a call ends -/

/-- The kernel's function that a call ends in when it starts with the function `f`, and the state
then; `n` bounds how many functions of the module it goes through. -/
def follow (N : Numbers) (pid : Int) (reg : PtRegs) : Nat → Handler → Kernel → Option (Nat × Kernel)
  | _, .kernel address, k => some (address, k)
  | n + 1, .interceptor, k =>
    let result := (interceptor pid reg).exec k
    follow N pid reg n result.1 result.2
  | n + 1, .myExitGroup, k =>
    let result := (myExitGroup N pid).exec k
    follow N pid reg n result.1 result.2
  | _, _, _ => none

theorem follow_kernel (n address : Nat) :
    follow N pid reg n (.kernel address) k = some (address, k) := by
  cases n <;> rfl

/-- The function that the module leaves in the table leads to the kernel's own. -/
theorem follow_home (hexit : k.origExitGroup = .kernel (original N.nrExitGroup)) (s n : Nat) :
    follow N pid reg (n + 1) (home N original s) k =
      some (original s, if s = N.nrExitGroup then k.delPid N pid else k) := by
  by_cases hs : s = N.nrExitGroup
  · rw [home, if_pos hs, if_pos hs, follow, exec_myExitGroup, hexit, hs]
    exact follow_kernel ..
  · rw [home, if_neg hs, if_neg hs]
    exact follow_kernel ..

/-- The call of a system call goes through at most two functions of the module. -/
theorem Hooked.follow_enter (h : Hooked N original k) (h1 : 1 ≤ reg.ax)
    (hs : reg.ax < N.nrSyscalls) (pid : Int) :
    follow N pid reg 2 (k.sysCallTable reg.ax) k =
      some (original reg.ax, k.enter N pid reg) := by
  by_cases h0 : (k.table reg.ax).intercepted = 0
  · have hfree := h.free _ h1 hs h0
    rw [Kernel.enter, hfree, follow_home h.exitGroup, home]
    by_cases hexit : reg.ax = N.nrExitGroup
    · simp only [if_pos hexit, exec_myExitGroup]
    · simp only [if_neg hexit]
  · obtain ⟨hint, hf⟩ := h.hooked _ h1 hs h0
    have hlogged : ((interceptor pid reg).exec k).2.origExitGroup =
        .kernel (original N.nrExitGroup) := by
      rw [exec_interceptor]
      split <;> exact h.exitGroup
    have hnext : ((interceptor pid reg).exec k).1 = home N original reg.ax := by
      rw [exec_interceptor, hf]
    rw [hint, follow, hnext, follow_home hlogged, Kernel.enter]
    simp only [hint, hnext, home]
    by_cases hexit : reg.ax = N.nrExitGroup
    · simp only [if_pos hexit, exec_myExitGroup]
    · simp only [if_neg hexit]

/-- A call logs one message at most. -/
theorem enter_log (k : Kernel) (pid : Int) (reg : PtRegs) :
    (k.enter N pid reg).log = k.log ∨ (k.enter N pid reg).log = (pid, reg) :: k.log := by
  have hlog : ((interceptor pid reg).exec k).2.log = k.log ∨
      ((interceptor pid reg).exec k).2.log = (pid, reg) :: k.log := by
    rw [exec_interceptor]
    split
    · exact .inr rfl
    · exact .inl rfl
  rw [Kernel.enter]
  split
  · dsimp only
    split
    · exact hlog
    · exact hlog
  · exact .inl rfl
  · exact .inl rfl

/-- After every history, every call ends in the kernel's own function of its number, whether it
is intercepted or not. It changes no hook, no entry but on `exit_group`, and logs one message at
most. -/
theorem call_reaches_original {events : List Event} (hrange : InRange N events)
    (h1 : 1 ≤ reg.ax) (hs : reg.ax < N.nrSyscalls) (pid : Int) :
    ∃ k', follow N pid reg 2 ((after N original events).sysCallTable reg.ax)
        (after N original events) = some (original reg.ax, k') ∧
      SameHooks (after N original events) k' ∧
      (reg.ax ≠ N.nrExitGroup → k'.table = (after N original events).table) ∧
      (k'.log = (after N original events).log ∨
        k'.log = (pid, reg) :: (after N original events).log) := by
  have hhooked : Hooked N original (after N original events) := hooked_after hrange
  refine ⟨_, hhooked.follow_enter h1 hs pid, .enter .., fun hexit => ?_, enter_log ..⟩
  rw [hhooked.enter_table, if_neg hexit]

/-- A call of the intercepted system call 5 ends in the kernel's function of system call 5. -/
theorem call_reaches_original_five : ∃ k', follow sampleNumbers 1 callFive 2
    ((after sampleNumbers id [rootCommand 1 0]).sysCallTable 5)
    (after sampleNumbers id [rootCommand 1 0]) = some (5, k') := by
  obtain ⟨k', hcall, -⟩ := @call_reaches_original sampleNumbers id callFive [rootCommand 1 0]
    (inRange_rootCommand inRange_nil 1 0) (by decide) (by decide) 1
  exact ⟨k', hcall⟩

/-! ## Processes that have exited -/

namespace MyTable

variable {t : MyTable} {p : Int}

theorem not_mem_deleted (h : p ∉ t.myList) (pid : Int) : p ∉ (t.deleted pid).2.myList := by
  rw [deleted]
  split
  · rw [myList_unlinkPid]
    exact fun hmem => h (List.mem_of_mem_erase hmem)
  · exact h

/-- A start lists no process but the one that it is about. -/
theorem not_mem_started (h : p ∉ t.myList) (hpid : pid ≠ p) (memory : Bool) :
    p ∉ (t.started pid memory).2.myList := by
  rw [started]
  split
  · exact List.not_mem_nil
  · split
    · cases memory with
      | true => exact fun hmem => (List.mem_cons.mp hmem).elim (fun heq => hpid heq.symm) h
      | false => exact h
    · exact not_mem_deleted h pid

theorem not_mem_stopped (h : p ∉ t.myList) (pid : Int) : p ∉ (t.stopped pid).2.myList := by
  rw [stopped]
  split
  · exact List.not_mem_nil
  · exact not_mem_deleted (t := { t with monitored := 1 }) h pid

theorem not_mem_delPid_of (h : p ∉ t.myList) (pid : Int) : p ∉ (t.delPid pid).myList := by
  have hloop : ∀ (qs : List Int) (t : MyTable), p ∉ t.myList →
      p ∉ (qs.foldl (fun t q => if q = pid then t.unlinkPid pid else t) t).myList := by
    intro qs
    induction qs with
    | nil => exact fun _ h => h
    | cons q qs ih =>
      intro t h
      rw [List.foldl_cons]
      refine ih _ ?_
      split
      · rw [myList_unlinkPid]
        exact fun hmem => h (List.mem_of_mem_erase hmem)
      · exact h
  exact hloop t.myList t h

end MyTable

/-- A command that is no start for a process does not list it. -/
theorem not_mem_perform {c : Call} {p : Int} (h : p ∉ (k.table c.index).myList)
    (hstart : Request.ofInt c.cmd = some .startMonitoring → c.pid ≠ p) :
    p ∉ (((perform c).exec k).2.table c.index).myList := by
  rw [exec_perform]
  cases hr : Request.ofInt c.cmd with
  | none => exact h
  | some r =>
    cases r with
    | intercept =>
      simp only [exec_interceptSyscall, Kernel.setHandler, Kernel.mapEntry_table_self]
      exact h
    | release =>
      simp only [exec_releaseSyscall, Kernel.setHandler, Kernel.mapEntry_table_self]
      exact h
    | startMonitoring =>
      simp only [Kernel.runEntry, Kernel.mapEntry_table_self]
      exact MyTable.not_mem_started h (hstart hr) c.memory
    | stopMonitoring =>
      simp only [Kernel.runEntry, Kernel.mapEntry_table_self]
      exact MyTable.not_mem_stopped h c.pid

/-- One event lists no process but by a start that is about it. -/
theorem Hooked.not_mem_handle (h : Hooked N original k) {s : Nat} {p : Int}
    (hmem : p ∉ (k.table s).myList) {e : Event}
    (hstart : ∀ c, e = .command c → Request.ofInt c.cmd = some .startMonitoring → c.pid ≠ p) :
    p ∉ ((k.handle N e).table s).myList := by
  cases e with
  | call pid reg =>
    rw [Kernel.handle, h.enter_table]
    split
    · simp only [Kernel.delPid]
      split
      · exact MyTable.not_mem_delPid_of hmem pid
      · exact hmem
    · exact hmem
  | command c =>
    rw [Kernel.handle]
    by_cases hpass : Passes N k c
    · rw [exec_of_passes hpass]
      by_cases hindex : s = c.index
      · subst hindex
        exact not_mem_perform hmem (hstart c rfl)
      · rwa [perform_table_of_ne hindex]
    · obtain ⟨code, -, hexec⟩ := exec_of_not_passes hpass
      rwa [hexec]

/-- A process that has exited is in no list, and none of its calls would be logged, until a start
is about its pid. -/
theorem exited_not_listed {earlier later : List Event} {p : Int} {reg : PtRegs}
    (hrange : InRange N (later ++ .call p reg :: earlier)) (hexit : reg.ax = N.nrExitGroup)
    (hstart : ∀ c, .command c ∈ later → Request.ofInt c.cmd = some .startMonitoring → c.pid ≠ p)
    {s : Nat} (h1 : 1 ≤ s) (hs : s < N.nrSyscalls) :
    p ∉ ((after N original (later ++ .call p reg :: earlier)).table s).myList ∧
      ((after N original (later ++ .call p reg :: earlier)).table s).logs p = false := by
  have hlisted : p ∉ ((after N original (later ++ .call p reg :: earlier)).table s).myList := by
    induction later with
    | nil =>
      have hearlier : InRange N earlier := fun c hc => hrange c (List.mem_cons_of_mem _ hc)
      have hhooked : Hooked N original (after N original earlier) := hooked_after hearlier
      rw [List.nil_append, after, Kernel.handle, hhooked.enter_table, if_pos hexit]
      simp only [Kernel.delPid, if_pos (And.intro h1 hs)]
      exact MyTable.not_mem_delPid _ p
    | cons e later ih =>
      rw [List.cons_append] at hrange ⊢
      have hrest : InRange N (later ++ .call p reg :: earlier) := fun c hc =>
        hrange c (List.mem_cons_of_mem _ hc)
      have hmem := ih hrest fun c hc => hstart c (List.mem_cons_of_mem _ hc)
      exact (hooked_after hrest).not_mem_handle hmem fun c hc =>
        hstart c (hc ▸ List.mem_cons_self)
  refine ⟨hlisted, Bool.eq_false_iff.mpr fun hlogs => ?_⟩
  exact hlisted (((sound_after hrange h1 hs).logs_iff p).mp hlogs).2

/-- Process 1 is forgotten after it has been monitored and has exited. -/
theorem exited_not_listed_one : 1 ∉ ((after sampleNumbers id
    ([rootCommand 2 0] ++ .call 1 ⟨7, 0, 0, 0, 0, 0, 0⟩ ::
      [rootCommand 3 1, rootCommand 1 0])).table 5).myList := by
  refine (exited_not_listed ?_ rfl ?_ (by decide) (by decide)).1
  · intro c hc
    refine inRange_rootCommand (inRange_rootCommand (inRange_rootCommand inRange_nil 1 0) 3 1) 2 0
      c ?_
    simpa using hc
  · intro c hc hstart
    obtain rfl := Event.command.inj (List.mem_singleton.mp hc)
    exact absurd hstart (by decide)

end OsAssignments.Interceptor
