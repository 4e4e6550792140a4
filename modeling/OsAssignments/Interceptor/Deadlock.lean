import OsAssignments.Interceptor.Monitoring
import OsAssignments.Library.LockOrder

/-!
# The order of the two locks

The interceptor takes `calltable_lock` and then `pidlist_lock`; a release takes them in the
other order. Every other section holds one lock. Every path takes and gives up the locks in
pairs. There is no deadlock as long as no task starts on one order while another task is on
its way in the other order.
-/

namespace OsAssignments.Interceptor

open Code

/-- What a task can run. -/
inductive EntryPoint
  | interceptor (pid : Int) (reg : PtRegs)
  | mySyscall (c : Call)
  | myExitGroup (pid : Int)
  | initFunction
  | exitFunction

/-- The code of an entry point. -/
def EntryPoint.body (N : Numbers) : EntryPoint → KernelM Unit
  | .interceptor pid reg => (Interceptor.interceptor pid reg).void
  | .mySyscall c => (Interceptor.mySyscall N c).void
  | .myExitGroup pid => (Interceptor.myExitGroup N pid).void
  | .initFunction => (Interceptor.initFunction N).void
  | .exitFunction => Interceptor.exitFunction N

/-- The nestings of the two locks. -/
abbrev Nesting : Set Lock → Lock → Prop := Machine.Pair .calltable .pidlist

theorem nesting_empty (l : Lock) : Nesting ∅ l := .inl rfl

theorem nesting_calltable : Nesting {.calltable} .pidlist := .inr (.inl ⟨rfl, rfl⟩)

theorem nesting_pidlist : Nesting {.pidlist} .calltable := .inr (.inr ⟨rfl, rfl⟩)

/-! ## The entry points are two-phase -/

theorem twoPhase_interceptor (pid : Int) (reg : PtRegs) :
    (interceptor pid reg).TwoPhase Nesting ∅ := by
  simp [interceptor, spinLock, spinUnlock, nesting_empty, nesting_calltable]

theorem twoPhase_myExitGroup (N : Numbers) (pid : Int) :
    (myExitGroup N pid).TwoPhase Nesting ∅ := by
  simp [myExitGroup, spinLock, spinUnlock, nesting_empty]

theorem twoPhase_interceptSyscall (s : Nat) : (interceptSyscall s).TwoPhase Nesting ∅ := by
  simp [interceptSyscall, installInterceptor, spinLock, spinUnlock, nesting_empty]

theorem twoPhase_releaseSyscall (s : Nat) : (releaseSyscall s).TwoPhase Nesting ∅ := by
  simp [releaseSyscall, spinLock, spinUnlock, nesting_empty, nesting_pidlist]

theorem twoPhase_addPidSysc (s : Nat) (pid : Int) (memory : Bool) :
    (addPidSysc s pid memory).TwoPhase Nesting {.pidlist} := by
  cases memory <;> simp [addPidSysc, spinUnlock]

theorem twoPhase_delPidSysc (s : Nat) (pid : Int) :
    (delPidSysc s pid).TwoPhase Nesting {.pidlist} := by
  rw [delPidSysc, twoPhase_get]
  intro k
  split <;> simp [spinUnlock]

theorem twoPhase_startMonitoring (s : Nat) (pid : Int) (memory : Bool) :
    (startMonitoring s pid memory).TwoPhase Nesting ∅ := by
  rw [startMonitoring, spinLock, twoPhase_acquire, insert_empty_eq]
  refine ⟨nesting_empty _, ?_⟩
  split
  · simp [spinUnlock]
  · rw [twoPhase_get]
    intro k
    split
    · exact twoPhase_addPidSysc s pid memory
    · exact twoPhase_delPidSysc s pid

theorem twoPhase_stopMonitoring (s : Nat) (pid : Int) (memory : Bool) :
    (stopMonitoring s pid memory).TwoPhase Nesting ∅ := by
  rw [stopMonitoring, spinLock, twoPhase_acquire, insert_empty_eq]
  refine ⟨nesting_empty _, ?_⟩
  split
  · simp [spinUnlock]
  · rw [twoPhase_modify, twoPhase_get]
    intro k
    split
    · exact twoPhase_addPidSysc s pid memory
    · exact twoPhase_delPidSysc s pid

theorem twoPhase_perform (c : Call) : (perform c).TwoPhase Nesting ∅ := by
  rw [perform]
  split
  · exact twoPhase_interceptSyscall _
  · exact twoPhase_releaseSyscall _
  · exact twoPhase_startMonitoring ..
  · exact twoPhase_stopMonitoring ..
  · rfl

theorem twoPhase_mySyscall (N : Numbers) (c : Call) : (mySyscall N c).TwoPhase Nesting ∅ := by
  rw [mySyscall]
  split
  · rfl
  · rw [runCommand, spinLock, twoPhase_acquire, insert_empty_eq, twoPhase_get]
    refine ⟨nesting_empty _, fun k => ?_⟩
    split
    · simp [spinUnlock]
    · simp [spinUnlock, twoPhase_perform]

theorem EntryPoint.twoPhase (N : Numbers) (e : EntryPoint) : (e.body N).TwoPhase Nesting ∅ := by
  cases e with
  | interceptor pid reg => exact (twoPhase_interceptor pid reg).void
  | mySyscall c => exact (twoPhase_mySyscall N c).void
  | myExitGroup pid => exact (twoPhase_myExitGroup N pid).void
  | initFunction => exact TwoPhase.void (by
      simp [Interceptor.initFunction, spinLock, spinUnlock, nesting_empty])
  | exitFunction =>
    simp [body, Interceptor.exitFunction, spinLock, spinUnlock, nesting_empty]

/-! ## Paths -/

theorem not_mem_of_nesting (H : Set Lock) (l : Lock) (h : Nesting H l) : l ∉ H := by
  rcases h with rfl | ⟨rfl, rfl⟩ | ⟨rfl, rfl⟩
  · exact Set.notMem_empty l
  · exact fun h => Lock.noConfusion (Set.mem_singleton_iff.mp h)
  · exact fun h => Lock.noConfusion (Set.mem_singleton_iff.mp h)

/-- On every path through an entry point, a lock is taken only when it is not held and released
only when it is held, and none is held at the end. -/
theorem locks_balanced (N : Numbers) (e : EntryPoint) {ops : List (LockOp Lock)}
    (hpath : (e.body N).Path ops) : Balanced ∅ ops :=
  (e.twoPhase N).balanced not_mem_of_nesting hpath

/-- The path through the interceptor. -/
theorem locks_balanced_call : Balanced ∅ [.acquire Lock.calltable, .acquire .pidlist,
    .release .pidlist, .release .calltable] :=
  locks_balanced sampleNumbers (.interceptor 1 callFive)
    (.lock (.lock (.write (.unlock (.unlock (.read (Kernel.loaded id) .ret))))))

/-! ## Runs -/

/-- The module is about to be loaded and no task runs anything. -/
def idle (original : Nat → Nat) : Machine Lock Kernel where
  code := fun _ => .ret ()
  owner := fun _ => none
  state := .loaded original

/-- The condition under which a move cannot lead to a deadlock: a task takes one lock on the way
to the other only while no task is on its way in the opposite order. -/
abbrev TakesInTurn (M : Machine Lock Kernel) (move : Move EntryPoint) : Prop :=
  M.Orderly .calltable .pidlist move

theorem nesting_subsingleton (H : Set Lock) (l : Lock) (h : Nesting H l) : H.Subsingleton := by
  rcases h with rfl | ⟨rfl, -⟩ | ⟨rfl, -⟩
  · exact Set.subsingleton_empty
  · exact Set.subsingleton_singleton
  · exact Set.subsingleton_singleton

theorem disciplined_idle (original : Nat → Nat) : (idle original).Disciplined Nesting := by
  intro t
  have hnone : {l | (idle original).owner l = some t} = ∅ := by
    ext l
    simp [idle]
  exact hnone

/-- In every run in which tasks take the locks in turn, no tasks are in a deadlock. -/
theorem not_deadlocked_of_takesInTurn {N : Numbers} {original : Nat → Nat}
    {moves : List (Move EntryPoint)} {M : Machine Lock Kernel}
    (hrun : Machine.Runs (EntryPoint.body N) TakesInTurn (idle original) moves M) (T : Set Nat) :
    ¬ M.Deadlocked T := by
  have hstart : (idle original).Disciplined Nesting ∧
      (idle original).Apart .calltable .pidlist :=
    ⟨disciplined_idle original, fun t u ht => ht.2.elim⟩
  have hkept : ∀ (M₁ : Machine Lock Kernel) move M₂, TakesInTurn M₁ move →
      M₁.step (EntryPoint.body N) move = some M₂ →
      M₁.Disciplined Nesting ∧ M₁.Apart .calltable .pidlist →
      M₂.Disciplined Nesting ∧ M₂.Apart .calltable .pidlist :=
    fun M₁ move M₂ hturn hstep h => ⟨h.1.step (EntryPoint.twoPhase N) hstep,
      h.2.step (by decide) nesting_subsingleton h.1 hturn hstep⟩
  obtain ⟨hdisciplined, hapart⟩ := hrun.induction hkept hstart
  exact hapart.not_deadlocked (by decide) hdisciplined T

/-- The module is loaded, root intercepts system call 5, process 1 calls it, and only then root
releases it and takes both locks. -/
def inTurn : List (Move EntryPoint) :=
  .start 0 .initFunction :: List.replicate 9 (.advance 0) ++
  .start 0 (.mySyscall ⟨1, 5, 0, true, true, true, true⟩) :: List.replicate 10 (.advance 0) ++
  .start 1 (.interceptor 1 callFive) :: List.replicate 6 (.advance 1) ++
  .start 2 (.mySyscall ⟨2, 5, 0, true, true, true, true⟩) :: List.replicate 7 (.advance 2)

/-- The call and the release of a system call, one after the other, are not in a deadlock. -/
theorem not_deadlocked_of_inTurn : ∃ M, Machine.Runs (EntryPoint.body sampleNumbers) TakesInTurn
    (idle id) inTurn M ∧ M.owner .calltable = some 2 ∧ M.owner .pidlist = some 2 ∧
      ¬ M.Deadlocked {1, 2} := by
  have hmoves : ((idle id).stepAlone .calltable .pidlist (EntryPoint.body sampleNumbers)
      inTurn).any (fun M => M.owner .calltable = some 2 ∧ M.owner .pidlist = some 2) = true := by
    decide
  obtain ⟨M, hM, howners⟩ := (Option.any_eq_true _ _).mp hmoves
  obtain ⟨hfirst, hsecond⟩ := of_decide_eq_true howners
  have hrun := Machine.Runs.append_alone not_mem_of_nesting (EntryPoint.twoPhase sampleNumbers)
    (disciplined_idle id) .nil hM
  rw [List.nil_append] at hrun
  exact ⟨M, hrun, hfirst, hsecond, not_deadlocked_of_takesInTurn hrun {1, 2}⟩

/-- The module is loaded, root intercepts system call 5, process 1 calls it and takes
`calltable_lock`, and root releases it and takes `pidlist_lock`. -/
def crossing : List (Move EntryPoint) :=
  .start 0 .initFunction :: List.replicate 9 (.advance 0) ++
  .start 0 (.mySyscall ⟨1, 5, 0, true, true, true, true⟩) :: List.replicate 10 (.advance 0) ++
  [.start 1 (.interceptor 1 callFive), .advance 1] ++
  .start 2 (.mySyscall ⟨2, 5, 0, true, true, true, true⟩) :: List.replicate 6 (.advance 2)

/-- The call and the release of a system call end up in a deadlock. -/
theorem exists_deadlocked : ∃ M, Machine.Runs (EntryPoint.body sampleNumbers) (fun _ _ => True)
    (idle id) crossing M ∧ M.Deadlocked {1, 2} := by
  have hwait : ((idle id).stepAll (EntryPoint.body sampleNumbers) crossing).any (fun M =>
      M.owner .calltable = some 1 ∧ M.owner .pidlist = some 2 ∧ M.wanted 1 = some .pidlist ∧
        M.wanted 2 = some .calltable) = true := by decide
  obtain ⟨M, hrun, hM⟩ := (Option.any_eq_true _ _).mp hwait
  obtain ⟨hfirst, hsecond, hwants, hwants'⟩ := of_decide_eq_true hM
  exact ⟨M, Machine.Runs.nil.append hrun, Machine.deadlocked_pair (by decide) hfirst hsecond
    (Machine.waits_of_wanted hwants) (Machine.waits_of_wanted hwants')⟩

end OsAssignments.Interceptor
