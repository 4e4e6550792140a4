import OsAssignments.Interceptor.Module

/-!
# The module one call at a time

What each function does when nothing else runs, and the history of the module: loading it,
commands, and calls that processes make. A process exits by calling `exit_group`.
-/

namespace OsAssignments.Interceptor

open Code

/-! ## What a command does -/

namespace Kernel

variable {k : Kernel} {s : Nat} {g h : MyTable → MyTable}

@[simp] theorem mapEntry_table_self : (k.mapEntry s g).table s = g (k.table s) :=
  Function.update_self ..

theorem mapEntry_table_of_ne {s' : Nat} (hs : s' ≠ s) : (k.mapEntry s g).table s' = k.table s' :=
  Function.update_of_ne hs ..

@[simp] theorem mapEntry_mapEntry :
    (k.mapEntry s g).mapEntry s h = k.mapEntry s fun t => h (g t) := by
  simp only [mapEntry, Function.update_self, Function.update_idem]

/-- Run a function on the entry of a system call. -/
def runEntry (k : Kernel) (s : Nat) (f : MyTable → Int × MyTable) : Int × Kernel :=
  ((f (k.table s)).1, k.mapEntry s fun t => (f t).2)

variable {f f' : MyTable → Int × MyTable}

theorem runEntry_congr (h : f (k.table s) = f' (k.table s)) : k.runEntry s f = k.runEntry s f' := by
  rw [runEntry, runEntry, mapEntry, mapEntry, h]

theorem runEntry_mapEntry : (k.mapEntry s g).runEntry s f = k.runEntry s fun t => f (g t) := by
  rw [runEntry, runEntry, mapEntry_table_self, mapEntry_mapEntry]

/-- A function that leaves the entry alone leaves the kernel alone. -/
theorem runEntry_of_unchanged {r : Int} (h : f (k.table s) = (r, k.table s)) :
    k.runEntry s f = (r, k) := by
  rw [runEntry, mapEntry, h, Function.update_eq_self]

end Kernel

/-- What `add_pid_sysc` returns and leaves. -/
def MyTable.added (t : MyTable) (pid : Int) (memory : Bool) : Int × MyTable :=
  if memory then (0, t.addPid pid) else (-enomem, t)

/-- What `del_pid_sysc` returns and leaves. -/
def MyTable.deleted (t : MyTable) (pid : Int) : Int × MyTable :=
  if t.checkPidMonitored pid then (0, t.unlinkPid pid) else (-einval, t)

/-- What `REQUEST_START_MONITORING` returns and does to the entry of the system call. -/
def MyTable.started (t : MyTable) (pid : Int) (memory : Bool) : Int × MyTable :=
  if pid = 0 then (0, { t with monitored := 2 }.destroyList)
  else if t.monitored ≠ 2 then { t with monitored := 1 }.added pid memory
  else t.deleted pid

/-- What `REQUEST_STOP_MONITORING` returns and does to the entry of the system call. -/
def MyTable.stopped (t : MyTable) (pid : Int) : Int × MyTable :=
  if pid = 0 then (0, { t with monitored := 0 }.destroyList)
  else { t with monitored := 1 }.deleted pid

theorem MyTable.myList_unlinkPid (t : MyTable) (pid : Int) :
    (t.unlinkPid pid).myList = t.myList.erase pid := by
  simp only [unlinkPid]
  split <;> rfl

variable {N : Numbers} {k : Kernel} {s : Nat} {pid : Int} {memory : Bool}

theorem exec_addPidSysc :
    (addPidSysc s pid memory).exec k = k.runEntry s fun t => t.added pid memory := by
  cases memory with
  | true => rfl
  | false => exact (Kernel.runEntry_of_unchanged rfl).symm

theorem exec_delPidSysc :
    (delPidSysc s pid).exec k = k.runEntry s fun t => t.deleted pid := by
  rw [delPidSysc, exec_bind, exec_get]
  by_cases h : (k.table s).checkPidMonitored pid = true
  · have hentry : k.runEntry s (fun t => t.deleted pid) =
        k.runEntry s fun t => (0, t.unlinkPid pid) := Kernel.runEntry_congr (if_pos h)
    rw [if_pos h, hentry]
    rfl
  · rw [if_neg h, Kernel.runEntry_of_unchanged (if_neg h)]
    rfl

theorem exec_startMonitoring :
    (startMonitoring s pid memory).exec k = k.runEntry s fun t => t.started pid memory := by
  rw [startMonitoring, spinLock, exec_bind, exec_acquire]
  by_cases hzero : pid = 0
  · simp only [if_pos hzero, MyTable.started]
    rw [exec_bind, exec_modify, exec_bind, exec_modify, Kernel.mapEntry_mapEntry]
    rfl
  · simp only [if_neg hzero, MyTable.started]
    rw [exec_bind, exec_get]
    by_cases hall : (k.table s).monitored ≠ 2
    · rw [if_pos hall, exec_bind, exec_modify, exec_addPidSysc, Kernel.runEntry_mapEntry]
      exact Kernel.runEntry_congr (if_pos hall).symm
    · rw [if_neg hall, exec_delPidSysc]
      exact Kernel.runEntry_congr (if_neg hall).symm

theorem exec_stopMonitoring :
    (stopMonitoring s pid memory).exec k = k.runEntry s fun t => t.stopped pid := by
  rw [stopMonitoring, spinLock, exec_bind, exec_acquire]
  by_cases hzero : pid = 0
  · simp only [if_pos hzero, MyTable.stopped]
    rw [exec_bind, exec_modify, exec_bind, exec_modify, Kernel.mapEntry_mapEntry]
    rfl
  · simp only [if_neg hzero, MyTable.stopped]
    -- The flag has just been set to 1, so that the other branch is never taken.
    rw [exec_bind, exec_modify, exec_bind, exec_get, Kernel.mapEntry_table_self,
      if_neg (by simp), exec_delPidSysc, Kernel.runEntry_mapEntry]

theorem exec_interceptSyscall : (interceptSyscall s).exec k =
    (0, (k.mapEntry s fun t => { t with intercepted := 1, f := k.sysCallTable s }).setHandler s
      .interceptor) := by
  have hentry := Kernel.mapEntry_mapEntry (k := k) (s := s)
    (g := fun t => { t with intercepted := 1 }) (h := fun t => { t with f := k.sysCallTable s })
  rw [← hentry]
  rfl

theorem exec_releaseSyscall : (releaseSyscall s).exec k =
    (0, (k.mapEntry s fun t => { t with intercepted := 0, monitored := 0 }).setHandler s
      (k.table s).f) := by
  have hentry := Kernel.mapEntry_mapEntry (k := k) (s := s)
    (g := fun t => { t with intercepted := 0 }) (h := fun t => { t with monitored := 0 })
  have hf : (k.table s).f =
      ((k.mapEntry s fun t => { t with intercepted := 0, monitored := 0 }).table s).f := by
    rw [Kernel.mapEntry_table_self]
  rw [hf, ← hentry]
  rfl

theorem exec_runCommand (k : Kernel) (c : Call) : (runCommand c).exec k =
    match checkContext k c with
    | some code => (code, k)
    | none => (perform c).exec k := by
  rw [runCommand, spinLock, exec_bind, exec_acquire, exec_bind, exec_get]
  cases checkContext k c with
  | some code => rfl
  | none => rfl

theorem exec_perform (k : Kernel) (c : Call) : (perform c).exec k =
    match Request.ofInt c.cmd with
    | some .intercept => (interceptSyscall c.index).exec k
    | some .release => (releaseSyscall c.index).exec k
    | some .startMonitoring => k.runEntry c.index fun t => t.started c.pid c.memory
    | some .stopMonitoring => k.runEntry c.index fun t => t.stopped c.pid
    | none => (0, k) := by
  rw [perform]
  cases Request.ofInt c.cmd with
  | none => rfl
  | some r =>
    cases r with
    | intercept => rfl
    | release => rfl
    | startMonitoring => exact exec_startMonitoring
    | stopMonitoring => exact exec_stopMonitoring

/-! ## Commands that get through their checks -/

/-- A command that gets through all checks of `my_syscall`. -/
structure Passes (N : Numbers) (k : Kernel) (c : Call) : Prop where
  arguments : checkArguments N c = none
  context : checkContext k c = none

/-- A check that fails makes `my_syscall` return an error. -/
theorem checkArguments_ne {c : Call} : checkArguments N c ≠ some 0 := by
  rw [checkArguments]
  repeat' split
  all_goals simp [einval, eperm]

theorem checkContext_ne {c : Call} : checkContext k c ≠ some 0 := by
  simp only [checkContext]
  repeat' split
  all_goals simp [einval, ebusy]

/-- A command that fails a check returns an error and changes nothing. -/
theorem exec_of_not_passes {c : Call} (h : ¬ Passes N k c) :
    ∃ code, code ≠ 0 ∧ (mySyscall N c).exec k = (code, k) := by
  rw [mySyscall]
  cases ha : checkArguments N c with
  | some code => exact ⟨code, fun h0 => checkArguments_ne (h0 ▸ ha), rfl⟩
  | none =>
    simp only [exec_runCommand]
    cases hk : checkContext k c with
    | some code => exact ⟨code, fun h0 => checkContext_ne (h0 ▸ hk), rfl⟩
    | none => exact absurd ⟨ha, hk⟩ h

theorem exec_of_passes {c : Call} (h : Passes N k c) :
    (mySyscall N c).exec k = (perform c).exec k := by
  rw [mySyscall, h.arguments]
  simp only [exec_runCommand, h.context]

/-- What the check of the arguments lets through. -/
theorem range_of_checkArguments {c : Call} (ha : checkArguments N c = none) :
    1 ≤ c.index ∧ c.index ≤ N.nrSyscalls ∧ 0 ≤ c.pid ∧ ∃ r, Request.ofInt c.cmd = some r := by
  rw [checkArguments] at ha
  split at ha
  · cases ha
  · next hrange =>
    split at ha
    · cases ha
    · next r hr =>
      split at ha
      · cases ha
      · next hpid =>
        simp only [myCustomSyscall] at hrange
        rw [Call.index]
        exact ⟨by omega, by omega, by omega, r, hr⟩

theorem Passes.range {c : Call} (h : Passes N k c) :
    1 ≤ c.index ∧ c.index ≤ N.nrSyscalls ∧ 0 ≤ c.pid ∧ ∃ r, Request.ofInt c.cmd = some r :=
  range_of_checkArguments h.arguments

/-- What the check of the context lets through. -/
theorem Passes.entry {c : Call} (h : Passes N k c) :
    match Request.ofInt c.cmd with
    | some .intercept => (k.table c.index).intercepted = 0
    | some .release => (k.table c.index).intercepted ≠ 0
    | some .startMonitoring => c.pid ∉ (k.table c.index).myList
    | some .stopMonitoring =>
      (k.table c.index).intercepted ≠ 0 ∧ (c.pid = 0 ∨ c.pid ∈ (k.table c.index).myList)
    | none => True := by
  have hk := h.context
  simp only [checkContext, MyTable.checkPidMonitored] at hk
  cases hr : Request.ofInt c.cmd with
  | none => trivial
  | some r =>
    cases r with
    | intercept => simpa [hr] using hk
    | release => simpa [hr] using hk
    | startMonitoring => simpa [hr] using hk
    | stopMonitoring =>
      simp only [hr, Option.some.injEq, reduceCtorEq, false_and, ite_false, true_and,
        decide_eq_false_iff_not] at hk
      split at hk
      · cases hk
      · next hlisted =>
        split at hk
        · cases hk
        · next hused =>
          refine ⟨hused, ?_⟩
          by_contra hnot
          exact hlisted ⟨fun hmem => hnot (.inr hmem), fun hzero => hnot (.inl hzero)⟩

/-! ## Histories -/

namespace Kernel

/-- A process makes a system call: the kernel calls the function in the table, and a function of
the module goes on to call another. (An interceptor that has saved itself would call itself
for ever; no run makes it do so.) -/
def enter (N : Numbers) (k : Kernel) (pid : Int) (reg : PtRegs) : Kernel :=
  match k.sysCallTable reg.ax with
  | .interceptor =>
    let result := (Interceptor.interceptor pid reg).exec k
    match result.1 with
    | .myExitGroup => ((Interceptor.myExitGroup N pid).exec result.2).2
    | _ => result.2
  | .myExitGroup => ((Interceptor.myExitGroup N pid).exec k).2
  | _ => k

end Kernel

/-- The interceptor logs the call if the process is monitored, and goes on to the saved
function. -/
theorem exec_interceptor (k : Kernel) (pid : Int) (reg : PtRegs) :
    (interceptor pid reg).exec k = ((k.table reg.ax).f,
      if (k.table reg.ax).logs pid then k.logMessage pid reg else k) := by
  refine Prod.ext ?_ rfl
  change ((if (k.table reg.ax).logs pid then k.logMessage pid reg else k).table reg.ax).f = _
  split <;> rfl

/-- The interceptor logs the call of a process that is logged in the entry, and no other. -/
theorem log_interceptor_iff {k : Kernel} {pid : Int} {reg : PtRegs} :
    ((interceptor pid reg).exec k).2.log = (pid, reg) :: k.log ↔
      (k.table reg.ax).logs pid = true := by
  rw [exec_interceptor]
  by_cases hlogs : (k.table reg.ax).logs pid = true
  · rw [if_pos hlogs]
    exact ⟨fun _ => hlogs, fun _ => rfl⟩
  · rw [if_neg hlogs]
    exact ⟨fun heq => absurd heq (List.cons_ne_self _ _).symm, fun h => absurd h hlogs⟩

theorem exec_myExitGroup (k : Kernel) (pid : Int) :
    (myExitGroup N pid).exec k = (k.origExitGroup, k.delPid N pid) := rfl

/-- What happens while the module is loaded. A process exits by calling `exit_group`. -/
inductive Event
  | command (c : Call)
  | call (pid : Int) (reg : PtRegs)
  deriving DecidableEq

def Kernel.handle (N : Numbers) (k : Kernel) : Event → Kernel
  | .command c => ((mySyscall N c).exec k).2
  | .call pid reg => k.enter N pid reg

/-- The kernel after the module has been loaded and the events, the latest first, have
happened. -/
def after (N : Numbers) (original : Nat → Nat) : List Event → Kernel
  | [] => ((initFunction N).exec (Kernel.loaded original)).2
  | e :: earlier => (after N original earlier).handle N e

/-- Every command is about a system call below `NR_syscalls`. -/
def InRange (N : Numbers) (events : List Event) : Prop :=
  ∀ c, Event.command c ∈ events → c.syscall < N.nrSyscalls

end OsAssignments.Interceptor
