import OsAssignments.Interceptor.Bookkeeping

/-!
# What a caller can do to other users' processes

A caller that is not root may start and stop the monitoring of its own processes. Either sets
the flag of the system call, so that the processes that a release has left in the list are
logged again, whoever owns them.
-/

namespace OsAssignments.Interceptor

open Code

/-! ## Callers -/

/-- The call that a process of the user `uid` makes, where `owner` gives the users of the
processes that exist. -/
def Call.issuedBy (owner : Int → Option Nat) (uid : Nat) (cmd syscall pid : Int) (memory : Bool) :
    Call :=
  ⟨cmd, syscall, pid, uid = 0, (owner pid).isSome, owner pid = some uid, memory⟩

/-- A process of another user. -/
def Foreign (owner : Int → Option Nat) (uid : Nat) (q : Int) : Prop :=
  ∃ v, owner q = some v ∧ v ≠ uid

/-- The interceptor would log the call with these registers. -/
def WouldLog (k : Kernel) (q : Int) (reg : PtRegs) : Prop :=
  ((interceptor q reg).exec k).2.log = (q, reg) :: k.log

/-- The system call table and all flags for interception are as before, and the interceptor logs
the same calls of other users' processes. -/
structure KeepsOthers (owner : Int → Option Nat) (uid : Nat) (k k' : Kernel) : Prop where
  handlers : k'.sysCallTable = k.sysCallTable
  intercepted : ∀ s, (k'.table s).intercepted = (k.table s).intercepted
  logged : ∀ q reg, Foreign owner uid q → (WouldLog k' q reg ↔ WouldLog k q reg)

variable {N : Numbers} {original : Nat → Nat} {k : Kernel} {t : MyTable} {pid : Int}

theorem wouldLog_iff {q : Int} {reg : PtRegs} :
    WouldLog k q reg ↔ (k.table reg.ax).logs q = true := log_interceptor_iff

/-- A caller other than root gets through the checks only to start or stop monitoring a process of
its own. -/
theorem Passes.own {c : Call} (h : Passes N k c) (hroot : c.root = false) :
    c.pid ≠ 0 ∧ c.sameOwner = true ∧
      (Request.ofInt c.cmd = some .startMonitoring ∨
        Request.ofInt c.cmd = some .stopMonitoring) := by
  have ha := h.arguments
  obtain ⟨-, -, -, r, hr⟩ := h.range
  simp only [checkArguments, hr] at ha
  split at ha
  · cases ha
  split at ha
  · cases ha
  split at ha
  · cases ha
  split at ha
  · cases ha
  next hrequest =>
    split at ha
    · cases ha
    next hpid =>
      split at ha
      · cases ha
      next howner =>
        refine ⟨hpid, Bool.of_not_eq_false howner, ?_⟩
        cases r with
        | intercept => exact absurd ⟨.inl rfl, hroot⟩ hrequest
        | release => exact absurd ⟨.inr rfl, hroot⟩ hrequest
        | startMonitoring => exact .inl hr
        | stopMonitoring => exact .inr hr

/-! ## One entry -/

namespace MyTable.Sound

/-- After a start for one process, the others that are logged are those in the list. -/
theorem logs_started (h : t.Sound) (hzero : pid ≠ 0) (hpid : pid ∉ t.myList) (memory : Bool)
    {q : Int} (hq : q ≠ pid) : (t.started pid memory).2.logs q = true ↔ q ∈ t.myList := by
  rw [(h.started hpid memory).logs_iff]
  have hflag : t.monitored ≠ 2 := by
    rcases h.flag with h | h <;> omega
  rw [MyTable.started, if_neg hzero, if_pos hflag]
  cases memory with
  | true => simp [MyTable.added, MyTable.addPid, hq]
  | false => simp [MyTable.added]

/-- After a stop for one process too. -/
theorem logs_stopped (h : t.Sound) (hzero : pid ≠ 0) (hpid : pid ∈ t.myList) {q : Int}
    (hq : q ≠ pid) : (t.stopped pid).2.logs q = true ↔ q ∈ t.myList := by
  rw [MyTable.stopped, if_neg hzero, MyTable.deleted, MyTable.checkPidMonitored,
    if_pos (decide_eq_true hpid), (h.flagged.tracks.unlinkPid hpid).logs, Bool.and_eq_true,
    decide_eq_true_iff, h.flagged.logs_iff]
  simp [hq]

end MyTable.Sound

/-- What a caller other than root changes, when it gets through the checks: the entry of one
system call, in which the other processes in the list are logged from now on. -/
theorem Passes.perform_own {c : Call} (h : Passes N k c) (hroot : c.root = false)
    (hsound : (k.table c.index).Sound) :
    ((perform c).exec k).2.sysCallTable = k.sysCallTable ∧
      (∀ s, (((perform c).exec k).2.table s).intercepted = (k.table s).intercepted) ∧
      (∀ s, s ≠ c.index → ((perform c).exec k).2.table s = k.table s) ∧
      ∀ q, q ≠ c.pid → ((((perform c).exec k).2.table c.index).logs q = true ↔
        q ∈ (k.table c.index).myList) := by
  have hentry := h.entry
  obtain ⟨hzero, -, hr | hr⟩ := h.own hroot
  · rw [hr] at hentry
    have hhooks : SameHooks k ((perform c).exec k).2 := by
      rw [exec_perform, hr]
      exact .runEntry fun t => MyTable.hook_started t _ _
    refine ⟨hhooks.handlers, fun s => (Prod.mk.inj (hhooks.hook s)).2,
      fun s hs => perform_table_of_ne hs, fun q hq => ?_⟩
    rw [exec_perform, hr]
    simp only [Kernel.runEntry, Kernel.mapEntry_table_self]
    exact hsound.logs_started hzero hentry c.memory hq
  · rw [hr] at hentry
    have hhooks : SameHooks k ((perform c).exec k).2 := by
      rw [exec_perform, hr]
      exact .runEntry fun t => MyTable.hook_stopped t _
    refine ⟨hhooks.handlers, fun s => (Prod.mk.inj (hhooks.hook s)).2,
      fun s hs => perform_table_of_ne hs, fun q hq => ?_⟩
    rw [exec_perform, hr]
    simp only [Kernel.runEntry, Kernel.mapEntry_table_self]
    exact hsound.logs_stopped hzero (hentry.2.resolve_left hzero) hq

/-! ## One call -/

/-- A command that gets through the checks while its system call is not monitored and the list
still has a process of another user. -/
structure Awakens (N : Numbers) (owner : Int → Option Nat) (uid : Nat) (k : Kernel) (c : Call) :
    Prop where
  passes : Passes N k c
  unmonitored : (k.table c.index).monitored = 0
  left : ∃ q ∈ (k.table c.index).myList, Foreign owner uid q

/-- After any history, a call of a user other than root keeps the monitoring of other users'
processes exactly when it does not awaken a process that was left in the list. -/
theorem keepsOthers_iff {events : List Event} (hrange : InRange N events)
    {owner : Int → Option Nat} {uid : Nat} (huid : uid ≠ 0) {cmd syscall pid : Int}
    {memory : Bool} (hsyscall : syscall < N.nrSyscalls) :
    KeepsOthers owner uid (after N original events)
        ((mySyscall N (.issuedBy owner uid cmd syscall pid memory)).exec
          (after N original events)).2 ↔
      ¬ Awakens N owner uid (after N original events)
        (.issuedBy owner uid cmd syscall pid memory) := by
  generalize hcall : Call.issuedBy owner uid cmd syscall pid memory = c
  have hroot : c.root = false := by
    rw [← hcall]
    exact decide_eq_false huid
  by_cases hpass : Passes N (after N original events) c
  · have hindex : 1 ≤ c.index ∧ c.index < N.nrSyscalls := by
      obtain ⟨h1, -⟩ := hpass.range
      rw [← hcall] at h1 ⊢
      simp only [Call.index, Call.issuedBy] at h1 ⊢
      omega
    have hsound : ((after N original events).table c.index).Sound :=
      sound_after hrange hindex.1 hindex.2
    obtain ⟨hhandlers, hintercepted, hother, hlogs⟩ := hpass.perform_own hroot hsound
    have hforeign : ∀ q, Foreign owner uid q → q ≠ c.pid := by
      rintro q ⟨v, hv, hne⟩ rfl
      have hown := (hpass.own hroot).2.1
      rw [← hcall] at hown hv
      have huser : owner pid = some uid := of_decide_eq_true hown
      exact hne (Option.some.inj (hv.symm.trans huser))
    rw [exec_of_passes hpass]
    constructor
    · rintro hkeeps ⟨-, hzero, q, hq, hqf⟩
      have hlogged := hkeeps.logged q ⟨c.index, 0, 0, 0, 0, 0, 0⟩ hqf
      rw [wouldLog_iff, wouldLog_iff, hlogs q (hforeign q hqf), hsound.logs_iff] at hlogged
      have hone := (hlogged.mp hq).1
      omega
    · intro hnot
      refine ⟨hhandlers, hintercepted, fun q reg hqf => ?_⟩
      rw [wouldLog_iff, wouldLog_iff]
      by_cases hax : reg.ax = c.index
      · rw [hax, hlogs q (hforeign q hqf), hsound.logs_iff]
        refine ⟨fun hq => ⟨hsound.flag.resolve_left fun h0 => ?_, hq⟩, fun h => h.2⟩
        exact hnot ⟨hpass, h0, q, hq, hqf⟩
      · rw [hother _ hax]
  · obtain ⟨code, -, hexec⟩ := exec_of_not_passes hpass
    rw [hexec]
    exact ⟨fun _ h => hpass h.passes, fun _ => ⟨rfl, fun _ => rfl, fun _ _ _ => Iff.rfl⟩⟩

/-- Process 1 belongs to user 100 and process 2 to user 200. -/
def sampleOwner (p : Int) : Option Nat :=
  if p = 1 then some 100 else if p = 2 then some 200 else none

/-- User 100 may start to monitor its own process after an intercept. -/
theorem keepsOthers_sample :
    KeepsOthers sampleOwner 100 (after sampleNumbers id [rootCommand 1 0])
      ((mySyscall sampleNumbers (.issuedBy sampleOwner 100 3 5 1 true)).exec
        (after sampleNumbers id [rootCommand 1 0])).2 := by
  refine (keepsOthers_iff (inRange_rootCommand inRange_nil 1 0) (by decide) (by decide)).mpr ?_
  rintro ⟨-, -, q, hq, -⟩
  have hlist : ((after sampleNumbers id [rootCommand 1 0]).table 5).myList = [] := by decide
  exact absurd (hlist ▸ hq) List.not_mem_nil

/-- After root has monitored process 2 and has released and intercepted the system call again,
process 2 is not logged until user 100 starts to monitor process 1. -/
theorem not_keepsOthers :
    InRange sampleNumbers [rootCommand 1 0, rootCommand 2 0, rootCommand 3 2, rootCommand 1 0] ∧
    ¬ KeepsOthers sampleOwner 100
      (after sampleNumbers id [rootCommand 1 0, rootCommand 2 0, rootCommand 3 2, rootCommand 1 0])
      ((mySyscall sampleNumbers (.issuedBy sampleOwner 100 3 5 1 true)).exec
        (after sampleNumbers id
          [rootCommand 1 0, rootCommand 2 0, rootCommand 3 2, rootCommand 1 0])).2 := by
  refine ⟨inRange_rootCommand (inRange_rootCommand (inRange_rootCommand (inRange_rootCommand
    inRange_nil 1 0) 3 2) 2 0) 1 0, fun h => ?_⟩
  have hlogged := h.logged 2 callFive ⟨200, rfl, by decide⟩
  rw [wouldLog_iff, wouldLog_iff] at hlogged
  revert hlogged
  decide

end OsAssignments.Interceptor
