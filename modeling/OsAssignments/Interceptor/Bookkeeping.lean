import OsAssignments.Interceptor.Monitoring

/-!
# The bookkeeping of a sequential run

Whatever the commands are, the flag of an entry stays 0 or 1, its count is the length of its
list, and no pid is in the list twice. An intercepted system call has the function saved that
its latest intercept replaced. A start that finds no memory is rejected after it has set
the flag.
-/

namespace OsAssignments.Interceptor

open Code

/-- The flag is 0 or 1, the count is the length of the list, and no pid is listed twice. -/
structure MyTable.Sound (t : MyTable) : Prop where
  flag : t.monitored = 0 ∨ t.monitored = 1
  count : t.listcount = t.myList.length
  nodup : t.myList.Nodup

variable {N : Numbers} {original : Nat → Nat} {k : Kernel} {t : MyTable} {pid : Int}

/-! ## One entry -/

theorem Tracks.sound {who : Int → Bool} (h : Tracks t who) : t.Sound := ⟨h.flag, h.count, h.nodup⟩

namespace MyTable.Sound

theorem logs_iff (h : t.Sound) (p : Int) : t.logs p = true ↔ t.monitored = 1 ∧ p ∈ t.myList := by
  have hflag : t.monitored ≠ 2 := by
    rcases h.flag with h | h <;> omega
  simp [MyTable.logs, MyTable.checkPidMonitored, hflag]

/-- A sound entry stands for the processes that it logs. -/
theorem tracks (h : t.Sound) : Tracks t t.logs := ⟨h.flag, h.count, h.nodup, h.logs_iff⟩

/-- Setting the flag keeps the list. -/
theorem flagged (h : t.Sound) : ({ t with monitored := 1 } : MyTable).Sound :=
  ⟨.inr rfl, h.count, h.nodup⟩

theorem unlinkPid (h : t.Sound) (hpid : pid ∈ t.myList) : (t.unlinkPid pid).Sound :=
  (h.tracks.unlinkPid hpid).sound

theorem delPid (h : t.Sound) (pid : Int) : (t.delPid pid).Sound := (h.tracks.delPid pid).sound

theorem started (h : t.Sound) (hpid : pid ∉ t.myList) (memory : Bool) :
    (t.started pid memory).2.Sound := by
  rw [MyTable.started]
  by_cases hzero : pid = 0
  · rw [if_pos hzero]
    exact Tracks.none.sound
  · have hflag : t.monitored ≠ 2 := by
      rcases h.flag with h | h <;> omega
    rw [if_neg hzero, if_pos hflag]
    cases memory with
    | true => exact (h.flagged.tracks.addPid rfl hpid).sound
    | false => exact h.flagged

theorem stopped (h : t.Sound) (hpid : pid = 0 ∨ pid ∈ t.myList) : (t.stopped pid).2.Sound := by
  rw [MyTable.stopped]
  by_cases hzero : pid = 0
  · rw [if_pos hzero]
    exact Tracks.none.sound
  · have hmem := hpid.resolve_left hzero
    rw [if_neg hzero, MyTable.deleted, MyTable.checkPidMonitored, if_pos (decide_eq_true hmem)]
    exact h.flagged.unlinkPid hmem

end MyTable.Sound

/-- A command that gets through its checks keeps the entry of its system call sound. -/
theorem Passes.sound {c : Call} (hpass : Passes N k c) (h : (k.table c.index).Sound) :
    (((perform c).exec k).2.table c.index).Sound := by
  have hentry := hpass.entry
  obtain ⟨-, -, -, r, hr⟩ := hpass.range
  rw [hr] at hentry
  rw [exec_perform, hr]
  cases r with
  | intercept =>
    simp only [exec_interceptSyscall, Kernel.setHandler, Kernel.mapEntry_table_self]
    exact ⟨h.flag, h.count, h.nodup⟩
  | release =>
    simp only [exec_releaseSyscall, Kernel.setHandler, Kernel.mapEntry_table_self]
    exact ⟨.inl rfl, h.count, h.nodup⟩
  | startMonitoring =>
    simp only [Kernel.runEntry, Kernel.mapEntry_table_self]
    exact h.started hentry c.memory
  | stopMonitoring =>
    simp only [Kernel.runEntry, Kernel.mapEntry_table_self]
    exact h.stopped hentry.2

/-! ## Histories -/

/-- What holds of an entry when the module has been loaded, and what exits and commands on its
system call preserve, holds of it after every history. -/
theorem table_after {P : MyTable → Prop} {s : Nat} (hinit : P ((after N original []).table s))
    (hexit : 1 ≤ s ∧ s < N.nrSyscalls → ∀ t pid, P t → P (t.delPid pid))
    (hcommand : ∀ (k : Kernel) (c : Call), c.syscall < N.nrSyscalls → Passes N k c → c.index = s →
      P (k.table s) → P (((perform c).exec k).2.table s))
    {events : List Event} (hrange : InRange N events) : P ((after N original events).table s) := by
  induction events with
  | nil => exact hinit
  | cons e earlier ih =>
    have hearlier : InRange N earlier := fun c hc => hrange c (List.mem_cons_of_mem e hc)
    have h := ih hearlier
    rw [after, Kernel.handle.eq_def]
    cases e with
    | call pid reg =>
      have hhooked : Hooked N original (after N original earlier) := hooked_after hearlier
      simp only [hhooked.enter_table]
      by_cases he : reg.ax = N.nrExitGroup
      · rw [if_pos he]
        by_cases hs : 1 ≤ s ∧ s < N.nrSyscalls
        · have hentry : ((after N original earlier).delPid N pid).table s =
              ((after N original earlier).table s).delPid pid := if_pos hs
          rw [hentry]
          exact hexit hs _ pid h
        · have hentry : ((after N original earlier).delPid N pid).table s =
              (after N original earlier).table s := if_neg hs
          rwa [hentry]
      · rw [if_neg he]
        exact h
    | command c =>
      by_cases hpass : Passes N (after N original earlier) c
      · simp only [exec_of_passes hpass]
        by_cases hindex : s = c.index
        · exact hcommand _ c (hrange c List.mem_cons_self) hpass hindex.symm h
        · rw [perform_table_of_ne hindex]
          exact h
      · obtain ⟨code, -, hexec⟩ := exec_of_not_passes hpass
        simp only [hexec]
        exact h

/-- What holds of an empty entry holds of the entry of a system call. -/
theorem entry_after {P : MyTable → Prop} (hempty : P ⟨.kernel 0, 0, 0, 0, []⟩)
    (hexit : ∀ t pid, P t → P (t.delPid pid))
    (hcommand : ∀ k c, Passes N k c → P (k.table c.index) →
      P (((perform c).exec k).2.table c.index))
    {events : List Event} (hrange : InRange N events) {s : Nat} (h1 : 1 ≤ s)
    (hs : s < N.nrSyscalls) : P ((after N original events).table s) := by
  refine table_after ?_ (fun _ => hexit) ?_ hrange
  · rw [table_after_nil hs]
    exact hempty
  · rintro k c - hpass rfl h
    exact hcommand k c hpass h

/-- Every history leaves the entries sound. -/
theorem sound_after {events : List Event} (hrange : InRange N events) {s : Nat} (h1 : 1 ≤ s)
    (hs : s < N.nrSyscalls) : ((after N original events).table s).Sound :=
  entry_after Tracks.none.sound (fun _ pid h => h.delPid pid) (fun _ _ hpass h => hpass.sound h)
    hrange h1 hs

/-- The function that was in the table for a system call just before the latest successful
intercept of it. -/
def replaced (N : Numbers) (original : Nat → Nat) (s : Nat) : List Event → Option Handler
  | [] => none
  | .call _ _ :: earlier => replaced N original s earlier
  | .command c :: earlier =>
    if c.syscall = s ∧ Request.ofInt c.cmd = some .intercept ∧
        ((mySyscall N c).exec (after N original earlier)).1 = 0 then
      some ((after N original earlier).sysCallTable s)
    else replaced N original s earlier

/-- The function that an intercepted entry has saved is the one that was replaced. -/
theorem replaced_after (N : Numbers) (original : Nat → Nat) {s : Nat}
    (hs : s < N.nrSyscalls) (events : List Event) :
    ((after N original events).table s).intercepted = 0 ∨
      ((after N original events).table s).intercepted = 1 ∧
        replaced N original s events = some ((after N original events).table s).f := by
  induction events with
  | nil =>
    rw [table_after_nil hs]
    exact .inl rfl
  | cons e earlier ih =>
    -- What neither intercepts nor releases the system call keeps the hook of its entry.
    have hkept : ∀ {k' : Kernel},
        (k'.table s).hook = ((after N original earlier).table s).hook →
        (k'.table s).intercepted = 0 ∨ (k'.table s).intercepted = 1 ∧
          replaced N original s earlier = some (k'.table s).f := by
      intro k' hhook
      obtain ⟨hf, hintercepted⟩ := Prod.mk.inj hhook
      rw [hf, hintercepted]
      exact ih
    cases e with
    | call pid reg => exact hkept ((SameHooks.enter _ pid reg).hook s)
    | command c =>
      rw [after, Kernel.handle, replaced]
      by_cases hpass : Passes N (after N original earlier) c
      · obtain ⟨hc1, -, -, r, hr⟩ := hpass.range
        rw [exec_of_passes hpass]
        by_cases hindex : s = c.index
        · have hsyscall : c.syscall = s := by
            rw [hindex]
            simp only [Call.index] at hc1 ⊢
            omega
          rw [exec_perform]
          simp only [hr]
          cases r with
          | intercept =>
            refine .inr ?_
            simp only [exec_interceptSyscall, Kernel.setHandler, hindex, Kernel.mapEntry_table_self,
              true_and]
            rw [if_pos ⟨hindex ▸ hsyscall, trivial⟩]
          | release =>
            refine .inl ?_
            simp only [exec_releaseSyscall, Kernel.setHandler, hindex, Kernel.mapEntry_table_self]
          | startMonitoring =>
            rw [if_neg (by simp)]
            exact hkept ((SameHooks.runEntry fun t => MyTable.hook_started t _ _).hook s)
          | stopMonitoring =>
            rw [if_neg (by simp)]
            exact hkept ((SameHooks.runEntry fun t => MyTable.hook_stopped t _).hook s)
        · have hsyscall : c.syscall ≠ s := fun heq => hindex (by
            simp only [Call.index, heq, Int.toNat_natCast])
          rw [if_neg fun h => hsyscall h.1]
          exact hkept (by rw [perform_table_of_ne hindex])
      · obtain ⟨code, hcode, hexec⟩ := exec_of_not_passes hpass
        rw [hexec, if_neg fun h => hcode h.2.2]
        exact ih

/-- The bookkeeping of a system call after a history. -/
structure Bookkept (N : Numbers) (original : Nat → Nat) (events : List Event) (s : Nat) : Prop where
  intercepted : ((after N original events).table s).intercepted = 1 ↔
    (after N original events).sysCallTable s = .interceptor
  saved : ((after N original events).table s).intercepted ≠ 0 →
    replaced N original s events = some ((after N original events).table s).f ∧
      ((after N original events).table s).f ≠ .interceptor
  count : ((after N original events).table s).listcount =
    ((after N original events).table s).myList.length
  nodup : ((after N original events).table s).myList.Nodup

theorem home_ne (N : Numbers) (original : Nat → Nat) (s : Nat) :
    home N original s ≠ .interceptor := by
  rw [home]
  split
  · exact Handler.noConfusion
  · exact Handler.noConfusion

/-- Every history keeps the books. -/
theorem bookkept_after {events : List Event} (hrange : InRange N events) {s : Nat} (h1 : 1 ≤ s)
    (hs : s < N.nrSyscalls) : Bookkept N original events s := by
  have hhooked : Hooked N original (after N original events) := hooked_after hrange
  have hsound : ((after N original events).table s).Sound := sound_after hrange h1 hs
  have hreplaced := replaced_after N original hs events
  refine ⟨⟨fun hone => (hhooked.hooked s h1 hs (by omega)).1, fun hhandler => ?_⟩, fun hne => ?_,
    hsound.count, hsound.nodup⟩
  · by_contra hnot
    have hfree := hhooked.free s h1 hs (by omega)
    rw [hhandler] at hfree
    exact home_ne N original s hfree.symm
  · have hsaved := hreplaced.resolve_left hne
    refine ⟨hsaved.2, ?_⟩
    rw [(hhooked.hooked s h1 hs hne).2]
    exact home_ne N original s

/-- The books after monitoring process 1 for an intercepted system call. -/
theorem bookkept_sample : Bookkept sampleNumbers id [rootCommand 3 1, rootCommand 1 0] 5 :=
  bookkept_after (inRange_rootCommand (inRange_rootCommand inRange_nil 1 0) 3 1) (by decide)
    (by decide)

/-! ## Rejected commands -/

/-- If a command returns an error, the entries, with their lists, and the system call table are
what they were. -/
def RejectsCleanly (N : Numbers) (k : Kernel) (c : Call) : Prop :=
  ((mySyscall N c).exec k).1 < 0 →
    ((mySyscall N c).exec k).2.table = k.table ∧
      ((mySyscall N c).exec k).2.sysCallTable = k.sysCallTable

/-- A start for one process that gets through all checks, while no process is monitored and
`kmalloc` fails. -/
structure StartsWithoutMemory (N : Numbers) (k : Kernel) (c : Call) : Prop where
  passes : Passes N k c
  request : Request.ofInt c.cmd = some .startMonitoring
  one : c.pid ≠ 0
  noMemory : c.memory = false
  unmonitored : (k.table c.index).monitored = 0

/-- A start without memory returns an error and leaves the flag set. -/
theorem exec_startWithoutMemory {c : Call} (h : StartsWithoutMemory N k c) :
    (mySyscall N c).exec k =
      (-enomem, k.mapEntry c.index fun t => { t with monitored := 1 }) := by
  have hstarted : (k.table c.index).started c.pid c.memory =
      (-enomem, { k.table c.index with monitored := 1 }) := by
    simp [MyTable.started, MyTable.added, h.one, h.noMemory, h.unmonitored]
  rw [exec_of_passes h.passes, exec_perform, h.request]
  simp only [Kernel.runEntry, Kernel.mapEntry, hstarted]

/-- In a sound entry, the only other commands that get through the checks and return an error
leave everything alone. -/
theorem rejectsCleanly_of_not {c : Call} (hsound : Passes N k c → (k.table c.index).Sound)
    (h : ¬ StartsWithoutMemory N k c) : RejectsCleanly N k c := by
  intro hcode
  by_cases hpass : Passes N k c
  · have hentry := hpass.entry
    have hflag := (hsound hpass).flag
    obtain ⟨-, -, -, r, hr⟩ := hpass.range
    rw [hr] at hentry
    rw [exec_of_passes hpass, exec_perform, hr] at hcode ⊢
    cases r with
    | intercept =>
      rw [exec_interceptSyscall] at hcode
      exact absurd hcode (lt_irrefl 0)
    | release =>
      rw [exec_releaseSyscall] at hcode
      exact absurd hcode (lt_irrefl 0)
    | startMonitoring =>
      by_cases hzero : c.pid = 0
      · simp only [Kernel.runEntry, MyTable.started, if_pos hzero] at hcode
        exact absurd hcode (lt_irrefl 0)
      · have hall : (k.table c.index).monitored ≠ 2 := by omega
        cases hmemory : c.memory with
        | true =>
          simp only [Kernel.runEntry, MyTable.started, if_neg hzero, if_pos hall, MyTable.added,
            hmemory, if_true] at hcode
          exact absurd hcode (lt_irrefl 0)
        | false =>
          -- The flag is 1 already, so that setting it changes nothing.
          have hone : (k.table c.index).monitored = 1 := hflag.resolve_left fun h0 =>
            h ⟨hpass, hr, hzero, hmemory, h0⟩
          have hunchanged : (k.table c.index).started c.pid false = (-enomem, k.table c.index) := by
            simp only [MyTable.started, if_neg hzero, if_pos hall, MyTable.added,
              Bool.false_eq_true, if_false, Prod.mk.injEq, true_and]
            rw [← hone]
          rw [Kernel.runEntry_of_unchanged hunchanged]
          exact ⟨rfl, rfl⟩
    | stopMonitoring =>
      have hdone : ((k.table c.index).stopped c.pid).1 = 0 := by
        rw [MyTable.stopped]
        by_cases hzero : c.pid = 0
        · rw [if_pos hzero]
        · rw [if_neg hzero, MyTable.deleted, MyTable.checkPidMonitored,
            if_pos (decide_eq_true (hentry.2.resolve_left hzero))]
      exact absurd (hdone ▸ hcode) (lt_irrefl 0)
  · obtain ⟨code, -, hexec⟩ := exec_of_not_passes hpass
    rw [hexec]
    exact ⟨rfl, rfl⟩

/-- After any history a command is rejected cleanly exactly when it is not a start that finds no
memory while no process is monitored. -/
theorem rejectsCleanly_iff {events : List Event} (hrange : InRange N events) {c : Call}
    (hc : c.syscall < N.nrSyscalls) : RejectsCleanly N (after N original events) c ↔
      ¬ StartsWithoutMemory N (after N original events) c := by
  constructor
  · intro hclean h
    have hexec := exec_startWithoutMemory h
    have htable := (hclean (by rw [hexec]; exact show -enomem < 0 by decide)).1
    rw [hexec] at htable
    have hentry := congrArg MyTable.monitored (congrFun htable c.index)
    rw [Kernel.mapEntry_table_self, h.unmonitored] at hentry
    cases hentry
  · refine rejectsCleanly_of_not fun hpass => ?_
    obtain ⟨h1, -⟩ := hpass.range
    refine sound_after hrange h1 ?_
    simp only [Call.index] at h1 ⊢
    omega

/-- With memory, starting to monitor process 1 is not rejected with a change. -/
theorem rejectsCleanly_sample : RejectsCleanly sampleNumbers
    (after sampleNumbers id [rootCommand 1 0]) ⟨3, 5, 1, true, true, true, true⟩ :=
  (rejectsCleanly_iff (inRange_rootCommand inRange_nil 1 0) (by decide)).mpr fun h =>
    Bool.noConfusion h.noMemory

/-- Without memory, the rejected start leaves the flag of system call 5 set. -/
theorem not_rejectsCleanly : InRange sampleNumbers [rootCommand 1 0] ∧
    ¬ RejectsCleanly sampleNumbers (after sampleNumbers id [rootCommand 1 0])
      ⟨3, 5, 1, true, true, true, false⟩ := by
  refine ⟨inRange_rootCommand inRange_nil 1 0, fun h => ?_⟩
  have htable := (h (by decide)).1
  have hentry := congrArg MyTable.monitored (congrFun htable 5)
  revert hentry
  decide

end OsAssignments.Interceptor
