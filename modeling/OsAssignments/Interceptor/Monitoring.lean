import OsAssignments.Interceptor.Unload

/-!
# What is logged

The processes that are to be logged are given by the history of commands; the module keeps them
as a flag, a list and a count. The two agree as long as no command monitors all processes and
no command meets the pids that a release has left in the list.
-/

namespace OsAssignments.Interceptor

open Code

/-! ## What was asked for -/

/-- What a successful command makes of the wish to log the calls of a process. -/
def wish (c : Call) (p : Int) (before : Bool) : Bool :=
  match Request.ofInt c.cmd with
  | some .startMonitoring => if c.pid = p ∨ c.pid = 0 then true else before
  | some .stopMonitoring => if c.pid = p ∨ c.pid = 0 then false else before
  | some .release => false
  | _ => before

/-- Whether the latest successful command on a system call that concerns the process asks for
its calls to be logged, and the process has not exited since. -/
def asked (N : Numbers) (original : Nat → Nat) (p : Int) (s : Nat) : List Event → Bool
  | [] => false
  | .call pid reg :: earlier =>
    if pid = p ∧ reg.ax = N.nrExitGroup then false else asked N original p s earlier
  | .command c :: earlier =>
    if c.syscall = s ∧ ((mySyscall N c).exec (after N original earlier)).1 = 0 then
      wish c p (asked N original p s earlier)
    else asked N original p s earlier

/-- A call that the process makes is logged. -/
def Logged (N : Numbers) (k : Kernel) (pid : Int) (reg : PtRegs) : Prop :=
  (k.enter N pid reg).log = (pid, reg) :: k.log

/-! ## The entry of a system call -/

/-- An entry that stands for the set of processes to be logged. -/
structure Tracks (t : MyTable) (who : Int → Bool) : Prop where
  flag : t.monitored = 0 ∨ t.monitored = 1
  count : t.listcount = t.myList.length
  nodup : t.myList.Nodup
  mem : ∀ p, who p = true ↔ t.monitored = 1 ∧ p ∈ t.myList

/-- An entry whose list was not left over by a release, but for the given pid. -/
def NotStale (t : MyTable) (pid : Int) : Prop := t.monitored = 0 → ∀ q ∈ t.myList, q = pid

namespace Tracks

variable {t : MyTable} {who : Int → Bool} {pid : Int}

/-- The interceptor's test decides the set. -/
theorem logs (h : Tracks t who) (p : Int) : t.logs p = who p := by
  rw [Bool.eq_iff_iff, h.mem, MyTable.logs, MyTable.checkPidMonitored]
  have hflag : t.monitored ≠ 2 := by
    rcases h.flag with h | h <;> omega
  simp [hflag]

theorem congr {who' : Int → Bool} (h : Tracks t who) (hwho : ∀ p, who' p = who p) :
    Tracks t who' :=
  ⟨h.flag, h.count, h.nodup, fun p => hwho p ▸ h.mem p⟩

/-- The empty list. -/
theorem none {f : Handler} {intercepted : Nat} :
    Tracks ⟨f, intercepted, 0, 0, []⟩ fun _ => false :=
  ⟨.inl rfl, rfl, List.nodup_nil, fun p => by simp⟩

/-- Unlinking a pid takes it out of the set. -/
theorem unlinkPid (h : Tracks t who) (hpid : pid ∈ t.myList) :
    Tracks (t.unlinkPid pid) fun q => who q && q ≠ pid := by
  have hlen : (t.myList.erase pid).length = t.myList.length - 1 := List.length_erase_of_mem hpid
  have hpos := List.length_pos_of_mem hpid
  have hcount : t.listcount - 1 = (t.myList.erase pid).length := by
    rw [h.count, hlen]
    omega
  have hmem : ∀ q, q ∈ t.myList.erase pid ↔ q ≠ pid ∧ q ∈ t.myList := fun q =>
    h.nodup.mem_erase_iff
  rw [MyTable.unlinkPid]
  by_cases hlast : t.listcount - 1 = 0 ∧ t.monitored = 1
  · -- No pid is left, and none was in the set but this one.
    have hempty : t.myList.erase pid = [] := List.length_eq_zero_iff.mp (by omega)
    simp only [if_pos hlast]
    refine ⟨.inl rfl, hcount, h.nodup.erase pid, fun q => ?_⟩
    have hq := hmem q
    rw [hempty] at hq
    simp only [Bool.and_eq_true, decide_eq_true_eq, h.mem]
    simp only [List.not_mem_nil, false_iff, not_and] at hq
    constructor
    · rintro ⟨⟨-, hqt⟩, hne⟩
      exact absurd hqt (hq hne)
    · rintro ⟨hzero, -⟩
      cases hzero
  · simp only [if_neg hlast]
    refine ⟨h.flag, hcount, h.nodup.erase pid, fun q => ?_⟩
    simp only [Bool.and_eq_true, decide_eq_true_eq, h.mem, hmem]
    rw [and_assoc, and_comm (a := q ∈ t.myList)]

/-- Setting the flag takes the pid in the list into the set. -/
theorem flagged (h : Tracks t who) (hstale : NotStale t pid) :
    Tracks { t with monitored := 1 } fun q => who q || (q = pid && pid ∈ t.myList) := by
  refine ⟨.inr rfl, h.count, h.nodup, fun q => ?_⟩
  simp only [Bool.or_eq_true, Bool.and_eq_true, decide_eq_true_eq, h.mem, true_and]
  constructor
  · rintro (⟨-, hq⟩ | ⟨rfl, hq⟩)
    · exact hq
    · exact hq
  · intro hq
    rcases h.flag with hzero | hone
    · obtain rfl := hstale hzero q hq
      exact .inr ⟨rfl, hq⟩
    · exact .inl ⟨hone, hq⟩

/-- Linking a pid puts it into the set. -/
theorem addPid (h : Tracks t who) (hone : t.monitored = 1) (hpid : pid ∉ t.myList) :
    Tracks (t.addPid pid) fun q => who q || q = pid := by
  refine ⟨.inr hone, ?_, List.nodup_cons.mpr ⟨hpid, h.nodup⟩, fun q => ?_⟩
  · simp only [MyTable.addPid, h.count, List.length_cons]
    omega
  · simp only [Bool.or_eq_true, decide_eq_true_eq, h.mem, MyTable.addPid, List.mem_cons, hone,
      true_and]
    exact or_comm

/-- The loop of `del_pid` unlinks the pid once, if it is there. -/
theorem delPid_eq (hnodup : t.myList.Nodup) (pid : Int) :
    t.delPid pid = if pid ∈ t.myList then t.unlinkPid pid else t := by
  have hloop : ∀ (qs : List Int) (t : MyTable), qs.Nodup →
      qs.foldl (fun t q => if q = pid then t.unlinkPid pid else t) t =
        if pid ∈ qs then t.unlinkPid pid else t := by
    intro qs
    induction qs with
    | nil => exact fun _ _ => rfl
    | cons q qs ih =>
      intro t hqs
      obtain ⟨hq, hqs⟩ := List.nodup_cons.mp hqs
      rw [List.foldl_cons, ih _ hqs]
      by_cases hqp : q = pid
      · subst hqp
        rw [if_pos rfl, if_neg hq, if_pos List.mem_cons_self]
      · have hmem : pid ∈ q :: qs ↔ pid ∈ qs := by simp [Ne.symm hqp]
        rw [if_neg hqp]
        by_cases hpid : pid ∈ qs
        · rw [if_pos hpid, if_pos (hmem.mpr hpid)]
        · rw [if_neg hpid, if_neg fun h => hpid (hmem.mp h)]
  exact hloop t.myList t hnodup

/-- A process that exits leaves the set. -/
theorem delPid (h : Tracks t who) (pid : Int) :
    Tracks (t.delPid pid) fun q => who q && q ≠ pid := by
  rw [delPid_eq h.nodup]
  by_cases hpid : pid ∈ t.myList
  · rw [if_pos hpid]
    exact h.unlinkPid hpid
  · rw [if_neg hpid]
    refine h.congr fun q => ?_
    by_cases hq : q = pid
    · have hnot : who q = false := by
        rw [Bool.eq_false_iff]
        exact fun hw => hpid (hq ▸ ((h.mem q).mp hw).2)
      rw [hnot, Bool.false_and]
    · simp [hq]

/-- Starting to monitor one process puts it into the set, unless there is no memory. -/
theorem started (h : Tracks t who) (hzero : pid ≠ 0) (hstale : NotStale t pid)
    (hpid : pid ∉ t.myList) (memory : Bool) :
    Tracks (t.started pid memory).2
      fun q => if (t.started pid memory).1 = 0 ∧ q = pid then true else who q := by
  have hflag : t.monitored ≠ 2 := by
    rcases h.flag with h | h <;> omega
  have hstarted :
      t.started pid memory = ({ t with monitored := 1 } : MyTable).added pid memory := by
    rw [MyTable.started, if_neg hzero, if_pos hflag]
  have hset : Tracks { t with monitored := 1 } who :=
    (h.flagged hstale).congr fun q => by simp [hpid]
  rw [hstarted]
  cases memory with
  | true =>
    refine (hset.addPid rfl hpid).congr fun q => ?_
    by_cases hq : q = pid
    · simp [MyTable.added, hq]
    · simp [MyTable.added, hq]
  | false => exact hset.congr fun q => by simp [MyTable.added, enomem]

/-- Stopping to monitor one process takes it out of the set. -/
theorem stopped (h : Tracks t who) (hzero : pid ≠ 0) (hstale : NotStale t pid)
    (hpid : pid ∈ t.myList) :
    (t.stopped pid).1 = 0 ∧ Tracks (t.stopped pid).2 fun q => if q = pid then false else who q := by
  have hstopped : t.stopped pid = (0, ({ t with monitored := 1 } : MyTable).unlinkPid pid) := by
    rw [MyTable.stopped, if_neg hzero, MyTable.deleted, MyTable.checkPidMonitored]
    exact if_pos (decide_eq_true hpid)
  rw [hstopped]
  refine ⟨rfl, ((h.flagged hstale).unlinkPid hpid).congr fun q => ?_⟩
  by_cases hq : q = pid
  · simp [hq]
  · simp [hq]

end Tracks

/-! ## Calls -/

variable {N : Numbers} {original : Nat → Nat} {k : Kernel}

/-- A call of `exit_group` deletes the process from all lists, and no other call changes the
bookkeeping. -/
theorem Hooked.enter_table (h : Hooked N original k) (pid : Int) (reg : PtRegs) :
    (k.enter N pid reg).table =
      if reg.ax = N.nrExitGroup then (k.delPid N pid).table else k.table := by
  have hlog : ((interceptor pid reg).exec k).2.table = k.table := by
    rw [exec_interceptor]
    split <;> rfl
  have hexit : ((myExitGroup N pid).exec ((interceptor pid reg).exec k).2).2.table =
      (k.delPid N pid).table := by
    rw [exec_myExitGroup]
    simp only [Kernel.delPid, hlog]
  rw [Kernel.enter]
  by_cases hrange : 1 ≤ reg.ax ∧ reg.ax < N.nrSyscalls
  · by_cases h0 : (k.table reg.ax).intercepted = 0
    · rw [h.free _ hrange.1 hrange.2 h0, home]
      by_cases he : reg.ax = N.nrExitGroup
      · simp only [if_pos he]
        rfl
      · simp only [if_neg he]
    · obtain ⟨hhandler, hf⟩ := h.hooked _ hrange.1 hrange.2 h0
      have hnext : ((interceptor pid reg).exec k).1 = home N original reg.ax := by
        rw [exec_interceptor, hf]
      simp only [hhandler, hnext, home]
      by_cases he : reg.ax = N.nrExitGroup
      · simp only [if_pos he, hexit]
      · simp only [if_neg he, hlog]
  · obtain ⟨hnot, hnot'⟩ := h.rest reg.ax (by omega)
    have hpos := N.pos
    have hlt := N.lt
    have he : reg.ax ≠ N.nrExitGroup := by omega
    rw [if_neg he]
    cases hk : k.sysCallTable reg.ax with
    | interceptor => exact absurd hk hnot
    | myExitGroup => exact absurd hk hnot'
    | kernel address => rfl
    | mySyscall => rfl

/-- The interceptor logs a call exactly when its test says so. -/
theorem Hooked.logged_iff (h : Hooked N original k) {pid : Int} {reg : PtRegs}
    (h1 : 1 ≤ reg.ax) (hax : reg.ax < N.nrSyscalls) (h0 : (k.table reg.ax).intercepted ≠ 0) :
    Logged N k pid reg ↔ (k.table reg.ax).logs pid = true := by
  obtain ⟨hhandler, -⟩ := h.hooked _ h1 hax h0
  have hlog : (k.enter N pid reg).log = ((interceptor pid reg).exec k).2.log := by
    rw [Kernel.enter, hhandler]
    dsimp only
    split
    · rfl
    · rfl
  rw [Logged, hlog]
  exact log_interceptor_iff

/-! ## Histories -/

/-- The condition under which an event keeps the bookkeeping right: no start for pid 0 gets
through its checks, and no start or stop for a process gets through them while the flag is 0
and the list still has another pid. -/
def Allowed (N : Numbers) (k : Kernel) : Event → Prop
  | .call _ _ => True
  | .command c => Passes N k c →
    match Request.ofInt c.cmd with
    | some .startMonitoring => c.pid ≠ 0 ∧ NotStale (k.table c.index) c.pid
    | some .stopMonitoring => c.pid = 0 ∨ NotStale (k.table c.index) c.pid
    | _ => True

/-- Every event of a history was allowed when it happened. -/
def AllAllowed (N : Numbers) (original : Nat → Nat) : List Event → Prop
  | [] => True
  | e :: earlier => Allowed N (after N original earlier) e ∧ AllAllowed N original earlier

/-- A command that gets through its checks keeps the entry of its system call. -/
theorem Tracks.command {c : Call} {who : Int → Bool} (hpass : Passes N k c)
    (hallowed : Allowed N k (.command c)) (h : Tracks (k.table c.index) who) :
    Tracks (((perform c).exec k).2.table c.index)
      fun q => if ((perform c).exec k).1 = 0 then wish c q (who q) else who q := by
  have hallowed := hallowed hpass
  have hentry := hpass.entry
  obtain ⟨-, -, -, r, hr⟩ := hpass.range
  rw [hr] at hentry hallowed
  rw [exec_perform, hr]
  simp only [wish, hr]
  cases r with
  | intercept =>
    rw [exec_interceptSyscall]
    simp only [Kernel.setHandler, Kernel.mapEntry_table_self, if_true]
    exact ⟨h.flag, h.count, h.nodup, h.mem⟩
  | release =>
    rw [exec_releaseSyscall]
    simp only [Kernel.setHandler, Kernel.mapEntry_table_self, if_true]
    exact ⟨.inl rfl, h.count, h.nodup, fun q => by simp⟩
  | startMonitoring =>
    obtain ⟨hzero, hstale⟩ := hallowed
    simp only [Kernel.runEntry, Kernel.mapEntry_table_self]
    refine (h.started hzero hstale hentry c.memory).congr fun q => ?_
    by_cases hcode : ((k.table c.index).started c.pid c.memory).1 = 0
    · simp [hcode, hzero, eq_comm]
    · simp [hcode]
  | stopMonitoring =>
    simp only [Kernel.runEntry, Kernel.mapEntry_table_self]
    by_cases hzero : c.pid = 0
    · simp only [MyTable.stopped, hzero, or_true, if_true]
      exact Tracks.none
    · obtain ⟨hcode, hset⟩ := h.stopped hzero (hallowed.resolve_left hzero)
        (hentry.2.resolve_left hzero)
      refine hset.congr fun q => ?_
      simp [hcode, hzero, eq_comm]

/-- A command leaves the entries of the other system calls alone. -/
theorem perform_table_of_ne {c : Call} {s : Nat} (hs : s ≠ c.index) :
    ((perform c).exec k).2.table s = k.table s := by
  rw [exec_perform]
  cases Request.ofInt c.cmd with
  | none => rfl
  | some r =>
    cases r with
    | intercept =>
      simp only [exec_interceptSyscall, Kernel.setHandler, Kernel.mapEntry_table_of_ne hs]
    | release =>
      simp only [exec_releaseSyscall, Kernel.setHandler, Kernel.mapEntry_table_of_ne hs]
    | startMonitoring => simp only [Kernel.runEntry, Kernel.mapEntry_table_of_ne hs]
    | stopMonitoring => simp only [Kernel.runEntry, Kernel.mapEntry_table_of_ne hs]

/-- A newly loaded module has empty entries. -/
theorem table_after_nil {s : Nat} (hs : s < N.nrSyscalls) :
    (after N original []).table s = ⟨.kernel 0, 0, 0, 0, []⟩ := if_pos hs

/-- After a history of allowed events, the entries stand for what was asked. -/
theorem tracks_after {events : List Event} (hrange : InRange N events)
    (hallowed : AllAllowed N original events) {s : Nat} (h1 : 1 ≤ s) (hs : s < N.nrSyscalls) :
    Tracks ((after N original events).table s) fun p => asked N original p s events := by
  induction events with
  | nil =>
    rw [table_after_nil hs]
    exact Tracks.none
  | cons e earlier ih =>
    have hearlier := fun c hc => hrange c (List.mem_cons_of_mem e hc)
    have h := ih hearlier hallowed.2
    have hhooked : Hooked N original (after N original earlier) := hooked_after hearlier
    cases e with
    | call pid reg =>
      rw [after, Kernel.handle, hhooked.enter_table]
      by_cases he : reg.ax = N.nrExitGroup
      · have hentry : ((after N original earlier).delPid N pid).table s =
            ((after N original earlier).table s).delPid pid := if_pos ⟨h1, hs⟩
        rw [if_pos he, hentry]
        refine (h.delPid pid).congr fun q => ?_
        by_cases hq : q = pid
        · simp [asked, he, hq]
        · simp [asked, he, hq, Ne.symm hq]
      · rw [if_neg he]
        exact h.congr fun q => by simp [asked, he]
    | command c =>
      have hc := hallowed.1
      rw [after, Kernel.handle]
      by_cases hpass : Passes N (after N original earlier) c
      · obtain ⟨hc1, -⟩ := hpass.range
        rw [exec_of_passes hpass]
        by_cases hindex : s = c.index
        · have hsyscall : c.syscall = s := by
            rw [hindex]
            simp only [Call.index] at hc1 ⊢
            omega
          rw [hindex] at h ⊢
          refine (h.command hpass hc).congr fun q => ?_
          simp only [asked, exec_of_passes hpass, ← hindex, hsyscall, true_and]
        · rw [perform_table_of_ne hindex]
          refine h.congr fun q => ?_
          have hsyscall : c.syscall ≠ s := fun heq => hindex (by
            simp only [Call.index, heq, Int.toNat_natCast])
          simp only [asked, hsyscall, false_and, if_false]
      · obtain ⟨code, hcode, hexec⟩ := exec_of_not_passes hpass
        rw [hexec]
        exact h.congr fun q => by simp only [asked, hexec, hcode, and_false, if_false]

/-- In a history of allowed events, a call of an intercepted system call is logged exactly when
that was asked for. -/
theorem logged_iff_asked {events : List Event} (hrange : InRange N events)
    (hallowed : AllAllowed N original events) {pid : Int} {reg : PtRegs} (h1 : 1 ≤ reg.ax)
    (hax : reg.ax < N.nrSyscalls)
    (hintercepted : ((after N original events).table reg.ax).intercepted ≠ 0) :
    Logged N (after N original events) pid reg ↔ asked N original pid reg.ax events = true := by
  rw [(hooked_after hrange).logged_iff h1 hax hintercepted,
    (tracks_after hrange hallowed h1 hax).logs]

/-- A call of system call 5. -/
def callFive : PtRegs := ⟨5, 0, 0, 0, 0, 0, 0⟩

/-- Monitoring process 1 for an intercepted system call logs its calls. -/
theorem logged_of_started :
    Logged sampleNumbers (after sampleNumbers id [rootCommand 3 1, rootCommand 1 0]) 1
      callFive := by
  refine (logged_iff_asked (inRange_rootCommand (inRange_rootCommand inRange_nil 1 0) 3 1) ?_
    (by decide) (by decide) (by decide)).mpr (by decide)
  refine ⟨fun _ => ⟨by decide, fun _ q hq => ?_⟩, fun _ => trivial, trivial⟩
  have hlist : ((after sampleNumbers id [rootCommand 1 0]).table 5).myList = [] := by decide
  exact absurd (hlist ▸ hq) List.not_mem_nil

/-- Monitoring all processes for an intercepted system call logs nothing. -/
theorem not_logged :
    InRange sampleNumbers [rootCommand 3 0, rootCommand 1 0] ∧
    ((after sampleNumbers id [rootCommand 3 0, rootCommand 1 0]).table 5).intercepted ≠ 0 ∧
    asked sampleNumbers id 1 5 [rootCommand 3 0, rootCommand 1 0] = true ∧
    ¬ Logged sampleNumbers (after sampleNumbers id [rootCommand 3 0, rootCommand 1 0]) 1
      callFive := by
  refine ⟨inRange_rootCommand (inRange_rootCommand inRange_nil 1 0) 3 0, by decide, by decide, ?_⟩
  rw [Logged]
  decide

end OsAssignments.Interceptor
