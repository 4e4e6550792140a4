import OsAssignments.Interceptor.Bookkeeping
import OsAssignments.Interceptor.Coverage

/-!
# The documented result of a command

The comment above `my_syscall` says which code a command returns. The code checks the pid for
all four commands, and it asks the list alone whether a process is monitored, also after a
release, when the flag says that none is. For `NR_syscalls` itself it walks a list that was
never initialised or goes past the end of the system call table.
-/

namespace OsAssignments.Interceptor

open Code

/-! ## What the comment says -/

/-- A pid that is not valid: it is negative, or not 0 and no process has it. -/
def Call.badPid (c : Call) : Bool := c.pid < 0 || (c.pid > 0 && !c.pidExists)

/-- The caller does not have the right permissions. -/
def Call.denied (c : Call) (r : Request) : Bool :=
  !c.root && (r = .intercept || r = .release || c.pid = 0 || !c.sameOwner)

/-- The documented code of a command whose arguments and caller are accepted. -/
def documentedContext (t : MyTable) (r : Request) (c : Call) : Int :=
  if (r = .release ∨ r = .stopMonitoring) ∧ t.intercepted = 0 then -einval
  else if r = .stopMonitoring ∧ c.pid ≠ 0 ∧ t.logs c.pid = false then -einval
  else if r = .intercept ∧ t.intercepted ≠ 0 then -ebusy
  else if r = .startMonitoring ∧ c.pid ≠ 0 ∧ t.logs c.pid = true then -ebusy
  else if r = .startMonitoring ∧ c.pid ≠ 0 ∧ c.memory = false then -enomem
  else 0

/-- The documented code of a command, where a process is monitored if the interceptor would log
its calls. -/
def documented (N : Numbers) (k : Kernel) (c : Call) : Int :=
  if ¬ ValidNumber N c.syscall then -einval
  else match Request.ofInt c.cmd with
    | none => -einval
    | some r =>
      if (r = .startMonitoring ∨ r = .stopMonitoring) ∧ c.badPid = true then -einval
      else if c.denied r = true then -eperm
      else documentedContext (k.table c.index) r c

/-! ## What the code does -/

/-- A command that gets to the lists or to `sys_call_table` finds its list initialised, or its
number among the indices of the table. -/
def Call.defined (N : Numbers) (k : Kernel) (c : Call) : Bool :=
  (checkArguments N c).isSome ||
    match Request.ofInt c.cmd with
    | some .intercept => (k.table c.index).intercepted ≠ 0 || c.index < N.nrSyscalls
    | some .release => (k.table c.index).intercepted = 0 || c.index < N.nrSyscalls
    | _ => (initLists N c.index).isSome

/-- What `my_syscall` returns, where what it does is defined. -/
def result (N : Numbers) (k : Kernel) (c : Call) : Option Int :=
  if c.defined N k then some ((mySyscall N c).exec k).1 else none

/-- What every command of a history did was defined. -/
def AllDefined (N : Numbers) (original : Nat → Nat) : List Event → Prop
  | [] => True
  | .call _ _ :: earlier => AllDefined N original earlier
  | .command c :: earlier =>
    c.defined N (after N original earlier) = true ∧ AllDefined N original earlier

/-! ## Where they differ -/

/-- An intercept or a release that is rejected because of a pid that does not concern it. A
release by root of a system call that is not intercepted is rejected with the same code. -/
structure Call.RejectedForPid (N : Numbers) (k : Kernel) (c : Call) : Prop where
  number : ValidNumber N c.syscall
  pid : c.badPid = true
  request : Request.ofInt c.cmd = some .intercept ∨ Request.ofInt c.cmd = some .release ∧
    (c.root = false ∨ (k.table c.index).intercepted ≠ 0)

/-- A start or a stop for a process that a release has left in the list. A stop for a system call
that is not intercepted is rejected all the same. -/
structure Call.MeetsLeftover (N : Numbers) (k : Kernel) (c : Call) : Prop where
  number : ValidNumber N c.syscall
  process : c.pid > 0 ∧ c.pidExists = true
  permitted : c.root = true ∨ c.sameOwner = true
  unmonitored : (k.table c.index).monitored = 0
  listed : c.pid ∈ (k.table c.index).myList
  request : Request.ofInt c.cmd = some .startMonitoring ∨
    Request.ofInt c.cmd = some .stopMonitoring ∧ (k.table c.index).intercepted ≠ 0

variable {N : Numbers} {original : Nat → Nat} {k : Kernel} {c : Call} {r : Request}

/-! ## The checks -/

/-- The check of the arguments of a known command. -/
theorem checkArguments_eq (hnumber : ValidNumber N c.syscall) (hr : Request.ofInt c.cmd = some r) :
    checkArguments N c = if c.badPid = true then some (-einval)
      else if c.denied r = true then some (-eperm) else none := by
  have hrange : ¬ (c.syscall < 0 ∨ c.syscall > N.nrSyscalls ∨ c.syscall = myCustomSyscall) :=
    hnumber
  rw [checkArguments, if_neg hrange, hr]
  simp only [Call.badPid, Call.denied]
  grind

/-- What the check of the arguments lets through has a valid number. -/
theorem validNumber_of_checkArguments (ha : checkArguments N c = none) :
    ValidNumber N c.syscall := by
  intro hnot
  rw [checkArguments, if_pos hnot] at ha
  cases ha

/-- A command whose arguments are accepted returns the code of the check of its context, or of
what it does. -/
theorem code_eq (ha : checkArguments N c = none) :
    ((mySyscall N c).exec k).1 =
      match checkContext k c with
      | some code => code
      | none => ((perform c).exec k).1 := by
  rw [mySyscall, ha]
  simp only [exec_runCommand]
  cases checkContext k c with
  | some code => rfl
  | none => rfl

theorem code_intercept (ha : checkArguments N c = none)
    (hr : Request.ofInt c.cmd = some .intercept) : ((mySyscall N c).exec k).1 =
      if (k.table c.index).intercepted ≠ 0 then -ebusy else 0 := by
  rw [code_eq ha, exec_perform, hr, exec_interceptSyscall, checkContext, hr]
  by_cases h : (k.table c.index).intercepted = 0
  · simp [h]
  · simp [h]

theorem code_release (ha : checkArguments N c = none)
    (hr : Request.ofInt c.cmd = some .release) : ((mySyscall N c).exec k).1 =
      if (k.table c.index).intercepted = 0 then -einval else 0 := by
  rw [code_eq ha, exec_perform, hr, exec_releaseSyscall, checkContext, hr]
  by_cases h : (k.table c.index).intercepted = 0
  · simp [h]
  · simp [h]

theorem code_start (ha : checkArguments N c = none)
    (hr : Request.ofInt c.cmd = some .startMonitoring) (hflag : (k.table c.index).monitored ≠ 2) :
    ((mySyscall N c).exec k).1 =
      if c.pid ∈ (k.table c.index).myList then -ebusy
      else if c.pid ≠ 0 ∧ c.memory = false then -enomem else 0 := by
  rw [code_eq ha, exec_perform, hr, checkContext, hr]
  by_cases h : c.pid ∈ (k.table c.index).myList
  · simp [h, MyTable.checkPidMonitored]
  · by_cases hzero : c.pid = 0
    · rw [hzero] at h ⊢
      simp [h, MyTable.checkPidMonitored, Kernel.runEntry, MyTable.started]
    · cases hm : c.memory with
      | true => simp [h, MyTable.checkPidMonitored, Kernel.runEntry, MyTable.started, hzero, hflag,
          MyTable.added]
      | false => simp [h, MyTable.checkPidMonitored, Kernel.runEntry, MyTable.started, hzero, hflag,
          MyTable.added]

theorem code_stop (ha : checkArguments N c = none)
    (hr : Request.ofInt c.cmd = some .stopMonitoring) : ((mySyscall N c).exec k).1 =
      if (k.table c.index).intercepted = 0 then -einval
      else if c.pid ≠ 0 ∧ c.pid ∉ (k.table c.index).myList then -einval else 0 := by
  rw [code_eq ha, exec_perform, hr, checkContext, hr]
  by_cases h : (k.table c.index).intercepted = 0
  · by_cases hlisted : c.pid ∉ (k.table c.index).myList ∧ c.pid ≠ 0
    · simp [h, MyTable.checkPidMonitored, hlisted]
    · simp [h, MyTable.checkPidMonitored, hlisted]
  · by_cases hzero : c.pid = 0
    · simp [h, hzero, Kernel.runEntry, MyTable.stopped]
    · by_cases hlisted : c.pid ∈ (k.table c.index).myList
      · simp [h, hzero, hlisted, Kernel.runEntry, MyTable.stopped, MyTable.checkPidMonitored,
          MyTable.deleted]
      · simp [h, hzero, hlisted, MyTable.checkPidMonitored]

/-! ## Agreement in one state -/

/-- A command with a bad pid gets the documented code unless it is rejected for a pid that does not
concern it. -/
theorem agrees_of_badPid (hnumber : ValidNumber N c.syscall) (hr : Request.ofInt c.cmd = some r)
    (hpid : c.badPid = true) :
    ((mySyscall N c).exec k).1 = documented N k c ↔ ¬ c.RejectedForPid N k := by
  have hcode : ((mySyscall N c).exec k).1 = -einval := by
    rw [mySyscall, checkArguments_eq hnumber hr, if_pos hpid]
    rfl
  have hrejected : c.RejectedForPid N k ↔ r = .intercept ∨
      r = .release ∧ (c.root = false ∨ (k.table c.index).intercepted ≠ 0) := by
    refine ⟨fun h => ?_, fun h => ⟨hnumber, hpid, ?_⟩⟩
    · simpa [hr] using h.request
    · simpa [hr] using h
  rw [hcode, documented, if_neg (not_not.mpr hnumber), hr, hrejected]
  simp only [hpid, Call.denied, documentedContext]
  cases r with
  | intercept =>
    rcases Bool.eq_false_or_eq_true c.root with hroot | hroot
    · by_cases h : (k.table c.index).intercepted = 0
      · simp [hroot, h, einval]
      · simp [hroot, h, einval, ebusy]
    · simp [hroot, einval, eperm]
  | release =>
    rcases Bool.eq_false_or_eq_true c.root with hroot | hroot
    · by_cases h : (k.table c.index).intercepted = 0
      · simp [hroot, h]
      · simp [hroot, h, einval]
    · simp [hroot, einval, eperm]
  | startMonitoring => simp
  | stopMonitoring => simp

/-- A command whose arguments are accepted gets the documented code unless it meets a pid that a
release has left over. -/
theorem agrees_of_accepted (ha : checkArguments N c = none) (hr : Request.ofInt c.cmd = some r)
    (hpid : c.badPid = false) (hdenied : c.denied r = false) (hsound : (k.table c.index).Sound)
    (hzero : 0 ∉ (k.table c.index).myList) :
    ((mySyscall N c).exec k).1 = documented N k c ↔ ¬ c.MeetsLeftover N k := by
  have hnumber := validNumber_of_checkArguments ha
  have hflag := hsound.flag
  have hmeets : c.MeetsLeftover N k ↔ (k.table c.index).monitored = 0 ∧
      c.pid ∈ (k.table c.index).myList ∧ (r = .startMonitoring ∨
        r = .stopMonitoring ∧ (k.table c.index).intercepted ≠ 0) := by
    refine ⟨fun h => ⟨h.unmonitored, h.listed, by simpa [hr] using h.request⟩, ?_⟩
    rintro ⟨hunmonitored, hlisted, hrequest⟩
    have hne : c.pid ≠ 0 := fun h => hzero (h ▸ hlisted)
    rw [Call.badPid] at hpid
    rw [Call.denied] at hdenied
    refine ⟨hnumber, ?_, ?_, hunmonitored, hlisted, by simpa [hr] using hrequest⟩
    · grind
    · grind
  have hdocumented : documented N k c = documentedContext (k.table c.index) r c := by
    rw [documented, if_neg (not_not.mpr hnumber), hr]
    simp [hpid, hdenied]
  have hlogs := hsound.logs_iff c.pid
  rw [hdocumented, hmeets, documentedContext]
  cases r with
  | intercept =>
    rw [code_intercept ha hr]
    by_cases h : (k.table c.index).intercepted = 0
    · simp [h]
    · simp [h]
  | release =>
    rw [code_release ha hr]
    by_cases h : (k.table c.index).intercepted = 0
    · simp [h]
    · simp [h]
  | startMonitoring =>
    rw [code_start ha hr (by omega)]
    grind [ebusy, enomem]
  | stopMonitoring =>
    rw [code_stop ha hr]
    grind [einval]

/-- In a state with sound entries, a command gets the documented code unless it is one of the two
kinds for which the code differs. -/
theorem agrees_iff (hentry : ValidNumber N c.syscall → (k.table c.index).Sound ∧
    0 ∉ (k.table c.index).myList) : ((mySyscall N c).exec k).1 = documented N k c ↔
      ¬ c.RejectedForPid N k ∧ ¬ c.MeetsLeftover N k := by
  by_cases hnumber : ValidNumber N c.syscall
  · cases hr : Request.ofInt c.cmd with
    | none =>
      have hcode : ((mySyscall N c).exec k).1 = documented N k c := by
        rw [mySyscall, checkArguments, if_neg hnumber, documented, if_neg (not_not.mpr hnumber), hr]
        rfl
      refine iff_of_true hcode ⟨fun h => ?_, fun h => ?_⟩
      · simpa [hr] using h.request
      · simpa [hr] using h.request
    | some r =>
      cases hpid : c.badPid with
      | true =>
        have hmeets : ¬ c.MeetsLeftover N k := fun h => by
          have hprocess := h.process
          rw [Call.badPid] at hpid
          grind
        rw [agrees_of_badPid hnumber hr hpid, and_iff_left hmeets]
      | false =>
        have hrejected : ¬ c.RejectedForPid N k := fun h => by
          exact Bool.noConfusion (hpid.symm.trans h.pid)
        rw [and_iff_right hrejected]
        have ha := checkArguments_eq hnumber hr
        cases hdenied : c.denied r with
        | true =>
          have hcode : ((mySyscall N c).exec k).1 = documented N k c := by
            rw [mySyscall, ha, documented, if_neg (not_not.mpr hnumber), hr]
            simp [hpid, hdenied]
          refine iff_of_true hcode fun h => ?_
          have hprocess := h.process
          have hpermitted := h.permitted
          have hrequest := h.request
          rw [hr] at hrequest
          rw [Call.denied] at hdenied
          grind
        | false =>
          rw [hpid, hdenied] at ha
          exact agrees_of_accepted ha hr hpid hdenied (hentry hnumber).1 (hentry hnumber).2
  · have hcode : ((mySyscall N c).exec k).1 = documented N k c := by
      rw [mySyscall, checkArguments, if_pos (not_not.mp hnumber), documented, if_pos hnumber]
      rfl
    exact iff_of_true hcode ⟨fun h => hnumber h.number, fun h => hnumber h.number⟩

/-! ## The pids in a list -/

namespace MyTable

variable {t : MyTable} {p q : Int}

theorem mem_of_mem_delPid (h : q ∈ (t.delPid p).myList) : q ∈ t.myList := by
  have hloop : ∀ (qs : List Int) (t : MyTable),
      q ∈ (qs.foldl (fun t q => if q = p then t.unlinkPid p else t) t).myList → q ∈ t.myList := by
    intro qs
    induction qs with
    | nil => exact fun _ h => h
    | cons q' qs ih =>
      intro t h
      rw [List.foldl_cons] at h
      have h := ih _ h
      split at h
      · rw [myList_unlinkPid] at h
        exact List.mem_of_mem_erase h
      · exact h
  exact hloop t.myList t h

theorem mem_of_mem_deleted (h : q ∈ (t.deleted p).2.myList) : q ∈ t.myList := by
  rw [deleted] at h
  split at h
  · simp only [myList_unlinkPid] at h
    exact List.mem_of_mem_erase h
  · exact h

/-- A start puts no pid into the list but its own, which is not 0. -/
theorem mem_of_mem_started {memory : Bool} (h : q ∈ (t.started p memory).2.myList) :
    q ∈ t.myList ∨ q = p ∧ p ≠ 0 := by
  rw [started] at h
  split at h
  · exact absurd h List.not_mem_nil
  · next hzero =>
    split at h
    · cases memory with
      | true => exact (List.mem_cons.mp h).symm.imp_right fun hq => ⟨hq, hzero⟩
      | false => exact .inl h
    · exact .inl (mem_of_mem_deleted h)

theorem mem_of_mem_stopped (h : q ∈ (t.stopped p).2.myList) : q ∈ t.myList := by
  rw [stopped] at h
  split at h
  · exact absurd h List.not_mem_nil
  · exact mem_of_mem_deleted (t := { t with monitored := 1 }) h

end MyTable

/-! ## Histories -/

/-- No entry has pid 0 in its list. -/
theorem zero_not_mem_after {events : List Event} (hrange : InRange N events) {s : Nat} (h1 : 1 ≤ s)
    (hs : s < N.nrSyscalls) : 0 ∉ ((after N original events).table s).myList := by
  refine entry_after (P := fun t => 0 ∉ t.myList) List.not_mem_nil
    (fun t pid h hmem => h (MyTable.mem_of_mem_delPid hmem)) ?_ hrange h1 hs
  intro k c hpass h
  obtain ⟨-, -, -, r, hr⟩ := hpass.range
  rw [exec_perform, hr]
  cases r with
  | intercept =>
    simp only [exec_interceptSyscall, Kernel.setHandler, Kernel.mapEntry_table_self]
    exact h
  | release =>
    simp only [exec_releaseSyscall, Kernel.setHandler, Kernel.mapEntry_table_self]
    exact h
  | startMonitoring =>
    simp only [Kernel.runEntry, Kernel.mapEntry_table_self]
    intro hmem
    rcases MyTable.mem_of_mem_started hmem with hmem | ⟨hzero, hne⟩
    · exact h hmem
    · exact hne hzero.symm
  | stopMonitoring =>
    simp only [Kernel.runEntry, Kernel.mapEntry_table_self]
    exact fun hmem => h (MyTable.mem_of_mem_stopped hmem)

/-- The entry of `NR_syscalls` is as the module was loaded. -/
theorem last_after {events : List Event} (hrange : InRange N events) :
    (after N original events).table N.nrSyscalls = ⟨.kernel 0, 0, 0, 0, []⟩ := by
  refine table_after (P := (· = ⟨.kernel 0, 0, 0, 0, []⟩)) (if_neg (lt_irrefl _))
    (fun hs => absurd hs.2 (lt_irrefl _)) (fun k c hc _ hindex _ => absurd hindex ?_) hrange
  have hpos := N.lt
  rw [Call.index]
  omega

/-- A defined command on a number from `NR_syscalls` on changes nothing. -/
theorem exec_of_defined {c : Call} (hlast : (k.table N.nrSyscalls).intercepted = 0)
    (hdefined : c.defined N k = true) (hc : ¬ c.syscall < N.nrSyscalls) :
    ((mySyscall N c).exec k).2 = k := by
  by_cases hpass : Passes N k c
  · obtain ⟨h1, hle, -, r, hr⟩ := hpass.range
    have hentry := hpass.entry
    have hindex : c.index = N.nrSyscalls := by
      rw [Call.index] at hle ⊢
      omega
    rw [hr, hindex] at hentry
    rw [Call.defined, hpass.arguments, hr, hindex, initLists_eq] at hdefined
    cases r with
    | intercept => simp [hlast] at hdefined
    | release => exact absurd hlast hentry
    | startMonitoring => simp at hdefined
    | stopMonitoring => simp at hdefined
  · obtain ⟨code, -, hexec⟩ := exec_of_not_passes hpass
    rw [hexec]

/-- A history of defined commands does what some history of commands below `NR_syscalls` does. -/
theorem AllDefined.exists_inRange {events : List Event} (h : AllDefined N original events) :
    ∃ events', InRange N events' ∧ after N original events' = after N original events := by
  induction events with
  | nil => exact ⟨[], fun _ hc => absurd hc List.not_mem_nil, rfl⟩
  | cons e earlier ih =>
    cases e with
    | call pid reg =>
      obtain ⟨events', hrange, hafter⟩ := ih h
      refine ⟨.call pid reg :: events', fun c hc => ?_, ?_⟩
      · rcases List.mem_cons.mp hc with heq | hc
        · cases heq
        · exact hrange c hc
      · rw [after, after, hafter]
    | command c =>
      obtain ⟨events', hrange, hafter⟩ := ih h.2
      by_cases hc : c.syscall < N.nrSyscalls
      · refine ⟨.command c :: events', fun c' hc' => ?_, ?_⟩
        · rcases List.mem_cons.mp hc' with heq | hc'
          · obtain rfl := Event.command.inj heq
            exact hc
          · exact hrange c' hc'
        · rw [after, after, hafter]
      · have hlast : ((after N original earlier).table N.nrSyscalls).intercepted = 0 := by
          rw [← hafter, last_after hrange]
        exact ⟨events', hrange, hafter.trans (exec_of_defined hlast h.1 hc).symm⟩

/-- After any history of defined commands, a command returns the documented code exactly when what
it does is defined, it is no intercept or release that is rejected for its pid, and it is no
start or stop for a process that a release has left in the list. -/
theorem result_iff {events : List Event} (h : AllDefined N original events) (c : Call) :
    result N (after N original events) c = some (documented N (after N original events) c) ↔
      c.defined N (after N original events) = true ∧
        ¬ c.RejectedForPid N (after N original events) ∧
        ¬ c.MeetsLeftover N (after N original events) := by
  obtain ⟨events', hrange, hafter⟩ := h.exists_inRange
  rw [← hafter]
  have hentry : ValidNumber N c.syscall → ((after N original events').table c.index).Sound ∧
      0 ∉ ((after N original events').table c.index).myList := by
    intro hnumber
    simp only [ValidNumber, myCustomSyscall] at hnumber
    by_cases hlast : c.index = N.nrSyscalls
    · rw [hlast, last_after hrange]
      exact ⟨Tracks.none.sound, List.not_mem_nil⟩
    · simp only [Call.index] at hlast ⊢
      exact ⟨sound_after hrange (by omega) (by omega),
        zero_not_mem_after hrange (by omega) (by omega)⟩
  rw [result, ← agrees_iff hentry]
  by_cases hdefined : c.defined N (after N original events') = true
  · rw [if_pos hdefined, Option.some.injEq, and_iff_right hdefined]
  · rw [if_neg hdefined]
    exact iff_of_false (Option.some_ne_none _).symm fun h => hdefined h.1

/-- Root starts to monitor process 1 for system call 5, which gives the documented code 0. -/
theorem result_of_start : result sampleNumbers (after sampleNumbers id [rootCommand 1 0])
    ⟨3, 5, 1, true, true, true, true⟩ =
      some (documented sampleNumbers (after sampleNumbers id [rootCommand 1 0])
        ⟨3, 5, 1, true, true, true, true⟩) := by
  have hdefined : AllDefined sampleNumbers id [rootCommand 1 0] := ⟨by decide, trivial⟩
  refine (result_iff hdefined _).mpr ⟨by decide, fun h => ?_, fun h => ?_⟩
  · have hpid := h.pid
    revert hpid
    decide
  · have hlisted := h.listed
    revert hlisted
    decide

/-- An intercept that comes with pid -1 is rejected, and so is a start for process 1 after system
call 5 was intercepted, monitored for the process and released. -/
theorem result_ne_documented :
    result sampleNumbers (after sampleNumbers id []) ⟨1, 5, -1, true, true, true, true⟩ ≠
      some (documented sampleNumbers (after sampleNumbers id [])
        ⟨1, 5, -1, true, true, true, true⟩) ∧
    AllDefined sampleNumbers id [rootCommand 2 0, rootCommand 3 1, rootCommand 1 0] ∧
    result sampleNumbers (after sampleNumbers id [rootCommand 2 0, rootCommand 3 1,
      rootCommand 1 0]) ⟨3, 5, 1, true, true, true, true⟩ ≠
        some (documented sampleNumbers (after sampleNumbers id [rootCommand 2 0, rootCommand 3 1,
          rootCommand 1 0]) ⟨3, 5, 1, true, true, true, true⟩) :=
  ⟨by decide, ⟨by decide, by decide, by decide, trivial⟩, by decide⟩

end OsAssignments.Interceptor
