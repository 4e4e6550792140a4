import OsAssignments.Interceptor.Unload

/-!
# Commands that run interleaved

A command checks its context in one locked section and makes its change in another, and an
intercept puts the interceptor into the table in a third. An interleaving is explained by an
order of the commands when every command is put where it fails a check or where it makes its
change. The one difference is then an interceptor that is still to be put into the table.
-/

namespace OsAssignments.Interceptor

open Code

/-! ## Sections -/

theorem runSection_runCommand (k : Kernel) (c : Call) : (runCommand c).runSection 0 k =
    match checkContext k c with
    | some code => (.ret code, k)
    | none => (perform c, k) := by
  change ((match checkContext k c with
    | some code => (do spinUnlock .pidlist; return code : KernelM Int)
    | none => (do spinUnlock .pidlist; perform c : KernelM Int)).runSection 1 k) = _
  cases checkContext k c with
  | some code => rfl
  | none => rfl

theorem runSection_interceptSyscall (k : Kernel) (s : Nat) : (interceptSyscall s).runSection 0 k =
    (installInterceptor s, k.mapEntry s fun t =>
      { t with intercepted := 1, f := k.sysCallTable s }) := by
  have hentry := Kernel.mapEntry_mapEntry (k := k) (s := s)
    (g := fun t => { t with intercepted := 1 }) (h := fun t => { t with f := k.sysCallTable s })
  rw [← hentry]
  rfl

theorem runSection_installInterceptor (k : Kernel) (s : Nat) :
    (installInterceptor s).runSection 0 k = (.ret 0, k.setHandler s .interceptor) := rfl

/-- The code returns at the end of its next section. -/
def ReturnsIn (held : Nat) (c : KernelM Int) : Prop := ∀ k, ∃ r, (c.runSection held k).1 = .ret r

theorem ReturnsIn.runSection {c : KernelM Int} (h : ReturnsIn 0 c) (k : Kernel) :
    c.runSection 0 k = (.ret (c.exec k).1, (c.exec k).2) := by
  obtain ⟨r, hr⟩ := h k
  have hexec := exec_runSection 0 c k
  rw [hr] at hexec
  rw [← hexec]
  exact Prod.ext hr rfl

theorem returnsIn_addPidSysc (s : Nat) (pid : Int) (memory : Bool) :
    ReturnsIn 1 (addPidSysc s pid memory) := by
  intro k
  cases memory with
  | true => exact ⟨0, rfl⟩
  | false => exact ⟨-enomem, rfl⟩

theorem returnsIn_delPidSysc (s : Nat) (pid : Int) : ReturnsIn 1 (delPidSysc s pid) := by
  intro k
  by_cases h : (k.table s).checkPidMonitored pid = true
  · refine ⟨0, ?_⟩
    change ((if (k.table s).checkPidMonitored pid then _ else _ : KernelM Int).runSection 1 k).1 = _
    rw [if_pos h]
    rfl
  · refine ⟨-einval, ?_⟩
    change ((if (k.table s).checkPidMonitored pid then _ else _ : KernelM Int).runSection 1 k).1 = _
    rw [if_neg h]
    rfl

theorem returnsIn_startMonitoring (s : Nat) (pid : Int) (memory : Bool) :
    ReturnsIn 0 (startMonitoring s pid memory) := by
  intro k
  by_cases hzero : pid = 0
  · rw [startMonitoring, if_pos hzero]
    exact ⟨0, rfl⟩
  · rw [startMonitoring, if_neg hzero]
    by_cases hall : (k.table s).monitored ≠ 2
    · obtain ⟨r, hr⟩ := returnsIn_addPidSysc s pid memory
        (k.mapEntry s fun t => { t with monitored := 1 })
      refine ⟨r, ?_⟩
      change ((if (k.table s).monitored ≠ 2 then _ else _ : KernelM Int).runSection 1 k).1 = _
      rw [if_pos hall]
      exact hr
    · obtain ⟨r, hr⟩ := returnsIn_delPidSysc s pid k
      refine ⟨r, ?_⟩
      change ((if (k.table s).monitored ≠ 2 then _ else _ : KernelM Int).runSection 1 k).1 = _
      rw [if_neg hall]
      exact hr

theorem returnsIn_stopMonitoring (s : Nat) (pid : Int) (memory : Bool) :
    ReturnsIn 0 (stopMonitoring s pid memory) := by
  intro k
  by_cases hzero : pid = 0
  · rw [stopMonitoring, if_pos hzero]
    exact ⟨0, rfl⟩
  · rw [stopMonitoring, if_neg hzero]
    obtain ⟨r, hr⟩ := returnsIn_delPidSysc s pid (k.mapEntry s fun t => { t with monitored := 1 })
    refine ⟨r, ?_⟩
    have hone : ((k.mapEntry s fun t => { t with monitored := 1 }).table s).monitored ≠ 2 := by
      simp
    change ((if ((k.mapEntry s fun t => { t with monitored := 1 }).table s).monitored = 2 then _
      else _ : KernelM Int).runSection 1 (k.mapEntry s fun t => { t with monitored := 1 })).1 = _
    rw [if_neg hone]
    exact hr

/-- Commands other than intercepts make their change in one section. -/
theorem returnsIn_perform {c : Call} (h : Request.ofInt c.cmd ≠ some .intercept) :
    ReturnsIn 0 (perform c) := by
  rw [perform]
  cases hr : Request.ofInt c.cmd with
  | none => exact fun k => ⟨0, rfl⟩
  | some r =>
    cases r with
    | intercept => exact absurd hr h
    | release => exact fun k => ⟨0, rfl⟩
    | startMonitoring => exact returnsIn_startMonitoring _ _ _
    | stopMonitoring => exact returnsIn_stopMonitoring _ _ _

/-! ## What commands keep -/

theorem MyTable.nodup_deleted {t : MyTable} (h : t.myList.Nodup) (pid : Int) :
    (t.deleted pid).2.myList.Nodup := by
  rw [deleted]
  split
  · rw [myList_unlinkPid]
    exact h.erase pid
  · exact h

theorem MyTable.nodup_started {t : MyTable} (h : t.myList.Nodup) {pid : Int}
    (hpid : pid ∉ t.myList) (memory : Bool) : (t.started pid memory).2.myList.Nodup := by
  rw [started]
  split
  · exact List.nodup_nil
  · split
    · cases memory with
      | true => exact List.nodup_cons.mpr ⟨hpid, h⟩
      | false => exact h
    · exact nodup_deleted h pid

theorem MyTable.nodup_stopped {t : MyTable} (h : t.myList.Nodup) (pid : Int) :
    (t.stopped pid).2.myList.Nodup := by
  have hflag : { t with monitored := 1 }.myList.Nodup := h
  rw [stopped]
  split
  · exact List.nodup_nil
  · exact nodup_deleted hflag pid

/-- The interceptor is not saved as the function of a system call, nor in the table for one that
is not intercepted, and no pid is twice in a list. -/
structure Sane (k : Kernel) : Prop where
  saved : ∀ s, (k.table s).f ≠ .interceptor
  free : ∀ s, (k.table s).intercepted = 0 → k.sysCallTable s ≠ .interceptor
  nodup : ∀ s, (k.table s).myList.Nodup

namespace Sane

variable {N : Numbers} {k : Kernel}

theorem setHandler (h : Sane k) (s : Nat) {t : MyTable} {f : Handler} (hsaved : t.f ≠ .interceptor)
    (hfree : t.intercepted = 0 → f ≠ .interceptor) (hnodup : t.myList.Nodup) :
    Sane ((k.mapEntry s fun _ => t).setHandler s f) := by
  refine ⟨fun s' => ?_, fun s' h0 => ?_, fun s' => ?_⟩ <;> by_cases hs : s' = s
  · simp only [hs, Kernel.setHandler, Kernel.mapEntry, Function.update_self, ne_eq, hsaved,
      not_false_eq_true]
  · simp only [Kernel.setHandler, Kernel.mapEntry, Function.update_of_ne hs]
    exact h.saved s'
  · simp only [hs, Kernel.setHandler, Kernel.mapEntry, Function.update_self] at h0 ⊢
    exact hfree h0
  · simp only [Kernel.setHandler, Kernel.mapEntry, Function.update_of_ne hs] at h0 ⊢
    exact h.free s' h0
  · simp only [hs, Kernel.setHandler, Kernel.mapEntry, Function.update_self, hnodup]
  · simp only [Kernel.setHandler, Kernel.mapEntry, Function.update_of_ne hs]
    exact h.nodup s'

theorem runEntry (h : Sane k) (s : Nat) {f : MyTable → Int × MyTable}
    (hf : ∀ t, (f t).2.hook = t.hook) (hnodup : (f (k.table s)).2.myList.Nodup) :
    Sane (k.runEntry s f).2 := by
  have hentry : (f (k.table s)).2.f = (k.table s).f ∧
      (f (k.table s)).2.intercepted = (k.table s).intercepted := Prod.mk.inj (hf (k.table s))
  have hsame := h.setHandler s (t := (f (k.table s)).2) (f := k.sysCallTable s)
    (hentry.1 ▸ h.saved s) (fun h0 => h.free s (hentry.2 ▸ h0)) hnodup
  rw [Kernel.setHandler, Kernel.mapEntry, Function.update_eq_self] at hsame
  exact hsame

/-- A command that runs alone. -/
theorem mySyscall (h : Sane k) (c : Call) : Sane ((Interceptor.mySyscall N c).exec k).2 := by
  by_cases hpass : Passes N k c
  · obtain ⟨-, -, -, r, hr⟩ := hpass.range
    have hentry := hpass.entry
    rw [hr] at hentry
    rw [exec_of_passes hpass, exec_perform, hr]
    cases r with
    | intercept =>
      rw [exec_interceptSyscall]
      exact h.setHandler _ (h.free _ hentry) (fun h0 => absurd h0 Nat.one_ne_zero) (h.nodup _)
    | release =>
      rw [exec_releaseSyscall]
      exact h.setHandler _ (h.saved _) (fun _ => h.saved _) (h.nodup _)
    | startMonitoring =>
      exact h.runEntry _ (fun t => MyTable.hook_started t _ _)
        (MyTable.nodup_started (h.nodup _) hentry _)
    | stopMonitoring =>
      exact h.runEntry _ (fun t => MyTable.hook_stopped t _) (MyTable.nodup_stopped (h.nodup _) _)
  · obtain ⟨code, -, hexec⟩ := exec_of_not_passes hpass
    rw [hexec]
    exact h

theorem serialRun {τ : Type} (h : Sane k) (calls : τ → Call) (order : List τ) :
    Sane (serialRun (fun i => Interceptor.mySyscall N (calls i)) order k).2 := by
  induction order generalizing k with
  | nil => exact h
  | cons i order ih => exact ih (h.mySyscall (calls i))

end Sane

/-! ## A kernel that is behind -/

/-- The kernel `k` lacks the interceptors that are still to be put into the table for the system
calls in `missing`; otherwise it is `a`. -/
structure Behind (missing : Nat → Prop) (k a : Kernel) : Prop where
  rest : a = { k with sysCallTable := a.sysCallTable }
  pending : ∀ s, missing s → a.sysCallTable s = .interceptor ∧ (k.table s).intercepted ≠ 0
  settled : ∀ s, ¬ missing s → a.sysCallTable s = k.sysCallTable s

namespace Behind

variable {missing missing' : Nat → Prop} {k a : Kernel} {s : Nat}

theorem table_eq (h : Behind missing k a) : a.table = k.table := by
  rw [h.rest]

theorem eq (h : Behind missing k a) (hnone : ∀ s, ¬ missing s) : a = k := by
  rw [h.rest, funext fun s => h.settled s (hnone s)]

theorem congr (h : Behind missing k a) (hmissing : ∀ s, missing' s ↔ missing s) :
    Behind missing' k a :=
  ⟨h.rest, fun s hs => h.pending s ((hmissing s).mp hs),
    fun s hs => h.settled s fun hold => hs ((hmissing s).mpr hold)⟩

/-- The interceptor is put into the table. -/
theorem install (h : Behind missing k a) (hs : missing s)
    (hmissing : ∀ s', s' ≠ s → (missing' s' ↔ missing s')) :
    Behind missing' (k.setHandler s .interceptor) a := by
  refine ⟨h.rest, fun s' hs' => ?_, fun s' hs' => ?_⟩ <;> by_cases heq : s' = s
  · exact heq ▸ h.pending s hs
  · exact h.pending s' ((hmissing s' heq).mp hs')
  · simp only [heq, Kernel.setHandler, Function.update_self]
    exact (h.pending s hs).1
  · simp only [Kernel.setHandler, Function.update_of_ne heq]
    exact h.settled s' fun hold => hs' ((hmissing s' heq).mpr hold)

/-- An intercept saves the function of a system call that is not intercepted. -/
theorem intercept (h : Behind missing k a) (hfree : (k.table s).intercepted = 0)
    (hs : missing' s) (hmissing : ∀ s', s' ≠ s → (missing' s' ↔ missing s')) :
    Behind missing' (k.mapEntry s fun t => { t with intercepted := 1, f := k.sysCallTable s })
      ((interceptSyscall s).exec a).2 := by
  have hhandler : a.sysCallTable s = k.sysCallTable s :=
    h.settled s fun hold => (h.pending s hold).2 hfree
  rw [exec_interceptSyscall, hhandler]
  obtain ⟨handlers, rfl⟩ : ∃ handlers, a = { k with sysCallTable := handlers } := ⟨_, h.rest⟩
  refine ⟨rfl, fun s' hs' => ?_, fun s' hs' => ?_⟩
  · by_cases heq : s' = s
    · subst heq
      exact ⟨Function.update_self .., by simp⟩
    · simp only [Kernel.setHandler, Kernel.mapEntry, Function.update_of_ne heq]
      exact h.pending s' ((hmissing s' heq).mp hs')
  · have heq : s' ≠ s := fun heq => hs' (heq ▸ hs)
    simp only [Kernel.setHandler, Kernel.mapEntry, Function.update_of_ne heq]
    exact h.settled s' fun hold => hs' ((hmissing s' heq).mpr hold)

/-- A release of a system call whose interceptor is in the table. -/
theorem release (h : Behind missing k a) (hs : ¬ missing s) :
    Behind missing ((releaseSyscall s).exec k).2 ((releaseSyscall s).exec a).2 := by
  rw [exec_releaseSyscall, exec_releaseSyscall, h.table_eq]
  obtain ⟨handlers, rfl⟩ : ∃ handlers, a = { k with sysCallTable := handlers } := ⟨_, h.rest⟩
  refine ⟨rfl, fun s' hs' => ?_, fun s' hs' => ?_⟩
  · have heq : s' ≠ s := fun heq => hs (heq ▸ hs')
    simp only [Kernel.setHandler, Kernel.mapEntry, Function.update_of_ne heq]
    exact h.pending s' hs'
  · by_cases heq : s' = s
    · subst heq
      simp only [Kernel.setHandler, Function.update_self]
    · simp only [Kernel.setHandler, Kernel.mapEntry, Function.update_of_ne heq]
      exact h.settled s' hs'

/-- A change of an entry that leaves its hook alone. -/
theorem runEntry (h : Behind missing k a) {f : MyTable → Int × MyTable}
    (hf : ∀ t, (f t).2.hook = t.hook) :
    (a.runEntry s f).1 = (k.runEntry s f).1 ∧
      Behind missing (k.runEntry s f).2 (a.runEntry s f).2 := by
  have hsame := SameHooks.runEntry (k := k) (s := s) hf
  obtain ⟨handlers, rfl⟩ : ∃ handlers, a = { k with sysCallTable := handlers } := ⟨_, h.rest⟩
  refine ⟨rfl, rfl, fun s' hs' => ?_, fun s' hs' => h.settled s' hs'⟩
  have hentry : ((k.runEntry s f).2.table s').intercepted = (k.table s').intercepted :=
    (Prod.mk.inj (hsame.hook s')).2
  rw [hentry]
  exact h.pending s' hs'

end Behind

end OsAssignments.Interceptor
