import OsAssignments.Interceptor.Sequential

/-!
# Unloading the module

A system call that is intercepted has the interceptor in the table and its own function saved;
every other one has its own function in the table. `exit_function` puts back two entries
only, so that the system calls that are still intercepted keep the interceptor.
-/

namespace OsAssignments.Interceptor

open Code

/-! ## What is hooked -/

/-- The function and the flag of an entry. -/
def MyTable.hook (t : MyTable) : Handler × Nat := (t.f, t.intercepted)

namespace MyTable

variable {t : MyTable} {pid : Int}

theorem hook_unlinkPid (t : MyTable) (pid : Int) : (t.unlinkPid pid).hook = t.hook := by
  simp only [unlinkPid]
  split <;> rfl

theorem hook_delPid (t : MyTable) (pid : Int) : (t.delPid pid).hook = t.hook := by
  have hloop : ∀ (qs : List Int) (t : MyTable),
      (qs.foldl (fun t q => if q = pid then t.unlinkPid pid else t) t).hook = t.hook := by
    intro qs
    induction qs with
    | nil => exact fun _ => rfl
    | cons q qs ih =>
      intro t
      rw [List.foldl_cons, ih]
      split
      · exact hook_unlinkPid t pid
      · rfl
  exact hloop t.myList t

theorem hook_added (t : MyTable) (pid : Int) (memory : Bool) :
    (t.added pid memory).2.hook = t.hook := by
  cases memory <;> rfl

theorem hook_deleted (t : MyTable) (pid : Int) : (t.deleted pid).2.hook = t.hook := by
  rw [deleted]
  split
  · exact hook_unlinkPid t pid
  · rfl

theorem hook_started (t : MyTable) (pid : Int) (memory : Bool) :
    (t.started pid memory).2.hook = t.hook := by
  rw [started]
  split
  · rfl
  · split
    · exact hook_added ..
    · exact hook_deleted t pid

theorem hook_stopped (t : MyTable) (pid : Int) : (t.stopped pid).2.hook = t.hook := by
  rw [stopped]
  split
  · rfl
  · exact hook_deleted ..

end MyTable

/-- Kernels with the same functions in their tables, and the same hooks in the entries. -/
structure SameHooks (k k' : Kernel) : Prop where
  handlers : k'.sysCallTable = k.sysCallTable
  custom : k'.origCustomSyscall = k.origCustomSyscall
  exitGroup : k'.origExitGroup = k.origExitGroup
  hook : ∀ s, (k'.table s).hook = (k.table s).hook

namespace SameHooks

variable {N : Numbers} {k : Kernel}

theorem refl (k : Kernel) : SameHooks k k := ⟨rfl, rfl, rfl, fun _ => rfl⟩

theorem trans {k k' k'' : Kernel} (h : SameHooks k k') (h' : SameHooks k' k'') :
    SameHooks k k'' :=
  ⟨h'.handlers.trans h.handlers, h'.custom.trans h.custom, h'.exitGroup.trans h.exitGroup,
    fun s => (h'.hook s).trans (h.hook s)⟩

theorem runEntry {s : Nat} {f : MyTable → Int × MyTable} (hf : ∀ t, (f t).2.hook = t.hook) :
    SameHooks k (k.runEntry s f).2 := by
  refine ⟨rfl, rfl, rfl, fun s' => ?_⟩
  rw [Kernel.runEntry]
  by_cases hs : s' = s
  · rw [hs, Kernel.mapEntry_table_self, hf]
  · rw [Kernel.mapEntry_table_of_ne hs]

theorem delPid (k : Kernel) (pid : Int) : SameHooks k (k.delPid N pid) := by
  refine ⟨rfl, rfl, rfl, fun s => ?_⟩
  simp only [Kernel.delPid]
  split
  · exact MyTable.hook_delPid ..
  · rfl

/-- A call that a process makes hooks nothing. -/
theorem enter (k : Kernel) (pid : Int) (reg : PtRegs) : SameHooks k (k.enter N pid reg) := by
  have hlog : SameHooks k ((Interceptor.interceptor pid reg).exec k).2 := by
    rw [exec_interceptor]
    split
    · exact ⟨rfl, rfl, rfl, fun _ => rfl⟩
    · exact .refl k
  rw [Kernel.enter]
  split
  · dsimp only
    split
    · exact hlog.trans (.delPid ..)
    · exact hlog
  · exact .delPid ..
  · exact .refl k

end SameHooks

/-! ## The hooks of a history -/

/-- The function that the module leaves in the table for a system call it does not intercept. -/
def home (N : Numbers) (original : Nat → Nat) (s : Nat) : Handler :=
  if s = N.nrExitGroup then .myExitGroup else .kernel (original s)

/-- A system call is in the table as its own function, or it is intercepted: the table has the
interceptor, and its own function is saved. -/
structure Hooked (N : Numbers) (original : Nat → Nat) (k : Kernel) : Prop where
  custom : k.origCustomSyscall = .kernel (original myCustomSyscall)
  exitGroup : k.origExitGroup = .kernel (original N.nrExitGroup)
  free : ∀ s, 1 ≤ s → s < N.nrSyscalls → (k.table s).intercepted = 0 →
    k.sysCallTable s = home N original s
  hooked : ∀ s, 1 ≤ s → s < N.nrSyscalls → (k.table s).intercepted ≠ 0 →
    k.sysCallTable s = .interceptor ∧ (k.table s).f = home N original s
  rest : ∀ s, s = 0 ∨ N.nrSyscalls ≤ s →
    k.sysCallTable s ≠ .interceptor ∧ k.sysCallTable s ≠ .myExitGroup

variable {N : Numbers} {original : Nat → Nat} {k k' : Kernel}

theorem Hooked.congr (h : Hooked N original k) (hsame : SameHooks k k') :
    Hooked N original k' := by
  have hentry : ∀ s, (k'.table s).f = (k.table s).f ∧
      (k'.table s).intercepted = (k.table s).intercepted := fun s =>
    Prod.mk.inj (hsame.hook s)
  refine ⟨hsame.custom.trans h.custom, hsame.exitGroup.trans h.exitGroup, fun s h1 hs h0 => ?_,
    fun s h1 hs h0 => ?_, fun s hs => hsame.handlers ▸ h.rest s hs⟩
  · rw [(hentry s).2] at h0
    rw [hsame.handlers, h.free s h1 hs h0]
  · rw [(hentry s).2] at h0
    rw [hsame.handlers, (hentry s).1]
    exact h.hooked s h1 hs h0

/-- The table after `init_function`. -/
theorem sysCallTable_init : (after N original []).sysCallTable =
    Function.update (Function.update (fun s => .kernel (original s)) myCustomSyscall .mySyscall)
      N.nrExitGroup .myExitGroup := rfl

theorem hooked_init : Hooked N original (after N original []) := by
  have hpos := N.pos
  have hlt := N.lt
  refine ⟨rfl, ?_, fun s h1 hs _ => ?_, fun s _ hs h0 => ?_, fun s hs => ?_⟩
  · have hne : N.nrExitGroup ≠ myCustomSyscall := by
      simp only [myCustomSyscall]
      omega
    exact Function.update_of_ne hne ..
  · rw [sysCallTable_init, home]
    by_cases he : s = N.nrExitGroup
    · rw [if_pos he, he, Function.update_self]
    · have hne : s ≠ myCustomSyscall := by
        simp only [myCustomSyscall]
        omega
      rw [if_neg he, Function.update_of_ne he, Function.update_of_ne hne]
  · have hzero : ((after N original []).table s).intercepted = 0 := by
      change (if s < N.nrSyscalls then _ else _ : MyTable).intercepted = 0
      rw [if_pos hs]
    exact absurd hzero h0
  · rw [sysCallTable_init, Function.update_of_ne (by omega)]
    by_cases h0 : s = myCustomSyscall
    · rw [h0, Function.update_self]
      exact ⟨Handler.noConfusion, Handler.noConfusion⟩
    · rw [Function.update_of_ne h0]
      exact ⟨Handler.noConfusion, Handler.noConfusion⟩

/-- A command on one system call leaves the hooks of the others alone. -/
theorem Hooked.setHandler (h : Hooked N original k) {s : Nat} {t : MyTable} {f : Handler}
    (hs : 1 ≤ s ∧ s < N.nrSyscalls)
    (hfree : t.intercepted = 0 → f = home N original s)
    (hhooked : t.intercepted ≠ 0 → f = .interceptor ∧ t.f = home N original s) :
    Hooked N original ((k.mapEntry s fun _ => t).setHandler s f) := by
  refine ⟨h.custom, h.exitGroup, fun s' h1 hs' h0 => ?_, fun s' h1 hs' h0 => ?_,
    fun s' hs' => ?_⟩
  · by_cases heq : s' = s
    · subst heq
      simp only [Kernel.setHandler, Kernel.mapEntry, Function.update_self] at h0 ⊢
      exact hfree h0
    · simp only [Kernel.setHandler, Kernel.mapEntry, Function.update_of_ne heq] at h0 ⊢
      exact h.free s' h1 hs' h0
  · by_cases heq : s' = s
    · subst heq
      simp only [Kernel.setHandler, Kernel.mapEntry, Function.update_self] at h0 ⊢
      exact hhooked h0
    · simp only [Kernel.setHandler, Kernel.mapEntry, Function.update_of_ne heq] at h0 ⊢
      exact h.hooked s' h1 hs' h0
  · simp only [Kernel.setHandler, Kernel.mapEntry, Function.update_of_ne (show s' ≠ s by omega)]
    exact h.rest s' hs'

/-- One event keeps the hooks. -/
theorem Hooked.handle (h : Hooked N original k) {e : Event}
    (hrange : ∀ c, e = .command c → c.syscall < N.nrSyscalls) :
    Hooked N original (k.handle N e) := by
  cases e with
  | call pid reg => exact h.congr (.enter k pid reg)
  | command c =>
    have hc := hrange c rfl
    rw [Kernel.handle]
    by_cases hpass : Passes N k c
    · obtain ⟨h1, -, -, r, hr⟩ := hpass.range
      have hs : c.index < N.nrSyscalls := by
        simp only [Call.index] at h1 ⊢
        omega
      have hentry := hpass.entry
      rw [hr] at hentry
      rw [exec_of_passes hpass, exec_perform, hr]
      cases r with
      | intercept =>
        rw [exec_interceptSyscall]
        exact h.setHandler ⟨h1, hs⟩ (fun h0 => absurd h0 Nat.one_ne_zero) fun _ =>
          ⟨rfl, h.free _ h1 hs hentry⟩
      | release =>
        rw [exec_releaseSyscall]
        exact h.setHandler ⟨h1, hs⟩ (fun _ => (h.hooked _ h1 hs hentry).2) fun h0 => absurd rfl h0
      | startMonitoring => exact h.congr (.runEntry fun t => MyTable.hook_started t _ _)
      | stopMonitoring => exact h.congr (.runEntry fun t => MyTable.hook_stopped t _)
    · obtain ⟨code, -, hexec⟩ := exec_of_not_passes hpass
      rw [hexec]
      exact h

/-- Every history keeps the hooks. -/
theorem hooked_after {events : List Event} (hrange : InRange N events) :
    Hooked N original (after N original events) := by
  induction events with
  | nil => exact hooked_init
  | cons e earlier ih =>
    refine Hooked.handle (ih fun c hc => hrange c (List.mem_cons_of_mem e hc)) fun c hc => ?_
    exact hrange c (hc ▸ List.mem_cons_self)

/-! ## Unloading -/

/-- Every entry of the system call table is the kernel's own function. -/
def Restored (N : Numbers) (original : Nat → Nat) (k : Kernel) : Prop :=
  ∀ s, s < N.nrSyscalls → k.sysCallTable s = .kernel (original s)

/-- `exit_function` restores the table exactly when no system call other than `exit_group` is
still intercepted. -/
theorem restored_iff {events : List Event} (hrange : InRange N events) :
    Restored N original ((exitFunction N).exec (after N original events)).2 ↔
      ∀ s, 1 ≤ s → s < N.nrSyscalls → s ≠ N.nrExitGroup →
        ((after N original events).table s).intercepted = 0 := by
  have h : Hooked N original (after N original events) := hooked_after hrange
  generalize after N original events = k at h ⊢
  have htable : ((exitFunction N).exec k).2.sysCallTable =
      Function.update (Function.update k.sysCallTable myCustomSyscall k.origCustomSyscall)
        N.nrExitGroup k.origExitGroup := rfl
  have hother : ∀ s, 1 ≤ s → s ≠ N.nrExitGroup →
      ((exitFunction N).exec k).2.sysCallTable s = k.sysCallTable s := fun s h1 he => by
    have hne : s ≠ myCustomSyscall := by
      simp only [myCustomSyscall]
      omega
    rw [htable, Function.update_of_ne he, Function.update_of_ne hne]
  constructor
  · intro hrestored s h1 hs he
    by_contra h0
    have hkept := hrestored s hs
    rw [hother s h1 he, (h.hooked s h1 hs h0).1] at hkept
    cases hkept
  · intro hfree s hs
    by_cases he : s = N.nrExitGroup
    · rw [htable, he, Function.update_self, h.exitGroup]
    · by_cases h0 : s = 0
      · rw [htable, Function.update_of_ne he, h0, Function.update_self, h.custom]
      · rw [hother s (by omega) he, h.free s (by omega) hs (hfree s (by omega) hs he), home,
          if_neg he]

/-- Numbers of a small kernel. -/
def sampleNumbers : Numbers := ⟨10, 7, by decide, by decide⟩

/-- The commands of root on system call 5 and pid 1. -/
def rootCommand (cmd pid : Int) : Event := .command ⟨cmd, 5, pid, true, true, true, true⟩

theorem inRange_rootCommand {events : List Event} (h : InRange sampleNumbers events)
    (cmd pid : Int) : InRange sampleNumbers (rootCommand cmd pid :: events) := by
  intro c hc
  rcases List.mem_cons.mp hc with heq | hc
  · obtain rfl := Event.command.inj heq
    exact show (5 : Int) < 10 by decide
  · exact h c hc

theorem inRange_nil : InRange sampleNumbers [] := fun _ hc => absurd hc List.not_mem_nil

/-- After an intercept and a release the table is restored. -/
theorem restored_of_released : Restored sampleNumbers id ((exitFunction sampleNumbers).exec
    (after sampleNumbers id [rootCommand 2 0, rootCommand 1 0])).2 :=
  (restored_iff (inRange_rootCommand (inRange_rootCommand inRange_nil 1 0) 2 0)).mpr
    fun s _ hs _ => by
      have hzero : ∀ s < 10, ((after sampleNumbers id [rootCommand 2 0, rootCommand 1 0]).table
          s).intercepted = 0 := by decide
      exact hzero s hs

/-- After one intercept of system call 5 the table is not restored. -/
theorem not_restored : InRange sampleNumbers [rootCommand 1 0] ∧ ¬ Restored sampleNumbers id
    ((exitFunction sampleNumbers).exec (after sampleNumbers id [rootCommand 1 0])).2 := by
  refine ⟨inRange_rootCommand inRange_nil 1 0, fun h => ?_⟩
  have hkept := h 5 (by decide)
  revert hkept
  decide

end OsAssignments.Interceptor
