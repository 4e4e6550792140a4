import OsAssignments.Interceptor.Bookkeeping
import OsAssignments.Interceptor.Deadlock
import OsAssignments.Library.LockInvariant

/-!
# Tasks that share the bookkeeping

Any number of tasks run the functions of the loaded module, one operation of one task after
another. `sys_call_table` is changed under `calltable_lock` only, the bookkeeping and the log
under `pidlist_lock` only. While nobody holds `pidlist_lock`, the counts are right and no entry
monitors all processes, and whatever the tasks do, a call goes to no function but its own, its
replacement in the module, or the interceptor.
-/

namespace OsAssignments.Interceptor

open Code

/-! ## One entry -/

/-- The flag is 0 or 1, and the count is the length of the list. -/
structure MyTable.Counted (t : MyTable) : Prop where
  flag : t.monitored = 0 ∨ t.monitored = 1
  count : t.listcount = t.myList.length

namespace MyTable.Counted

variable {t : MyTable} {pid : Int}

theorem flagged (h : t.Counted) : ({ t with monitored := 1 } : MyTable).Counted :=
  ⟨.inr rfl, h.count⟩

theorem unflagged (h : t.Counted) : ({ t with monitored := 0 } : MyTable).Counted :=
  ⟨.inl rfl, h.count⟩

theorem addPid (h : t.Counted) (pid : Int) : (t.addPid pid).Counted := by
  refine ⟨h.flag, ?_⟩
  simp only [MyTable.addPid, h.count, List.length_cons]
  omega

theorem destroyList (t : MyTable) : t.destroyList.Counted := ⟨.inl rfl, rfl⟩

theorem unlinkPid (h : t.Counted) (hpid : pid ∈ t.myList) : (t.unlinkPid pid).Counted := by
  have hlen : (t.myList.erase pid).length = t.myList.length - 1 := List.length_erase_of_mem hpid
  have hpos := List.length_pos_of_mem hpid
  have hcount : t.listcount - 1 = (t.myList.erase pid).length := by
    rw [h.count, hlen]
    omega
  rw [MyTable.unlinkPid]
  by_cases hlast : t.listcount - 1 = 0 ∧ t.monitored = 1
  · simp only [if_pos hlast]
    exact ⟨.inl rfl, hcount⟩
  · simp only [if_neg hlast]
    exact ⟨h.flag, hcount⟩

/-- The loop of `del_pid` unlinks no more entries than the list has, however often the pid is
in it. -/
theorem delPid (h : t.Counted) (pid : Int) : (t.delPid pid).Counted := by
  have hloop : ∀ (qs : List Int) (t : MyTable), t.Counted →
      qs.count pid ≤ t.myList.count pid →
        (qs.foldl (fun t q => if q = pid then t.unlinkPid pid else t) t).Counted := by
    intro qs
    induction qs with
    | nil => exact fun _ h _ => h
    | cons q qs ih =>
      intro t h hle
      rw [List.foldl_cons]
      by_cases hq : q = pid
      · rw [hq, List.count_cons_self] at hle
        have hpid : pid ∈ t.myList := List.count_pos_iff.mp (by omega)
        rw [if_pos hq]
        refine ih _ (h.unlinkPid hpid) ?_
        rw [MyTable.myList_unlinkPid, List.count_erase_self]
        omega
      · rw [List.count_cons_of_ne hq] at hle
        rw [if_neg hq]
        exact ih t h hle
  exact hloop t.myList t h le_rfl

end MyTable.Counted

/-! ## What the tasks agree on -/

/-- A function that may be in the table for a system call, or saved for it. -/
def Fits (N : Numbers) (original : Nat → Nat) (s : Nat) (f : Handler) : Prop :=
  f = .interceptor ∨ f = .kernel (original s) ∨ f = home N original s

/-- The entry of a system call while nobody changes it. -/
structure Kept (N : Numbers) (original : Nat → Nat) (s : Nat) (t : MyTable) : Prop where
  counted : t.Counted
  saved : t.intercepted ≠ 0 → Fits N original s t.f

/-- The entries of all system calls while nobody changes them. -/
def Books (N : Numbers) (original : Nat → Nat) (k : Kernel) : Prop :=
  ∀ s, 1 ≤ s → s < N.nrSyscalls → Kept N original s (k.table s)

/-- Every function in the table fits its system call, and a system call that has the interceptor
there has such a function saved. -/
structure Installed (N : Numbers) (original : Nat → Nat) (k : Kernel) : Prop where
  exitGroup : k.origExitGroup = .kernel (original N.nrExitGroup)
  fits : ∀ s, 1 ≤ s → s < N.nrSyscalls → Fits N original s (k.sysCallTable s)
  saved : ∀ s, 1 ≤ s → s < N.nrSyscalls → k.sysCallTable s = .interceptor →
    Fits N original s (k.table s).f

/-- A message is about a process that is in the list of a system call that is monitored. -/
def Listed (N : Numbers) (k : Kernel) (pid : Int) (reg : PtRegs) : Prop :=
  1 ≤ reg.ax → reg.ax < N.nrSyscalls →
    (k.table reg.ax).monitored = 1 ∧ pid ∈ (k.table reg.ax).myList

/-- A change by a task that holds the locks `H`. -/
structure Change (N : Numbers) (original : Nat → Nat) (H : Set Lock) (k k' : Kernel) : Prop where
  handlers : .calltable ∉ H → k'.sysCallTable = k.sysCallTable
  entries : .pidlist ∉ H → k'.table = k.table
  log : k'.log = k.log ∨
    .pidlist ∈ H ∧ ∃ pid reg, k'.log = (pid, reg) :: k.log ∧ Listed N k pid reg
  installed : Installed N original k → Installed N original k'
  saved : ∀ s, 1 ≤ s → s < N.nrSyscalls → Fits N original s (k.table s).f →
    Fits N original s (k'.table s).f

/-- `pidlist_lock` promises the entries, and `calltable_lock` nothing but that the table does
not change. -/
def protocol (N : Numbers) (original : Nat → Nat) : Protocol Lock Kernel where
  may := Change N original
  inv
    | .pidlist => Books N original
    | .calltable => fun _ => True
  keeps := by
    intro l H k k' hl hmay hinv
    cases l with
    | pidlist => exact fun s h1 hs => hmay.entries hl ▸ hinv s h1 hs
    | calltable => trivial

variable {N : Numbers} {original : Nat → Nat} {H : Set Lock} {k k' : Kernel} {s : Nat}
  {α : Type}

theorem stable_installed : (protocol N original).Stable H (Installed N original) := by
  rintro k k' ⟨H', -, hmay⟩ hk
  exact hmay.installed hk

theorem stable_saved (h1 : 1 ≤ s) (hs : s < N.nrSyscalls) :
    (protocol N original).Stable H fun k => Fits N original s (k.table s).f := by
  rintro k k' ⟨H', -, hmay⟩ hf
  exact hmay.saved s h1 hs hf

theorem stable_table (h : .pidlist ∈ H) (T : (Nat → MyTable) → Prop) :
    (protocol N original).Stable H fun k => T k.table := by
  rintro k k' ⟨H', hdisjoint, hmay⟩ hT
  rwa [hmay.entries (hdisjoint _ h)]

/-! ## The changes of the module -/

/-- A task with `pidlist_lock` changes the entries, but for the saved functions. -/
theorem change_entries (hH : .pidlist ∈ H) {table : Nat → MyTable}
    (hf : ∀ s, 1 ≤ s → s < N.nrSyscalls → Fits N original s (k.table s).f →
      Fits N original s (table s).f) : Change N original H k { k with table := table } where
  handlers := fun _ => rfl
  entries := fun hnot => absurd hH hnot
  log := .inl rfl
  installed := fun h => ⟨h.exitGroup, h.fits, fun s h1 hs hint => hf s h1 hs (h.saved s h1 hs hint)⟩
  saved := hf

theorem change_mapEntry (hH : .pidlist ∈ H) {g : MyTable → MyTable}
    (hf : Fits N original s (k.table s).f → Fits N original s (g (k.table s)).f) :
    Change N original H k (k.mapEntry s g) := by
  refine change_entries hH fun s' _ _ h => ?_
  by_cases heq : s' = s
  · subst heq
    rw [Function.update_self]
    exact hf h
  · rwa [Function.update_of_ne heq]

theorem setHandler_self (f : Handler) : (k.setHandler s f).sysCallTable s = f :=
  Function.update_self ..

theorem setHandler_of_ne {s' : Nat} (hs : s' ≠ s) (f : Handler) :
    (k.setHandler s f).sysCallTable s' = k.sysCallTable s' :=
  Function.update_of_ne hs ..

/-- A task with `calltable_lock` puts a function that fits into the table. -/
theorem change_setHandler (hH : .calltable ∈ H) {f : Handler}
    (hf : 1 ≤ s → s < N.nrSyscalls →
      Fits N original s f ∧ (f = .interceptor → Fits N original s (k.table s).f)) :
    Change N original H k (k.setHandler s f) where
  handlers := fun hnot => absurd hH hnot
  entries := fun _ => rfl
  log := .inl rfl
  installed := by
    intro h
    refine ⟨h.exitGroup, fun s' h1 hs' => ?_, fun s' h1 hs' hint => ?_⟩ <;> by_cases heq : s' = s
    · subst heq
      rw [setHandler_self]
      exact (hf h1 hs').1
    · rw [setHandler_of_ne heq]
      exact h.fits s' h1 hs'
    · subst heq
      rw [setHandler_self] at hint
      exact (hf h1 hs').2 hint
    · rw [setHandler_of_ne heq] at hint
      exact h.saved s' h1 hs' hint
  saved := fun _ _ _ h => h

/-! ## Sections on one entry -/

/-- A task with `pidlist_lock` that works on the entry of `s`: the others are kept, and `E` holds
of this one. -/
structure AtEntry (N : Numbers) (original : Nat → Nat) (s : Nat) (E : MyTable → Prop)
    (k : Kernel) : Prop where
  installed : Installed N original k
  others : ∀ s', 1 ≤ s' → s' < N.nrSyscalls → s' ≠ s → Kept N original s' (k.table s')
  entry : E (k.table s)

variable {E F : MyTable → Prop} {f : Unit → KernelM α}

theorem stable_atEntry (h : .pidlist ∈ H) :
    (protocol N original).Stable H (AtEntry N original s E) := by
  intro k k' hother hk
  obtain ⟨hothers, hentry⟩ := stable_table (N := N) h
    (fun table => (∀ s', 1 ≤ s' → s' < N.nrSyscalls → s' ≠ s → Kept N original s' (table s')) ∧
      E (table s)) k k' hother ⟨hk.others, hk.entry⟩
  exact ⟨stable_installed k k' hother hk.installed, hothers, hentry⟩

theorem AtEntry.mono (hk : AtEntry N original s E k) (hE : E (k.table s) → F (k.table s)) :
    AtEntry N original s F k :=
  ⟨hk.installed, hk.others, hE hk.entry⟩

theorem AtEntry.mapEntry (hk : AtEntry N original s E k) {g : MyTable → MyTable}
    (hf : Fits N original s (k.table s).f → Fits N original s (g (k.table s)).f)
    (hE : F (g (k.table s))) : AtEntry N original s F (k.mapEntry s g) := by
  refine ⟨(change_mapEntry (Set.mem_singleton _) hf).installed hk.installed,
    fun s' h1 hs' hne => ?_, ?_⟩
  · rw [Kernel.mapEntry_table_of_ne hne]
    exact hk.others s' h1 hs' hne
  · rw [Kernel.mapEntry_table_self]
    exact hE

/-- The entries when the work on one of them is done. -/
theorem AtEntry.books (hk : AtEntry N original s E k) (hE : E (k.table s) →
    Kept N original s (k.table s)) : Books N original k := by
  intro s' h1 hs'
  by_cases heq : s' = s
  · exact heq ▸ hE hk.entry
  · exact hk.others s' h1 hs' heq

theorem follows_mapEntry (hk : AtEntry N original s E k) {g : MyTable → MyTable}
    (hf : ∀ t, (g t).f = t.f) (hE : ∀ t, E t → F (g t))
    (h : ∀ k', AtEntry N original s F k' →
      (f ()).Follows (protocol N original) {.pidlist} k') :
    ((Code.modify fun k => k.mapEntry s g) >>= f).Follows (protocol N original) {.pidlist} k := by
  have hmem : Lock.pidlist ∈ ({.pidlist} : Set Lock) := Set.mem_singleton _
  refine follows_modify (stable_atEntry hmem) hk fun k' hk' => ?_
  have hkeep : Fits N original s (k'.table s).f → Fits N original s (g (k'.table s)).f :=
    fun hfits => (hf _).symm ▸ hfits
  exact ⟨change_mapEntry hmem hkeep, h _ (hk'.mapEntry hkeep (hE _ hk'.entry))⟩

/-- The work on an entry starts. -/
theorem follows_lock (h1 : 1 ≤ s) (hs : s < N.nrSyscalls) {B : Kernel → Prop}
    (hB : (protocol N original).Stable ∅ B) (hinstalled : Installed N original k) (hk : B k)
    (h : ∀ k', AtEntry N original s (Kept N original s) k' → B k' →
      (f ()).Follows (protocol N original) {.pidlist} k') :
    (spinLock .pidlist >>= f).Follows (protocol N original) ∅ k := by
  refine follows_acquire (stable_installed.and hB) ⟨hinstalled, hk⟩ fun k' hk' hbooks => ?_
  rw [insert_empty_eq]
  exact h k' ⟨hk'.1, fun s' h1 hs' _ => hbooks s' h1 hs', hbooks s h1 hs⟩ hk'.2

/-- The work on an entry ends. -/
theorem follows_unlock (hk : AtEntry N original s E k)
    (hE : ∀ t, E t → Kept N original s t)
    (h : ∀ k', Installed N original k' → E (k'.table s) →
      (f ()).Follows (protocol N original) ∅ k') :
    (spinUnlock .pidlist >>= f).Follows (protocol N original) {.pidlist} k := by
  have hmem : Lock.pidlist ∈ ({.pidlist} : Set Lock) := Set.mem_singleton _
  refine follows_release (stable_atEntry hmem) hk hmem fun k' hk' => ⟨hk'.books (hE _), ?_⟩
  rw [Set.sdiff_self]
  exact h k' hk'.installed hk'.entry

/-! ## The commands -/

theorem follows_addPidSysc (hk : AtEntry N original s (Kept N original s) k) (pid : Int)
    (memory : Bool) :
    (addPidSysc s pid memory).Follows (protocol N original) {.pidlist} k := by
  cases memory with
  | true =>
    refine follows_mapEntry hk (fun _ => rfl) (F := Kept N original s)
      (fun t h => ⟨h.counted.addPid pid, h.saved⟩) fun k' hk' => ?_
    exact follows_unlock hk' (fun _ => id) fun _ _ _ => rfl
  | false => exact follows_unlock hk (fun _ => id) fun _ _ _ => rfl

theorem follows_delPidSysc (hk : AtEntry N original s (Kept N original s) k) (pid : Int) :
    (delPidSysc s pid).Follows (protocol N original) {.pidlist} k := by
  refine follows_get (stable_atEntry (Set.mem_singleton _)) hk fun k' hk' => ?_
  by_cases hpid : (k'.table s).checkPidMonitored pid = true
  · rw [if_pos hpid]
    have hmem : pid ∈ (k'.table s).myList := of_decide_eq_true hpid
    have hlisted := hk'.mono (fun h => And.intro h hmem)
      (F := fun t => Kept N original s t ∧ pid ∈ t.myList)
    refine follows_mapEntry hlisted (fun t => (Prod.mk.inj (MyTable.hook_unlinkPid t pid)).1)
      (F := Kept N original s) (fun t h => ⟨h.1.counted.unlinkPid h.2, ?_⟩) fun k'' hk'' => ?_
    · obtain ⟨hf, hint⟩ := Prod.mk.inj (MyTable.hook_unlinkPid t pid)
      rw [hf, hint]
      exact h.1.saved
    · exact follows_unlock hk'' (fun _ => id) fun _ _ _ => rfl
  · rw [if_neg hpid]
    exact follows_unlock hk' (fun _ => id) fun _ _ _ => rfl

/-- Monitoring all processes sets the flag and clears it again under the lock, and so does
monitoring none. -/
theorem follows_destroyList (hk : AtEntry N original s (Kept N original s) k) (flag : Nat) :
    (do
      Code.modify fun k => k.mapEntry s fun t => { t with monitored := flag }
      Code.modify fun k => k.mapEntry s MyTable.destroyList
      spinUnlock .pidlist
      return 0 : KernelM Int).Follows (protocol N original) {.pidlist} k := by
  refine follows_mapEntry hk (fun _ => rfl) (F := fun t => t.intercepted ≠ 0 →
    Fits N original s t.f) (fun t h => h.saved) fun k' hk' => ?_
  refine follows_mapEntry hk' (fun _ => rfl) (F := Kept N original s)
    (fun t h => ⟨MyTable.Counted.destroyList t, h⟩) fun k'' hk'' => ?_
  exact follows_unlock hk'' (fun _ => id) fun _ _ _ => rfl

theorem stable_true : (protocol N original).Stable H fun _ => True := fun _ _ _ _ => trivial

theorem follows_startMonitoring (h1 : 1 ≤ s) (hs : s < N.nrSyscalls)
    (hk : Installed N original k) (pid : Int) (memory : Bool) :
    (startMonitoring s pid memory).Follows (protocol N original) ∅ k := by
  refine follows_lock h1 hs stable_true hk trivial fun k' hk' _ => ?_
  by_cases hzero : pid = 0
  · rw [if_pos hzero]
    exact follows_destroyList hk' 2
  · rw [if_neg hzero]
    refine follows_get (stable_atEntry (Set.mem_singleton _)) hk' fun k'' hk'' => ?_
    by_cases hall : (k''.table s).monitored ≠ 2
    · rw [if_pos hall]
      refine follows_mapEntry hk'' (fun _ => rfl) (F := Kept N original s)
        (fun t h => ⟨h.counted.flagged, h.saved⟩) fun k₃ hk₃ => ?_
      exact follows_addPidSysc hk₃ pid memory
    · rw [if_neg hall]
      exact follows_delPidSysc hk'' pid

theorem follows_stopMonitoring (h1 : 1 ≤ s) (hs : s < N.nrSyscalls)
    (hk : Installed N original k) (pid : Int) (memory : Bool) :
    (stopMonitoring s pid memory).Follows (protocol N original) ∅ k := by
  refine follows_lock h1 hs stable_true hk trivial fun k' hk' _ => ?_
  by_cases hzero : pid = 0
  · rw [if_pos hzero]
    exact follows_destroyList hk' 0
  · rw [if_neg hzero]
    refine follows_mapEntry hk' (fun _ => rfl) (F := Kept N original s)
      (fun t h => ⟨h.counted.flagged, h.saved⟩) fun k'' hk'' => ?_
    refine follows_get (stable_atEntry (Set.mem_singleton _)) hk'' fun k₃ hk₃ => ?_
    by_cases hall : (k₃.table s).monitored = 2
    · rw [if_pos hall]
      exact follows_addPidSysc hk₃ pid memory
    · rw [if_neg hall]
      exact follows_delPidSysc hk₃ pid

/-- What an intercept has saved fits, so that the interceptor may be put into the table. -/
theorem follows_installInterceptor (h1 : 1 ≤ s) (hs : s < N.nrSyscalls)
    (hk : Installed N original k) (hsaved : Fits N original s (k.table s).f) :
    (installInterceptor s).Follows (protocol N original) ∅ k := by
  refine follows_acquire (stable_installed.and (stable_saved h1 hs)) ⟨hk, hsaved⟩
    fun k' hk' _ => ?_
  rw [insert_empty_eq]
  have hmem : Lock.calltable ∈ ({.calltable} : Set Lock) := Set.mem_singleton _
  refine follows_modify (stable_installed.and (stable_saved h1 hs)) hk' fun k'' hk'' => ?_
  refine ⟨change_setHandler hmem fun _ _ => ⟨.inl rfl, fun _ => hk''.2⟩, ?_⟩
  refine follows_release stable_true trivial hmem fun k₃ _ => ⟨trivial, ?_⟩
  rw [Set.sdiff_self]
  exact follows_pure.mpr rfl

theorem follows_interceptSyscall (h1 : 1 ≤ s) (hs : s < N.nrSyscalls)
    (hk : Installed N original k) :
    (interceptSyscall s).Follows (protocol N original) ∅ k := by
  refine follows_lock h1 hs stable_true hk trivial fun k' hk' _ => ?_
  refine follows_mapEntry hk' (fun _ => rfl) (F := MyTable.Counted)
    (fun t h => ⟨h.counted.flag, h.counted.count⟩) fun k'' hk'' => ?_
  have hmem : Lock.pidlist ∈ ({.pidlist} : Set Lock) := Set.mem_singleton _
  refine follows_modify (stable_atEntry hmem) hk'' fun k₃ hk₃ => ?_
  have hfits := hk₃.installed.fits s h1 hs
  refine ⟨change_mapEntry hmem fun _ => hfits, ?_⟩
  have hsaved : AtEntry N original s (fun t => t.Counted ∧ Fits N original s t.f)
      (k₃.mapEntry s fun t => { t with f := k₃.sysCallTable s }) :=
    hk₃.mapEntry (fun _ => hfits) ⟨⟨hk₃.entry.flag, hk₃.entry.count⟩, hfits⟩
  refine follows_unlock hsaved (fun t h => ⟨h.1, fun _ => h.2⟩) fun k₄ hk₄ hentry => ?_
  exact follows_installInterceptor h1 hs hk₄ hentry.2

/-- A release puts back the saved function. -/
theorem follows_releaseSyscall (h1 : 1 ≤ s) (hs : s < N.nrSyscalls)
    (hk : Installed N original k) (hsaved : Fits N original s (k.table s).f) :
    (releaseSyscall s).Follows (protocol N original) ∅ k := by
  refine follows_lock h1 hs (stable_saved h1 hs) hk hsaved fun k₁ hk₁ hfits => ?_
  have hentry := hk₁.mono (F := fun t => Kept N original s t ∧ Fits N original s t.f)
    fun h => ⟨h, hfits⟩
  refine follows_mapEntry hentry (fun _ => rfl)
    (F := fun t => Kept N original s t ∧ Fits N original s t.f)
    (fun t h => ⟨⟨⟨h.1.counted.flag, h.1.counted.count⟩, fun _ => h.2⟩, h.2⟩) fun k₂ hk₂ => ?_
  refine follows_mapEntry hk₂ (fun _ => rfl)
    (F := fun t => Kept N original s t ∧ Fits N original s t.f)
    (fun t h => ⟨⟨h.1.counted.unflagged, h.1.saved⟩, h.2⟩) fun k₃ hk₃ => ?_
  have hmem : Lock.pidlist ∈ ({.pidlist} : Set Lock) := Set.mem_singleton _
  refine follows_acquire (stable_atEntry hmem) hk₃ fun k₄ hk₄ _ => ?_
  refine follows_modify (stable_atEntry (Set.mem_insert_of_mem _ hmem)) hk₄ fun k₅ hk₅ => ?_
  have hchange : Change N original (insert .calltable {.pidlist}) k₅
      (k₅.setHandler s (k₅.table s).f) :=
    change_setHandler (Set.mem_insert ..) fun _ _ => ⟨hk₅.entry.2, fun _ => hk₅.entry.2⟩
  have hput : AtEntry N original s (fun t => Kept N original s t ∧ Fits N original s t.f)
      (k₅.setHandler s (k₅.table s).f) :=
    ⟨hchange.installed hk₅.installed, hk₅.others, hk₅.entry⟩
  refine ⟨hchange, follows_release (stable_atEntry (Set.mem_insert_of_mem _ hmem)) hput
    (Set.mem_insert ..) fun k₆ hk₆ => ⟨trivial, ?_⟩⟩
  rw [Set.insert_sdiff_self_of_notMem (by simp)]
  exact follows_unlock hk₆ (fun t h => h.1) fun _ _ _ => rfl

theorem follows_perform {c : Call} (h1 : 1 ≤ c.index) (hs : c.index < N.nrSyscalls)
    (hk : Installed N original k)
    (hsaved : Request.ofInt c.cmd = some .release →
      Fits N original c.index (k.table c.index).f) :
    (perform c).Follows (protocol N original) ∅ k := by
  rw [perform]
  cases hr : Request.ofInt c.cmd with
  | none => exact follows_pure.mpr rfl
  | some r =>
    cases r with
    | intercept => exact follows_interceptSyscall h1 hs hk
    | release => exact follows_releaseSyscall h1 hs hk (hsaved hr)
    | startMonitoring => exact follows_startMonitoring h1 hs hk _ _
    | stopMonitoring => exact follows_stopMonitoring h1 hs hk _ _

/-- A release that gets through the check of the context has a function saved. -/
theorem intercepted_of_checkContext {c : Call} (h : checkContext k c = none)
    (hr : Request.ofInt c.cmd = some .release) : (k.table c.index).intercepted ≠ 0 := by
  intro hzero
  simp [checkContext, hr, hzero] at h

theorem follows_mySyscall {c : Call} (hc : c.syscall < N.nrSyscalls)
    (hk : Installed N original k) :
    (mySyscall N c).Follows (protocol N original) ∅ k := by
  rw [mySyscall]
  cases ha : checkArguments N c with
  | some code => exact follows_pure.mpr rfl
  | none =>
    have h1 := (range_of_checkArguments ha).1
    have hs : c.index < N.nrSyscalls := by
      simp only [Call.index] at h1 ⊢
      omega
    refine follows_lock h1 hs stable_true hk trivial fun k₁ hk₁ _ => ?_
    refine follows_get (stable_atEntry (Set.mem_singleton _)) hk₁ fun k₂ hk₂ => ?_
    cases hcontext : checkContext k₂ c with
    | some code => exact follows_unlock hk₂ (fun _ => id) fun _ _ _ => rfl
    | none =>
      have hentry := hk₂.mono (F := fun t => Kept N original c.index t ∧
          (Request.ofInt c.cmd = some .release → Fits N original c.index t.f))
        fun h => ⟨h, fun hr => h.saved (intercepted_of_checkContext hcontext hr)⟩
      exact follows_unlock hentry (fun t h => h.1) fun k₃ hk₃ h =>
        follows_perform h1 hs hk₃ h.2

/-! ## The other functions -/

/-- A task with all entries in its hands leaves them kept. -/
theorem follows_entries {g : Kernel → (Nat → MyTable)} (hk : Installed N original k)
    (hg : ∀ k s, 1 ≤ s → s < N.nrSyscalls →
      (g k s).f = (k.table s).f ∧ (Kept N original s (k.table s) → Kept N original s (g k s)))
    (hf : ∀ k', (f ()).Follows (protocol N original) ∅ k') :
    (do
      spinLock .pidlist
      Code.modify fun k => { k with table := g k }
      spinUnlock .pidlist
      f () : KernelM α).Follows (protocol N original) ∅ k := by
  refine follows_acquire stable_installed hk fun k₁ hk₁ hbooks => ?_
  rw [insert_empty_eq]
  have hmem : Lock.pidlist ∈ ({.pidlist} : Set Lock) := Set.mem_singleton _
  refine follows_modify (Protocol.stable_inv hmem) hbooks fun k₂ hk₂ => ?_
  refine ⟨change_entries hmem fun s h1 hs hfits => (hg k₂ s h1 hs).1.symm ▸ hfits, ?_⟩
  have hkept : Books N original { k₂ with table := g k₂ } := fun s h1 hs =>
    (hg k₂ s h1 hs).2 (hk₂ s h1 hs)
  refine follows_release (Protocol.stable_inv hmem) hkept hmem fun k₃ hk₃ => ⟨hk₃, ?_⟩
  rw [Set.sdiff_self]
  exact hf k₃

theorem Kept.delPid {t : MyTable} (h : Kept N original s t) (pid : Int) :
    Kept N original s (t.delPid pid) := by
  obtain ⟨hf, hint⟩ := Prod.mk.inj (MyTable.hook_delPid t pid)
  refine ⟨h.counted.delPid pid, ?_⟩
  rw [hf, hint]
  exact h.saved

theorem follows_myExitGroup (hk : Installed N original k) (pid : Int) :
    (myExitGroup N pid).Follows (protocol N original) ∅ k := by
  refine follows_entries (f := fun _ => do return (← Code.get).origExitGroup) (g := fun k s =>
    if 1 ≤ s ∧ s < N.nrSyscalls then (k.table s).delPid pid else k.table s) hk
    (fun k s h1 hs => ?_) fun k' => ?_
  · rw [if_pos ⟨h1, hs⟩]
    exact ⟨(Prod.mk.inj (MyTable.hook_delPid _ pid)).1, fun h => h.delPid pid⟩
  · exact follows_get stable_true trivial fun _ _ => rfl

theorem follows_interceptor (hk : Installed N original k) (pid : Int) (reg : PtRegs) :
    (interceptor pid reg).Follows (protocol N original) ∅ k := by
  refine follows_acquire stable_installed hk fun k₁ hk₁ _ => ?_
  refine follows_acquire stable_installed hk₁ fun k₂ _ hbooks => ?_
  have hmem : Lock.pidlist ∈ insert Lock.pidlist (insert Lock.calltable ∅) := Set.mem_insert ..
  refine follows_modify (Protocol.stable_inv hmem) hbooks fun k₃ hk₃ => ?_
  have hlisted : (k₃.table reg.ax).logs pid = true → Listed N k₃ pid reg := by
    intro hlogs h1 hs
    have hflag := (hk₃ _ h1 hs).counted.flag
    have hnot : (k₃.table reg.ax).monitored ≠ 2 := by
      rcases hflag with h | h <;> omega
    simpa [MyTable.logs, MyTable.checkPidMonitored, hnot] using hlogs
  have hchange : Change N original (insert .pidlist (insert .calltable ∅)) k₃
      (if (k₃.table reg.ax).logs pid then k₃.logMessage pid reg else k₃) := by
    split
    · next hlogs =>
      exact ⟨fun _ => rfl, fun _ => rfl, .inr ⟨hmem, pid, reg, rfl, hlisted hlogs⟩,
        fun h => ⟨h.exitGroup, h.fits, h.saved⟩, fun _ _ _ h => h⟩
    · exact ⟨fun _ => rfl, fun _ => rfl, .inl rfl, id, fun _ _ _ h => h⟩
  have hkept : Books N original
      (if (k₃.table reg.ax).logs pid then k₃.logMessage pid reg else k₃) := by
    split
    · exact hk₃
    · exact hk₃
  refine ⟨hchange, follows_release (Protocol.stable_inv hmem) hkept hmem
    fun k₄ hk₄ => ⟨hk₄, ?_⟩⟩
  refine follows_release stable_true trivial (by simp) fun k₅ _ => ⟨trivial, ?_⟩
  refine follows_get stable_true trivial fun k₆ _ => follows_pure.mpr ?_
  ext l
  cases l <;> simp

/-- `exit_function` puts the saved function of `exit_group` back. -/
theorem follows_exitFunction (hk : Installed N original k) :
    (exitFunction N).Follows (protocol N original) ∅ k := by
  refine follows_acquire stable_installed hk fun k₁ hk₁ _ => ?_
  rw [insert_empty_eq]
  have hmem : Lock.calltable ∈ ({.calltable} : Set Lock) := Set.mem_singleton _
  refine follows_modify stable_installed hk₁ fun k₂ hk₂ => ?_
  have hcustom : Change N original {.calltable} k₂
      (k₂.setHandler myCustomSyscall k₂.origCustomSyscall) :=
    change_setHandler hmem fun h1 _ => absurd h1 (by decide)
  refine ⟨hcustom, follows_modify stable_installed (hcustom.installed hk₂) fun k₃ hk₃ => ?_⟩
  have hfits : k₃.origExitGroup = .kernel (original N.nrExitGroup) := hk₃.exitGroup
  have hexit : Change N original {.calltable} k₃
      (k₃.setHandler N.nrExitGroup k₃.origExitGroup) :=
    change_setHandler hmem fun _ _ =>
      ⟨.inr (.inl hfits), fun h => Handler.noConfusion (hfits.symm.trans h)⟩
  refine ⟨hexit, follows_release stable_installed (hexit.installed hk₃) hmem
    fun k₄ hk₄ => ⟨trivial, ?_⟩⟩
  rw [Set.sdiff_self]
  refine follows_entries (f := pure) (g := fun k s => if s < N.nrSyscalls then
    { (k.table s).destroyList with listcount := 0, monitored := 0, intercepted := 0 }
    else k.table s) hk₄ (fun k s _ hs => ?_) fun _ => rfl
  rw [if_pos hs]
  exact ⟨rfl, fun _ => ⟨⟨.inl rfl, rfl⟩, fun hne => absurd rfl hne⟩⟩

/-! ## Runs -/

/-- The module has been loaded and no task runs anything. -/
def loaded (N : Numbers) (original : Nat → Nat) : Machine Lock Kernel where
  code := fun _ => .ret ()
  owner := fun _ => none
  state := after N original []

/-- The module is not loaded again, and commands are about system calls below `NR_syscalls`. -/
def Proper (N : Numbers) (_ : Machine Lock Kernel) : Move EntryPoint → Prop
  | .start _ .initFunction => False
  | .start _ (.mySyscall c) => c.syscall < N.nrSyscalls
  | _ => True

variable {M M' : Machine Lock Kernel} {moves : List (Move EntryPoint)} {move : Move EntryPoint}

theorem EntryPoint.follows {t : Nat} {e : EntryPoint} (hproper : Proper N M (.start t e))
    (hk : Installed N original k) : (e.body N).Follows (protocol N original) ∅ k := by
  cases e with
  | interceptor pid reg => exact (follows_interceptor hk pid reg).void
  | mySyscall c => exact (follows_mySyscall hproper hk).void
  | myExitGroup pid => exact (follows_myExitGroup hk pid).void
  | initFunction => exact hproper.elim
  | exitFunction => exact follows_exitFunction hk

/-- The table of a module that has just been loaded. -/
theorem installed_init : Installed N original (after N original []) := by
  have h : Hooked N original (after N original []) := hooked_init
  have hfree : ∀ s, 1 ≤ s → s < N.nrSyscalls →
      (after N original []).sysCallTable s = home N original s := fun s h1 hs => by
    refine h.free s h1 hs ?_
    rw [table_after_nil hs]
  refine ⟨h.exitGroup, fun s h1 hs => .inr (.inr (hfree s h1 hs)), fun s h1 hs hint => ?_⟩
  exact absurd ((hfree s h1 hs).symm.trans hint) (home_ne N original s)

/-- In every run all tasks keep to the protocol. -/
theorem obeys_of_runs
    (hrun : Machine.Runs (EntryPoint.body N) (Proper N) (loaded N original) moves M) :
    M.Obeys (protocol N original) ∧ Installed N original M.state := by
  have hfree : ∀ l, (protocol N original).inv l (after N original []) := by
    rintro (_ | _)
    · intro s h1 hs
      rw [table_after_nil hs]
      exact ⟨⟨.inl rfl, rfl⟩, fun hne => absurd rfl hne⟩
    · trivial
  have hstart : (loaded N original).Obeys (protocol N original) :=
    ⟨fun t => by ext l; simp [Machine.held, loaded], fun l _ => hfree l⟩
  exact hstart.run (fun H k k' hmay => hmay.installed)
    (fun M t e hproper hk => EntryPoint.follows hproper hk) hrun installed_init

/-- What a move in a run changes is what a task with the right locks may change. -/
theorem change_of_runs
    (hrun : Machine.Runs (EntryPoint.body N) (Proper N) (loaded N original) moves M)
    (hproper : Proper N M move) (hstep : M.step (EntryPoint.body N) move = some M') :
    M'.state = M.state ∨
      ∃ t, move = .advance t ∧ Change N original (M.held t) M.state M'.state := by
  obtain ⟨hobeys, hinstalled⟩ := obeys_of_runs hrun
  exact (hobeys.step (fun t e he => EntryPoint.follows (he ▸ hproper) hinstalled) hstep).2

/-- Root has process 1 monitored for system call 5, and the process makes the call. -/
def monitoring : List (Move EntryPoint) :=
  .start 0 (.mySyscall ⟨3, 5, 1, true, true, true, true⟩) :: List.replicate 8 (.advance 0) ++
  .start 1 (.interceptor 1 callFive) :: List.replicate 5 (.advance 1)

theorem proper_monitoring (n : Nat) :
    ∀ move ∈ monitoring.take n, ∀ M, Proper sampleNumbers M move := by
  intro move hmem M
  have hmem := List.mem_of_mem_take hmem
  simp only [monitoring, List.mem_append, List.mem_cons, List.mem_replicate] at hmem
  rcases hmem with (rfl | ⟨-, rfl⟩) | rfl | ⟨-, rfl⟩
  · exact show (5 : Int) < 10 by decide
  · trivial
  · trivial
  · trivial

theorem advances (t : Nat) (M : Machine Lock Kernel) : Proper sampleNumbers M (.advance t) :=
  trivial

/-- What is decided of the state after some of the moves holds after a run. -/
theorem exists_monitoring {n : Nat} {A : Machine Lock Kernel → Prop} [DecidablePred A]
    (h : ((loaded sampleNumbers id).stepAll (EntryPoint.body sampleNumbers)
      (monitoring.take n)).any (fun M => A M) = true) :
    ∃ moves M, Machine.Runs (EntryPoint.body sampleNumbers) (Proper sampleNumbers)
      (loaded sampleNumbers id) moves M ∧ A M := by
  obtain ⟨M, hM, hA⟩ := (Option.any_eq_true _ _).mp h
  exact ⟨_, M, Machine.Runs.nil.replay (proper_monitoring n) hM, of_decide_eq_true hA⟩

/-- In every run, `sys_call_table` is changed only by the task that holds `calltable_lock`, and
the bookkeeping and the log only by the task that holds `pidlist_lock`. -/
theorem changes_guarded
    (hrun : Machine.Runs (EntryPoint.body N) (Proper N) (loaded N original) moves M)
    (hproper : Proper N M move) (hstep : M.step (EntryPoint.body N) move = some M') :
    (M'.state.sysCallTable ≠ M.state.sysCallTable →
      ∃ t, move = .advance t ∧ M.owner .calltable = some t) ∧
    (M'.state.table ≠ M.state.table ∨ M'.state.log ≠ M.state.log →
      ∃ t, move = .advance t ∧ M.owner .pidlist = some t) := by
  rcases change_of_runs hrun hproper hstep with heq | ⟨t, rfl, hchange⟩
  · rw [heq]
    exact ⟨fun hne => absurd rfl hne, fun hne => (hne.elim (absurd rfl) (absurd rfl))⟩
  · refine ⟨fun hne => ⟨t, rfl, ?_⟩, fun hne => ⟨t, rfl, ?_⟩⟩
    · by_contra hnot
      exact hne (hchange.handlers hnot)
    · by_contra hnot
      rcases hne with hne | hne
      · exact hne (hchange.entries hnot)
      · rcases hchange.log with hlog | ⟨hmem, -⟩
        · exact hne hlog
        · exact hnot hmem

/-- The start of monitoring sets the flag as the owner of `pidlist_lock`. -/
theorem changes_guarded_of_monitoring : ∃ M M' : Machine Lock Kernel,
    M.step (EntryPoint.body sampleNumbers) (.advance 0) = some M' ∧
      (M'.state.table ≠ M.state.table → M.owner .pidlist = some 0) := by
  obtain ⟨moves, M, hrun, hM⟩ := exists_monitoring (n := 6)
    (A := fun M => (M.step (EntryPoint.body sampleNumbers) (.advance 0)).isSome) (by decide)
  obtain ⟨M', hstep⟩ := Option.isSome_iff_exists.mp hM
  refine ⟨M, M', hstep, fun hne => ?_⟩
  obtain ⟨t, ht, howner⟩ := (changes_guarded hrun (advances 0 M) hstep).2 (.inl hne)
  obtain rfl := Move.advance.inj ht
  exact howner

/-- In every run, while nobody holds `pidlist_lock`, every count is the length of its list and no
entry monitors all processes. -/
theorem counted_of_runs
    (hrun : Machine.Runs (EntryPoint.body N) (Proper N) (loaded N original) moves M)
    (hfree : M.owner .pidlist = none) {s : Nat} (h1 : 1 ≤ s) (hs : s < N.nrSyscalls) :
    (M.state.table s).Counted :=
  ((obeys_of_runs hrun).1.free .pidlist hfree s h1 hs).counted

/-- The count of system call 5 when process 1 is monitored. -/
theorem counted_of_monitoring : ∃ M : Machine Lock Kernel,
    (M.state.table 5).myList = [1] ∧ (M.state.table 5).Counted := by
  obtain ⟨moves, M, hrun, hM⟩ := exists_monitoring (n := 9)
    (A := fun M => M.owner .pidlist = none ∧ (M.state.table 5).myList = [1]) (by decide)
  exact ⟨M, hM.2, counted_of_runs hrun hM.1 (by decide) (by decide)⟩

/-- In every run, a message is about a process that is in the list of the system call it makes. -/
theorem listed_of_runs
    (hrun : Machine.Runs (EntryPoint.body N) (Proper N) (loaded N original) moves M)
    (hproper : Proper N M move) (hstep : M.step (EntryPoint.body N) move = some M')
    {pid : Int} {reg : PtRegs} (hlog : M'.state.log = (pid, reg) :: M.state.log) :
    Listed N M.state pid reg := by
  have hne : M'.state.log ≠ M.state.log := hlog ▸ List.cons_ne_self _ _
  rcases change_of_runs hrun hproper hstep with heq | ⟨t, -, hchange⟩
  · exact absurd (congrArg Kernel.log heq) hne
  · obtain ⟨-, pid', reg', hlog', hlisted⟩ := hchange.log.resolve_left hne
    obtain ⟨rfl, rfl⟩ := Prod.mk.inj (List.cons.inj (hlog.symm.trans hlog')).1
    exact hlisted

/-- The call of process 1 is logged, and the process is in the list. -/
theorem listed_of_monitoring : ∃ M : Machine Lock Kernel,
    Listed sampleNumbers M.state 1 callFive := by
  obtain ⟨moves, M, hrun, hM⟩ := exists_monitoring (n := 12)
    (A := fun M => (M.step (EntryPoint.body sampleNumbers) (.advance 1)).any
      fun M' => M'.state.log = (1, callFive) :: M.state.log) (by decide)
  obtain ⟨M', hstep, hlog⟩ := (Option.any_eq_true _ _).mp hM
  exact ⟨M, listed_of_runs hrun (advances 1 M) hstep (of_decide_eq_true hlog)⟩

/-- In every run, the table has for each system call its own function, its replacement in the
module or the interceptor, and where it has the interceptor, such a function is saved. -/
theorem fits_of_runs
    (hrun : Machine.Runs (EntryPoint.body N) (Proper N) (loaded N original) moves M)
    {s : Nat} (h1 : 1 ≤ s) (hs : s < N.nrSyscalls) :
    Fits N original s (M.state.sysCallTable s) ∧
      (M.state.sysCallTable s = .interceptor → Fits N original s (M.state.table s).f) :=
  ⟨(obeys_of_runs hrun).2.fits s h1 hs, (obeys_of_runs hrun).2.saved s h1 hs⟩

/-- The function of system call 5 when process 1 makes the call. -/
theorem fits_of_monitoring : ∃ M : Machine Lock Kernel,
    M.state.log = [(1, callFive)] ∧ Fits sampleNumbers id 5 (M.state.sysCallTable 5) := by
  obtain ⟨moves, M, hrun, hM⟩ := exists_monitoring (n := 15)
    (A := fun M => M.state.log = [(1, callFive)]) (by decide)
  exact ⟨M, hM, (fits_of_runs hrun (by decide) (by decide)).1⟩

end OsAssignments.Interceptor
