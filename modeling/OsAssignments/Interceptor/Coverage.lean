import OsAssignments.Interceptor.Unload

/-!
# The numbers that the bookkeeping covers

The check of `my_syscall` lets the numbers from 1 to `NR_syscalls` through. The loops over the
bookkeeping and the system call table end before `NR_syscalls`. A list head that has not been
initialised holds the null pointers of static data, so that there is no list to walk.
-/

namespace OsAssignments.Interceptor

open Code

/-- A number that gets through the first check of `my_syscall`. -/
def ValidNumber (N : Numbers) (syscall : Int) : Prop :=
  ¬ (syscall < 0 ∨ syscall > N.nrSyscalls ∨ syscall = myCustomSyscall)

instance (N : Numbers) (syscall : Int) : Decidable (ValidNumber N syscall) :=
  inferInstanceAs (Decidable (¬ _))

/-- `INIT_LIST_HEAD` in one round of the loop of `init_function`. -/
def initListHead (heads : Nat → Option (List Int)) (i : Nat) : Nat → Option (List Int) :=
  Function.update heads i (some [])

/-- The list heads in `table` after the loop of `init_function`; there is no list where the head
still holds null pointers. -/
def initLists (N : Numbers) : Nat → Option (List Int) :=
  (List.range N.nrSyscalls).foldl initListHead fun _ => none

/-- The bookkeeping covers a number: its list is empty before the first command, it is an index
of `sys_call_table`, and whatever the state is, a process that exits is not left in its list. -/
structure Covered (N : Numbers) (s : Nat) : Prop where
  initialised : initLists N s = some []
  indexed : s < N.nrSyscalls
  exited : ∀ k pid, pid ∉ (((myExitGroup N pid).exec k).2.table s).myList

variable {N : Numbers} {s : Nat}

/-! ## The loops -/

theorem foldl_initListHead (heads : Nat → Option (List Int)) (n : Nat) :
    (List.range n).foldl initListHead heads = fun s => if s < n then some [] else heads s := by
  induction n with
  | zero => rfl
  | succ n ih =>
    rw [List.range_succ, List.foldl_append, ih]
    funext s
    rw [List.foldl_cons, List.foldl_nil, initListHead]
    by_cases hs : s = n
    · rw [hs, Function.update_self, if_pos (Nat.lt_succ_self n)]
    · rw [Function.update_of_ne hs]
      simp only [show s < n + 1 ↔ s < n by omega]

/-- The loop of `init_function` initialises the lists below `NR_syscalls`. -/
theorem initLists_eq (N : Numbers) (s : Nat) :
    initLists N s = if s < N.nrSyscalls then some [] else none := by
  rw [initLists, foldl_initListHead]

/-- The loop of `del_pid` leaves the pid as often as the list has it more often than the part
that is walked. -/
theorem MyTable.count_foldl_unlinkPid (pid : Int) (qs : List Int) (t : MyTable) :
    (qs.foldl (fun t q => if q = pid then t.unlinkPid pid else t) t).myList.count pid =
      t.myList.count pid - qs.count pid := by
  induction qs generalizing t with
  | nil => rfl
  | cons q qs ih =>
    rw [List.foldl_cons, ih]
    by_cases hq : q = pid
    · rw [if_pos hq, myList_unlinkPid, List.count_erase_self, hq, List.count_cons_self]
      omega
    · rw [if_neg hq, List.count_cons_of_ne hq]

/-- The loop of `del_pid` leaves no entry for the pid, however often the list has it. -/
theorem MyTable.not_mem_delPid (t : MyTable) (pid : Int) : pid ∉ (t.delPid pid).myList := by
  rw [← List.count_eq_zero, delPid, count_foldl_unlinkPid, Nat.sub_self]

/-! ## Coverage -/

/-- The numbers below `NR_syscalls` are covered. -/
theorem covered_of_lt (h1 : 1 ≤ s) (hs : s < N.nrSyscalls) : Covered N s where
  initialised := by rw [initLists_eq, if_pos hs]
  indexed := hs
  exited := fun k pid => by
    have hentry : (((myExitGroup N pid).exec k).2.table s) = (k.table s).delPid pid :=
      if_pos ⟨h1, hs⟩
    rw [hentry]
    exact MyTable.not_mem_delPid _ pid

/-- A number that gets through the check is covered unless it is `NR_syscalls` itself. -/
theorem covered_iff {syscall : Int} (h : ValidNumber N syscall) :
    Covered N syscall.toNat ↔ syscall ≠ N.nrSyscalls := by
  rw [ValidNumber, myCustomSyscall] at h
  constructor
  · intro hcovered heq
    have hlt := hcovered.indexed
    rw [heq, Int.toNat_natCast] at hlt
    exact lt_irrefl _ hlt
  · intro hne
    exact covered_of_lt (by omega) (by omega)

/-- Number 5 is covered where there are ten system calls. -/
theorem covered_five : Covered sampleNumbers 5 :=
  (@covered_iff sampleNumbers 5 (by decide)).mpr (by decide)

/-- Number 10 gets through the check, but nothing covers it. -/
theorem not_covered : ValidNumber sampleNumbers 10 ∧ ¬ Covered sampleNumbers 10 :=
  ⟨by decide, fun h => lt_irrefl _ h.indexed⟩

end OsAssignments.Interceptor
