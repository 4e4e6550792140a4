import Mathlib.Data.List.Basic
import Mathlib.Logic.Function.Basic

/-!
# The kernel state of the interceptor module

The system call table, the module's bookkeeping for every system call, the two saved
functions and the kernel log, with the list operations of `interceptor.c`. Where the file
has unresolved merge conflicts, the `HEAD` side is read.
-/

namespace OsAssignments.Interceptor

/-- `NR_syscalls` and `__NR_exit_group` of the kernel. -/
structure Numbers where
  nrSyscalls : Nat
  nrExitGroup : Nat
  pos : 0 < nrExitGroup
  lt : nrExitGroup < nrSyscalls

/-- `MY_CUSTOM_SYSCALL` -/
abbrev myCustomSyscall : Nat := 0

/-- A function pointer: a function of the kernel, at its address, or one of the module. -/
inductive Handler
  | kernel (address : Nat)
  | mySyscall
  | myExitGroup
  | interceptor
  deriving DecidableEq

/-- The registers in `struct pt_regs` that hold the number and the arguments of a call. -/
structure PtRegs where
  ax : Nat
  bx : Nat
  cx : Nat
  dx : Nat
  si : Nat
  di : Nat
  bp : Nat
  deriving DecidableEq

/-- The entry of a system call in `table`. -/
structure MyTable where
  f : Handler
  intercepted : Nat
  monitored : Nat
  listcount : Int
  myList : List Int
  deriving DecidableEq

namespace MyTable

/-- `add_pid_sysc` where memory is available; `list_add` puts the entry first. -/
def addPid (t : MyTable) (pid : Int) : MyTable :=
  { t with myList := pid :: t.myList, listcount := t.listcount + 1 }

/-- What both deletions do with the entry of a pid: unlink it, count down, and stop the
monitoring when no pid is left and not all are monitored. -/
def unlinkPid (t : MyTable) (pid : Int) : MyTable :=
  let t := { t with myList := t.myList.erase pid, listcount := t.listcount - 1 }
  if t.listcount = 0 ∧ t.monitored = 1 then { t with monitored := 0 } else t

/-- The loop of `del_pid` over the list of one system call. -/
def delPid (t : MyTable) (pid : Int) : MyTable :=
  t.myList.foldl (fun t q => if q = pid then t.unlinkPid pid else t) t

/-- `destroy_list` -/
def destroyList (t : MyTable) : MyTable := { t with myList := [], listcount := 0, monitored := 0 }

/-- `check_pid_monitored`, and `pid_present` for the current pid. -/
def checkPidMonitored (t : MyTable) (pid : Int) : Bool := pid ∈ t.myList

/-- The test that `interceptor` makes before it logs. -/
def logs (t : MyTable) (pid : Int) : Bool :=
  t.monitored = 2 || (t.monitored = 1 && t.checkPidMonitored pid)

end MyTable

structure Kernel where
  sysCallTable : Nat → Handler
  table : Nat → MyTable
  origCustomSyscall : Handler
  origExitGroup : Handler
  log : List (Int × PtRegs)

namespace Kernel

def setHandler (k : Kernel) (s : Nat) (h : Handler) : Kernel :=
  { k with sysCallTable := Function.update k.sysCallTable s h }

/-- Change the entry of a system call. -/
def mapEntry (k : Kernel) (s : Nat) (g : MyTable → MyTable) : Kernel :=
  { k with table := Function.update k.table s (g (k.table s)) }

/-- `log_message`; the latest message comes first. -/
def logMessage (k : Kernel) (pid : Int) (reg : PtRegs) : Kernel :=
  { k with log := (pid, reg) :: k.log }

/-- `del_pid`, which goes through the lists of the system calls from 1 on. -/
def delPid (N : Numbers) (k : Kernel) (pid : Int) : Kernel :=
  { k with table := fun s =>
      if 1 ≤ s ∧ s < N.nrSyscalls then (k.table s).delPid pid else k.table s }

/-- The loop of `init_function` over the bookkeeping. -/
def initTable (N : Numbers) (k : Kernel) : Kernel :=
  { k with table := fun s =>
      if s < N.nrSyscalls then
        { k.table s with myList := [], listcount := 0, monitored := 0, intercepted := 0 }
      else k.table s }

/-- The loop of `exit_function` over the bookkeeping. -/
def clearTable (N : Numbers) (k : Kernel) : Kernel :=
  { k with table := fun s =>
      if s < N.nrSyscalls then
        { (k.table s).destroyList with listcount := 0, monitored := 0, intercepted := 0 }
      else k.table s }

/-- The kernel when the module is loaded: the table of the kernel's own functions, and static
data that is zero. -/
def loaded (original : Nat → Nat) : Kernel where
  sysCallTable := fun s => .kernel (original s)
  table := fun _ => ⟨.kernel 0, 0, 0, 0, []⟩
  origCustomSyscall := .kernel 0
  origExitGroup := .kernel 0
  log := []

end Kernel

/-! ## Calls of `my_syscall` -/

/-- The commands of `interceptor.h`. -/
inductive Request
  | intercept
  | release
  | startMonitoring
  | stopMonitoring
  deriving DecidableEq

/-- `REQUEST_SYSCALL_INTERCEPT` and its siblings. -/
def Request.ofInt (cmd : Int) : Option Request :=
  if cmd = 1 then some .intercept
  else if cmd = 2 then some .release
  else if cmd = 3 then some .startMonitoring
  else if cmd = 4 then some .stopMonitoring
  else none

/-- A call of `my_syscall`: its arguments, and what it learns from the kernel. -/
structure Call where
  cmd : Int
  syscall : Int
  pid : Int
  /-- `current_uid() == 0` -/
  root : Bool
  /-- `pid_task(find_vpid(pid), PIDTYPE_PID) != NULL` -/
  pidExists : Bool
  /-- `check_pid_from_list(pid, current->pid) == 0` -/
  sameOwner : Bool
  /-- `kmalloc` returns memory. -/
  memory : Bool
  deriving DecidableEq

/-- The index of the system call that a command is about. -/
def Call.index (c : Call) : Nat := c.syscall.toNat

def einval : Int := 22
def eperm : Int := 1
def ebusy : Int := 16
def enomem : Int := 12

/-- The checks of the arguments and of the caller; the code that is returned when one fails. -/
def checkArguments (N : Numbers) (c : Call) : Option Int :=
  if c.syscall < 0 ∨ c.syscall > N.nrSyscalls ∨ c.syscall = myCustomSyscall then some (-einval)
  else match Request.ofInt c.cmd with
    | none => some (-einval)
    | some request =>
      if c.pid < 0 then some (-einval)
      else if c.pid > 0 ∧ c.pidExists = false then some (-einval)
      else if (request = .intercept ∨ request = .release) ∧ c.root = false then some (-eperm)
      else if c.root = false then
        if c.pid = 0 then some (-eperm)
        else if c.sameOwner = false then some (-eperm)
        else none
      else none

/-- The checks of the context of a command. -/
def checkContext (k : Kernel) (c : Call) : Option Int :=
  let t := k.table c.index
  let request := Request.ofInt c.cmd
  if request = some .release ∧ t.intercepted = 0 then some (-einval)
  else if request = some .stopMonitoring ∧ t.checkPidMonitored c.pid = false ∧ c.pid ≠ 0 then
    some (-einval)
  else if request = some .stopMonitoring ∧ t.intercepted = 0 then some (-einval)
  else if request = some .intercept ∧ t.intercepted ≠ 0 then some (-ebusy)
  else if request = some .startMonitoring ∧ t.checkPidMonitored c.pid = true then some (-ebusy)
  else none

end OsAssignments.Interceptor
