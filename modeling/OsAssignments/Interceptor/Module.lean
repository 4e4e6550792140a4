import OsAssignments.Interceptor.Kernel
import OsAssignments.Library.LockedCode

/-!
# The functions of the interceptor module

Translation of the functions that take the two locks. What a function calls last is its
result: the interceptor returns the function that it goes on to call. Changes of the page
protection of the system call table are left out.
-/

namespace OsAssignments.Interceptor

inductive Lock
  | pidlist
  | calltable
  deriving DecidableEq

/-- Code of the module that returns an `α`. -/
abbrev KernelM (α : Type) := Code Lock Kernel α

def spinLock (l : Lock) : KernelM Unit := Code.acquire l

def spinUnlock (l : Lock) : KernelM Unit := Code.release l

/-- `my_exit_group` of the process `pid`; the original function comes next. -/
def myExitGroup (N : Numbers) (pid : Int) : KernelM Handler := do
  spinLock .pidlist
  Code.modify fun k => k.delPid N pid
  spinUnlock .pidlist
  return (← Code.get).origExitGroup

/-- `interceptor` in the process `pid`; the saved function comes next. -/
def interceptor (pid : Int) (reg : PtRegs) : KernelM Handler := do
  let currSys := reg.ax
  spinLock .calltable
  spinLock .pidlist
  Code.modify fun k => if (k.table currSys).logs pid then k.logMessage pid reg else k
  spinUnlock .pidlist
  spinUnlock .calltable
  return ((← Code.get).table currSys).f

/-! ## The four commands -/

/-- The second locked section of an intercept. -/
def installInterceptor (s : Nat) : KernelM Int := do
  spinLock .calltable
  Code.modify fun k => k.setHandler s .interceptor
  spinUnlock .calltable
  return 0

def interceptSyscall (s : Nat) : KernelM Int := do
  spinLock .pidlist
  Code.modify fun k => k.mapEntry s fun t => { t with intercepted := 1 }
  Code.modify fun k => k.mapEntry s fun t => { t with f := k.sysCallTable s }
  spinUnlock .pidlist
  installInterceptor s

def releaseSyscall (s : Nat) : KernelM Int := do
  spinLock .pidlist
  Code.modify fun k => k.mapEntry s fun t => { t with intercepted := 0 }
  Code.modify fun k => k.mapEntry s fun t => { t with monitored := 0 }
  spinLock .calltable
  Code.modify fun k => k.setHandler s (k.table s).f
  spinUnlock .calltable
  spinUnlock .pidlist
  return 0

/-- `add_pid_sysc` as the last step of a section that holds `pidlist_lock`. -/
def addPidSysc (s : Nat) (pid : Int) (memory : Bool) : KernelM Int := do
  if memory then
    Code.modify fun k => k.mapEntry s fun t => t.addPid pid
    spinUnlock .pidlist
    return 0
  else
    spinUnlock .pidlist
    return -enomem

/-- `del_pid_sysc` as the last step of a section that holds `pidlist_lock`. -/
def delPidSysc (s : Nat) (pid : Int) : KernelM Int := do
  if ((← Code.get).table s).checkPidMonitored pid then
    Code.modify fun k => k.mapEntry s fun t => t.unlinkPid pid
    spinUnlock .pidlist
    return 0
  else
    spinUnlock .pidlist
    return -einval

def startMonitoring (s : Nat) (pid : Int) (memory : Bool) : KernelM Int := do
  spinLock .pidlist
  if pid = 0 then
    Code.modify fun k => k.mapEntry s fun t => { t with monitored := 2 }
    Code.modify fun k => k.mapEntry s MyTable.destroyList
    spinUnlock .pidlist
    return 0
  else if ((← Code.get).table s).monitored ≠ 2 then
    Code.modify fun k => k.mapEntry s fun t => { t with monitored := 1 }
    addPidSysc s pid memory
  else
    delPidSysc s pid

def stopMonitoring (s : Nat) (pid : Int) (memory : Bool) : KernelM Int := do
  spinLock .pidlist
  if pid = 0 then
    Code.modify fun k => k.mapEntry s fun t => { t with monitored := 0 }
    Code.modify fun k => k.mapEntry s MyTable.destroyList
    spinUnlock .pidlist
    return 0
  else
    Code.modify fun k => k.mapEntry s fun t => { t with monitored := 1 }
    if ((← Code.get).table s).monitored = 2 then
      addPidSysc s pid memory
    else
      delPidSysc s pid

/-- The `switch` of `my_syscall`. -/
def perform (c : Call) : KernelM Int :=
  match Request.ofInt c.cmd with
  | some .intercept => interceptSyscall c.index
  | some .release => releaseSyscall c.index
  | some .startMonitoring => startMonitoring c.index c.pid c.memory
  | some .stopMonitoring => stopMonitoring c.index c.pid c.memory
  | none => return 0

/-- The part of `my_syscall` after the checks that need no lock. -/
def runCommand (c : Call) : KernelM Int := do
  spinLock .pidlist
  match checkContext (← Code.get) c with
  | some code =>
    spinUnlock .pidlist
    return code
  | none =>
    spinUnlock .pidlist
    perform c

def mySyscall (N : Numbers) (c : Call) : KernelM Int :=
  match checkArguments N c with
  | some code => return code
  | none => runCommand c

/-! ## Loading and unloading -/

def initFunction (N : Numbers) : KernelM Int := do
  spinLock .calltable
  Code.modify fun k => { k with origCustomSyscall := k.sysCallTable myCustomSyscall }
  Code.modify fun k => k.setHandler myCustomSyscall .mySyscall
  Code.modify fun k => { k with origExitGroup := k.sysCallTable N.nrExitGroup }
  Code.modify fun k => k.setHandler N.nrExitGroup .myExitGroup
  spinUnlock .calltable
  spinLock .pidlist
  Code.modify fun k => k.initTable N
  spinUnlock .pidlist
  return 0

def exitFunction (N : Numbers) : KernelM Unit := do
  spinLock .calltable
  Code.modify fun k => k.setHandler myCustomSyscall k.origCustomSyscall
  Code.modify fun k => k.setHandler N.nrExitGroup k.origExitGroup
  spinUnlock .calltable
  spinLock .pidlist
  Code.modify fun k => k.clearTable N
  spinUnlock .pidlist

end OsAssignments.Interceptor
