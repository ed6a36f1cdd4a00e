import Ia2.Library.Requests
import Ia2.Tracer.Events
import Ia2.Tracer.Processes

/-!
# The tracer's loop

`track_memory_map` as a program that makes requests: it waits for a thread to stop, reads why it
stopped and what it is about to do, and lets it go on. One round of the loop deals with one stop of
one thread. A round that has let a system call run goes on at `syscall_exit`, a label that the
source also jumps back to, so it is a control point of its own.

This is the x86 build, where the compartment of a thread is read from its PKRU. Messages are left
out, apart from the lookup that one of them makes.
-/

namespace Ia2.Tracer

/-! ### Requests -/

inductive Resume where
  | cont | syscall | listen
deriving DecidableEq, Repr

structure Regs where
  call : Option UserRegs
  retval : UInt64
deriving DecidableEq, Repr

/-- The requests that the tracer makes to the kernel. Writing `/proc/<pid>/maps` into the memory of
a thread counts as one. -/
inductive Request where
  | waitpid (pid : Option Pid)
  | resume (request : Resume) (pid : Pid) (sig : Nat)
  | getRegs (pid : Pid)
  | setRegs (pid : Pid) (regs : Regs)
  | getInferiorPkru (pid : Pid)
  | getEventMsg (pid : Pid)
  | getSigInfo (pid : Pid)
  | pokeProcSelfMaps (pid : Pid) (start len : Nat)
deriving DecidableEq, Repr

inductive Errno where
  | einval | esrch
deriving DecidableEq, Repr

/-- What the kernel answers. Nothing stands for a call that fails. -/
def Request.Answer : Request → Type
  | .waitpid _ => Option (Pid × Nat)
  | .resume .. => Bool
  | .getRegs _ => Option Regs
  | .setRegs .. => Unit
  | .getInferiorPkru _ => Option UInt32
  | .getEventMsg _ => Option Pid
  | .getSigInfo _ => Except Errno Unit
  | .pokeProcSelfMaps .. => Int

/-- The thread that a request is about; waiting can be for any. -/
def Request.target : Request → Option Pid
  | .waitpid pid => pid
  | .resume _ pid _ | .getRegs pid | .setRegs pid _ | .getInferiorPkru pid | .getEventMsg pid |
    .getSigInfo pid
  | .pokeProcSelfMaps pid _ _ => some pid

abbrev Tracing := Prog Request Request.Answer

def waitpid (pid : Option Pid) : Tracing (Option (Pid × Nat)) := .request (Request.waitpid pid)
def resume (request : Resume) (pid : Pid) (sig : Nat) : Tracing Bool :=
  .request (Request.resume request pid sig)
def getRegs (pid : Pid) : Tracing (Option Regs) := .request (Request.getRegs pid)
def setRegs (pid : Pid) (regs : Regs) : Tracing Unit := .request (Request.setRegs pid regs)
def getInferiorPkru (pid : Pid) : Tracing (Option UInt32) := .request (Request.getInferiorPkru pid)
def getEventMsg (pid : Pid) : Tracing (Option Pid) := .request (Request.getEventMsg pid)
def getSigInfo (pid : Pid) : Tracing (Except Errno Unit) := .request (Request.getSigInfo pid)
def pokeProcSelfMaps (pid : Pid) (start len : Nat) : Tracing Int :=
  .request (Request.pokeProcSelfMaps pid start len)

section Bind

variable {α : Type} (pid : Pid)

theorem waitpid_bind (which : Option Pid) (f : Option (Pid × Nat) → Tracing α) :
    waitpid which >>= f = .ask (.waitpid which) f := rfl

theorem resume_bind (request : Resume) (sig : Nat) (f : Bool → Tracing α) :
    resume request pid sig >>= f = .ask (.resume request pid sig) f := rfl

theorem getRegs_bind (f : Option Regs → Tracing α) :
    getRegs pid >>= f = .ask (.getRegs pid) f := rfl

theorem setRegs_bind (regs : Regs) (f : Unit → Tracing α) :
    setRegs pid regs >>= f = .ask (.setRegs pid regs) f := rfl

theorem getInferiorPkru_bind (f : Option UInt32 → Tracing α) :
    getInferiorPkru pid >>= f = .ask (.getInferiorPkru pid) f := rfl

theorem getEventMsg_bind (f : Option Pid → Tracing α) :
    getEventMsg pid >>= f = .ask (.getEventMsg pid) f := rfl

theorem pokeProcSelfMaps_bind (start len : Nat) (f : Int → Tracing α) :
    pokeProcSelfMaps pid start len >>= f = .ask (.pokeProcSelfMaps pid start len) f := rfl

end Bind

/-! ### Waiting -/

inductive WaitTrapResult where
  | syscall | stop | groupStop | exited | signaled | sigsegv | sigchld | error | ptraceClone |
    ptraceFork | exec | cont
deriving DecidableEq, Repr

def WIFEXITED (stat : Nat) : Bool := stat % 128 = 0
def WIFSIGNALED (stat : Nat) : Bool := 0 < stat % 128 ∧ stat % 128 < 127
def WIFSTOPPED (stat : Nat) : Bool := stat % 256 = 127
def WEXITSTATUS (stat : Nat) : Nat := stat / 256 % 256
def WSTOPSIG (stat : Nat) : Nat := stat / 256 % 256

def SIGTRAP : Nat := 5
def SIGSEGV : Nat := 11
def SIGCHLD : Nat := 17
def SIGCONT : Nat := 18
def SIGSTOP : Nat := 19
def SIGTSTP : Nat := 20
def SIGTTIN : Nat := 21
def SIGTTOU : Nat := 22

def PTRACE_EVENT_FORK : Nat := 1
def PTRACE_EVENT_VFORK : Nat := 2
def PTRACE_EVENT_CLONE : Nat := 3
def PTRACE_EVENT_EXEC : Nat := 4
def PTRACE_EVENT_SECCOMP : Nat := 7
def PTRACE_EVENT_STOP : Nat := 128

def ptraceEvent (event : Nat) : Option WaitTrapResult :=
  if event = PTRACE_EVENT_CLONE then some .ptraceClone
  else if event = PTRACE_EVENT_FORK then some .ptraceFork
  else if event = PTRACE_EVENT_SECCOMP then some .syscall
  else if event = PTRACE_EVENT_EXEC then some .exec
  else if event = PTRACE_EVENT_STOP then some .stop
  else none

def stoppedBy (pid : Pid) (sig : Nat) : Tracing WaitTrapResult :=
  if sig = SIGTRAP + 0x80 then
    return .syscall
  else if sig = SIGSTOP ∨ sig = SIGTSTP ∨ sig = SIGTTIN ∨ sig = SIGTTOU then do
    match ← getSigInfo pid with
    | .error .einval => return .groupStop
    | _ => return .stop
  else if sig = SIGCONT then
    return .cont
  else if sig = SIGCHLD then
    return .sigchld
  else if sig = SIGSEGV then
    return .sigsegv
  else
    return .error

def trapOf (pid : Pid) (stat : Nat) : Tracing (WaitTrapResult × Pid × Option Nat) :=
  if WIFEXITED stat then
    return (.exited, pid, some (WEXITSTATUS stat))
  else if WIFSIGNALED stat then
    return (.signaled, pid, none)
  else if WIFSTOPPED stat then
    match ptraceEvent (stat / 65536) with
    | some result => return (result, pid, none)
    | none => do
      let result ← stoppedBy pid (WSTOPSIG stat)
      return (result, pid, none)
  else
    return (.error, pid, none)

def waitForNextTrap (pid : Option Pid) : Tracing (WaitTrapResult × Pid × Option Nat) := do
  match ← waitpid pid with
  | none => return (.error, -1, none)
  | some (waitedPid, stat) => trapOf waitedPid stat

/-! ### Refusing a system call -/

def returnSyscallValue (pid : Pid) (retval : Int) : Tracing Unit := do
  match ← getRegs pid with
  | none => return
  | some regs =>
    setRegs pid { regs with call := none }
    let _ ← resume .syscall pid 0
    let _ ← waitpid (some pid)
    match ← getRegs pid with
    | none => return
    | some regs => setRegs pid { regs with retval := UInt64.ofInt retval }

def EPERM : Int := 1

def returnSyscallEperm (pid : Pid) : Tracing Unit := returnSyscallValue pid (-EPERM)

/-! ### The loop -/

variable {T : Type} [IntervalTree T Nat State]

/-- The variables of the loop, with the exit status of the thread that exited last. -/
structure Tracking (T : Type) where
  maps : List (MemoryMapForProcess (MemoryMap T))
  pending : List Pid
  exitStatus : Nat

namespace Tracking

def noteExit (t : Tracking T) (status : Option Nat) : Tracking T :=
  { t with exitStatus := status.getD t.exitStatus }

def setMap (t : Tracking T) (i : Nat) (map : MemoryMap T) : Tracking T :=
  { t with maps := t.maps.modify i fun e => { e with map } }

end Tracking

/-- Where a round of the loop starts. -/
inductive Control (T : Type) where
  | next (t : Tracking T)
  | syscallExit (t : Tracking T) (i : Nat) (pid : Pid) (event : Event)

/-- How the loop ends: it returns, or a call into the memory map does not. -/
inductive Ending where
  | returned (success : Bool) (exitStatus : Nat)
  | aborted (abort : Abort)
deriving DecidableEq, Repr

abbrev RoundEnd (T : Type) := Control T ⊕ Ending

def goOn (t : Tracking T) : Tracing (RoundEnd T) := return .inl (.next t)

def returnWith (success : Bool) (t : Tracking T) : Tracing (RoundEnd T) :=
  return .inr (.returned success t.exitStatus)

def continueRequest : TraceMode → Resume
  | .ptraceSyscall => .syscall
  | .seccomp => .cont

def deliver (mode : TraceMode) (t : Tracking T) (pid : Pid) (sig : Nat) : Tracing (RoundEnd T) := do
  let _ ← resume (continueRequest mode) pid sig
  goOn t

def goOnOrFail (mode : TraceMode) (t : Tracking T) (pid : Pid) : Tracing (RoundEnd T) := do
  if ← resume (continueRequest mode) pid 0 then
    goOn t
  else
    returnWith false t

def exitThread (t : Tracking T) (pid : Pid) : Tracing (RoundEnd T) :=
  match handleThreadExit t.maps pid with
  | (.continue_, maps) => goOn { t with maps }
  | (.returnTrue, maps) => returnWith true { t with maps }
  | (.returnFalse, maps) => returnWith false { t with maps }

def eventIsRequestProcSelfMaps : Event → Bool
  | .madvise info => info.advice = 0x1a25e1f5
  | _ => false

def continuePending (mode : TraceMode) (t : Tracking T) (child : Pid) : Tracing (Tracking T) :=
  match t.pending.findIdx? fun p => p == child with
  | none => return t
  | some j => do
    let _ ← resume (continueRequest mode) child SIGSTOP
    return { t with pending := t.pending.swapRemove j }

def handleEvent (mode : TraceMode) (t : Tracking T) (i : Nat) (map : MemoryMap T) (pid : Pid)
    (event : Event) : Tracing (RoundEnd T) :=
  if eventMarksInitFinished event then
    match map.markInitFinished with
    | (_, false) => returnWith false t
    | (map, true) => do
      let t := t.setMap i map
      let _ ← resume .syscall pid 0
      let (result, _, status) ← waitForNextTrap (some pid)
      let t := t.noteExit status
      match result with
      | .syscall | .sigchld => return .inl (.syscallExit t i pid event)
      | _ => returnWith false t
  else if eventIsRequestProcSelfMaps event then do
    let range := event.targetRange.getD ⟨0, 0⟩
    let len ← pokeProcSelfMaps pid range.start range.len
    returnSyscallValue pid len
    goOnOrFail mode t pid
  else
    match map.isOpPermitted event with
    | .error abort => return .inr (.aborted abort)
    | .ok true => return .inl (.syscallExit t i pid event)
    | .ok false =>
      -- the message about the refusal looks up who owns the range
      match event.targetRange.elim (.ok 0) map.regionGetOwnerPkey with
      | .error abort => return .inr (.aborted abort)
      | .ok _ => do
        returnSyscallEperm pid
        goOnOrFail mode t pid

def syscallEntry (mode : TraceMode) (t : Tracking T) (i : Nat) (pid : Pid) : Tracing (RoundEnd T) :=
  do
  match ← getRegs pid with
  | none => returnWith false t
  | some regs =>
    match regs.call with
    | none => returnWith false t
    | some call =>
      match ← getInferiorPkru pid with
      | none => returnWith false t
      | some pkru =>
        if pkeyForPkru pkru = PKEY_INVALID then
          returnWith false t
        else
          match interpretSyscall call (pkeyForPkru pkru) mode with
          | none => returnWith false t
          | some event =>
            match t.maps[i]? with
            | none => returnWith false t
            | some mapForProc => handleEvent mode t i mapForProc.map pid event

def finishEvent (mode : TraceMode) (t : Tracking T) (i : Nat) (pid : Pid) (event : Event) :
  Tracing (RoundEnd T) := do
  match ← getRegs pid with
  | none => returnWith false t
  | some regs =>
    match t.maps[i]? with
    | none => returnWith false t
    | some mapForProc =>
      match mapForProc.map.finishSyscall event regs.retval with
      | .error abort => return .inr (.aborted abort)
      | .ok (_, false) => returnWith false t
      | .ok (map, true) => do
        let _ ← resume (continueRequest mode) pid 0
        goOn (t.setMap i map)

def exitTrap (mode : TraceMode) (t : Tracking T) (i : Nat) (pid : Pid) (event : Event) :
    WaitTrapResult → Tracing (RoundEnd T)
  | .stop | .syscall | .sigchld => finishEvent mode t i pid event
  | .error => returnWith false t
  | .ptraceClone => do
    match ← getEventMsg pid with
    | none => returnWith true t
    | some child =>
      finishEvent mode { t with maps := t.maps.modify i fun e => addPid e child } i pid event
  | .exited => exitThread t pid
  | .exec =>
    match findMemoryMap t.maps pid with
    | none => returnWith false t
    | some j =>
      return .inl
        (.syscallExit { t with maps := t.maps.modify j fun e => { e with map := e.map.clear } }
        i pid event)
  | .ptraceFork | .cont | .sigsegv | .groupStop | .signaled => returnWith true t

def syscallExit (mode : TraceMode) (t : Tracking T) (i : Nat) (pid : Pid) (event : Event) :
  Tracing (RoundEnd T) := do
  let _ ← resume .syscall pid 0
  let (result, _, status) ← waitForNextTrap (some pid)
  exitTrap mode (t.noteExit status) i pid event result

def handleTrap (mode : TraceMode) (t : Tracking T) (i : Nat) (pid : Pid) :
    WaitTrapResult → Tracing (RoundEnd T)
  | .cont => deliver mode t pid SIGCONT
  | .stop => deliver mode t pid SIGSTOP
  | .sigchld => deliver mode t pid SIGCHLD
  | .sigsegv => deliver mode t pid SIGSEGV
  | .groupStop => do
    let _ ← resume .listen pid 0
    goOn t
  | .syscall => syscallEntry mode t i pid
  | .error => do
    let _ ← getRegs pid
    returnWith false t
  | .ptraceClone => do
    match ← getEventMsg pid with
    -- WAIT_ERROR is returned from a function whose result is a bool
    | none => returnWith true t
    | some child => do
      let t ← continuePending mode t child
      syscallEntry mode { t with maps := t.maps.modify i fun e => addPid e child } i pid
  | .ptraceFork => do
    match ← getEventMsg pid with
    | none => returnWith true t
    | some child => do
      let t ← continuePending mode t child
      match t.maps[i]? with
      | none => returnWith false t
      | some mapForProc =>
        syscallEntry mode { t with maps := addMap t.maps (forProcessNew mapForProc.map child) } i
          pid
  | .exec =>
    syscallEntry mode { t with maps := t.maps.modify i fun e => { e with map := e.map.clear } } i
      pid
  | .signaled => returnWith false { t with maps := (handleThreadExit t.maps pid).2 }
  | .exited => exitThread t pid

/-- Deal with the next stop of any thread. A child whose parent has not been seen to create it rests
until then. -/
def next (mode : TraceMode) (t : Tracking T) : Tracing (RoundEnd T) := do
  let (result, pid, status) ← waitForNextTrap none
  let t := t.noteExit status
  match findMemoryMap t.maps pid with
  | none =>
    if result ≠ .syscall ∧ result ≠ .stop then
      returnWith false t
    else
      goOn { t with pending := t.pending ++ [pid] }
  | some i => handleTrap mode t i pid result

def trackMemoryMap (mode : TraceMode) : Control T → Tracing (RoundEnd T)
  | .next t => next mode t
  | .syscallExit t i pid event => syscallExit mode t i pid event

end Ia2.Tracer
