import Ia2.Tracer.Kernel
import Ia2.Tracer.Ptrace

/-!
# Threads under ptrace

The kernel's side of the tracer's requests: what the traced threads do by themselves, where they
stop, and what the tracer's requests do to a thread that has stopped. A thread that makes a system
call of the seccomp filter's `TRACE` list stops before the call is run, a thread that was resumed
with `PTRACE_SYSCALL` also stops when a call is entered and when it returns, and a new child stops
before its first instruction. The tracer has seized the threads with the options of `start.c`.

Threads stop, run and die independently of each other and of the tracer, and the kills of the
seccomp filter are deaths like any other. What the calls do to memory is left to
`Tracer/Kernel.lean`; here the kernel only says which calls it has run and with what results. The
calls are those of the 64-bit entry, under the two filters of `seccomp_filter.c` and no others.
-/

namespace Ia2.Tracer

/-! ### Threads -/

/-- Where a thread has stopped: before the first instruction of a new child, in a group stop, for a
signal, before a system call that the filter traces, at the entry and the exit of a call, and for
the events of `clone`, `fork`, `vfork` and `exec`. -/
inductive Stop where
  | attached
  | group (sig : Nat)
  | signal (sig : Nat)
  | seccomp
  | entry
  | exit
  | clone (child : Pid)
  | fork (child : Pid)
  | vfork (child : Pid)
  | exec
deriving DecidableEq, Repr

def Stop.Interrupts : Stop → Prop
  | .signal _ | .group _ => True
  | _ => False

def SIGKILL : Nat := 9

inductive Death where
  | exited (code : Nat)
  | killed (sig : Nat)
deriving DecidableEq, Repr

/-- What a thread is doing. A thread that runs or makes a call remembers whether it was resumed with
`PTRACE_SYSCALL`, a stopped one whether the tracer has waited for it. -/
inductive Status where
  | running (traced : Bool)
  | calling (call : UserRegs) (pkru : UInt32) (traced : Bool)
  | stopped (stop : Stop) (regs : Regs) (pkru : UInt32) (seen : Bool)
  | dead (death : Death)
  | reaped
deriving DecidableEq, Repr

def stopStatus (sig event : Nat) : Nat := 127 + 256 * sig + 65536 * event

def Stop.waitStatus : Stop → Nat
  | attached => stopStatus SIGTRAP PTRACE_EVENT_STOP
  | group sig => stopStatus (sig % 128) PTRACE_EVENT_STOP
  | signal sig => stopStatus (sig % 128) 0
  | seccomp => stopStatus SIGTRAP PTRACE_EVENT_SECCOMP
  | entry | exit => stopStatus (SIGTRAP + 0x80) 0
  | clone _ => stopStatus SIGTRAP PTRACE_EVENT_CLONE
  | fork _ => stopStatus SIGTRAP PTRACE_EVENT_FORK
  | vfork _ => stopStatus SIGTRAP PTRACE_EVENT_VFORK
  | exec => stopStatus SIGTRAP PTRACE_EVENT_EXEC

def Death.waitStatus : Death → Nat
  | exited code => 256 * (code % 256)
  | killed sig => 1 + sig % 126

def ENOSYS : UInt64 := UInt64.ofInt (-38)

/-- The system calls that the seccomp filter hands to the tracer. -/
def Sysno.traced : Sysno → Bool
  | .mmap | .munmap | .mremap | .madvise | .mprotect | .pkeyMprotect => true
  | _ => false

namespace Status

/-- The seccomp filter is asked about a call that is being entered. -/
def enter (call : UserRegs) (pkru : UInt32) (traced : Bool) : Status :=
  if call.syscall.traced then .stopped .seccomp ⟨some call, ENOSYS⟩ pkru false
    else .calling call pkru traced

/-- A call returns to the program, by way of a stop if the thread is traced. -/
def leave (regs : Regs) (pkru : UInt32) (traced : Bool) : Status :=
  if traced then .stopped .exit regs pkru false else .running false

/-- How a stopped thread goes on. A call whose number is -1 is not run. -/
def resumed (stop : Stop) (regs : Regs) (pkru : UInt32) (traced : Bool) : Status :=
  match stop, regs.call with
  | .seccomp, some call => .calling call pkru traced
  | .entry, some call => enter call pkru traced
  | .seccomp, none | .entry, none => leave regs pkru traced
  | .clone child, _ | .fork child, _ | .vfork child, _ =>
    leave { regs with retval := UInt64.ofInt child } pkru traced
  | .exec, _ => leave { regs with retval := 0 } pkru traced
  | .attached, _ => leave { regs with retval := 0 } pkru traced
  | .exit, _ | .group _, _ | .signal _, _ => .running traced

end Status

/-! ### What the requests do to a thread -/

/-- What a process has executed: an entry for each system call of the `TRACE` list that the kernel
ran, and for each `exec`. -/
inductive Entry where
  | call (call : UserRegs) (pkru : UInt32) (retval : UInt64)
  | exec
deriving DecidableEq, Repr

/-- What a process has executed once the kernel has run a call. -/
def ran (call : UserRegs) (pkru : UInt32) (retval : UInt64) (past : List Entry) : List Entry :=
  if call.syscall.traced then past ++ [.call call pkru retval] else past

/-- A thread with what its process has executed and whether the process has been killed. -/
structure Local where
  status : Status
  past : List Entry
  killed : Bool

namespace Status

def regs? : Status → Option Regs
  | stopped _ regs _ _ => some regs
  | _ => none

def pkru? : Status → Option UInt32
  | stopped _ _ pkru _ => some pkru
  | _ => none

def setRegs (regs : Regs) : Status → Status
  | stopped stop _ pkru seen => .stopped stop regs pkru seen
  | status => status

def Gone : Status → Prop
  | dead _ | reaped => True
  | _ => False

def die (death : Death) : Status → Status
  | dead death => .dead death
  | reaped => .reaped
  | _ => .dead death

def HasEventMsg : Status → Option Pid → Prop
  | stopped stop _ _ _, answer =>
    match stop with
    | .clone child | .fork child | .vfork child => answer = some child
    | _ => True
  | _, answer => answer = none

def HasSigInfo : Status → Except Errno Unit → Prop
  | stopped stop _ _ _, answer =>
    match stop with
    | .signal _ => answer = .ok ()
    | _ => True
  | _, answer => answer = .error .esrch

end Status

namespace Local

def nobody : Local := ⟨.reaped, [], true⟩

def Answers (pid : Pid) (l : Local) : (op : Request) → op.Answer → Local → Prop
  | .waitpid _, answer, l' =>
    match l.status with
    | .stopped stop regs pkru false =>
      answer = some (pid, stop.waitStatus) ∧ l' = { l with status := .stopped stop regs pkru true }
    | .dead death => answer = some (pid, death.waitStatus) ∧ l' = { l with status := .reaped }
    | .reaped => answer = none ∧ l' = l
    | _ => False
  | .resume request _ _, answer, l' =>
    match l.status, request with
    | .stopped .., .listen => l' = l
    | .stopped stop regs pkru _, request =>
      answer = true ∧ l' =
        { l with
            status := .resumed stop regs pkru (request = .syscall)
            past := if stop = .exec then l.past ++ [.exec] else l.past }
    | _, _ => answer = false ∧ l' = l
  | .getRegs _, answer, l' => answer = l.status.regs? ∧ l' = l
  | .setRegs _ regs, _, l' => l' = { l with status := l.status.setRegs regs }
  | .getInferiorPkru _, answer, l' => (answer = none ∨ answer = l.status.pkru?) ∧ l' = l
  | .getEventMsg _, answer, l' => l.status.HasEventMsg answer ∧ l' = l
  | .getSigInfo _, answer, l' => l.status.HasSigInfo answer ∧ l' = l
  | .pokeProcSelfMaps .., _, l' => l' = l

end Local

/-! ### The kernel -/

/-- A thread, with the memory that it runs in and the thread group that it belongs to. A group has
the id of its first thread. -/
structure Thread where
  process : Nat
  group : Pid
  parent : Option Pid
  status : Status

/-- The threads, and for each memory which calls were run in it and whether the threads there have
been killed. -/
structure Tracees where
  threads : Pid → Option Thread
  past : Nat → List Entry
  killed : Nat → Bool

namespace Tracees

def view (k : Tracees) (th : Thread) : Local :=
  ⟨th.status, k.past th.process, k.killed th.process⟩

def setStatus (k : Tracees) (pid : Pid) (th : Thread) (status : Status) : Tracees :=
  { k with threads := Function.update k.threads pid (some { th with status }) }

def put (k : Tracees) (pid : Pid) (th : Thread) (l : Local) : Tracees :=
  { k.setStatus pid th l.status with past := Function.update k.past th.process l.past }

def AnswersFor (k : Tracees) (pid : Pid) (op : Request) (answer : op.Answer) (k' : Tracees) :
    Prop :=
  match k.threads pid with
  | some th => ∃ l, (k.view th).Answers pid op answer l ∧ k' = k.put pid th l
  | none => (∃ l, Local.nobody.Answers pid op answer l) ∧ k' = k

def Answers (k : Tracees) (op : Request) (answer : op.Answer) (k' : Tracees) : Prop :=
  match op.target with
  | some pid => k.AnswersFor pid op answer k'
  | none =>
    (∃ pid th, k.threads pid = some th ∧ th.status ≠ .reaped ∧ k.AnswersFor pid op answer k') ∨
      (∀ pid th, k.threads pid = some th → th.status = .reaped) ∧
      (∃ l, Local.nobody.Answers (-1) op answer l) ∧ k' = k

/-! ### Creating threads -/

end Tracees

def CSIGNAL : UInt64 := 0xff
def CLONE_VM : UInt64 := 0x100
def CLONE_PTRACE : UInt64 := 0x2000
def CLONE_VFORK : UInt64 := 0x4000
def CLONE_THREAD : UInt64 := 0x10000
def CLONE_UNTRACED : UInt64 := 0x800000

structure CloneArgs where
  flags : UInt64
  exitSignal : UInt64
deriving DecidableEq, Repr

namespace CloneArgs

def has (args : CloneArgs) (flag : UInt64) : Bool := args.flags &&& flag ≠ 0

/-- The child runs in the memory of its parent. -/
def vm (args : CloneArgs) : Bool := args.has CLONE_VM

/-- The child is in the thread group of its parent. -/
def thread (args : CloneArgs) : Bool := args.has CLONE_THREAD

/-- The arguments of `clone` are in a register, those of `clone3` in memory. A thread of the same
group has to share the memory. -/
def Of (args : CloneArgs) (call : UserRegs) : Prop :=
  (args.thread = true → args.vm = true) ∧
    (call.syscall = .clone → args = ⟨call.arg0 &&& 0xffffff00, call.arg0 &&& CSIGNAL⟩)

/-- The event that the parent stops for. Only the exit signal tells `clone` from `fork`. -/
def event (args : CloneArgs) (child : Pid) : Option Stop :=
  if args.has CLONE_UNTRACED then none
  else if args.has CLONE_VFORK then some (.vfork child)
  else if args.exitSignal.toNat ≠ SIGCHLD then some (.clone child)
  else some (.fork child)

/-- The tracer traces the child, too. -/
def attaches (args : CloneArgs) : Bool := args.has CLONE_PTRACE || !args.has CLONE_UNTRACED

/-- What `pthread_create` and `fork` ask for: a thread of the same group in the same memory with an
event of its own, or a process with its own memory. -/
def Plain (args : CloneArgs) : Prop :=
  args.has CLONE_UNTRACED = false ∧ args.thread = args.vm ∧
    (args.vm = true ↔ args.has CLONE_VFORK = false ∧ args.exitSignal.toNat ≠ SIGCHLD)

end CloneArgs

/-! ### What the threads do -/

inductive Move where
  /-- A thread makes a system call. -/
  | call (pid : Pid) (call : UserRegs) (pkru : UInt32)
  /-- The kernel runs the call of a thread. -/
  | run (pid : Pid) (retval : UInt64)
  | spawn (pid child : Pid) (process : Nat) (args : CloneArgs)
  | exec (pid : Pid) (process : Nat) (pkru : UInt32)
  /-- A thread stops for a signal or with its group. -/
  | stop (pid : Pid) (stop : Stop) (regs : Regs) (pkru : UInt32)
  | exit (pid : Pid) (code : Nat)
  /-- All threads of a group die. -/
  | kill (group : Pid) (death : Death)

def Sysno.spawns : Sysno → Prop
  | .clone | .clone3 => True
  | _ => False

def Sysno.execs : Sysno → Prop
  | .execve | .execveat => True
  | _ => False

/-- The results with which a call returns to the program. One that succeeds has passed the kernel's
checks; the moves for new threads and for `exec` have the other results of those calls, and `exit`
does not return. -/
def Completes (call : UserRegs) (retval : UInt64) : Prop :=
  call.syscall ≠ .exit ∧ (call.syscall.spawns ∨ call.syscall.execs → 2 ^ 63 ≤ retval.toNat) ∧
    (retval.toNat < 2 ^ 63 → Accepts call retval)

namespace Tracees

def Alone (k : Tracees) (pid : Pid) (process : Nat) : Prop :=
  ∀ q th, q ≠ pid → k.threads q = some th → th.process = process → th.status.Gone

/-- The id is that of no thread and no group. -/
def Unused (k : Tracees) (pid : Pid) : Prop :=
  ∀ q th, k.threads q = some th → q = pid ∨ th.group = pid → th.status = .reaped

/-- No thread has run in the memory. -/
def Fresh (k : Tracees) (process : Nat) : Prop :=
  ∀ q th, k.threads q = some th → th.process ≠ process

def addChild (k : Tracees) (pid child : Pid) (process : Nat) (group : Pid) (call : UserRegs)
    (pkru : UInt32) : Tracees :=
  let th : Thread := ⟨process, group, some pid, .stopped .attached ⟨some call, 0⟩ pkru false⟩
  { k with threads := Function.update k.threads child (some th) }

def copyProcess (k : Tracees) (process copy : Nat) : Tracees :=
  { k with
    past := Function.update k.past copy (k.past process)
    killed := Function.update k.killed copy false }

/-- A thread creates another one. A child that the tracer does not trace is not seen again: its
calls of the `TRACE` list have no tracer to ask and are not run. -/
def spawn (k : Tracees) (pid : Pid) (th : Thread) (call : UserRegs) (pkru : UInt32) (traced : Bool)
    (child : Pid) (process : Nat) (args : CloneArgs) : Tracees :=
  let status : Status :=
    match args.event child with
    | some stop => .stopped stop ⟨some call, ENOSYS⟩ pkru false
    | none => .leave ⟨some call, UInt64.ofInt child⟩ pkru traced
  let k := k.setStatus pid th status
  let k := if args.vm then k else k.copyProcess th.process process
  if args.attaches then
    k.addChild pid child process (if args.thread then th.group else child) call pkru
  else k

/-- The threads of a group die. -/
def killGroup (k : Tracees) (group : Pid) (process : Nat) (death : Death) : Tracees :=
  { k with
    threads := fun pid => (k.threads pid).map fun th =>
      if th.group = group then { th with status := th.status.die death } else th
    killed := Function.update k.killed process true }

/-- A thread of another group runs in the memory of the thread. -/
def Shared (k : Tracees) (th : Thread) : Prop :=
  ∃ q th', k.threads q = some th' ∧ th'.process = th.process ∧ th'.group ≠ th.group

/-- A thread replaces its process: the other threads of the group die, and the thread goes on under
the id of the group, in new memory if others run in the old one. -/
def replace (k : Tracees) (pid : Pid) (th : Thread) (process : Nat) (call : UserRegs)
    (pkru : UInt32) : Tracees :=
  let k := if process = th.process then k else k.copyProcess th.process process
  { k with
    threads := fun q =>
      if q = th.group then
        some { th with process, status := .stopped .exec ⟨some call, ENOSYS⟩ pkru false }
      else if q = pid then none
      else (k.threads q).map fun th' =>
        if th'.group = th.group then { th' with status := th'.status.die (.killed SIGKILL) }
        else th' }

def Moves (k : Tracees) : Move → Tracees → Prop
  | .call pid call pkru, k' => ∃ th traced, k.threads pid = some th ∧ th.status = .running traced ∧
      k' = k.setStatus pid th
        (if traced then .stopped .entry ⟨some call, ENOSYS⟩ pkru false else .enter call pkru false)
  | .run pid retval, k' => ∃ th call pkru traced, k.threads pid = some th ∧
      th.status = .calling call pkru traced ∧ Completes call retval ∧
      k' = { k.setStatus pid th (.leave ⟨some call, retval⟩ pkru traced) with
        past := Function.update k.past th.process (ran call pkru retval (k.past th.process)) }
  | .spawn pid child process args, k' => ∃ th call pkru traced, k.threads pid = some th ∧
      th.status = .calling call pkru traced ∧ call.syscall.spawns ∧ args.Of call ∧
      k.Unused child ∧ 0 < child ∧
      (if args.vm then process = th.process else k.Fresh process) ∧
      k' = k.spawn pid th call pkru traced child process args
  | .exec pid process pkru', k' => ∃ th call pkru traced, k.threads pid = some th ∧
      th.status = .calling call pkru traced ∧ call.syscall.execs ∧
      (k.Shared th → k.Fresh process) ∧ (¬ k.Shared th → process = th.process) ∧
      k' = k.replace pid th process call pkru'
  | .stop pid stop regs pkru, k' => ∃ th traced, k.threads pid = some th ∧
      th.status = .running traced ∧ stop.Interrupts ∧
      k' = k.setStatus pid th (.stopped stop regs pkru false)
  | .exit pid code, k' => ∃ th call pkru traced, k.threads pid = some th ∧
      th.status = .calling call pkru traced ∧ call.syscall = .exit ∧
      k' = k.setStatus pid th (.dead (.exited code))
  | .kill group death, k' => ∃ q th, k.threads q = some th ∧ th.group = group ∧
      k' = k.killGroup group th.process death

/-- The condition under which the tracer keeps up. Threads and processes are created as by
`pthread_create` and `fork`, under ids that have not been used, and a process is forked by a thread
that is alone in it. An `exec` is made by the first thread of a group when it is alone. No signal
stops a thread that was resumed with `PTRACE_SYSCALL` before it makes its next call. -/
def Orderly (k : Tracees) : Move → Prop
  | .spawn pid child _ args => args.Plain ∧ k.threads child = none ∧
      (args.vm = false → ∀ th, k.threads pid = some th → k.Alone pid th.process)
  | .exec pid _ _ => ∀ th, k.threads pid = some th → th.group = pid ∧ k.Alone pid th.process
  | .stop pid _ _ _ => ∀ th, k.threads pid = some th → th.status ≠ .running true
  | _ => True

/-- The threads as the tracer's surroundings, with the moves that they may make. -/
def world (allowed : Tracees → Move → Prop) : World Request Request.Answer Tracees where
  moves k k' := ∃ m, allowed k m ∧ k.Moves m k'
  answers := Answers

end Tracees

end Ia2.Tracer
