import Ia2.Library.Bpf
import Ia2.Library.Runs
import Ia2.Tracer.Tracees
import Mathlib.Data.Fin.VecNotation

/-!
# The seccomp filters

The two filters that the sandboxed program is started under, and the kernel's side of them: every
filter that is installed is asked about every call, the strictest answer counts, and filters can
only be added. The numbers of the filters are those of x86-64.

A program under these filters can still add filters of its own, by `prctl`. What they cannot do is
weaken the ones that are there; only a filter that is installed with a listener could let a call run
that a filter below hands to the tracer, and those need `seccomp`, which the second filter forbids.

The filters do not look at `arch`: a call that is made through the 32-bit entry is judged by its
number as if it were a 64-bit call. `SeccompData.sysno` is the call that the kernel runs, which has
other numbers there.
-/

namespace Ia2.Tracer

open Bpf (Insn policy)

structure SeccompData where
  nr : UInt32
  arch : UInt32
  instructionPointer : UInt64
  args : Fin 6 → UInt64

def SeccompData.word (data : SeccompData) : Nat → UInt32
  | 0 => data.nr
  | 4 => data.arch
  | 8 => data.instructionPointer.toUInt32
  | 12 => (data.instructionPointer >>> 32).toUInt32
  | offset =>
    let arg := data.args (Fin.ofNat 6 ((offset - 16) / 8))
    if offset % 8 = 0 then arg.toUInt32 else (arg >>> 32).toUInt32

def seccompDataSize : Nat := 64

def SECCOMP_RET_KILL_PROCESS : UInt32 := 0x80000000
def SECCOMP_RET_TRAP : UInt32 := 0x00030000
def SECCOMP_RET_ERRNO : UInt32 := 0x00050000
def SECCOMP_RET_USER_NOTIF : UInt32 := 0x7fc00000
def SECCOMP_RET_TRACE : UInt32 := 0x7ff00000
def SECCOMP_RET_LOG : UInt32 := 0x7ffc0000
def SECCOMP_RET_ALLOW : UInt32 := 0x7fff0000

def NR_ioctl : UInt32 := 16
def NR_seccomp : UInt32 := 317
def TCGETS : UInt32 := 0x5401

/-! ### The filters of the source -/

def forbidSeccompFilter : List Insn := [
  .ld 0,
  .jeq NR_seccomp 0 1,
  .ret SECCOMP_RET_KILL_PROCESS,
  .ret SECCOMP_RET_ALLOW]

/-- The lines `BPF_SYSCALL_POLICY` of the coarse-grained policy. -/
def ia2Policies : List (UInt32 × UInt32) := [
  (317, SECCOMP_RET_ALLOW), -- seccomp
  (9, SECCOMP_RET_TRACE), -- mmap
  (10, SECCOMP_RET_TRACE), -- mprotect
  (25, SECCOMP_RET_TRACE), -- mremap
  (11, SECCOMP_RET_TRACE), -- munmap
  (28, SECCOMP_RET_TRACE), -- madvise
  (330, SECCOMP_RET_ALLOW), -- pkey_alloc
  (329, SECCOMP_RET_TRACE), -- pkey_mprotect
  (21, SECCOMP_RET_ALLOW), -- access
  (2, SECCOMP_RET_ALLOW), -- open
  (158, SECCOMP_RET_ALLOW), -- arch_prctl
  (12, SECCOMP_RET_ALLOW), -- brk
  (435, SECCOMP_RET_ALLOW), -- clone3
  (3, SECCOMP_RET_ALLOW), -- close
  (32, SECCOMP_RET_ALLOW), -- dup
  (33, SECCOMP_RET_ALLOW), -- dup2
  (34, SECCOMP_RET_ALLOW), -- pause
  (59, SECCOMP_RET_ALLOW), -- execve
  (231, SECCOMP_RET_ALLOW), -- exit_group
  (72, SECCOMP_RET_ALLOW), -- fcntl
  (5, SECCOMP_RET_ALLOW), -- fstat
  (202, SECCOMP_RET_ALLOW), -- futex
  (99, SECCOMP_RET_ALLOW), -- sysinfo
  (79, SECCOMP_RET_ALLOW), -- getcwd
  (8, SECCOMP_RET_ALLOW), -- lseek
  (103, SECCOMP_RET_ALLOW), -- syslog
  (78, SECCOMP_RET_ALLOW), -- getdents
  (217, SECCOMP_RET_ALLOW), -- getdents64
  (108, SECCOMP_RET_ALLOW), -- getegid
  (107, SECCOMP_RET_ALLOW), -- geteuid
  (104, SECCOMP_RET_ALLOW), -- getgid
  (102, SECCOMP_RET_ALLOW), -- getuid
  (110, SECCOMP_RET_ALLOW), -- getppid
  (109, SECCOMP_RET_ALLOW), -- setpgid
  (186, SECCOMP_RET_ALLOW), -- gettid
  (39, SECCOMP_RET_ALLOW), -- getpid
  (318, SECCOMP_RET_ALLOW), -- getrandom
  (157, SECCOMP_RET_ALLOW), -- prctl
  (439, SECCOMP_RET_ALLOW), -- faccessat2
  (204, SECCOMP_RET_ALLOW), -- sched_getaffinity
  (203, SECCOMP_RET_ALLOW), -- sched_setaffinity
  (37, SECCOMP_RET_ALLOW), -- alarm
  (332, SECCOMP_RET_ALLOW), -- statx
  (262, SECCOMP_RET_ALLOW), -- newfstatat
  (257, SECCOMP_RET_ALLOW), -- openat
  (17, SECCOMP_RET_ALLOW), -- pread64
  (302, SECCOMP_RET_ALLOW), -- prlimit64
  (18, SECCOMP_RET_ALLOW), -- pwrite64
  (0, SECCOMP_RET_ALLOW), -- read
  (19, SECCOMP_RET_ALLOW), -- readv
  (89, SECCOMP_RET_ALLOW), -- readlink
  (267, SECCOMP_RET_ALLOW), -- readlinkat
  (290, SECCOMP_RET_ALLOW), -- eventfd2
  (291, SECCOMP_RET_ALLOW), -- epoll_create1
  (233, SECCOMP_RET_ALLOW), -- epoll_ctl
  (41, SECCOMP_RET_ALLOW), -- socket
  (42, SECCOMP_RET_ALLOW), -- connect
  (54, SECCOMP_RET_ALLOW), -- setsockopt
  (49, SECCOMP_RET_ALLOW), -- bind
  (50, SECCOMP_RET_ALLOW), -- listen
  (288, SECCOMP_RET_ALLOW), -- accept4
  (46, SECCOMP_RET_ALLOW), -- sendmsg
  (47, SECCOMP_RET_ALLOW), -- recvmsg
  (87, SECCOMP_RET_ALLOW), -- unlink
  (77, SECCOMP_RET_ALLOW), -- ftruncate
  (27, SECCOMP_RET_ALLOW), -- mincore
  (56, SECCOMP_RET_ALLOW), -- clone
  (61, SECCOMP_RET_ALLOW), -- wait4
  (234, SECCOMP_RET_ALLOW), -- tgkill
  (334, SECCOMP_RET_ALLOW), -- rseq
  (13, SECCOMP_RET_ALLOW), -- rt_sigaction
  (14, SECCOMP_RET_ALLOW), -- rt_sigprocmask
  (273, SECCOMP_RET_ALLOW), -- set_robust_list
  (218, SECCOMP_RET_ALLOW), -- set_tid_address
  (1, SECCOMP_RET_ALLOW), -- write
  (20, SECCOMP_RET_ALLOW), -- writev
  (60, SECCOMP_RET_ALLOW), -- exit
  (230, SECCOMP_RET_ALLOW), -- clock_nanosleep
  (131, SECCOMP_RET_ALLOW), -- sigaltstack
  (232, SECCOMP_RET_ALLOW), -- epoll_wait
  (112, SECCOMP_RET_ALLOW), -- setsid
  (293, SECCOMP_RET_ALLOW), -- pipe2
  (7, SECCOMP_RET_ALLOW), -- poll
  (247, SECCOMP_RET_ALLOW), -- waitid
  (219, SECCOMP_RET_ALLOW), -- restart_syscall
  (62, SECCOMP_RET_ALLOW)] -- kill

def ia2Filter : List Insn :=
  .ld 0 :: (ia2Policies.flatMap policy ++ [
  -- `ioctl` with the request `TCGETS`; only the low word of the argument is compared
  .jeq NR_ioctl 0 3,
  .ld 24,
  .jeq TCGETS 0 1,
  .ret SECCOMP_RET_ALLOW,
  .ret SECCOMP_RET_KILL_PROCESS])

/-! ### What the kernel does with filters -/

/-- A program that passes the kernel's check. -/
structure SockFprog where
  filter : List Insn
  checked : Bpf.Checked seccompDataSize filter

def SockFprog.run (prog : SockFprog) (data : SeccompData) : UInt32 :=
  (Bpf.run prog.filter data.word).get (prog.checked.run_isSome data.word)

/-- A program that has been installed, with or without a listener for its notifications. -/
structure Filter extends SockFprog where
  listener : Bool

/-- The action of a filter's answer as a signed number: the smaller, the stricter. -/
def actionOnly (ret : UInt32) : Int := (ret &&& 0xFFFF0000).toInt32.toInt

def runFilters (data : SeccompData) (filters : List Filter) : UInt32 × Option Filter :=
  filters.foldl (fun best f => if actionOnly (f.run data) < actionOnly best.1
    then (f.run data, some f) else best) (SECCOMP_RET_ALLOW, none)

/-- What becomes of a system call: it is run, it is handed to the tracer, it is handed to a listener
that can let it run, it returns without being run, or it ends the process or the thread. -/
inductive Verdict where
  | runs | traced | supervised | refused | killed
deriving DecidableEq, Repr

def Verdict.ofAction (ret : UInt32) (listener : Bool) : Verdict :=
  let action := ret &&& 0xFFFF0000
  if action = SECCOMP_RET_ALLOW ∨ action = SECCOMP_RET_LOG then .runs
  else if action = SECCOMP_RET_TRACE then .traced
  else if action = SECCOMP_RET_USER_NOTIF then if listener then .supervised else .refused
  else if action = SECCOMP_RET_ERRNO ∨ action = SECCOMP_RET_TRAP then .refused
  else .killed

def verdict (filters : List Filter) (data : SeccompData) : Verdict :=
  let (ret, matched) := runFilters data filters
  .ofAction ret (matched.any (·.listener))

def Verdict.MayRun : Verdict → Prop
  | .runs | .traced | .supervised => True
  | .refused | .killed => False

def AUDIT_ARCH_X86_64 : UInt32 := 0xC000003E
def AUDIT_ARCH_I386 : UInt32 := 0x40000003
def X32_SYSCALL_BIT : UInt32 := 0x40000000

def SeccompData.Calls (data : SeccompData) (nr nr32 : UInt32) : Prop :=
  data.arch = AUDIT_ARCH_X86_64 ∧ (data.nr = nr ∨ data.nr = nr ||| X32_SYSCALL_BIT) ∨
    data.arch = AUDIT_ARCH_I386 ∧ data.nr = nr32

def SeccompData.IsSeccomp (data : SeccompData) : Prop := data.Calls NR_seccomp 354

def SeccompData.IsPrctl (data : SeccompData) : Prop := data.Calls 157 172

/-- What a system call does to the filters of the thread that makes it. A listener can be had from
`seccomp` only. -/
inductive FilterStep (filters : List Filter) (data : SeccompData) : List Filter → Prop
  | keep : FilterStep filters data filters
  | seccomp (f : Filter) (hcall : data.IsSeccomp) (hruns : (verdict filters data).MayRun) :
    FilterStep filters data (f :: filters)
  | prctl (f : Filter) (hcall : data.IsPrctl) (hruns : (verdict filters data).MayRun)
    (hlistener : f.listener = false) :
    FilterStep filters data (f :: filters)

/-! ### Setting the filters up -/

def SECCOMP_SET_MODE_FILTER : UInt64 := 1
def SECCOMP_FILTER_FLAG_TSYNC : UInt64 := 1
def SECCOMP_FILTER_FLAG_NEW_LISTENER : UInt64 := 8

/-- The `seccomp` call at the address `ip`, itself subject to the filters that are there. What it
installs has a listener if the flags ask for one. `accepts` stands for the kernel's further reasons
to refuse a program. -/
def seccomp (accepts : SockFprog → Bool) (ip mode flags : UInt64) (prog : SockFprog)
    (address : UInt64) (filters : List Filter) :
    Option (List Filter) :=
  let data : SeccompData := ⟨NR_seccomp, AUDIT_ARCH_X86_64, ip, ![mode, flags, address, 0, 0, 0]⟩
  if verdict filters data = .runs ∧ accepts prog
    then some (⟨prog, flags &&& SECCOMP_FILTER_FLAG_NEW_LISTENER ≠ 0⟩ :: filters) else none

theorem forbidSeccompFilter_checked : Bpf.Checked seccompDataSize forbidSeccompFilter := by decide

theorem ia2Filter_checked : Bpf.Checked seccompDataSize ia2Filter :=
  ⟨by decide, by decide, Bpf.checked_policies ia2Policies (by decide)⟩

def forbidSeccompProg : SockFprog := ⟨forbidSeccompFilter, forbidSeccompFilter_checked⟩

def ia2FilterProg : SockFprog := ⟨ia2Filter, ia2Filter_checked⟩

/-- Install the filter, with a listener, and then the one that forbids `seccomp`. -/
def configureSeccomp (accepts : SockFprog → Bool) (ip : UInt64) (address : SockFprog → UInt64)
    (prog : SockFprog) (filters : List Filter) :
    Option (List Filter) := do
  let filters ← seccomp accepts ip SECCOMP_SET_MODE_FILTER SECCOMP_FILTER_FLAG_NEW_LISTENER prog
    (address prog) filters
  seccomp accepts ip SECCOMP_SET_MODE_FILTER SECCOMP_FILTER_FLAG_TSYNC forbidSeccompProg
    (address forbidSeccompProg) filters

/-! ### What one filter answers -/

variable {data : SeccompData} {ret nr : UInt32}

theorem SockFprog.run_eq {prog : SockFprog} (h : Bpf.run prog.filter data.word = some ret) :
    prog.run data = ret := by
  simp [SockFprog.run, h]

theorem run_forbidSeccompProg (data : SeccompData) :
    forbidSeccompProg.run data = if data.nr = NR_seccomp then SECCOMP_RET_KILL_PROCESS
      else SECCOMP_RET_ALLOW := by
  apply SockFprog.run_eq
  by_cases hnr : data.nr = NR_seccomp <;>
    simp [Bpf.run, Bpf.exec, forbidSeccompProg, forbidSeccompFilter, SeccompData.word, hnr]

theorem run_ia2FilterProg (data : SeccompData) :
    ia2FilterProg.run data = (ia2Policies.lookup data.nr).getD
      (if data.nr = NR_ioctl ∧ (data.args 1).toUInt32 = TCGETS then SECCOMP_RET_ALLOW
        else SECCOMP_RET_KILL_PROCESS) := by
  have hrest : Bpf.run ia2FilterProg.filter data.word = (ia2Policies.lookup data.nr).or
      (some (if data.nr = NR_ioctl ∧ (data.args 1).toUInt32 = TCGETS then SECCOMP_RET_ALLOW
          else SECCOMP_RET_KILL_PROCESS)) := by
    change Bpf.exec _ (ia2Policies.flatMap policy ++ _) 0 data.nr = _
    rw [Bpf.exec_policies]
    apply congrArg
    have harg : data.word 24 = (data.args 1).toUInt32 := rfl
    by_cases hnr : data.nr = NR_ioctl <;> by_cases hrequest : (data.args 1).toUInt32 = TCGETS <;>
      simp [Bpf.exec, hnr, harg, hrequest]
  apply SockFprog.run_eq
  rw [hrest]
  cases ia2Policies.lookup data.nr <;> rfl

/-! ### Which call a number stands for -/

/-- The kernel's table for calls of the 64-bit entry. -/
def sysCallTable : UInt32 → Sysno
  | 9 => .mmap
  | 10 => .mprotect
  | 11 => .munmap
  | 25 => .mremap
  | 28 => .madvise
  | 56 => .clone
  | 59 => .execve
  | 60 => .exit
  | 61 => .wait4
  | 322 => .execveat
  | 329 => .pkeyMprotect
  | 435 => .clone3
  | _ => .other

/-- The kernel's table for calls of the 64-bit entry with the x32 bit. -/
def x32SysCallTable : UInt32 → Sysno
  | 9 => .mmap
  | 10 => .mprotect
  | 11 => .munmap
  | 25 => .mremap
  | 28 => .madvise
  | 56 => .clone
  | 60 => .exit
  | 61 => .wait4
  | 329 => .pkeyMprotect
  | 435 => .clone3
  | 520 => .execve
  | 545 => .execveat
  | _ => .other

/-- The kernel's table for calls of the 32-bit entry. -/
def ia32SysCallTable : UInt32 → Sysno
  | 1 => .exit
  | 11 => .execve
  | 90 => .mmap
  | 91 => .munmap
  | 114 => .wait4
  | 120 => .clone
  | 125 => .mprotect
  | 163 => .mremap
  | 192 => .mmap -- mmap2
  | 219 => .madvise
  | 358 => .execveat
  | 380 => .pkeyMprotect
  | 435 => .clone3
  | _ => .other

/-- The call that the kernel runs. -/
def SeccompData.sysno (data : SeccompData) : Sysno :=
  if data.arch = AUDIT_ARCH_X86_64 then
    if data.nr &&& X32_SYSCALL_BIT = 0 then sysCallTable data.nr
    else x32SysCallTable (data.nr ^^^ X32_SYSCALL_BIT)
  else if data.arch = AUDIT_ARCH_I386 then ia32SysCallTable data.nr
  else .other

/-- The calls that `event_from_syscall` tells apart. -/
def Sysno.ofNr : UInt64 → Sysno
  | 9 => .mmap
  | 11 => .munmap
  | 25 => .mremap
  | 28 => .madvise
  | 10 => .mprotect
  | 329 => .pkeyMprotect
  | 61 => .wait4
  | 56 => .clone
  | 435 => .clone3
  | 59 => .execve
  | 322 => .execveat
  | 60 => .exit
  | _ => .other

theorem lookup_ia2Policies (h : ia2Policies.lookup nr = some ret) :
    ret = SECCOMP_RET_TRACE ∨ ret = SECCOMP_RET_ALLOW := by
  obtain ⟨before, after, hpolicies, -⟩ := List.lookup_eq_some_iff.mp h
  have hall : ia2Policies.all (fun rule =>
      rule.2 == SECCOMP_RET_TRACE || rule.2 == SECCOMP_RET_ALLOW) := rfl
  have hrule := List.all_eq_true.mp hall (nr, ret) (by rw [hpolicies]; simp)
  simpa using hrule

theorem lookup_eq_trace (h : ia2Policies.lookup nr = some SECCOMP_RET_TRACE) :
    nr ∈ [9, 10, 25, 11, 28, 329] := by
  obtain ⟨before, after, hpolicies, -⟩ := List.lookup_eq_some_iff.mp h
  have hall : ia2Policies.all (fun rule =>
      rule.2 != SECCOMP_RET_TRACE || [9, 10, 25, 11, 28, 329].contains rule.1) := rfl
  have hrule := List.all_eq_true.mp hall (nr, SECCOMP_RET_TRACE) (by rw [hpolicies]; simp)
  simpa using hrule

theorem lookup_of_traced (h : data.sysno.traced = true) :
    ia2Policies.lookup data.nr = some SECCOMP_RET_TRACE ∨
      ia2Policies.lookup data.nr = none ∧ data.nr ≠ NR_ioctl ∨
      data.arch = AUDIT_ARCH_I386 ∧ data.nr = 219 := by
  unfold SeccompData.sysno at h
  split at h
  · split at h
    · left
      generalize data.nr = nr at h
      unfold sysCallTable at h
      split at h
      all_goals first
      | decide
      | exact absurd h Bool.false_ne_true
    · right
      left
      have hnr : data.nr = (data.nr ^^^ X32_SYSCALL_BIT) ^^^ X32_SYSCALL_BIT := by
        rw [UInt32.xor_assoc, UInt32.xor_self, UInt32.xor_zero]
      rw [hnr]
      generalize data.nr ^^^ X32_SYSCALL_BIT = nr at h
      unfold x32SysCallTable at h
      split at h
      all_goals first
      | decide
      | exact absurd h Bool.false_ne_true
  · split at h
    · rename_i harch
      have hnr : ∀ nr, (ia32SysCallTable nr).traced = true →
          ia2Policies.lookup nr = none ∧ nr ≠ NR_ioctl ∨ nr = 219 := by
        intro nr hnr
        unfold ia32SysCallTable at hnr
        split at hnr
        all_goals first
        | decide
        | exact absurd hnr Bool.false_ne_true
      exact .inr ((hnr data.nr h).imp_right fun heq => ⟨harch, heq⟩)
    · exact absurd h Bool.false_ne_true

/-! ### The strictest answer -/

section Strictest

variable {filters : List Filter} {data : SeccompData} {f : Filter} {ret : UInt32} {listener : Bool}

theorem foldl_strictest (data : SeccompData) (filters : List Filter)
    (best : UInt32 × Option Filter) :
    let last := filters.foldl (fun best f => if actionOnly (f.run data) < actionOnly best.1
      then (f.run data, some f) else best) best
    (last = best ∨ ∃ f ∈ filters, last = (f.run data, some f)) ∧
      actionOnly last.1 ≤ actionOnly best.1 ∧
      ∀ f ∈ filters, actionOnly last.1 ≤ actionOnly (f.run data) := by
  induction filters generalizing best with
  | nil => exact ⟨.inl rfl, le_refl _, fun f hf => nomatch hf⟩
  | cons f filters ih =>
    simp only [List.foldl_cons, List.exists_mem_cons_iff, List.forall_mem_cons]
    by_cases hf : actionOnly (f.run data) < actionOnly best.1
    · rw [if_pos hf]
      obtain ⟨hlast, hle, hall⟩ := ih (f.run data, some f)
      exact ⟨.inr hlast, hle.trans hf.le, hle, hall⟩
    · rw [if_neg hf]
      obtain ⟨hlast, hle, hall⟩ := ih best
      exact ⟨hlast.imp_right .inr, hle, hle.trans (not_lt.mp hf), hall⟩

theorem runFilters_le (hf : f ∈ filters) (data : SeccompData) :
    actionOnly (runFilters data filters).1 ≤ actionOnly (f.run data) :=
  (foldl_strictest data filters _).2.2 f hf

theorem runFilters_matched (h : (runFilters data filters).2 = some f) :
    f ∈ filters ∧ (runFilters data filters).1 = f.run data := by
  obtain ⟨hlast | ⟨f', hf', hlast⟩, -⟩ := foldl_strictest data filters (SECCOMP_RET_ALLOW, none)
  · exact absurd (h.symm.trans (congrArg Prod.snd hlast)) nofun
  · obtain rfl : f = f' := Option.some.inj (h.symm.trans (congrArg Prod.snd hlast))
    exact ⟨hf', congrArg Prod.fst hlast⟩

theorem action_ne {action : UInt32} (h : actionOnly ret < action.toInt32.toInt) :
    ret &&& 0xFFFF0000 ≠ action := by
  rintro rfl
  exact lt_irrefl _ h

theorem Verdict.ofAction_killed (h : actionOnly ret ≤ actionOnly SECCOMP_RET_KILL_PROCESS) :
    Verdict.ofAction ret listener = .killed := by
  have hne : ∀ action : UInt32, actionOnly SECCOMP_RET_KILL_PROCESS < action.toInt32.toInt →
      ret &&& 0xFFFF0000 ≠ action :=
    fun action haction => action_ne (lt_of_le_of_lt h haction)
  have hallow := hne SECCOMP_RET_ALLOW (by decide)
  have hlog := hne SECCOMP_RET_LOG (by decide)
  have htrace := hne SECCOMP_RET_TRACE (by decide)
  have hnotif := hne SECCOMP_RET_USER_NOTIF (by decide)
  have herrno := hne SECCOMP_RET_ERRNO (by decide)
  have htrap := hne SECCOMP_RET_TRAP (by decide)
  simp only [Verdict.ofAction, hallow, hlog, htrace, hnotif, herrno, htrap, or_self, if_false]

theorem Verdict.ofAction_strict (h : actionOnly ret ≤ actionOnly SECCOMP_RET_TRACE)
    (hlistener : listener = true → ret &&& 0xFFFF0000 ≠ SECCOMP_RET_USER_NOTIF) :
    Verdict.ofAction ret listener = .traced ∨ Verdict.ofAction ret listener = .refused ∨
      Verdict.ofAction ret listener = .killed := by
  have hallow : ret &&& 0xFFFF0000 ≠ SECCOMP_RET_ALLOW := action_ne (lt_of_le_of_lt h (by decide))
  have hlog : ret &&& 0xFFFF0000 ≠ SECCOMP_RET_LOG := action_ne (lt_of_le_of_lt h (by decide))
  simp only [Verdict.ofAction, hallow, hlog, or_self, if_false]
  split
  · exact .inl rfl
  · split
    · rename_i hnotif
      cases listener with
      | true => exact absurd hnotif (hlistener rfl)
      | false => exact .inr (.inl rfl)
    · split
      · exact .inr (.inl rfl)
      · exact .inr (.inr rfl)

theorem verdict_killed (hf : f ∈ filters) (hkill : f.run data = SECCOMP_RET_KILL_PROCESS) :
    verdict filters data = .killed := by
  apply Verdict.ofAction_killed
  rw [← hkill]
  exact runFilters_le hf data

end Strictest

/-! ### Filters can only be added -/

/-- The two filters are installed, and no other one has a listener. -/
structure Guarded (filters : List Filter) : Prop where
  ia2 : ∃ f ∈ filters, f.toSockFprog = ia2FilterProg
  forbid : ∃ f ∈ filters, f.toSockFprog = forbidSeccompProg
  listener : ∀ f ∈ filters, f.listener = true → f.toSockFprog = ia2FilterProg

section Guarded

variable {filters filters' : List Filter} {data : SeccompData}

theorem Guarded.killed_of_lookup (h : Guarded filters) (hlookup : ia2Policies.lookup data.nr = none)
    (hioctl : data.nr = NR_ioctl → (data.args 1).toUInt32 ≠ TCGETS) :
    verdict filters data = .killed := by
  obtain ⟨f, hf, hprog⟩ := h.ia2
  apply verdict_killed hf
  rw [hprog, run_ia2FilterProg, hlookup, if_neg fun ⟨hnr, hrequest⟩ => hioctl hnr hrequest]
  rfl

theorem Guarded.killed_of_seccomp (h : Guarded filters) (hcall : data.IsSeccomp) :
    verdict filters data = .killed := by
  obtain ⟨-, hnr | hnr⟩ | ⟨-, hnr⟩ := hcall
  · obtain ⟨f, hf, hprog⟩ := h.forbid
    apply verdict_killed hf
    rw [hprog, run_forbidSeccompProg, if_pos hnr]
  · apply h.killed_of_lookup
    · rw [hnr]
      decide
    · exact fun hioctl => absurd (hnr.symm.trans hioctl) (by decide)
  · apply h.killed_of_lookup
    · rw [hnr]
      decide
    · exact fun hioctl => absurd (hnr.symm.trans hioctl) (by decide)

theorem Guarded.step (h : Guarded filters) (hstep : FilterStep filters data filters') :
    Guarded filters' := by
  cases hstep with
  | keep => exact h
  | seccomp f hcall hruns =>
    rw [h.killed_of_seccomp hcall] at hruns
    exact hruns.elim
  | prctl f hcall hruns hlistener =>
    obtain ⟨⟨ia2, hia2, hprog⟩, ⟨forbid, hforbid, hprog'⟩, hothers⟩ := h
    refine ⟨⟨ia2, .tail f hia2, hprog⟩, ⟨forbid, .tail f hforbid, hprog'⟩, ?_⟩
    intro f' hf' hlistener'
    cases hf' with
    | head => exact absurd (hlistener.symm.trans hlistener') Bool.false_ne_true
    | tail _ hf' => exact hothers f' hf' hlistener'

theorem Guarded.run {calls : List SeccompData} (h : Guarded filters)
    (hrun : Run FilterStep filters calls filters') : Guarded filters' := by
  induction hrun with
  | nil => exact h
  | cons hstep _ ih => exact ih (h.step hstep)

theorem Guarded.verdict_of_lookup (h : Guarded filters)
    (hlookup : ia2Policies.lookup data.nr = some SECCOMP_RET_TRACE) :
    verdict filters data = .traced ∨ verdict filters data = .refused ∨
      verdict filters data = .killed := by
  have hrun : ia2FilterProg.run data = SECCOMP_RET_TRACE := by
    rw [run_ia2FilterProg, hlookup]
    rfl
  change Verdict.ofAction (runFilters data filters).1
    ((runFilters data filters).2.any (·.listener)) = _ ∨ _
  apply Verdict.ofAction_strict
  · obtain ⟨f, hf, hprog⟩ := h.ia2
    rw [← hrun, ← hprog]
    exact runFilters_le hf data
  · -- the only filter with a listener answers `TRACE`
    intro hlistener hnotif
    obtain ⟨f, hmatched, hlistener⟩ := (Option.any_eq_true _ _).mp hlistener
    obtain ⟨hf, hret⟩ := runFilters_matched hmatched
    rw [hret, h.listener f hf hlistener, hrun] at hnotif
    exact absurd hnotif (by decide)

theorem Guarded.verdict_of_traced (h : Guarded filters) (htraced : data.sysno.traced = true)
    (hmadvise : ¬ (data.arch = AUDIT_ARCH_I386 ∧ data.nr = 219)) :
    verdict filters data = .traced ∨ verdict filters data = .refused ∨
      verdict filters data = .killed := by
  obtain hlookup | ⟨hlookup, hioctl⟩ | hhole := lookup_of_traced htraced
  · exact h.verdict_of_lookup hlookup
  · exact .inr (.inr (h.killed_of_lookup hlookup fun heq => absurd heq hioctl))
  · exact absurd hhole hmadvise

end Guarded

/-! ### Setting up -/

section Setup

variable {accepts : SockFprog → Bool} {ip : UInt64} {address : SockFprog → UInt64}
  {prog : SockFprog} {inherited filters : List Filter}

theorem seccomp_eq {mode flags address : UInt64}
    (h : seccomp accepts ip mode flags prog address inherited = some filters) :
    filters = ⟨prog, flags &&& SECCOMP_FILTER_FLAG_NEW_LISTENER ≠ 0⟩ :: inherited := by
  rw [seccomp] at h
  split at h
  · exact (Option.some.inj h).symm
  · exact nomatch h

theorem configureSeccomp_eq (h : configureSeccomp accepts ip address prog inherited =
    some filters) :
    filters = ⟨forbidSeccompProg, false⟩ :: ⟨prog, true⟩ :: inherited := by
  obtain ⟨first, hfirst, hsecond⟩ := Option.bind_eq_some_iff.mp h
  rw [seccomp_eq hsecond, seccomp_eq hfirst]
  rfl

theorem configureSeccomp_guarded (hinherited : ∀ f ∈ inherited, f.listener = false)
    (h : configureSeccomp accepts ip address ia2FilterProg inherited = some filters) :
    Guarded filters := by
  rw [configureSeccomp_eq h]
  refine ⟨⟨_, .tail _ (.head _), rfl⟩, ⟨_, .head _, rfl⟩, ?_⟩
  intro f hf hlistener
  cases hf with
  | head => exact absurd hlistener Bool.false_ne_true
  | tail _ hf =>
    cases hf with
    | head => rfl
    | tail _ hf => exact absurd ((hinherited f hf).symm.trans hlistener) Bool.false_ne_true

theorem configureSeccomp_succeeds (accepts : SockFprog → Bool) (ip : UInt64)
    (address : SockFprog → UInt64) (hfirst : accepts ia2FilterProg = true)
    (hsecond : accepts forbidSeccompProg = true) :
    configureSeccomp accepts ip address ia2FilterProg [] =
      some [⟨forbidSeccompProg, false⟩, ⟨ia2FilterProg, true⟩] := by
  have hnone : ∀ data : SeccompData, verdict [] data = .runs := fun _ => rfl
  have hruns : ∀ data : SeccompData, data.nr = NR_seccomp →
      verdict [⟨ia2FilterProg, true⟩] data = .runs := by
    intro data hnr
    have hrun : ia2FilterProg.run data = SECCOMP_RET_ALLOW := by
      rw [run_ia2FilterProg, hnr]
      rfl
    simp only [verdict, runFilters, List.foldl_cons, List.foldl_nil, hrun]
    rfl
  have hinstall : seccomp accepts ip SECCOMP_SET_MODE_FILTER SECCOMP_FILTER_FLAG_NEW_LISTENER
    ia2FilterProg (address ia2FilterProg) [] =
      some [⟨ia2FilterProg, true⟩] := if_pos ⟨hnone _, hfirst⟩
  rw [configureSeccomp, hinstall]
  exact if_pos ⟨hruns _ rfl, hsecond⟩

theorem verdict_configured (data : SeccompData) :
    verdict [⟨forbidSeccompProg, false⟩, ⟨ia2FilterProg, true⟩] data =
      if data.nr = NR_seccomp then .killed
      else if ia2Policies.lookup data.nr = some SECCOMP_RET_TRACE then .traced
      else if (ia2Policies.lookup data.nr).isSome ∨
        data.nr = NR_ioctl ∧ (data.args 1).toUInt32 = TCGETS then .runs
      else .killed := by
  by_cases hseccomp : data.nr = NR_seccomp
  · rw [if_pos hseccomp]
    apply verdict_killed (List.mem_cons_self ..)
    rw [run_forbidSeccompProg, if_pos hseccomp]
  · have hforbid : forbidSeccompProg.run data = SECCOMP_RET_ALLOW := by
      rw [run_forbidSeccompProg, if_neg hseccomp]
    have hanswer : ∀ ret, ia2FilterProg.run data = ret →
        verdict [⟨forbidSeccompProg, false⟩, ⟨ia2FilterProg, true⟩] data =
          if actionOnly ret < actionOnly SECCOMP_RET_ALLOW then Verdict.ofAction ret true
          else .runs := by
      intro ret hret
      simp only [verdict, runFilters, List.foldl_cons, List.foldl_nil, hforbid, hret,
        if_neg (lt_irrefl (actionOnly SECCOMP_RET_ALLOW))]
      split
      · rfl
      · rfl
    rw [if_neg hseccomp, hanswer _ (run_ia2FilterProg data)]
    cases hlookup : ia2Policies.lookup data.nr with
    | some ret =>
      obtain rfl | rfl := lookup_ia2Policies hlookup
      · rw [if_pos rfl, Option.getD_some]
        decide
      · have hallowed : (some SECCOMP_RET_ALLOW).isSome = true ∨
            data.nr = NR_ioctl ∧ (data.args 1).toUInt32 = TCGETS := .inl rfl
        have hne : ¬ some SECCOMP_RET_ALLOW = some SECCOMP_RET_TRACE := by decide
        rw [if_neg hne, Option.getD_some, if_pos hallowed]
        decide
    | none =>
      have hne : ¬ none = some SECCOMP_RET_TRACE := nofun
      rw [if_neg hne, Option.getD_none, Option.isSome_none]
      by_cases hioctl : data.nr = NR_ioctl ∧ (data.args 1).toUInt32 = TCGETS
      · have hallowed : false = true ∨ data.nr = NR_ioctl ∧ (data.args 1).toUInt32 = TCGETS :=
          .inr hioctl
        rw [if_pos hioctl, if_pos hallowed]
        decide
      · rw [if_neg hioctl, if_neg (not_or.mpr ⟨Bool.false_ne_true, hioctl⟩)]
        decide

/-! ### What holds of every program under the filters -/

/-- Whatever filters the program is started under, and whatever it adds to them: no call of the
`TRACE` list is run without the tracer, except `madvise` through the 32-bit entry, which the two
filters let run; no `seccomp` call is run, and calls without a line in the policy end the process.
-/
theorem trace_list_never_untraced (accepts : SockFprog → Bool) (ip : UInt64)
    (address : SockFprog → UInt64) (inherited filters filters' : List Filter)
    (hinherited : ∀ f ∈ inherited, f.listener = false)
    (hsetup : configureSeccomp accepts ip address ia2FilterProg inherited = some filters)
    (calls : List SeccompData) (hrun : Run FilterStep filters calls filters') (data : SeccompData) :
    (data.sysno.traced = true → ¬ (data.arch = AUDIT_ARCH_I386 ∧ data.nr = 219) →
        verdict filters' data = .traced ∨ verdict filters' data = .refused ∨
          verdict filters' data = .killed) ∧
      (inherited = [] → data.arch = AUDIT_ARCH_I386 → data.nr = 219 →
        data.sysno = .madvise ∧ verdict filters data = .runs) ∧
      (data.IsSeccomp → verdict filters' data = .killed) ∧
      (ia2Policies.lookup data.nr = none → (data.nr = NR_ioctl → (data.args 1).toUInt32 ≠ TCGETS) →
        verdict filters' data = .killed) := by
  have hguarded := (configureSeccomp_guarded hinherited hsetup).run hrun
  refine ⟨hguarded.verdict_of_traced, ?_, hguarded.killed_of_seccomp, hguarded.killed_of_lookup⟩
  intro hnone harch hnr
  constructor
  · rw [SeccompData.sysno, harch, hnr]
    decide
  · rw [configureSeccomp_eq hsetup, hnone, verdict_configured, hnr]
    rfl

/-- A filter that allows everything does not help. -/
theorem trace_list_never_untraced_mmap :
    let allowAll : Filter := ⟨⟨[.ret SECCOMP_RET_ALLOW], .inl rfl⟩, false⟩
    let prctl : SeccompData := ⟨157, AUDIT_ARCH_X86_64, 0x1000, ![22, 2, 0x2000, 0, 0, 0]⟩
    let mmap : SeccompData := ⟨9, AUDIT_ARCH_X86_64, 0x1000, ![0, 0x1000, 3, 0x22, 0, 0]⟩
    let madvise : SeccompData := ⟨219, AUDIT_ARCH_I386, 0x1000, ![0x9000, 0x1000, 4, 0, 0, 0]⟩
    let filters : List Filter := [⟨forbidSeccompProg, false⟩, ⟨ia2FilterProg, true⟩]
    Run FilterStep filters [prctl] (allowAll :: filters) ∧
      (verdict (allowAll :: filters) mmap = .traced ∨
        verdict (allowAll :: filters) mmap = .refused ∨
        verdict (allowAll :: filters) mmap = .killed) ∧
      madvise.sysno = .madvise ∧ verdict filters madvise = .runs := by
  intro allowAll prctl mmap madvise filters
  have hprctl : (verdict filters prctl).MayRun := by
    rw [verdict_configured]
    exact trivial
  have hrun : Run FilterStep filters [prctl] (allowAll :: filters) :=
    .cons (.prctl allowAll (.inl ⟨rfl, .inl rfl⟩) hprctl rfl) (.nil _)
  have hsetup := configureSeccomp_succeeds (fun _ => true) 0x1000 (fun _ => 0x2000) rfl rfl
  have hguards := trace_list_never_untraced _ _ _ [] _ _ (List.forall_mem_nil _) hsetup _ hrun
  exact ⟨hrun, (hguards mmap).1 (by decide) (by decide), (hguards madvise).2.1 rfl rfl rfl⟩

theorem Sysno.ofNr_low (nr : UInt64) : Sysno.ofNr nr = .other ∨ nr.toUInt32.toUInt64 = nr := by
  unfold Sysno.ofNr
  split
  all_goals first
  | exact .inr rfl
  | exact .inl rfl

/-- With these two filters alone, the tracer is asked about the numbers of the `TRACE` list and no
others. Through the 64-bit entry the call is one of the list, and the tracer takes it for the call
that the kernel is about to run, or, if the register has bits beyond the call's number, for none
that it knows, and gives up. Through the 32-bit entry the call is another one, and the tracer takes
it for one of the list all the same. -/
theorem filters_agree_with_tracer (accepts : SockFprog → Bool) (ip : UInt64)
    (address : SockFprog → UInt64) (filters : List Filter)
    (hsetup : configureSeccomp accepts ip address ia2FilterProg [] = some filters)
    (data : SeccompData) (origRax : UInt64) (hnr : data.nr = origRax.toUInt32) (regs : UserRegs)
    (hregs : regs.syscall = .ofNr origRax) (pkey : UInt8) :
    (verdict filters data = .traced ↔ ia2Policies.lookup data.nr = some SECCOMP_RET_TRACE) ∧
      (verdict filters data = .traced → data.arch = AUDIT_ARCH_X86_64 →
        data.sysno.traced = true ∧ (interpretSyscall regs pkey .seccomp = none ∨
          regs.syscall = data.sysno ∧ (interpretSyscall regs pkey .seccomp).isSome)) ∧
      (verdict filters data = .traced → data.arch = AUDIT_ARCH_I386 →
        data.sysno.traced = false ∧ (origRax.toUInt32.toUInt64 = origRax →
          regs.syscall.traced = true ∧ (interpretSyscall regs pkey .seccomp).isSome)) := by
  have hiff : verdict filters data = .traced ↔
      ia2Policies.lookup data.nr = some SECCOMP_RET_TRACE := by
    rw [configureSeccomp_eq hsetup, verdict_configured]
    split
    · rename_i hseccomp
      rw [hseccomp]
      decide
    · by_cases hlookup : ia2Policies.lookup data.nr = some SECCOMP_RET_TRACE
      · simp [hlookup]
      · rw [if_neg hlookup]
        split
        · simp [hlookup]
        · simp [hlookup]
  -- the tracer knows every call of the list
  have hknown : regs.syscall.traced = true → (interpretSyscall regs pkey .seccomp).isSome := by
    intro htraced
    cases hcall : regs.syscall with
    | other =>
      rw [hcall] at htraced
      exact absurd htraced Bool.false_ne_true
    | _ => simp [interpretSyscall, hcall]
  have hlisted : ∀ nr ∈ ([9, 10, 25, 11, 28, 329] : List UInt32),
      nr &&& X32_SYSCALL_BIT = 0 ∧ (sysCallTable nr).traced = true ∧
        Sysno.ofNr nr.toUInt64 = sysCallTable nr ∧ (ia32SysCallTable nr).traced = false := by
    intro nr hnr
    simp only [List.mem_cons, List.not_mem_nil, or_false] at hnr
    obtain rfl | rfl | rfl | rfl | rfl | rfl := hnr
    all_goals exact ⟨rfl, rfl, rfl, rfl⟩
  refine ⟨hiff, fun hverdict harch => ?_, fun hverdict harch => ?_⟩
  · obtain ⟨hx32, htraced, hname, -⟩ := hlisted _ (lookup_eq_trace (hiff.mp hverdict))
    have hsysno : data.sysno = sysCallTable data.nr := by
      rw [SeccompData.sysno, if_pos harch, if_pos hx32]
    rw [hsysno]
    refine ⟨htraced, ?_⟩
    obtain hother | hlow := Sysno.ofNr_low origRax
    · left
      simp only [interpretSyscall, hregs, hother]
      rfl
    · right
      have hsame : regs.syscall = sysCallTable data.nr := by rw [hregs, ← hname, hnr, hlow]
      exact ⟨hsame, hknown (hsame ▸ htraced)⟩
  · obtain ⟨-, htraced, hname, hother⟩ := hlisted _ (lookup_eq_trace (hiff.mp hverdict))
    have hsysno : data.sysno = ia32SysCallTable data.nr := by
      rw [SeccompData.sysno, harch, if_neg (by decide), if_pos rfl]
    refine ⟨hsysno ▸ hother, fun hlow => ?_⟩
    have hsame : regs.syscall = sysCallTable data.nr := by rw [hregs, ← hname, hnr, hlow]
    exact ⟨hsame ▸ htraced, hknown (hsame ▸ htraced)⟩

/-- Number 11 is `munmap` for the 64-bit entry and `execve` for the 32-bit one. -/
theorem filters_agree_with_tracer_munmap :
    let munmap : SeccompData := ⟨11, AUDIT_ARCH_X86_64, 0x1000, ![0x9000, 0x1000, 0, 0, 0, 0]⟩
    let execve : SeccompData := ⟨11, AUDIT_ARCH_I386, 0x1000, ![0x9000, 0x1000, 0, 0, 0, 0]⟩
    let filters : List Filter := [⟨forbidSeccompProg, false⟩, ⟨ia2FilterProg, true⟩]
    verdict filters munmap = .traced ∧ munmap.sysno.traced = true ∧
      verdict filters execve = .traced ∧ execve.sysno = .execve ∧ execve.sysno.traced = false := by
  intro munmap execve filters
  have hsetup := configureSeccomp_succeeds (fun _ => true) 0x1000 (fun _ => 0x2000) rfl rfl
  obtain ⟨hiff, hlong, -⟩ := filters_agree_with_tracer _ _ _ _ hsetup munmap 11 rfl
    ⟨.munmap, 0x9000, 0x1000, 0, 0, 0⟩ rfl 1
  obtain ⟨hiff', -, hshort⟩ := filters_agree_with_tracer _ _ _ _ hsetup execve 11 rfl
    ⟨.munmap, 0x9000, 0x1000, 0, 0, 0⟩ rfl 1
  have hmunmap := hiff.mpr rfl
  have hexecve := hiff'.mpr rfl
  exact ⟨hmunmap, (hlong hmunmap rfl).1, hexecve, rfl, (hshort hexecve rfl).1⟩

end Setup

end Ia2.Tracer
