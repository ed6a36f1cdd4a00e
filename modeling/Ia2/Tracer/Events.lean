import Ia2.Tracer.MemoryMap
import Mathlib.Tactic.IntervalCases

/-!
# The tracer's view of a system call

The event a stopped system call stands for, the policy that decides whether it may run, and the
update of the memory map with its result. The C code reads the arguments of the call from 64-bit
registers into the fields of an event, which truncates protections and flags to 32 bits and the new
owner of a `pkey_mprotect` to 8.
-/

namespace Ia2.Tracer

def PROT_WRITE : UInt32 := 2
def MAP_FIXED : UInt32 := 0x10
def MAP_STACK : UInt32 := 0x20000
def MREMAP_FIXED : UInt32 := 2
def MREMAP_DONTUNMAP : UInt32 := 4

/-- Whether a flag word has a flag set. -/
def hasFlag (flags flag : UInt32) : Bool := decide (flags &&& flag ≠ 0)

/-! ### Compartments -/

def PKEY_INVALID : UInt8 := 255

def PKRU (pkey : UInt32) : UInt32 := ~~~((3 <<< (2 * pkey)) ||| 3)

def pkeyForPkru (pkru : UInt32) : UInt8 :=
  match (List.range 16).find? fun x => decide (pkru = PKRU x.toUInt32) with
  | some x => x.toUInt8
  | none => if pkru = 0x55555550 ∨ pkru = 0x55555554 ∨ pkru = 0 then 0 else PKEY_INVALID

theorem pkeyForPkru_lt {pkru : UInt32} (h : pkeyForPkru pkru ≠ PKEY_INVALID) :
    pkeyForPkru pkru < 16 := by
  unfold pkeyForPkru at *
  split at *
  · rename_i x hfind
    have hx : x < 16 := List.mem_range.mp (List.mem_of_find?_eq_some hfind)
    interval_cases x <;> decide
  · by_cases hspecial : pkru = 0x55555550 ∨ pkru = 0x55555554 ∨ pkru = 0
    · rw [if_pos hspecial]
      decide
    · rw [if_neg hspecial] at h
      exact absurd rfl h

/-! ### Events -/

structure MmapInfo where
  range : Range
  prot : UInt32
  flags : UInt32
  fildes : UInt32
  pkey : UInt8
deriving DecidableEq, Repr

structure MunmapInfo where
  range : Range
  pkey : UInt8
deriving DecidableEq, Repr

structure MremapInfo where
  oldRange : Range
  newRange : Range
  flags : UInt32
  pkey : UInt8
deriving DecidableEq, Repr

structure MadviseInfo where
  range : Range
  advice : UInt32
  pkey : UInt8
deriving DecidableEq, Repr

structure MprotectInfo where
  range : Range
  prot : UInt32
  pkey : UInt8
deriving DecidableEq, Repr

structure PkeyMprotectInfo where
  range : Range
  prot : UInt32
  newOwnerPkey : UInt8
  pkey : UInt8
deriving DecidableEq, Repr

inductive Event where
  | mmap (info : MmapInfo)
  | munmap (info : MunmapInfo)
  | mremap (info : MremapInfo)
  | madvise (info : MadviseInfo)
  | mprotect (info : MprotectInfo)
  | pkeyMprotect (info : PkeyMprotectInfo)
  | clone
  | exec
  | exit
  | none
deriving DecidableEq, Repr

def Event.targetRange : Event → Option Range
  | .mmap info => some info.range
  | .munmap info => some info.range
  | .mremap info => some info.oldRange
  | .madvise info => some info.range
  | .mprotect info => some info.range
  | .pkeyMprotect info => some info.range
  | _ => Option.none

inductive Sysno where
  | mmap | munmap | mremap | madvise | mprotect | pkeyMprotect
  | wait4 | clone | clone3 | execve | execveat | exit
  | other
deriving DecidableEq, Repr

/-- The registers of a process stopped at a system call, in argument order. -/
structure UserRegs where
  syscall : Sysno
  arg0 : UInt64
  arg1 : UInt64
  arg2 : UInt64
  arg3 : UInt64
  arg4 : UInt64
deriving DecidableEq, Repr

inductive TraceMode where
  | ptraceSyscall
  | seccomp
deriving DecidableEq, Repr

/-- The event that a system call stands for; nothing when a seccomp tracer stops on a call it does
not filter. -/
def interpretSyscall (regs : UserRegs) (pkey : UInt8) (mode : TraceMode) : Option Event :=
  let range : Range := ⟨regs.arg0.toNat, regs.arg1.toNat⟩
  match regs.syscall with
  | .mmap => some (.mmap ⟨range, regs.arg2.toUInt32, regs.arg3.toUInt32, regs.arg4.toUInt32, pkey⟩)
  | .munmap => some (.munmap ⟨range, pkey⟩)
  | .mremap =>
    let flags := regs.arg3.toUInt32
    let newStart := if hasFlag flags MREMAP_FIXED then regs.arg4.toNat else range.start
    some (.mremap ⟨range, ⟨newStart, regs.arg2.toNat⟩, flags, pkey⟩)
  | .madvise => some (.madvise ⟨range, regs.arg2.toUInt32, pkey⟩)
  | .mprotect => some (.mprotect ⟨range, regs.arg2.toUInt32, pkey⟩)
  | .pkeyMprotect => some (.pkeyMprotect ⟨range, regs.arg2.toUInt32, regs.arg3.toUInt8, pkey⟩)
  | .wait4 | .clone | .clone3 => some .clone
  | .execve | .execveat => some .exec
  | .exit => some .exit
  | .other => if mode = .seccomp then Option.none else some .none

/-- Record where the kernel put a mapping; nothing when the call failed. -/
def updateEventWithResult (retval : UInt64) (event : Event) : Option Event :=
  if 2 ^ 63 ≤ retval.toNat then Option.none
  else match event with
    | .mmap info => some (.mmap { info with range.start := retval.toNat })
    | .mremap info => some (.mremap { info with newRange.start := retval.toNat })
    | event => some event

def IA2_FINISH_INIT_MAGIC : Nat := 0x1a21face1a21face

def eventMarksInitFinished : Event → Bool
  | .mmap info => decide (info.range.start = IA2_FINISH_INIT_MAGIC) && hasFlag info.flags MAP_FIXED
  | _ => false

namespace MemoryMap

variable {T : Type} [IntervalTree T Nat State]

/-! ### The policy -/

def isOpPermitted (map : MemoryMap T) : Event → Outcome Bool
  | .mmap info =>
    -- a hint is not binding, so it is not checked against what is mapped there
    if !hasFlag info.flags MAP_FIXED then return true
    else map.allOverlappingRegionsHavePkey info.range info.pkey
  | .munmap info => map.allOverlappingRegionsHavePkey info.range info.pkey
  | .mremap info => map.allOverlappingRegionsHavePkey info.oldRange info.pkey
  | .madvise info => map.allOverlappingRegionsHavePkey info.range info.pkey
  | .mprotect info => do
    let impactsOnlyUnprotectedMemory ← map.allOverlappingRegionsMprotected info.range false
    if impactsOnlyUnprotectedMemory then
      return true
    if !map.initFinished then
      return true
    let prot ← map.regionGetProt info.range
    if prot ≠ PROT_INDETERMINATE ∧ hasFlag prot PROT_WRITE then
      return true
    return decide (prot = info.prot)
  | .pkeyMprotect info => do
    let impactsOnlyUnprotectedMemory ← map.allOverlappingRegionsPkeyMprotected info.range false
    let setsOurKey := decide (info.newOwnerPkey = info.pkey)
    if impactsOnlyUnprotectedMemory && setsOurKey then
      return true
    return decide (info.pkey = 0) && !setsOurKey
  | .clone | .exec | .exit | .none => return true

/-! ### The update -/

/-- Update the memory map. Returns whether the memory map could be updated as requested. -/
def updateMemoryMap (map : MemoryMap T) : Event → Outcome (MemoryMap T × Bool)
  | .mmap info => do
    -- stacks of new threads are attributed to compartment 0
    let pkey := if hasFlag info.flags MAP_STACK then 0 else info.pkey
    if hasFlag info.flags MAP_FIXED then
      let map ← map.unmapRegion info.range
      map.addFreshRegion info.range pkey info.prot
    else
      map.addFreshRegion info.range pkey info.prot
  | .munmap info => do
    let map ← map.unmapRegion info.range
    return (map, true)
  | .mremap info => do
    let prot ← map.regionGetProt info.oldRange
    if prot = PROT_INDETERMINATE then
      throw .exit
    if hasFlag info.flags MREMAP_DONTUNMAP then
      map.addFreshRegion info.newRange info.pkey prot
    else
      let map ← map.unmapRegion info.oldRange
      map.addFreshRegion info.newRange info.pkey prot
  | .madvise _ => return (map, true)
  | .mprotect info => map.mprotectRegion info.range info.prot
  | .pkeyMprotect info => map.pkeyMprotectRegion info.range info.newOwnerPkey
  | .exec => return (map.clear, true)
  | .clone | .exit | .none => return (map, true)

/-- What the tracer does when the system call returns: record its effect if it succeeded, and go on
unless the map could not be updated. -/
def finishSyscall (map : MemoryMap T) (event : Event) (retval : UInt64) :
    Outcome (MemoryMap T × Bool) :=
  match updateEventWithResult retval event with
  | some event => map.updateMemoryMap event
  | Option.none => return (map, true)

end MemoryMap

end Ia2.Tracer
