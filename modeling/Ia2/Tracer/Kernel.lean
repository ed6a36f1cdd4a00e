import Ia2.Library.Runs
import Ia2.Tracer.Events

/-!
# The reference kernel

Linux's side of the system calls that the tracer follows. The kernel's memory map gives each mapped
page its protection and its protection key. `Accepts` collects what Linux checks of the arguments
before a call can succeed, `KernelStep` what a successful call does to the map. A call that fails
leaves the map alone.
-/

namespace Ia2.Tracer

structure Mapping where
  prot : UInt32
  pkey : UInt8
deriving DecidableEq, Repr

abbrev KernelMap := Nat → Option Mapping

namespace UserRegs

/-- The range of `mmap`, `munmap`, `mprotect` and `pkey_mprotect`, and the old range of `mremap`. -/
def range (regs : UserRegs) : Range := ⟨regs.arg0.toNat, regs.arg1.toNat⟩

def prot (regs : UserRegs) : UInt32 := regs.arg2.toUInt32

def flags (regs : UserRegs) : UInt32 := regs.arg3.toUInt32

def pkeyArg (regs : UserRegs) : UInt32 := regs.arg3.toUInt32

def mapped (regs : UserRegs) (retval : UInt64) : Range := ⟨retval.toNat, regs.arg1.toNat⟩

def moved (regs : UserRegs) (retval : UInt64) : Range := ⟨retval.toNat, regs.arg2.toNat⟩

end UserRegs

/-- What Linux checks of the arguments and guarantees of the result of a call that succeeds.
Addresses are page-aligned and lie in user space, far from the top of the address space. -/
def Accepts (regs : UserRegs) (retval : UInt64) : Prop :=
  match regs.syscall with
  | .mmap =>
    0 < (regs.mapped retval).len ∧ retval.toNat % 4096 = 0 ∧ (regs.mapped retval).Fits ∧
      (hasFlag regs.flags MAP_FIXED = true → retval = regs.arg0)
  | .munmap => 0 < regs.range.len ∧ regs.range.start % 4096 = 0 ∧ regs.range.Fits
  | .mremap =>
    0 < (regs.moved retval).len ∧ retval.toNat % 4096 = 0 ∧ (regs.moved retval).Fits ∧
      regs.range.start % 4096 = 0 ∧ regs.range.Fits ∧
      (hasFlag regs.flags MREMAP_FIXED = true →
        retval = regs.arg4 ∧ regs.range.Apart (regs.moved retval)) ∧
      (hasFlag regs.flags MREMAP_DONTUNMAP = true → regs.range.len = (regs.moved retval).len)
  | .mprotect => regs.range.start % 4096 = 0 ∧ regs.range.Fits
  | .pkeyMprotect =>
    regs.range.start % 4096 = 0 ∧ regs.range.Fits ∧
      (0 < regs.range.len → regs.pkeyArg = 0xFFFFFFFF ∨ regs.pkeyArg < 16)
  | _ => True

instance (regs : UserRegs) (retval : UInt64) : Decidable (Accepts regs retval) := by
  unfold Accepts
  cases regs.syscall <;> infer_instance

def Mapping.setProt (prot : UInt32) (m : Mapping) : Mapping := { m with prot := prot }

def Mapping.setPkey (prot : UInt32) (pkeyArg : UInt32) (m : Mapping) : Mapping :=
  ⟨prot, if pkeyArg = 0xFFFFFFFF then m.pkey else pkeyArg.toUInt8⟩

def Takes (k : KernelMap) (regs : UserRegs) (retval : UInt64) (k' : KernelMap) : Prop :=
  match regs.syscall with
  | .mmap =>
    (hasFlag regs.flags MAP_FIXED = false → ∀ p, (regs.mapped retval).Meets p → k p = none) ∧
      k' = fun p => if (regs.mapped retval).Meets p then some ⟨regs.prot, 0⟩ else k p
  | .munmap => k' = fun p => if regs.range.Meets p then none else k p
  | .mremap =>
    ∃ m, k (regs.range.start / 4096) = some m ∧ (∀ p, regs.range.Meets p → k p = some m) ∧
      (hasFlag regs.flags MREMAP_FIXED = false → ∀ p, (regs.moved retval).Meets p →
        k p = none ∨ (regs.range.Meets p ∧ hasFlag regs.flags MREMAP_DONTUNMAP = false)) ∧
      k' = fun p =>
        if (regs.moved retval).Meets p then some m
        else if regs.range.Meets p ∧ hasFlag regs.flags MREMAP_DONTUNMAP = false then none
        else k p
  | .mprotect =>
    (∀ p, regs.range.Meets p → (k p).isSome) ∧
      k' = fun p => if regs.range.Meets p then (k p).map (Mapping.setProt regs.prot) else k p
  | .pkeyMprotect =>
    (∀ p, regs.range.Meets p → (k p).isSome) ∧
      k' = fun p => if regs.range.Meets p then (k p).map (Mapping.setPkey regs.prot regs.pkeyArg)
      else k p
  | .execve | .execveat => ∃ p, (k' p).isSome
  | _ => k' = k

/-- The results the kernel can return for a call, with its map afterwards. -/
def KernelStep (k : KernelMap) (regs : UserRegs) (retval : UInt64) (k' : KernelMap) : Prop :=
  if 2 ^ 63 ≤ retval.toNat then k' = k else Accepts regs retval ∧ Takes k regs retval k'

/-! ### Traced system calls -/

/-- A system call as the tracer sees it: the registers at entry, the compartment that issued it and
the result. -/
structure Call where
  regs : UserRegs
  pkey : UInt8
  mode : TraceMode
  retval : UInt64
  pkey_lt : pkey < 16

structure Recorded {T : Type} [IntervalTree T Nat State] (map : MemoryMap T) (call : Call)
    (event : Event) (map' : MemoryMap T) : Prop where
  interpreted : interpretSyscall call.regs call.pkey call.mode = some event
  permitted : map.isOpPermitted event = .ok true
  succeeded : call.retval.toNat < 2 ^ 63
  accepted : Accepts call.regs call.retval
  updated : map.finishSyscall event call.retval = .ok (map', true)

/-- What the tracer can do with a process's memory map. -/
inductive Action where
  | syscall (call : Call) (event : Event)
  | finishInit
  | execStop

variable {T : Type} [IntervalTree T Nat State]

/-- One step of the tracer on a memory map. -/
def MapStep (map : MemoryMap T) (action : Action) (map' : MemoryMap T) : Prop :=
  match action with
  | .syscall call event => Recorded map call event map'
  | .finishInit => map.markInitFinished = (map', true)
  | .execStop => map' = map.clear

/-- The maps that runs of the tracer can reach: from the empty map, through loading the initial
mappings of a process and then any steps. -/
inductive Reachable : MemoryMap T → Prop where
  | new : Reachable MemoryMap.new
  | load {map map' : MemoryMap T} {range : Range} {prot : UInt32} {added : Bool} : Reachable map →
    range.Fits →
      map.addFreshRegion range 0 prot = .ok (map', added) → Reachable map'
  | step {map map' : MemoryMap T} {action : Action} : Reachable map → MapStep map action map' →
    Reachable map'

end Ia2.Tracer
