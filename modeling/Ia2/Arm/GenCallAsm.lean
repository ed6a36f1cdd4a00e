import Ia2.Arm.CAbi
import Ia2.Rewriter.GenCallAsm

/-!
# The call gate generator for AArch64

`emit_asm_wrapper` for AArch64, with one definition for each `emit_` function as on x86-64.
Arguments are not saved around condition functions, and a type check would be x86-64 code, so a
wrapper with type checks is none here. An indirect call site walks the two lists of locations in
step; it has no code where the walk runs past the end of the wrapper's list, or would move from or
to a vector register: the line is `mov q0, q0`, which is no instruction.
-/

namespace Ia2.Arm

open Rewriter (alignUp TargetInfo TypeInfo WrapperKind registryChecks)

/-! ### Frames and stacks -/

def emitPrologue : List Instr :=
  [.stpPre (.x 29) (.x 30), .mov (.x 29) .sp, .subImm .sp .sp (preservedRegisters.length * 8)] ++
    preservedRegisters.zipIdx.map fun (r, i) => .str .x (.x r) .sp (i * 8)

def emitEpilogue : List Instr :=
  (preservedRegisters.zipIdx.map fun (r, i) => .ldr .x (.x r) .sp (i * 8)) ++
    [.addImm .sp .sp (preservedRegisters.length * 8), .ldpPost (.x 29) (.x 30)]

def savedBytes : Nat := (preservedRegisters.length + 2) * 8

def emitCellAddr (pkey : Nat) : List Instr :=
  [.adrpGot (.x 10) pkey, .ldrGot (.x 10) (.x 10) pkey, .add (.x 10) (.x 10) (.x 9)] ++
    if pkey ≠ 0 then [.orrTag (.x 10) (.x 10) pkey] else []

def emitSwitchStacks (oldPkey newPkey : Nat) : List Instr :=
  [.mrsTpidr (.x 9)] ++ emitCellAddr oldPkey ++ [.mov (.x 12) .sp, .str .x (.x 12) (.x 10) 0] ++
    emitCellAddr newPkey ++
    [.ldr .x (.x 11) (.x 10) 0, .mov .sp (.x 11)]

def memcpyChunks (byteCount : Nat) : List (Width × Nat) :=
  let i := byteCount / 8 * 8
  let words := (List.range (byteCount / 8)).map fun k => (Width.x, 8 * k)
  let word := if i + 4 ≤ byteCount then [(Width.w, i)] else []
  let i := if i + 4 ≤ byteCount then i + 4 else i
  let short := if i + 2 ≤ byteCount then [(Width.h, i)] else []
  let i := if i + 2 ≤ byteCount then i + 2 else i
  let byte := if i < byteCount then [(Width.b, i)] else []
  words ++ word ++ short ++ byte

def emitMemcpy (byteCount : Nat) (dst src scratch : Reg) (srcOffset : Nat) : List Instr :=
  (memcpyChunks byteCount).flatMap fun (width, i) =>
    [.ldr width scratch src (i + srcOffset), .str width scratch dst i]

/-! ### Sizes -/

structure StackSizes where
  argSize : Nat
  argPadding : Nat
  returnSize : Nat
  returnPadding : Nat
  indirectSize : Nat
  indirectPadding : Nat
deriving DecidableEq, Repr

def stackReturnSize (rets : List Location) : Nat :=
  ((rets.filter fun x => x.isStack || x.isIndirect).map Location.size).sum

def indirectSpace (argSize : Nat) (arg : Location) : Nat :=
  let align := max arg.align 8
  (if argSize % align ≠ 0 then align - argSize % align else 0) + arg.size

def stackSizes (sig : AbiSignature) : StackSizes :=
  let args := (allocateParamLocations sig).1
  let argSize := (allocateParamLocations sig).2
  let argPadding := if argSize % 8 ≠ 0 then 8 - argSize % 8 else 0
  let indirectSize := ((args.filter Location.isIndirect).map (indirectSpace argSize)).sum
  let indirectPadding := if indirectSize % 16 ≠ 0 then 16 - indirectSize % 16 else 0
  let returnSize := stackReturnSize (allocateReturnLocations sig)
  let unaligned := (8 + returnSize) % 16
  let returnPadding := if 0 < returnSize ∧ unaligned ≠ 0 then 16 - unaligned else 0
  ⟨argSize, argPadding, returnSize, returnPadding, indirectSize, indirectPadding⟩

namespace StackSizes

variable (sizes : StackSizes)

/-- The stack arguments with their padding. -/
def argBytes : Nat := sizes.argSize + sizes.argPadding

/-- What `emit_copy_args` subtracts from the stack pointer. -/
def total : Nat :=
  sizes.returnSize + sizes.returnPadding + sizes.indirectSize + sizes.indirectPadding +
    sizes.argSize + sizes.argPadding +
    if 0 < sizes.returnSize then 8 else 0

def savedPtrOffset : Nat := sizes.argSize + sizes.argPadding

def returnStart : Nat := sizes.savedPtrOffset + 8

def indirectStart : Nat := sizes.returnStart + sizes.returnSize + sizes.returnPadding

end StackSizes

/-! ### Arguments -/

def emitReserve (sizes : StackSizes) :
    List Instr := if 0 < sizes.total then [.subImm .sp .sp sizes.total] else []

def emitReturnPointer (sizes : StackSizes) : List Instr :=
  if 0 < sizes.returnSize then [.str .x (.x 8) .sp sizes.savedPtrOffset,
    .addImm (.x 8) .sp sizes.returnStart] else []

def emitCopyStackArgs (sizes : StackSizes) (wrapperArgSize : Nat) : List Instr :=
  if 0 < sizes.argSize then emitMemcpy sizes.argSize .sp (.x 12) (.x 9)
    (savedBytes + wrapperArgSize - sizes.argSize) else []

def indirectCopies : Nat → List Location → List (Location × Nat)
  | _, [] => []
  | offset, arg :: args =>
    if arg.isIndirect then (arg, alignUp offset arg.align) ::
      indirectCopies (alignUp offset arg.align + arg.size) args
    else indirectCopies offset args

def emitCopyIndirect (arg : Location) (offset : Nat) : List Instr :=
  if arg.isStack then
    [.ldr .x (.x 10) .sp arg.stackOffset, .addImm (.x 9) .sp offset] ++
      emitMemcpy arg.size (.x 9) (.x 10) (.x 11) 0 ++
      [.str .x (.x 9) .sp arg.stackOffset]
  else
    match arg.reg with
    | some (.x r) =>
      [.mov (.x 10) (.x r), .addImm (.x r) .sp offset] ++
        emitMemcpy arg.size (.x r) (.x 10) (.x 11) 0
    | _ => []

def emitCopyIndirects (sizes : StackSizes) (args : List Location) : List Instr :=
  (indirectCopies sizes.indirectStart args).flatMap fun (arg, offset) => emitCopyIndirect arg offset

def moveReg : ArgReg → ArgReg → Option Instr
  | .x src, .x dst => some (.mov (.x dst) (.x src))
  | _, _ => none

def loadReg (offset : Nat) : ArgReg → Instr
  | .x dst => .ldr .x (.x dst) (.x 12) offset
  | .q dst => .ldrQ dst (.x 12) offset

def moveArg (src dst : Location) : Option (List Instr) :=
  if dst.isStack then some []
  else
    match dst.reg with
    | none => some []
    | some reg =>
      if src.isStack then some [loadReg (savedBytes + src.stackOffset) reg]
      else do return [← moveReg (← src.reg) reg]

def moveArgs : List Location → List Location → Option (List Instr)
  | _, [] => some []
  | [], dst :: dsts => if dst.isStack then moveArgs [] dsts else none
  | src :: srcs, dst :: dsts => do return (← moveArg src dst) ++ (← moveArgs srcs dsts)

def copyWrapperArgs (sizes : StackSizes) (wrapperArgs args : List Location) : Option (List Instr) :=
  let skip := if 0 < sizes.returnSize then 1 else 0
  match wrapperArgs.drop skip with
  | [] => none
  | pointer :: srcs => do
    return (← moveReg (← pointer.reg) (.x 9)) :: (← moveArgs srcs (args.drop skip))

def emitCopies (sizes : StackSizes) (args : List Location) (wrapperArgSize : Nat) : List Instr :=
  emitReserve sizes ++ emitReturnPointer sizes ++ emitCopyStackArgs sizes wrapperArgSize ++
    emitCopyIndirects sizes args

def emitCopyArgs (sizes : StackSizes) (args : List Location)
    (wrapper : Option (List Location × Nat)) : Option (List Instr) :=
  match wrapper with
  | none => some (emitCopies sizes args sizes.argSize)
  | some (wrapperArgs, wrapperArgSize) => do
    return emitCopies sizes args wrapperArgSize ++ (← copyWrapperArgs sizes wrapperArgs args)

/-! ### Results and registers -/

def emitFreeStackSpace (stackSize : Nat) :
    List Instr := if stackSize = 0 then [] else [.addImm .sp .sp stackSize]

def emitCopyStackReturns (sizes : StackSizes) : List Instr :=
  if 0 < sizes.returnSize then
    [.ldr .x (.x 8) .sp sizes.savedPtrOffset] ++ emitMemcpy sizes.returnSize (.x 8) .sp (.x 9)
      sizes.returnStart ++
      [.addImm .sp .sp (sizes.returnSize + 8 + sizes.returnPadding)]
  else []

def regs64bit (locs : List Location) (isIndirect : Bool) : List (Fin 31) :=
  (if isIndirect then [9] else []) ++ locs.filterMap fun loc =>
    match loc.isStack, loc.reg with
    | false, some (.x r) => some r
    | _, _ => none

def regs128bit (locs : List Location) : List VReg :=
  locs.filterMap fun loc =>
    match loc.isStack, loc.reg with
    | false, some (.q i) => some i
    | _, _ => none

def savePairs : List (Fin 31) → List Instr
  | [] => []
  | [r] => [.strPre (.x r)]
  | r₁ :: r₂ :: rs => .stpPre (.x r₁) (.x r₂) :: savePairs rs

def restorePairs : List (Fin 31) → List Instr
  | [] => []
  | [r] => [.ldr .x (.x r) .sp 0, .addImm .sp .sp 16]
  | r₁ :: r₂ :: rs => restorePairs rs ++ [.ldpPost (.x r₁) (.x r₂)]

def emitScrubRegs (locs : List Location) (isIndirect : Bool) : List Instr :=
  savePairs (regs64bit locs isIndirect) ++ (regs128bit locs).map .strQPre ++
    [.bl .scrubRegisters] ++
    (regs128bit locs).reverse.map .ldrQPost ++ restorePairs (regs64bit locs isIndirect)

def emitSetPkru (pkey : Nat) : List Instr := [.movz (.x 18) (pkey * 2 ^ 8)]

def emitSetReturnPkru (pkey : Nat) : List Instr := [.movz (.x 18) (pkey * 2 ^ 8)]

/-! ### The wrapper -/

def emitPreConditions (target : TargetInfo) :
    List Instr := (List.range target.preConditions).map fun i => .bl (.preCondition i)

def emitPostConditions (target : TargetInfo) :
    List Instr := (List.range target.postConditions).map fun i => .bl (.postCondition i)

structure Wrapper where
  sig : AbiSignature
  api : List TypeInfo
  wrapperSig : Option AbiSignature
  target : Option TargetInfo
  kind : WrapperKind
  callerPkey : Nat
  targetPkey : Nat

namespace Wrapper

variable (w : Wrapper)

def sizes : StackSizes := stackSizes w.sig

def args : List Location := (allocateParamLocations w.sig).1

def rets : List Location := allocateReturnLocations w.sig

def emitEntry : List Instr :=
  emitPrologue ++
    match w.target with
    | none => []
    | some target => emitPreConditions target

def emitFnCall : Instr :=
  match w.target with
  | none => .blr (.x 9)
  | some _ => .bl .target

/-- From the call to the switch back. -/
def emitFromTarget :
    List Instr := emitFreeStackSpace w.sizes.argBytes ++ emitCopyStackReturns w.sizes

def emitExit : List Instr :=
  emitScrubRegs w.rets false ++ emitSetReturnPkru w.callerPkey ++
    (match w.target with
      | none => []
      | some target => emitPostConditions target) ++
    emitEpilogue ++ [.ret]

def emitToTarget (copyArgs : List Instr) : List Instr :=
  copyArgs ++ emitScrubRegs w.args (decide (w.kind = .indirectCallsite)) ++ emitSetPkru w.targetPkey

def hasTypeChecks : Bool :=
  match w.target with
  | none => false
  | some target => !(registryChecks target w.api).2.isEmpty

def emitAsmWrapper : Option (List Instr) := do
  guard (!w.hasTypeChecks)
  let copyArgs ← emitCopyArgs w.sizes w.args (w.wrapperSig.map allocateParamLocations)
  return w.emitEntry ++ emitSwitchStacks w.callerPkey w.targetPkey ++ w.emitToTarget copyArgs ++
    [w.emitFnCall] ++
    w.emitFromTarget ++ emitSwitchStacks w.targetPkey w.callerPkey ++ w.emitExit

end Wrapper

end Ia2.Arm
