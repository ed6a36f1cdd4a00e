import Ia2.Rewriter.CAbi

/-!
# The call gate generator

`emit_asm_wrapper` for x86-64: one definition for each `emit_` function, giving the instructions it
writes. Comments, symbol directives and the macro form of a wrapper have no instructions. A wrapper
for an indirect call site walks two lists of locations in step; the walk runs past the end of one of
them for some signatures, which is undefined in the source and no code here.
-/

namespace Ia2.Rewriter

open X86

inductive WrapperKind where
  | direct | pointer | pointerToStatic | indirectCallsite
deriving DecidableEq, Repr

structure TypeInfo where
  id : Nat
  hasStructors : Bool
deriving DecidableEq, Repr

structure FnSignature where
  abi : AbiSignature
  api : List TypeInfo

/-- What the rewriter's context knows of a target function that has a name: whether it is registered
as a constructor or a destructor, and how many pre- and post-condition functions it has. -/
structure TargetInfo where
  isConstructor : Bool := false
  isDestructor : Bool := false
  preConditions : Nat := 0
  postConditions : Nat := 0
deriving DecidableEq, Repr

/-! ### PKRU -/

def pkruOf (pkey : Nat) : BitVec 32 := ~~~((3#32 <<< (2 * pkey)) ||| 3#32)

def mixedPkru (pkey0 pkey1 : Nat) :
    BitVec 32 := ~~~((3#32 <<< (2 * pkey0)) ||| (3#32 <<< (2 * pkey1)) ||| 3#32)

def writePkru (pkru : BitVec 32) :
    List Instr := [.xorl .rcx, .xorl .rdx, .movlImm pkru .rax, .wrpkru]

def emitWrpkru (pkey : Nat) : List Instr := writePkru (pkruOf pkey)

def emitMixedWrpkru (pkey0 pkey1 : Nat) : List Instr := writePkru (mixedPkru pkey0 pkey1)

def assertPkru (debug : Bool) (pkru : BitVec 32) : List Instr :=
  if debug then
    [.movq .rcx .r10, .movq .rdx .r11, .xorl .rcx, .rdpkru, .assertEax pkru, .movq .r11 .rdx,
      .movq .r10 .rcx]
  else []

def keepingRegs (reg1 reg2 : Reg) (body : List Instr) : List Instr :=
  [.movq reg1 .r10, .movq reg2 .r11] ++ body ++ [.movq .r10 reg1, .movq .r11 reg2]

def emitIntermediatePkru (callerPkey targetPkey : Nat) (reg1 reg2 : Reg) : List Instr :=
  keepingRegs reg1 reg2 (emitMixedWrpkru callerPkey targetPkey)

def emitSetPkru (targetPkey : Nat) : List Instr := keepingRegs .rcx .rdx (emitWrpkru targetPkey)

def emitSetReturnPkru (callerPkey : Nat) :
    List Instr := keepingRegs .rax .rdx (emitWrpkru callerPkey)

/-! ### Frames and stacks -/

def emitPrologue : List Instr := [.pushq .rbp, .movq .rsp .rbp] ++ preservedRegisters.map .pushq

def emitEpilogue : List Instr := preservedRegisters.reverse.map .popq ++ [.popq .rbp]

def emitSwitchStacks (oldPkey newPkey : Nat) : List Instr :=
  [.loadTpOff oldPkey .r11, .storeFs .rsp .r11, .loadTpOff newPkey .r11, .loadFs .r11 .rsp]

def emitMemcpy (byteCount : Nat) (dst src scratch : Reg) (srcOffset : Nat) : List Instr :=
  let copy (width : Width) (i : Nat) : List Instr :=
    [.load width (i + srcOffset) src scratch, .store width scratch i dst]
  let i := byteCount / 8 * 8
  let words := (List.range (byteCount / 8)).flatMap fun k => copy .q (8 * k)
  let long := if i + 4 ≤ byteCount then copy .l i else []
  let i := if i + 4 ≤ byteCount then i + 4 else i
  let short := if i + 2 ≤ byteCount then copy .w i else []
  let i := if i + 2 ≤ byteCount then i + 2 else i
  let byte := if i < byteCount then copy .b i else []
  words ++ long ++ short ++ byte

structure StackSizes where
  argSize : Nat
  argPadding : Nat
  returnSize : Nat
  returnPadding : Nat
  alignment : Nat
deriving DecidableEq, Repr

def stackReturnSize (rets : List ArgLocation) : Nat :=
  ((rets.filter fun x => x.isStack || x.isIndirect).map ArgLocation.size).sum

def stackSizes (sig : AbiSignature) : StackSizes :=
  let argSize := (allocateParamLocations sig).2
  let argPadding := if argSize % 8 ≠ 0 then 8 - argSize % 8 else 0
  let returnSize := stackReturnSize (allocateReturnLocations sig)
  let startOfRetSpace := if 0 < returnSize then 8 else 0
  let unaligned := (startOfRetSpace + returnSize) % 16
  let returnPadding := if 0 < returnSize ∧ unaligned ≠ 0 then 16 - unaligned else 0
  let compartmentStackSpace := startOfRetSpace + returnSize + returnPadding + argSize + argPadding
  ⟨argSize, argPadding, returnSize, returnPadding, (compartmentStackSpace + 8) % 16⟩

/-! ### Arguments and results -/

def moveReg (src dst : ArgReg) : Instr :=
  match src, dst with
  | .gpr src, .gpr dst => .movq src dst
  | .xmm src, .xmm dst => .movqXmm src dst
  | .gpr src, .xmm dst => .movqToXmm src dst
  | .xmm src, .gpr dst => .movqFromXmm src dst

def loadReg (offset : Nat) (base : Reg) : ArgReg → Instr
  | .gpr dst => .load .q offset base dst
  | .xmm dst => .loadXmm offset base dst

def savedBytes : Nat := (preservedRegisters.length + 1) * 8

def moveArg (argPadding : Nat) (src dst : ArgLocation) : List Instr :=
  if dst.isStack then []
  else
    match dst.reg with
    | none => []
    | some reg =>
      if src.isStack then
        let offset := savedBytes + argPadding + src.stackOffset + src.size
        [loadReg (alignUp offset (max src.align 8)) .rax reg]
      else
        match src.reg with
        | none => []
        | some srcReg => [moveReg srcReg reg]

def moveArgs (argPadding : Nat) : List ArgLocation → List ArgLocation → Option (List Instr)
  | _, [] => some []
  | [], dst :: dsts => if dst.isStack then moveArgs argPadding [] dsts else none
  | src :: srcs, dst :: dsts =>
    do return moveArg argPadding src dst ++ (← moveArgs argPadding srcs dsts)

def copyWrapperArgs (sizes : StackSizes) (wrapperArgs args : List ArgLocation) :
    Option (List Instr) :=
  let skip := if 0 < sizes.returnSize then 1 else 0
  match wrapperArgs.drop skip with
  | [] => none
  | pointer :: srcs =>
    match pointer.reg with
    | none => none
    | some reg =>
      do return moveReg reg (.gpr .r12) :: (← moveArgs sizes.argPadding srcs (args.drop skip))

def emitReturnSpace (sizes : StackSizes) : List Instr :=
  (if 0 < sizes.returnSize then
    [.subq (sizes.returnSize + sizes.returnPadding) .rsp, .pushq .rdi, .movq .rsp .rdi,
      .addq 8 .rdi]
  else []) ++
  if sizes.alignment ≠ 0 then [.subq 8 .rsp] else []

def emitCopyStackArgs (sizes : StackSizes) (wrapperArgSize callerPkey : Nat) : List Instr :=
  if 0 < sizes.argSize then
    let offset := sizes.argSize + sizes.argPadding + savedBytes + wrapperArgSize - sizes.argSize
    [.loadTpOff callerPkey .r12, .loadFs .r12 .rax] ++
      (List.range ((sizes.argSize + 7) / 8)).map fun k => .pushqMem (offset - 8 * k) .rax
  else []

def emitCopyArgs (sizes : StackSizes) (args : List ArgLocation)
    (wrapper : Option (List ArgLocation × Nat)) (callerPkey : Nat) : Option (List Instr) :=
  match wrapper with
  | none => some (emitReturnSpace sizes ++ emitCopyStackArgs sizes sizes.argSize callerPkey)
  | some (wrapperArgs, wrapperArgSize) => do
    let moves ← copyWrapperArgs sizes wrapperArgs args
    return emitReturnSpace sizes ++ emitCopyStackArgs sizes wrapperArgSize callerPkey ++ moves

def emitFreeStackSpace (stackSize : Nat) :
    List Instr := if stackSize = 0 then [] else [.addq stackSize .rsp]

def emitCopyStackReturns (sizes : StackSizes) : List Instr :=
  if 0 < sizes.returnSize then
    [.popq .rax] ++ emitMemcpy sizes.returnSize .rax .rsp .r10 0 ++
      [.addq (sizes.returnSize + sizes.returnPadding) .rsp]
  else []

def emitRegPush (loc : ArgLocation) : List Instr :=
  match loc.reg with
  | some (.xmm i) => [.subq 16 .rsp, .movdquStore i]
  | some (.gpr r) => [.pushq r]
  | none => []

def emitRegPop (loc : ArgLocation) : List Instr :=
  match loc.reg with
  | some (.xmm i) => [.movdquLoad i, .addq 16 .rsp]
  | some (.gpr r) => [.popq r]
  | none => []

def savedLocs (locs : List ArgLocation) : List ArgLocation := locs.filter fun loc => !loc.isStack

def emitScrubRegs (pkey : Nat) (locs : List ArgLocation) (isIndirect : Bool) : List Instr :=
  if pkey ≠ 0 then
    (savedLocs locs).flatMap emitRegPush ++ (if isIndirect then [.pushq .r12] else []) ++
      [.call .scrubRegisters] ++
      (if isIndirect then [.popq .r12] else []) ++ (savedLocs locs).reverse.flatMap emitRegPop
  else []

/-! ### Conditions and type checks -/

def emitSaveArgs : List Instr := intParamRegOrder.map .pushq

def emitRestoreArgs (pop : Bool) : List Instr :=
  intParamRegOrder.reverse.map .popq ++ if pop then []
    else [.subq (intParamRegOrder.length * 8) .rsp]

def emitAlignStack8To16 : List Instr := [.subq 8 .rsp]

def emitRevertAlignStack8To16 : List Instr := [.addq 8 .rsp]

def registryChecks (target : TargetInfo) (api : List TypeInfo) :
    RegistryFn × List (Nat × TypeInfo) :=
  let indexed := (List.range api.length).zip api
  if target.isConstructor then (.construct, indexed.take 1)
  else if target.isDestructor then (.destruct, indexed.take 1)
  else (.check, indexed.filter fun (i, type) =>
    type.hasStructors && decide (i < intParamRegOrder.length))

def emitTypeRegistryChecks (target : TargetInfo) (api : List TypeInfo) : List Instr :=
  let (fn, checks) := registryChecks target api
  if checks.isEmpty then []
  else
    emitSaveArgs ++ emitAlignStack8To16 ++
      checks.flatMap (fun (i, type) =>
        [.load .q (8 + 8 * (intParamRegOrder.length - 1 - i)) .rsp .rdi, .movqImm type.id .rsi,
          .call (.typeRegistry fn)]) ++
      emitRevertAlignStack8To16 ++ emitRestoreArgs true

def emitPreConditions (target : TargetInfo) : List Instr :=
  (if 1 < target.preConditions ∨ target.postConditions ≠ 0 then emitSaveArgs else []) ++
    (List.range target.preConditions).flatMap fun i =>
      let pop := decide (target.postConditions = 0) && decide (i = target.preConditions - 1)
      (if 0 < i then emitRestoreArgs pop else []) ++ [.call (.preCondition i)]

def emitPostConditions (target : TargetInfo) : List Instr :=
  (List.range target.postConditions).flatMap fun i =>
    emitRestoreArgs (decide (i = target.postConditions - 1)) ++ emitAlignStack8To16 ++
      [.call (.postCondition i)] ++ emitRevertAlignStack8To16

/-! ### The wrapper -/

structure Wrapper where
  sig : FnSignature
  wrapperSig : Option AbiSignature
  target : Option TargetInfo
  kind : WrapperKind
  callerPkey : Nat
  targetPkey : Nat
  debug : Bool

namespace Wrapper

variable (w : Wrapper)

def sizes : StackSizes := stackSizes w.sig.abi

def args : List ArgLocation := (allocateParamLocations w.sig.abi).1

def rets : List ArgLocation := allocateReturnLocations w.sig.abi

def emitEntry : List Instr :=
  emitPrologue ++
    match w.target with
    | none => []
    | some target => emitTypeRegistryChecks target w.sig.api ++ emitPreConditions target

def emitToTarget (copyArgs : List Instr) : List Instr :=
  assertPkru w.debug (pkruOf w.callerPkey) ++ emitIntermediatePkru w.callerPkey w.targetPkey
    .rcx .rdx ++
    emitSwitchStacks w.callerPkey w.targetPkey ++ copyArgs ++
    emitScrubRegs w.callerPkey w.args (decide (w.kind = .indirectCallsite)) ++
    emitSetPkru w.targetPkey

def emitFnCall : Instr :=
  match w.target with
  | none => .callIndirect .r12
  | some _ => .call .target

def emitToCaller : List Instr :=
  emitIntermediatePkru w.callerPkey w.targetPkey .rax .rdx ++
    emitFreeStackSpace (w.sizes.argSize + w.sizes.argPadding + w.sizes.alignment) ++
    emitCopyStackReturns w.sizes ++ emitSwitchStacks w.targetPkey w.callerPkey ++
    emitScrubRegs w.targetPkey w.rets false ++ emitSetReturnPkru w.callerPkey

def emitExit : List Instr :=
  (match w.target with
    | none => []
    | some target => emitPostConditions target) ++
  emitEpilogue ++ [.ret]

def emitAsmWrapper : Option (List Instr) := do
  let copyArgs ← emitCopyArgs w.sizes w.args (w.wrapperSig.map allocateParamLocations) w.callerPkey
  return w.emitEntry ++ w.emitToTarget copyArgs ++ [w.emitFnCall] ++ w.emitToCaller ++ w.emitExit

end Wrapper

end Ia2.Rewriter
