import Ia2.Rewriter.CAbi

/-!
# The slots of a parameter

`DetermineAbi.cpp` asks clang how it lowers each parameter of a function and turns the answer into
slots. Clang's answer is an input here: the kind of passing and, for a parameter in registers, the
LLVM type that it is coerced to. The slots of all parameters are concatenated, so the signature that
comes out no longer says which slots belong to one parameter.
-/

namespace Ia2.Rewriter

open ArgLocation

inductive FpType where
  | half | float | double | x86Fp80 | fp128
deriving DecidableEq, Repr

def FpType.bits : FpType → Nat
  | .half => 16
  | .float => 32
  | .double => 64
  | .x86Fp80 => 80
  | .fp128 => 128

inductive LlvmType where
  | int (bits : Nat)
  | ptr
  | fp (type : FpType)
  | struct (elements : List LlvmType)
  | array (length : Nat) (element : LlvmType)
  | vector (length : Nat) (element : LlvmType)
  | other

inductive ArgInfo where
  | indirect
  | indirectAliased
  | extend (bits : Nat)
  | direct (coerceTo : LlvmType) (canBeFlattened : Bool)
  | ignore
  | inAlloca
  | expand
  | coerceAndExpand

structure CParam where
  size : Nat
  align : Nat
  info : ArgInfo

def classifyScalarType : LlvmType → Except String ArgLocation
  | .fp type => .ok (register .float (type.bits / 8))
  | .int bits => .ok (register .integral (bits / 8))
  | .ptr => .ok (register .integral 0)
  | .struct _ | .array _ _ => .error "nested aggregates not currently handled"
  | .vector _ _ | .other => .error "unhandled type when computing ABI slots"

def abiSlotsForArg (param : CParam) : Except String (List ArgLocation) :=
  match param.info with
  | .indirectAliased | .indirect => .ok [ArgLocation.indirect param.size param.align]
  | .extend bits => do return [← classifyScalarType (.int bits)]
  | .direct (.struct elements) canBeFlattened =>
    if canBeFlattened then elements.mapM classifyScalarType
    else .error "non-flattenable struct cannot be passed directly in registers"
  | .direct (.array length element) _ =>
    do return List.replicate length (← classifyScalarType element)
  | .direct (.vector length element) _ =>
    do return List.replicate length (← classifyScalarType element)
  | .direct type _ => do return [← classifyScalarType type]
  | .ignore => .ok []
  | .inAlloca => .error "Cannot handle InAlloca arguments"
  | .expand => .error "unhandled \"Expand\" type when computing ABI slots"
  | .coerceAndExpand => .error "unhandled \"CoerceAndExpand\" type when computing ABI slots"

def abiSlotsForArgs (params : List CParam) : Except String (List ArgLocation) :=
  params.foldlM (fun args param => do return args ++ (← abiSlotsForArg param)) []

def determineAbiSignature (ret : CParam) (params : List CParam) :
  Except String (List ArgLocation × List ArgLocation) := do
  let retSlots ← abiSlotsForArg ret
  return (← abiSlotsForArgs params, retSlots)

/-! ### The slots of all parameters -/

theorem abiSlotsForArgs_eq {params : List CParam} {groups : List (List ArgLocation)}
    (h : List.Forall₂ (fun param slots => abiSlotsForArg param = .ok slots) params groups) :
    abiSlotsForArgs params = .ok groups.flatten := by
  suffices hfold : ∀ args, params.foldlM (fun args param =>
    do return args ++ (← abiSlotsForArg param)) args =
      Except.ok (args ++ groups.flatten) from hfold []
  induction h with
  | nil => exact fun args => congrArg _ (List.append_nil args).symm
  | @cons param slots params groups hslots _ ih =>
    intro args
    rw [List.foldlM_cons, hslots]
    exact (ih (args ++ slots)).trans (by rw [List.flatten_cons, List.append_assoc])

end Ia2.Rewriter
