import Ia2.Arm.Machine
import Ia2.Rewriter.CAbi

/-!
# Argument locations on AArch64

The registers and stack offsets that the rewriter gives to the slots of a signature on AArch64.
Slots are classified by the same code as on x86-64; an argument that is passed indirectly has a
pointer as its location. Results in registers may take more slots than on x86-64, and the signature
carries the proof that they are few enough for the assertions of the allocation loop.
-/

namespace Ia2.Arm

open Rewriter (ArgLocation Slot alignUp)
open Rewriter.ArgLocation (register indirect)

inductive ArgReg where
  | x (n : Fin 31)
  | q (i : VReg)
deriving DecidableEq, Repr

def ArgReg.value (s : State) : ArgReg → Nat
  | .x n => (s.regs (.x n)).toNat
  | .q i => (s.vregs i).toNat

/-- A slot of a signature with the AArch64 register that it was given. -/
structure Location where
  slot : ArgLocation
  reg : Option ArgReg := none
deriving DecidableEq, Repr

namespace Location

def allocateReg (loc : Location) (reg : Option ArgReg) : Location := { loc with reg }

def allocateStack (loc : Location) (offset : Nat) :
    Location := { loc with slot := loc.slot.allocateStack offset }

def isStack (loc : Location) : Bool := loc.slot.isStack

def isIndirect (loc : Location) : Bool := loc.slot.isIndirect

def is128bitFloat (loc : Location) : Bool :=
  match loc.reg with
  | some (.q _) => true
  | _ => false

def size (loc : Location) : Nat := if loc.is128bitFloat then 16 else loc.slot.bytes

def align (loc : Location) : Nat := loc.slot.align

def stackOffset (loc : Location) : Nat := loc.slot.stackOffset

end Location

def intRegs (slot : ArgLocation) :
    Nat := if slot.kind = .integral then (if slot.size ≤ 8 then 1 else 2) else 0

def floatRegs (slot : ArgLocation) : Nat := if slot.kind = .float ∨ 8 < slot.size then 1 else 0

inductive ReturnSlots : List ArgLocation → Prop where
  | memory {size align : Nat} : 0 < size → 0 < align → ReturnSlots [indirect size align]
  | registers {slots : List ArgLocation} : (∀ slot ∈ slots, Slot slot ∧ slot.isIndirect = false) →
      (slots.map intRegs).sum ≤ 8 → (slots.map floatRegs).sum ≤ 8 → ReturnSlots slots

theorem ReturnSlots.void :
    ReturnSlots [] := .registers (List.forall_mem_nil _) (Nat.zero_le 8) (Nat.zero_le 8)

structure AbiSignature where
  args : List ArgLocation
  ret : List ArgLocation
  args_slots : ∀ arg ∈ args, Slot arg
  ret_slots : ReturnSlots ret

/-! ### Parameters -/

def intParamRegOrder : List (Fin 31) := [0, 1, 2, 3, 4, 5, 6, 7]

def floatRegOrder : List VReg := [0, 1, 2, 3, 4, 5, 6, 7]

def preservedRegisters : List (Fin 31) := [19, 20, 21, 22, 23, 24, 25, 26, 27, 28]

def intReg (i : Nat) : Option ArgReg := intParamRegOrder[i]?.map .x

def floatReg (i : Nat) : Option ArgReg := floatRegOrder[i]?.map .q

theorem intReg_inj {i k : Nat} (hi : i < 8) (hk : k < 8) (h : intReg i = intReg k) : i = k := by
  have hall : ∀ i < 8, ∀ k < 8, intReg i = intReg k → i = k := by decide
  exact hall i hi k hk h

structure ParamState where
  args : List Location := []
  intsUsed : Nat := 0
  floatsUsed : Nat := 0
  stackOffset : Nat := 0

def allocateParam (st : ParamState) (arg : ArgLocation) : ParamState :=
  let loc : Location := { slot := arg }
  match arg.kind with
  | .integral =>
    if (arg.size ≤ 8 ∨ arg.isIndirect) ∧ st.intsUsed < intParamRegOrder.length then
      { st with
          args := st.args ++ [loc.allocateReg (intReg st.intsUsed)]
          intsUsed := st.intsUsed + 1 }
    else if st.intsUsed + 1 < intParamRegOrder.length then
      let half i : Location := { slot := register .integral 8, reg := intReg (st.intsUsed + i) }
      { st with args := st.args ++ [half 0, half 1], intsUsed := st.intsUsed + 2 }
    else
      { st with
          args := st.args ++ [loc.allocateStack st.stackOffset]
          stackOffset := st.stackOffset + 8 }
  | .float =>
    if st.floatsUsed < floatRegOrder.length then
      { st with
          args := st.args ++ [loc.allocateReg (floatReg st.floatsUsed)]
          floatsUsed := st.floatsUsed + 1 }
    else
      { st with
          args := st.args ++ [loc.allocateStack st.stackOffset]
          stackOffset := st.stackOffset + arg.size }
  | .memory =>
    let offset := alignUp st.stackOffset arg.align
    { st with
        args := st.args ++ [loc.allocateStack offset]
        stackOffset := alignUp (offset + arg.size) 8 }

def initialParams (ret : List ArgLocation) : ParamState :=
  if ret.any fun slot => slot.isStack || slot.isIndirect
    then { args := [{ slot := register .integral 8, reg := some (.x 8) }] }
  else {}

def allocateParamLocations (func : AbiSignature) : List Location × Nat :=
  let st := func.args.foldl allocateParam (initialParams func.ret)
  (st.args, st.stackOffset)

/-! ### Results -/

structure ReturnState where
  args : List Location := []
  intsUsed : Nat := 0
  floatsUsed : Nat := 0

def allocateReturn (st : ReturnState) (arg : ArgLocation) : ReturnState :=
  let loc : Location := { slot := arg }
  let float (st : ReturnState) : ReturnState :=
    { st with
        args := st.args ++ [loc.allocateReg (floatReg st.floatsUsed)]
        floatsUsed := st.floatsUsed + 1 }
  match arg.kind with
  | .integral =>
    if arg.size ≤ 8 ∨ arg.isIndirect then
      if arg.isIndirect then { st with args := st.args ++ [loc] }
      else
        { st with
            args := st.args ++ [loc.allocateReg (intReg st.intsUsed)]
            intsUsed := st.intsUsed + 1 }
    else
      let half i : Location := { slot := register .integral 8, reg := intReg (st.intsUsed + i) }
      float { st with args := st.args ++ [half 0, half 1], intsUsed := st.intsUsed + 2 }
  | .float => float st
  -- asserted not to happen on AArch64
  | .memory => st

def allocateReturnLocations (func : AbiSignature) : List Location :=
  (func.ret.foldl allocateReturn {}).args

end Ia2.Arm
