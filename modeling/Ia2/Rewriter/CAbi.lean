import Ia2.X86.Machine

/-!
# Argument locations

The slots in which a C function takes its arguments and returns its result, and the registers and
stack offsets that the rewriter gives them on x86-64. A signature carries the proof that its slots
are of the kinds that the classification of C types produces, so the assertions in the two
allocation loops hold of every signature and are left out.
-/

namespace Ia2.Rewriter

open X86

inductive Kind where
  | integral | float | memory
deriving DecidableEq, Repr

inductive ArgReg where
  | gpr (r : Reg)
  | xmm (i : Xmm)
deriving DecidableEq, Repr

/-- `ArgLocation`; `bytes` is its private `_size`. -/
structure ArgLocation where
  kind : Kind
  bytes : Nat
  align : Nat
  onStack : Bool := false
  indirectOnStack : Bool := false
  reg : Option ArgReg := none
  stackOffset : Nat := 0
deriving DecidableEq, Repr

namespace ArgLocation

def register (kind : Kind) (size : Nat) : ArgLocation := { kind, bytes := size, align := size }

def stack (size align : Nat) :
    ArgLocation := { kind := .memory, bytes := size, align, onStack := true }

def indirect (size align : Nat) :
    ArgLocation := { kind := .integral, bytes := size, align, indirectOnStack := true }

def allocateReg (loc : ArgLocation) (reg : Option ArgReg) : ArgLocation := { loc with reg }

def allocateStack (loc : ArgLocation) (offset : Nat) : ArgLocation :=
  { loc with onStack := true, stackOffset := offset }

def setIndirectOnStack (loc : ArgLocation) : ArgLocation := { loc with indirectOnStack := true }

def isStack (loc : ArgLocation) : Bool := loc.onStack

def isIndirect (loc : ArgLocation) : Bool := loc.indirectOnStack

def is128bitFloat (loc : ArgLocation) : Bool :=
  match loc.reg with
  | some (.xmm _) => true
  | _ => false

def size (loc : ArgLocation) : Nat := if loc.is128bitFloat then 16 else loc.bytes

end ArgLocation

open ArgLocation

inductive Slot : ArgLocation → Prop where
  | integral {n : Nat} : n ≤ 8 → Slot (register .integral n)
  | wide : Slot (register .integral 16)
  | float (n : Nat) : Slot (register .float n)
  | indirect {size align : Nat} : 0 < size → 0 < align → Slot (indirect size align)

inductive ReturnSlots : List ArgLocation → Prop where
  | void : ReturnSlots []
  | memory {size align : Nat} : 0 < size → 0 < align → ReturnSlots [indirect size align]
  | wide : ReturnSlots [register .integral 16]
  | scalars {slots : List ArgLocation} : slots.length ≤ 2 →
      (∀ slot ∈ slots, (∃ n, n ≤ 8 ∧ slot = register .integral n) ∨ ∃ n, slot = register .float n) →
      ReturnSlots slots

theorem slots_nil : ∀ arg ∈ ([] : List ArgLocation), Slot arg := List.forall_mem_nil _

theorem slots_replicate (n : Nat) : ∀ arg ∈ List.replicate n (register .integral 8), Slot arg := by
  intro arg harg
  rw [List.eq_of_mem_replicate harg]
  exact .integral le_rfl

structure AbiSignature where
  args : List ArgLocation
  ret : List ArgLocation
  args_slots : ∀ arg ∈ args, Slot arg
  ret_slots : ReturnSlots ret

/-! ### Parameters -/

def intParamRegOrder : List Reg := [.rdi, .rsi, .rdx, .rcx, .r8, .r9]

def floatRegOrder : List Xmm := [0, 1, 2, 3, 4, 5, 6, 7]

def intRetRegOrder : List Reg := [.rax, .rdx]

def preservedRegisters : List Reg := [.rbx, .r12, .r13, .r14, .r15]

def intParamReg (i : Nat) : Option ArgReg := intParamRegOrder[i]?.map .gpr

def floatReg (i : Nat) : Option ArgReg := floatRegOrder[i]?.map .xmm

def intRetReg (i : Nat) : Option ArgReg := intRetRegOrder[i]?.map .gpr

structure ParamState where
  args : List ArgLocation := []
  intsUsed : Nat := 0
  floatsUsed : Nat := 0
  stackOffset : Nat := 0

def alignUp (n align : Nat) : Nat := if n % align ≠ 0 then n + (align - n % align) else n

theorem le_alignUp (n align : Nat) : n ≤ alignUp n align := by
  unfold alignUp
  split <;> omega

variable {align : Nat}

theorem alignUp_lt (n : Nat) (h : 0 < align) : alignUp n align < n + align := by
  unfold alignUp
  split <;> omega

theorem dvd_alignUp (n : Nat) (h : 0 < align) : align ∣ alignUp n align := by
  have hlt := Nat.mod_lt n h
  unfold alignUp
  split
  · rw [← Nat.add_sub_assoc hlt.le, Nat.add_comm, Nat.add_sub_assoc (Nat.mod_le _ _)]
    exact (Nat.dvd_add_right (dvd_refl align)).mpr (Nat.dvd_sub_mod n)
  · rename_i hmod
    exact Nat.dvd_of_mod_eq_zero (not_not.mp hmod)

theorem alignUp_le {n m : Nat} (h : n ≤ m) (hdvd : align ∣ m) : alignUp n align ≤ m := by
  obtain ⟨k, rfl⟩ := hdvd
  unfold alignUp
  split
  · rename_i hmod
    have hsplit := Nat.div_add_mod n align
    have hquot : n / align < k := by
      by_contra hge
      have := Nat.mul_le_mul_left align (Nat.not_lt.mp hge)
      omega
    have hnext := Nat.mul_le_mul_left align hquot
    rw [Nat.mul_succ] at hnext
    have hlt : n % align ≤ align := by
      rcases Nat.eq_zero_or_pos align with rfl | hpos
      · simp at h
        simp [h]
      · exact (Nat.mod_lt n hpos).le
    omega
  · exact h

theorem alignUp_mono {n m : Nat} (h : n ≤ m) {align : Nat} (halign : 0 < align) :
    alignUp n align ≤ alignUp m align :=
  alignUp_le (h.trans (le_alignUp m align)) (dvd_alignUp m halign)

def allocateParam (st : ParamState) (arg : ArgLocation) : ParamState :=
  -- indirect arguments are just passed on the stack, not indirectly in a register
  let arg := if arg.isIndirect then stack arg.size arg.align else arg
  match arg.kind with
  | .integral =>
    if (arg.size ≤ 8 ∨ arg.isIndirect) ∧ st.intsUsed < intParamRegOrder.length then
      { st with
          args := st.args ++ [arg.allocateReg (intParamReg st.intsUsed)]
          intsUsed := st.intsUsed + 1 }
    else if st.intsUsed + 1 < intParamRegOrder.length then
      let half i := (register .integral 8).allocateReg (intParamReg (st.intsUsed + i))
      { st with args := st.args ++ [half 0, half 1], intsUsed := st.intsUsed + 2 }
    else
      { st with
          args := st.args ++ [arg.allocateStack st.stackOffset]
          stackOffset := st.stackOffset + 8 }
  | .float =>
    if st.floatsUsed < floatRegOrder.length then
      { st with
          args := st.args ++ [arg.allocateReg (floatReg st.floatsUsed)]
          floatsUsed := st.floatsUsed + 1 }
    else
      { st with
          args := st.args ++ [arg.allocateStack st.stackOffset]
          stackOffset := st.stackOffset + arg.size }
  | .memory =>
    let offset := alignUp st.stackOffset arg.align
    { st with
        args := st.args ++ [arg.allocateStack offset]
        stackOffset := alignUp (offset + arg.size) 8 }

def initialParams (ret : List ArgLocation) : ParamState :=
  if ret.any fun slot => slot.isStack || slot.isIndirect then
    { args := [(register .integral 8).allocateReg (intParamReg 0)], intsUsed := 1 }
  else {}

def allocateParamLocations (func : AbiSignature) : List ArgLocation × Nat :=
  let st := func.args.foldl allocateParam (initialParams func.ret)
  (st.args, st.stackOffset)

/-! ### Results -/

structure ReturnState where
  args : List ArgLocation := []
  intsUsed : Nat := 0
  floatsUsed : Nat := 0

def allocateReturn (st : ReturnState) (arg : ArgLocation) : ReturnState :=
  let float (st : ReturnState) : ReturnState :=
    { st with
        args := st.args ++ [arg.allocateReg (floatReg st.floatsUsed)]
        floatsUsed := st.floatsUsed + 1 }
  match arg.kind with
  | .integral =>
    if arg.size ≤ 8 ∨ arg.isIndirect then
      { st with
          args := st.args ++ [arg.allocateReg (intRetReg st.intsUsed)]
          intsUsed := st.intsUsed + 1 }
    else
      let half i := (register .integral 8).allocateReg (intRetReg (st.intsUsed + i))
      float { st with args := st.args ++ [half 0, half 1], intsUsed := st.intsUsed + 2 }
  | .float => float st
  | .memory =>
    { st with args := st.args ++ [(arg.allocateReg (intRetReg st.intsUsed)).setIndirectOnStack] }

def allocateReturnLocations (func : AbiSignature) : List ArgLocation :=
  (func.ret.foldl allocateReturn {}).args

end Ia2.Rewriter
