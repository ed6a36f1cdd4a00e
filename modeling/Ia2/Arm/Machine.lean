import Ia2.Library.ByteMemory
import Ia2.Library.StraightLine

/-!
# The AArch64 machine that call gates run on

The instructions that the rewriter emits for AArch64, over the general registers, the stack pointer,
the vector registers and a flat memory. The top byte of a pointer is a tag that addresses ignore.
Execution takes operands as they are written; `Instr.encodable` says which of them an instruction
can hold. As on x86-64, functions that a gate calls are state transformers from their first
instruction to the state after their `ret`.
-/

namespace Ia2.Arm

instance neZero_general : NeZero 31 := ⟨Nat.succ_ne_zero 30⟩

/-- The general registers `x0` to `x30` and the stack pointer. -/
inductive Reg where
  | x (n : Fin 31)
  | sp
deriving DecidableEq, Repr

abbrev VReg := Fin 32

structure State where
  regs : Reg → BitVec 64
  vregs : VReg → BitVec 128
  mem : ByteMemory
  pc : BitVec 64

/-- The address that a pointer stands for. -/
def low (v : BitVec 64) : Nat := v.toNat % 2 ^ 56

namespace State

abbrev sp (s : State) : BitVec 64 := s.regs .sp

def set (s : State) (r : Reg) (v : BitVec 64) :
    State := { s with regs := fun r' => if r' = r then v else s.regs r' }

def setQ (s : State) (i : VReg) (v : BitVec 128) :
    State := { s with vregs := fun j => if j = i then v else s.vregs j }

def load64 (s : State) (a : Nat) : BitVec 64 := BitVec.ofNat 64 (s.mem.read a 8)

def store (s : State) (a n v : Nat) : State := { s with mem := s.mem.write a n v }

/-- The address of `[base, #offset]`. -/
def addr (s : State) (base : Reg) (offset : Nat) : Nat := low (s.regs base + BitVec.ofNat 64 offset)

@[simp] theorem set_regs (s : State) (r r' : Reg) (v : BitVec 64) :
    (s.set r v).regs r' = if r' = r then v else s.regs r' := rfl

@[simp] theorem set_vregs (s : State) (r : Reg) (v : BitVec 64) : (s.set r v).vregs = s.vregs := rfl

@[simp] theorem set_mem (s : State) (r : Reg) (v : BitVec 64) : (s.set r v).mem = s.mem := rfl

@[simp] theorem set_set (s : State) (r : Reg) (v v' : BitVec 64) :
    (s.set r v).set r v' = s.set r v' := by
  simp only [set, mk.injEq, and_true]
  funext r'
  split <;> rfl

theorem set_self (s : State) (r : Reg) : s.set r (s.regs r) = s := by
  obtain ⟨regs, vregs, mem, pc⟩ := s
  simp only [set, mk.injEq, and_true]
  funext r'
  split
  · rename_i h
    rw [h]
  · rfl

@[simp] theorem setQ_regs (s : State) (i : VReg) (v : BitVec 128) :
    (s.setQ i v).regs = s.regs := rfl

@[simp] theorem setQ_vregs (s : State) (i j : VReg) (v : BitVec 128) :
    (s.setQ i v).vregs j = if j = i then v else s.vregs j := rfl

@[simp] theorem setQ_mem (s : State) (i : VReg) (v : BitVec 128) : (s.setQ i v).mem = s.mem := rfl

@[simp] theorem store_regs (s : State) (a n v : Nat) : (s.store a n v).regs = s.regs := rfl

@[simp] theorem store_vregs (s : State) (a n v : Nat) : (s.store a n v).vregs = s.vregs := rfl

@[simp] theorem store_mem (s : State) (a n v : Nat) : (s.store a n v).mem = s.mem.write a n v := rfl

end State

/-- The widths of `ldr` and `str` of an `x` and of a `w` register, of `ldrh` and `strh`, and of
`ldrb` and `strb`. -/
inductive Width where
  | b | h | w | x
deriving DecidableEq, Repr

def Width.bytes : Width → Nat
  | .b => 1
  | .h => 2
  | .w => 4
  | .x => 8

inductive Callee where
  | target
  | scrubRegisters
  | preCondition (i : Nat)
  | postCondition (i : Nat)
deriving DecidableEq, Repr

inductive Instr where
  | mov (dst src : Reg)
  | add (dst a b : Reg)
  | addImm (dst src : Reg) (imm : Nat)
  | subImm (dst src : Reg) (imm : Nat)
  /-- Assembled as `orr dst, src, #pkey << 56` -/
  | orrTag (dst src : Reg) (pkey : Nat)
  /-- Assembled as `movz dst, #imm, lsl #48` -/
  | movz (dst : Reg) (imm : Nat)
  | ldr (width : Width) (dst base : Reg) (offset : Nat)
  | str (width : Width) (src base : Reg) (offset : Nat)
  | ldrQ (dst : VReg) (base : Reg) (offset : Nat)
  /-- Assembled as `stp r₁, r₂, [sp, #-16]!` -/
  | stpPre (r₁ r₂ : Reg)
  /-- Assembled as `str r, [sp, #-16]!` -/
  | strPre (r : Reg)
  | strQPre (i : VReg)
  /-- Assembled as `ldp r₁, r₂, [sp], #16` -/
  | ldpPost (r₁ r₂ : Reg)
  | ldrQPost (i : VReg)
  | mrsTpidr (dst : Reg)
  /-- Assembled as `adrp dst, :gottprel:ia2_stackptr_n` -/
  | adrpGot (dst : Reg) (pkey : Nat)
  /-- Assembled as `ldr dst, [base, #:gottprel_lo12:ia2_stackptr_n]` -/
  | ldrGot (dst base : Reg) (pkey : Nat)
  | bl (callee : Callee)
  | blr (r : Reg)
  | ret
deriving DecidableEq, Repr

/-! ### Operands that can be encoded -/

/-- The offset of a load or store of `size` bytes: a multiple of the size in twelve bits, or a
signed number of nine bits. -/
def OffsetFits (size offset : Nat) : Prop :=
  let v := (BitVec.ofNat 64 offset).toInt
  0 ≤ v ∧ v % size = 0 ∧ v ≤ 4095 * size ∨ -256 ≤ v ∧ v < 256

instance (size offset : Nat) : Decidable (OffsetFits size offset) := by
  unfold OffsetFits
  infer_instance

/-- The immediate of `add` and `sub`: twelve bits, shifted by twelve or not. -/
def ImmFits (imm : Nat) : Prop := imm < 2 ^ 12 ∨ imm % 2 ^ 12 = 0 ∧ imm < 2 ^ 24

instance (imm : Nat) : Decidable (ImmFits imm) := by
  unfold ImmFits
  infer_instance

/-- The immediate of `orr`: the bits of the key are one run of ones. -/
def TagFits (pkey : Nat) :
    Prop := ∃ shift < 8, ∃ ones < 8 - shift, pkey = (2 ^ (ones + 1) - 1) * 2 ^ shift

instance (pkey : Nat) : Decidable (TagFits pkey) := by
  unfold TagFits
  infer_instance

/-- The instruction has an encoding with these operands. -/
def Instr.encodable : Instr → Bool
  | .addImm _ _ imm | .subImm _ _ imm => decide (ImmFits imm)
  | .orrTag _ _ pkey => decide (TagFits pkey)
  | .movz _ imm => decide (imm < 2 ^ 16)
  | .ldr width r _ offset | .str width r _ offset =>
    decide (r ≠ .sp ∧ OffsetFits width.bytes offset)
  | .ldrQ _ _ offset => decide (OffsetFits 16 offset)
  | _ => true

/-- Five of the sixteen keys cannot be the tag of an `orr`. -/
example :
    (List.range 16).filter (fun pkey => pkey ≠ 0 ∧ ¬ TagFits pkey) = [5, 9, 10, 11, 13] := by decide

/-- What surrounds a gate: the thread pointer, where the linkage table has the offsets of the
`ia2_stackptr_n` cells from it, the contents of that table, which is read-only, the return addresses
of the gate's calls and what the functions do that it calls. -/
structure Env where
  tpidr : BitVec 64
  gotPage : Nat → BitVec 64
  gotLo12 : Nat → BitVec 64
  got : BitVec 64 → BitVec 64
  retAddr : BitVec 64
  function : Callee → State → State
  pointee : BitVec 64 → State → State

/-- `__libia2_scrub_registers`: every general register but `x18`, `x29` and `x30` is zeroed; the
vector registers are not. -/
def scrubRegisters (s : State) : State :=
  { s with
    regs := fun r => match r with
      | .sp => s.sp
      | .x n => if n = 18 ∨ n = 29 ∨ n = 30 then s.regs (.x n) else 0 }

def Env.call (env : Env) : Callee → State → State
  | .scrubRegisters => scrubRegisters
  | callee => env.function callee

def exec (env : Env) (i : Instr) (s : State) : State :=
  match i with
  | .mov dst src => s.set dst (s.regs src)
  | .add dst a b => s.set dst (s.regs a + s.regs b)
  | .addImm dst src imm => s.set dst (s.regs src + BitVec.ofNat 64 imm)
  | .subImm dst src imm => s.set dst (s.regs src - BitVec.ofNat 64 imm)
  | .orrTag dst src pkey => s.set dst (s.regs src ||| BitVec.ofNat 64 (pkey * 2 ^ 56))
  | .movz dst imm => s.set dst (BitVec.ofNat 64 (imm * 2 ^ 48))
  -- a load of less than eight bytes clears the rest of the register
  | .ldr width dst base offset =>
    s.set dst (BitVec.ofNat 64 (s.mem.read (s.addr base offset) width.bytes))
  | .str width src base offset => s.store (s.addr base offset) width.bytes (s.regs src).toNat
  | .ldrQ dst base offset => s.setQ dst (BitVec.ofNat 128 (s.mem.read (s.addr base offset) 16))
  | .stpPre r₁ r₂ =>
    ((s.store (low (s.sp - 16#64)) 8 (s.regs r₁).toNat).store (low (s.sp - 16#64) + 8) 8
      (s.regs r₂).toNat).set .sp (s.sp - 16#64)
  | .strPre r => (s.store (low (s.sp - 16#64)) 8 (s.regs r).toNat).set .sp (s.sp - 16#64)
  | .strQPre i => (s.store (low (s.sp - 16#64)) 16 (s.vregs i).toNat).set .sp (s.sp - 16#64)
  | .ldpPost r₁ r₂ =>
    ((s.set r₁ (s.load64 (low s.sp))).set r₂ (s.load64 (low s.sp + 8))).set .sp (s.sp + 16#64)
  | .ldrQPost i => (s.setQ i (BitVec.ofNat 128 (s.mem.read (low s.sp) 16))).set .sp (s.sp + 16#64)
  | .mrsTpidr dst => s.set dst env.tpidr
  | .adrpGot dst pkey => s.set dst (env.gotPage pkey)
  | .ldrGot dst base pkey => s.set dst (env.got (s.regs base + env.gotLo12 pkey))
  | .bl callee => env.call callee (s.set (.x 30) env.retAddr)
  | .blr r => env.pointee (s.regs r) (s.set (.x 30) env.retAddr)
  | .ret => { s with pc := s.regs (.x 30) }

def Env.tpoff (env : Env) (pkey : Nat) : BitVec 64 := env.got (env.gotPage pkey + env.gotLo12 pkey)

def cellAddr (env : Env) (pkey : Nat) : Nat := low (env.tpoff pkey + env.tpidr)

/-- The bytes of `ia2_stackptr_n`. -/
def cell (env : Env) (pkey : Nat) : Set Nat := Set.Ico (cellAddr env pkey) (cellAddr env pkey + 8)

/-- The saved stack pointer of a compartment. -/
def stackptr (env : Env) (pkey : Nat) (s : State) : BitVec 64 := s.load64 (cellAddr env pkey)

/-- The bytes that an instruction other than a call writes. -/
def stores (i : Instr) (s : State) : Set Nat :=
  match i with
  | .str width _ base offset => Set.Ico (s.addr base offset) (s.addr base offset + width.bytes)
  | .stpPre _ _ | .strQPre _ => Set.Ico (low (s.sp - 16#64)) (low (s.sp - 16#64) + 16)
  | .strPre _ => Set.Ico (low (s.sp - 16#64)) (low (s.sp - 16#64) + 8)
  | _ => ∅

def loads (i : Instr) (s : State) : Set Nat :=
  match i with
  | .ldr width _ base offset => Set.Ico (s.addr base offset) (s.addr base offset + width.bytes)
  | .ldrQ _ base offset => Set.Ico (s.addr base offset) (s.addr base offset + 16)
  | .ldpPost _ _ | .ldrQPost _ => Set.Ico (low s.sp) (low s.sp + 16)
  | _ => ∅

def Confined (R W : Set Nat) (i : Instr) (s : State) : Prop := loads i s ⊆ R ∧ stores i s ⊆ W

def Instr.isCall : Instr → Bool
  | .bl .scrubRegisters => false
  | .bl _ | .blr _ => true
  | _ => false

theorem exec_eqOn (env : Env) {i : Instr} (hcall : i.isCall = false) (s : State) :
    Set.EqOn (exec env i s).mem s.mem (stores i s)ᶜ := by
  cases i
  case str => exact ByteMemory.write_eqOn _ _ _ _
  case strPre => exact ByteMemory.write_eqOn _ _ _ _
  case strQPre => exact ByteMemory.write_eqOn _ _ _ _
  case stpPre =>
    intro a ha
    have hout : ¬ (low (s.sp - 16#64) ≤ a ∧ a < low (s.sp - 16#64) + 16) := ha
    simp only [exec, State.set_mem, State.store_mem]
    rw [ByteMemory.write_of_notMem (by simp only [Set.mem_Ico]; omega),
      ByteMemory.write_of_notMem (by simp only [Set.mem_Ico]; omega)]
  case bl callee =>
    cases callee
    case scrubRegisters => exact fun _ _ => rfl
    all_goals cases hcall
  case blr => cases hcall
  all_goals exact fun _ _ => rfl

/-! ### Addresses -/

theorem low_lt (v : BitVec 64) : low v < 2 ^ 56 := Nat.mod_lt _ (by decide)

variable {n a : Nat} {v : BitVec 64} {s : State}

theorem low_add (h : low v + n < 2 ^ 56) :
    low (v + BitVec.ofNat 64 n) = low v + n := by
  have hv := v.isLt
  simp only [low, BitVec.toNat_add, BitVec.toNat_ofNat] at h ⊢
  omega

theorem low_sub (h : n ≤ low v) :
    low (v - BitVec.ofNat 64 n) = low v - n := by
  have hv := v.isLt
  simp only [low, BitVec.toNat_sub, BitVec.toNat_ofNat] at h ⊢
  omega

theorem low_orrTag (v : BitVec 64) (pkey : Nat) :
    low (v ||| BitVec.ofNat 64 (pkey * 2 ^ 56)) = low v := by
  refine Nat.eq_of_testBit_eq fun i => ?_
  simp only [low, Nat.testBit_mod_two_pow, BitVec.toNat_or, Nat.testBit_or, BitVec.toNat_ofNat,
    Nat.testBit_mul_two_pow]
  by_cases hi : i < 56
  · simp [hi, Nat.not_le.mpr hi]
  · simp [hi]

theorem State.toNat_load64 (s : State) (a : Nat) : (s.load64 a).toNat = s.mem.read a 8 := by
  rw [load64, BitVec.toNat_ofNat]
  exact Nat.mod_eq_of_lt (ByteMemory.read_lt _ _ 8)

theorem State.load64_congr {s' : State} (h : Set.EqOn s'.mem s.mem (Set.Ico a (a + 8))) :
    s'.load64 a = s.load64 a := by
  rw [load64, load64, ByteMemory.read_congr h]

theorem State.load64_write {m : ByteMemory} (h : s.mem = m.write a 8 v.toNat) : s.load64 a = v := by
  rw [load64, h, ByteMemory.read_write _ _ (by exact v.isLt), BitVec.ofNat_toNat,
    BitVec.setWidth_eq]

end Ia2.Arm
