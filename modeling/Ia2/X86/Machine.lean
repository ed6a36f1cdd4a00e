import Ia2.Library.ByteMemory
import Ia2.Library.StraightLine

/-!
# The x86-64 machine that call gates run on

The instructions that the rewriter emits, over the general registers, the low 128 bits of the vector
registers, PKRU and a flat memory. A gate is straight-line code; the functions that it calls are
state transformers that take the state at the function's first instruction to the state after its
`ret`. Flags are left out, since no emitted instruction reads them.
-/

namespace Ia2.X86

inductive Reg where
  | rax | rbx | rcx | rdx | rsi | rdi | rbp | rsp | r8 | r9 | r10 | r11 | r12 | r13 | r14 | r15
deriving DecidableEq, Repr

instance neZero_vector : NeZero 16 := ⟨Nat.succ_ne_zero 15⟩

abbrev Xmm := Fin 16

structure State where
  regs : Reg → BitVec 64
  xmm : Xmm → BitVec 128
  pkru : BitVec 32
  mem : ByteMemory
  rip : BitVec 64

namespace State

abbrev rsp (s : State) : BitVec 64 := s.regs .rsp

def set (s : State) (r : Reg) (v : BitVec 64) :
    State := { s with regs := fun r' => if r' = r then v else s.regs r' }

def setXmm (s : State) (i : Xmm) (v : BitVec 128) :
    State := { s with xmm := fun j => if j = i then v else s.xmm j }

def load64 (s : State) (a : Nat) : BitVec 64 := BitVec.ofNat 64 (s.mem.read a 8)

def store64 (s : State) (a : Nat) (v : BitVec 64) :
    State := { s with mem := s.mem.write a 8 v.toNat }

def push (s : State) (v : BitVec 64) : State :=
  (s.set .rsp (s.rsp - 8#64)).store64 (s.rsp - 8#64).toNat v

@[simp] theorem set_regs (s : State) (r r' : Reg) (v : BitVec 64) :
    (s.set r v).regs r' = if r' = r then v else s.regs r' := rfl

@[simp] theorem set_xmm (s : State) (r : Reg) (v : BitVec 64) : (s.set r v).xmm = s.xmm := rfl

@[simp] theorem set_pkru (s : State) (r : Reg) (v : BitVec 64) : (s.set r v).pkru = s.pkru := rfl

@[simp] theorem set_mem (s : State) (r : Reg) (v : BitVec 64) : (s.set r v).mem = s.mem := rfl

@[simp] theorem setXmm_regs (s : State) (i : Xmm) (v : BitVec 128) :
    (s.setXmm i v).regs = s.regs := rfl

@[simp] theorem setXmm_xmm (s : State) (i j : Xmm) (v : BitVec 128) :
    (s.setXmm i v).xmm j = if j = i then v else s.xmm j := rfl

@[simp] theorem setXmm_pkru (s : State) (i : Xmm) (v : BitVec 128) :
    (s.setXmm i v).pkru = s.pkru := rfl

@[simp] theorem setXmm_mem (s : State) (i : Xmm) (v : BitVec 128) :
    (s.setXmm i v).mem = s.mem := rfl

@[simp] theorem store64_regs (s : State) (a : Nat) (v : BitVec 64) :
    (s.store64 a v).regs = s.regs := rfl

@[simp] theorem store64_xmm (s : State) (a : Nat) (v : BitVec 64) :
    (s.store64 a v).xmm = s.xmm := rfl

@[simp] theorem store64_pkru (s : State) (a : Nat) (v : BitVec 64) :
    (s.store64 a v).pkru = s.pkru := rfl

@[simp] theorem store64_mem (s : State) (a : Nat) (v : BitVec 64) :
    (s.store64 a v).mem = s.mem.write a 8 v.toNat := rfl

@[simp] theorem push_regs (s : State) (v : BitVec 64) (r : Reg) :
    (s.push v).regs r = if r = .rsp then s.rsp - 8#64 else s.regs r := rfl

@[simp] theorem push_xmm (s : State) (v : BitVec 64) : (s.push v).xmm = s.xmm := rfl

@[simp] theorem push_pkru (s : State) (v : BitVec 64) : (s.push v).pkru = s.pkru := rfl

@[simp] theorem push_mem (s : State) (v : BitVec 64) :
    (s.push v).mem = s.mem.write (s.rsp - 8#64).toNat 8 v.toNat := rfl

end State

/-- The widths of `movq`, `movl`, `movw` and `movb`. -/
inductive Width where
  | b | w | l | q
deriving DecidableEq, Repr

def Width.bytes : Width → Nat
  | .b => 1
  | .w => 2
  | .l => 4
  | .q => 8

/-- A displacement is encoded as a signed number of 32 bits. -/
def DispFits (offset : Nat) : Prop :=
  -(2 ^ 31) ≤ (BitVec.ofNat 64 offset).toInt ∧ (BitVec.ofNat 64 offset).toInt < 2 ^ 31

instance (offset : Nat) : Decidable (DispFits offset) := by
  unfold DispFits
  infer_instance

def Width.merge (width : Width) (old : BitVec 64) (v : Nat) : BitVec 64 :=
  match width with
  | .q | .l => BitVec.ofNat 64 v
  | .w | .b => BitVec.ofNat 64 (old.toNat / 256 ^ width.bytes * 256 ^ width.bytes + v)

inductive RegistryFn where
  | construct | destruct | check
deriving DecidableEq, Repr

inductive Callee where
  | target
  | scrubRegisters
  | preCondition (i : Nat)
  | postCondition (i : Nat)
  | typeRegistry (fn : RegistryFn)
deriving DecidableEq, Repr

inductive Instr where
  | pushq (r : Reg)
  | pushqMem (offset : Nat) (base : Reg)
  | popq (r : Reg)
  | movq (src dst : Reg)
  | movqImm (imm : Nat) (dst : Reg)
  | movlImm (imm : BitVec 32) (dst : Reg)
  | movqXmm (src dst : Xmm)
  | movqToXmm (src : Reg) (dst : Xmm)
  | movqFromXmm (src : Xmm) (dst : Reg)
  | load (width : Width) (offset : Nat) (base dst : Reg)
  | store (width : Width) (src : Reg) (offset : Nat) (base : Reg)
  | loadXmm (offset : Nat) (base : Reg) (dst : Xmm)
  | movdquLoad (dst : Xmm)
  | movdquStore (src : Xmm)
  | subq (imm : Nat) (dst : Reg)
  | addq (imm : Nat) (dst : Reg)
  | xorl (r : Reg)
  | wrpkru
  | rdpkru
  | assertEax (imm : BitVec 32)
  | loadTpOff (pkey : Nat) (dst : Reg)
  | storeFs (src offset : Reg)
  | loadFs (offset dst : Reg)
  | call (callee : Callee)
  | callIndirect (r : Reg)
  | ret
deriving DecidableEq, Repr

/-- What surrounds a gate: the thread's `fs` base, the offsets of the `ia2_stackptr_n` cells from
it, the return addresses of the gate's calls and what the functions do that it calls by name or
through a pointer. -/
structure Env where
  fsBase : BitVec 64
  tpoff : Nat → BitVec 64
  retAddr : BitVec 64
  function : Callee → State → State
  pointee : BitVec 64 → State → State

def scrubRegisters (s : State) : State :=
  { s with
    regs := fun r => if r = .rsp then s.rsp + 8#64 else if r = .rbp then s.regs .rbp else 0
    xmm := fun _ => 0 }

def Env.call (env : Env) : Callee → State → State
  | .scrubRegisters => scrubRegisters
  | callee => env.function callee

/-- The address of `offset(%base)`. -/
def State.addr (s : State) (offset : Nat) (base : Reg) :
    Nat := (s.regs base + BitVec.ofNat 64 offset).toNat

def State.fsAddr (env : Env) (s : State) (offset : Reg) : Nat := (env.fsBase + s.regs offset).toNat

def exec (env : Env) (i : Instr) (s : State) : State :=
  match i with
  | .pushq r => s.push (s.regs r)
  | .pushqMem offset base => s.push (s.load64 (s.addr offset base))
  | .popq r => (s.set .rsp (s.rsp + 8#64)).set r (s.load64 s.rsp.toNat)
  | .movq src dst => s.set dst (s.regs src)
  | .movqImm imm dst => s.set dst (BitVec.ofNat 64 imm)
  | .movlImm imm dst => s.set dst (imm.setWidth 64)
  -- a 64-bit move to a vector register clears its upper half
  | .movqXmm src dst => s.setXmm dst (((s.xmm src).setWidth 64).setWidth 128)
  | .movqToXmm src dst => s.setXmm dst ((s.regs src).setWidth 128)
  | .movqFromXmm src dst => s.set dst ((s.xmm src).setWidth 64)
  | .load width offset base dst =>
    s.set dst (width.merge (s.regs dst) (s.mem.read (s.addr offset base) width.bytes))
  | .store width src offset base =>
    { s with mem := s.mem.write (s.addr offset base) width.bytes (s.regs src).toNat }
  | .loadXmm offset base dst => s.setXmm dst ((s.load64 (s.addr offset base)).setWidth 128)
  | .movdquLoad dst => s.setXmm dst (BitVec.ofNat 128 (s.mem.read s.rsp.toNat 16))
  | .movdquStore src => { s with mem := s.mem.write s.rsp.toNat 16 (s.xmm src).toNat }
  | .subq imm dst => s.set dst (s.regs dst - BitVec.ofNat 64 imm)
  | .addq imm dst => s.set dst (s.regs dst + BitVec.ofNat 64 imm)
  | .xorl r => s.set r 0
  | .wrpkru => { s with pkru := (s.regs .rax).setWidth 32 }
  | .rdpkru => (s.set .rax (s.pkru.setWidth 64)).set .rdx 0
  | .assertEax _ => s
  | .loadTpOff pkey dst => s.set dst (env.tpoff pkey)
  | .storeFs src offset => s.store64 (s.fsAddr env offset) (s.regs src)
  | .loadFs offset dst => s.set dst (s.load64 (s.fsAddr env offset))
  | .call callee => env.call callee (s.push env.retAddr)
  | .callIndirect r => env.pointee (s.regs r) (s.push env.retAddr)
  | .ret => { s.set .rsp (s.rsp + 8#64) with rip := s.load64 s.rsp.toNat }

def Instr.Faults (i : Instr) (s : State) : Prop :=
  match i with
  | .wrpkru => (s.regs .rcx).setWidth 32 ≠ 0#32 ∨ (s.regs .rdx).setWidth 32 ≠ 0#32
  | .assertEax imm => (s.regs .rax).setWidth 32 ≠ imm
  | _ => False

/-! ### The memory that an instruction touches -/

structure Access where
  addr : Nat
  len : Nat
  isWrite : Bool

def accesses (env : Env) (i : Instr) (s : State) : List Access :=
  match i with
  | .pushq _ | .call _ | .callIndirect _ => [⟨(s.rsp - 8#64).toNat, 8, true⟩]
  | .pushqMem offset base => [⟨s.addr offset base, 8, false⟩, ⟨(s.rsp - 8#64).toNat, 8, true⟩]
  | .popq _ | .ret => [⟨s.rsp.toNat, 8, false⟩]
  | .load width offset base _ => [⟨s.addr offset base, width.bytes, false⟩]
  | .store width _ offset base => [⟨s.addr offset base, width.bytes, true⟩]
  | .loadXmm offset base _ => [⟨s.addr offset base, 8, false⟩]
  | .movdquLoad _ => [⟨s.rsp.toNat, 16, false⟩]
  | .movdquStore _ => [⟨s.rsp.toNat, 16, true⟩]
  | .storeFs _ offset => [⟨s.fsAddr env offset, 8, true⟩]
  | .loadFs offset _ => [⟨s.fsAddr env offset, 8, false⟩]
  | _ => []

def Access.bytes (a : Access) : Set Nat := Set.Ico a.addr (a.addr + a.len)

def Confined (env : Env) (R W : Set Nat) (i : Instr) (s : State) : Prop :=
  ∀ a ∈ accesses env i s, a.bytes ⊆ if a.isWrite then W else R

def Instr.isCall : Instr → Bool
  | .call .scrubRegisters => false
  | .call _ | .callIndirect _ => true
  | _ => false

variable {R W : Set Nat} {env : Env} {i : Instr} {s : State}

theorem Confined.mono {R' W' : Set Nat} (hR : R ⊆ R') (hW : W ⊆ W') (h : Confined env R W i s) :
    Confined env R' W' i s := by
  intro a ha
  refine (h a ha).trans ?_
  split
  · exact hW
  · exact hR

theorem Confined.exec_eqOn (h : Confined env R W i s) (hcall : i.isCall = false) :
    Set.EqOn (exec env i s).mem s.mem Wᶜ := by
  have hwrite : ∀ a n v, Set.Ico a (a + n) ⊆ W → Set.EqOn (s.mem.write a n v) s.mem Wᶜ :=
    fun a n v hsub =>
    (ByteMemory.write_eqOn s.mem a n v).mono (Set.compl_subset_compl.mpr hsub)
  cases i
  case pushq => exact hwrite _ 8 _ (h _ (List.mem_singleton.mpr rfl))
  case pushqMem => exact hwrite _ 8 _ (h _ (List.mem_cons_of_mem _ (List.mem_singleton.mpr rfl)))
  case store => exact hwrite _ _ _ (h _ (List.mem_singleton.mpr rfl))
  case movdquStore => exact hwrite _ 16 _ (h _ (List.mem_singleton.mpr rfl))
  case storeFs => exact hwrite _ 8 _ (h _ (List.mem_singleton.mpr rfl))
  case call callee =>
    cases callee
    case scrubRegisters => exact hwrite _ 8 _ (h _ (List.mem_singleton.mpr rfl))
    all_goals simp [Instr.isCall] at hcall
  case callIndirect => simp [Instr.isCall] at hcall
  all_goals exact fun _ _ => rfl

def Instr.isSpecial : Instr → Bool
  | .wrpkru | .rdpkru | .assertEax _ | .ret => true
  | _ => false

def Instr.isPlain (i : Instr) : Bool := !i.isCall && !i.isSpecial

theorem Instr.isPlain_iff :
    i.isPlain = true ↔ i.isCall = false ∧ i.isSpecial = false := by
  simp [isPlain]

theorem Instr.not_faults_of_isPlain (h : i.isPlain = true) (s : State) :
    ¬ i.Faults s := by
  have hspecial := (isPlain_iff.mp h).2
  cases i
  case wrpkru => cases hspecial
  case assertEax => cases hspecial
  all_goals exact id

def Instr.isLocal : Instr → Bool
  | .loadFs _ _ => false
  | i => i.isPlain

theorem Instr.isPlain_of_isLocal (h : i.isLocal = true) : i.isPlain = true := by
  cases i
  case loadFs => cases h
  all_goals exact h

theorem exec_pkru (env : Env) (hplain : i.isPlain = true) (s : State) :
    (exec env i s).pkru = s.pkru := by
  obtain ⟨hcall, hspecial⟩ := Instr.isPlain_iff.mp hplain
  cases i
  case call callee =>
    cases callee
    case scrubRegisters => rfl
    all_goals cases hcall
  case callIndirect => cases hcall
  case wrpkru => cases hspecial
  all_goals rfl

section Plain

open StraightLine

variable {env : Env} {R W : Set Nat} {P : Instr → State → Prop} {prog : List Instr} {s : State}
  {Q : State → Prop}

theorem Confined.along (h : Along (exec env) P prog s) (hP : ∀ i s', P i s' → Confined env R W i s')
    (hplain : ∀ i ∈ prog, i.isPlain = true) :
    Runs (exec env) (fun i s' => P i s' ∧ s'.pkru = s.pkru ∧ Set.EqOn s'.mem s.mem Wᶜ) prog s
      fun s' => s'.pkru = s.pkru ∧ Set.EqOn s'.mem s.mem Wᶜ := by
  refine h.invariant ⟨rfl, Set.eqOn_refl _ _⟩ fun i s' hi hp hs' => ?_
  have hquiet := hplain i hi
  exact ⟨(exec_pkru env hquiet s').trans hs'.1,
    ((hP i s' hp).exec_eqOn (Instr.isPlain_iff.mp hquiet).1).trans hs'.2⟩

theorem Confined.runs (h : Runs (exec env) (Confined env R W) prog s Q)
    (hplain : ∀ i ∈ prog, i.isPlain = true) :
    Runs (exec env) (Confined env R W) prog s fun s' =>
      Q s' ∧ s'.pkru = s.pkru ∧ Set.EqOn s'.mem s.mem Wᶜ :=
  ⟨h.1, h.2, (Confined.along h.1 (fun _ _ h => h) hplain).2⟩

end Plain

end Ia2.X86
