import Ia2.Arm.Copies
import Ia2.Arm.Scrub

/-!
# Crossing to the target and back on AArch64

What a direct gate has in registers and memory at the call of the target, and that it comes back to
the stack that it left.
-/

namespace Ia2.Arm

open StraightLine Set
open Rewriter (TargetInfo)
open Rewriter.ArgLocation (register indirect)

variable {w : Wrapper} {target : TargetInfo} {env : Env} {s : State}

/-! ### To the target's stack -/

theorem IsDirect.entered_eq (h : IsDirect w target) (hpre : target.preConditions = 0) :
    entered w env s = run (exec env) emitPrologue s := by
  rw [entered, h.emitEntry_eq, emitPreConditions, hpre]
  simp

theorem switched_loaded (hdirect : IsDirect w target) (hpre : target.preConditions = 0)
    (hroom : savedBytes ≤ low s.sp)
    (hcells : Disjoint (cell env w.callerPkey) (cell env w.targetPkey))
    (hframe : Disjoint (cell env w.targetPkey) (Ico (low s.sp - savedBytes) (low s.sp))) :
    (switched w env s).regs (.x 11) = stackptr env w.targetPkey s := by
  have hframed := @framed_prologue env _ hroom
  rw [(switched_spec w env s).loaded, hdirect.entered_eq hpre, stackptr, stackptr]
  refine State.load64_congr fun a ha => ?_
  rw [State.store_mem, ByteMemory.write_of_notMem fun h => disjoint_left.mp hcells h ha]
  exact hframed.mem (disjoint_left.mp hframe ha)

/-! ### At the call -/

def argsPassed (w : Wrapper) (env : Env) (s : State) :
    State := copied w env w.sizes.argSize (switched w env s)

theorem atCall_eq (hdirect : IsDirect w target) :
    atCall w env s = exec env (.movz (.x 18) (w.targetPkey * 2 ^ 8))
      (run (exec env) (emitScrubRegs w.args false) (argsPassed w env s)) := by
  rw [atCall, hdirect.emitToTarget_eq, directArgs, run_append, run_append, run_emitCopies]
  rfl

section AtCall

variable {b : Nat}

theorem low_argsPassed (hroom : low ((switched w env s).regs (.x 11)) = b + w.sizes.total) :
    low (argsPassed w env s).sp = b := by
  rw [argsPassed, copied_sp]
  exact low_reserved (by rw [(switched_spec w env s).sp]; exact hroom)

variable (hdirect : IsDirect w target)
  (hroom : low ((switched w env s).regs (.x 11)) = b + w.sizes.total)
  (hscrub : scrubBytes w.args false ≤ b)
include hdirect hroom hscrub

theorem restores_atCall : Restores (scrubBytes w.args false) (argsPassed w env s) (atCall w env s) ∧
    ∀ r ∈ regs64bit w.args false, r ≠ 18 → (atCall w env s).regs (.x r) =
      (argsPassed w env s).regs (.x r) := by
  obtain ⟨hrestores, hregs⟩ := @restores_scrubRegs env w.args false (argsPassed w env s)
    (by rw [low_argsPassed hroom]; exact hscrub)
  rw [atCall_eq hdirect]
  refine ⟨⟨hrestores.sp, hrestores.vregs, hrestores.mem⟩, fun r hr hne => ?_⟩
  rw [exec_regs (by simpa [Instr.sets] using hne), hregs r hr]

theorem atCall_eqOn {C : Set Nat} (hC : Disjoint C (written env (directArgs w) (switched w env s)))
    (hC' : Disjoint C (Ico (b - scrubBytes w.args false) b)) :
    EqOn (atCall w env s).mem (switched w env s).mem C := by
  intro a ha
  have hmem := (restores_atCall hdirect hroom hscrub).1.mem
  rw [low_argsPassed hroom] at hmem
  exact (hmem (disjoint_left.mp hC' ha)).trans
    (copied_eqOn w env w.sizes.argSize (switched w env s) (disjoint_left.mp hC ha))

end AtCall

/-! ### Back to the caller's stack -/

theorem afterCall_eq (hdirect : IsDirect w target) :
    afterCall w env s = env.function .target ((atCall w env s).set (.x 30) env.retAddr) := by
  rw [afterCall, hdirect.emitFnCall_eq]
  rfl

theorem freed_mem (hret : w.sizes.returnSize = 0) :
    (freed w env s).mem = (afterCall w env s).mem := by
  have hcode : w.emitFromTarget = emitFreeStackSpace w.sizes.argBytes := by
    rw [Wrapper.emitFromTarget, emitCopyStackReturns, if_neg (by omega), List.append_nil]
  rw [freed, hcode, emitFreeStackSpace]
  split <;> rfl

/-! ### Two kinds of gates -/

/-- A function of `n` integers. -/
def intsSig (n : Nat) : AbiSignature where
  args := List.replicate n (register .integral 8)
  ret := []
  args_slots := Rewriter.slots_replicate n
  ret_slots := .void

/-- A function of one structure that is passed indirectly. -/
def structSig (size align : Nat) (hsize : 0 < size) (halign : 0 < align) : AbiSignature where
  args := [indirect size align]
  ret := []
  args_slots := List.forall_mem_singleton.mpr (.indirect hsize halign)
  ret_slots := .void

def gate (sig : AbiSignature) : Wrapper := ⟨sig, [], none, some {}, .direct, 1, 2⟩

theorem gate_isDirect (sig : AbiSignature) : IsDirect (gate sig) {} := ⟨rfl, rfl, rfl, rfl⟩

/-- Cells from `0x10000` on, and functions that return at once. -/
def idleEnv : Env where
  tpidr := 0x10000
  gotPage _ := 0
  gotLo12 pkey := BitVec.ofNat 64 (8 * pkey)
  got v := v
  retAddr := 0x400000
  function _ c := c
  pointee _ c := c

/-- The caller's stack ends at `0x20000`, the one of compartment 2 at `0x30000`. -/
def entryState : State where
  regs r := if r = .sp then 0x20000 else 7
  vregs _ := 0
  mem := ByteMemory.write (fun _ => 0) 0x10010 8 0x30000
  pc := 0x400100

theorem idle_cells :
    cell idleEnv 1 = Ico 0x10008 0x10010 ∧ cell idleEnv 2 = Ico 0x10010 0x10018 := ⟨rfl, rfl⟩

theorem idle_cells_disjoint : Disjoint (cell idleEnv 1) (cell idleEnv 2) := by
  rw [idle_cells.1, idle_cells.2]
  exact Ico_disjoint_of_le le_rfl

section Gate

variable (sig : AbiSignature) {s : State} (hsp : s.sp = entryState.sp)
include hsp

theorem gate_framed : Framed s (entered (gate sig) idleEnv s) := by
  rw [(gate_isDirect sig).entered_eq rfl]
  exact framed_prologue (by rw [hsp]; decide)

theorem gate_saved : (switched (gate sig) idleEnv s).regs (.x 12) = 0x1ffa0#64 := by
  rw [(switched_spec _ _ _).saved, (gate_framed sig hsp).sp, hsp]
  rfl

theorem gate_loaded (hmem : s.mem = entryState.mem) :
    (switched (gate sig) idleEnv s).regs (.x 11) = 0x30000#64 := by
  have hframe : Disjoint (cell idleEnv 2) (Ico (low s.sp - savedBytes) (low s.sp)) := by
    rw [idle_cells.2, hsp, show low entryState.sp = 0x20000 from rfl, show savedBytes = 96 from rfl]
    exact Ico_disjoint_of_le (by decide)
  have hcell : s.mem = ByteMemory.write (fun _ => 0) 0x10010 8 (0x30000#64).toNat := hmem
  have haddr : cellAddr idleEnv (gate sig).targetPkey = 0x10010 := by
    simp [cellAddr, low, Env.tpoff, idleEnv, gate]
  rw [switched_loaded (gate_isDirect sig) rfl (by rw [hsp]; decide) idle_cells_disjoint hframe,
    stackptr, haddr]
  exact State.load64_write hcell

end Gate

end Ia2.Arm
