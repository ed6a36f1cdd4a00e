import Ia2.Arm.Results
import Mathlib.Algebra.BigOperators.Group.List.Basic
import Mathlib.Data.BitVec

/-!
# The stack pointer in an AArch64 gate

Every instruction of a gate changes the stack pointer by a constant, except the two that switch
stacks. So what a gate does to a stack is a sum over its code, and the stack pointer stays a
multiple of 16 where every summand is one.
-/

namespace Ia2.Arm

open StraightLine Set
open Rewriter (TargetInfo)
open Rewriter.ArgLocation (indirect)

def Instr.spBase : Instr → Bool
  | .ldr _ _ base _ | .str _ _ base _ | .ldrQ _ base _ => decide (base = .sp)
  | .stpPre _ _ | .strPre _ | .strQPre _ | .ldpPost _ _ | .ldrQPost _ => true
  | _ => false

def SpAligned (i : Instr) (s : State) :
    Prop := (i.spBase = true ∨ i = .bl .target) → s.sp.toNat % 16 = 0

/-! ### Constant changes -/

def spDelta : Instr → BitVec 64
  | .addImm .sp .sp imm => BitVec.ofNat 64 imm
  | .subImm .sp .sp imm => -BitVec.ofNat 64 imm
  | .stpPre _ _ | .strPre _ | .strQPre _ => -16#64
  | .ldpPost _ _ | .ldrQPost _ => 16#64
  | _ => 0

def Instr.stepsSp : Instr → Bool
  | .mov dst _ | .add dst _ _ | .orrTag dst _ _ | .movz dst _ | .ldr _ dst _ _ | .mrsTpidr dst |
      .adrpGot dst _ | .ldrGot dst _ _ =>
    decide (dst ≠ .sp)
  | .addImm dst src _ | .subImm dst src _ => decide (dst = .sp → src = .sp)
  | .blr _ => false
  | _ => true

def KeepSp (env : Env) : Prop := ∀ callee c, (env.function callee c).sp = c.sp

section

variable {env : Env} {prog : List Instr} {s : State}

theorem exec_sp (henv : KeepSp env) {i : Instr} (hi : i.stepsSp = true) (s : State) :
    (exec env i s).sp = s.sp + spDelta i := by
  cases i
  case addImm dst src imm =>
    cases dst with
    | x n => exact (add_zero _).symm
    | sp =>
      obtain rfl : src = .sp := by simpa [Instr.stepsSp] using hi
      rfl
  case subImm dst src imm =>
    cases dst with
    | x n => exact (add_zero _).symm
    | sp =>
      obtain rfl : src = .sp := by simpa [Instr.stepsSp] using hi
      exact sub_eq_add_neg _ _
  case bl callee =>
    rw [show spDelta (.bl callee) = 0 from rfl, add_zero]
    cases callee
    case scrubRegisters => rfl
    all_goals exact henv _ _
  case stpPre => exact sub_eq_add_neg _ _
  case strPre => exact sub_eq_add_neg _ _
  case strQPre => exact sub_eq_add_neg _ _
  case ldpPost => rfl
  case ldrQPost => rfl
  case blr => cases hi
  all_goals
    rw [show spDelta _ = 0 from rfl, add_zero]
    first
    | rfl
    | exact if_neg (Ne.symm (by simpa [Instr.stepsSp] using hi))

theorem run_sp (henv : KeepSp env) (hprog : ∀ i ∈ prog, i.stepsSp = true) (s : State) :
    (run (exec env) prog s).sp = s.sp + (prog.map spDelta).sum := by
  induction prog generalizing s with
  | nil => exact (add_zero _).symm
  | cons i prog ih =>
    rw [List.forall_mem_cons] at hprog
    rw [run, ih hprog.2, exec_sp henv hprog.1, List.map_cons, List.sum_cons, add_assoc]

theorem toNat_add_mod (a b : BitVec 64) : (a + b).toNat % 16 = (a.toNat + b.toNat) % 16 := by
  rw [BitVec.toNat_add]
  omega

theorem runs_aligned (henv : KeepSp env)
    (hprog : ∀ i ∈ prog, i.stepsSp = true ∧ (spDelta i).toNat % 16 = 0) (hs : s.sp.toNat % 16 = 0) :
    Runs (exec env) SpAligned prog s fun s' => s'.sp.toNat % 16 = 0 := by
  induction prog generalizing s with
  | nil => exact Runs.nil hs
  | cons i prog ih =>
    rw [List.forall_mem_cons] at hprog
    refine Runs.cons (fun _ => hs) (ih hprog.2 ?_)
    rw [exec_sp henv hprog.1.1, toNat_add_mod]
    have := hprog.1.2
    omega

end

/-! ### The pieces of a gate -/

def Instr.LeavesSp (i : Instr) : Prop := i.stepsSp = true ∧ spDelta i = 0

theorem Instr.LeavesSp.aligned {i : Instr} (h : i.LeavesSp) :
    i.stepsSp = true ∧ (spDelta i).toNat % 16 = 0 :=
  ⟨h.1, by rw [h.2]; rfl⟩

theorem sum_leavesSp {prog : List Instr} (h : ∀ i ∈ prog, i.LeavesSp) :
    (prog.map spDelta).sum = 0 := by
  refine List.sum_eq_zero fun d hd => ?_
  obtain ⟨i, hi, rfl⟩ := List.mem_map.mp hd
  exact (h i hi).2

theorem leavesSp_memcpy (n : Nat) (dst src : Reg) (scratch : Fin 31) (offset : Nat) :
    ∀ i ∈ emitMemcpy n dst src (.x scratch) offset, i.LeavesSp := by
  intro i hi
  obtain ⟨⟨width, k⟩, -, hi⟩ := List.mem_flatMap.mp hi
  simp only [List.mem_cons, List.not_mem_nil, or_false] at hi
  rcases hi with rfl | rfl
  · exact ⟨rfl, rfl⟩
  · exact ⟨rfl, rfl⟩

theorem leavesSp_returnPointer (sizes : StackSizes) :
    ∀ i ∈ emitReturnPointer sizes, i.LeavesSp := by
  unfold emitReturnPointer
  split
  · exact List.forall_mem_cons.mpr ⟨⟨rfl, rfl⟩, List.forall_mem_singleton.mpr ⟨rfl, rfl⟩⟩
  · simp

theorem leavesSp_copyStackArgs (sizes : StackSizes) (size : Nat) :
    ∀ i ∈ emitCopyStackArgs sizes size, i.LeavesSp := by
  unfold emitCopyStackArgs
  split
  · exact leavesSp_memcpy _ _ _ _ _
  · simp

theorem leavesSp_copyIndirect (arg : Location) (offset : Nat) :
    ∀ i ∈ emitCopyIndirect arg offset, i.LeavesSp := by
  unfold emitCopyIndirect
  split
  · simp only [List.forall_mem_append, List.forall_mem_cons]
    exact ⟨⟨⟨⟨rfl, rfl⟩, ⟨rfl, rfl⟩, by simp⟩, leavesSp_memcpy _ _ _ _ _⟩, ⟨rfl, rfl⟩, by simp⟩
  · split
    · simp only [List.forall_mem_append, List.forall_mem_cons]
      exact ⟨⟨⟨rfl, rfl⟩, ⟨rfl, rfl⟩, by simp⟩, leavesSp_memcpy _ _ _ _ _⟩
    · simp

theorem leavesSp_copyIndirects (sizes : StackSizes) (args : List Location) :
    ∀ i ∈ emitCopyIndirects sizes args, i.LeavesSp := by
  intro i hi
  obtain ⟨p, -, hi⟩ := List.mem_flatMap.mp hi
  exact leavesSp_copyIndirect p.1 p.2 i hi

theorem copies_sp (sizes : StackSizes) (args : List Location) (size : Nat) :
    (∀ i ∈ emitCopies sizes args size, i.stepsSp = true ∧
      (spDelta i = 0 ∨ spDelta i = -BitVec.ofNat 64 sizes.total)) ∧
      ((emitCopies sizes args size).map spDelta).sum = -BitVec.ofNat 64 sizes.total := by
  have hreserve : (∀ i ∈ emitReserve sizes, i.stepsSp = true ∧
    (spDelta i = 0 ∨ spDelta i = -BitVec.ofNat 64 sizes.total)) ∧
      ((emitReserve sizes).map spDelta).sum = -BitVec.ofNat 64 sizes.total := by
    unfold emitReserve
    split
    · exact ⟨List.forall_mem_singleton.mpr ⟨rfl, .inr rfl⟩, List.sum_singleton⟩
    · rw [show sizes.total = 0 by omega]
      exact ⟨by simp, rfl⟩
  have hleave : ∀ {prog : List Instr}, (∀ i ∈ prog, i.LeavesSp) →
      ∀ i ∈ prog, i.stepsSp = true ∧ (spDelta i = 0 ∨ spDelta i = -BitVec.ofNat 64 sizes.total) :=
    fun h i hi => ⟨(h i hi).1, .inl (h i hi).2⟩
  refine ⟨?_, ?_⟩
  · simp only [emitCopies, List.forall_mem_append]
    exact ⟨⟨⟨hreserve.1, hleave (leavesSp_returnPointer _)⟩, hleave (leavesSp_copyStackArgs _ _)⟩,
      hleave (leavesSp_copyIndirects _ _)⟩
  · simp only [emitCopies, List.map_append, List.sum_append, hreserve.2,
      sum_leavesSp (leavesSp_returnPointer _),
      sum_leavesSp (leavesSp_copyStackArgs _ _),
      sum_leavesSp (leavesSp_copyIndirects _ _), add_zero]

theorem savePairs_sp (rs : List (Fin 31)) :
    (∀ i ∈ savePairs rs ++ restorePairs rs, i.stepsSp = true ∧ (spDelta i).toNat % 16 = 0) ∧
      ((savePairs rs).map spDelta).sum + ((restorePairs rs).map spDelta).sum = 0 := by
  induction rs using savePairs.induct with
  | case1 => exact ⟨by simp [savePairs, restorePairs], rfl⟩
  | case2 r =>
    exact ⟨by simp [savePairs, restorePairs, Instr.stepsSp, spDelta], by
      simp [savePairs, restorePairs, spDelta]⟩
  | case3 r₁ r₂ rs ih =>
    obtain ⟨hsteps, hsum⟩ := ih
    rw [List.forall_mem_append] at hsteps
    refine ⟨?_, ?_⟩
    · simp only [savePairs, restorePairs, List.forall_mem_append, List.forall_mem_cons]
      exact ⟨⟨⟨rfl, by simp [spDelta]⟩, hsteps.1⟩, hsteps.2, ⟨rfl, by simp [spDelta]⟩, by simp⟩
    · simp only [savePairs, restorePairs, List.map_cons, List.map_append, List.sum_cons,
        List.sum_append, List.map_nil, List.sum_nil,
        add_zero]
      calc _ = ((savePairs rs).map spDelta).sum + ((restorePairs rs).map spDelta).sum +
               (-16#64 + 16#64) := by
            rw [show spDelta (.stpPre (.x r₁) (.x r₂)) = -16#64 from rfl,
              show spDelta (.ldpPost (.x r₁) (.x r₂)) = 16#64 from rfl]
            ring
        _ = 0 := by rw [hsum]; rfl

theorem scrubRegs_sp (locs : List Location) (isIndirect : Bool) :
    (∀ i ∈ emitScrubRegs locs isIndirect, i.stepsSp = true ∧ (spDelta i).toNat % 16 = 0) ∧
      ((emitScrubRegs locs isIndirect).map spDelta).sum = 0 := by
  obtain ⟨hsteps, hsum⟩ := savePairs_sp (regs64bit locs isIndirect)
  rw [List.forall_mem_append] at hsteps
  refine ⟨?_, ?_⟩
  · simp only [emitScrubRegs, List.forall_mem_append]
    exact ⟨⟨⟨⟨hsteps.1, List.forall_mem_map.mpr fun _ _ => ⟨rfl, by simp [spDelta]⟩⟩,
      List.forall_mem_singleton.mpr ⟨rfl, rfl⟩⟩,
      List.forall_mem_map.mpr fun _ _ => ⟨rfl, by simp [spDelta]⟩⟩, hsteps.2⟩
  · have hpush : spDelta ∘ Instr.strQPre = fun _ => -16#64 := rfl
    have hpop : spDelta ∘ Instr.ldrQPost = fun _ => 16#64 := rfl
    simp only [emitScrubRegs, List.map_append, List.map_map, List.sum_append, hpush, hpop,
      List.map_const', List.sum_replicate,
      List.length_reverse, List.map_cons, List.map_nil, List.sum_cons, List.sum_nil,
      show spDelta (.bl .scrubRegisters) = 0 from rfl]
    calc _ = ((savePairs (regs64bit locs isIndirect)).map spDelta).sum +
             ((restorePairs (regs64bit locs isIndirect)).map spDelta).sum +
            (regs128bit locs).length • (-16#64 + 16#64) := by
          rw [nsmul_add]
          ring
      _ = 0 := by rw [hsum]; simp

theorem leavesSp_switchLoads (oldPkey newPkey : Nat) :
    ∀ i ∈ switchLoads oldPkey newPkey, i.LeavesSp := by
  have hcell : ∀ pkey, ∀ i ∈ emitCellAddr pkey, i.LeavesSp := by
    intro pkey i hi
    simp only [emitCellAddr, List.cons_append, List.nil_append, List.mem_cons] at hi
    rcases hi with rfl | rfl | rfl | hi
    · exact ⟨rfl, rfl⟩
    · exact ⟨rfl, rfl⟩
    · exact ⟨rfl, rfl⟩
    · split at hi
      · obtain rfl := List.mem_singleton.mp hi
        exact ⟨rfl, rfl⟩
      · cases hi
  simp only [switchLoads, List.forall_mem_append, List.forall_mem_cons]
  exact ⟨⟨⟨⟨⟨⟨rfl, rfl⟩, by simp⟩, hcell oldPkey⟩, ⟨rfl, rfl⟩, ⟨rfl, rfl⟩, by simp⟩, hcell newPkey⟩,
    ⟨rfl, rfl⟩, by simp⟩

variable {target : TargetInfo} {w : Wrapper}

theorem entry_aligned (h : IsDirect w target) :
    ∀ i ∈ w.emitEntry, i.stepsSp = true ∧ (spDelta i).toNat % 16 = 0 := by
  rw [h.emitEntry_eq, List.forall_mem_append]
  exact ⟨by decide, List.forall_mem_map.mpr fun _ _ => ⟨rfl, rfl⟩⟩

theorem exit_aligned (h : IsDirect w target) :
    ∀ i ∈ w.emitExit, i.stepsSp = true ∧ (spDelta i).toNat % 16 = 0 := by
  rw [h.emitExit_eq]
  simp only [List.forall_mem_append]
  exact ⟨⟨⟨⟨(scrubRegs_sp _ _).1, List.forall_mem_singleton.mpr ⟨rfl, rfl⟩⟩,
    List.forall_mem_map.mpr fun _ _ => ⟨rfl, rfl⟩⟩, by decide⟩,
    by decide⟩

theorem fromTarget_sp (w : Wrapper) :
    (∀ i ∈ w.emitFromTarget, i.stepsSp = true ∧
      (spDelta i = 0 ∨ spDelta i = BitVec.ofNat 64 w.sizes.argBytes ∨
        spDelta i = BitVec.ofNat 64 w.sizes.returnBytes)) ∧
      (w.emitFromTarget.map spDelta).sum = BitVec.ofNat 64 w.sizes.argBytes +
        BitVec.ofNat 64 w.sizes.returnBytes := by
  have hfree : (∀ i ∈ emitFreeStackSpace w.sizes.argBytes,
    i.stepsSp = true ∧ spDelta i = BitVec.ofNat 64 w.sizes.argBytes) ∧
      ((emitFreeStackSpace w.sizes.argBytes).map spDelta).sum =
      BitVec.ofNat 64 w.sizes.argBytes := by
    unfold emitFreeStackSpace
    split
    case isTrue h =>
      rw [h]
      exact ⟨by simp, rfl⟩
    · exact ⟨List.forall_mem_singleton.mpr ⟨rfl, rfl⟩, List.sum_singleton⟩
  have hreturn : (∀ i ∈ emitCopyStackReturns w.sizes, i.stepsSp = true ∧
        (spDelta i = 0 ∨ spDelta i = BitVec.ofNat 64 w.sizes.returnBytes)) ∧
      ((emitCopyStackReturns w.sizes).map spDelta).sum = BitVec.ofNat 64 w.sizes.returnBytes := by
    have hcopy := leavesSp_memcpy w.sizes.returnSize (.x 8) .sp 9 w.sizes.returnStart
    unfold emitCopyStackReturns StackSizes.returnBytes
    split
    · refine ⟨?_, ?_⟩
      · simp only [List.forall_mem_append, List.forall_mem_cons]
        exact ⟨⟨⟨⟨rfl, .inl rfl⟩, by simp⟩, fun i hi => ⟨(hcopy i hi).1, .inl (hcopy i hi).2⟩⟩,
          ⟨rfl, .inr rfl⟩, by simp⟩
      · simp only [List.map_append, List.sum_append, sum_leavesSp hcopy]
        simp [spDelta]
    · exact ⟨by simp, rfl⟩
  refine ⟨?_, ?_⟩
  · rw [Wrapper.emitFromTarget, List.forall_mem_append]
    exact ⟨fun i hi => ⟨(hfree.1 i hi).1, .inr (.inl (hfree.1 i hi).2)⟩,
      fun i hi => ⟨(hreturn.1 i hi).1, (hreturn.1 i hi).2.imp id .inr⟩⟩
  · rw [Wrapper.emitFromTarget, List.map_append, List.sum_append, hfree.2, hreturn.2]

/-! ### Whole gates -/

def called (w : Wrapper) (env : Env) (s : State) : State := (atCall w env s).set (.x 30) env.retAddr

/-- A target that preserves the stack pointer, and leaves alone the caller's cell and the address
that the gate saved for a result in memory. -/
structure Preserves (w : Wrapper) (env : Env) (s : State) (f : State → State) : Prop where
  sp : ∀ c, (f c).sp = c.sp
  cell : EqOn (f (called w env s)).mem (called w env s).mem (cell env w.callerPkey)
  address : 0 < w.sizes.returnSize → EqOn (f (called w env s)).mem (called w env s).mem
    (Ico (low (called w env s).sp + w.sizes.savedPtrOffset)
      (low (called w env s).sp + w.sizes.returnStart))

/-- Whatever the target is, in a run of the wrapper the stack pointer is a multiple of 16 at every
access based on it and at the call of the target, and the stack pointer that the gate saves for the
target is the one that it loaded. -/
def KeepsFrame (w : Wrapper) (env : Env) (s : State) : Prop :=
  ∃ prog, w.emitAsmWrapper = some prog ∧ ∀ f, Preserves w env s f →
    Along (exec (env.withTarget f)) SpAligned prog s ∧
      (switchedBack w (env.withTarget f) s).regs (.x 12) = (switched w env s).regs (.x 11)

section Frame

variable {w : Wrapper} {target : TargetInfo} {env : Env} {s : State}

theorem toTarget_sp (hdirect : IsDirect w target) :
    (∀ i ∈ w.emitToTarget (directArgs w), i.stepsSp = true ∧
      ((spDelta i).toNat % 16 = 0 ∨ spDelta i = -BitVec.ofNat 64 w.sizes.total)) ∧
      ((w.emitToTarget (directArgs w)).map spDelta).sum = -BitVec.ofNat 64 w.sizes.total := by
  obtain ⟨hcopies, hsum⟩ := copies_sp w.sizes w.args w.sizes.argSize
  obtain ⟨hscrub, hsum'⟩ := scrubRegs_sp w.args false
  rw [hdirect.emitToTarget_eq]
  refine ⟨?_, ?_⟩
  · simp only [List.forall_mem_append]
    refine ⟨⟨fun i hi => ⟨(hcopies i hi).1, ?_⟩,
      fun i hi => ⟨(hscrub i hi).1, .inl (hscrub i hi).2⟩⟩,
      List.forall_mem_singleton.mpr ⟨rfl, .inl rfl⟩⟩
    rcases (hcopies i hi).2 with hzero | htotal
    · exact .inl (by rw [hzero]; rfl)
    · exact .inr htotal
  · simp only [List.map_append, List.sum_append, hsum', directArgs, hsum,
      sum_leavesSp (show ∀ i ∈ emitSetPkru w.targetPkey, i.LeavesSp from
      List.forall_mem_singleton.mpr ⟨rfl, rfl⟩), add_zero]

section

variable (hdirect : IsDirect w target) (henv : KeepSp env)

include hdirect henv

theorem atCall_sp :
    (atCall w env s).sp = (switched w env s).regs (.x 11) - BitVec.ofNat 64 w.sizes.total := by
  obtain ⟨hsteps, hsum⟩ := toTarget_sp hdirect
  rw [atCall, run_sp henv fun i hi => (hsteps i hi).1, hsum, sub_eq_add_neg,
    (switched_spec w env s).sp]

theorem afterCall_sp :
    (afterCall w env s).sp = (atCall w env s).sp := by
  rw [afterCall, hdirect.emitFnCall_eq, exec_sp henv rfl]
  exact add_zero _

theorem savedBack_eq :
    (switchedBack w env s).regs (.x 12) = (switched w env s).regs (.x 11) -
      BitVec.ofNat 64 w.sizes.indirectBytes := by
  obtain ⟨hsteps, hsum⟩ := fromTarget_sp w
  have hfreed : (freed w env s).sp = (afterCall w env s).sp +
      (BitVec.ofNat 64 w.sizes.argBytes + BitVec.ofNat 64 w.sizes.returnBytes) := by
    rw [freed, run_sp henv fun i hi => (hsteps i hi).1, hsum]
  rw [(switchedBack_spec w env s).saved, hfreed, afterCall_sp hdirect henv,
    atCall_sp hdirect henv, w.total_eq,
    BitVec.ofNat_add, BitVec.ofNat_add]
  ring

omit hdirect in
theorem along_switchStacks (oldPkey newPkey : Nat) (hs : s.sp.toNat % 16 = 0) :
    Along (exec env) SpAligned (emitSwitchStacks oldPkey newPkey) s := by
  have hloads := runs_aligned henv (fun i hi => (leavesSp_switchLoads oldPkey newPkey i hi).aligned)
    hs
  rw [emitSwitchStacks_eq, along_append]
  refine ⟨hloads.1, ?_, trivial⟩
  rintro (h | h) <;> cases h

omit henv in
theorem spAligned_fnCall :
    SpAligned w.emitFnCall s ↔ s.sp.toNat % 16 = 0 := by
  rw [hdirect.emitFnCall_eq]
  exact ⟨fun h => h (.inr rfl), fun h _ => h⟩

omit hdirect henv in
theorem neg_toNat_mod {n : Nat} (h : n % 16 = 0) : (-BitVec.ofNat 64 n).toNat % 16 = 0 := by
  rw [BitVec.toNat_neg, BitVec.toNat_ofNat]
  omega

omit hdirect in
theorem keepSp_withTarget {f : State → State} (hf : ∀ c, (f c).sp = c.sp) :
    KeepSp (env.withTarget f) := by
  intro callee c
  cases callee with
  | target => exact hf c
  | _ => exact henv _ c

omit hdirect henv in
theorem preserves_id : Preserves w env s id := ⟨fun _ => rfl, fun _ _ => rfl, fun _ _ _ => rfl⟩

omit hdirect henv in
theorem KeepsFrame.atCall (h : KeepsFrame w env s) (hdirect : IsDirect w target) :
    (atCall w env s).sp.toNat % 16 = 0 := by
  obtain ⟨prog, hprog, hruns⟩ := h
  obtain rfl := Option.some.inj (hdirect.emitAsmWrapper_eq.symm.trans hprog)
  have hcall := (spAligned_fnCall hdirect).mp
    ((along_directCode w _ s).mp (hruns id preserves_id).1).2.2.2.1
  rwa [atCall_withTarget hdirect] at hcall

theorem sp_of_along_exit {c : State} (h : Along (exec env) SpAligned w.emitExit c) :
    c.sp.toNat % 16 = 0 := by
  have hpost : ∀ i ∈ emitSetReturnPkru w.callerPkey ++ emitPostConditions target, i.LeavesSp :=
    List.forall_mem_append.mpr ⟨List.forall_mem_singleton.mpr ⟨rfl, rfl⟩,
      List.forall_mem_map.mpr fun _ _ => ⟨rfl, rfl⟩⟩
  obtain ⟨hscrub, hsum⟩ := scrubRegs_sp w.rets false
  rw [hdirect.emitExit_eq, List.append_assoc (emitScrubRegs _ _), along_append, along_append] at h
  have hfirst := h.1.2.1 (.inl rfl)
  rwa [run_append, run_sp henv fun i hi => (hpost i hi).1,
    run_sp henv fun i hi => (hscrub i hi).1, hsum,
    sum_leavesSp hpost, add_zero, add_zero] at hfirst

theorem along_directCode_iff (hsp : s.sp.toNat % 16 = 0)
    (htsp : ((switched w env s).regs (.x 11)).toNat % 16 = 0) (hargs : w.sizes.argBytes % 16 = 0) :
    Along (exec env) SpAligned (directCode w) s ↔
      ((switchedBack w env s).regs (.x 11)).toNat % 16 = 0 := by
  have hreturn := w.returnBytes_mod
  have hindirect := w.indirectBytes_mod
  have hsum := w.total_eq
  have hdown : w.sizes.total % 16 = 0 := by omega
  obtain ⟨hentry, hentered⟩ := runs_aligned henv (entry_aligned hdirect) hsp
  rw [← entered] at hentered
  obtain ⟨hto, hcall⟩ := runs_aligned henv (s := switched w env s)
    (fun i hi => ⟨((toTarget_sp hdirect).1 i hi).1,
      ((toTarget_sp hdirect).1 i hi).2.elim id fun h => by rw [h]; exact neg_toNat_mod hdown⟩)
    (by rw [(switched_spec w env s).sp]; exact htsp)
  rw [← atCall] at hcall
  obtain ⟨hfrom, hfreed⟩ := runs_aligned henv (s := afterCall w env s)
    (fun i hi => ⟨((fromTarget_sp w).1 i hi).1, by
      rcases ((fromTarget_sp w).1 i hi).2 with h | h | h <;> rw [h]
      · rfl
      · rw [BitVec.toNat_ofNat]
        omega
      · rw [BitVec.toNat_ofNat]
        omega⟩)
    (by rw [afterCall_sp hdirect henv]; exact hcall)
  rw [← freed] at hfreed
  have hswitch := along_switchStacks henv w.callerPkey w.targetPkey hentered
  have hswitchBack := along_switchStacks henv w.targetPkey w.callerPkey hfreed
  have hfnCall := (spAligned_fnCall hdirect).mpr hcall
  rw [← (switchedBack_spec w env s).sp]
  simp only [along_directCode, hentry, hswitch, hto, hfnCall, hfrom, hswitchBack, true_and]
  exact ⟨sp_of_along_exit hdirect henv, fun h => (runs_aligned henv (exit_aligned hdirect) h).1⟩

end

theorem keepsFrame_iff_loaded (hdirect : IsDirect w target) (henv : KeepSp env)
    (hsp : s.sp.toNat % 16 = 0) (htsp : ((switched w env s).regs (.x 11)).toNat % 16 = 0)
    (htotal : w.sizes.total < 2 ^ 64) :
    KeepsFrame w env s ↔ w.sizes.argBytes % 16 = 0 ∧ w.sizes.indirectBytes = 0 ∧
      ∀ f, Preserves w env s f → ((switchedBack w (env.withTarget f) s).regs (.x 11)).toNat %
        16 = 0 := by
  have hreturn := w.returnBytes_mod
  have hindirect := w.indirectBytes_mod
  have hsum := w.total_eq
  have hrun : w.sizes.argBytes % 16 = 0 → ∀ f, Preserves w env s f →
      (Along (exec (env.withTarget f)) SpAligned (directCode w) s ↔
        ((switchedBack w (env.withTarget f) s).regs (.x 11)).toNat % 16 = 0) := by
    intro hargs f hf
    exact along_directCode_iff hdirect (keepSp_withTarget henv hf.sp) hsp
      (by rw [switched_withTarget hdirect]; exact htsp) hargs
  have hstored : ∀ f, Preserves w env s f → (switchedBack w (env.withTarget f) s).regs (.x 12) =
      (switched w env s).regs (.x 11) - BitVec.ofNat 64 w.sizes.indirectBytes := by
    intro f hf
    rw [savedBack_eq hdirect (keepSp_withTarget henv hf.sp), switched_withTarget hdirect]
  constructor
  · intro h
    have hargs : w.sizes.argBytes % 16 = 0 := by
      have hmod := h.atCall hdirect
      rw [atCall_sp hdirect henv, BitVec.toNat_sub, BitVec.toNat_ofNat] at hmod
      omega
    obtain ⟨prog, hprog, hruns⟩ := h
    obtain rfl := Option.some.inj (hdirect.emitAsmWrapper_eq.symm.trans hprog)
    refine ⟨hargs, ?_, fun f hf => (hrun hargs f hf).mp (hruns f hf).1⟩
    have hsame := (hruns id preserves_id).2
    rw [hstored id preserves_id, sub_eq_self] at hsame
    have hnat := congrArg BitVec.toNat hsame
    rwa [BitVec.toNat_ofNat, Nat.mod_eq_of_lt (by omega)] at hnat
  · intro ⟨hargs, hzero, hloaded⟩
    refine ⟨directCode w, hdirect.emitAsmWrapper_eq,
      fun f hf => ⟨(hrun hargs f hf).mpr (hloaded f hf), ?_⟩⟩
    rw [hstored f hf, hzero]
    exact sub_zero _

/-! ### The way back -/

/-- Room on the target's stack from `b` on, and cells apart from it and from each other. As the
stack arguments are freed before a result is copied, the gate reads up to twice its frame. -/
structure FrameOk (w : Wrapper) (env : Env) (s : State) (b : Nat) : Prop where
  room : low ((switched w env s).regs (.x 11)) = b + w.sizes.total
  scrub : scrubBytes w.args false ≤ b
  top : b + (2 * w.sizes.total + 16) ≤ 2 ^ 56
  cells : Disjoint (cell env w.callerPkey) (cell env w.targetPkey)
  stack : Disjoint (cell env w.callerPkey)
    (Ico (b - scrubBytes w.args false) (b + (2 * w.sizes.total + 16)))
  /-- What the pre-conditions leave in `x8` for a result. -/
  result : 0 < w.sizes.returnSize → low ((entered w env s).regs (.x 8)) +
    w.sizes.returnSize ≤ 2 ^ 56 ∧
    Disjoint (resultBuffer w (entered w env s)) (Ico b (b + w.sizes.total))

theorem cellAddr_mem (env : Env) (pkey : Nat) : cellAddr env pkey ∈ cell env pkey :=
  ⟨le_rfl, by omega⟩

theorem switchedBack_mod (hcells : Disjoint (cell env w.callerPkey) (cell env w.targetPkey)) :
    ((switchedBack w env s).regs (.x 11)).toNat % 16 =
      ((freed w env s).mem (cellAddr env w.callerPkey)).toNat % 16 := by
  have hout := disjoint_left.mp hcells (cellAddr_mem env w.callerPkey)
  have hbyte := ByteMemory.read_mod
    ((freed w env s).store (cellAddr env w.targetPkey) 8 (freed w env s).sp.toNat).mem
    (cellAddr env w.callerPkey) (by decide : 0 < 8)
  rw [State.store_mem, ByteMemory.write_of_notMem hout] at hbyte
  rw [(switchedBack_spec w env s).loaded, stackptr, State.toNat_load64, ← hbyte, State.store_mem]
  omega

theorem switched_mod : ((switched w env s).mem (cellAddr env w.callerPkey)).toNat % 16 =
    (entered w env s).sp.toNat % 16 := by
  have hsaved := State.load64_write (switched_spec w env s).mem
  rw [← ByteMemory.read_mod _ _ (by decide : 0 < 8), ← hsaved, State.toNat_load64]
  omega

theorem exists_ret (hret : 0 < w.sizes.returnSize) :
    ∃ size align, w.sig.ret = [indirect size align] := by
  have hslots := w.sig.ret_slots
  generalize hslots' : w.sig.ret = ret at hslots
  cases hslots with
  | memory => exact ⟨_, _, rfl⟩
  | registers h =>
    rw [returnSize_eq_zero (hslots' ▸ h)] at hret
    cases hret

theorem copies_eq_nil (h : ∀ arg ∈ w.sig.args, arg.isIndirect = false) : w.copies = [] := by
  refine List.eq_nil_iff_forall_not_mem.mpr fun p hp => ?_
  obtain ⟨hmem, hind, -⟩ := mem_indirectCopies hp
  obtain ⟨arg, hg, harg⟩ := mem_args_of_isIndirect hmem hind
  exact absurd harg (by simp [h arg (fst_mem_of_mem_paramGroups hg)])

section Back

variable {b : Nat} {f : State → State} (hdirect : IsDirect w target) (hok : FrameOk w env s b)
  (hindirect : ∀ arg ∈ w.sig.args, arg.isIndirect = false)

include hdirect in
theorem freed_withTarget (hret : 0 < w.sizes.returnSize) : (freed w (env.withTarget f) s).mem =
    (run (exec (env.withTarget f)) (copyResult w) (addressLoaded w (f (called w env s)))).mem := by
  rw [freed, (fromTarget_copies hret _).1, afterCall_withTarget hdirect]
  rfl

theorem Preserves.targetReturns (hf : Preserves w env s f) (hret : 0 < w.sizes.returnSize) :
    TargetReturns w (atCall w env s) (f (called w env s)) :=
  ⟨hf.sp _, hf.address hret⟩

include hdirect hok hindirect in
theorem Preserves.cell_eq (hf : Preserves w env s f) :
    (f (called w env s)).mem (cellAddr env w.callerPkey) =
      (switched w env s).mem (cellAddr env w.callerPkey) := by
  have hmem := cellAddr_mem env w.callerPkey
  have hwritten := @written_subset w env w.sizes.argSize (switched w env s) b
    (by rw [(switched_spec w env s).sp]; exact hok.room) (by simp [copies_eq_nil hindirect])
  have hbelow : Ico b (b + w.sizes.total) ⊆
      Ico (b - scrubBytes w.args false) (b + (2 * w.sizes.total + 16)) :=
        Ico_subset_Ico (by omega) (by omega)
  have hscrub : Ico (b - scrubBytes w.args false) b ⊆
      Ico (b - scrubBytes w.args false) (b + (2 * w.sizes.total + 16)) :=
        Ico_subset_Ico le_rfl (by omega)
  exact (hf.cell hmem).trans (atCall_eqOn hdirect hok.room hok.scrub
    (hok.stack.mono_right (hwritten.trans hbelow)) (hok.stack.mono_right hscrub) hmem)

include hdirect hok hindirect in
theorem freed_of_registers (hret : w.sizes.returnSize = 0) (hf : Preserves w env s f) :
    (freed w (env.withTarget f) s).mem (cellAddr env w.callerPkey) =
      (switched w env s).mem (cellAddr env w.callerPkey) := by
  rw [freed_mem hret, afterCall_withTarget hdirect]
  exact hf.cell_eq hdirect hok hindirect

include hdirect hok hindirect in
theorem freed_of_memory (hret : 0 < w.sizes.returnSize) (hargs : w.sizes.argBytes = 0)
    (hf : Preserves w env s f) :
    (cellAddr env w.callerPkey ∉ resultBuffer w (entered w env s) →
      (freed w (env.withTarget f) s).mem (cellAddr env w.callerPkey) =
        (switched w env s).mem (cellAddr env w.callerPkey)) ∧
    ∀ i < w.sizes.returnSize, (freed w (env.withTarget f) s).mem
      (low ((entered w env s).regs (.x 8)) + i) =
      (f (called w env s)).mem (b + w.sizes.returnStart + i) := by
  obtain ⟨size, align, hsig⟩ := exists_ret hret
  obtain ⟨hwritten, hcopied⟩ := copies_result hdirect hok.room hok.scrub hsig
    (by simp [copies_eq_nil hindirect]) (hok.result hret).1 (hok.result hret).2 hargs
    (hf.targetReturns hret) (env.withTarget f)
  rw [freed_withTarget hdirect hret]
  refine ⟨fun hout => ?_, hcopied⟩
  have hkept := @run_eqOn (env.withTarget f) (copyResult w) (fun i hi => (memcpy_plain _ i hi).2)
    (addressLoaded w (f (called w env s)))
  rw [hwritten] at hkept
  exact (hkept hout).trans (hf.cell_eq hdirect hok hindirect)

include hdirect hok in
theorem low_called_sp : low (called w env s).sp = b := low_atCall_sp hdirect hok.room hok.scrub

include hdirect hok in
theorem preserves_store {i n : Nat} (v : Nat) (hi : i + n ≤ 2 * w.sizes.total + 16)
    (hslot : 0 < w.sizes.returnSize → w.sizes.returnStart ≤ i) :
    Preserves w env s fun c => c.store (b + i) n v := by
  have hstore : ∀ {C : Set Nat}, Disjoint C (Ico (b + i) (b + i + n)) →
      EqOn ((called w env s).store (b + i) n v).mem (called w env s).mem C :=
    fun h _ hx => ByteMemory.write_of_notMem (disjoint_left.mp h hx)
  refine ⟨fun _ => rfl, hstore (hok.stack.mono_right (Ico_subset_Ico (by omega) (by omega))),
    fun hret => ?_⟩
  have hle := hslot hret
  rw [low_called_sp hdirect hok]
  exact hstore (Ico_disjoint_of_le (by omega))

theorem copyResult_first (hret : 0 < w.sizes.returnSize) (hmax : w.sizes.returnSize ≤ 2 ^ 56)
    (c : State) :
    (run (exec env) (copyResult w) (addressLoaded w c)).mem
        (low
          (c.load64
          (low (c.sp + BitVec.ofNat 64 w.sizes.argBytes +
          BitVec.ofNat 64 w.sizes.savedPtrOffset)))) =
      c.mem
        (low (c.sp + BitVec.ofNat 64 w.sizes.argBytes + BitVec.ofNat 64 w.sizes.returnStart)) := by
  have hcopy := @memcpy_first env (.x 8) .sp 9 w.sizes.returnStart (by decide) _ hret hmax
    (addressLoaded w c)
  have hx8 : (addressLoaded w c).regs (.x 8) =
      c.load64
      (low (c.sp + BitVec.ofNat 64 w.sizes.argBytes + BitVec.ofNat 64 w.sizes.savedPtrOffset)) := by
    rw [addressLoaded, State.set_regs, if_pos rfl]
  have hsp : (addressLoaded w c).regs .sp = c.sp + BitVec.ofNat 64 w.sizes.argBytes := by
    rw [addressLoaded, State.set_regs, if_neg (by simp), State.set_regs, if_pos rfl]
  rw [hx8, hsp] at hcopy
  exact hcopy

include hdirect hok in
theorem exists_misleading (hret : 0 < w.sizes.returnSize) (hargs : 0 < w.sizes.argBytes) :
    ∃ f, Preserves w env s f ∧
      ((freed w (env.withTarget f) s).mem (cellAddr env w.callerPkey)).toNat = 1 := by
  have hmod := w.argBytes_mod
  have htotal := returnStart_le_total hret
  have hstart : w.sizes.returnStart = w.sizes.argBytes + 8 := rfl
  have hoffset : w.sizes.savedPtrOffset = w.sizes.argBytes := rfl
  have htop := hok.top
  have hcell : cellAddr env w.callerPkey < 2 ^ 56 := low_lt _
  let a := b + 2 * w.sizes.argBytes
  refine ⟨fun c => c.store a 9 (cellAddr env w.callerPkey + 256 ^ 8),
    preserves_store hdirect hok _ (by omega) fun _ => by omega, ?_⟩
  rw [freed_withTarget hdirect hret]
  have hread : ((called w env s).store a 9 (cellAddr env w.callerPkey + 256 ^ 8)).mem.read a
    (8 + 1) =
      cellAddr env w.callerPkey + 256 ^ 8 := ByteMemory.read_write _ _ (by omega)
  have hsp : low ((called w env s).store a 9 (cellAddr env w.callerPkey + 256 ^ 8)).sp = b :=
    low_called_sp hdirect hok
  generalize (called w env s).store a 9 (cellAddr env w.callerPkey + 256 ^ 8) = c at hread hsp ⊢
  have hlow := ByteMemory.read_lt c.mem a 8
  rw [ByteMemory.read_add] at hread
  have hargs' : low (c.sp + BitVec.ofNat 64 w.sizes.argBytes) = b + w.sizes.argBytes := by
    rw [low_add (by omega), hsp]
  have haddr : low (c.sp + BitVec.ofNat 64 w.sizes.argBytes +
      BitVec.ofNat 64 w.sizes.savedPtrOffset) = a := by
    rw [hoffset, low_add (by omega), hargs']
    omega
  have hsource : low (c.sp + BitVec.ofNat 64 w.sizes.argBytes +
      BitVec.ofNat 64 w.sizes.returnStart) = a + 8 := by
    rw [low_add (by omega), hargs']
    omega
  have hx8 : low (c.load64 a) = cellAddr env w.callerPkey := by
    rw [low, State.toNat_load64]
    omega
  have hcopy := fun env' => @copyResult_first w env' hret (by omega) c
  simp only [haddr, hx8, hsource] at hcopy
  rw [hcopy, ← ByteMemory.read_mod _ _ (by decide : 0 < 1)]
  omega

include hdirect hok hindirect in
theorem exists_overwriting (hret : 0 < w.sizes.returnSize) (hargs : w.sizes.argBytes = 0)
    (hbuffer : cellAddr env w.callerPkey ∈ resultBuffer w (entered w env s)) :
    ∃ f, Preserves w env s f ∧
      ((freed w (env.withTarget f) s).mem (cellAddr env w.callerPkey)).toNat = 1 := by
  have htotal := returnStart_le_total hret
  obtain ⟨k, hk⟩ := Nat.exists_eq_add_of_le hbuffer.1
  have hlt := hbuffer.2
  have hf := @preserves_store w target env s b hdirect hok (w.sizes.returnStart + k) 1 1 (by omega)
    fun _ => by omega
  refine ⟨_, hf, ?_⟩
  rw [hk, (freed_of_memory hdirect hok hindirect hret hargs hf).2 k (by omega), Nat.add_assoc,
    State.store_mem, ByteMemory.write_one_apply]
  rfl

end Back

section Exact

variable {b : Nat} (hdirect : IsDirect w target) (henv : KeepSp env) (hsp : s.sp.toNat % 16 = 0)
  (htsp : ((switched w env s).regs (.x 11)).toNat % 16 = 0) (hok : FrameOk w env s b)
include hdirect henv hsp htsp hok

theorem KeepsFrame.memory (h : KeepsFrame w env s) : w.sizes.returnSize = 0 ∨
    w.sizes.argBytes = 0 ∧ cellAddr env w.callerPkey ∉ resultBuffer w (entered w env s) := by
  have htop := hok.top
  obtain ⟨-, hzero, hloaded⟩ := (keepsFrame_iff_loaded hdirect henv hsp htsp (by omega)).mp h
  have hindirect := w.indirectBytes_eq_zero.mp hzero
  have hodd : ∀ f, Preserves w env s f →
      ((freed w (env.withTarget f) s).mem (cellAddr env w.callerPkey)).toNat ≠ 1 := by
    intro f hf heq
    have hmod := hloaded f hf
    rw [@switchedBack_mod w (env.withTarget f) s hok.cells] at hmod
    rw [show cellAddr (env.withTarget f) w.callerPkey = cellAddr env w.callerPkey from rfl, heq]
      at hmod
    cases hmod
  by_contra hcontra
  have hret : 0 < w.sizes.returnSize := by omega
  rcases Nat.eq_zero_or_pos w.sizes.argBytes with hnone | hsome
  · obtain ⟨f, hf, heq⟩ := exists_overwriting hdirect hok hindirect hret hnone (by simp_all)
    exact hodd f hf heq
  · obtain ⟨f, hf, heq⟩ := exists_misleading hdirect hok hret hsome
    exact hodd f hf heq

/-- A direct gate keeps the frame discipline exactly when the stack arguments take a multiple of 16
bytes, no argument is indirect, and a result in memory comes with no stack arguments and with an
address that is not that of the caller's saved stack pointer. -/
theorem keepsFrame_iff :
    KeepsFrame w env s ↔ w.sizes.argBytes % 16 = 0 ∧ (∀ arg ∈ w.sig.args, arg.isIndirect = false) ∧
      (w.sizes.returnSize = 0 ∨
        w.sizes.argBytes = 0 ∧ cellAddr env w.callerPkey ∉ resultBuffer w (entered w env s)) := by
  have htop := hok.top
  have hloaded := @keepsFrame_iff_loaded w target env s hdirect henv hsp htsp (by omega)
  rw [w.indirectBytes_eq_zero] at hloaded
  constructor
  · intro h
    have hsizes := hloaded.mp h
    exact ⟨hsizes.1, hsizes.2.1, h.memory hdirect henv hsp htsp hok⟩
  · intro ⟨hargs, hindirect, hmemory⟩
    refine hloaded.mpr ⟨hargs, hindirect, fun f hf => ?_⟩
    have hkept : (freed w (env.withTarget f) s).mem (cellAddr env w.callerPkey) =
        (switched w env s).mem (cellAddr env w.callerPkey) := by
      rcases Nat.eq_zero_or_pos w.sizes.returnSize with hret | hret
      · exact freed_of_registers hdirect hok hindirect hret hf
      · obtain ⟨hnone, hout⟩ := hmemory.resolve_left (by omega)
        exact (freed_of_memory hdirect hok hindirect hret hnone hf).1 hout
    have hentered : (entered w env s).sp.toNat % 16 = 0 := by
      rw [entered]
      exact (runs_aligned henv (entry_aligned hdirect) hsp).2
    rw [@switchedBack_mod w (env.withTarget f) s hok.cells]
    exact (congrArg (fun v : BitVec 8 => v.toNat % 16) hkept).trans (switched_mod.trans hentered)

end Exact

end Frame

/-! ### Gates that keep the discipline, and gates that do not -/

theorem idle_keepSp : KeepSp idleEnv := fun _ _ => rfl

theorem gate_frameOk (sig : AbiSignature) {b : Nat} (hroom : 0x30000 = b + (gate sig).sizes.total)
    (hscrub : 0x28020 + scrubBytes (gate sig).args false ≤ b)
    (hsize : (gate sig).sizes.returnSize ≤ 32) :
    FrameOk (gate sig) idleEnv resultState b := by
  have hsp : resultState.sp = entryState.sp := rfl
  have hentered : (entered (gate sig) idleEnv resultState).regs (.x 8) = 0x28000#64 :=
    ((gate_framed _ hsp).regs _ (by decide)).trans rfl
  have hlow : low 0x28000#64 = 0x28000 := rfl
  refine ⟨?_, by omega, by omega, idle_cells_disjoint, ?_, fun _ => ⟨?_, ?_⟩⟩
  · rw [gate_loaded _ hsp rfl]
    exact hroom
  · rw [show cell idleEnv (gate sig).callerPkey = Ico 0x10008 0x10010 from idle_cells.1]
    exact Ico_disjoint_of_le (by omega)
  · rw [hentered, hlow]
    omega
  · rw [resultBuffer, hentered, hlow]
    exact Ico_disjoint_of_le (by omega)

theorem gate_aligned (sig : AbiSignature) :
    ((switched (gate sig) idleEnv resultState).regs (.x 11)).toNat % 16 = 0 := by
  rw [gate_loaded (s := resultState) sig rfl rfl]
  rfl

theorem keepsFrame_tenInts : KeepsFrame (gate (intsSig 10)) idleEnv resultState ∧
    KeepsFrame (gate (resultSig 1)) idleEnv resultState := by
  have hok := gate_frameOk (intsSig 10) (b := 0x2fff0) (by decide) (by decide) (by decide)
  have hok' := gate_frameOk (resultSig 1) (b := 0x2ffd0) (by decide) (by decide) (by decide)
  refine ⟨(keepsFrame_iff (gate_isDirect _) idle_keepSp (by decide) (gate_aligned _) hok).mpr
      ⟨by decide, by decide, .inl (by decide)⟩,
    (keepsFrame_iff (gate_isDirect _) idle_keepSp (by decide) (gate_aligned _) hok').mpr
      ⟨by decide, by decide, .inr ⟨by decide, ?_⟩⟩⟩
  have hentered : (entered (gate (resultSig 1)) idleEnv resultState).regs (.x 8) = 0x28000#64 :=
    ((gate_framed (s := resultState) _ rfl).regs _ (by decide)).trans rfl
  rw [resultBuffer, hentered]
  exact fun h => absurd h.1 (by decide)

/-- Gates whose code can be assembled. One for nine integers calls its target with a misaligned
stack pointer. One for an indirect argument moves the saved stack pointer of the target down at each
call. One for ten integers and a result in memory returns to a stack that its target chose. -/
theorem gates_break_frame :
    ((atCall (gate (intsSig 9)) idleEnv entryState).sp = 0x2fff8#64 ∧
      ¬ KeepsFrame (gate (intsSig 9)) idleEnv entryState) ∧
    ((switched (gate (structSig 32 8 (by decide) (by decide))) idleEnv entryState).regs (.x 11) =
      0x30000#64 ∧
      (switchedBack (gate (structSig 32 8 (by decide) (by decide))) idleEnv entryState).regs
        (.x 12) =
        0x2ffe0#64 ∧
      ¬ KeepsFrame (gate (structSig 32 8 (by decide) (by decide))) idleEnv entryState) ∧
    ¬ KeepsFrame (gate (resultSig 10)) idleEnv resultState ∧
    ∀ sig ∈ [intsSig 9, structSig 32 8 (by decide) (by decide), resultSig 10],
      (directCode (gate sig)).all Instr.encodable = true := by
  have hints : (atCall (gate (intsSig 9)) idleEnv entryState).sp = 0x2fff8#64 := by
    rw [atCall_sp (gate_isDirect _) idle_keepSp, gate_loaded _ rfl rfl]
    decide
  have hstruct :
    (switchedBack (gate (structSig 32 8 (by decide) (by decide))) idleEnv entryState).regs (.x 12) =
      0x2ffe0#64 := by
    rw [savedBack_eq (gate_isDirect _) idle_keepSp, gate_loaded _ rfl rfl]
    decide
  refine ⟨⟨hints, fun h => ?_⟩, ⟨gate_loaded _ rfl rfl, hstruct, fun h => ?_⟩, fun h => ?_, ?_⟩
  · have hmod := h.atCall (gate_isDirect _)
    rw [hints] at hmod
    revert hmod
    decide
  · have hzero := ((keepsFrame_iff_loaded (gate_isDirect _) idle_keepSp (by decide)
      (by rw [gate_loaded _ rfl rfl]; rfl) (by decide)).mp h).2.1
    revert hzero
    decide
  · have hok := gate_frameOk (resultSig 10) (b := 0x2ffc0) (by decide) (by decide) (by decide)
    have hmemory := h.memory (gate_isDirect _) idle_keepSp (by decide) (gate_aligned _) hok
    rcases hmemory with hret | hargs
    · revert hret
      decide
    · have hzero := hargs.1
      revert hzero
      decide
  · simp only [List.forall_mem_cons, List.not_mem_nil, false_implies, implies_true, and_true]
    decide

end Ia2.Arm
