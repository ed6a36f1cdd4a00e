import Ia2.Gate.Conditions
import Ia2.Gate.Moves

/-!
# The stack pointer at helper calls

The System V ABI wants the stack pointer at a multiple of sixteen at every call. Before and after
the switch of stacks a gate moves the stack pointer by amounts that its code fixes, and the
functions it calls there give the stack pointer back, so whether their calls are aligned can be read
off the code: `AlignedFrom` follows the stack pointer modulo sixteen. The checks of types and the
post-conditions are called behind an alignment slot; the pre-conditions are not.
-/

namespace Ia2.Gate

open X86 StraightLine Rewriter Set

def callsHelper : Instr → Bool
  | .call callee => isHelper callee
  | _ => false

def AlignedStep (i : Instr) (t : State) : Prop := callsHelper i = true → 16 ∣ t.rsp.toNat

theorem callsHelper_of_isCall {i : Instr} (h : i.isCall = false) : callsHelper i = false := by
  cases i
  case call callee =>
    cases callee
    case scrubRegisters => rfl
    all_goals cases h
  all_goals rfl

/-! ### Following the stack pointer -/

def shift : Instr → Nat
  | .pushq _ | .popq _ | .ret => 8
  | .subq n .rsp => 16 - n % 16
  | .addq n .rsp => n
  | _ => 0

def isSteady : Instr → Bool
  | .pushq _ | .ret => true
  | .popq r | .movq _ r | .movqImm _ r | .load _ _ _ r => r != .rsp
  | .subq _ r | .addq _ r => r == .rsp
  | .call callee => isHelper callee
  | _ => false

def shifts (prog : List Instr) : Nat := (prog.map shift).sum

def AlignedFrom : Nat → List Instr → Prop
  | _, [] => True
  | r, i :: prog => (callsHelper i = true → r % 16 = 0) ∧ AlignedFrom (r + shift i) prog

variable {prog : List Instr} {r : Nat} {A : Type} {f : A → List Instr} {xs : List A}

theorem alignedFrom_append {prog' : List Instr} :
    AlignedFrom r (prog ++ prog') ↔ AlignedFrom r prog ∧ AlignedFrom (r + shifts prog) prog' := by
  induction prog generalizing r with
  | nil => simp [AlignedFrom, shifts]
  | cons i prog ih =>
    have hsum : r + shifts (i :: prog) = r + shift i + shifts prog := by
      simp [shifts, Nat.add_assoc]
    rw [List.cons_append, AlignedFrom, AlignedFrom, ih, hsum, and_assoc]

theorem alignedFrom_congr {r' : Nat} (h : r % 16 = r' % 16) :
    AlignedFrom r prog ↔ AlignedFrom r' prog := by
  induction prog generalizing r r' with
  | nil => exact Iff.rfl
  | cons i prog ih =>
    have hnext : (r + shift i) % 16 = (r' + shift i) % 16 := by omega
    rw [AlignedFrom, AlignedFrom, h, ih hnext]

theorem alignedFrom_of_none (h : ∀ i ∈ prog, callsHelper i = false) :
    AlignedFrom r prog := by
  induction prog generalizing r with
  | nil => trivial
  | cons i prog ih =>
    rw [List.forall_mem_cons] at h
    exact ⟨fun hi => absurd (h.1.symm.trans hi) Bool.false_ne_true, ih h.2⟩

theorem alignedFrom_flatMap (h : ∀ x ∈ xs, AlignedFrom r (f x) ∧ shifts (f x) % 16 = 0) :
    AlignedFrom r (xs.flatMap f) := by
  induction xs with
  | nil => trivial
  | cons x xs ih =>
    rw [List.forall_mem_cons] at h
    rw [List.flatMap_cons, alignedFrom_append]
    have hback : (r + shifts (f x)) % 16 = r % 16 := by omega
    exact ⟨h.1.1, (alignedFrom_congr hback).mpr (ih h.2)⟩

theorem toNat_sub_mod (x : BitVec 64) (n : Nat) :
    (x - BitVec.ofNat 64 n).toNat % 16 = (x.toNat + (16 - n % 16)) % 16 := by
  rw [BitVec.toNat_sub, BitVec.toNat_ofNat]
  omega

theorem toNat_add_mod (x : BitVec 64) (n : Nat) :
    (x + BitVec.ofNat 64 n).toNat % 16 = (x.toNat + n) % 16 := by
  rw [BitVec.toNat_add, BitVec.toNat_ofNat]
  omega

theorem rsp_set {r : Reg} (hr : (r != .rsp) = true) (s : State) (v : BitVec 64) :
    (s.set r v).rsp = s.rsp :=
  if_neg fun h => bne_iff_ne.mp hr h.symm

section

variable {env : Env} {lo hi top : Nat} {keep : Set Nat} {prog : List Instr} {s : State}

theorem exec_shift {i : Instr} (hi : isSteady i = true)
    (hcall : callsHelper i = true → (exec env i s).rsp = s.rsp) :
    (exec env i s).rsp.toNat % 16 = (s.rsp.toNat + shift i) % 16 := by
  cases i
  case pushq r => exact toNat_sub_mod s.rsp 8
  case popq r =>
    have hrsp : (exec env (.popq r) s).rsp = s.rsp + 8#64 := rsp_set hi _ _
    rw [hrsp]
    exact toNat_add_mod s.rsp 8
  case movq src r => exact congrArg (·.toNat % 16) (rsp_set hi s _)
  case movqImm imm r => exact congrArg (·.toNat % 16) (rsp_set hi s _)
  case load width offset base r => exact congrArg (·.toNat % 16) (rsp_set hi s _)
  case subq n r =>
    cases beq_iff_eq.mp hi
    exact toNat_sub_mod s.rsp n
  case addq n r =>
    cases beq_iff_eq.mp hi
    exact toNat_add_mod s.rsp n
  case call callee => exact congrArg (·.toNat % 16) (hcall hi)
  case ret => exact toNat_add_mod s.rsp 8
  all_goals cases hi

theorem exec_helper_rsp {callee : Callee} (hcallee : isHelper callee = true)
    (hfn : SysvFn lo hi top keep (env.function callee))
    (hrange : (s.rsp - 8#64).toNat ∈ Ico lo hi) : (exec env (.call callee) s).rsp = s.rsp := by
  have hcall : exec env (.call callee) s = env.function callee (s.push env.retAddr) := by
    cases callee
    case scrubRegisters => cases hcallee
    all_goals rfl
  have hpush : (s.push env.retAddr).rsp = s.rsp - 8#64 := rfl
  rw [hcall, (hfn (s.push env.retAddr) (hpush ▸ hrange)).rsp, hpush, BitVec.sub_add_cancel]

def InRange (lo hi : Nat) (i : Instr) (t : State) :
    Prop := callsHelper i = true → (t.rsp - 8#64).toNat ∈ Ico lo hi

theorem along_aligned_iff (hfn : ∀ callee, .call callee ∈ prog →
    SysvFn lo hi top keep (env.function callee)) (hsteady : ∀ i ∈ prog, isSteady i = true)
    (hrange : Along (exec env) (InRange lo hi) prog s) :
    Along (exec env) AlignedStep prog s ↔ AlignedFrom s.rsp.toNat prog := by
  induction prog generalizing s with
  | nil => exact Iff.rfl
  | cons i prog ih =>
    rw [List.forall_mem_cons] at hsteady
    have hcall : callsHelper i = true → (exec env i s).rsp = s.rsp := by
      intro hhelper
      cases i
      case call callee =>
        exact exec_helper_rsp hhelper (hfn callee List.mem_cons_self) (hrange.1 hhelper)
      all_goals cases hhelper
    have hnext := exec_shift hsteady.1 hcall
    refine and_congr ?_
      ((ih (fun callee h => hfn callee (List.mem_cons_of_mem _ h)) hsteady.2 hrange.2).trans
      (alignedFrom_congr hnext))
    exact imp_congr_right fun _ => Nat.dvd_iff_mod_eq_zero

end

/-! ### The code of a gate -/

theorem shifts_append (prog prog' : List Instr) :
    shifts (prog ++ prog') = shifts prog + shifts prog' := by
  simp [shifts]

theorem shifts_flatMap_mod (h : ∀ x ∈ xs, shifts (f x) % 16 = 0) :
    shifts (xs.flatMap f) % 16 = 0 := by
  induction xs with
  | nil => rfl
  | cons x xs ih =>
    rw [List.forall_mem_cons] at h
    rw [List.flatMap_cons, shifts_append, Nat.add_mod, h.1, ih h.2]

theorem shifts_restoreArgs (pop : Bool) : shifts (emitRestoreArgs pop) % 16 = 0 := by
  cases pop <;> rfl

theorem alignedFrom_restoreArgs (r : Nat) (pop : Bool) : AlignedFrom r (emitRestoreArgs pop) := by
  refine alignedFrom_of_none fun i hi => callsHelper_of_isCall ?_
  revert hi i
  cases pop <;> exact isCall_of_all rfl

theorem alignedFrom_registryCall (hr : r % 16 = 0) (fn : RegistryFn) (i id : Nat) :
    AlignedFrom r (registryCall fn i id) := by
  simp [registryCall, AlignedFrom, callsHelper, shift, hr]

theorem alignedFrom_typeRegistryChecks (hr : r % 16 = 8) (target : TargetInfo)
    (api : List TypeInfo) :
    AlignedFrom r (emitTypeRegistryChecks target api) ∧
      shifts (emitTypeRegistryChecks target api) % 16 = 0 := by
  cases hchecks : (registryChecks target api).2.isEmpty with
  | true =>
    rw [emitTypeRegistryChecks_nil (List.isEmpty_iff.mp hchecks)]
    exact ⟨trivial, rfl⟩
  | false =>
    have hopen : shifts (emitSaveArgs ++ emitAlignStack8To16) = 56 := rfl
    rw [emitTypeRegistryChecks_eq hchecks]
    constructor
    · rw [alignedFrom_append, alignedFrom_append, alignedFrom_append]
      refine ⟨⟨⟨?_, alignedFrom_flatMap fun check _ => ⟨?_, rfl⟩⟩, ?_⟩, alignedFrom_restoreArgs _ _⟩
      · exact alignedFrom_of_none fun i hi => callsHelper_of_isCall (isCall_of_all rfl i hi)
      · exact alignedFrom_registryCall (by omega) _ _ _
      · exact alignedFrom_of_none fun i hi => callsHelper_of_isCall (isCall_of_all rfl i hi)
    · have hcalls : shifts ((registryChecks target api).2.flatMap fun check =>
          registryCall (registryChecks target api).1 check.1 check.2.id) % 16 = 0 :=
            shifts_flatMap_mod fun _ _ => rfl
      have hrevert : shifts emitRevertAlignStack8To16 = 8 := rfl
      have hrestore := shifts_restoreArgs true
      rw [shifts_append, shifts_append, shifts_append]
      omega

theorem alignedFrom_preConditions (hr : r % 16 = 8) (target : TargetInfo) :
    AlignedFrom r (emitPreConditions target) ↔ target.preConditions = 0 := by
  have hsave : AlignedFrom r (if 1 < target.preConditions ∨ target.postConditions ≠ 0
      then emitSaveArgs else []) := by
    split
    · exact alignedFrom_of_none fun i hi => callsHelper_of_isCall (isCall_of_all rfl i hi)
    · trivial
  have hstart :
      (r + shifts (if 1 < target.preConditions ∨ target.postConditions ≠ 0 then emitSaveArgs
      else [])) % 16 = 8 := by
    have hsum : shifts emitSaveArgs = 48 := rfl
    have hnone : shifts [] = 0 := rfl
    split <;> omega
  rw [emitPreConditions, alignedFrom_append, and_iff_right hsave]
  cases hpre : target.preConditions with
  | zero => exact iff_of_true trivial rfl
  | succ k =>
    refine iff_of_false (fun h => ?_) (Nat.succ_ne_zero k)
    rw [hpre] at hstart
    rw [List.range_succ_eq_map, List.flatMap_cons] at h
    have hcall := h.1 rfl
    omega

theorem alignedFrom_postConditions (hr : r % 16 = 8) (target : TargetInfo) :
    AlignedFrom r (emitPostConditions target) := by
  refine alignedFrom_flatMap fun i _ => ?_
  have hrestore := shifts_restoreArgs (decide (i = target.postConditions - 1))
  have halign : shifts emitAlignStack8To16 = 8 := rfl
  have hcall : shifts [.call (.postCondition i)] = 0 := rfl
  have hrevert : shifts emitRevertAlignStack8To16 = 8 := rfl
  constructor
  · rw [alignedFrom_append, alignedFrom_append, alignedFrom_append]
    refine ⟨⟨⟨alignedFrom_restoreArgs _ _, ?_⟩, fun _ => ?_, trivial⟩, ?_⟩
    · exact alignedFrom_of_none fun j hj => callsHelper_of_isCall (isCall_of_all rfl j hj)
    · rw [shifts_append]
      omega
    · exact alignedFrom_of_none fun j hj => callsHelper_of_isCall (isCall_of_all rfl j hj)
  · simp only [shifts_append]
    omega

/-! ### The calls of a gate -/

structure Steady (w : Wrapper) (target : TargetInfo) (i : Instr) : Prop where
  steady : isSteady i = true
  call : ∀ callee, i = .call callee → calls w target callee

section

variable {w : Wrapper} {target : TargetInfo}

theorem steady_of_all (h : (prog.all fun i => isSteady i && !i.isCall) = true) :
    ∀ i ∈ prog, Steady w target i := by
  intro i hi
  have hboth := List.all_eq_true.mp h i hi
  rw [Bool.and_eq_true, Bool.not_eq_true'] at hboth
  refine ⟨hboth.1, ?_⟩
  rintro callee rfl
  have hcall := isCall_of_isHelper hboth.1
  exact absurd (hboth.2.symm.trans hcall) Bool.false_ne_true

theorem steady_call {callee : Callee} (hhelper : isHelper callee = true)
    (hcalls : calls w target callee) :
    Steady w target (.call callee) :=
  ⟨hhelper, fun _ heq => Instr.call.inj heq ▸ hcalls⟩

theorem steady_restoreArgs (pop : Bool) : ∀ i ∈ emitRestoreArgs pop, Steady w target i := by
  cases pop <;> exact steady_of_all rfl

theorem steady_typeRegistryChecks :
    ∀ i ∈ emitTypeRegistryChecks target w.sig.api, Steady w target i := by
  cases hchecks : (registryChecks target w.sig.api).2.isEmpty with
  | true =>
    rw [emitTypeRegistryChecks_nil (List.isEmpty_iff.mp hchecks)]
    exact fun i hi => nomatch hi
  | false =>
    have hcalls : ∀ fn, calls w target (.typeRegistry fn) := fun _ hnil => by simp [hnil] at hchecks
    rw [emitTypeRegistryChecks_eq hchecks]
    simp only [List.forall_mem_append, List.forall_mem_flatMap]
    refine ⟨⟨⟨⟨steady_of_all rfl, steady_of_all rfl⟩, fun check _ => ?_⟩, steady_of_all rfl⟩,
      steady_restoreArgs true⟩
    simp only [registryCall, List.forall_mem_cons]
    refine ⟨?_, ?_, steady_call rfl (hcalls _), fun i hi => nomatch hi⟩
    · exact ⟨rfl, fun _ heq => nomatch heq⟩
    · exact ⟨rfl, fun _ heq => nomatch heq⟩

theorem steady_preConditions : ∀ i ∈ emitPreConditions target, Steady w target i := by
  simp only [emitPreConditions, List.forall_mem_append, List.forall_mem_flatMap,
    List.forall_mem_singleton, List.mem_range]
  refine ⟨?_, fun k hk => ⟨?_, steady_call rfl hk⟩⟩
  · split
    · exact steady_of_all rfl
    · exact List.forall_mem_nil _
  · split
    · exact steady_restoreArgs _
    · exact List.forall_mem_nil _

theorem steady_postConditions : ∀ i ∈ emitPostConditions target, Steady w target i := by
  simp only [emitPostConditions, List.forall_mem_append, List.forall_mem_flatMap,
    List.forall_mem_singleton, List.mem_range]
  exact fun k hk => ⟨⟨⟨steady_restoreArgs _, steady_of_all rfl⟩, steady_call rfl hk⟩,
    steady_of_all rfl⟩

theorem steady_entry (htarget : w.target = some target) : ∀ i ∈ w.emitEntry, Steady w target i := by
  rw [Wrapper.emitEntry, htarget]
  simp only [List.forall_mem_append]
  exact ⟨steady_of_all rfl, steady_typeRegistryChecks, steady_preConditions⟩

theorem steady_exit (htarget : w.target = some target) : ∀ i ∈ w.emitExit, Steady w target i := by
  rw [Wrapper.emitExit, htarget]
  simp only [List.forall_mem_append]
  exact ⟨⟨steady_postConditions, steady_of_all rfl⟩, steady_of_all rfl⟩

theorem alignedFrom_entry (htarget : w.target = some target) (hr : r % 16 = 8) :
    AlignedFrom r w.emitEntry ↔ target.preConditions = 0 := by
  have hprologue : shifts emitPrologue = 48 := rfl
  have hafter : (r + shifts emitPrologue) % 16 = 8 := by omega
  obtain ⟨hregistry, hback⟩ := alignedFrom_typeRegistryChecks hafter target w.sig.api
  rw [Wrapper.emitEntry, htarget, alignedFrom_append, alignedFrom_append, and_iff_right,
    and_iff_right hregistry]
  · exact alignedFrom_preConditions (by omega) target
  · exact alignedFrom_of_none fun i hi => callsHelper_of_isCall (isCall_of_all rfl i hi)

theorem alignedFrom_exit (htarget : w.target = some target) (hr : r % 16 = 8) :
    AlignedFrom r w.emitExit := by
  rw [Wrapper.emitExit, htarget, alignedFrom_append, alignedFrom_append]
  refine ⟨⟨alignedFrom_postConditions hr target, ?_⟩, ?_⟩
  · exact alignedFrom_of_none fun i hi => callsHelper_of_isCall (isCall_of_all rfl i hi)
  · exact alignedFrom_of_none fun i hi => callsHelper_of_isCall (isCall_of_all rfl i hi)

end

/-! ### The wrapper -/

/-- Every call that the wrapper makes to a condition function or to the type registry has an aligned
stack pointer. -/
def HelperCallsAligned (w : Wrapper) (env : Env) (s : State) : Prop :=
  ∀ code, w.emitAsmWrapper = some code → Along (exec env) AlignedStep code s

/-- A wrapper for a named target, entered with its stacks in place; the functions that it calls obey
the calling convention. -/
structure EnteredOk (w : Wrapper) (target : TargetInfo) (env : Env) (s : State) : Prop where
  kind : w.kind ≠ .indirectCallsite
  wrapperSig : w.wrapperSig = none
  room : GateOk w env s
  functions : Obeys w target env s
  buffer : BufferOk w env s ((entered w env s).regs .rdi)

section

variable {w : Wrapper} {target : TargetInfo} {env : Env} {s : State}

theorem along_of_none (h : ∀ i ∈ prog, callsHelper i = false) :
    Along (exec env) AlignedStep prog s :=
  along_of_forall (fun i hi _ hhelper => absurd ((h i hi).symm.trans hhelper) Bool.false_ne_true) s

variable {s₁ t : State}

theorem GateStep.inRange {i : Instr} (h : GateStep w env s s₁ i t) :
    InRange (s.rsp.toNat - frameDepth) s.rsp.toNat i t := by
  intro hhelper
  cases h with
  | caller hstep =>
    cases i
    case call callee =>
      have hpush := hstep.conf ⟨(t.rsp - 8#64).toNat, 8, true⟩ (List.mem_singleton.mpr rfl)
      exact hpush ⟨Nat.le_refl _, Nat.lt_add_of_pos_right (Nat.succ_pos 7)⟩
    all_goals cases hhelper
  | cross hstep =>
    exact absurd ((callsHelper_of_isCall hstep.noCall).symm.trans hhelper) Bool.false_ne_true
  | call heq =>
    cases heq
    cases hhelper

theorem along_part (hobeys : Obeys w target env s) (hsteady : ∀ i ∈ prog, Steady w target i)
    (hsteps : Along (exec env) (GateStep w env s s₁) prog t) :
    Along (exec env) AlignedStep prog t ↔ AlignedFrom t.rsp.toNat prog :=
  along_aligned_iff (fun callee hcall => hobeys.helpers callee ((hsteady _ hcall).call callee rfl))
    (fun i hi => (hsteady i hi).steady) (hsteps.mono fun _ _ _ hstep => hstep.inRange)

theorem entryDepth_mod (target : TargetInfo) : entryDepth target % 16 = 0 := by
  unfold entryDepth
  split <;> rfl

theorem gateCode_aligned_iff (htarget : w.target = some target) (h : EnteredOk w target env s)
    (hrsp : s.rsp.toNat % 16 = 8) :
    Along (exec env) AlignedStep (gateCode w) s ↔ target.preConditions = 0 := by
  have hrun := h.functions.gateRun htarget h.kind h.room h.buffer
  obtain ⟨hentry, -, -, -, hexit⟩ := (along_gateCode w env s).mp hrun.steps
  -- the stack pointer at the start of the exit code is the one at the end of the entry code
  have hreturned : (returned w env s).rsp.toNat % 16 = 8 := by
    have hback : (returned w env s).rsp = (entered w env s).rsp := hrun.back.rsp
    have hroom := h.room.callerRoom
    have hdepth := entryDepth_le target
    have hmod := entryDepth_mod target
    rw [hback, hrun.entry.rsp]
    omega
  have hto : Along (exec env) AlignedStep (w.emitToTarget (directArgs w)) (entered w env s) :=
    along_of_none fun i hi =>
    callsHelper_of_isCall (emitToTarget_isCall w (directArgs_isCall w) i hi)
  have hcall : AlignedStep w.emitFnCall (atCall w env s) := by
    rw [emitFnCall_eq htarget]
    exact fun hhelper => Bool.noConfusion hhelper
  have hfrom : Along (exec env) AlignedStep w.emitToCaller (afterCall w env s) :=
    along_of_none fun i hi =>
    callsHelper_of_isCall (emitToCaller_isCall w i hi)
  have hend : Along (exec env) AlignedStep w.emitExit (returned w env s) :=
    (along_part h.functions (steady_exit htarget) hexit).mpr (alignedFrom_exit htarget hreturned)
  rw [along_gateCode, ← alignedFrom_entry htarget hrsp,
    ← along_part h.functions (steady_entry htarget) hentry]
  exact and_iff_left ⟨hto, hcall, hfrom, hend⟩

variable {args : List ArgLocation} {sizes : StackSizes}

theorem copyWrapperArgs_isCall {wrapperArgs : List ArgLocation} {moves : List Instr}
    (h : copyWrapperArgs sizes wrapperArgs args = some moves) :
    ∀ i ∈ moves, i.isCall = false := by
  unfold copyWrapperArgs at h
  dsimp only at h
  split at h
  · cases h
  split at h
  · cases h
  obtain ⟨rest, hrest, heq⟩ := Option.bind_eq_some_iff.mp h
  cases heq
  refine List.forall_mem_cons.mpr ⟨isCall_moveReg _ _, fun i hi => ?_⟩
  obtain ⟨r, -, ⟨src, rfl⟩ | ⟨offset, rfl⟩⟩ := moveArgs_instr hrest i hi
  · exact isCall_moveReg _ _
  · cases r <;> rfl

theorem emitCopyArgs_isCall {wrapper : Option (List ArgLocation × Nat)} {pkey : Nat}
    {copyArgs : List Instr} (h : emitCopyArgs sizes args wrapper pkey = some copyArgs) :
    ∀ i ∈ copyArgs, i.isCall = false := by
  have hspace : ∀ i ∈ emitReturnSpace sizes, i.isCall = false :=
    fun i hi => isCall_of_isLocal (emitReturnSpace_isLocal _ i hi)
  have hstack (size : Nat) : ∀ i ∈ emitCopyStackArgs sizes size pkey,
      i.isCall = false := fun i hi =>
    (Instr.isPlain_iff.mp (emitCopyStackArgs_isPlain _ _ _ i hi)).1
  cases wrapper with
  | none =>
    cases h
    exact List.forall_mem_append.mpr ⟨hspace, hstack _⟩
  | some wrapper =>
    obtain ⟨moves, hmoves, heq⟩ := Option.bind_eq_some_iff.mp h
    cases heq
    exact List.forall_mem_append.mpr ⟨List.forall_mem_append.mpr ⟨hspace, hstack _⟩,
      copyWrapperArgs_isCall hmoves⟩

theorem anonymous_callsHelper (htarget : w.target = none) {code : List Instr}
    (hcode : w.emitAsmWrapper = some code) :
    ∀ i ∈ code, callsHelper i = false := by
  obtain ⟨copyArgs, hcopy, heq⟩ := Option.bind_eq_some_iff.mp hcode
  cases heq
  simp only [List.forall_mem_append, List.forall_mem_singleton]
  refine ⟨⟨⟨⟨?_, ?_⟩, ?_⟩, ?_⟩, ?_⟩
  · rw [Wrapper.emitEntry, htarget]
    exact fun i hi => callsHelper_of_isCall (isCall_of_all rfl i hi)
  · exact fun i hi => callsHelper_of_isCall (emitToTarget_isCall w (emitCopyArgs_isCall hcopy) i hi)
  · rw [Wrapper.emitFnCall, htarget]
    rfl
  · exact fun i hi => callsHelper_of_isCall (emitToCaller_isCall w i hi)
  · rw [Wrapper.emitExit, htarget]
    exact fun i hi => callsHelper_of_isCall (isCall_of_all rfl i hi)

/-- The helper calls of a wrapper that is entered like any function are aligned exactly if the
target has no pre-conditions. -/
theorem helperCalls_aligned_iff
    (hgate : ∀ target, w.target = some target → EnteredOk w target env s)
    (hrsp : s.rsp.toNat % 16 = 8) :
    HelperCallsAligned w env s ↔ ∀ target, w.target = some target → target.preConditions = 0 := by
  cases htarget : w.target with
  | none =>
    refine iff_of_true (fun code hcode => along_of_none (anonymous_callsHelper htarget hcode))
      fun target h => nomatch h
  | some target =>
    have hok := hgate target htarget
    have hcode := emitAsmWrapper_eq hok.wrapperSig
    have hiff := gateCode_aligned_iff htarget hok hrsp
    constructor
    · rintro h _ ⟨⟩
      exact hiff.mp (h _ hcode)
    · intro h code heq
      cases hcode.symm.trans heq
      exact hiff.mpr (h target rfl)

end

/-! ### Gates with a condition -/

/-- A gate with one condition function after the call. -/
def postGate : Wrapper := withTarget structGate { postConditions := 1 }

theorem helperCalls_aligned_iff_post :
    structEntry.rsp.toNat % 16 = 8 ∧ HelperCallsAligned postGate structEnv structEntry := by
  have hok : GateOk postGate structEnv structEntry := structGate_ok.withTarget _
  have hentered : ∀ target, postGate.target = some target →
      EnteredOk postGate target structEnv structEntry := by
    rintro _ ⟨⟩
    have hrdi : (entered postGate structEnv structEntry).regs .rdi = structEntry.regs .rdi :=
      ((structEnv_obeys postGate { postConditions := 1 } structEntry).entryState rfl hok).ints rfl
        .rdi (by decide)
    refine ⟨by decide, rfl, hok, (structEnv_obeys postGate { postConditions := 1 } structEntry), ?_⟩
    rw [hrdi]
    exact (structGate_buffer (by decide) (by decide)).withTarget _
  refine ⟨by decide, (helperCalls_aligned_iff hentered (by decide)).mpr ?_⟩
  rintro _ ⟨⟩
  rfl

/-- A gate with one condition function before the call. -/
def preGate : Wrapper := withTarget structGate { preConditions := 1 }

/-- The pre-condition is called with the stack pointer eight bytes off. -/
theorem preGate_not_aligned :
    structEntry.rsp.toNat % 16 = 8 ∧ ¬ HelperCallsAligned preGate structEnv structEntry := by
  refine ⟨by decide, fun h => ?_⟩
  have hcode := h (gateCode preGate) (emitAsmWrapper_eq rfl)
  have hentry : Along (exec structEnv) AlignedStep (emitPrologue ++ [.call (.preCondition 0)])
      structEntry :=
    ((along_gateCode preGate structEnv structEntry).mp hcode).1
  have hcall := ((along_append structEntry).mp hentry).2.1 rfl
  exact absurd hcall (by decide)

end Ia2.Gate
