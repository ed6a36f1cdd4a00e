import Ia2.Gate.Direct

/-!
# Pre- and post-conditions

What the condition functions of a target do to the call that they are attached to. A gate calls them
in the caller's compartment before and after the target; here a gate with conditions is compared
with the gate for the same target without any.
-/

namespace Ia2.Gate

open X86 Rewriter StraightLine Set

def unconditional (target : TargetInfo) :
    TargetInfo := { target with preConditions := 0, postConditions := 0 }

structure SameArgs (w : Wrapper) (c c₀ : State) : Prop where
  regs : ∀ loc ∈ w.args, loc.isStack = false → ∀ r, loc.reg = some r → r.value c = r.value c₀
  stack : ∀ i < w.sizes.argBytes, c.mem (c.rsp.toNat + i) = c₀.mem (c₀.rsp.toNat + i)

def SameResult (c c₀ : State) : Prop := ∀ r ∈ returnRegs, r.value c = r.value c₀

/-- A gate entered in state `s` calls its target as the gate without conditions does, and returns
the same values when the target does, whatever its functions do. -/
def Transparent (w : Wrapper) (target : TargetInfo) (env : Env) (s : State) : Prop :=
  ∀ function, Obeys w target (calling env function) s →
    ∃ prog prog₀ c c₀, w.emitAsmWrapper = some prog ∧
    (withTarget w (unconditional target)).emitAsmWrapper = some prog₀ ∧
      firstAt (exec (calling env function)) (fun i => i == .call .target) prog s = some c ∧
      firstAt (exec (calling env function)) (fun i => i == .call .target) prog₀ s = some c₀ ∧
      SameArgs w c c₀ ∧
      (SameResult (function .target (c.push env.retAddr)) (function .target (c₀.push env.retAddr)) →
        SameResult (run (exec (calling env function)) prog s)
        (run (exec (calling env function)) prog₀ s))

section

variable {w : Wrapper} {target : TargetInfo} {env : Env} {s : State} {x : BitVec 64}

/-! ### Gates that are transparent -/

theorem Obeys.unconditional (h : Obeys w target env s) :
    Obeys (withTarget w (unconditional target)) (unconditional target) env s := by
  refine ⟨fun callee hcalls => ?_, fun c hc => ?_⟩
  · cases callee with
    | preCondition i => exact absurd hcalls (Nat.not_lt_zero i)
    | postCondition i => exact absurd hcalls (Nat.not_lt_zero i)
    | typeRegistry fn => exact h.helpers (.typeRegistry fn) hcalls
    | target => cases hcalls
    | scrubRegisters => cases hcalls
  · obtain ⟨hrsp, hstable⟩ := h.target c hc
    have hdepth := (entryDepth_le target).1
    have hplain : entryDepth (Gate.unconditional target) = savedBytes := rfl
    refine ⟨hrsp, hstable.mono
      (union_subset_union_left _ (union_subset_union_left _ (Ico_subset_Ico ?_ le_rfl)))⟩
    omega

variable {keep : Set Nat} {i : Instr} {c c' : State} {r : ArgReg}

theorem same_of_gateRun {target₀ : TargetInfo} {keep₀ : Set Nat} (hok : GateOk w env s)
    (hpost : target.postConditions = 0) (hpost₀ : target₀.postConditions = 0)
    (hrun : GateRun w target env keep s)
    (hrun₀ : GateRun (withTarget w target₀) target₀ env keep₀ s)
    (hstack : ∀ loc ∈ w.args, loc.isStack = true) (hret : w.sizes.returnSize = 0) :
    SameArgs w (atCall w env s) (atCall (withTarget w target₀) env s) ∧
      (SameResult (afterCall w env s) (afterCall (withTarget w target₀) env s) →
        SameResult (gateEnd w env s) (gateEnd (withTarget w target₀) env s)) := by
  refine ⟨⟨fun loc hloc hreg => ?_, fun i hi => ?_⟩, fun hsame r hr => ?_⟩
  · rw [hstack loc hloc] at hreg
    cases hreg
  · rw [hrun.stackArgs hok hpost hi, hrun₀.stackArgs (hok.withTarget target₀) hpost₀ hi]
  · have hvalue := hrun.returnRegs hpost hr
    have hvalue₀ := hrun₀.returnRegs hpost₀ hr
    have hnone : ¬ (0 < w.sizes.returnSize ∧ r = .gpr .rax) := fun h => by omega
    rw [if_neg hnone] at hvalue
    rw [if_neg (show ¬ (0 < (withTarget w target₀).sizes.returnSize ∧ r = .gpr .rax) from hnone)]
      at hvalue₀
    rw [hvalue, hsame r hr]
    exact hvalue₀.symm

theorem returnSize_of_stack (h : ∀ loc ∈ w.args, loc.isStack = true) : w.sizes.returnSize = 0 := by
  by_contra hret
  obtain ⟨locs, hargs⟩ := @params_of_returnSize w.sig.abi (Nat.pos_of_ne_zero hret)
  have hrdi := h ((ArgLocation.register .integral 8).allocateReg (some (.gpr .rdi)))
    (by rw [Wrapper.args, hargs]; simp)
  cases hrdi

theorem transparent_of (htarget : w.target = some target) (hkind : w.kind ≠ .indirectCallsite)
    (hsig : w.wrapperSig = none) (hok : GateOk w env s) (hbuffer : BufferOk w env s (s.regs .rdi))
    (hpost : target.postConditions = 0)
    (h : target.preConditions = 0 ∨ ∀ loc ∈ w.args, loc.isStack = true) :
    Transparent w target env s := by
  intro function hobeys
  have hok' := hok.calling function
  have hobeys₀ := hobeys.unconditional
  have hrdi₀ := (hobeys₀.entryState rfl (hok'.withTarget _)).ints rfl .rdi (by decide)
  have hrun₀ := hobeys₀.gateRun rfl hkind (hok'.withTarget _)
    (by rw [hrdi₀]; exact (hbuffer.calling function).withTarget _)
  have hfirst₀ := hrun₀.firstAt_call rfl
  rcases h with hpre | hstack
  · -- the gate has no conditions
    have hsame : withTarget w (unconditional target) = w := by
      have hnone : unconditional target = target := by
        cases target
        cases hpre
        cases hpost
        rfl
      rw [hnone, withTarget, ← htarget]
    rw [hsame] at hfirst₀ ⊢
    exact ⟨_, _, _, _, emitAsmWrapper_eq hsig, emitAsmWrapper_eq hsig, hfirst₀, hfirst₀,
      ⟨fun _ _ _ _ _ => rfl, fun _ _ => rfl⟩,
      fun _ _ _ => rfl⟩
  · have hret := returnSize_of_stack hstack
    have hrun := hobeys.gateRun htarget hkind hok' (.of_returnSize hret _)
    obtain ⟨hargs, hresult⟩ := same_of_gateRun hok' hpost rfl hrun hrun₀ hstack hret
    rw [afterCall_eq htarget, afterCall_eq (w := withTarget w _) rfl, ← run_gateCode,
      ← run_gateCode] at hresult
    exact ⟨_, _, _, _, emitAsmWrapper_eq hsig, emitAsmWrapper_eq hsig, hrun.firstAt_call htarget,
      hfirst₀, hargs, hresult⟩

/-! ### Gates that are not -/

def isCondition : Callee → Bool
  | .preCondition _ | .postCondition _ => true
  | _ => false

def callsCondition : Instr → Bool
  | .call callee => isCondition callee
  | _ => false

theorem exec_calling_eq {function function' : Callee → State → State}
    (h : ∀ callee, isCondition callee = false → function callee = function' callee) {i : Instr}
    (hi : callsCondition i = false) :
    exec (calling env function) i = exec (calling env function') i := by
  funext t
  cases i
  case call callee =>
    cases callee
    case scrubRegisters => rfl
    all_goals exact congrFun (h (_ : Callee) (by exact hi)) _
  all_goals rfl

theorem callsCondition_of_isCall (h : i.isCall = false) : callsCondition i = false := by
  cases i
  case call callee =>
    cases callee
    case scrubRegisters => rfl
    all_goals cases h
  all_goals rfl

theorem callsCondition_of_all {prog : List Instr}
    (h : (prog.all fun i => !callsCondition i) = true) :
    ∀ i ∈ prog, callsCondition i = false := fun i hi => by
  simpa using List.all_eq_true.mp h i hi

theorem emitTypeRegistryChecks_callsCondition (target : TargetInfo) (api : List TypeInfo) :
    ∀ i ∈ emitTypeRegistryChecks target api, callsCondition i = false := by
  rw [emitTypeRegistryChecks]
  dsimp only
  split
  · simp
  simp only [List.forall_mem_append]
  refine ⟨⟨⟨⟨callsCondition_of_all rfl, callsCondition_of_all rfl⟩, fun i hi => ?_⟩,
    callsCondition_of_all rfl⟩, callsCondition_of_all rfl⟩
  obtain ⟨check, -, hcheck⟩ := List.mem_flatMap.mp hi
  exact @callsCondition_of_all [.load .q _ .rsp .rdi, .movqImm _ .rsi, .call (.typeRegistry _)]
    rfl i hcheck

theorem isCall_of_all {prog : List Instr} (h : (prog.all fun i => !i.isCall) = true) :
    ∀ i ∈ prog, i.isCall = false := fun i hi => by
  simpa using List.all_eq_true.mp h i hi

theorem isCall_of_isLocal (h : i.isLocal = true) : i.isCall = false :=
  (Instr.isPlain_iff.mp (Instr.isPlain_of_isLocal h)).1

theorem emitToTarget_isCall (w : Wrapper) {copyArgs : List Instr}
    (hcopy : ∀ i ∈ copyArgs, i.isCall = false) :
    ∀ i ∈ w.emitToTarget copyArgs, i.isCall = false := by
  simp only [Wrapper.emitToTarget, List.forall_mem_append]
  refine ⟨⟨⟨⟨⟨?_, isCall_of_all rfl⟩, isCall_of_all rfl⟩, hcopy⟩, ?_⟩, isCall_of_all rfl⟩
  · cases w.debug <;> exact isCall_of_all rfl
  · exact fun i hi => isCall_of_isLocal (emitScrubRegs_isLocal _ _ _ i hi)

theorem directArgs_isCall (w : Wrapper) : ∀ i ∈ directArgs w, i.isCall = false := by
  simp only [directArgs, List.forall_mem_append]
  constructor
  · exact fun i hi => isCall_of_isLocal (emitReturnSpace_isLocal _ i hi)
  · exact fun i hi => (Instr.isPlain_iff.mp (emitCopyStackArgs_isPlain _ _ _ i hi)).1

theorem emitToCaller_isCall (w : Wrapper) : ∀ i ∈ w.emitToCaller, i.isCall = false := by
  simp only [Wrapper.emitToCaller, List.forall_mem_append]
  refine ⟨⟨⟨⟨⟨isCall_of_all rfl, ?_⟩, ?_⟩, isCall_of_all rfl⟩, ?_⟩, isCall_of_all rfl⟩
  · exact fun i hi => isCall_of_isLocal (emitFreeStackSpace_isLocal _ i hi)
  · exact fun i hi => isCall_of_isLocal (emitCopyStackReturns_isLocal _ i hi)
  · exact fun i hi => isCall_of_isLocal (emitScrubRegs_isLocal _ _ _ i hi)

theorem gateCode_unconditional (w : Wrapper) (target : TargetInfo) :
    ∀ i ∈ gateCode (withTarget w (unconditional target)), callsCondition i = false := by
  simp only [gateCode, List.forall_mem_append, List.forall_mem_singleton]
  refine ⟨⟨⟨⟨?_, fun i hi => ?_⟩, rfl⟩, fun i hi => ?_⟩, callsCondition_of_all rfl⟩
  · simp only [Wrapper.emitEntry, List.forall_mem_append]
    exact ⟨callsCondition_of_all rfl, emitTypeRegistryChecks_callsCondition _ _,
      callsCondition_of_all rfl⟩
  · exact callsCondition_of_isCall (emitToTarget_isCall _ (directArgs_isCall _) i hi)
  · exact callsCondition_of_isCall (emitToCaller_isCall _ i hi)

theorem Transparent.agree (h : Transparent w target env s) (hsig : w.wrapperSig = none)
    {f f' : Callee → State → State} (hf : Obeys w target (calling env f) s)
    (hf' : Obeys w target (calling env f') s)
    (hsame : ∀ callee, isCondition callee = false → f callee = f' callee)
    (hresult : ∀ c c₀, SameResult (f .target c) (f .target c₀)) :
    ∃ c c', firstAt (exec (calling env f)) (fun i => i == .call .target) (gateCode w) s = some c ∧
      firstAt (exec (calling env f')) (fun i => i == .call .target) (gateCode w) s = some c' ∧
        SameArgs w c c' ∧
      SameResult (run (exec (calling env f)) (gateCode w) s)
        (run (exec (calling env f')) (gateCode w) s) := by
  have hcode := fun i hi => @exec_calling_eq env f f' hsame i (gateCode_unconditional w target i hi)
  obtain ⟨prog, prog₀, c, c₀, hprog, hprog₀, hc, hc₀, hargs, hreturn⟩ := h f hf
  obtain ⟨prog', prog₀', c', c₀', hprog', hprog₀', hc', hc₀', hargs', hreturn'⟩ := h f' hf'
  obtain rfl := Option.some.inj ((emitAsmWrapper_eq hsig).symm.trans hprog)
  obtain rfl := Option.some.inj ((emitAsmWrapper_eq hsig).symm.trans hprog')
  obtain rfl := Option.some.inj ((emitAsmWrapper_eq (w := withTarget w _) hsig).symm.trans hprog₀)
  obtain rfl := Option.some.inj ((emitAsmWrapper_eq (w := withTarget w _) hsig).symm.trans hprog₀')
  rw [← firstAt_congr hcode, hc₀, Option.some.injEq] at hc₀'
  subst hc₀'
  refine ⟨c, c', hc, hc', ⟨fun loc hloc hreg r hr => ?_, fun i hi => ?_⟩, fun r hr => ?_⟩
  · exact (hargs.regs loc hloc hreg r hr).trans (hargs'.regs loc hloc hreg r hr).symm
  · exact (hargs.stack i hi).trans (hargs'.stack i hi).symm
  · have hend := hreturn (hresult _ _) r hr
    have hend' := hreturn' (by rw [← hsame .target rfl]; exact hresult _ _) r hr
    rw [run_congr hcode s] at hend
    exact hend.trans hend'.symm

def returning (c : State) : State := c.set .rsp (c.rsp + 8#64)

def putReg (v : Nat) (c : State) : ArgReg → State
  | .gpr r => c.set r (BitVec.ofNat 64 v)
  | .xmm i => c.setXmm i (BitVec.ofNat 128 v)

def meddling (r : ArgReg) (v : Nat) (result : BitVec 64) : Callee → State → State
  | .preCondition _, c => putReg v (returning c) r
  | .postCondition _, c => (returning c).set .rax result
  | .target, c => { ((returning c).set .rax 0).set .rdx 0 with xmm := fun _ => 0 }
  | _, c => returning c

theorem returning_sysv (keep : Set Nat) (c : State) : Sysv keep c (returning c) := by
  have hkeeps : Keeps [.rsp] c (returning c) := ⟨(keeps_set c .rsp _).regs, rfl⟩
  exact ⟨rfl, .of_mem_eq hkeeps (by decide) rfl rfl⟩

theorem Sysv.set (h : Sysv keep c c') {r : Reg} (hr : r ∉ .rsp :: calleeSaved) (v : BitVec 64) :
    Sysv keep c (c'.set r v) := by
  obtain ⟨hrsp, hsaved⟩ := not_or.mp (mt List.mem_cons.mpr hr)
  refine ⟨(if_neg (Ne.symm hrsp)).trans h.rsp, ⟨fun r' hr' => ?_, h.stable.pkru, h.stable.mem⟩⟩
  refine (if_neg ?_).trans (h.stable.regs r' hr')
  rintro rfl
  exact hsaved hr'

theorem putReg_sysv (hr : r ∈ paramRegs) (v : Nat) (h : Sysv keep c c') :
    Sysv keep c (putReg v c' r) := by
  cases r with
  | gpr r => exact h.set (fun hsaved => by revert hr; revert r; decide) _
  | xmm i => exact ⟨h.rsp, ⟨h.stable.regs, h.stable.pkru, h.stable.mem⟩⟩

theorem meddling_obeys (hr : r ∈ paramRegs) (v : Nat) (result : BitVec 64) :
    Obeys w target (calling env (meddling r v result)) s := by
  refine ⟨fun callee hcalls c _ => ?_, fun c _ => ?_⟩
  · cases callee with
    | target => cases hcalls
    | preCondition i => exact putReg_sysv hr v (returning_sysv _ c)
    | postCondition i => exact (returning_sysv _ c).set (by decide) result
    | _ => exact returning_sysv _ c
  · obtain ⟨hrsp, hregs, hpkru, hmem⟩ :=
      ((returning_sysv (gateBytes w target env s) c).set (r := .rax) (by decide) 0).set
      (r := .rdx) (by decide) 0
    exact ⟨hrsp, hregs, hpkru, hmem⟩

theorem Transparent.meddling_agree (h : Transparent w target env s) (hsig : w.wrapperSig = none)
    (hr : r ∈ paramRegs) (v v' : Nat) (result result' : BitVec 64) :
    ∃ c c', firstAt (exec (calling env (meddling r v result))) (fun i => i == .call .target)
      (gateCode w) s = some c ∧
      firstAt (exec (calling env (meddling r v' result'))) (fun i => i == .call .target)
        (gateCode w) s = some c' ∧
      SameArgs w c c' ∧
      SameResult (run (exec (calling env (meddling r v result))) (gateCode w) s)
        (run (exec (calling env (meddling r v' result'))) (gateCode w) s) := by
  refine h.agree hsig (meddling_obeys hr v result) (meddling_obeys hr v' result')
    (fun callee hcallee => ?_) fun c c₀ r hr => ?_
  · cases callee with
    | preCondition i => cases hcallee
    | postCondition i => cases hcallee
    | _ => rfl
  · revert r
    simp only [returnRegs, List.forall_mem_cons, List.not_mem_nil, false_imp_iff,
      implies_true, and_true]
    exact ⟨rfl, rfl, rfl, rfl⟩

theorem gateEnd_rax {k : Nat} (htarget : w.target = some target)
    (hpost : target.postConditions = k + 1) :
    ∃ c, (gateEnd w env s).regs .rax = (env.function (.postCondition k) c).regs .rax := by
  rw [gateEnd, Wrapper.emitExit, htarget]
  dsimp only
  rw [emitPostConditions, hpost, List.range_succ, List.flatMap_append, List.flatMap_singleton]
  simp only [run_append]
  exact ⟨_, rfl⟩

theorem meddling_entered (htarget : w.target = some target) (hpre : 0 < target.preConditions)
    (r : ArgReg) (v : Nat) (result : BitVec 64) :
    ∃ c, entered w (calling env (meddling r v result)) s = putReg v c r := by
  obtain ⟨prog, hprog⟩ := emitEntry_preCondition htarget (Nat.succ_pred_eq_of_pos hpre).symm
  rw [entered, hprog, run_append]
  exact ⟨_, rfl⟩

theorem Transparent.postConditions (h : Transparent w target env s)
    (htarget : w.target = some target) (hsig : w.wrapperSig = none) :
    target.postConditions = 0 := by
  by_contra hpost
  obtain ⟨k, hk⟩ := Nat.exists_eq_succ_of_ne_zero hpost
  have hrax : ∀ result, (run (exec (calling env (meddling (.gpr .rdi) 0 result))) (gateCode w)
    s).regs .rax = result := fun result => by
    obtain ⟨c, hc⟩ := @gateEnd_rax w target (calling env (meddling (.gpr .rdi) 0 result)) s
      k htarget hk
    rw [run_gateCode, hc]
    rfl
  obtain ⟨-, -, -, -, -, hresult⟩ := h.meddling_agree hsig (r := .gpr .rdi) (by decide) 0 0 0 1
  have hvalue := hresult (.gpr .rax) (by decide)
  simp only [ArgReg.value, hrax] at hvalue
  cases hvalue

section

variable (h : Transparent w target env s) (htarget : w.target = some target)
  (hkind : w.kind ≠ .indirectCallsite) (hsig : w.wrapperSig = none) (hok : GateOk w env s)

include h htarget hkind hsig hok

theorem Transparent.returnSize (hbuffer : BufferOk w env s (s.regs .rdi))
    (hstray : BufferOk w env s x) (hx : x ≠ s.regs .rdi) (hpre : 0 < target.preConditions) :
    w.sizes.returnSize = 0 := by
  by_contra hret
  have hret : 0 < w.sizes.returnSize := Nat.pos_of_ne_zero hret
  have hpost := h.postConditions htarget hsig
  have hrax : ∀ b, BufferOk w env s b →
      (run (exec (calling env (meddling (.gpr .rdi) b.toNat 0))) (gateCode w) s).regs .rax = b :=
        fun b hb => by
    obtain ⟨c, hc⟩ := @meddling_entered w target env s htarget hpre (.gpr .rdi) b.toNat 0
    have hrdi : (entered w (calling env (meddling (.gpr .rdi) b.toNat 0)) s).regs .rdi = b := by
      rw [hc]
      exact (BitVec.ofNat_toNat 64 b).trans (BitVec.setWidth_eq b)
    have hrun := (meddling_obeys (r := .gpr .rdi) (by decide) b.toNat 0).gateRun htarget hkind
      (hok.calling _)
      (by rw [hrdi]; exact hb.calling _)
    obtain ⟨loc, hloc, hreg⟩ := @rax_mem_returns w.sig.abi hret
    have hsaved : .gpr .rax ∈ savedRegs w.rets false :=
      mem_savedRegs.mpr (.inl ⟨loc, hloc, (mem_returnRegs hloc).1, hreg⟩)
    have hvalue := hrun.returnRegs hpost (r := .gpr .rax) (by decide)
    rw [if_pos (Or.inr hsaved), if_pos ⟨hret, rfl⟩, hrdi, ← run_gateCode] at hvalue
    exact BitVec.eq_of_toNat_eq hvalue
  obtain ⟨-, -, -, -, -, hresult⟩ :=
    h.meddling_agree hsig (r := .gpr .rdi) (by decide) x.toNat (s.regs .rdi).toNat 0 0
  have hvalue := hresult (.gpr .rax) (by decide)
  simp only [ArgReg.value, hrax x hstray, hrax _ hbuffer] at hvalue
  exact hx (BitVec.eq_of_toNat_eq hvalue)

theorem Transparent.isStack (hret : w.sizes.returnSize = 0) (hpre : 0 < target.preConditions) :
    ∀ loc ∈ w.args, loc.isStack = true := by
  intro loc hloc
  by_contra hstack
  rw [Bool.not_eq_true] at hstack
  obtain ⟨r, hr, hreg⟩ := (placed_of_mem_params hloc).resolve_left (by simp [hstack])
  have hsaved : r ∈ savedRegs w.args false := mem_savedRegs.mpr (.inl ⟨loc, hloc, hstack, hreg⟩)
  have hcall : ∀ v < 2, ∃ c, firstAt (exec (calling env (meddling r v 0)))
    (fun i => i == .call .target) (gateCode w) s = some c ∧
      r.value c = v := fun v hv => by
    have hrun := (meddling_obeys hr v 0).gateRun htarget hkind (hok.calling _)
      (.of_returnSize hret _)
    refine ⟨_, hrun.firstAt_call htarget, ?_⟩
    have hvalue := hrun.call.regArgs r hsaved
    rw [crossing_w, if_neg fun hrdi => by omega] at hvalue
    obtain ⟨c, hc⟩ := @meddling_entered w target env s htarget hpre r v 0
    rw [hvalue, hc]
    cases r with
    | gpr r => simp only [ArgReg.value, putReg, State.set_regs, if_pos, BitVec.toNat_ofNat]; omega
    | xmm i => simp only [ArgReg.value, putReg, State.setXmm_xmm, if_pos, BitVec.toNat_ofNat]; omega
  obtain ⟨c, c', hc, hc', hargs, -⟩ := h.meddling_agree hsig hr 0 1 0 0
  obtain ⟨c₀, hc₀, hzero⟩ := hcall 0 (by decide)
  obtain ⟨c₁, hc₁, hone⟩ := hcall 1 (by decide)
  obtain rfl := Option.some.inj (hc.symm.trans hc₀)
  obtain rfl := Option.some.inj (hc'.symm.trans hc₁)
  have hvalue := hargs.regs loc hloc hstack r hreg
  omega

end

/-- A gate is transparent exactly when its target has no post-conditions, and no pre-conditions
either unless all arguments are on the stack. -/
theorem transparent_iff (htarget : w.target = some target) (hkind : w.kind ≠ .indirectCallsite)
    (hsig : w.wrapperSig = none) (hok : GateOk w env s) (hbuffer : BufferOk w env s (s.regs .rdi))
    (hstray : BufferOk w env s x) (hx : x ≠ s.regs .rdi) :
    Transparent w target env s ↔
      target.postConditions = 0 ∧ (target.preConditions = 0 ∨ ∀ loc ∈ w.args,
        loc.isStack = true) := by
  refine ⟨fun h => ⟨h.postConditions htarget hsig, ?_⟩,
    fun h => transparent_of htarget hkind hsig hok hbuffer h.1 h.2⟩
  rcases Nat.eq_zero_or_pos target.preConditions with hpre | hpre
  · exact .inl hpre
  · exact .inr (h.isStack htarget hkind hsig hok
      (h.returnSize htarget hkind hsig hok hbuffer hstray hx hpre) hpre)

end

theorem transparent_iff_struct : Obeys stackGate { preConditions := 1 } structEnv structEntry ∧
    Transparent stackGate { preConditions := 1 } structEnv structEntry :=
  ⟨structEnv_obeys _ _ _,
    (transparent_iff (x := 0x40000) rfl (by decide) rfl stackGate_ok (.of_returnSize rfl _)
      (.of_returnSize rfl _) (by decide)).mpr ⟨rfl, .inr (by decide)⟩⟩

theorem struct_conditions_not_transparent :
    ¬ Transparent (withTarget structGate { postConditions := 1 }) { postConditions := 1 } structEnv
      structEntry ∧
      ¬ Transparent (withTarget structGate { preConditions := 1 }) { preConditions := 1 } structEnv
      structEntry := by
  refine ⟨fun h => absurd (h.postConditions rfl rfl) (by decide), fun h => ?_⟩
  have hbuffer : ∀ b : BitVec 64, 0x20028 ≤ b.toNat →
    (b.toNat + 40 ≤ 0x2ffa8 ∨ 0x30008 ≤ b.toNat ∧ b.toNat + 40 < 2 ^ 64) →
      BufferOk (withTarget structGate { preConditions := 1 }) structEnv structEntry b :=
        fun b hlo hhi =>
    (structGate_buffer hlo hhi).withTarget _
  exact absurd (h.returnSize (x := 0x40000) rfl (by decide) rfl (structGate_ok.withTarget _)
    (hbuffer _ (by decide) (by decide))
    (hbuffer _ (by decide) (by decide)) (by decide) (by decide)) (by decide)

end Ia2.Gate
