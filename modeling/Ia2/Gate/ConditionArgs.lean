import Ia2.Gate.Conditions

/-!
# What condition functions find in the argument registers

A gate saves the six integer argument registers when more than one condition function will want
them, takes them back before each further call and keeps them on the caller's stack across the
crossing for the post-conditions. How often they are pushed and popped depends on both numbers of
conditions, and at the epilogue the stack pointer has to be where the prologue left it.

The saved registers are safe from the functions that the gate calls, as long as those obey the
calling convention. They are not safe from the gate: after a pre-condition `rdi` holds whatever that
function left there, and a gate with a result in memory takes it for the address of the result.
-/

namespace Ia2.Gate

open X86 Rewriter StraightLine Set

def SeesArgs (s : State) (i : Instr) (t : State) : Prop :=
  callsCondition i = true → ∀ r ∈ intParamRegOrder, t.regs r = s.regs r

/-- Every condition sees the arguments of the wrapper, and the epilogue starts with the stack
pointer that the prologue ended with. -/
def Served (w : Wrapper) (env : Env) (s : State) : Prop :=
  ∃ body, w.emitAsmWrapper = some (emitPrologue ++ body ++ (emitEpilogue ++ [.ret])) ∧
    Along (exec env) (SeesArgs s) (emitPrologue ++ body ++ (emitEpilogue ++ [.ret])) s ∧
    (run (exec env) (emitPrologue ++ body) s).rsp = (run (exec env) emitPrologue s).rsp

def bodyCode (w : Wrapper) (target : TargetInfo) : List Instr :=
  emitTypeRegistryChecks target w.sig.api ++ emitPreConditions target ++
    w.emitToTarget (directArgs w) ++ [w.emitFnCall] ++
    w.emitToCaller ++ emitPostConditions target

section

variable {w : Wrapper} {target : TargetInfo} {env : Env} {s : State}

theorem gateCode_eq (htarget : w.target = some target) :
    gateCode w = emitPrologue ++ bodyCode w target ++ (emitEpilogue ++ [.ret]) := by
  rw [gateCode, emitEntry_eq htarget, Wrapper.emitExit, htarget]
  simp only [bodyCode, List.append_assoc]

theorem run_bodyCode (htarget : w.target = some target) :
    run (exec env) (emitPrologue ++ bodyCode w target) s =
      run (exec env) (emitPostConditions target) (returned w env s) := by
  have hcode : emitPrologue ++ bodyCode w target =
      (w.emitEntry ++ w.emitToTarget (directArgs w) ++ [w.emitFnCall] ++ w.emitToCaller) ++
      emitPostConditions target := by
    simp only [bodyCode, emitEntry_eq htarget, List.append_assoc]
  rw [hcode, run_append, run_returned]

/-! ### The conditions see the arguments -/

variable {prog : List Instr} {k p top : Nat} {keep : Set Nat} {t : State}

theorem along_seesArgs (h : ∀ i ∈ prog, callsCondition i = false) (t : State) :
    Along (exec env) (SeesArgs s) prog t :=
  along_of_forall (fun i hi _ hcondition => absurd ((h i hi).symm.trans hcondition)
    Bool.false_ne_true) t

theorem emitRestoreArgs_callsCondition (pop : Bool) :
    ∀ i ∈ emitRestoreArgs pop, callsCondition i = false := by
  cases pop
  · exact callsCondition_of_all rfl
  · exact callsCondition_of_all rfl

theorem restoreArgs_regs (pop : Bool) {v : Reg → BitVec 64} {p : Nat}
    (hrsp : s.rsp.toNat + argsBytes = p) (hp : p < 2 ^ 64)
    (hsaved : SavedBelow s.mem v p intParamRegOrder) :
    ∀ r ∈ intParamRegOrder, (run (exec env) (emitRestoreArgs pop) s).regs r = v r := by
  have hruns := @runs_restoreArgs env s.pkru 0 0 p s pop v p hrsp hp (Nat.zero_le _)
    le_rfl hsaved rfl
  exact hruns.2.2.1

theorem along_preCondition (hroom : argsBytes ≤ p) (hp : p < 2 ^ 64) (hk : k < target.preConditions)
    (h : PreState target top keep p s k t) :
    Along (exec env) (SeesArgs s)
      ((if 0 < k then emitRestoreArgs (decide (target.postConditions = 0) &&
        decide (k = target.preConditions - 1)) else []) ++
        [.call (.preCondition k)]) t := by
  by_cases hfirst : 0 < k
  · have hheld : Held target k := ⟨by omega, by omega⟩
    have hrsp := h.rsp
    rw [if_pos hheld] at hrsp
    rw [if_pos hfirst, along_append]
    exact ⟨along_seesArgs (emitRestoreArgs_callsCondition _) t,
      fun _ => restoreArgs_regs _ (by omega) hp (h.saved hheld), trivial⟩
  · have hne : ∀ r ∈ intParamRegOrder, r ∉ [Reg.rsp] := by decide
    have hkeep := h.first (by omega)
    rw [if_neg hfirst]
    exact ⟨fun _ r hr => hkeep.regs r (hne r hr), trivial⟩

theorem Obeys.runs_entry_args (h : Obeys w target env s) (htarget : w.target = some target)
    (hok : GateOk w env s) :
    Runs (exec env) (SeesArgs s) w.emitEntry s fun s' =>
      0 < target.postConditions → SavedBelow s'.mem s.regs (s.rsp.toNat - savedBytes)
        intParamRegOrder := by
  have hdepth := frameDepth_eq
  have hend := argsEnd_eq w s
  have hroom := hok.callerRoom
  have hmax := hok.callerTop
  have hdisj := cell_disjoint_entryArea hok
  rw [emitEntry_eq htarget]
  have hchecked := @runs_checked env s.pkru (s.rsp.toNat - frameDepth) s.rsp.toNat (argsEnd w s)
    (cell env w.targetPkey) s (by omega) (by omega) hdisj rfl w target h.helpers (by omega) le_rfl
  have hnone : ∀ i ∈ emitPrologue ++ emitTypeRegistryChecks target w.sig.api,
      callsCondition i = false :=
    List.forall_mem_append.mpr ⟨callsCondition_of_all rfl,
      emitTypeRegistryChecks_callsCondition _ _⟩
  refine Runs.append ⟨along_seesArgs hnone s, hchecked.2⟩ fun s₂ h₂ => ?_
  have hrsp₂ := h₂.rsp
  have hsave := @runs_preSave env s₂.pkru (s.rsp.toNat - frameDepth) s.rsp.toNat (argsEnd w s)
    (cell env w.targetPkey) s₂ hdisj rfl target (by omega) (by omega)
  have hpre : Runs (exec env) (SeesArgs s₂) (emitPreConditions target) s₂
      (PreState target (argsEnd w s) (cell env w.targetPkey) s₂.rsp.toNat s₂
          target.preConditions) := by
    refine runs_preConditions_of ⟨along_seesArgs ?_ s₂, hsave.2⟩ fun k hk t ht =>
      ⟨along_preCondition (by omega) s₂.rsp.isLt hk ht, ?_⟩
    · split
      · exact callsCondition_of_all rfl
      · exact List.forall_mem_nil _
    · exact (runs_preCondition (by omega) (by omega) hdisj rfl (h.helpers (.preCondition k) hk)
        (by omega) (by omega) hk ht).2
  refine hpre.mono (fun i t _ hsees hcondition r hr => ?_) fun s₃ h₃ hpost => ?_
  · rw [hsees hcondition r hr, h₂.ints r hr]
  · have hsaved := h₃.saved ⟨.inr (by omega), fun hzero => by omega⟩
    rw [hrsp₂] at hsaved
    exact hsaved.congr_values h₂.ints

theorem along_postCondition {s' : State} (hroom : argsBytes ≤ p) (hp : p < 2 ^ 64)
    (hk : k < target.postConditions) (h : PostState target top keep p s.regs s' k t) :
    Along (exec env) (SeesArgs s)
      (emitRestoreArgs (decide (k = target.postConditions - 1)) ++ emitAlignStack8To16 ++
        [.call (.postCondition k)] ++ emitRevertAlignStack8To16) t := by
  have hrsp := h.rsp
  rw [if_pos hk] at hrsp
  have hne : ∀ r ∈ intParamRegOrder, r ∉ [Reg.rsp] := by decide
  have hregs := @restoreArgs_regs env t (decide (k = target.postConditions - 1)) s.regs p (by omega)
    hp (h.saved hk)
  have hnone := emitRestoreArgs_callsCondition (decide (k = target.postConditions - 1))
  simp only [along_append, run_append]
  refine ⟨⟨⟨along_seesArgs hnone t, along_seesArgs (callsCondition_of_all rfl) _⟩, fun _ r hr => ?_,
    trivial⟩, along_seesArgs (callsCondition_of_all rfl) _⟩
  rw [← hregs r hr]
  exact (keeps_set _ .rsp _).regs r (hne r hr)

theorem Obeys.returned_args (h : Obeys w target env s) (htarget : w.target = some target)
    (hok : GateOk w env s) (hbuffer : BufferOk w env s ((entered w env s).regs .rdi))
    (hrun : GateRun w target env (cell env w.targetPkey) s) (hpost : 0 < target.postConditions) :
    SavedBelow (returned w env s).mem s.regs (s.rsp.toNat - savedBytes) intParamRegOrder := by
  have hbytes : argsBytes = 8 * intParamRegOrder.length := rfl
  have hdepth : entryDepth target = savedBytes + argsBytes := by rw [entryDepth, if_neg (by omega)]
  have hle := entryDepth_le target
  have hroom := hok.callerRoom
  have hkept := (afterCall_facts hok hrun.call (h.target.balanced htarget hok hrun.call)).2.2
  have hframe := frame_kept hok (crossing_ok hok hbuffer hrun.entry.rsp) hrun.entry.rsp hrun.call
    hkept hrun.back
  exact ((h.runs_entry_args htarget hok).2 hpost).congr (by omega)
    (hframe.mono (Ico_subset_Ico (by omega) (by omega)))

theorem Obeys.served (h : Obeys w target env s) (htarget : w.target = some target)
    (hkind : w.kind ≠ .indirectCallsite) (hsig : w.wrapperSig = none) (hok : GateOk w env s)
    (hbuffer : BufferOk w env s ((entered w env s).regs .rdi)) : Served w env s := by
  have hdepth := frameDepth_eq
  have hend := argsEnd_eq w s
  have hroom := hok.callerRoom
  have hmax := hok.callerTop
  have hle := entryDepth_le target
  have hdisj := cell_disjoint_entryArea hok
  have hrun := h.gateRun htarget hkind hok hbuffer
  have hrsp : (returned w env s).rsp.toNat = if 0 < target.postConditions
      then s.rsp.toNat - savedBytes - argsBytes else s.rsp.toNat - savedBytes := by
    have hback : (returned w env s).rsp = (entered w env s).rsp := hrun.back.rsp
    rw [hback, hrun.entry.rsp, entryDepth]
    split <;> split <;> omega
  have hpost : Runs (exec env) (SeesArgs s) (emitPostConditions target) (returned w env s)
      (PostState target (argsEnd w s) (cell env w.targetPkey) (s.rsp.toNat - savedBytes) s.regs
          (returned w env s) target.postConditions) := by
    refine runs_postConditions_of hrsp (h.returned_args htarget hok hbuffer hrun) fun k hk t ht =>
      ⟨along_postCondition (by omega) (by omega) hk ht, ?_⟩
    exact (runs_postCondition (by omega) (by omega) hdisj rfl (h.helpers (.postCondition k) hk)
      (by omega) (by omega) hk ht).2
  refine ⟨bodyCode w target, by rw [← gateCode_eq htarget]; exact emitAsmWrapper_eq hsig, ?_, ?_⟩
  · rw [← gateCode_eq htarget, along_gateCode, Wrapper.emitExit, htarget, List.append_assoc,
      along_append]
    refine ⟨(h.runs_entry_args htarget hok).1, ?_, ?_, ?_, hpost.1,
      along_seesArgs (callsCondition_of_all rfl) _⟩
    · exact along_seesArgs (fun i hi => callsCondition_of_isCall
        (emitToTarget_isCall w (directArgs_isCall w) i hi)) _
    · rw [emitFnCall_eq htarget]
      exact fun hcondition => absurd hcondition Bool.false_ne_true
    · exact along_seesArgs (fun i hi => callsCondition_of_isCall (emitToCaller_isCall w i hi)) _
  · have hprologue := (@runs_prologue env s.pkru (s.rsp.toNat - frameDepth) s.rsp.toNat s.rsp.toNat
      s (by omega) le_rfl rfl).2.1.1
    have hepilogue := hpost.2.rsp
    rw [if_neg (lt_irrefl _)] at hepilogue
    rw [run_bodyCode htarget]
    exact BitVec.eq_of_toNat_eq (hepilogue.trans hprologue.symm)

/-! ### What happens to the stack pointer -/

def rspShift : Instr → BitVec 64
  | .pushq _ => -8#64
  | .popq _ => 8#64
  | .subq n .rsp => -BitVec.ofNat 64 n
  | .addq n .rsp => BitVec.ofNat 64 n
  | _ => 0#64

def isTracked : Instr → Bool
  | .pushq _ | .movdquLoad _ | .movdquStore _ | .wrpkru | .call _ => true
  | .popq r | .movq _ r | .movlImm _ r | .xorl r => r != .rsp
  | .subq _ r | .addq _ r => r == .rsp
  | _ => false

def rspShifts : List Instr → BitVec 64
  | [] => 0#64
  | i :: prog => rspShift i + rspShifts prog

theorem rspShifts_append (prog prog' : List Instr) :
    rspShifts (prog ++ prog') = rspShifts prog + rspShifts prog' := by
  induction prog with
  | nil => exact (BitVec.zero_add _).symm
  | cons i prog ih => rw [List.cons_append, rspShifts, rspShifts, ih, BitVec.add_assoc]

theorem rspShifts_flatMap {A : Type} {f : A → List Instr} {xs : List A}
    (h : ∀ x ∈ xs, rspShifts (f x) = 0#64) : rspShifts (xs.flatMap f) = 0#64 := by
  induction xs with
  | nil => rfl
  | cons x xs ih =>
    rw [List.forall_mem_cons] at h
    rw [List.flatMap_cons, rspShifts_append, h.1, ih h.2, BitVec.add_zero]

def Returning (env : Env) : Prop := ∀ callee c, (env.function callee c).rsp = c.rsp + 8#64

theorem Returning.exec_call (h : Returning env) (callee : Callee) :
    (exec env (.call callee) s).rsp = s.rsp := by
  have hback : s.rsp - 8#64 + 8#64 = s.rsp := BitVec.sub_add_cancel _ _
  cases callee
  case scrubRegisters => exact hback
  all_goals exact (h _ _).trans hback

theorem Returning.exec_rsp (h : Returning env) {i : Instr} (hi : isTracked i = true) :
    (exec env i s).rsp = s.rsp + rspShift i := by
  have hset : ∀ (t : State) {r : Reg} (v : BitVec 64), (r != .rsp) = true →
      (t.set r v).rsp = t.rsp := by
    intro t r v hr
    exact if_neg fun heq => bne_iff_ne.mp hr heq.symm
  cases i
  case pushq r => exact BitVec.sub_eq_add_neg _ _
  case popq r => exact hset _ _ hi
  case movq src r => exact (hset s _ hi).trans (BitVec.add_zero _).symm
  case movlImm imm r => exact (hset s _ hi).trans (BitVec.add_zero _).symm
  case xorl r => exact (hset s _ hi).trans (BitVec.add_zero _).symm
  case subq n r =>
    cases beq_iff_eq.mp hi
    exact BitVec.sub_eq_add_neg _ _
  case addq n r =>
    cases beq_iff_eq.mp hi
    rfl
  case call callee => exact (h.exec_call callee).trans (BitVec.add_zero _).symm
  case movdquLoad r => exact (BitVec.add_zero _).symm
  case movdquStore r => exact (BitVec.add_zero _).symm
  case wrpkru => exact (BitVec.add_zero _).symm
  all_goals cases hi

theorem Returning.run_rsp (h : Returning env) (hprog : ∀ i ∈ prog, isTracked i = true) (s : State) :
    (run (exec env) prog s).rsp = s.rsp + rspShifts prog := by
  induction prog generalizing s with
  | nil => exact (BitVec.add_zero _).symm
  | cons i prog ih =>
    rw [List.forall_mem_cons] at hprog
    rw [run, ih hprog.2, h.exec_rsp hprog.1, rspShifts, BitVec.add_assoc]

theorem isTracked_of_all (h : prog.all isTracked = true) :
    ∀ i ∈ prog, isTracked i = true := List.all_eq_true.mp h

theorem rspShifts_saving {rs : List ArgReg} (hrs : .gpr .rsp ∉ rs) :
    rspShifts (saving rs [.call .scrubRegisters]) = 0#64 ∧ ∀ i ∈ saving rs [.call .scrubRegisters],
      isTracked i = true := by
  induction rs with
  | nil => exact ⟨rfl, isTracked_of_all rfl⟩
  | cons r rs ih =>
    rw [List.mem_cons, not_or] at hrs
    obtain ⟨hshift, htracked⟩ := ih hrs.2
    rw [saving_cons, rspShifts_append, rspShifts_append, hshift, List.forall_mem_append,
      List.forall_mem_append]
    cases r with
    | gpr r =>
      have hr : (r != .rsp) = true := bne_iff_ne.mpr fun heq => hrs.1 (by rw [heq])
      refine ⟨?_, isTracked_of_all rfl, htracked, List.forall_mem_singleton.mpr hr⟩
      change -8#64 + 0#64 + (0#64 + (8#64 + 0#64)) = 0#64
      decide
    | xmm i =>
      refine ⟨?_, isTracked_of_all rfl, htracked, isTracked_of_all rfl⟩
      change -16#64 + (0#64 + 0#64) + (0#64 + (0#64 + (16#64 + 0#64))) = 0#64
      decide

theorem Returning.scrub_rsp (h : Returning env) (w : Wrapper) (t : State) :
    (run (exec env) (emitScrubRegs w.targetPkey w.rets false ++ emitSetReturnPkru w.callerPkey)
      t).rsp = t.rsp := by
  have hrsp : .gpr .rsp ∉ savedRegs w.rets false :=
    fun hmem => absurd (savedRegs_rets hmem) (by decide)
  have hpkru : rspShifts (emitSetReturnPkru w.callerPkey) = 0#64 := rfl
  by_cases hpkey : w.targetPkey = 0
  · rw [emitScrubRegs, if_neg (not_not.mpr hpkey), List.nil_append,
      h.run_rsp (isTracked_of_all rfl), hpkru, BitVec.add_zero]
  · obtain ⟨hshift, htracked⟩ := rspShifts_saving hrsp
    rw [emitScrubRegs_eq hpkey,
      h.run_rsp (List.forall_mem_append.mpr ⟨htracked, isTracked_of_all rfl⟩), rspShifts_append,
      hshift, hpkru,
      BitVec.add_zero, BitVec.add_zero]

theorem isTracked_postConditions (target : TargetInfo) :
    ∀ i ∈ emitPostConditions target, isTracked i = true := by
  have hrestore : ∀ pop, ∀ i ∈ emitRestoreArgs pop, isTracked i = true := by
    intro pop
    cases pop
    · exact isTracked_of_all rfl
    · exact isTracked_of_all rfl
  simp only [emitPostConditions, List.forall_mem_flatMap, List.forall_mem_append]
  exact fun k _ => ⟨⟨⟨hrestore _, isTracked_of_all rfl⟩, isTracked_of_all rfl⟩,
    isTracked_of_all rfl⟩

theorem rspShifts_postConditions (target : TargetInfo) :
    rspShifts (emitPostConditions target) = BitVec.ofNat 64
      (if target.postConditions = 0 then 0 else argsBytes) := by
  have hblock : ∀ k, rspShifts (emitRestoreArgs (decide (k = target.postConditions - 1)) ++
    emitAlignStack8To16 ++ [.call (.postCondition k)] ++
      emitRevertAlignStack8To16) = if k = target.postConditions - 1 then 48#64 else 0#64 := by
    intro k
    have hcall : rspShifts [.call (.postCondition k)] = 0#64 := BitVec.add_zero _
    rw [rspShifts_append, rspShifts_append, rspShifts_append, hcall]
    by_cases hlast : k = target.postConditions - 1
    · rw [decide_eq_true hlast, if_pos hlast]
      decide
    · rw [decide_eq_false hlast, if_neg hlast]
      decide
  rw [emitPostConditions]
  cases hpost : target.postConditions with
  | zero => rfl
  | succ m =>
    rw [hpost] at hblock
    have hothers : ∀ k ∈ List.range m, (if k = m + 1 - 1 then 48#64 else 0#64) = 0#64 := by
      intro k hk
      have := List.mem_range.mp hk
      exact if_neg (by omega)
    rw [List.range_succ, List.flatMap_append, List.flatMap_singleton, rspShifts_append,
      rspShifts_flatMap fun k hk => (hblock k).trans (hothers k hk),
      hblock, Nat.add_sub_cancel, if_pos rfl, if_neg (Nat.succ_ne_zero m)]
    decide

/-! ### A pre-condition that leaves the address of the cell behind -/

/-- The address of the caller's `ia2_stackptr` cell. -/
def cellAddr (w : Wrapper) (env : Env) : BitVec 64 := env.fsBase + env.tpoff w.callerPkey

def overwriting (w : Wrapper) (env : Env) (s : State) : Callee → State → State
  | .preCondition _, c => (returning c).set .rdi (cellAddr w env)
  | .target, c =>
    { returning c with
        mem := Function.update c.mem (resultAddr w env s) (c.mem (cellAddr w env).toNat + 1#8) }
  | _, c => returning c

theorem overwriting_returning (w : Wrapper) (env : Env) (s : State) :
    Returning (calling env (overwriting w env s)) := by
  intro callee c
  cases callee <;> rfl

theorem cellAddr_mem (w : Wrapper) (env : Env) : (cellAddr w env).toNat ∈ cell env w.callerPkey :=
  ⟨le_rfl, Nat.lt_add_of_pos_right (by decide)⟩

theorem overwriting_obeys (hok : GateOk w env s) (hret : 0 < w.sizes.returnSize)
    (target : TargetInfo) :
    Obeys w target (calling env (overwriting w env s)) s := by
  refine ⟨fun callee hcalls c _ => ?_, fun c _ => ?_⟩
  · cases callee with
    | target => cases hcalls
    | preCondition i => exact (returning_sysv _ c).set (by decide) _
    | _ => exact returning_sysv _ c
  · obtain ⟨hrsp, hregs, hpkru, -⟩ := returning_sysv (gateBytes w target env s) c
    refine ⟨hrsp, hregs, hpkru, fun a ha => Function.update_of_ne ?_ _ _⟩
    rintro rfl
    exact resultAddr_notMem_gateBytes target hok hret ha

theorem overwriting_entered (htarget : w.target = some target) (hpre : 0 < target.preConditions) :
    (entered w (calling env (overwriting w env s)) s).regs .rdi = cellAddr w env := by
  obtain ⟨prog, hprog⟩ := emitEntry_preCondition htarget (Nat.succ_pred_eq_of_pos hpre).symm
  rw [entered, hprog, run_append]
  rfl

theorem takeResult_first {c : State} {b : BitVec 64} (hret : 0 < w.sizes.returnSize)
    (hok : GateOk w env s)
    (hrsp : c.rsp.toNat = (stackptr env w.targetPkey s).toNat - w.sizes.space)
    (hslot : c.load64 ((stackptr env w.targetPkey s).toNat - w.sizes.returnBytes) = b) :
    (run (exec env)
      (emitFreeStackSpace (w.sizes.argSize + w.sizes.argPadding + w.sizes.alignment) ++
      emitCopyStackReturns w.sizes) c).mem b.toNat =
      c.mem (resultAddr w env s) := by
  have hbytes : w.sizes.returnBytes = w.sizes.returnSize + w.sizes.returnPadding + 8 := if_pos hret
  have hspace := w.sizes.space_eq
  have hargs : w.sizes.argBytes = w.sizes.argSize + w.sizes.argPadding := rfl
  have hdepth := w.space_le_targetDepth
  have hroom := hok.targetRoom
  have hlt := (stackptr env w.targetPkey s).isLt
  have hfree :=
    Confined.runs
      (@runs_freeStackSpace env (w.sizes.argSize + w.sizes.argPadding + w.sizes.alignment) ∅ ∅
      c (by omega))
    fun i hi => Instr.isPlain_of_isLocal (emitFreeStackSpace_isLocal _ i hi)
  obtain ⟨-, ⟨hrsp₁, -⟩, -, heq₁⟩ := hfree
  rw [compl_empty, eqOn_univ] at heq₁
  rw [run_append]
  generalize run (exec env) (emitFreeStackSpace
    (w.sizes.argSize + w.sizes.argPadding + w.sizes.alignment)) c = c₁ at hrsp₁ heq₁ ⊢
  obtain ⟨hrsp₂, -, hrax₂⟩ := exec_popq env (r := .rax) (by decide) (s := c₁) (by omega)
  have hrax : (exec env (.popq .rax) c₁).regs .rax = b := by
    rw [hrax₂, ← hslot, State.load64, heq₁, show c₁.rsp.toNat =
      (stackptr env w.targetPkey s).toNat - w.sizes.returnBytes by omega]
    rfl
  have hcopy := (@run_copyChunks_first env .rax .rsp .r10 (by decide) _ _
    (memcpyChunks_chunks w.sizes.returnSize) hret (by omega)
    (exec env (.popq .rax) c₁)).1
  rw [hrax] at hcopy
  have hresult : (exec env (.popq .rax) c₁).rsp.toNat = resultAddr w env s := by
    rw [resultAddr]
    omega
  rw [emitCopyStackReturns, if_pos hret, emitMemcpy_eq, run_append, run_append]
  refine hcopy.trans ?_
  rw [hresult]
  exact congrFun heq₁ _

theorem overwriting_bytes (htarget : w.target = some target) (hok : GateOk w env s)
    (hret : 0 < w.sizes.returnSize) :
    (afterCall w (calling env (overwriting w env s)) s).mem (resultAddr w env s) ≠
      (afterCall w (calling env (overwriting w env s)) s).mem (cellAddr w env).toNat := by
  have hne : (cellAddr w env).toNat ≠ resultAddr w env s := by
    intro heq
    exact disjoint_left.mp hok.cells_targetArea (.inl (cellAddr_mem w env))
      (heq ▸ resultAddr_mem_targetArea hok hret)
  have hother : ∀ x : BitVec 8, x + 1#8 ≠ x := by decide
  have hmem : ∀ c, (overwriting w env s .target c).mem =
    Function.update c.mem (resultAddr w env s) (c.mem (cellAddr w env).toNat + 1#8) := fun _ => rfl
  rw [afterCall_eq htarget, hmem, Function.update_self, Function.update_of_ne hne]
  exact hother _

theorem overwriting_returned (htarget : w.target = some target) (hkind : w.kind ≠ .indirectCallsite)
    (hok : GateOk w env s) (hret : 0 < w.sizes.returnSize) (hpre : 0 < target.preConditions) :
    (returned w (calling env (overwriting w env s)) s).rsp ≠
      (entered w (calling env (overwriting w env s)) s).rsp := by
  have hok' := hok.calling (overwriting w env s)
  have hobeys := overwriting_obeys hok hret target
  have hbytes := overwriting_bytes htarget hok hret
  have hrdi := @overwriting_entered w target env s htarget hpre
  have hreturning := overwriting_returning w env s
  have hresult : resultAddr w (calling env (overwriting w env s)) s = resultAddr w env s := rfl
  have hcellAddr : (calling env (overwriting w env s)).fsBase +
    (calling env (overwriting w env s)).tpoff w.callerPkey = cellAddr w env := rfl
  generalize calling env (overwriting w env s) = env' at *
  have hentry := hobeys.entryState htarget hok'
  have hcall : AtCall (crossing w env' s (entered w env' s)) (entered w env' s) (atCall w env' s) :=
    (gate_toTarget hkind hok' subset_rfl hentry).2
  obtain ⟨hrsp, -, hkept⟩ := afterCall_facts hok' hcall (hobeys.target.balanced htarget hok' hcall)
  obtain ⟨hsaved, hslot⟩ := afterCall_slots hcall hkept
  rw [returned, emitToCaller_eq, homeCode, run_append, hreturning.scrub_rsp, List.append_assoc,
    run_append, run_append]
  have hopen : Runs (exec env') _ (emitIntermediatePkru w.callerPkey w.targetPkey .rax .rdx)
      (afterCall w env' s) _ :=
    runs_keepingRegs (.inr ⟨rfl, rfl⟩) _ _
  obtain ⟨-, -, hmem₁, hkeep₁⟩ := hopen
  generalize run (exec env') (emitIntermediatePkru w.callerPkey w.targetPkey .rax .rdx)
    (afterCall w env' s) = c₁ at hmem₁ hkeep₁ ⊢
  -- the result goes to the cell
  have hslot₁ : c₁.load64 ((stackptr env' w.targetPkey s).toNat - w.sizes.returnBytes) =
      cellAddr w env := by
    rw [← hrdi, ← hslot hret]
    exact State.load64_congr fun a _ => congrFun hmem₁ a
  have hfirst := takeResult_first hret hok'
    ((congrArg BitVec.toNat (hkeep₁.regs .rsp (by decide))).trans hrsp) hslot₁
  rw [hresult, hmem₁] at hfirst
  generalize run (exec env') (emitFreeStackSpace
    (w.sizes.argSize + w.sizes.argPadding + w.sizes.alignment) ++ emitCopyStackReturns w.sizes) c₁ =
    c₂ at hfirst ⊢
  -- the stack pointer comes from the cell
  rw [(runs_switchStacks (s := c₂) hok'.cells.symm).2.1, ← hsaved]
  intro heq
  have hbyte := State.eqOn_of_load64_eq heq (cellAddr_mem w env')
  rw [show cellAddr w env' = cellAddr w env from hcellAddr, hfirst] at hbyte
  exact hbytes hbyte

theorem overwriting_not_served (htarget : w.target = some target)
    (hkind : w.kind ≠ .indirectCallsite) (hsig : w.wrapperSig = none) (hok : GateOk w env s)
    (hret : 0 < w.sizes.returnSize) (hpre : 0 < target.preConditions) :
    ¬ Served w (calling env (overwriting w env s)) s := by
  rintro ⟨body, hcode, -, hrsp⟩
  have hsame : emitPrologue ++ bodyCode w target ++ (emitEpilogue ++ [.ret]) =
      emitPrologue ++ body ++ (emitEpilogue ++ [.ret]) := by
    rw [← gateCode_eq htarget]
    exact Option.some.inj ((emitAsmWrapper_eq hsig).symm.trans hcode)
  cases List.append_cancel_left (List.append_cancel_right hsame)
  have hreturning := overwriting_returning w env s
  have hentry := ((overwriting_obeys hok hret target).entryState htarget (hok.calling _)).rsp
  have hdepth := entryDepth_le target
  have hroom := hok.callerRoom
  have hentered : (entered w (calling env (overwriting w env s)) s).rsp =
      s.rsp - BitVec.ofNat 64 (entryDepth target) :=
    BitVec.eq_of_toNat_eq (hentry.trans (toNat_sub_of_le (by omega)).symm)
  rw [run_bodyCode htarget, hreturning.run_rsp (isTracked_postConditions target),
    hreturning.run_rsp (isTracked_of_all rfl), rspShifts_postConditions,
    show rspShifts emitPrologue = -BitVec.ofNat 64 savedBytes by decide] at hrsp
  refine overwriting_returned htarget hkind hok hret hpre ?_
  have hback : ∀ x y a b : BitVec 64, x + a = y + -b → x = y - (b + a) := by
    intro x y a b heq
    bv_omega
  rw [hentered, entryDepth, BitVec.ofNat_add]
  exact hback _ _ _ _ hrsp

/-- A gate serves its conditions, whatever its functions do, exactly if it has no result in memory
or no pre-conditions. -/
theorem served_iff (htarget : w.target = some target) (hkind : w.kind ≠ .indirectCallsite)
    (hsig : w.wrapperSig = none) (hok : GateOk w env s) (hbuffer : BufferOk w env s (s.regs .rdi)) :
    (∀ function, Obeys w target (calling env function) s → Served w (calling env function) s) ↔
      w.sizes.returnSize = 0 ∨ target.preConditions = 0 := by
  constructor
  · intro h
    by_contra hnone
    obtain ⟨hret, hpre⟩ := not_or.mp hnone
    have hret : 0 < w.sizes.returnSize := Nat.pos_of_ne_zero hret
    exact overwriting_not_served htarget hkind hsig hok hret (Nat.pos_of_ne_zero hpre)
      (h _ (overwriting_obeys hok hret target))
  · intro h function hobeys
    have hok' := hok.calling function
    refine hobeys.served htarget hkind hsig hok' ?_
    rcases h with hret | hpre
    · exact .of_returnSize hret _
    · rw [(hobeys.entryState htarget hok').ints hpre .rdi (by decide)]
      exact hbuffer.calling function

end

theorem served_iff_struct :
    Served (withTarget structGate { postConditions := 2 }) structEnv structEntry := by
  have hobeys : Obeys (withTarget structGate { postConditions := 2 }) { postConditions := 2 }
      (calling structEnv fun _ => returning) structEntry := by
    refine ⟨fun callee _ c _ => returning_sysv _ c, fun c _ => returning_sysv _ c⟩
  have hbuffer := (structGate_buffer (b := structEntry.regs .rdi) (by decide)
    (by decide)).withTarget { postConditions := 2 }
  exact (served_iff rfl (by decide) rfl (structGate_ok.withTarget _) hbuffer).mpr
    (.inr rfl) _ hobeys

/-- With a condition on either side of the call, the result is written over the caller's saved stack
pointer. -/
theorem struct_not_served :
    ∃ function, Obeys (withTarget structGate { preConditions := 1, postConditions := 1 })
      { preConditions := 1, postConditions := 1 }
        (calling structEnv function) structEntry ∧
      ¬ Served (withTarget structGate { preConditions := 1, postConditions := 1 })
        (calling structEnv function) structEntry := by
  have hok := structGate_ok.withTarget { preConditions := 1, postConditions := 1 }
  have hret :
    0 < (withTarget structGate { preConditions := 1, postConditions := 1 }).sizes.returnSize := by
    decide
  exact ⟨_, overwriting_obeys hok hret _, overwriting_not_served rfl (by decide) rfl hok hret
    Nat.one_pos⟩

end Ia2.Gate
