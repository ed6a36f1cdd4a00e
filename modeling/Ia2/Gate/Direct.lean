import Ia2.Gate.Run
import Mathlib.Order.Interval.Set.Disjoint

/-!
# Direct gates

A gate with neither conditions nor type checks delivers a call: the target finds the arguments where
the caller put them, on its own stack, and the caller finds the result where the target left it.
-/

namespace Ia2.Gate

open X86 Rewriter StraightLine Set

/-- A wrapper of a named function with no signature of its own, no conditions and no type checks. -/
structure Bare (w : Wrapper) (target : TargetInfo) : Prop where
  named : w.target = some target
  wrapperSig : w.wrapperSig = none
  preConditions : target.preConditions = 0
  postConditions : target.postConditions = 0
  checks : (registryChecks target w.sig.api).2 = []

def resultAddr (w : Wrapper) (env : Env) (s : State) : Nat :=
  (stackptr env w.targetPkey s).toNat - (w.sizes.returnSize + w.sizes.returnPadding)

/-- The target of a gate entered in state `s` is called in state `c` with what the caller passed:
every register location of the signature holds the caller's value, except that `rdi` has the address
of fresh aligned memory on the target's stack for a result in memory, and the stack arguments start
at the stack pointer. -/
structure CallDelivered (w : Wrapper) (env : Env) (s c : State) : Prop where
  aligned : c.rsp.toNat % 16 = 0
  regs : ∀ loc ∈ w.args, loc.isStack = false → ∀ r, loc.reg = some r →
    r.value c = if 0 < w.sizes.returnSize ∧ r = .gpr .rdi then resultAddr w env s else r.value s
  stack : ∀ i < w.sizes.argBytes, c.mem (c.rsp.toNat + i) = s.mem (s.rsp.toNat + 8 + i)
  result : 0 < w.sizes.returnSize → resultAddr w env s % 16 = 0 ∧
    Ico (resultAddr w env s) (resultAddr w env s + w.sizes.returnSize) ⊆
      Ico (c.rsp.toNat + w.sizes.argBytes) (stackptr env w.targetPkey s).toNat

/-- A gate entered in state `s` whose target returned in state `c` has returned to its caller in
state `e` with what the target left. -/
structure ResultDelivered (w : Wrapper) (env : Env) (s c e : State) : Prop where
  rsp : e.rsp.toNat = s.rsp.toNat + 8
  rip : e.rip = s.load64 s.rsp.toNat
  saved : ∀ r ∈ calleeSaved, e.regs r = s.regs r
  pkru : e.pkru = s.pkru
  regs : ∀ loc ∈ w.rets, ∀ r, loc.reg = some r →
    r.value e = if 0 < w.sizes.returnSize ∧ r = .gpr .rax then (s.regs .rdi).toNat else r.value c
  result : ∀ i < w.sizes.returnSize, e.mem ((s.regs .rdi).toNat + i) =
    c.mem (resultAddr w env s + i)
  targetStack : stackptr env w.targetPkey e = stackptr env w.targetPkey s

section Bare

variable {w : Wrapper} {target : TargetInfo} {env : Env} {keep : Set Nat} {s : State}

theorem resultAddr_mem_targetArea (hok : GateOk w env s) (hret : 0 < w.sizes.returnSize) :
    resultAddr w env s ∈ targetArea w env s := by
  have hbytes : w.sizes.returnBytes = w.sizes.returnSize + w.sizes.returnPadding + 8 := if_pos hret
  have hspace := w.sizes.space_eq
  have hdepth := w.space_le_targetDepth
  have hroom := hok.targetRoom
  rw [resultAddr]
  exact ⟨by omega, by omega⟩

theorem resultAddr_notMem_gateBytes (target : TargetInfo) (hok : GateOk w env s)
    (hret : 0 < w.sizes.returnSize) :
    resultAddr w env s ∉ gateBytes w target env s := by
  have hbytes : w.sizes.returnBytes = w.sizes.returnSize + w.sizes.returnPadding + 8 := if_pos hret
  have hresult := resultAddr_mem_targetArea hok hret
  rw [gateBytes, suspended, if_pos hret]
  rintro ((hframe | hslot) | hcell)
  · exact disjoint_left.mp hok.areas hresult (frame_subset target hok hframe)
  · have hspace := w.sizes.space_eq
    have hdepth := w.space_le_targetDepth
    have hroom := hok.targetRoom
    have := hslot.2
    rw [resultAddr] at this
    omega
  · exact disjoint_left.mp hok.cells_targetArea (.inl hcell) hresult

theorem Bare.helpersOk (h : Bare w target) (lo hi top : Nat) (keep : Set Nat) :
    HelpersOk w target env lo hi top keep := by
  intro callee hcalls
  cases callee with
  | preCondition i => exact absurd hcalls (by simp [calls, h.preConditions])
  | postCondition i => exact absurd hcalls (by simp [calls, h.postConditions])
  | typeRegistry fn => exact absurd h.checks hcalls
  | target => cases hcalls
  | scrubRegisters => cases hcalls

theorem Bare.gateRun (h : Bare w target) (hkind : w.kind ≠ .indirectCallsite) (hok : GateOk w env s)
    (hbuffer : BufferOk w env s (s.regs .rdi)) (htargetOk : TargetOk w target env s) :
    GateRun w target env (cell env w.targetPkey) s := by
  have hobeys : Obeys w target env s := ⟨h.helpersOk _ _ _ _, htargetOk⟩
  have hrdi : (entered w env s).regs .rdi = s.regs .rdi :=
    (hobeys.entryState h.named hok).ints h.preConditions .rdi (by decide)
  exact hobeys.gateRun h.named hkind hok (by rw [hrdi]; exact hbuffer)

theorem Bare.entered_value (h : Bare w target)
    (hentry : EntryState w target (argsEnd w s) keep s (entered w env s)) {r : ArgReg}
    (hr : r ∈ savedRegs w.args false) : r.value (entered w env s) = r.value s := by
  have hparam := (savedRegs_args hr).resolve_right (by simp)
  rcases List.mem_append.mp hparam with hint | hfloat
  · obtain ⟨g, hg, rfl⟩ := List.mem_map.mp hint
    exact congrArg BitVec.toNat (hentry.ints h.preConditions g hg)
  · obtain ⟨g, hg, rfl⟩ := List.mem_map.mp hfloat
    exact congrArg BitVec.toNat (congrFun (hentry.xmm h.preConditions h.checks) g)

theorem Bare.callDelivered (h : Bare w target) (hok : GateOk w env s)
    (hrun : GateRun w target env keep s) (htsp : (stackptr env w.targetPkey s).toNat % 16 = 8) :
    CallDelivered w env s (atCall w env s) := by
  have hspace := w.sizes.space_eq
  have hmod : w.sizes.space % 16 = 8 := stackSizes_space_mod _
  have hdepth := w.space_le_targetDepth
  have hroom := hok.targetRoom
  have hrsp : (atCall w env s).rsp.toNat = (stackptr env w.targetPkey s).toNat - w.sizes.space :=
    hrun.call.rsp
  refine ⟨by omega, fun loc hloc hstack r hreg => ?_, fun i hi => ?_, fun hret => ⟨?_, ?_⟩⟩
  · have hsaved : r ∈ savedRegs w.args false := mem_savedRegs.mpr (.inl ⟨loc, hloc, hstack, hreg⟩)
    rw [← h.entered_value hrun.entry hsaved]
    exact hrun.call.regArgs r hsaved
  · exact hrun.stackArgs hok h.postConditions hi
  · have hbytes : w.sizes.returnBytes = w.sizes.returnSize + w.sizes.returnPadding + 8 :=
      if_pos hret
    have hreturn : w.sizes.returnBytes % 16 = 0 := stackSizes_returnBytes_mod _
    rw [resultAddr]
    omega
  · have hbytes : w.sizes.returnBytes = w.sizes.returnSize + w.sizes.returnPadding + 8 :=
      if_pos hret
    rw [resultAddr]
    exact Ico_subset_Ico (by omega) (by omega)

theorem Bare.resultDelivered (h : Bare w target) (hrun : GateRun w target env keep s) :
    ResultDelivered w env s (afterCall w env s) (gateEnd w env s) := by
  have hrdi : (entered w env s).regs .rdi = s.regs .rdi :=
    hrun.entry.ints h.preConditions .rdi (by decide)
  have hmem := (hrun.exit h.postConditions).1
  refine ⟨hrun.rsp, hrun.rip, hrun.regs, hrun.pkru, fun loc hloc r hreg => ?_, fun i hi => ?_, ?_⟩
  · have hstack := (mem_returnRegs hloc).1
    have hsaved : r ∈ savedRegs w.rets false := mem_savedRegs.mpr (.inl ⟨loc, hloc, hstack, hreg⟩)
    have hreturn := savedRegs_rets hsaved
    rw [hrun.returnRegs h.postConditions hreturn, if_pos (Or.inr hsaved), hrdi]
  · have hresult := hrun.back.result i hi
    simp only [crossing_w, crossing_tsp, crossing_buffer, hrdi] at hresult
    rw [hmem, hresult, resultAddr]
  · have hsame : stackptr env w.targetPkey (gateEnd w env s) =
        stackptr env w.targetPkey (returned w env s) :=
      stackptr_congr fun a _ => congrFun hmem a
    exact hsame.trans hrun.back.tsp

/-- A direct gate preserves the call. -/
theorem direct_gate_preserves_call (hbare : Bare w target) (hkind : w.kind = .direct)
    (hok : GateOk w env s) (hbuffer : BufferOk w env s (s.regs .rdi))
    (htargetOk : TargetOk w target env s) (htsp : (stackptr env w.targetPkey s).toNat % 16 = 8) :
    ∃ prog c, w.emitAsmWrapper = some prog ∧ firstAt (exec env) (fun i => i == .call .target) prog
      s = some c ∧
      CallDelivered w env s c ∧
      ResultDelivered w env s (env.function .target (c.push env.retAddr))
        (run (exec env) prog s) := by
  have hrun := hbare.gateRun (by simp [hkind]) hok hbuffer htargetOk
  have hresult := hbare.resultDelivered hrun
  rw [afterCall_eq hbare.named, ← run_gateCode] at hresult
  refine ⟨gateCode w, atCall w env s, emitAsmWrapper_eq hbare.wrapperSig,
    hrun.firstAt_call hbare.named,
    hbare.callDelivered hok hrun htsp, hresult⟩

end Bare

/-! ### A gate for a function on structures -/

open ArgLocation in
/-- A function that takes a structure of 24 bytes and an `int` and returns a structure of 40 bytes.
-/
def structSig : AbiSignature where
  args := [indirect 24 8, register .integral 4]
  ret := [indirect 40 8]
  args_slots := List.forall_mem_cons.mpr
    ⟨.indirect (by decide) (by decide), List.forall_mem_singleton.mpr (.integral (by decide))⟩
  ret_slots := .memory (by decide) (by decide)

def structGate : Wrapper := ⟨⟨structSig, []⟩, none, some {}, .direct, 1, 2, true⟩

/-- The target returns at once. -/
def structEnv : Env where
  fsBase := 0x10000
  tpoff pkey := BitVec.ofNat 64 (8 * pkey)
  retAddr := 0x400000
  function _ c := c.set .rsp (c.rsp + 8#64)
  pointee _ c := c.set .rsp (c.rsp + 8#64)

def structEntry : State :=
  State.store64 { regs := fun r => if r = .rsp then 0x20008 else if r = .rdi then 0x28000 else 7
                  xmm := fun _ => 0, pkru := pkruOf 1, mem := fun _ => 0, rip :=
                    0x400100 } 0x10010 0x30008

theorem structGate_bare : Bare structGate {} := ⟨rfl, rfl, rfl, rfl, rfl⟩

theorem structEntry_stackptr : stackptr structEnv 2 structEntry = 0x30008 :=
  State.load64_store64 _ _ _

theorem structGate_areas :
    cell structEnv 1 = Ico 0x10008 0x10010 ∧ cell structEnv 2 = Ico 0x10010 0x10018 ∧
      callerArea structGate structEntry = Ico 0x1ff88 0x20028 ∧
        targetArea structGate structEnv structEntry = Ico 0x2ffa8 0x30008 := by
  refine ⟨rfl, rfl, rfl, ?_⟩
  rw [targetArea, show structGate.targetPkey = 2 from rfl, structEntry_stackptr]
  rfl

theorem structGate_ok : GateOk structGate structEnv structEntry := by
  obtain ⟨hcell, hcell', hcaller, htarget⟩ := structGate_areas
  have hsp : structEntry.rsp.toNat = 0x20008 := rfl
  refine ⟨by decide, by decide, ?_, rfl, ?_, ?_, ?_, ?_⟩
  · rw [show structGate.targetPkey = 2 from rfl, structEntry_stackptr]
    decide
  · change Disjoint (cell structEnv 1) (cell structEnv 2)
    rw [hcell, hcell', Ico_disjoint_Ico]
    decide
  · change Disjoint (cell structEnv 1 ∪ cell structEnv 2) _
    rw [hcell, hcell', htarget, disjoint_union_left, Ico_disjoint_Ico, Ico_disjoint_Ico]
    decide
  · change Disjoint (cell structEnv 1 ∪ cell structEnv 2) _
    rw [hcell, hcell', hcaller, disjoint_union_left, Ico_disjoint_Ico, Ico_disjoint_Ico]
    decide
  · rw [htarget, hcaller, Ico_disjoint_Ico]
    decide

theorem structGate_buffer {b : BitVec 64} (hlo : 0x20028 ≤ b.toNat)
    (hhi : b.toNat + 40 ≤ 0x2ffa8 ∨ 0x30008 ≤ b.toNat ∧ b.toNat + 40 < 2 ^ 64) :
    BufferOk structGate structEnv structEntry b := by
  obtain ⟨hcell, hcell', hcaller, htarget⟩ := structGate_areas
  have hbuffer : bufferArea structGate b = Ico b.toNat (b.toNat + 40) := rfl
  refine ⟨?_, ?_, ?_⟩
  · change b.toNat + 40 < 2 ^ 64
    omega
  · change Disjoint (cell structEnv 1 ∪ cell structEnv 2) _
    rw [hcell, hcell', hbuffer, disjoint_union_left, Ico_disjoint_Ico, Ico_disjoint_Ico]
    omega
  · rw [htarget, hcaller, hbuffer, disjoint_union_left, Ico_disjoint_Ico, Ico_disjoint_Ico]
    omega

theorem structEnv_sysv (keep : Set Nat) (callee : Callee) (c : State) :
    Sysv keep c (structEnv.function callee c) := by
  refine ⟨by simp [structEnv], ?_, rfl, fun _ _ => rfl⟩
  intro r hr
  revert r
  simp [structEnv, calleeSaved, preservedRegisters]

theorem structEnv_obeys (w : Wrapper) (target : TargetInfo) (s : State) :
    Obeys w target structEnv s :=
  ⟨fun callee _ c _ => structEnv_sysv _ callee c, fun c _ => structEnv_sysv _ .target c⟩

open ArgLocation in
def stackSig : AbiSignature where
  args := [indirect 24 8]
  ret := []
  args_slots := List.forall_mem_singleton.mpr (.indirect (by decide) (by decide))
  ret_slots := .void

/-- A gate with a pre-condition whose arguments are on the stack. -/
def stackGate : Wrapper :=
  ⟨⟨stackSig, []⟩, none, some { preConditions := 1 }, .direct, 1, 2, true⟩

theorem stackGate_ok : GateOk stackGate structEnv structEntry :=
  structGate_ok.of_le rfl rfl (by decide) (by decide) (by decide)

theorem direct_gate_preserves_call_struct : ∃ prog c, structGate.emitAsmWrapper = some prog ∧
    firstAt (exec structEnv) (fun i => i == .call .target) prog structEntry = some c ∧
    CallDelivered structGate structEnv structEntry c ∧
    ResultDelivered structGate structEnv structEntry
      (structEnv.function .target (c.push structEnv.retAddr))
      (run (exec structEnv) prog structEntry) :=
  direct_gate_preserves_call structGate_bare rfl structGate_ok
    (structGate_buffer (by decide) (by decide)) (structEnv_obeys _ _ _).target
    (by rw [show structGate.targetPkey = 2 from rfl, structEntry_stackptr]; decide)

end Ia2.Gate
