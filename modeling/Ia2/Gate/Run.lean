import Ia2.Gate.Frame

/-!
# A whole gate

The code of a wrapper that has no signature of its own, run from its first instruction to its
return. The hypotheses say where the gate's memory lies and what the functions keep that it calls;
the theorem gives the state at each boundary and what every instruction of the gate does.
-/

namespace Ia2.Gate

open X86 Rewriter StraightLine Set

def gateCode (w : Wrapper) : List Instr :=
  w.emitEntry ++ w.emitToTarget (directArgs w) ++ [w.emitFnCall] ++ w.emitToCaller ++ w.emitExit

variable {w : Wrapper} {target : TargetInfo} {env : Env} {s s₁ : State}

theorem emitAsmWrapper_eq (h : w.wrapperSig = none) :
    w.emitAsmWrapper = some (gateCode w) := by
  rw [Wrapper.emitAsmWrapper, h]
  rfl

/-! ### The states of a run -/

section States

variable (w : Wrapper) (env : Env) (s : State)

/-- Before the switch to the target's stack. -/
def entered : State := run (exec env) w.emitEntry s

/-- At the call of the target. -/
def atCall : State := run (exec env) (w.emitToTarget (directArgs w)) (entered w env s)

/-- After the target returned. -/
def afterCall : State := exec env w.emitFnCall (atCall w env s)

def returned : State := run (exec env) w.emitToCaller (afterCall w env s)

/-- After the gate returned. -/
def gateEnd : State := run (exec env) w.emitExit (returned w env s)

theorem run_returned :
    run (exec env) (w.emitEntry ++ w.emitToTarget (directArgs w) ++ [w.emitFnCall] ++
    w.emitToCaller) s =
    returned w env s := by
  simp only [run_append]
  rfl

theorem run_gateCode : run (exec env) (gateCode w) s = gateEnd w env s := by
  rw [gateCode, run_append, run_returned]
  rfl

theorem along_gateCode {P : Instr → State → Prop} : Along (exec env) P (gateCode w) s ↔
    Along (exec env) P w.emitEntry s ∧
    Along (exec env) P (w.emitToTarget (directArgs w)) (entered w env s) ∧
    P w.emitFnCall (atCall w env s) ∧
    Along (exec env) P w.emitToCaller (afterCall w env s) ∧
    Along (exec env) P w.emitExit (returned w env s) := by
  simp only [gateCode, along_append, run_append, Along, and_true, and_assoc, entered, atCall,
    afterCall, returned, run]

end States

theorem emitEntry_preCondition {k : Nat} (htarget : w.target = some target)
    (hpre : target.preConditions = k + 1) :
    ∃ prog, w.emitEntry = prog ++ [.call (.preCondition k)] := by
  rw [Wrapper.emitEntry, htarget]
  dsimp only
  rw [emitPreConditions, hpre, List.range_succ, List.flatMap_append, List.flatMap_singleton]
  simp only [← List.append_assoc]
  exact ⟨_, rfl⟩

/-! ### Where a gate's memory lies -/

/-- Where the arguments on the caller's stack end. -/
def argsEnd (w : Wrapper) (s : State) : Nat := s.rsp.toNat + 8 + w.sizes.argBytes

theorem argsEnd_eq (w : Wrapper) (s : State) :
    argsEnd w s = s.rsp.toNat + 8 + w.sizes.argBytes :=
  rfl

def callerArea (w : Wrapper) (s : State) :
    Set Nat := Ico (s.rsp.toNat - (frameDepth + w.scrubDepth)) (argsEnd w s)

def targetArea (w : Wrapper) (env : Env) (s : State) : Set Nat :=
  Ico ((stackptr env w.targetPkey s).toNat - w.targetDepth) (stackptr env w.targetPkey s).toNat

def bufferArea (w : Wrapper) (b : BitVec 64) : Set Nat := Ico b.toNat (b.toNat + w.sizes.returnSize)

/-- A gate entered in state `s` has room on both stacks, and its memory does not overlap. -/
structure GateOk (w : Wrapper) (env : Env) (s : State) : Prop where
  callerRoom : frameDepth + w.scrubDepth ≤ s.rsp.toNat
  callerTop : argsEnd w s < 2 ^ 64
  targetRoom : w.targetDepth ≤ (stackptr env w.targetPkey s).toNat
  pkru : s.pkru = pkruOf w.callerPkey
  cells : Disjoint (cell env w.callerPkey) (cell env w.targetPkey)
  cells_targetArea : Disjoint (cell env w.callerPkey ∪ cell env w.targetPkey) (targetArea w env s)
  cells_callerArea : Disjoint (cell env w.callerPkey ∪ cell env w.targetPkey) (callerArea w s)
  areas : Disjoint (targetArea w env s) (callerArea w s)

/-- The memory for a result at address `b` is apart from the memory of the gate. -/
structure BufferOk (w : Wrapper) (env : Env) (s : State) (b : BitVec 64) : Prop where
  room : b.toNat + w.sizes.returnSize < 2 ^ 64
  cells : Disjoint (cell env w.callerPkey ∪ cell env w.targetPkey) (bufferArea w b)
  areas : Disjoint (targetArea w env s ∪ callerArea w s) (bufferArea w b)

theorem bufferArea_eq_empty (h : w.sizes.returnSize = 0) (b : BitVec 64) :
    bufferArea w b = ∅ := by
  rw [bufferArea, h]
  exact Ico_self _

theorem BufferOk.of_returnSize (h : w.sizes.returnSize = 0) (b : BitVec 64) :
    BufferOk w env s b := by
  have hempty := bufferArea_eq_empty h b
  refine ⟨by rw [h]; exact b.isLt, ?_, ?_⟩
  · rw [hempty]
    exact disjoint_empty _
  · rw [hempty]
    exact disjoint_empty _

def crossing (w : Wrapper) (env : Env) (s s₁ : State) : Crossing :=
  ⟨w, env, s₁.rsp, argsEnd w s, stackptr env w.targetPkey s, s₁.regs .rdi⟩

section

variable (w : Wrapper) (env : Env) (s s₁ : State)

@[simp] theorem crossing_w : (crossing w env s s₁).w = w := rfl

@[simp] theorem crossing_env : (crossing w env s s₁).env = env := rfl

@[simp] theorem crossing_sp : (crossing w env s s₁).sp = s₁.rsp := rfl

@[simp] theorem crossing_tsp : (crossing w env s s₁).tsp = stackptr env w.targetPkey s := rfl

@[simp] theorem crossing_buffer : (crossing w env s s₁).buffer = s₁.regs .rdi := rfl

end

theorem entryDepth_le (target : TargetInfo) :
    savedBytes ≤ entryDepth target ∧ entryDepth target + 16 ≤ frameDepth := by
  have hdepth := frameDepth_eq
  rw [entryDepth]
  split <;> omega

theorem crossing_callerStack_subset (hok : GateOk w env s)
    (hrsp : s₁.rsp.toNat = s.rsp.toNat - entryDepth target) :
    (crossing w env s s₁).callerStack ⊆ callerArea w s := by
  have hdepth := entryDepth_le target
  have hroom := hok.callerRoom
  refine Ico_subset_Ico ?_ le_rfl
  change _ ≤ s₁.rsp.toNat - w.scrubDepth
  omega

theorem crossing_apart (hok : GateOk w env s)
    (hrsp : s₁.rsp.toNat = s.rsp.toNat - entryDepth target) :
    (crossing w env s s₁).Apart := by
  have hdepth := entryDepth_le target
  have hroom := hok.callerRoom
  have hend := argsEnd_eq w s
  have hsub := crossing_callerStack_subset hok hrsp
  refine ⟨?_, hok.targetRoom, ?_, hok.callerTop.le, hok.cells, hok.cells_targetArea,
    hok.cells_callerArea.mono_right hsub, hok.areas.mono_right hsub⟩
  · change w.scrubDepth ≤ s₁.rsp.toNat
    omega
  · change s₁.rsp.toNat ≤ argsEnd w s
    omega

theorem crossing_ok (hok : GateOk w env s) (hbuffer : BufferOk w env s (s₁.regs .rdi))
    (hrsp : s₁.rsp.toNat = s.rsp.toNat - entryDepth target) :
    (crossing w env s s₁).Ok :=
  ⟨crossing_apart hok hrsp, hbuffer.room, hbuffer.cells,
    hbuffer.areas.mono_left (union_subset_union_right _ (crossing_callerStack_subset hok hrsp))⟩

/-! ### The run -/

def suspended (w : Wrapper) (target : TargetInfo) (env : Env) (s : State) : Set Nat :=
  Ico (s.rsp.toNat - entryDepth target) (s.rsp.toNat + 8) ∪
    if 0 < w.sizes.returnSize then
      Ico ((stackptr env w.targetPkey s).toNat - w.sizes.returnBytes)
        ((stackptr env w.targetPkey s).toNat - w.sizes.returnBytes + 8)
    else ∅

def gateBytes (w : Wrapper) (target : TargetInfo) (env : Env) (s : State) : Set Nat :=
  suspended w target env s ∪ cell env w.callerPkey

/-- The target obeys the calling convention when it is entered with the stack pointer that the gate
gives it, and leaves the gate's bytes alone. -/
def TargetOk (w : Wrapper) (target : TargetInfo) (env : Env) (s : State) : Prop :=
  ∀ c : State, c.rsp.toNat + 8 = (stackptr env w.targetPkey s).toNat - w.sizes.space →
    Sysv (gateBytes w target env s) c (env.function .target c)

/-- The same wrapper with another target. -/
abbrev withTarget (w : Wrapper) (target : TargetInfo) : Wrapper := { w with target := some target }

theorem GateOk.withTarget (h : GateOk w env s) (target : TargetInfo) :
    GateOk (withTarget w target) env s :=
  ⟨h.callerRoom, h.callerTop, h.targetRoom, h.pkru, h.cells, h.cells_targetArea,
    h.cells_callerArea, h.areas⟩

theorem GateOk.of_le {w' : Wrapper} (h : GateOk w env s) (hcaller : w'.callerPkey = w.callerPkey)
    (htarget : w'.targetPkey = w.targetPkey) (hargs : w'.sizes.argBytes = w.sizes.argBytes)
    (hscrub : w'.scrubDepth ≤ w.scrubDepth) (hdepth : w'.targetDepth ≤ w.targetDepth) :
    GateOk w' env s := by
  have hend : argsEnd w' s = argsEnd w s := by rw [argsEnd, argsEnd, hargs]
  have hcallerArea : callerArea w' s ⊆ callerArea w s := by
    rw [callerArea, callerArea, hend]
    exact Ico_subset_Ico_left (by omega)
  have htargetArea : targetArea w' env s ⊆ targetArea w env s := by
    rw [targetArea, targetArea, htarget]
    exact Ico_subset_Ico_left (by omega)
  have hroom := h.callerRoom
  have htop := h.targetRoom
  refine ⟨by omega, hend ▸ h.callerTop, htarget ▸ by omega, hcaller ▸ h.pkru, ?_, ?_, ?_, ?_⟩
  · rw [hcaller, htarget]
    exact h.cells
  · rw [hcaller, htarget]
    exact h.cells_targetArea.mono_right htargetArea
  · rw [hcaller, htarget]
    exact h.cells_callerArea.mono_right hcallerArea
  · exact h.areas.mono htargetArea hcallerArea

variable {b : BitVec 64}

theorem BufferOk.withTarget (h : BufferOk w env s b) (target : TargetInfo) :
    BufferOk (withTarget w target) env s b :=
  ⟨h.room, h.cells, h.areas⟩

/-- The same surroundings with other functions. -/
abbrev calling (env : Env) (function : Callee → State → State) : Env := { env with function }

theorem GateOk.calling (h : GateOk w env s) (function : Callee → State → State) :
    GateOk w (calling env function) s :=
  ⟨h.callerRoom, h.callerTop, h.targetRoom, h.pkru, h.cells, h.cells_targetArea,
    h.cells_callerArea, h.areas⟩

theorem BufferOk.calling (h : BufferOk w env s b) (function : Callee → State → State) :
    BufferOk w (calling env function) s b :=
  ⟨h.room, h.cells, h.areas⟩

/-- The surroundings of a gate whose target does `body`. -/
abbrev targeting (env : Env) (body : State → State) : Env :=
  calling env fun callee => if callee = .target then body else env.function callee

/-- The functions that a gate entered in state `s` calls obey the calling convention. -/
structure Obeys (w : Wrapper) (target : TargetInfo) (env : Env) (s : State) : Prop where
  helpers : HelpersOk w target env (s.rsp.toNat - frameDepth) s.rsp.toNat (argsEnd w s)
    (cell env w.targetPkey)
  target : TargetOk w target env s

inductive GateStep (w : Wrapper) (env : Env) (s s₁ : State) (i : Instr) (t : State) : Prop where
  | caller : CallerStep env (pkruOf w.callerPkey) (s.rsp.toNat - frameDepth) s.rsp.toNat
    (argsEnd w s) i t → GateStep w env s s₁ i t
  | cross : CrossStep (crossing w env s s₁) i t → GateStep w env s s₁ i t
  | call : i = .call .target → t.pkru = pkruOf w.targetPkey →
    Confined env ∅ (targetArea w env s) i t → GateStep w env s s₁ i t

structure GateRun (w : Wrapper) (target : TargetInfo) (env : Env) (keep : Set Nat)
    (s : State) : Prop where
  entry : EntryState w target (argsEnd w s) keep s (entered w env s)
  call : AtCall (crossing w env s (entered w env s)) (entered w env s) (atCall w env s)
  back : Returned (crossing w env s (entered w env s)) (afterCall w env s) (returned w env s)
  rsp : (gateEnd w env s).rsp.toNat = s.rsp.toNat + 8
  rip : (gateEnd w env s).rip = s.load64 s.rsp.toNat
  regs : ∀ r ∈ calleeSaved, (gateEnd w env s).regs r = s.regs r
  pkru : (gateEnd w env s).pkru = s.pkru
  mem : EqOn (gateEnd w env s).mem (returned w env s).mem
    (Ico (s.rsp.toNat - savedBytes) (argsEnd w s) ∪ keep)
  exit : target.postConditions = 0 →
    (gateEnd w env s).mem = (returned w env s).mem ∧
    Keeps (.rsp :: calleeSaved) (returned w env s) (gateEnd w env s)
  steps : Along (exec env) (GateStep w env s (entered w env s)) (gateCode w) s
  once : ∀ i ∈ w.emitEntry ++ w.emitToTarget (directArgs w), i ≠ .call .target

theorem entryArea_subset (w : Wrapper) (s : State) :
    Ico (s.rsp.toNat - frameDepth) s.rsp.toNat ⊆ callerArea w s :=
  Ico_subset_Ico (by omega) (by rw [argsEnd]; omega)

section Run

variable {w : Wrapper} {target : TargetInfo} {env : Env} {keep : Set Nat} {s : State}

theorem emitFnCall_eq (htarget : w.target = some target) : w.emitFnCall = .call .target := by
  rw [Wrapper.emitFnCall, htarget]

theorem afterCall_eq (htarget : w.target = some target) :
    afterCall w env s = env.function .target ((atCall w env s).push env.retAddr) := by
  rw [afterCall, emitFnCall_eq htarget]
  rfl

variable {c c' t : State} {i : Instr}

theorem callStep (hok : GateOk w env s) (hcall : AtCall (crossing w env s s₁) s₁ c) :
    Confined env ∅ (targetArea w env s) (.call .target) c ∧
      EqOn (c.push env.retAddr).mem c.mem (Ico ((stackptr env w.targetPkey s).toNat - w.targetDepth)
        ((stackptr env w.targetPkey s).toNat - w.sizes.space))ᶜ := by
  have hdepth := w.targetDepth_eq
  have hroom := hok.targetRoom
  have hrsp : c.rsp.toNat = (stackptr env w.targetPkey s).toNat - w.sizes.space := hcall.rsp
  refine ⟨confined_push _ rfl (by omega) (Ico_subset_Ico (by omega) (by omega)), ?_⟩
  exact (State.push_eqOn (by omega) _).mono
    (compl_subset_compl.mpr (Ico_subset_Ico (by omega) (by omega)))

theorem frame_subset (target : TargetInfo) (hok : GateOk w env s) :
    Ico (s.rsp.toNat - entryDepth target) (s.rsp.toNat + 8) ⊆ callerArea w s := by
  have hdepth := entryDepth_le target
  have hend := argsEnd_eq w s
  have hroom := hok.callerRoom
  exact Ico_subset_Ico (by omega) (by omega)

theorem suspended_disjoint (target : TargetInfo) (hok : GateOk w env s) :
    Disjoint (suspended w target env s)
      (Ico ((stackptr env w.targetPkey s).toNat - w.targetDepth)
        ((stackptr env w.targetPkey s).toNat - w.sizes.space)) := by
  have hspace := w.sizes.space_eq
  refine disjoint_union_left.mpr
    ⟨hok.areas.symm.mono (frame_subset target hok) (Ico_subset_Ico le_rfl (by omega)), ?_⟩
  split
  · refine disjoint_left.mpr fun a ha ha' => ?_
    have := ha.1
    have := ha'.2
    omega
  · exact empty_disjoint _

theorem afterCall_facts (hok : GateOk w env s) (hcall : AtCall (crossing w env s s₁) s₁ c)
    (hbalanced : Balanced (gateBytes w target env s) (c.push env.retAddr) c') :
    c'.rsp.toNat = (stackptr env w.targetPkey s).toNat - w.sizes.space ∧
      c'.pkru = pkruOf w.targetPkey ∧
      EqOn c'.mem c.mem (gateBytes w target env s) := by
  have hspace := w.sizes.space_eq
  have hrsp : c'.rsp = c.rsp := hbalanced.rsp.trans (BitVec.sub_add_cancel c.rsp 8#64)
  have hcell := hok.cells_targetArea.mono (subset_union_left (s := cell env w.callerPkey))
    (Ico_subset_Ico le_rfl
    (show (stackptr env w.targetPkey s).toNat - w.sizes.space ≤
      (stackptr env w.targetPkey s).toNat by omega))
  have hdisj := disjoint_union_left.mpr ⟨suspended_disjoint target hok, hcell⟩
  refine ⟨(congrArg BitVec.toNat hrsp).trans hcall.rsp, hbalanced.pkru.trans hcall.pkru, ?_⟩
  exact hbalanced.mem.trans ((callStep hok hcall).2.mono hdisj.subset_compl_right)

theorem afterCall_slots (hcall : AtCall (crossing w env s s₁) s₁ c)
    (hkept : EqOn c'.mem c.mem (gateBytes w target env s)) :
    stackptr env w.callerPkey c' = s₁.rsp ∧ (0 < w.sizes.returnSize →
      c'.load64 ((stackptr env w.targetPkey s).toNat - w.sizes.returnBytes) = s₁.regs .rdi) := by
  refine ⟨?_, fun hret => ?_⟩
  · rw [← (show stackptr env w.callerPkey c = s₁.rsp from hcall.saved)]
    exact stackptr_congr fun a ha => hkept (.inr ha)
  · rw [← (show c.load64 _ = s₁.regs .rdi from hcall.slot hret)]
    exact State.load64_congr fun a ha => hkept (.inl (.inr (by rw [if_pos hret]; exact ha)))

theorem frame_kept (hok : GateOk w env s) {d : State} (hx : (crossing w env s s₁).Ok)
    (hrsp : s₁.rsp.toNat = s.rsp.toNat - entryDepth target)
    (hcall : AtCall (crossing w env s s₁) s₁ c)
    (hkept : EqOn c'.mem c.mem (gateBytes w target env s))
    (hback : Returned (crossing w env s s₁) c' d) :
    EqOn d.mem s₁.mem (Ico (s.rsp.toNat - entryDepth target) (s.rsp.toNat + 8)) := by
  have hframe := frame_subset target hok
  have hend := argsEnd_eq w s
  have hstack : Ico (s.rsp.toNat - entryDepth target) (s.rsp.toNat + 8) ⊆
      (crossing w env s s₁).callerStack := by
    rw [← hrsp]
    exact Ico_subset_Ico (Nat.sub_le _ _) (by change s.rsp.toNat + 8 ≤ argsEnd w s; omega)
  intro a ha
  rw [hback.mem, hkept (.inl (.inl ha)), hcall.mem]
  · rintro (hcell | htarget)
    · exact disjoint_left.mp hok.cells_callerArea (.inl hcell) (hframe ha)
    · exact disjoint_left.mp hok.areas htarget (hframe ha)
  · rintro ((hcell | hscrub) | hbuffer)
    · exact disjoint_left.mp hok.cells_callerArea (.inr hcell) (hframe ha)
    · have hlow := hscrub.2
      rw [crossing_sp, hrsp] at hlow
      exact absurd hlow (not_lt.mpr ha.1)
    · exact disjoint_left.mp hx.both_returnBuffer (.inr (hstack ha)) hbuffer

theorem gate_entry (htarget : w.target = some target) (hok : GateOk w env s)
    (hfn : HelpersOk w target env (s.rsp.toNat - frameDepth) s.rsp.toNat (argsEnd w s) keep)
    (hdisj : Disjoint keep (Ico (s.rsp.toNat - frameDepth) s.rsp.toNat)) :
    Runs (exec env) (CallerStep env (pkruOf w.callerPkey) (s.rsp.toNat - frameDepth) s.rsp.toNat
      (argsEnd w s)) w.emitEntry s
      (EntryState w target (argsEnd w s) keep s) := by
  have hend := argsEnd_eq w s
  have hroom := hok.callerRoom
  have hmax := hok.callerTop
  exact runs_entry (by omega) (by omega) hdisj hok.pkru htarget hfn (by omega) le_rfl

theorem gate_toTarget (hkind : w.kind ≠ .indirectCallsite) (hok : GateOk w env s)
    (hkeep : cell env w.targetPkey ⊆ keep)
    (hentry : EntryState w target (argsEnd w s) keep s (entered w env s)) :
    Runs (exec env) (CrossStep (crossing w env s (entered w env s))) (w.emitToTarget (directArgs w))
      (entered w env s)
      (AtCall (crossing w env s (entered w env s)) (entered w env s)) := by
  have hroom := hok.callerRoom
  have hdepth := entryDepth_le target
  have htsp : stackptr env w.targetPkey (entered w env s) = stackptr env w.targetPkey s :=
    stackptr_congr (hentry.mem.mono (hkeep.trans subset_union_right))
  refine runs_toTarget (crossing_apart hok hentry.rsp) hkind rfl htsp
    (hentry.pkru.trans hok.pkru) ?_
  change (entered w env s).rsp.toNat + savedBytes + 8 + w.sizes.argBytes ≤
    s.rsp.toNat + 8 + w.sizes.argBytes
  rw [hentry.rsp]
  omega

theorem gate_once {x : Crossing} {lo hi top : Nat} {pkru : BitVec 32}
    (hentry : Along (exec env) (CallerStep env pkru lo hi top) w.emitEntry s)
    (hto : Along (exec env) (CrossStep x) (w.emitToTarget (directArgs w)) s₁) :
    ∀ i ∈ w.emitEntry ++ w.emitToTarget (directArgs w), i ≠ .call .target := by
  intro i hi
  rcases List.mem_append.mp hi with hi | hi
  · obtain ⟨t, ht⟩ := hentry.exists_of_mem hi
    rintro rfl
    obtain ⟨callee, hhelper, hcallee⟩ := ht.helper rfl
    cases hcallee
    cases hhelper
  · obtain ⟨t, ht⟩ := hto.exists_of_mem hi
    rintro rfl
    cases ht.noCall

theorem gate_firstAt_call (htarget : w.target = some target)
    (honce : ∀ i ∈ w.emitEntry ++ w.emitToTarget (directArgs w), i ≠ .call .target) :
    firstAt (exec env) (fun i => i == .call .target) (gateCode w) s = some (atCall w env s) := by
  have hcode : gateCode w = (w.emitEntry ++ w.emitToTarget (directArgs w)) ++ .call .target ::
      (w.emitToCaller ++ w.emitExit) := by
    simp only [gateCode, emitFnCall_eq htarget, List.append_assoc, List.cons_append,
      List.nil_append]
  rw [hcode, firstAt_append (fun i hi => beq_eq_false_iff_ne.mpr (honce i hi)) (by simp),
    run_append]
  rfl

theorem gate_run (htarget : w.target = some target) (hkind : w.kind ≠ .indirectCallsite)
    (hok : GateOk w env s)
    (hfn : HelpersOk w target env (s.rsp.toNat - frameDepth) s.rsp.toNat (argsEnd w s) keep)
    (hkeep : cell env w.targetPkey ⊆ keep)
    (hdisj : Disjoint keep (Ico (s.rsp.toNat - frameDepth) s.rsp.toNat))
    (hbuffer : BufferOk w env s ((entered w env s).regs .rdi))
    (hbalanced : AtCall (crossing w env s (entered w env s)) (entered w env s) (atCall w env s) →
      Balanced (gateBytes w target env s) ((atCall w env s).push env.retAddr) (afterCall w env s)) :
    GateRun w target env keep s := by
  have hend := argsEnd_eq w s
  have hroom := hok.callerRoom
  have hmax := hok.callerTop
  have hdepth := entryDepth_le target
  -- the entry
  have hentry := gate_entry htarget hok hfn hdisj
  have h₁ : EntryState w target (argsEnd w s) keep s (entered w env s) := hentry.2
  have hx : (crossing w env s (entered w env s)).Ok := crossing_ok hok hbuffer h₁.rsp
  -- the call
  have hto := gate_toTarget hkind hok hkeep h₁
  have hcall : AtCall (crossing w env s (entered w env s)) (entered w env s) (atCall w env s) :=
    hto.2
  obtain ⟨hconf, hpush⟩ := callStep hok hcall
  obtain ⟨hrsp', hpkru', hkept⟩ := afterCall_facts hok hcall (hbalanced hcall)
  obtain ⟨hsaved', hslot'⟩ := afterCall_slots hcall hkept
  -- the way back
  have hfrom := runs_toCaller hx hrsp' hpkru' hsaved' hslot'
  have hback : Returned (crossing w env s (entered w env s)) (afterCall w env s)
    (returned w env s) := hfrom.2
  have hframe := frame_kept hok hx h₁.rsp hcall hkept hback
  -- the exit
  have hsaved : SavedBelow (returned w env s).mem s.regs s.rsp.toNat calleeSaved := by
    have hbytes : savedBytes = 8 * calleeSaved.length := rfl
    exact h₁.saved.congr (by omega) (hframe.mono (Ico_subset_Ico (by omega) (by omega)))
  obtain ⟨v, hargs⟩ : ∃ v, 0 < target.postConditions →
      SavedBelow (returned w env s).mem v (s.rsp.toNat - savedBytes) intParamRegOrder := by
    by_cases hpost : 0 < target.postConditions
    · obtain ⟨v, hv⟩ := h₁.args hpost
      have hlen : argsBytes = 8 * intParamRegOrder.length := rfl
      have hentryDepth : entryDepth target = savedBytes + argsBytes := by
        rw [entryDepth, if_neg (by omega)]
      exact ⟨v, fun _ => hv.congr (by omega)
        (hframe.mono (Ico_subset_Ico (by omega) (by omega)))⟩
    · exact ⟨s.regs, fun h => absurd h hpost⟩
  have hexit := @runs_exit env (pkruOf w.callerPkey) (s.rsp.toNat - frameDepth) s.rsp.toNat
    (argsEnd w s) keep (returned w env s) (by omega) (by omega) hdisj hback.pkru w target htarget
    hfn s.rsp.toNat s.regs v (by omega) le_rfl (by omega) (by omega)
    ((congrArg BitVec.toNat hback.rsp).trans h₁.rsp) hsaved hargs
  obtain ⟨hrsp, hrip, hregs, hpkru, hmem, hplain⟩ := hexit.2
  refine ⟨h₁, hcall, hback, hrsp, ?_, hregs, hpkru.trans hok.pkru.symm, hmem, hplain, ?_,
    gate_once hentry.1 hto.1⟩
  · have hreturn : EqOn (returned w env s).mem s.mem (Ico s.rsp.toNat (s.rsp.toNat + 8)) :=
      fun a ha => by
      rw [hframe ⟨by have := ha.1; omega, ha.2⟩, h₁.mem (.inl ⟨ha.1, by have := ha.2; omega⟩)]
    exact hrip.trans (State.load64_congr hreturn)
  · have hstep : GateStep w env s (entered w env s) w.emitFnCall (atCall w env s) := by
      rw [emitFnCall_eq htarget]
      exact .call rfl hcall.pkru hconf
    rw [along_gateCode]
    exact ⟨hentry.1.mono fun i t _ h => .caller h, hto.1.mono fun i t _ h => .cross h, hstep,
      hfrom.1.mono fun i t _ h => .cross h, hexit.1.mono fun i t _ h => .caller h⟩

theorem TargetOk.balanced (h : TargetOk w target env s) (htarget : w.target = some target)
    (hok : GateOk w env s) (hcall : AtCall (crossing w env s s₁) s₁ (atCall w env s)) :
    Balanced (gateBytes w target env s) ((atCall w env s).push env.retAddr)
      (afterCall w env s) := by
  have hroom := hok.targetRoom
  have hdepth := w.targetDepth_eq
  have hrsp : (atCall w env s).rsp.toNat = (stackptr env w.targetPkey s).toNat - w.sizes.space :=
    hcall.rsp
  rw [afterCall_eq htarget]
  refine (h ((atCall w env s).push env.retAddr) ?_).balanced
  rw [State.push_rsp (by omega)]
  omega

theorem GateRun.firstAt_call (hrun : GateRun w target env keep s)
    (htarget : w.target = some target) :
    firstAt (exec env) (fun i => i == .call .target) (gateCode w) s = some (atCall w env s) :=
  gate_firstAt_call htarget hrun.once

theorem GateRun.stackArgs (hrun : GateRun w target env keep s) (hok : GateOk w env s)
    (hpost : target.postConditions = 0) {i : Nat} (hi : i < w.sizes.argBytes) :
    (atCall w env s).mem ((atCall w env s).rsp.toNat + i) = s.mem (s.rsp.toNat + 8 + i) := by
  have hdepth : entryDepth target = savedBytes := by rw [entryDepth, if_pos hpost, Nat.add_zero]
  have hframe : frameDepth = savedBytes + argsBytes + 16 := rfl
  have hcaller := hok.callerRoom
  have hend := argsEnd_eq w s
  have hrsp : (atCall w env s).rsp.toNat = (stackptr env w.targetPkey s).toNat - w.sizes.space :=
    hrun.call.rsp
  have hcopy : (atCall w env s).mem ((stackptr env w.targetPkey s).toNat - w.sizes.space + i) =
    (entered w env s).mem ((entered w env s).rsp.toNat + savedBytes + 8 + i) :=
      hrun.call.stackArgs i hi
  rw [hrsp, hcopy, hrun.entry.rsp, hdepth, show s.rsp.toNat - savedBytes + savedBytes + 8 + i =
    s.rsp.toNat + 8 + i by omega]
  exact hrun.entry.mem (.inl ⟨by omega, by omega⟩)

theorem GateRun.returnRegs (hrun : GateRun w target env keep s) (hpost : target.postConditions = 0)
    {r : ArgReg} (hr : r ∈ returnRegs) :
    r.value (gateEnd w env s) = if w.targetPkey = 0 ∨ r ∈ savedRegs w.rets false then
      (if 0 < w.sizes.returnSize ∧ r = .gpr .rax then ((entered w env s).regs .rdi).toNat
        else r.value (afterCall w env s))
      else 0 := by
  have hothers : ∀ r ∈ Rewriter.returnRegs, ∀ r' ∈ Reg.rsp :: calleeSaved, r ≠ .gpr r' := by decide
  rw [keeps_value (hrun.exit hpost).2 (hothers r hr)]
  exact hrun.back.regs r hr

theorem GateStep.ne_callIndirect (h : GateStep w env s s₁ i t) (r : Reg) : i ≠ .callIndirect r := by
  rintro rfl
  cases h with
  | caller h =>
    obtain ⟨callee, -, hcallee⟩ := h.helper rfl
    cases hcallee
  | cross h => cases h.noCall
  | call hi => cases hi

theorem exec_spares {R : Set Nat} {a : Nat} (h : Confined env R {a}ᶜ i t)
    (hcalls : ∀ callee c, (env.function callee c).mem a = c.mem a)
    (hindirect : ∀ r, i ≠ .callIndirect r) :
    (exec env i t).mem a = t.mem a := by
  have hcompl : a ∈ ({a}ᶜ : Set Nat)ᶜ := by simp
  by_cases hcall : i.isCall = true
  · cases i
    case call callee =>
      have hpush : (t.push env.retAddr).mem a = t.mem a := by
        refine ByteMemory.write_eqOn t.mem _ 8 _ fun ha => ?_
        exact h ⟨(t.rsp - 8#64).toNat, 8, true⟩ (List.mem_singleton.mpr rfl) ha rfl
      rw [← hpush]
      cases callee
      case scrubRegisters => cases hcall
      all_goals exact hcalls _ _
    case callIndirect r => exact absurd rfl (hindirect r)
    all_goals cases hcall
  · exact h.exec_eqOn (Bool.eq_false_iff.mpr hcall) hcompl

theorem cell_disjoint_entryArea (hok : GateOk w env s) :
    Disjoint (cell env w.targetPkey) (Ico (s.rsp.toNat - frameDepth) s.rsp.toNat) :=
  hok.cells_callerArea.mono subset_union_right (entryArea_subset w s)

theorem Obeys.entryState (h : Obeys w target env s) (htarget : w.target = some target)
    (hok : GateOk w env s) :
    EntryState w target (argsEnd w s) (cell env w.targetPkey) s (entered w env s) :=
  (gate_entry htarget hok h.helpers (cell_disjoint_entryArea hok)).2

theorem Obeys.gateRun (h : Obeys w target env s) (htarget : w.target = some target)
    (hkind : w.kind ≠ .indirectCallsite) (hok : GateOk w env s)
    (hbuffer : BufferOk w env s ((entered w env s).regs .rdi)) :
    GateRun w target env (cell env w.targetPkey) s :=
  gate_run htarget hkind hok h.helpers subset_rfl (cell_disjoint_entryArea hok) hbuffer fun hcall =>
    h.target.balanced htarget hok hcall

end Run

end Ia2.Gate
