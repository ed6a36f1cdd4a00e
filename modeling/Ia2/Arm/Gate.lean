import Ia2.Arm.Locations

/-!
# AArch64 gates

The code of a direct wrapper in the pieces between which it changes stacks, the states of a run
between them, and the sizes that the code is made of.
-/

namespace Ia2.Arm

open StraightLine
open Rewriter (ArgLocation Slot TargetInfo registryChecks)
open Rewriter.ArgLocation (register indirect)

/-- A wrapper of a named function that calls it directly and has no type checks. -/
structure IsDirect (w : Wrapper) (target : TargetInfo) : Prop where
  named : w.target = some target
  wrapperSig : w.wrapperSig = none
  kind : w.kind = .direct
  checks : (registryChecks target w.api).2 = []

/-- The arguments of a direct wrapper. -/
def directArgs (w : Wrapper) : List Instr := emitCopies w.sizes w.args w.sizes.argSize

def directCode (w : Wrapper) : List Instr :=
  w.emitEntry ++ emitSwitchStacks w.callerPkey w.targetPkey ++ w.emitToTarget (directArgs w) ++
    [w.emitFnCall] ++
    w.emitFromTarget ++ emitSwitchStacks w.targetPkey w.callerPkey ++ w.emitExit

variable {target : TargetInfo} {w : Wrapper}

theorem IsDirect.emitAsmWrapper_eq (h : IsDirect w target) :
    w.emitAsmWrapper = some (directCode w) := by
  have hchecks : w.hasTypeChecks = false := by
    rw [Wrapper.hasTypeChecks, h.named]
    simp [h.checks]
  rw [Wrapper.emitAsmWrapper, hchecks, h.wrapperSig]
  rfl

theorem IsDirect.emitFnCall_eq (h : IsDirect w target) :
    w.emitFnCall = .bl .target := by
  rw [Wrapper.emitFnCall, h.named]

theorem IsDirect.emitEntry_eq (h : IsDirect w target) :
    w.emitEntry = emitPrologue ++ emitPreConditions target := by
  rw [Wrapper.emitEntry, h.named]

theorem IsDirect.emitExit_eq (h : IsDirect w target) :
    w.emitExit = emitScrubRegs w.rets false ++ emitSetReturnPkru w.callerPkey ++
      emitPostConditions target ++ emitEpilogue ++ [.ret] := by
  rw [Wrapper.emitExit, h.named]

theorem IsDirect.emitToTarget_eq (h : IsDirect w target) (copyArgs : List Instr) :
    w.emitToTarget copyArgs = copyArgs ++ emitScrubRegs w.args false ++
      emitSetPkru w.targetPkey := by
  rw [Wrapper.emitToTarget, decide_eq_false (by simp [h.kind])]

/-! ### The states of a run -/

section States

variable (w : Wrapper) (env : Env) (s : State)

/-- Before the switch to the target's stack. -/
@[irreducible] def entered : State := run (exec env) w.emitEntry s

/-- On the target's stack: `x11` has the stack pointer that was loaded, `x12` the one that was
saved. -/
@[irreducible] def switched :
    State := run (exec env) (emitSwitchStacks w.callerPkey w.targetPkey) (entered w env s)

/-- At the call of the target. -/
@[irreducible] def atCall :
    State := run (exec env) (w.emitToTarget (directArgs w)) (switched w env s)

/-- After the target returned. -/
@[irreducible] def afterCall : State := exec env w.emitFnCall (atCall w env s)

@[irreducible] def freed : State := run (exec env) w.emitFromTarget (afterCall w env s)

/-- Back on the caller's stack. -/
@[irreducible] def switchedBack :
    State := run (exec env) (emitSwitchStacks w.targetPkey w.callerPkey) (freed w env s)

theorem along_directCode {P : Instr → State → Prop} : Along (exec env) P (directCode w) s ↔
    Along (exec env) P w.emitEntry s ∧
    Along (exec env) P (emitSwitchStacks w.callerPkey w.targetPkey) (entered w env s) ∧
    Along (exec env) P (w.emitToTarget (directArgs w)) (switched w env s) ∧
    P w.emitFnCall (atCall w env s) ∧
    Along (exec env) P w.emitFromTarget (afterCall w env s) ∧
    Along (exec env) P (emitSwitchStacks w.targetPkey w.callerPkey) (freed w env s) ∧
    Along (exec env) P w.emitExit (switchedBack w env s) := by
  simp only [directCode, along_append, run_append, run, Along, and_true, and_assoc, switchedBack,
    freed, afterCall, atCall, switched,
    entered]

end States

/-! ### Switching stacks -/

def switchLoads (oldPkey newPkey : Nat) : List Instr :=
  [.mrsTpidr (.x 9)] ++ emitCellAddr oldPkey ++ [.mov (.x 12) .sp, .str .x (.x 12) (.x 10) 0] ++
    emitCellAddr newPkey ++
    [.ldr .x (.x 11) (.x 10) 0]

theorem emitSwitchStacks_eq (oldPkey newPkey : Nat) :
    emitSwitchStacks oldPkey newPkey = switchLoads oldPkey newPkey ++ [.mov .sp (.x 11)] := by
  simp [emitSwitchStacks, switchLoads]

theorem run_cellAddr {env : Env} (pkey : Nat) {s : State} (h : s.regs (.x 9) = env.tpidr) :
    ∃ v, low v = cellAddr env pkey ∧ run (exec env) (emitCellAddr pkey) s = s.set (.x 10) v := by
  unfold emitCellAddr
  split
  · exact ⟨_, low_orrTag (env.tpoff pkey + env.tpidr) pkey, by simp [run, exec, h, Env.tpoff]⟩
  · exact ⟨env.tpoff pkey + env.tpidr, rfl, by simp [run, exec, h, Env.tpoff]⟩

structure Switched (env : Env) (oldPkey newPkey : Nat) (s s' : State) : Prop where
  sp : s'.sp = s'.regs (.x 11)
  loaded : s'.regs (.x 11) = stackptr env newPkey (s.store (cellAddr env oldPkey) 8 s.sp.toNat)
  saved : s'.regs (.x 12) = s.sp
  mem : s'.mem = s.mem.write (cellAddr env oldPkey) 8 s.sp.toNat
  regs : ∀ r ∉ [Reg.x 9, .x 10, .x 11, .x 12, .sp], s'.regs r = s.regs r
  vregs : s'.vregs = s.vregs

theorem run_switchStacks (env : Env) (oldPkey newPkey : Nat) (s : State) :
    Switched env oldPkey newPkey s (run (exec env) (emitSwitchStacks oldPkey newPkey) s) := by
  obtain ⟨v, hv, hold⟩ := @run_cellAddr env oldPkey (s.set (.x 9) env.tpidr) (by simp)
  let s₁ := (((s.set (.x 9) env.tpidr).set (.x 10) v).set (.x 12) s.sp).store (cellAddr env oldPkey)
    8 s.sp.toNat
  have hstore : run (exec env) [.mov (.x 12) .sp, .str .x (.x 12) (.x 10) 0]
      ((s.set (.x 9) env.tpidr).set (.x 10) v) = s₁ := by
    simp [s₁, run, exec, State.addr, hv, Width.bytes]
  obtain ⟨v', hv', hnew⟩ := @run_cellAddr env newPkey s₁ (by simp [s₁])
  have hrun : run (exec env) (emitSwitchStacks oldPkey newPkey) s =
      ((s₁.set (.x 10) v').set (.x 11) (s₁.load64 (cellAddr env newPkey))).set .sp
      (s₁.load64 (cellAddr env newPkey)) := by
    simp only [emitSwitchStacks, run_append]
    rw [show run (exec env) [.mrsTpidr (.x 9)] s = s.set (.x 9) env.tpidr from rfl, hold,
      hstore, hnew]
    simp [run, exec, State.addr, hv', Width.bytes, State.load64]
  rw [hrun]
  refine ⟨by simp, by simp [s₁, stackptr, State.load64], by simp [s₁], rfl, fun r hr => ?_, rfl⟩
  simp only [List.mem_cons, List.not_mem_nil, or_false, not_or] at hr
  simp [s₁, hr]

theorem switched_spec (w : Wrapper) (env : Env) (s : State) :
    Switched env w.callerPkey w.targetPkey (entered w env s) (switched w env s) := by
  rw [switched]
  exact run_switchStacks _ _ _ _

theorem switchedBack_spec (w : Wrapper) (env : Env) (s : State) :
    Switched env w.targetPkey w.callerPkey (freed w env s) (switchedBack w env s) := by
  rw [switchedBack]
  exact run_switchStacks _ _ _ _

/-! ### Sizes -/

namespace StackSizes

variable (sizes : StackSizes)

def returnBytes :
    Nat := if 0 < sizes.returnSize then sizes.returnSize + 8 + sizes.returnPadding else 0

def indirectBytes : Nat := sizes.indirectSize + sizes.indirectPadding

end StackSizes

variable (w : Wrapper)

theorem Wrapper.total_eq :
    w.sizes.total = w.sizes.argBytes + w.sizes.returnBytes + w.sizes.indirectBytes := by
  have hpadding : w.sizes.returnSize = 0 → w.sizes.returnPadding = 0 :=
    fun h => if_neg fun h' => absurd h'.1 (by
    change ¬ 0 < w.sizes.returnSize
    omega)
  rw [StackSizes.total, StackSizes.argBytes, StackSizes.returnBytes, StackSizes.indirectBytes]
  split <;> omega

theorem Wrapper.returnBytes_mod : w.sizes.returnBytes % 16 = 0 := by
  rw [StackSizes.returnBytes]
  split
  case isFalse => rfl
  case isTrue h =>
    have hpadding : w.sizes.returnPadding =
      if 0 < w.sizes.returnSize ∧ (8 + w.sizes.returnSize) % 16 ≠ 0
      then 16 - (8 + w.sizes.returnSize) % 16 else 0 := rfl
    split at hpadding <;> omega

theorem Wrapper.indirectBytes_mod : w.sizes.indirectBytes % 16 = 0 := by
  have hpadding : w.sizes.indirectPadding = if w.sizes.indirectSize % 16 ≠ 0
    then 16 - w.sizes.indirectSize % 16 else 0 := rfl
  rw [StackSizes.indirectBytes]
  split at hpadding <;> omega

theorem Wrapper.argBytes_mod : w.sizes.argBytes % 8 = 0 := by
  have hpadding : w.sizes.argPadding = if w.sizes.argSize % 8 ≠ 0 then 8 - w.sizes.argSize % 8
    else 0 := rfl
  rw [StackSizes.argBytes]
  split at hpadding <;> omega

/-! ### Results in memory -/

section Results

variable {w} {size align : Nat}

theorem rets_indirect (hret : w.sig.ret = [indirect size align]) :
    w.rets = [⟨indirect size align, none⟩] := by
  have hround : ∀ st, allocateReturn st (indirect size align) =
      { st with args := st.args ++ [⟨indirect size align, none⟩] } := fun st =>
    if_pos (.inr rfl)
  rw [Wrapper.rets, allocateReturnLocations, hret, List.foldl_cons, hround]
  rfl

theorem returnSize_pos (hret : w.sig.ret = [indirect size align]) : 0 < w.sizes.returnSize := by
  have hsize : w.sizes.returnSize = stackReturnSize w.rets := rfl
  have hslots := w.sig.ret_slots
  rw [hsize, rets_indirect hret]
  rw [hret] at hslots
  cases hslots with
  | memory h => exact h
  | registers h => cases (h _ (List.mem_singleton_self _)).2

theorem allocateReturn_registers {st : ReturnState}
    (hst : ∀ loc ∈ st.args, loc.isStack = false ∧ loc.isIndirect = false) {slot : ArgLocation}
    (hslot : Slot slot) (hind : slot.isIndirect = false) :
    ∀ loc ∈ (allocateReturn st slot).args, loc.isStack = false ∧ loc.isIndirect = false := by
  have hadd : ∀ locs : List Location, (∀ loc ∈ locs, loc.isStack = false ∧ loc.isIndirect = false) →
      ∀ loc ∈ st.args ++ locs, loc.isStack = false ∧ loc.isIndirect = false := fun locs hlocs =>
    List.forall_mem_append.mpr ⟨hst, hlocs⟩
  cases hslot with
  | integral hn =>
    have hround : (allocateReturn st (register .integral _)).args =
        st.args ++ [⟨register .integral _, intReg st.intsUsed⟩] :=
      congrArg ReturnState.args (if_pos (.inl hn))
    rw [hround]
    exact hadd _ (List.forall_mem_singleton.mpr ⟨rfl, rfl⟩)
  | wide =>
    have hround : (allocateReturn st (register .integral 16)).args =
        st.args ++ [half st.intsUsed, half (st.intsUsed + 1)] ++
        [⟨register .integral 16, floatReg st.floatsUsed⟩] := rfl
    rw [hround, List.append_assoc]
    apply hadd
    simp [half, Location.isStack, Location.isIndirect, ArgLocation.isStack,
      ArgLocation.isIndirect, register]
  | float n => exact hadd _ (List.forall_mem_singleton.mpr ⟨rfl, rfl⟩)
  | indirect => cases hind

theorem returnSize_eq_zero (hret : ∀ slot ∈ w.sig.ret, Slot slot ∧ slot.isIndirect = false) :
    w.sizes.returnSize = 0 := by
  have hrets : ∀ (slots : List ArgLocation) (st : ReturnState),
    (∀ slot ∈ slots, Slot slot ∧ slot.isIndirect = false) →
      (∀ loc ∈ st.args, loc.isStack = false ∧ loc.isIndirect = false) →
      ∀ loc ∈ (slots.foldl allocateReturn st).args,
      loc.isStack = false ∧ loc.isIndirect = false := by
    intro slots
    induction slots with
    | nil => exact fun st _ hst => hst
    | cons slot slots ih =>
      intro st hslots hst
      rw [List.forall_mem_cons] at hslots
      exact ih _ hslots.2 (allocateReturn_registers hst hslots.1.1 hslots.1.2)
  have hnone : w.rets.filter (fun loc => loc.isStack || loc.isIndirect) = [] := by
    refine List.filter_eq_nil_iff.mpr fun loc hloc => ?_
    obtain ⟨hstack, hind⟩ := hrets w.sig.ret {} hret (fun _ h => absurd h List.not_mem_nil) loc hloc
    simp [hstack, hind]
  have hsize : w.sizes.returnSize =
    ((w.rets.filter fun loc => loc.isStack || loc.isIndirect).map Location.size).sum := rfl
  rw [hsize, hnone]
  rfl

theorem initialParams_length (w : Wrapper) :
    (initialParams w.sig.ret).args.length = if 0 < w.sizes.returnSize then 1 else 0 := by
  have hslots := w.sig.ret_slots
  generalize hret : w.sig.ret = ret at hslots
  cases hslots with
  | memory =>
    rw [if_pos (returnSize_pos hret)]
    rfl
  | registers h =>
    have hany : (ret.any fun slot => slot.isStack || slot.isIndirect) = false := by
      rw [List.any_eq_false]
      intro slot hslot
      obtain ⟨hkind, hind⟩ := h slot hslot
      cases hkind with
      | indirect => cases hind
      | _ => simp [register, ArgLocation.isStack, ArgLocation.isIndirect]
    rw [returnSize_eq_zero (by rw [hret]; exact h), initialParams, hany]
    rfl

end Results

theorem Wrapper.indirectBytes_eq_zero :
    w.sizes.indirectBytes = 0 ↔ ∀ arg ∈ w.sig.args, arg.isIndirect = false := by
  have hsize : w.sizes.indirectSize =
    ((w.args.filter Location.isIndirect).map (indirectSpace w.sizes.argSize)).sum := rfl
  have hpadding : w.sizes.indirectPadding = if w.sizes.indirectSize % 16 ≠ 0
    then 16 - w.sizes.indirectSize % 16 else 0 := rfl
  have hzero : w.sizes.indirectBytes = 0 ↔ w.sizes.indirectSize = 0 := by
    rw [StackSizes.indirectBytes]
    split at hpadding <;> omega
  rw [hzero, hsize, List.sum_eq_zero_iff_forall_eq_nat]
  refine ⟨fun h arg harg => ?_, fun h n hn => ?_⟩
  · by_contra hind
    obtain ⟨loc, hloc, hind', -⟩ := indirect_location harg (by simpa using hind)
    have hspace := h _ (List.mem_map_of_mem (List.mem_filter.mpr ⟨hloc, hind'⟩))
    have hpos := (indirect_facts hloc hind').1
    simp only [indirectSpace] at hspace
    omega
  · obtain ⟨loc, hloc, -⟩ := List.mem_map.mp hn
    obtain ⟨hloc, hind⟩ := List.mem_filter.mp hloc
    obtain ⟨arg, hg, harg⟩ := mem_args_of_isIndirect hloc hind
    exact absurd harg (by simp [h arg (fst_mem_of_mem_paramGroups hg)])

end Ia2.Arm
