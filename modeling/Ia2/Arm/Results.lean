import Ia2.Arm.Crossing

/-!
# Results in memory on AArch64

The caller passes the address for a result in `x8`. A gate saves it on the target's stack, gives the
target memory there, and after the call copies the result to the caller. By then it has freed the
stack arguments, and the offsets of the copy are no longer those that the address and the result
were stored at.
-/

namespace Ia2.Arm

open StraightLine Set
open Rewriter (TargetInfo ArgLocation)
open Rewriter.ArgLocation (register indirect)

variable {w : Wrapper} {target : TargetInfo} {env : Env} {s : State}

/-! ### Any target -/

/-- The same surroundings with another target. -/
def Env.withTarget (env : Env) (f : State → State) : Env :=
  { env with function := fun callee => if callee = .target then f else env.function callee }

variable {i : Instr}

theorem exec_withTarget (f : State → State) (hi : i ≠ .bl .target) :
    exec (env.withTarget f) i = exec env i := by
  funext s
  cases i
  case bl callee =>
    cases callee
    case target => exact absurd rfl hi
    all_goals rfl
  all_goals rfl

theorem ne_target_of_isCall (h : i.isCall = false) : i ≠ .bl .target := by
  rintro rfl
  cases h

theorem entered_withTarget (hdirect : IsDirect w target) (f : State → State) :
    entered w (env.withTarget f) s = entered w env s := by
  have hentry : ∀ i ∈ w.emitEntry, i ≠ .bl .target := by
    rw [hdirect.emitEntry_eq, List.forall_mem_append]
    exact ⟨by decide, List.forall_mem_map.mpr fun _ _ => by simp⟩
  rw [entered, entered, run_congr fun i hi => exec_withTarget f (hentry i hi)]

theorem switched_withTarget (hdirect : IsDirect w target) (f : State → State) :
    switched w (env.withTarget f) s = switched w env s := by
  have hswitch := fun i hi => ne_target_of_isCall
    (switchStacks_isCall w.callerPkey w.targetPkey i hi)
  rw [switched, switched, entered_withTarget hdirect,
    run_congr fun i hi => exec_withTarget f (hswitch i hi)]

theorem atCall_withTarget (hdirect : IsDirect w target) (f : State → State) :
    atCall w (env.withTarget f) s = atCall w env s := by
  have hto : ∀ i ∈ w.emitToTarget (directArgs w), i ≠ .bl .target := by
    rw [hdirect.emitToTarget_eq]
    simp only [List.forall_mem_append]
    exact ⟨⟨fun i hi => ne_target_of_isCall (emitCopies_plain w _ i hi).2,
      fun i hi => ne_target_of_isCall (scrubRegs_isCall _ _ i hi)⟩,
      List.forall_mem_singleton.mpr (by simp)⟩
  rw [atCall, atCall, switched_withTarget hdirect,
    run_congr fun i hi => exec_withTarget f (hto i hi)]

/-! ### From the call -/

def addressLoaded (w : Wrapper) (c : State) : State :=
  (c.set .sp (c.sp + BitVec.ofNat 64 w.sizes.argBytes)).set (.x 8)
    (c.load64
      (low (c.sp + BitVec.ofNat 64 w.sizes.argBytes + BitVec.ofNat 64 w.sizes.savedPtrOffset)))

def copyResult (w : Wrapper) :
    List Instr := emitMemcpy w.sizes.returnSize (.x 8) .sp (.x 9) w.sizes.returnStart

theorem run_freeStackSpace (n : Nat) (c : State) :
    run (exec env) (emitFreeStackSpace n) c = c.set .sp (c.sp + BitVec.ofNat 64 n) ∧
      written env (emitFreeStackSpace n) c = ∅ := by
  unfold emitFreeStackSpace
  split
  case isTrue h =>
    rw [h, show c.sp + BitVec.ofNat 64 0 = c.sp from BitVec.add_zero _, State.set_self]
    exact ⟨rfl, rfl⟩
  · exact ⟨rfl, union_empty _⟩

theorem fromTarget_copies (hret : 0 < w.sizes.returnSize) (c : State) :
    (run (exec env) w.emitFromTarget c).mem =
      (run (exec env) (copyResult w) (addressLoaded w c)).mem ∧
      written env w.emitFromTarget c = written env (copyResult w) (addressLoaded w c) := by
  have hload : run (exec env) [.ldr .x (.x 8) .sp w.sizes.savedPtrOffset]
    (c.set .sp (c.sp + BitVec.ofNat 64 w.sizes.argBytes)) =
      addressLoaded w c := by
    simp [run, exec, addressLoaded, State.addr, State.load64, Width.bytes]
  obtain ⟨hfree, hfree'⟩ := @run_freeStackSpace env w.sizes.argBytes c
  rw [Wrapper.emitFromTarget, emitCopyStackReturns, if_pos hret]
  simp only [run_append, written_append, hfree, hfree', hload, empty_union]
  refine ⟨rfl, ?_⟩
  simp [written, stores, copyResult]

theorem written_switchStacks (oldPkey newPkey : Nat) (c : State) :
    written env (emitSwitchStacks oldPkey newPkey) c = cell env oldPkey := by
  obtain ⟨v, hv, hold⟩ := @run_cellAddr env oldPkey (c.set (.x 9) env.tpidr) (by simp)
  have hcell : ∀ pkey c', written env (emitCellAddr pkey) c' = ∅ := fun pkey => written_eq_empty (by
    unfold emitCellAddr
    split <;> simp [stores])
  simp only [emitSwitchStacks, written_append, run_append, hcell, union_empty]
  rw [show run (exec env) [.mrsTpidr (.x 9)] c = c.set (.x 9) env.tpidr from rfl, hold]
  simp [written, stores, exec, State.addr, hv, cell, Width.bytes]

theorem switchedBack_eqOn :
    EqOn (switchedBack w env s).mem (freed w env s).mem (cell env w.targetPkey)ᶜ := by
  rw [(switchedBack_spec w env s).mem]
  exact ByteMemory.write_eqOn _ _ _ _

/-! ### Signatures with a result in memory -/

section Signature

variable {size align : Nat} (hret : w.sig.ret = [indirect size align])
include hret

theorem x8_mem_regs64bit : (8 : Fin 31) ∈ regs64bit w.args false := by
  have hargs : w.args = ⟨register .integral 8, some (.x 8)⟩ ::
      (argGroups w.sig).flatMap Prod.snd := by
    rw [Wrapper.args, args_eq, hret]
    rfl
  rw [hargs]
  exact List.mem_cons_self

theorem written_exit (hdirect : IsDirect w target) (c : State) : written env w.emitExit c = ∅ := by
  refine written_eq_empty ?_ c
  rw [hdirect.emitExit_eq, rets_indirect hret]
  simp only [List.forall_mem_append]
  exact ⟨⟨⟨⟨by simp [emitScrubRegs, regs64bit, regs128bit, savePairs, restorePairs, stores],
    List.forall_mem_singleton.mpr fun _ => rfl⟩,
    List.forall_mem_map.mpr fun _ _ _ => rfl⟩, by simp [emitEpilogue, preservedRegisters, stores]⟩,
    List.forall_mem_singleton.mpr fun _ => rfl⟩

end Signature

/-! ### Results reach the caller -/

/-- The target returns with its stack pointer, and leaves the saved address alone. -/
structure TargetReturns (w : Wrapper) (c c' : State) : Prop where
  sp : c'.sp = c.sp
  address :
    EqOn c'.mem c.mem (Ico (low c.sp + w.sizes.savedPtrOffset) (low c.sp + w.sizes.returnStart))

/-- The memory that `x8` gives for a result. -/
def resultBuffer (w : Wrapper) (s : State) :
    Set Nat := Ico (low (s.regs (.x 8))) (low (s.regs (.x 8)) + w.sizes.returnSize)

/-- Whatever the target does, the gate copies its result to the memory that the caller gave, and
writes no other memory but the saved stack pointer of the target. -/
def ReturnsResult (w : Wrapper) (env : Env) (s : State) : Prop :=
  w.emitAsmWrapper = some (directCode w) ∧
    ∀ f : State → State, TargetReturns w (atCall w env s)
    (f ((atCall w env s).set (.x 30) env.retAddr)) →
      (∀ i < w.sizes.returnSize,
        (switchedBack w (env.withTarget f) s).mem (low (s.regs (.x 8)) + i) =
        (afterCall w (env.withTarget f) s).mem (low ((atCall w env s).regs (.x 8)) + i)) ∧
      written (env.withTarget f)
      (w.emitFromTarget ++ emitSwitchStacks w.targetPkey w.callerPkey ++ w.emitExit)
        (afterCall w (env.withTarget f) s) ⊆ resultBuffer w s ∪ cell env w.targetPkey

structure ResultOk (w : Wrapper) (env : Env) (s : State) (b : Nat) : Prop where
  room : low ((switched w env s).regs (.x 11)) = b + w.sizes.total
  scrub : scrubBytes w.args false ≤ b
  copies : ∀ p ∈ w.copies, b + p.2 + p.1.size ≤ 2 ^ 56
  buffer : Disjoint (resultBuffer w s) (Ico b (b + w.sizes.total) ∪ cell env w.targetPkey)
  /-- What the pre-conditions leave in `x8`. -/
  entered : low ((entered w env s).regs (.x 8)) + w.sizes.returnSize ≤ 2 ^ 56 ∧
    Disjoint (resultBuffer w (entered w env s)) (Ico b (b + w.sizes.total))
  frame : low ((switched w env s).regs (.x 12)) ∉ resultBuffer w s ∪ cell env w.targetPkey

def answering (w : Wrapper) (b : Nat) (v : BitVec 8) (c : State) : State :=
  { c with
    mem := fun a => if a = b + w.sizes.returnStart then v + 1
      else if b + w.sizes.returnStart < a ∧ a < b + w.sizes.returnStart + w.sizes.returnSize then v
        else c.mem a }

section Answering

variable {b : Nat} {v : BitVec 8}

theorem answering_first (c : State) :
    (answering w b v c).mem (b + w.sizes.returnStart) = v + 1 := if_pos rfl

theorem answering_rest {k : Nat} (hpos : 0 < k) (hk : k < w.sizes.returnSize) (c : State) :
    (answering w b v c).mem (b + w.sizes.returnStart + k) = v :=
  (if_neg (by omega)).trans (if_pos (by omega))

theorem answering_of_notMem (hpos : 0 < w.sizes.returnSize) {a : Nat}
    (ha : a ∉ Ico (b + w.sizes.returnStart) (b + w.sizes.returnStart + w.sizes.returnSize))
    (c : State) :
    (answering w b v c).mem a = c.mem a := by
  rw [mem_Ico] at ha
  exact (if_neg (by omega)).trans (if_neg (by omega))

end Answering

section Addresses

variable {size align b : Nat} (hdirect : IsDirect w target)
  (hroom : low ((switched w env s).regs (.x 11)) = b + w.sizes.total)
    (hscrub : scrubBytes w.args false ≤ b)
include hdirect hroom hscrub

theorem low_atCall_sp : low (atCall w env s).sp = b := by
  rw [(restores_atCall hdirect hroom hscrub).1.sp, low_argsPassed hroom]

variable (hret : w.sig.ret = [indirect size align])
include hret

theorem low_atCall_x8 : low ((atCall w env s).regs (.x 8)) = b + w.sizes.returnStart := by
  have hpos := returnSize_pos hret
  have htotal := returnStart_le_total hpos
  have hlt := low_lt ((switched w env s).regs (.x 11))
  have hsp := low_argsPassed hroom
  rw [(restores_atCall hdirect hroom hscrub).2 8 (x8_mem_regs64bit hret) (by decide),
    argsPassed, copied_x8,
    if_pos hpos, ← copied_sp w env w.sizes.argSize]
  change low ((argsPassed w env s).sp + _) = _
  rw [low_add (by omega), hsp]

variable (hcopies : ∀ p ∈ w.copies, b + p.2 + p.1.size ≤ 2 ^ 56)
include hcopies

theorem atCall_address :
    (atCall w env s).load64 (b + w.sizes.savedPtrOffset) = (entered w env s).regs (.x 8) := by
  have hpos := returnSize_pos hret
  have hmem := (restores_atCall hdirect hroom hscrub).1.mem
  rw [low_argsPassed hroom] at hmem
  have hslot : EqOn (atCall w env s).mem (argsPassed w env s).mem
      (Ico (b + w.sizes.savedPtrOffset) (b + w.sizes.savedPtrOffset + 8)) := by
    intro a ha
    refine hmem fun ha' => ?_
    have := ha.1
    have := ha'.2
    omega
  rw [State.load64_congr hslot, argsPassed,
    copied_address env _ hpos (by rw [(switched_spec w env s).sp]; exact hroom) hcopies,
    (switched_spec w env s).regs _ (by decide)]

variable (htop : low ((entered w env s).regs (.x 8)) + w.sizes.returnSize ≤ 2 ^ 56)
  (hdisj : Disjoint (resultBuffer w (entered w env s)) (Ico b (b + w.sizes.total)))
include htop hdisj

theorem copies_result (hargs : w.sizes.argBytes = 0) {c : State}
    (hc : TargetReturns w (atCall w env s) c) (env' : Env) :
    written env' (copyResult w) (addressLoaded w c) = resultBuffer w (entered w env s) ∧
      ∀ i < w.sizes.returnSize, (run (exec env') (copyResult w) (addressLoaded w c)).mem
        (low ((entered w env s).regs (.x 8)) + i) = c.mem (b + w.sizes.returnStart + i) := by
  have hpos := returnSize_pos hret
  have htotal := returnStart_le_total hpos
  have hlt := low_lt ((switched w env s).regs (.x 11))
  have hoffset : w.sizes.savedPtrOffset = w.sizes.argBytes := rfl
  have hsp : low c.sp = b := by rw [hc.sp, low_atCall_sp hdirect hroom hscrub]
  have hzero : ∀ v : BitVec 64, v + BitVec.ofNat 64 0 = v := BitVec.add_zero
  have hload : (addressLoaded w c).regs (.x 8) = (entered w env s).regs (.x 8) := by
    have hslot : c.load64 b = (atCall w env s).load64 b := by
      refine State.load64_congr (hc.address.mono ?_)
      rw [low_atCall_sp hdirect hroom hscrub, StackSizes.returnStart, hoffset, hargs]
      exact Ico_subset_Ico le_rfl le_rfl
    have hsaved := atCall_address hdirect hroom hscrub hret hcopies
    rw [hoffset, hargs, Nat.add_zero] at hsaved
    rw [addressLoaded, State.set_regs, if_pos rfl, hoffset, hargs, hzero, hzero, hsp, hslot, hsaved]
  have hbase : low ((addressLoaded w c).regs .sp) = b := by
    rw [addressLoaded, hargs, hzero, State.set_regs, if_neg (by simp), State.set_regs,
      if_pos rfl, hsp]
  have hmem : (addressLoaded w c).mem = c.mem := rfl
  rw [← hload] at htop
  refine ⟨?_, fun i hi => ?_⟩
  · rw [copyResult, written_memcpy (by decide) htop, hload, resultBuffer]
  · have hapart := hdisj.symm
    rw [resultBuffer, ← hload] at hapart
    rw [← hload, copyResult, memcpy_apply (by decide) (by decide) htop (by rw [hbase]; omega)
      (hapart.mono_left ?_) hi, hbase, hmem]
    rw [hbase]
    exact Ico_subset_Ico (by omega) (by omega)

end Addresses

section Results

variable {size align b : Nat} (hdirect : IsDirect w target)
  (hret : w.sig.ret = [indirect size align])
  (hok : ResultOk w env s b)
include hdirect hret hok

omit hok in
theorem written_fromCall (f : State → State) (c : State) :
    written (env.withTarget f) (w.emitFromTarget ++ emitSwitchStacks w.targetPkey w.callerPkey ++
      w.emitExit) c =
      written (env.withTarget f) (copyResult w) (addressLoaded w c) ∪ cell env w.targetPkey := by
  rw [written_append, written_append, written_switchStacks, written_exit hret hdirect, union_empty,
    (fromTarget_copies (returnSize_pos hret) c).2]
  rfl

omit hret hok in
theorem afterCall_withTarget (f : State → State) :
    afterCall w (env.withTarget f) s = f ((atCall w env s).set (.x 30) env.retAddr) := by
  rw [afterCall_eq hdirect, atCall_withTarget hdirect]
  rfl

theorem ReturnsResult.argBytes_eq_zero (h : ReturnsResult w env s) : w.sizes.argBytes = 0 := by
  have hpos := returnSize_pos hret
  have htotal := returnStart_le_total hpos
  have hlt := low_lt ((switched w env s).regs (.x 11))
  have hroom := hok.room
  have hmod := w.argBytes_mod
  have hoffset : w.sizes.savedPtrOffset = w.sizes.argBytes := rfl
  have hstart : w.sizes.returnStart = w.sizes.argBytes + 8 := rfl
  have hsp := low_atCall_sp hdirect hok.room hok.scrub
  by_contra hargs
  let a := low ((atCall w env s).sp + BitVec.ofNat 64 w.sizes.argBytes +
    BitVec.ofNat 64 w.sizes.savedPtrOffset)
  have ha : a = (b + w.sizes.argBytes + w.sizes.argBytes) % 2 ^ 56 := by
    rw [← hsp, ← hoffset]
    simp only [a, low, BitVec.toNat_add, BitVec.toNat_ofNat]
    omega
  let f : State → State := fun c => c.store a 8 ((switched w env s).regs (.x 12)).toNat
  have hreturns : TargetReturns w (atCall w env s)
      (f ((atCall w env s).set (.x 30) env.retAddr)) := by
    refine ⟨rfl, fun x hx => ByteMemory.write_of_notMem fun hx' => ?_⟩
    rw [hsp, hoffset, hstart] at hx
    have := hx.1
    have := hx.2
    have := hx'.1
    have := hx'.2
    omega
  have hwritten := (h.2 f hreturns).2
  rw [written_fromCall hdirect hret, afterCall_withTarget hdirect] at hwritten
  have hload : (addressLoaded w (f ((atCall w env s).set (.x 30) env.retAddr))).regs (.x 8) =
      (switched w env s).regs (.x 12) := by
    rw [addressLoaded, State.set_regs, if_pos rfl]
    exact State.load64_write rfl
  have hfirst := @mem_written_memcpy (env.withTarget f) (.x 8) .sp 9 w.sizes.returnStart
    (by decide) _ hpos (addressLoaded w (f ((atCall w env s).set (.x 30) env.retAddr)))
  rw [hload] at hfirst
  exact hok.frame (hwritten (.inl hfirst))

omit hdirect hok in
theorem switchedBack_result (f : State → State) {a : Nat} (ha : a ∉ cell env w.targetPkey) :
    (switchedBack w (env.withTarget f) s).mem a =
      (run (exec (env.withTarget f)) (copyResult w)
        (addressLoaded w (afterCall w (env.withTarget f) s))).mem a := by
  rw [@switchedBack_eqOn _ (env.withTarget f) _ _ ha, freed,
    (fromTarget_copies (returnSize_pos hret) _).1]

theorem ReturnsResult.entered_eq (h : ReturnsResult w env s) (hargs : w.sizes.argBytes = 0) :
    low ((entered w env s).regs (.x 8)) = low (s.regs (.x 8)) := by
  have hpos := returnSize_pos hret
  have htotal := returnStart_le_total hpos
  have hoffset : w.sizes.savedPtrOffset = w.sizes.argBytes := rfl
  have hstart : w.sizes.returnStart = w.sizes.argBytes + 8 := rfl
  by_contra hne
  -- the first byte of the result is none of the others and not what the caller has in its memory
  let v := (atCall w env s).mem (low (s.regs (.x 8)))
  let f := answering w b v
  let c := f ((atCall w env s).set (.x 30) env.retAddr)
  have hmem : ∀ a ∉ Ico (b + w.sizes.returnStart) (b + w.sizes.returnStart + w.sizes.returnSize),
      c.mem a = (atCall w env s).mem a :=
    fun a ha => answering_of_notMem hpos ha _
  have hreturns : TargetReturns w (atCall w env s) c := by
    refine ⟨rfl, fun a ha => hmem a fun ha' => ?_⟩
    rw [low_atCall_sp hdirect hok.room hok.scrub] at ha
    exact absurd ha.2 (Nat.not_lt.mpr ha'.1)
  have houtside := disjoint_left.mp hok.buffer
    (show low (s.regs (.x 8)) ∈ resultBuffer w s from ⟨le_rfl, by omega⟩)
  obtain ⟨hwritten, hcopy⟩ := copies_result hdirect hok.room hok.scrub hret hok.copies hok.entered.1
    hok.entered.2 hargs hreturns (env.withTarget f)
  have hvalue := (h.2 f hreturns).1 0 hpos
  rw [Nat.add_zero, Nat.add_zero, switchedBack_result hret f fun hcell => houtside (.inr hcell),
    afterCall_withTarget hdirect,
    low_atCall_x8 hdirect hok.room hok.scrub hret, answering_first] at hvalue
  have hold : (run (exec (env.withTarget f)) (copyResult w) (addressLoaded w c)).mem
      (low (s.regs (.x 8))) = v := by
    by_cases hin : low (s.regs (.x 8)) ∈ resultBuffer w (entered w env s)
    · obtain ⟨k, hk⟩ := Nat.exists_eq_add_of_le hin.1
      have hlt := hin.2
      rw [hk, hcopy k (by omega)]
      exact answering_rest (by omega) (by omega) _
    · have hkept := @run_eqOn (env.withTarget f) (copyResult w)
        (fun i hi => (memcpy_plain _ i hi).2) (addressLoaded w c)
      rw [hwritten] at hkept
      refine (hkept hin).trans (hmem _ fun ha => houtside (.inl ⟨?_, ?_⟩))
      · have := ha.1
        omega
      · have := ha.2
        omega
  rw [hold] at hvalue
  revert hvalue
  generalize v = u
  revert u
  decide

/-- For every signature with a result in memory, a direct gate returns the result of any target
exactly when there are no stack arguments and the pre-conditions leave the address in `x8` alone. -/
theorem returnsResult_iff : ReturnsResult w env s ↔
    w.sizes.argBytes = 0 ∧ low ((entered w env s).regs (.x 8)) = low (s.regs (.x 8)) := by
  refine ⟨fun h => ?_, fun ⟨hargs, hsame⟩ =>
    ⟨hdirect.emitAsmWrapper_eq, fun f hf => ⟨fun i hi => ?_, ?_⟩⟩⟩
  · have hargs := h.argBytes_eq_zero hdirect hret hok
    exact ⟨hargs, h.entered_eq hdirect hret hok hargs⟩
  · have hbyte : low (s.regs (.x 8)) + i ∉ cell env w.targetPkey := fun hcell =>
      disjoint_left.mp hok.buffer ⟨Nat.le_add_right _ _, by omega⟩ (.inr hcell)
    rw [switchedBack_result hret f hbyte, afterCall_withTarget hdirect, ← hsame,
      (copies_result hdirect hok.room hok.scrub hret hok.copies hok.entered.1 hok.entered.2 hargs hf
        _).2 i hi, low_atCall_x8 hdirect hok.room hok.scrub hret]
  · rw [written_fromCall hdirect hret, afterCall_withTarget hdirect,
      (copies_result hdirect hok.room hok.scrub hret hok.copies hok.entered.1 hok.entered.2 hargs hf
      _).1, resultBuffer, hsame,
      resultBuffer]

end Results

/-! ### Functions of integers that return a structure -/

/-- A function of `n` integers that returns 32 bytes in memory. -/
def resultSig (n : Nat) : AbiSignature where
  args := List.replicate n (register .integral 8)
  ret := [indirect 32 8]
  args_slots := Rewriter.slots_replicate n
  ret_slots := .memory (by decide) (by decide)

/-- The caller has memory for a result at `0x28000`. -/
def resultState : State := entryState.set (.x 8) 0x28000

theorem resultGate_ok {n b : Nat} (hsize : (gate (resultSig n)).sizes.returnSize = 32)
    (hroom : 0x30000 = b + (gate (resultSig n)).sizes.total)
    (hscrub : scrubBytes (gate (resultSig n)).args false ≤ b) (hb : 0x28020 ≤ b)
    (hcopies : (gate (resultSig n)).copies = []) :
    ResultOk (gate (resultSig n)) idleEnv resultState b := by
  have hsp : resultState.sp = entryState.sp := rfl
  have hbuffer : resultBuffer (gate (resultSig n)) resultState = Ico 0x28000 0x28020 := by
    rw [resultBuffer, hsize]
    rfl
  have hentered : (entered (gate (resultSig n)) idleEnv resultState).regs (.x 8) = 0x28000#64 :=
    ((gate_framed _ hsp).regs _ (by decide)).trans rfl
  have hcell : cell idleEnv (gate (resultSig n)).targetPkey = Ico 0x10010 0x10018 := idle_cells.2
  refine ⟨?_, hscrub, ?_, ?_, ⟨?_, ?_⟩, ?_⟩
  · rw [gate_loaded _ hsp rfl]
    exact hroom
  · rw [hcopies]
    simp
  · rw [hbuffer, hcell]
    exact (Ico_disjoint_of_le hb).union_right (Ico_disjoint_of_le (by decide)).symm
  · rw [hentered, hsize]
    decide
  · rw [resultBuffer, hentered, hsize]
    exact Ico_disjoint_of_le hb
  · rw [hbuffer, hcell, gate_saved _ hsp]
    decide

theorem returnsResult_oneInt : ReturnsResult (gate (resultSig 1)) idleEnv resultState :=
  (returnsResult_iff (gate_isDirect _) rfl (b := 0x2ffd0)
    (resultGate_ok (by decide) (by decide) (by decide) (by decide) (by decide))).mpr
    ⟨by decide, congrArg low ((gate_framed (s := resultState) _ rfl).regs (.x 8) (by decide))⟩

/-- A target that writes the first word of its result. -/
def writingWord (v : Nat) (c : State) : State := c.store (low (c.regs (.x 8))) 8 v

theorem nineInts_lose_result :
    TargetReturns (gate (resultSig 9)) (atCall (gate (resultSig 9)) idleEnv resultState)
        (writingWord 0x50000 ((atCall (gate (resultSig 9)) idleEnv resultState).set (.x 30)
          idleEnv.retAddr)) ∧
      0x50000 ∈ written (idleEnv.withTarget (writingWord 0x50000))
        (gate (resultSig 9)).emitFromTarget
        (afterCall (gate (resultSig 9)) (idleEnv.withTarget (writingWord 0x50000)) resultState) ∧
      (directCode (gate (resultSig 9))).all Instr.encodable = true ∧
      ¬ ReturnsResult (gate (resultSig 9)) idleEnv resultState := by
  have hok : ResultOk (gate (resultSig 9)) idleEnv resultState 0x2ffc8 :=
    resultGate_ok (by decide) (by decide) (by decide) (by decide) (by decide)
  have hdirect := gate_isDirect (resultSig 9)
  have hx8 := low_atCall_x8 hdirect hok.room hok.scrub rfl
  have hsp := low_atCall_sp hdirect hok.room hok.scrub
  rw [show 0x2ffc8 + (gate (resultSig 9)).sizes.returnStart = 0x2ffd8 by decide] at hx8
  set c := (atCall (gate (resultSig 9)) idleEnv resultState).set (.x 30) idleEnv.retAddr with hc
  have hreturns : TargetReturns (gate (resultSig 9))
      (atCall (gate (resultSig 9)) idleEnv resultState) (writingWord 0x50000 c) := by
    refine ⟨rfl, fun a ha => ByteMemory.write_of_notMem fun ha' => ?_⟩
    rw [hsp, show 0x2ffc8 + (gate (resultSig 9)).sizes.returnStart = 0x2ffd8 by decide] at ha
    rw [show low (c.regs (.x 8)) = 0x2ffd8 from hx8] at ha'
    exact absurd ha.2 (Nat.not_lt.mpr ha'.1)
  have haddr : low (c.sp + BitVec.ofNat 64 (gate (resultSig 9)).sizes.argBytes +
    BitVec.ofNat 64 (gate (resultSig 9)).sizes.savedPtrOffset) =
      low (c.regs (.x 8)) := by
    have hbase : low c.sp = 0x2ffc8 := hsp
    have hargs : low (c.sp + BitVec.ofNat 64 8) = 0x2ffd0 := by rw [low_add (by omega), hbase]
    change low (c.sp + BitVec.ofNat 64 8 + BitVec.ofNat 64 8) = _
    rw [low_add (by omega), hargs]
    exact hx8.symm
  have hload : (addressLoaded (gate (resultSig 9)) (writingWord 0x50000 c)).regs (.x 8) =
      0x50000#64 := by
    rw [addressLoaded, State.set_regs, if_pos rfl]
    change (writingWord 0x50000 c).load64 (low (c.sp + _ + _)) = _
    rw [haddr]
    exact State.load64_write (v := 0x50000#64) rfl
  have hafter : afterCall (gate (resultSig 9)) (idleEnv.withTarget (writingWord 0x50000))
      resultState = writingWord 0x50000 c :=
    afterCall_withTarget hdirect _
  have hwritten : 0x50000 ∈ written (idleEnv.withTarget (writingWord 0x50000))
    (gate (resultSig 9)).emitFromTarget
      (afterCall (gate (resultSig 9)) (idleEnv.withTarget (writingWord 0x50000)) resultState) := by
    have hfirst := @mem_written_memcpy (idleEnv.withTarget (writingWord 0x50000)) (.x 8) .sp 9
      (gate (resultSig 9)).sizes.returnStart (by decide) _
        (returnSize_pos (w := gate (resultSig 9)) rfl)
      (addressLoaded (gate (resultSig 9)) (writingWord 0x50000 c))
    rw [hload] at hfirst
    rw [hafter, (fromTarget_copies (returnSize_pos rfl) _).2]
    exact hfirst
  refine ⟨hreturns, hwritten, by decide, fun h => ?_⟩
  have hsub := (h.2 _ hreturns).2
  rw [written_append, written_append] at hsub
  have hin := hsub (.inl (.inl hwritten))
  rw [show cell idleEnv (gate (resultSig 9)).targetPkey = Ico 0x10010 0x10018 from idle_cells.2]
    at hin
  rcases hin with hin | hin
  · have hlt : 0x50000 < 0x28020 := hin.2
    omega
  · have hlt := hin.2
    omega

end Ia2.Arm
