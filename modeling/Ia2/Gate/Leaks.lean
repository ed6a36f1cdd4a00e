import Ia2.Gate.Direct

/-!
# What registers carry across a gate

Two runs of a gate that the other side must not tell apart. What survives the scrubbing of registers
is what `emit_scrub_regs` saves: two states that agree on the saved registers agree on all registers
once they are scrubbed and PKRU is set. On the way to the target the saved registers are those of
the arguments, so the target learns nothing else. On the way back they are those of
`allocate_return_locations`, which for a 16-byte integer has one register more than the calling
convention.
-/

namespace Ia2.Gate

open X86 Rewriter StraightLine Set

def Scrubbable (r : ArgReg) : Prop := r ≠ .gpr .rsp ∧ r ≠ .gpr .rbp

variable {env env' : Env} {r : ArgReg} {reg : Reg} {s s' : State}

theorem keepingRegs_congr (hreg : reg = .rcx ∨ reg = .rax) (pkru : BitVec 32)
    (hsame : ∀ r, Scrubbable r → r.value s = r.value s') (hr : Scrubbable r) :
    r.value (run (exec env) (keepingRegs reg .rdx (writePkru pkru)) s) =
      r.value (run (exec env') (keepingRegs reg .rdx (writePkru pkru)) s') := by
  cases r with
  | xmm i => exact hsame (.xmm i) hr
  | gpr r =>
    have hregs : ∀ r : Reg, r ≠ .rsp → r ≠ .rbp → s.regs r = s'.regs r := fun r hrsp hrbp =>
      BitVec.eq_of_toNat_eq (hsame (.gpr r) ⟨by simpa using hrsp, by simpa using hrbp⟩)
    refine congrArg BitVec.toNat ?_
    rcases hreg with rfl | rfl
    all_goals
      cases r
      case rsp => exact absurd rfl hr.1
      case rbp => exact absurd rfl hr.2
      all_goals simp [keepingRegs, writePkru, run, exec, hregs]

theorem scrub_forgets (hreg : reg = .rcx ∨ reg = .rax) (pkru : BitVec 32) {pkey : Nat}
    (hpkey : pkey ≠ 0) {locs : List ArgLocation} {isIndirect : Bool}
    (hrs : .gpr .rsp ∉ savedRegs locs isIndirect)
    (hroom : savedSize (savedRegs locs isIndirect) + 8 ≤ s.rsp.toNat)
    (hroom' : savedSize (savedRegs locs isIndirect) + 8 ≤ s'.rsp.toNat)
    (hsame : ∀ r ∈ savedRegs locs isIndirect, r.value s = r.value s') (hr : Scrubbable r) :
    r.value
      (run (exec env) (emitScrubRegs pkey locs isIndirect ++ keepingRegs reg .rdx (writePkru pkru))
      s) =
      r.value
        (run (exec env') (emitScrubRegs pkey locs isIndirect ++
        keepingRegs reg .rdx (writePkru pkru)) s') := by
  rw [run_append, run_append]
  refine keepingRegs_congr hreg pkru (fun r hr => ?_) hr
  have hvalue := (@runs_scrubRegs env pkey locs isIndirect hrs s hroom).2.2 r hr.1
  have hvalue' := (@runs_scrubRegs env' pkey locs isIndirect hrs s' hroom').2.2 r hr.1
  rw [hvalue, hvalue', if_neg hpkey, if_neg hpkey, scrubbed, scrubbed]
  by_cases hsaved : r ∈ savedRegs locs isIndirect
  · rw [if_pos (.inl hsaved), if_pos (.inl hsaved), hsame r hsaved]
  · rw [if_neg (by simp [hsaved, hr.2]), if_neg (by simp [hsaved, hr.2])]

/-! ### To the target -/

section ToTarget

variable {w : Wrapper} {target : TargetInfo} {env : Env} {s s' : State}

theorem GateOk.congr (h : GateOk w env s) (hrsp : s'.rsp = s.rsp) (hpkru : s'.pkru = s.pkru)
    (htsp : stackptr env w.targetPkey s' = stackptr env w.targetPkey s) : GateOk w env s' := by
  have hend : argsEnd w s' = argsEnd w s := by rw [argsEnd, argsEnd, hrsp]
  have hcaller : callerArea w s' = callerArea w s := by rw [callerArea, callerArea, hrsp, hend]
  have htarget : targetArea w env s' = targetArea w env s := by rw [targetArea, targetArea, htsp]
  refine ⟨?_, ?_, ?_, hpkru.trans h.pkru, h.cells, ?_, ?_, ?_⟩
  · rw [hrsp]
    exact h.callerRoom
  · rw [hend]
    exact h.callerTop
  · rw [htsp]
    exact h.targetRoom
  · rw [htarget]
    exact h.cells_targetArea
  · rw [hcaller]
    exact h.cells_callerArea
  · rw [htarget, hcaller]
    exact h.areas

theorem Bare.beforeScrub (h : Bare w target) (hkind : w.kind = .direct) (hok : GateOk w env s) :
    ∃ c, atCall w env s = run (exec env)
      (emitScrubRegs w.callerPkey w.args false ++ emitSetPkru w.targetPkey) c ∧
      c.rsp.toNat = (stackptr env w.targetPkey s).toNat - w.sizes.space ∧
      (atCall w env s).rsp.toNat = (stackptr env w.targetPkey s).toNat - w.sizes.space ∧
      (∀ i ∈ w.emitEntry ++ w.emitToTarget (directArgs w), i ≠ .call .target) ∧
      ∀ r ∈ savedRegs w.args false, r.value c = if 0 < w.sizes.returnSize ∧ r = .gpr .rdi
        then (stackptr env w.targetPkey s).toNat - (w.sizes.returnSize + w.sizes.returnPadding)
          else r.value s := by
  have hdirect : decide (w.kind = .indirectCallsite) = false := decide_eq_false (by simp [hkind])
  have hdepth := entryDepth_le target
  have hroom := hok.callerRoom
  have hentryRun := gate_entry h.named hok (h.helpersOk _ _ _ (cell env w.targetPkey))
    (cell_disjoint_entryArea hok)
  have hentry : EntryState w target (argsEnd w s) (cell env w.targetPkey) s (entered w env s) :=
    hentryRun.2
  have hapart : (crossing w env s (entered w env s)).Apart := crossing_apart hok hentry.rsp
  have htsp : stackptr env w.targetPkey (entered w env s) = stackptr env w.targetPkey s :=
    stackptr_congr (hentry.mem.mono subset_union_right)
  have hto := gate_toTarget (by simp [hkind]) hok subset_rfl hentry
  have henter := @runs_enter (crossing w env s (entered w env s)) (entered w env s) hapart rfl htsp
    (hentry.pkru.trans hok.pkru) w.sizes.argSize ((entered w env s).rsp.toNat + savedBytes + 8)
      (by simp) rfl (by
      change (entered w env s).rsp.toNat + savedBytes + 8 + w.sizes.argBytes ≤
        s.rsp.toNat + 8 + w.sizes.argBytes
      rw [hentry.rsp]
      omega)
  have hentered : Entered (crossing w env s (entered w env s)) (entered w env s)
    (run (exec env) (enterCode w) (entered w env s)) := henter.2.1
  have hcall : AtCall (crossing w env s (entered w env s)) (entered w env s) (atCall w env s) :=
    hto.2
  refine ⟨run (exec env) (enterCode w) (entered w env s), ?_, hentered.rsp, hcall.rsp,
    gate_once hentryRun.1 hto.1,
    fun r hr => ?_⟩
  · rw [atCall, emitToTarget_directArgs, run_append, hdirect]
  · rw [hentered.value_arg hapart hr]
    simp only [crossing_w, crossing_tsp, h.entered_value hentry hr]

/-- Two calls through a direct gate with the same arguments, the same stack pointers and whatever
else in the caller's registers look the same to the target: every general register but `rbp`, and
every vector register. -/
theorem callee_registers_agree (hbare : Bare w target) (hkind : w.kind = .direct)
    (hpkey : w.callerPkey ≠ 0) (hok : GateOk w env s) (hrsp : s'.rsp = s.rsp)
    (hpkru : s'.pkru = s.pkru) (htsp : stackptr env w.targetPkey s' = stackptr env w.targetPkey s)
    (hargs : ∀ loc ∈ w.args, loc.isStack = false → ∀ r, loc.reg = some r → r.value s' = r.value s) :
    ∃ prog c c', w.emitAsmWrapper = some prog ∧
      firstAt (exec env) (fun i => i == .call .target) prog s = some c ∧
      firstAt (exec env) (fun i => i == .call .target) prog s' = some c' ∧
      (∀ r ≠ .rbp, c'.regs r = c.regs r) ∧ c'.xmm = c.xmm := by
  obtain ⟨c, hcall, hcrsp, hrspc, honce, hvalue⟩ := hbare.beforeScrub hkind hok
  obtain ⟨c', hcall', hcrsp', hrspc', -, hvalue'⟩ :=
    hbare.beforeScrub hkind (hok.congr hrsp hpkru htsp)
  have hsaved : .gpr .rsp ∉ savedRegs w.args false := fun h => by
    rcases savedRegs_args h with h | ⟨h, -⟩
    · exact absurd h (by decide)
    · cases h
  have hdepth : w.targetDepth = w.sizes.space + (savedSize (savedRegs w.args false) + 8) := by
    rw [Wrapper.targetDepth, decide_eq_false (by simp [hkind] : ¬ w.kind = .indirectCallsite)]
  have hroom := hok.targetRoom
  rw [htsp] at hcrsp' hrspc'
  have hsame : ∀ r, Scrubbable r → r.value (atCall w env s') = r.value (atCall w env s) :=
    fun r hr => by
    rw [hcall, hcall']
    refine scrub_forgets (.inl rfl) _ hpkey hsaved (by omega) (by omega) (fun r hr => ?_) hr
    obtain ⟨loc, hloc, hstack, hreg⟩ := (mem_savedRegs.mp hr).resolve_right (by simp)
    rw [hvalue r hr, hvalue' r hr, htsp, hargs loc hloc hstack r hreg]
  refine ⟨gateCode w, atCall w env s, atCall w env s', emitAsmWrapper_eq hbare.wrapperSig,
    gate_firstAt_call hbare.named honce, gate_firstAt_call hbare.named honce, fun r hr =>
    ?_, funext fun i => ?_⟩
  · refine BitVec.eq_of_toNat_eq ?_
    by_cases hr' : r = .rsp
    · subst hr'
      exact hrspc'.trans hrspc.symm
    · exact hsame (.gpr r) ⟨by simpa using hr', by simpa using hr⟩
  · exact BitVec.eq_of_toNat_eq (hsame (.xmm i) ⟨by simp, by simp⟩)

/-- The caller leaves something else in its scratch registers. -/
theorem callee_registers_agree_struct :
    ∃ prog c c', structGate.emitAsmWrapper = some prog ∧
      firstAt (exec structEnv) (fun i => i == .call .target) prog structEntry = some c ∧
      firstAt (exec structEnv) (fun i => i == .call .target) prog
        ((structEntry.set .rbx 99).setXmm 5 3) = some c' ∧
      (∀ r ≠ .rbp, c'.regs r = c.regs r) ∧ c'.xmm = c.xmm := by
  have hmem : ((structEntry.set .rbx 99).setXmm 5 3).mem = structEntry.mem := rfl
  have htsp : stackptr structEnv structGate.targetPkey ((structEntry.set .rbx 99).setXmm 5 3) =
      stackptr structEnv structGate.targetPkey structEntry :=
    stackptr_congr fun a _ => congrFun hmem a
  refine callee_registers_agree structGate_bare rfl (by decide) structGate_ok rfl rfl htsp ?_
  decide

end ToTarget

/-! ### Back to the caller -/

def intEightbytes (slot : ArgLocation) : Nat :=
  if slot.kind = .integral ∧ slot.isIndirect = false then (if slot.size ≤ 8 then 1 else 2) else 0

def floatEightbytes (slot : ArgLocation) : Nat := if slot.kind = .float then 1 else 0

def sysvReturnRegs (ret : List ArgLocation) : List ArgReg :=
  ([.gpr .rax, .gpr .rdx].take (ret.map intEightbytes).sum) ++
    [.xmm 0, .xmm 1].take (ret.map floatEightbytes).sum

variable {slots : List ArgLocation}

open ArgLocation in
theorem sum_intEightbytes (hscalar : ∀ slot ∈ slots, IsScalarSlot slot) :
    (slots.map intEightbytes).sum = slots.countP (·.kind = .integral) := by
  induction slots with
  | nil => rfl
  | cons slot slots ih =>
    rw [List.map_cons, List.sum_cons, List.countP_cons,
      ih fun slot hslot => hscalar slot (List.mem_cons_of_mem _ hslot), Nat.add_comm]
    rcases hscalar slot List.mem_cons_self with ⟨n, hn, rfl⟩ | ⟨n, rfl⟩
    · have hsize : (register .integral n).size ≤ 8 := hn
      rw [intEightbytes, if_pos ⟨rfl, rfl⟩, if_pos hsize]
      rfl
    · rfl

open ArgLocation in
theorem sum_floatEightbytes (hscalar : ∀ slot ∈ slots, IsScalarSlot slot) :
    (slots.map floatEightbytes).sum = slots.countP (¬ ·.kind = .integral) := by
  induction slots with
  | nil => rfl
  | cons slot slots ih =>
    rw [List.map_cons, List.sum_cons, List.countP_cons,
      ih fun slot hslot => hscalar slot (List.mem_cons_of_mem _ hslot), Nat.add_comm]
    rcases hscalar slot List.mem_cons_self with ⟨n, -, rfl⟩ | ⟨n, rfl⟩ <;> rfl

open ArgLocation in
theorem savedRegs_rets_sysv {w : Wrapper} (hret : w.sig.abi.ret ≠ [register .integral 16])
    (hr : r ∈ savedRegs w.rets false) (hmemory : ¬ (0 < w.sizes.returnSize ∧ r = .gpr .rax)) :
    r ∈ sysvReturnRegs w.sig.abi.ret := by
  have hpos : 0 < w.sizes.returnSize ↔ _ := returnSize_pos_iff w.sig.abi
  have hslots := w.sig.abi.ret_slots
  unfold Wrapper.rets allocateReturnLocations at hr
  generalize w.sig.abi.ret = ret at hret hr hpos hslots ⊢
  cases hslots with
  | void => simp [savedRegs, savedLocs] at hr
  | @memory size align hsize halign =>
    have hrax : r = .gpr .rax := by
      rw [List.foldl_cons, allocateReturn_indirect] at hr
      simpa [savedRegs, savedLocs, allocateReg, indirect, isStack, intRetReg, intRetRegOrder]
        using hr
    exact absurd ⟨hpos.mpr rfl, hrax⟩ hmemory
  | wide => exact absurd rfl hret
  | scalars hlen hscalar =>
    obtain ⟨loc, hloc, -, hreg⟩ := (mem_savedRegs.mp hr).resolve_right (by simp)
    rcases mem_foldl_allocateReturn hscalar hloc
      with hloc | ⟨-, -, ⟨i, -, hi, hint⟩ | ⟨i, -, hi, hfloat⟩⟩
    · exact absurd hloc List.not_mem_nil
    · rw [Nat.zero_add, ← sum_intEightbytes hscalar] at hi
      refine List.mem_append_left _ (List.mem_of_getElem? ((List.getElem?_take_of_lt hi).trans ?_))
      exact (@List.getElem?_map _ _ ArgReg.gpr intRetRegOrder i).trans (hint.symm.trans hreg)
    · have hlt : i < 2 := hi.trans_le ((Nat.zero_add _).trans_le (List.countP_le_length.trans hlen))
      rw [Nat.zero_add, ← sum_floatEightbytes hscalar] at hi
      refine List.mem_append_right _ (List.mem_of_getElem? ((List.getElem?_take_of_lt hi).trans ?_))
      obtain rfl | rfl : i = 0 ∨ i = 1 := by omega
      · exact hfloat.symm.trans hreg
      · exact hfloat.symm.trans hreg

section ToCaller

variable {w : Wrapper} {target : TargetInfo} {env : Env} {s : State}

theorem Obeys.beforeScrub (h : Obeys w target env s) (htarget : w.target = some target)
    (hkind : w.kind = .direct) (hpre : target.preConditions = 0) (hok : GateOk w env s)
    (hbuffer : BufferOk w env s (s.regs .rdi)) :
    ∃ d, returned w env s = run (exec env)
      (emitScrubRegs w.targetPkey w.rets false ++ emitSetReturnPkru w.callerPkey) d ∧
      w.scrubDepth ≤ d.rsp.toNat ∧
      ∀ r ∈ savedRegs w.rets false, r.value d =
        if 0 < w.sizes.returnSize ∧ r = .gpr .rax then (s.regs .rdi).toNat
          else r.value (afterCall w env s) := by
  have hentry := h.entryState htarget hok
  have hrdi : (entered w env s).regs .rdi = s.regs .rdi := hentry.ints hpre .rdi (by decide)
  rw [← hrdi] at hbuffer ⊢
  have hx : (crossing w env s (entered w env s)).Ok := crossing_ok hok hbuffer hentry.rsp
  have hcall : AtCall (crossing w env s (entered w env s)) (entered w env s) (atCall w env s) :=
    (gate_toTarget (by simp [hkind]) hok subset_rfl hentry).2
  obtain ⟨hrsp, hpkru, hkept⟩ := afterCall_facts hok hcall (h.target.balanced htarget hok hcall)
  obtain ⟨hsaved, hslot⟩ := afterCall_slots hcall hkept
  have hhome : Home (crossing w env s (entered w env s)) (afterCall w env s) _ :=
    (runs_home hx hrsp hpkru hsaved hslot).2
  refine ⟨run (exec env) (homeCode w) (afterCall w env s), ?_, ?_,
    fun r hr => hhome.value (savedRegs_rets hr)⟩
  · rw [returned, emitToCaller_eq, run_append]
  · have hsp : (run (exec env) (homeCode w) (afterCall w env s)).rsp = (entered w env s).rsp :=
      hhome.rsp
    have hdepth := entryDepth_le target
    have hroom := hok.callerRoom
    rw [hsp, hentry.rsp]
    omega

/-- Two targets that leave the same values in the registers of the result look the same to the
caller of a gate entered in state `s`. -/
def HidesTarget (w : Wrapper) (target : TargetInfo) (env : Env) (s : State) : Prop :=
  ∀ f f' : State → State, TargetOk w target (targeting env f) s →
    TargetOk w target (targeting env f') s →
    ∃ prog c c', w.emitAsmWrapper = some prog ∧
      firstAt (exec (targeting env f)) (fun i => i == .call .target) prog s = some c ∧
      firstAt (exec (targeting env f')) (fun i => i == .call .target) prog s = some c' ∧
      ((∀ r ∈ sysvReturnRegs w.sig.abi.ret, r.value (f (c.push env.retAddr)) =
        r.value (f' (c'.push env.retAddr))) →
        ∀ r : ArgReg, r.value (run (exec (targeting env f)) prog s) =
        r.value (run (exec (targeting env f')) prog s))

theorem HelpersOk.targeting {lo hi top : Nat} {keep : Set Nat}
    (h : HelpersOk w target env lo hi top keep) (f : State → State) :
    HelpersOk w target (targeting env f) lo hi top keep := by
  intro callee hcalls
  have hother : callee ≠ .target := by
    rintro rfl
    cases hcalls
  change SysvFn lo hi top keep (if callee = .target then f else env.function callee)
  rw [if_neg hother]
  exact h callee hcalls

/-- A target that returns zero and leaves a value in `xmm0`. -/
def leavingXmm (v : BitVec 128) (c : State) : State :=
  (((c.set .rsp (c.rsp + 8#64)).set .rax 0).set .rdx 0).setXmm 0 v

theorem leavingXmm_targetOk (v : BitVec 128) :
    TargetOk w target (targeting env (leavingXmm v)) s := by
  intro c _
  refine ⟨rfl, ?_, rfl, fun _ _ => rfl⟩
  intro r hr
  revert r
  simp [leavingXmm, calleeSaved, preservedRegisters]

theorem gateEnd_agree (h : Obeys w target env s) (h' : Obeys w target env' s)
    (htarget : w.target = some target) (hkind : w.kind = .direct) (hpre : target.preConditions = 0)
    (hpost : target.postConditions = 0) (hpkey : w.targetPkey ≠ 0) (hok : GateOk w env s)
    (hok' : GateOk w env' s) (hbuffer : BufferOk w env s (s.regs .rdi))
    (hbuffer' : BufferOk w env' s (s.regs .rdi))
    (hsame : ∀ r ∈ savedRegs w.rets false, ¬ (0 < w.sizes.returnSize ∧ r = .gpr .rax) →
    r.value (afterCall w env s) = r.value (afterCall w env' s)) (r : ArgReg) :
    r.value (gateEnd w env s) = r.value (gateEnd w env' s) := by
  have hrun := h.gateRun htarget (by simp [hkind]) hok
    (by rw [(h.entryState htarget hok).ints hpre .rdi (by decide)]; exact hbuffer)
  have hrun' := h'.gateRun htarget (by simp [hkind]) hok'
    (by rw [(h'.entryState htarget hok').ints hpre .rdi (by decide)]; exact hbuffer')
  by_cases hkept : ∃ g ∈ Reg.rsp :: calleeSaved, r = .gpr g
  · obtain ⟨g, hg, rfl⟩ := hkept
    rcases List.mem_cons.mp hg with rfl | hg
    · exact hrun.rsp.trans hrun'.rsp.symm
    · exact congrArg BitVec.toNat ((hrun.regs g hg).trans (hrun'.regs g hg).symm)
  · have hother : ∀ g ∈ Reg.rsp :: calleeSaved, r ≠ .gpr g := fun g hg heq => hkept ⟨g, hg, heq⟩
    rw [keeps_value (hrun.exit hpost).2 hother, keeps_value (hrun'.exit hpost).2 hother]
    obtain ⟨d, hd, hroom, hvalue⟩ := h.beforeScrub htarget hkind hpre hok hbuffer
    obtain ⟨d', hd', hroom', hvalue'⟩ := h'.beforeScrub htarget hkind hpre hok' hbuffer'
    rw [hd, hd']
    have hrsp : .gpr .rsp ∉ savedRegs w.rets false := fun h => absurd (savedRegs_rets h) (by decide)
    refine scrub_forgets (.inr rfl) _ hpkey hrsp hroom hroom' (fun r hr => ?_)
      ⟨hother .rsp (by simp), hother .rbp (by decide)⟩
    rw [hvalue r hr, hvalue' r hr]
    split
    · rfl
    · exact hsame r hr ‹_›

section Targets

variable (htarget : w.target = some target) (hkind : w.kind = .direct)
  (hpre : target.preConditions = 0)
  (hok : GateOk w env s) (hbuffer : BufferOk w env s (s.regs .rdi))
  (hhelpers : HelpersOk w target env (s.rsp.toNat - frameDepth) s.rsp.toNat (argsEnd w s)
    (cell env w.targetPkey))
include htarget hkind hpre hok hbuffer hhelpers

theorem targeting_gateRun {f : State → State} (hf : TargetOk w target (targeting env f) s) :
    GateRun w target (targeting env f) (cell env w.targetPkey) s := by
  have hobeys : Obeys w target (targeting env f) s := ⟨hhelpers.targeting f, hf⟩
  refine hobeys.gateRun htarget (by simp [hkind]) (hok.calling _) ?_
  rw [(hobeys.entryState htarget (hok.calling _)).ints hpre .rdi (by decide)]
  exact hbuffer.calling _

theorem wide_keeps_xmm0 (hpost : target.postConditions = 0)
    (hret : w.sig.abi.ret = [ArgLocation.register .integral 16]) (v : BitVec 128) :
    (ArgReg.xmm 0).value (gateEnd w (targeting env (leavingXmm v)) s) = v.toNat := by
  have hrun := targeting_gateRun htarget hkind hpre hok hbuffer hhelpers (leavingXmm_targetOk v)
  have hsaved : .xmm 0 ∈ savedRegs w.rets false := by
    rw [Wrapper.rets, allocateReturnLocations, hret]
    decide
  rw [hrun.returnRegs hpost (by decide), if_pos (.inr hsaved), if_neg (by simp),
    afterCall_eq htarget]
  rfl

theorem not_hidesTarget_wide (hsig : w.wrapperSig = none) (hpost : target.postConditions = 0)
    (hret : w.sig.abi.ret = [ArgLocation.register .integral 16]) :
    ¬ HidesTarget w target env s := by
  intro hhides
  obtain ⟨prog, c, c', hprog, -, -, hagree⟩ :=
    hhides (leavingXmm 0) (leavingXmm 1) (leavingXmm_targetOk 0) (leavingXmm_targetOk 1)
  obtain rfl : gateCode w = prog := Option.some.inj ((emitAsmWrapper_eq hsig).symm.trans hprog)
  have hregs : ∀ r ∈ sysvReturnRegs w.sig.abi.ret,
      r.value (leavingXmm 0 (c.push env.retAddr)) =
      r.value (leavingXmm 1 (c'.push env.retAddr)) := by
    rw [hret, show sysvReturnRegs [ArgLocation.register .integral 16] = [.gpr .rax, .gpr .rdx] by
      decide]
    simp [leavingXmm, ArgReg.value]
  have hsame := hagree hregs (.xmm 0)
  rw [run_gateCode, run_gateCode] at hsame
  have hzero := wide_keeps_xmm0 htarget hkind hpre hok hbuffer hhelpers hpost hret 0
  have hone := wide_keeps_xmm0 htarget hkind hpre hok hbuffer hhelpers hpost hret 1
  exact absurd (hzero.symm.trans (hsame.trans hone)) (by decide)

end Targets

/-- The caller of a direct gate learns nothing from registers about the target but its result,
exactly when the result is not a 16-byte integer. -/
theorem hidesTarget_iff (htarget : w.target = some target) (hsig : w.wrapperSig = none)
    (hkind : w.kind = .direct) (hpre : target.preConditions = 0) (hpost : target.postConditions = 0)
    (hpkey : w.targetPkey ≠ 0) (hok : GateOk w env s) (hbuffer : BufferOk w env s (s.regs .rdi))
    (hhelpers : HelpersOk w target env (s.rsp.toNat - frameDepth) s.rsp.toNat (argsEnd w s)
    (cell env w.targetPkey)) :
    HidesTarget w target env s ↔ w.sig.abi.ret ≠ [ArgLocation.register .integral 16] := by
  refine ⟨fun hhides hret => not_hidesTarget_wide htarget hkind hpre hok hbuffer hhelpers hsig hpost
    hret hhides,
    fun hret f f' hf hf' => ?_⟩
  have hrun := targeting_gateRun htarget hkind hpre hok hbuffer hhelpers hf
  have hrun' := targeting_gateRun htarget hkind hpre hok hbuffer hhelpers hf'
  refine ⟨gateCode w, _, _, emitAsmWrapper_eq hsig, hrun.firstAt_call htarget,
    hrun'.firstAt_call htarget, fun hagree r => ?_⟩
  rw [run_gateCode, run_gateCode]
  refine gateEnd_agree ⟨hhelpers.targeting f, hf⟩ ⟨hhelpers.targeting f', hf'⟩ htarget hkind hpre
    hpost hpkey (hok.calling _)
    (hok.calling _) (hbuffer.calling _) (hbuffer.calling _) (fun r hr hmemory => ?_) r
  rw [afterCall_eq htarget, afterCall_eq htarget]
  exact hagree r (savedRegs_rets_sysv hret hr hmemory)

theorem hidesTarget_iff_struct : HidesTarget structGate {} structEnv structEntry :=
  (hidesTarget_iff rfl rfl rfl rfl rfl (by decide) structGate_ok
    (structGate_buffer (by decide) (by decide))
    (structGate_bare.helpersOk _ _ _ _)).mpr (by decide)

/-! ### A gate for a function that returns `__int128` -/

def wideSig : AbiSignature where
  args := []
  ret := [ArgLocation.register .integral 16]
  args_slots := slots_nil
  ret_slots := .wide

def wideGate : Wrapper := ⟨⟨wideSig, []⟩, none, some {}, .direct, 1, 2, true⟩

theorem wideGate_ok : GateOk wideGate structEnv structEntry := by
  have hcaller : callerArea wideGate structEntry = Ico 0x1ff70 0x20010 := rfl
  have htarget : targetArea wideGate structEnv structEntry = Ico 0x2fff8 0x30008 := by
    rw [targetArea, show wideGate.targetPkey = 2 from rfl, structEntry_stackptr]
    rfl
  obtain ⟨hcell, hcell', -, -⟩ := structGate_areas
  refine ⟨by decide, by decide, ?_, rfl, structGate_ok.cells, ?_, ?_, ?_⟩
  · rw [show wideGate.targetPkey = 2 from rfl, structEntry_stackptr]
    decide
  · change Disjoint (cell structEnv 1 ∪ cell structEnv 2) _
    rw [hcell, hcell', htarget, disjoint_union_left, Ico_disjoint_Ico, Ico_disjoint_Ico]
    decide
  · change Disjoint (cell structEnv 1 ∪ cell structEnv 2) _
    rw [hcell, hcell', hcaller, disjoint_union_left, Ico_disjoint_Ico, Ico_disjoint_Ico]
    decide
  · rw [htarget, hcaller, Ico_disjoint_Ico]
    decide

/-- The caller finds in `xmm0` what the target left there. -/
theorem wideGate_leaks :
    TargetOk wideGate {} (targeting structEnv (leavingXmm 0)) structEntry ∧
      TargetOk wideGate {} (targeting structEnv (leavingXmm 1)) structEntry ∧
      (ArgReg.xmm 0).value (gateEnd wideGate (targeting structEnv (leavingXmm 0)) structEntry) = 0 ∧
      (ArgReg.xmm 0).value (gateEnd wideGate (targeting structEnv (leavingXmm 1)) structEntry) = 1 ∧
      ¬ HidesTarget wideGate {} structEnv structEntry := by
  have hhelpers : ∀ lo hi top keep, HelpersOk wideGate {} structEnv lo hi top keep :=
    Bare.helpersOk ⟨rfl, rfl, rfl, rfl, rfl⟩
  have hbuffer : BufferOk wideGate structEnv structEntry (structEntry.regs .rdi) :=
    .of_returnSize rfl _
  exact ⟨leavingXmm_targetOk 0, leavingXmm_targetOk 1,
    wide_keeps_xmm0 rfl rfl rfl wideGate_ok hbuffer (hhelpers _ _ _ _) rfl rfl 0,
    wide_keeps_xmm0 rfl rfl rfl wideGate_ok hbuffer (hhelpers _ _ _ _) rfl rfl 1,
    not_hidesTarget_wide rfl rfl rfl wideGate_ok hbuffer (hhelpers _ _ _ _) rfl rfl rfl⟩

end ToCaller

end Ia2.Gate
