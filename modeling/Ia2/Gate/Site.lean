import Ia2.Gate.Run
import Ia2.Gate.Moves

/-!
# The wrapper of an indirect call site

A wrapper for an indirect call site is called with the address of the function before the arguments,
and calls it with the arguments moved up by one. This file runs its code up to the call: what is in
`r12`, in the argument registers and on the target's stack, and which register the memory operands
are based on. An argument that the caller has on the stack is fetched relative to `rax`, which holds
the caller's stack pointer only if the function has stack arguments of its own.
-/

namespace Ia2.Gate

open X86 Rewriter StraightLine Set ArgLocation

variable {w : Wrapper} {env : Env} {s s' : State}

/-- The wrapper of an indirect call site. -/
structure IsSite (w : Wrapper) : Prop where
  kind : w.kind = .indirectCallsite
  target : w.target = none
  wrapperSig : w.wrapperSig = some (prepended w.sig.abi)

/-! ### What it means that the arguments arrive -/

def locValue (s : State) (base : Nat) (loc : ArgLocation) : Nat :=
  if loc.isStack then s.mem.read (base + loc.stackOffset) loc.width
  else match loc.reg with
    | some r => r.value s % 256 ^ loc.width
    | none => 0

def argValue (s : State) (base : Nat) : List ArgLocation → Nat
  | [] => 0
  | loc :: locs => locValue s base loc + 256 ^ loc.width * argValue s base locs

/-- At the call, `r12` and the locations of every argument hold what the caller passed. -/
structure Delivered (w : Wrapper) (s c : State) : Prop where
  pointer : (c.regs .r12).toNat =
    argValue s (s.rsp.toNat + 8) (newLocs (initialParams w.sig.abi.ret) (register .integral 8))
  args : ∀ g ∈ shiftedGroups w.sig.abi, argValue c c.rsp.toNat g.1 =
    argValue s (s.rsp.toNat + 8) g.2

def fetchBase : Instr → Option Reg
  | .pushqMem _ base => some base
  | .load _ _ base _ => some base
  | .loadXmm _ base _ => some base
  | _ => none

def FetchesFrom (sp : Nat) (i : Instr) (s : State) :
    Prop := ∀ base ∈ fetchBase i, (s.regs base).toNat = sp

def toCall (prog : List Instr) : List Instr := prog.takeWhile fun i => !i.isCall

def wrapperArgSize (w : Wrapper) : Nat := (allocateParamLocations (prepended w.sig.abi)).2

def siteTop (w : Wrapper) (s : State) :
    Nat := s.rsp.toNat + 8 + (wrapperArgSize w + w.sizes.argPadding + 24)

theorem siteTop_eq (w : Wrapper) (s : State) :
    siteTop w s = s.rsp.toNat + 8 + (wrapperArgSize w + w.sizes.argPadding + 24) :=
  rfl

structure Passes (w : Wrapper) (s s' : State) : Prop where
  rsp : s'.rsp = s.rsp
  pkru : s'.pkru = s.pkru
  mem : EqOn s'.mem s.mem (Ico (s.rsp.toNat + 8) (siteTop w s))ᶜ

/-- Whatever the caller passes, the code before `call *%r12` delivers it, and fetches it through the
saved stack pointer. -/
def Delivers (w : Wrapper) (env : Env) (s : State) : Prop :=
  ∀ s', Passes w s s' → ∃ prog after, w.emitAsmWrapper = some prog ∧
    prog = toCall prog ++ .callIndirect .r12 :: after ∧
    Along (exec env) (FetchesFrom (s.rsp.toNat - savedBytes)) (toCall prog) s' ∧
    Delivered w s' (run (exec env) (toCall prog) s')

/-! ### Where its memory lies -/

def siteArea (w : Wrapper) (s : State) :
    Set Nat := Ico (s.rsp.toNat - (savedBytes + w.scrubDepth)) (siteTop w s)

def siteTarget (w : Wrapper) (env : Env) (s : State) : Set Nat :=
  Ico ((stackptr env w.targetPkey s).toNat - w.targetDepth)
    ((stackptr env w.targetPkey s).toNat + 8)

/-- The call site has room on both stacks, its memory does not overlap, and the caller's stack is
above all PKRU values. -/
structure SiteOk (w : Wrapper) (env : Env) (s : State) : Prop where
  callerRoom : savedBytes + w.scrubDepth ≤ s.rsp.toNat
  callerTop : siteTop w s ≤ 2 ^ 64
  high : 2 ^ 33 ≤ s.rsp.toNat
  targetRoom : w.targetDepth ≤ (stackptr env w.targetPkey s).toNat
  pkru : s.pkru = pkruOf w.callerPkey
  cells : Disjoint (cell env w.callerPkey) (cell env w.targetPkey)
  cells_siteTarget : Disjoint (cell env w.callerPkey ∪ cell env w.targetPkey) (siteTarget w env s)
  cells_siteArea : Disjoint (cell env w.callerPkey ∪ cell env w.targetPkey) (siteArea w s)
  areas : Disjoint (siteTarget w env s) (siteArea w s)

theorem args_subset_siteArea (w : Wrapper) (s : State) :
    Ico (s.rsp.toNat + 8) (siteTop w s) ⊆ siteArea w s :=
  Ico_subset_Ico (by omega) le_rfl

theorem Passes.stackptr (h : Passes w s s') (hok : SiteOk w env s) :
    stackptr env w.targetPkey s' = stackptr env w.targetPkey s :=
  stackptr_congr fun _ ha => h.mem fun hargs =>
    disjoint_left.mp hok.cells_siteArea (.inr ha) (args_subset_siteArea w s hargs)

theorem Passes.siteOk (h : Passes w s s') (hok : SiteOk w env s) : SiteOk w env s' := by
  have htsp := h.stackptr hok
  obtain ⟨hroom, htop, hhigh, htarget, hpkru, hcells, hcells', hcells'', hareas⟩ := hok
  have harea : siteArea w s' = siteArea w s := by rw [siteArea, siteArea, siteTop, siteTop, h.rsp]
  have harea' : siteTarget w env s' = siteTarget w env s := by rw [siteTarget, siteTarget, htsp]
  refine ⟨by rwa [h.rsp], by rwa [siteTop, h.rsp], by rwa [h.rsp], by rwa [htsp],
    h.pkru.trans hpkru, hcells, ?_, ?_, ?_⟩
  · rw [harea']
    exact hcells'
  · rw [harea]
    exact hcells''
  · rw [harea, harea']
    exact hareas

/-! ### The code -/

def siteMoves (w : Wrapper) : Option (List Instr) :=
  moveArgs w.sizes.argPadding (paramGroups (pointerParams w.sig.abi) w.sig.abi.args).flatten
    (paramGroups (initialParams w.sig.abi.ret) w.sig.abi.args).flatten

def siteOpen (w : Wrapper) : List Instr :=
  assertPkru w.debug (pkruOf w.callerPkey) ++ emitIntermediatePkru w.callerPkey w.targetPkey
    .rcx .rdx ++
    (emitSwitchStacks w.callerPkey w.targetPkey ++ emitReturnSpace w.sizes)

def siteStart (w : Wrapper) : List Instr :=
  emitPrologue ++ (siteOpen w ++ emitCopyStackArgs w.sizes (wrapperArgSize w) w.callerPkey)

def siteLeave (w : Wrapper) : List Instr :=
  emitScrubRegs w.callerPkey w.args (decide (w.kind = .indirectCallsite)) ++
    emitSetPkru w.targetPkey

def siteCode (w : Wrapper) (moves : List Instr) : List Instr :=
  siteStart w ++ (moveReg (pointerReg w.sig.abi) (.gpr .r12) :: moves) ++ siteLeave w

theorem emitAsmWrapper_site (hsite : IsSite w) : w.emitAsmWrapper =
    (siteMoves w).map fun moves => siteCode w moves ++ .callIndirect .r12 ::
      (w.emitToCaller ++ w.emitExit) := by
  have hcopy : emitCopyArgs w.sizes w.args (w.wrapperSig.map allocateParamLocations) w.callerPkey =
      (siteMoves w).map fun moves => emitReturnSpace w.sizes ++
      emitCopyStackArgs w.sizes (wrapperArgSize w) w.callerPkey ++
        (moveReg (pointerReg w.sig.abi) (.gpr .r12) :: moves) := by
    have hargs := copyWrapperArgs_eq w.sig.abi
    change copyWrapperArgs w.sizes _ w.args = (siteMoves w).map _ at hargs
    rw [hsite.wrapperSig, Option.map_some, emitCopyArgs, hargs]
    cases siteMoves w <;> rfl
  rw [Wrapper.emitAsmWrapper, hcopy]
  cases siteMoves w with
  | none => rfl
  | some moves =>
    have hentry : w.emitEntry = emitPrologue := by rw [Wrapper.emitEntry, hsite.target]; rfl
    have hcall : w.emitFnCall = .callIndirect .r12 := by rw [Wrapper.emitFnCall, hsite.target]
    simp [hentry, hcall, Wrapper.emitToTarget, siteCode, siteStart, siteOpen, siteLeave]

/-! ### The run to the call -/

def siteEntered (env : Env) (s : State) : State := run (exec env) emitPrologue s

def siteCopied (w : Wrapper) (env : Env) (s : State) : State := run (exec env) (siteStart w) s

def sitePointer (w : Wrapper) (env : Env) (s : State) : State :=
  exec env (moveReg (pointerReg w.sig.abi) (.gpr .r12)) (siteCopied w env s)

def siteCall (w : Wrapper) (env : Env) (s : State) (moves : List Instr) : State :=
  run (exec env) (siteCode w moves) s

def siteCrossing (w : Wrapper) (env : Env) (s : State) : Crossing :=
  ⟨w, env, (siteEntered env s).rsp, siteTop w s, stackptr env w.targetPkey s, 0⟩

section

variable (hok : SiteOk w env s)

include hok

theorem site_prologue :
    (siteEntered env s).rsp.toNat = s.rsp.toNat - savedBytes ∧
      Keeps [.rsp, .rbp] s (siteEntered env s) ∧
      (siteEntered env s).pkru = s.pkru ∧
      EqOn (siteEntered env s).mem s.mem (Ico (s.rsp.toNat - savedBytes) s.rsp.toNat)ᶜ := by
  have hroom := hok.callerRoom
  obtain ⟨-, ⟨hrsp, hkeep, -⟩, hpkru, heq⟩ :=
    @runs_prologue env s.pkru (s.rsp.toNat - savedBytes) s.rsp.toNat 0 s (by omega) le_rfl rfl
  exact ⟨hrsp, hkeep, hpkru, heq⟩

theorem site_apart : (siteCrossing w env s).Apart := by
  have hrsp := (site_prologue hok).1
  have hroom := hok.callerRoom
  have htop := siteTop_eq w s
  have hcaller : (siteCrossing w env s).callerStack ⊆ siteArea w s := by
    refine Ico_subset_Ico ?_ le_rfl
    change _ ≤ (siteEntered env s).rsp.toNat - w.scrubDepth
    omega
  have htarget : (siteCrossing w env s).targetStack ⊆ siteTarget w env s :=
    Ico_subset_Ico le_rfl (Nat.le_add_right _ _)
  refine ⟨?_, hok.targetRoom, ?_, hok.callerTop, hok.cells, hok.cells_siteTarget.mono_right htarget,
    hok.cells_siteArea.mono_right hcaller, hok.areas.mono htarget hcaller⟩
  · change w.scrubDepth ≤ (siteEntered env s).rsp.toNat
    omega
  · change (siteEntered env s).rsp.toNat ≤ siteTop w s
    omega

theorem siteEntered_stackptr :
    stackptr env w.targetPkey (siteEntered env s) = stackptr env w.targetPkey s := by
  refine stackptr_congr fun a ha => (site_prologue hok).2.2.2 fun hframe => ?_
  have htop := siteTop_eq w s
  have hlo := hframe.1
  have hhi := hframe.2
  exact disjoint_left.mp hok.cells_siteArea (.inr ha) ⟨by omega, by omega⟩

theorem site_opened :
    Runs (exec env) (CrossStep (siteCrossing w env s)) (siteOpen w) (siteEntered env s)
      (Opened (siteCrossing w env s) (siteEntered env s)) := by
  obtain ⟨-, -, hpkru, -⟩ := site_prologue hok
  exact runs_open (site_apart hok) rfl (siteEntered_stackptr hok) (hpkru.trans hok.pkru)

theorem site_entered :
    Entered (siteCrossing w env s) (siteEntered env s) (siteCopied w env s) := by
  have h := (site_opened hok).2.entered (site_apart hok) (wrapperArgSize w)
  rw [siteCopied, siteStart, run_append, run_append]
  exact h

theorem site_copied_mem {a : Nat} (ha : s.rsp.toNat ≤ a) (htop : a < siteTop w s) :
    (siteCopied w env s).mem a = s.mem a := by
  obtain ⟨-, -, -, heq⟩ := site_prologue hok
  have harea : a ∈ siteArea w s := ⟨by omega, htop⟩
  rw [(site_entered hok).mem, heq fun h => absurd h.2 (by omega)]
  rintro (hcell | hstack)
  · exact disjoint_left.mp hok.cells_siteArea (.inl hcell) harea
  · exact disjoint_left.mp hok.areas ⟨hstack.1, Nat.lt_add_right 8 hstack.2⟩ harea

theorem site_copied_args (hsize : w.sizes.argSize ≤ wrapperArgSize w) :
    ∀ i < w.sizes.argBytes, (siteCopied w env s).mem
      ((stackptr env w.targetPkey s).toNat - w.sizes.space + i) =
      s.mem (s.rsp.toNat + 8 + (wrapperArgSize w - w.sizes.argSize) + i) := by
  obtain ⟨hrsp, hkeep, hpkru, heq⟩ := site_prologue hok
  have hroom := hok.callerRoom
  have htop := siteTop_eq w s
  have hbytes : w.sizes.argBytes = w.sizes.argSize + w.sizes.argPadding := rfl
  obtain ⟨-, -, hcopy⟩ := @runs_enter (siteCrossing w env s) (siteEntered env s)
    (site_apart hok) rfl
    (siteEntered_stackptr hok) (hpkru.trans hok.pkru) (wrapperArgSize w)
      (s.rsp.toNat + 8 + (wrapperArgSize w - w.sizes.argSize))
    (by change w.sizes.argSize ≤ _; omega)
    (by change _ + w.sizes.argSize = (siteEntered env s).rsp.toNat + _ + _ + _; omega)
    (by change _ + w.sizes.argBytes ≤ siteTop w s; omega)
  intro i hi
  have hcopied := hcopy i hi
  rw [heq fun hframe => absurd hframe.2 (by omega)] at hcopied
  rw [siteCopied, siteStart, run_append]
  exact hcopied

theorem free_value {r : ArgReg} (hr : r ∈ freeRegs (pointerParams w.sig.abi)) :
    r.value (sitePointer w env s) = r.value s := by
  have hahead : Ahead { intsUsed := 1 } (pointerParams w.sig.abi) := by
    have hints := (initialParams_aligned w.sig.abi).ints
    exact ⟨by change 1 ≤ _; omega, Nat.zero_le _⟩
  have hfree : ∀ r ∈ freeRegs { intsUsed := 1 },
    ∀ r' ∈ [Reg.rax, .r10, .r11, .r12, .rsp, .rdi, .rbp], r ≠ .gpr r' := by decide
  have hother := hfree r (hahead.freeRegs_subset hr)
  have hmove := (@exec_moveReg env (pointerReg w.sig.abi) (.gpr .r12) (siteCopied w env s)).1
  rw [sitePointer, hmove.value r (by simpa using hother .r12 (by decide)),
    keeps_value (site_entered hok).keeps fun r' hr' => hother r' (by revert r'; decide),
    keeps_value (site_prologue hok).2.1 fun r' hr' => hother r' (by revert r'; decide)]

theorem pointer_value :
    ((sitePointer w env s).regs .r12).toNat = (pointerReg w.sig.abi).value s := by
  have hlt : (pointerReg w.sig.abi).value s < 2 ^ 64 := by
    unfold pointerReg
    split <;> exact BitVec.isLt _
  have hsame : (pointerReg w.sig.abi).value (siteCopied w env s) =
      (pointerReg w.sig.abi).value s := by
    have hentered := site_entered hok
    have hkeep := (site_prologue hok).2.1
    unfold pointerReg
    split
    · rw [keeps_value hentered.keeps (by decide), keeps_value hkeep (by decide)]
    · rename_i hret
      have hrdi : (siteCopied w env s).regs .rdi = (siteEntered env s).regs .rdi :=
        hentered.rdi.trans (if_neg hret)
      change ((siteCopied w env s).regs .rdi).toNat = _
      rw [hrdi, hkeep.regs .rdi (by decide)]
      rfl
  have hmove := (@exec_moveReg env (pointerReg w.sig.abi) (.gpr .r12) (siteCopied w env s)).2
  rw [hsame, Nat.mod_eq_of_lt hlt] at hmove
  exact hmove

theorem fetched_stack (hargs : 0 < w.sizes.argSize) {pad : Nat} {src : ArgLocation}
    (hstack : src.isStack = true) (hlo : savedBytes ≤ fetchOffset pad src)
    (hhi : s.rsp.toNat + fetchOffset pad src + 8 ≤ siteTop w s + savedBytes) :
    fetched pad src (sitePointer w env s) = s.mem.read
      (s.rsp.toNat - savedBytes + fetchOffset pad src) 8 := by
  have hmove := (@exec_moveReg env (pointerReg w.sig.abi) (.gpr .r12) (siteCopied w env s)).1
  have hentered := site_entered hok
  have hrsp := (site_prologue hok).1
  have hroom := hok.callerRoom
  have htop := hok.callerTop
  have hrax : (sitePointer w env s).regs .rax = (siteEntered env s).rsp := by
    rw [sitePointer, hmove.reg (by decide), hentered.rax]
    exact if_pos hargs
  have haddr : (sitePointer w env s).addr (fetchOffset pad src) .rax =
      s.rsp.toNat - savedBytes + fetchOffset pad src := by
    rw [State.addr, hrax, toNat_add_of_lt (by omega), hrsp]
  have hread : (sitePointer w env s).mem.read (s.rsp.toNat - savedBytes + fetchOffset pad src) 8 =
      s.mem.read (s.rsp.toNat - savedBytes + fetchOffset pad src) 8 := by
    refine ByteMemory.read_congr fun a ha => ?_
    have hlo' := ha.1
    have hhi' := ha.2
    rw [sitePointer, hmove.mem, site_copied_mem hok (by omega) (by omega)]
  rw [fetched, if_pos hstack, haddr, State.load64, hread, BitVec.toNat_ofNat]
  exact Nat.mod_eq_of_lt (ByteMemory.read_lt _ _ 8)

end

section Call

variable {moves : List Instr}

theorem siteCall_eq : siteCall w env s moves =
    run (exec env) (siteLeave w) (run (exec env) moves (sitePointer w env s)) := by
  rw [siteCall, siteCode, run_append, run_append]
  rfl

theorem site_moves_sets (hmoves : siteMoves w = some moves) :
    SetsOnly (savedRegs (paramGroups (initialParams w.sig.abi.ret) w.sig.abi.args).flatten false)
      (sitePointer w env s) (run (exec env) moves (sitePointer w env s)) :=
  run_moveArgs_sets hmoves _

theorem notMem_moved {r : Reg} (hr : .gpr r ∉ paramRegs) :
    .gpr r ∉ savedRegs (paramGroups (initialParams w.sig.abi.ret) w.sig.abi.args).flatten false :=
  fun h =>
  hr (freeRegs_subset_paramRegs _ (savedRegs_groups w.sig.abi.args_slots h))

section

variable (hsite : IsSite w) (hok : SiteOk w env s) (hmoves : siteMoves w = some moves)

include hsite hok hmoves

theorem siteCall_facts :
    (siteCall w env s moves).rsp.toNat = (stackptr env w.targetPkey s).toNat - w.sizes.space ∧
      (∀ a, (stackptr env w.targetPkey s).toNat - w.sizes.space ≤ a →
        (siteCall w env s moves).mem a = (siteCopied w env s).mem a) ∧
      ∀ r ∈ savedRegs w.args true,
        r.value (siteCall w env s moves) = r.value
          (run (exec env) moves (sitePointer w env s)) := by
  have hsets := @site_moves_sets w env s moves hmoves
  have hmove := (@exec_moveReg env (pointerReg w.sig.abi) (.gpr .r12) (siteCopied w env s)).1
  have hentered := site_entered hok
  have hrsp : (run (exec env) moves (sitePointer w env s)).rsp = (siteCopied w env s).rsp := by
    rw [State.rsp, State.rsp, hsets.reg (notMem_moved (by decide)), sitePointer,
      hmove.reg (by decide)]
  have hpkru : (run (exec env) moves (sitePointer w env s)).pkru =
      mixedPkru w.callerPkey w.targetPkey := by
    rw [hsets.pkru, sitePointer, hmove.pkru]
    exact hentered.pkru
  have hmem : (run (exec env) moves (sitePointer w env s)).mem = (siteCopied w env s).mem := by
    rw [hsets.mem, sitePointer, hmove.mem]
  have hkind : decide (w.kind = .indirectCallsite) = true := decide_eq_true hsite.kind
  obtain ⟨-, hrsp', -, heq, hvalue⟩ := @runs_leave (siteCrossing w env s) (site_apart hok) _
    (by rw [hrsp]; exact hentered.rsp) hpkru
  rw [siteCall_eq]
  refine ⟨?_, fun a ha => ?_, fun r hr => ?_⟩
  · refine hrsp'.trans ?_
    rw [hrsp]
    exact hentered.rsp
  · rw [← hmem]
    exact heq fun h => absurd h.2 (Nat.not_lt.mpr ha)
  · refine hvalue r ?_
    change r ∈ savedRegs w.args (decide (w.kind = .indirectCallsite))
    rwa [hkind]

theorem siteCall_pointer :
    ((siteCall w env s moves).regs .r12).toNat = (pointerReg w.sig.abi).value s := by
  have hvalue := (siteCall_facts hsite hok hmoves).2.2 (.gpr .r12)
    (mem_savedRegs.mpr (.inr ⟨rfl, rfl⟩))
  rw [← pointer_value hok]
  exact hvalue.trans ((site_moves_sets hmoves).value _ (notMem_moved (by decide)))

theorem siteCall_value {r : ArgReg} {src : ArgLocation} (hr : r ∈ savedRegs w.args false)
    (hfetch : Fetches env w.sizes.argPadding moves r src) :
    r.value (siteCall w env s moves) = fetched w.sizes.argPadding src (sitePointer w env s) := by
  have hsaved : r ∈ savedRegs w.args true := by
    rcases mem_savedRegs.mp hr with hloc | ⟨hfalse, -⟩
    · exact mem_savedRegs.mpr (.inl hloc)
    · cases hfalse
  rw [(siteCall_facts hsite hok hmoves).2.2 r hsaved, hfetch.value]

end

end Call

/-! ### The bases of memory operands -/

variable {prog moves : List Instr}

theorem along_fetchesFrom (h : ∀ i ∈ prog, fetchBase i = none) (sp : Nat) (s : State) :
    Along (exec env) (FetchesFrom sp) prog s := by
  induction prog generalizing s with
  | nil => trivial
  | cons i prog ih =>
    rw [List.forall_mem_cons] at h
    refine ⟨fun base hbase => ?_, ih h.2 _⟩
    rw [h.1] at hbase
    cases hbase

variable {sp : Nat}

theorem along_fetchesFrom_rax (hkeep : ∀ i ∈ prog, ∀ t, (exec env i t).regs .rax = t.regs .rax)
    (hbase : ∀ i ∈ prog, ∀ base ∈ fetchBase i, base = .rax) (hrax : (s.regs .rax).toNat = sp) :
    Along (exec env) (FetchesFrom sp) prog s := by
  induction prog generalizing s with
  | nil => trivial
  | cons i prog ih =>
    rw [List.forall_mem_cons] at hkeep hbase
    refine ⟨fun base hmem => ?_, ih hkeep.2 hbase.2 ?_⟩
    · rw [hbase.1 base hmem, hrax]
    · rw [hkeep.1, hrax]

theorem rax_of_fetchesFrom {i : Instr}
    (hkeep : ∀ i ∈ prog, ∀ t, (exec env i t).regs .rax = t.regs .rax)
    (h : Along (exec env) (FetchesFrom sp) prog s) (hi : i ∈ prog)
    (hbase : fetchBase i = some .rax) : (s.regs .rax).toNat = sp := by
  induction prog generalizing s with
  | nil => cases hi
  | cons j prog ih =>
    rw [List.forall_mem_cons] at hkeep
    rcases List.mem_cons.mp hi with rfl | hi
    · exact h.1 .rax hbase
    · rw [← hkeep.1]
      exact ih hkeep.2 h.2 hi

theorem copyStackArgs_fetchesFrom (z : StackSizes) (size pkey : Nat) (c : State) :
    Along (exec env) (FetchesFrom (stackptr env pkey c).toNat)
      (emitCopyStackArgs z size pkey) c := by
  unfold emitCopyStackArgs
  split
  · refine (along_append c).mpr ⟨along_fetchesFrom (by simp [fetchBase]) _ c, ?_⟩
    refine along_fetchesFrom_rax (List.forall_mem_map.mpr fun k _ t => rfl) ?_ rfl
    exact List.forall_mem_map.mpr fun k _ base hbase => (Option.some.inj hbase).symm
  · trivial

theorem fetchBase_regPush (loc : ArgLocation) : ∀ i ∈ emitRegPush loc, fetchBase i = none := by
  unfold emitRegPush
  split <;> simp [fetchBase]

theorem fetchBase_regPop (loc : ArgLocation) : ∀ i ∈ emitRegPop loc, fetchBase i = none := by
  unfold emitRegPop
  split <;> simp [fetchBase]

theorem fetchBase_siteLeave (w : Wrapper) : ∀ i ∈ siteLeave w, fetchBase i = none := by
  refine List.forall_mem_append.mpr
    ⟨?_, by simp [emitSetPkru, keepingRegs, emitWrpkru, writePkru, fetchBase]⟩
  unfold emitScrubRegs
  split
  · simp only [List.forall_mem_append, List.mem_flatMap, forall_exists_index, and_imp,
      List.forall_mem_singleton]
    refine ⟨⟨⟨⟨fun i loc _ => fetchBase_regPush loc i, ?_⟩, rfl⟩, ?_⟩,
      fun i loc _ => fetchBase_regPop loc i⟩
    · split <;> simp [fetchBase]
    · split <;> simp [fetchBase]
  · simp

theorem fetchBase_siteOpen (w : Wrapper) : ∀ i ∈ siteOpen w, fetchBase i = none := by
  refine List.forall_mem_append.mpr ⟨List.forall_mem_append.mpr ⟨?_, ?_⟩,
    List.forall_mem_append.mpr ⟨?_, ?_⟩⟩
  · unfold assertPkru
    split <;> simp [fetchBase]
  · simp [emitIntermediatePkru, keepingRegs, emitMixedWrpkru, writePkru, fetchBase]
  · simp [emitSwitchStacks, fetchBase]
  · unfold emitReturnSpace
    split <;> split <;> simp [fetchBase]

theorem moves_keep_rax (hmoves : siteMoves w = some moves) :
    ∀ i ∈ moveReg (pointerReg w.sig.abi) (.gpr .r12) :: moves, ∀ t,
      (exec env i t).regs .rax = t.regs .rax := by
  refine List.forall_mem_cons.mpr ⟨fun t => (exec_moveReg _ _ t).1.reg (by decide),
    fun i hi t => ?_⟩
  obtain ⟨r, hr, hinstr⟩ := moveArgs_instr hmoves i hi
  have hrax : .gpr .rax ∉ [r] := by
    simp only [List.mem_singleton]
    rintro rfl
    exact rax_notMem_freeRegs _ (savedRegs_groups w.sig.abi.args_slots hr)
  rcases hinstr with ⟨r', rfl⟩ | ⟨offset, rfl⟩
  · exact (exec_moveReg _ _ t).1.reg hrax
  · exact (exec_loadReg _ _ _ t).1.reg hrax

theorem fetchBase_moveReg (r r' : ArgReg) : fetchBase (moveReg r r') = none := by
  cases r <;> cases r' <;> rfl

theorem fetchBase_loadReg (offset : Nat) (base : Reg) (r : ArgReg) :
    fetchBase (loadReg offset base r) = some base := by
  cases r <;> rfl

theorem site_fetchesFrom (hok : SiteOk w env s) :
    Along (exec env) (FetchesFrom (s.rsp.toNat - savedBytes)) (siteCode w moves) s ↔
      Along (exec env) (FetchesFrom (s.rsp.toNat - savedBytes))
        (moveReg (pointerReg w.sig.abi) (.gpr .r12) :: moves)
        (siteCopied w env s) := by
  have hsaved : stackptr env w.callerPkey (run (exec env) (siteOpen w) (siteEntered env s)) =
      (siteEntered env s).rsp :=
    (site_opened hok).2.saved
  have hcopy := @copyStackArgs_fetchesFrom env w.sizes (wrapperArgSize w) w.callerPkey
    (run (exec env) (siteOpen w) (siteEntered env s))
  rw [hsaved, (site_prologue hok).1] at hcopy
  have hstart : Along (exec env) (FetchesFrom (s.rsp.toNat - savedBytes)) (siteStart w) s := by
    refine (along_append s).mpr
      ⟨along_fetchesFrom (by simp [emitPrologue, preservedRegisters, fetchBase]) _ s,
      (along_append _).mpr ⟨along_fetchesFrom (fetchBase_siteOpen w) _ _, hcopy⟩⟩
  rw [siteCode, along_append, along_append]
  refine ⟨fun h => h.1.2, fun h => ⟨⟨hstart, h⟩, along_fetchesFrom (fetchBase_siteLeave w) _ _⟩⟩

theorem siteCopied_rax (hok : SiteOk w env s) :
    ((siteCopied w env s).regs .rax).toNat = s.rsp.toNat - savedBytes ↔
    0 < w.sizes.argSize := by
  have hrax := (site_entered hok).rax
  have hhigh := hok.high
  have hbytes : savedBytes = 48 := rfl
  constructor
  · intro h
    by_contra hargs
    have hmixed : ((siteCopied w env s).regs .rax).toNat =
        ((mixedPkru w.callerPkey w.targetPkey).setWidth 64).toNat :=
      congrArg BitVec.toNat (hrax.trans (if_neg hargs))
    have hlt := (mixedPkru w.callerPkey w.targetPkey).isLt
    rw [BitVec.toNat_setWidth] at hmixed
    omega
  · intro hargs
    rw [← (site_prologue hok).1]
    exact congrArg BitVec.toNat (hrax.trans (if_pos hargs))

/-! ### The locations at the call -/

theorem isCall_loadReg (offset : Nat) (base : Reg) (r : ArgReg) :
    (loadReg offset base r).isCall = false := by
  cases r <;> rfl

theorem siteCode_noCall (hmoves : siteMoves w = some moves) :
    ∀ i ∈ siteCode w moves, i.isCall = false := by
  have hplain : ∀ {i : Instr}, i.isPlain = true → i.isCall = false :=
    fun h => (Instr.isPlain_iff.mp h).1
  have hlocal : ∀ {i : Instr}, i.isLocal = true → i.isCall = false :=
    fun h => hplain (Instr.isPlain_of_isLocal h)
  have hopen : ∀ i ∈ siteOpen w, i.isCall = false := by
    refine List.forall_mem_append.mpr ⟨List.forall_mem_append.mpr ⟨?_, ?_⟩,
      List.forall_mem_append.mpr ⟨?_, ?_⟩⟩
    · unfold assertPkru
      split <;> simp [Instr.isCall]
    · simp [emitIntermediatePkru, keepingRegs, emitMixedWrpkru, writePkru, Instr.isCall]
    · exact fun i hi => hplain (emitSwitchStacks_isPlain _ _ i hi)
    · exact fun i hi => hlocal (emitReturnSpace_isLocal _ i hi)
  refine List.forall_mem_append.mpr ⟨List.forall_mem_append.mpr ⟨List.forall_mem_append.mpr ⟨?_,
    List.forall_mem_append.mpr ⟨hopen, fun i hi => hplain (emitCopyStackArgs_isPlain _ _ _ i hi)⟩⟩,
    ?_⟩,
    List.forall_mem_append.mpr ⟨fun i hi => hlocal (emitScrubRegs_isLocal _ _ _ i hi), ?_⟩⟩
  · simp [emitPrologue, preservedRegisters, Instr.isCall]
  · refine List.forall_mem_cons.mpr ⟨isCall_moveReg _ _, fun i hi => ?_⟩
    obtain ⟨r, -, ⟨r', rfl⟩ | ⟨offset, rfl⟩⟩ := moveArgs_instr hmoves i hi
    · exact isCall_moveReg _ _
    · exact isCall_loadReg _ _ _
  · simp [emitSetPkru, keepingRegs, emitWrpkru, writePkru, Instr.isCall]

theorem toCall_site (hmoves : siteMoves w = some moves) (rest : List Instr) :
    toCall (siteCode w moves ++ .callIndirect .r12 :: rest) = siteCode w moves := by
  have hnone : ∀ i ∈ siteCode w moves, (!i.isCall) = true := fun i hi => by
    rw [siteCode_noCall hmoves i hi]; rfl
  rw [toCall, List.takeWhile_append_of_pos hnone]
  simp [Instr.isCall]

theorem delivers_iff_moves (hsite : IsSite w) :
    Delivers w env s ↔ ∀ s', Passes w s s' → ∃ moves, siteMoves w = some moves ∧
    Along (exec env) (FetchesFrom (s.rsp.toNat - savedBytes)) (siteCode w moves) s' ∧
    Delivered w s' (siteCall w env s' moves) := by
  refine forall_congr' fun s' => imp_congr_right fun _ => ?_
  rw [emitAsmWrapper_site hsite]
  constructor
  · rintro ⟨prog, after, hprog, -, halong, hdelivered⟩
    obtain ⟨moves, hmoves, rfl⟩ := Option.map_eq_some_iff.mp hprog
    rw [toCall_site hmoves] at halong hdelivered
    exact ⟨moves, hmoves, halong, hdelivered⟩
  · rintro ⟨moves, hmoves, halong, hdelivered⟩
    refine ⟨siteCode w moves ++ .callIndirect .r12 :: (w.emitToCaller ++ w.emitExit),
      w.emitToCaller ++ w.emitExit, ?_, ?_, ?_, ?_⟩
    · rw [hmoves]
      rfl
    · rw [toCall_site hmoves]
    · rwa [toCall_site hmoves]
    · rwa [toCall_site hmoves]

section Locations

variable {moves : List Instr} {g : List ArgLocation × List ArgLocation}
  {p : ArgLocation × ArgLocation} {r r' : ArgReg}

variable {loc : ArgLocation}

theorem locValue_stack (h : loc.isStack = true) (s : State) (base : Nat) :
    locValue s base loc = s.mem.read (base + loc.stackOffset) loc.width :=
  if_pos h

theorem locValue_reg (h : loc.isStack = false) (hr : loc.reg = some r) (s : State) (base : Nat) :
    locValue s base loc = r.value s % 256 ^ loc.width := by
  rw [locValue, if_neg (by simp [h]), hr]

theorem argValue_singleton (s : State) (base : Nat) (loc : ArgLocation) :
    argValue s base [loc] = locValue s base loc := rfl

theorem savedRegs_of_mem_groups (hg : g ∈ shiftedGroups w.sig.abi) (hloc : loc ∈ g.1)
    (hstack : loc.isStack = false) (hr : loc.reg = some r) :
    r ∈ savedRegs w.args false := by
  refine mem_savedRegs.mpr (.inl ⟨loc, ?_, hstack, hr⟩)
  rw [Wrapper.args, params_eq]
  exact List.mem_append_right _ (List.mem_flatten.mpr ⟨g.1, (List.of_mem_zip hg).1, hloc⟩)

theorem locValue_moved (hsite : IsSite w) (hok : SiteOk w env s) (hmoves : siteMoves w = some moves)
    (hg : g ∈ shiftedGroups w.sig.abi) (hp : p ∈ g.1.zip g.2)
    (hfetch : Fetches env w.sizes.argPadding moves r p.2)
    (hstack : p.1.isStack = false) (hr : p.1.reg = some r) (hstack' : p.2.isStack = false)
    (hr' : p.2.reg = some r')
    (base : Nat) :
    locValue (siteCall w env s moves) base p.1 = r'.value s % 2 ^ 64 % 256 ^ p.1.width := by
  have hfree : r' ∈ freeRegs (pointerParams w.sig.abi) := by
    obtain ⟨r'', hfree, hreg⟩ := paramGroups_reg w.sig.abi.args_slots
      (List.mem_flatten.mpr ⟨g.2, (List.of_mem_zip hg).2, (List.of_mem_zip hp).2⟩) hstack'
    rw [hr'] at hreg
    cases hreg
    exact hfree
  rw [locValue_reg hstack hr,
    siteCall_value hsite hok hmoves (savedRegs_of_mem_groups hg (List.of_mem_zip hp).1 hstack hr)
    hfetch,
    fetched_reg hstack' hr', free_value hok hfree]

theorem value_loaded (hsite : IsSite w) (hok : SiteOk w env s) (hmoves : siteMoves w = some moves)
    {src : ArgLocation} (hr : r ∈ savedRegs w.args false)
    (hfetch : Fetches env w.sizes.argPadding moves r src) (hargs : 0 < w.sizes.argSize)
    (hstack : src.isStack = true) (hsize : src.size ≤ 16) (halign : src.align ≤ 16)
    (hoffset : src.stackOffset + 8 ≤ wrapperArgSize w) :
    r.value (siteCall w env s moves) =
      s.mem.read (s.rsp.toNat - savedBytes + fetchOffset w.sizes.argPadding src) 8 := by
  have hlo := le_alignUp (savedBytes + w.sizes.argPadding + src.stackOffset + src.size)
    (max src.align 8)
  have hhi := alignUp_lt (savedBytes + w.sizes.argPadding + src.stackOffset + src.size)
    (show 0 < max src.align 8 by omega)
  have htop := siteTop_eq w s
  have hroom := hok.callerRoom
  rw [siteCall_value hsite hok hmoves hr hfetch]
  refine fetched_stack hok hargs hstack ?_ ?_
  · rw [fetchOffset]
    omega
  · rw [fetchOffset]
    omega

theorem stackByte (hsite : IsSite w) (hok : SiteOk w env s) (hmoves : siteMoves w = some moves)
    (hsize : w.sizes.argSize ≤ wrapperArgSize w) {i : Nat} (hi : i < w.sizes.argBytes) :
    (siteCall w env s moves).mem ((siteCall w env s moves).rsp.toNat + i) =
      s.mem (s.rsp.toNat + 8 + (wrapperArgSize w - w.sizes.argSize) + i) := by
  obtain ⟨hrsp, habove, -⟩ := siteCall_facts hsite hok hmoves
  rw [hrsp, habove _ (Nat.le_add_right _ _), site_copied_args hok hsize i hi]

end Locations

end Ia2.Gate
