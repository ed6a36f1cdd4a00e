import Ia2.Gate.Scrub

/-!
# Crossing a gate

The part of a gate between the two compartments: the switch to the target's stack with the
arguments, the call, and the way back with the result. A crossing names where its memory is;
`CrossStep` says what each of its instructions may do.
-/

namespace Ia2.Rewriter.Wrapper

variable (w : Wrapper)

def targetDepth : Nat :=
  w.sizes.space + (Gate.savedSize (Gate.savedRegs w.args (decide (w.kind = .indirectCallsite))) + 8)

theorem targetDepth_eq : w.targetDepth = w.sizes.space +
    (Gate.savedSize (Gate.savedRegs w.args (decide (w.kind = .indirectCallsite))) + 8) :=
  rfl

theorem space_le_targetDepth : w.sizes.space ≤ w.targetDepth := Nat.le_add_right _ _

def scrubDepth : Nat := Gate.savedSize (Gate.savedRegs w.rets false) + 8

end Ia2.Rewriter.Wrapper

namespace Ia2.Gate

open X86 Rewriter StraightLine Set

structure Crossing where
  w : Wrapper
  env : Env
  sp : BitVec 64
  top : Nat
  tsp : BitVec 64
  buffer : BitVec 64

namespace Crossing

variable (x : Crossing)

def callerCell : Set Nat := cell x.env x.w.callerPkey

def targetCell : Set Nat := cell x.env x.w.targetPkey

def cells : Set Nat := x.callerCell ∪ x.targetCell

def targetStack : Set Nat := Ico (x.tsp.toNat - x.w.targetDepth) x.tsp.toNat

def scrubStack : Set Nat := Ico (x.sp.toNat - x.w.scrubDepth) x.sp.toNat

def callerStack : Set Nat := Ico (x.sp.toNat - x.w.scrubDepth) x.top

def returnBuffer : Set Nat := Ico x.buffer.toNat (x.buffer.toNat + x.w.sizes.returnSize)

def reads : Set Nat := x.cells ∪ x.targetStack ∪ x.callerStack

def writes : Set Nat := x.cells ∪ x.targetStack ∪ x.scrubStack ∪ x.returnBuffer

theorem cells_subset_reads : x.cells ⊆ x.reads := fun _ h => .inl (.inl h)

theorem targetStack_subset_reads : x.targetStack ⊆ x.reads := fun _ h => .inl (.inr h)

theorem callerStack_subset_reads : x.callerStack ⊆ x.reads := fun _ h => .inr h

theorem cells_subset_writes : x.cells ⊆ x.writes := fun _ h => .inl (.inl (.inl h))

theorem targetStack_subset_writes : x.targetStack ⊆ x.writes := fun _ h => .inl (.inl (.inr h))

theorem scrubStack_subset_writes : x.scrubStack ⊆ x.writes := fun _ h => .inl (.inr h)

theorem returnBuffer_subset_writes : x.returnBuffer ⊆ x.writes := fun _ h => .inr h

/-- The memory of the gate before the call has room and does not overlap. -/
structure Apart : Prop where
  scrubRoom : x.w.scrubDepth ≤ x.sp.toNat
  targetRoom : x.w.targetDepth ≤ x.tsp.toNat
  sp_le : x.sp.toNat ≤ x.top
  top_le : x.top ≤ 2 ^ 64
  callerCell_targetCell : Disjoint x.callerCell x.targetCell
  cells_targetStack : Disjoint x.cells x.targetStack
  cells_callerStack : Disjoint x.cells x.callerStack
  targetStack_callerStack : Disjoint x.targetStack x.callerStack

structure Ok : Prop extends x.Apart where
  bufferRoom : x.buffer.toNat + x.w.sizes.returnSize < 2 ^ 64
  cells_returnBuffer : Disjoint x.cells x.returnBuffer
  both_returnBuffer : Disjoint (x.targetStack ∪ x.callerStack) x.returnBuffer

def pkrus : List (BitVec 32) :=
  [pkruOf x.w.callerPkey, mixedPkru x.w.callerPkey x.w.targetPkey, pkruOf x.w.targetPkey]

end Crossing

structure CrossStep (x : Crossing) (i : Instr) (s : State) : Prop where
  noCall : i.isCall = false
  noRet : i ≠ .ret
  noFault : ¬ i.Faults s
  loads : LoadsCell x.env [x.sp, x.tsp] i s
  access : accesses x.env i s = [] ∧ s.pkru ∈ x.pkrus ∨
    s.pkru = mixedPkru x.w.callerPkey x.w.targetPkey ∧ Confined x.env x.reads x.writes i s

variable {x : Crossing} {prog : List Instr} {s : State} {Q : State → Prop}

theorem CrossStep.of_quiet {pkru pkru' : BitVec 32} {m : ByteMemory} {i : Instr}
    (h : Quiet x.env pkru pkru' m i s) (hpkru : pkru ∈ x.pkrus) (hpkru' : pkru' ∈ x.pkrus) :
    CrossStep x i s := by
  obtain ⟨hnone, hfault, hvalue, -⟩ := h
  refine ⟨?_, ?_, hfault, ?_, .inl ⟨hnone, ?_⟩⟩
  · cases i
    case call => simp [accesses] at hnone
    case callIndirect => simp [accesses] at hnone
    all_goals rfl
  · rintro rfl
    simp [accesses] at hnone
  · rintro offset dst rfl
    simp [accesses] at hnone
  · rcases hvalue with hvalue | hvalue
    · rwa [hvalue]
    · rwa [hvalue]

theorem runs_between {R W : Set Nat} {values : List (BitVec 64)}
    (h : Runs (exec x.env) (fun i s' => Confined x.env R W i s' ∧ LoadsCell x.env values i s') prog
      s Q)
    (hplain : ∀ i ∈ prog, i.isPlain = true) (hR : R ⊆ x.reads) (hW : W ⊆ x.writes)
    (hvalues : values ⊆ [x.sp, x.tsp]) (hpkru : s.pkru = mixedPkru x.w.callerPkey x.w.targetPkey) :
    Runs (exec x.env) (CrossStep x) prog s fun s' =>
      Q s' ∧ s'.pkru = mixedPkru x.w.callerPkey x.w.targetPkey ∧ EqOn s'.mem s.mem Wᶜ := by
  obtain ⟨halong, hpkru', heq⟩ := Confined.along h.1 (fun i s' h => h.1) hplain
  refine ⟨halong.mono fun i s' hi hstep => ?_, h.2, hpkru'.trans hpkru, heq⟩
  obtain ⟨⟨hconf, hloads⟩, hvalue, -⟩ := hstep
  have hplain' := hplain i hi
  refine ⟨(Instr.isPlain_iff.mp hplain').1, ?_, Instr.not_faults_of_isPlain hplain' s', ?_,
    .inr ⟨hvalue.trans hpkru, hconf.mono hR hW⟩⟩
  · rintro rfl
    cases hplain'
  · exact fun offset dst hi => hvalues (hloads offset dst hi)

theorem runs_between_local {R W : Set Nat} (h : Runs (exec x.env) (Confined x.env R W) prog s Q)
    (hlocal : ∀ i ∈ prog, i.isLocal = true) (hR : R ⊆ x.reads) (hW : W ⊆ x.writes)
    (hpkru : s.pkru = mixedPkru x.w.callerPkey x.w.targetPkey) :
    Runs (exec x.env) (CrossStep x) prog s fun s' =>
      Q s' ∧ s'.pkru = mixedPkru x.w.callerPkey x.w.targetPkey ∧ EqOn s'.mem s.mem Wᶜ := by
  refine @runs_between x prog s Q R W [] (h.mono (fun i s' hi hconf => ⟨hconf, ?_⟩) fun s' h => h)
    (fun i hi => Instr.isPlain_of_isLocal (hlocal i hi)) hR hW (by simp) hpkru
  rintro offset dst rfl
  cases hlocal _ hi

/-! ### To the target -/

structure Opened (x : Crossing) (s c : State) : Prop where
  rsp : c.rsp.toNat = x.tsp.toNat - (x.w.sizes.returnBytes + x.w.sizes.alignment)
  pkru : c.pkru = mixedPkru x.w.callerPkey x.w.targetPkey
  mem : EqOn c.mem s.mem (x.callerCell ∪ Ico (x.tsp.toNat - x.w.sizes.returnBytes) x.tsp.toNat)ᶜ
  saved : stackptr x.env x.w.callerPkey c = x.sp
  keeps : Keeps [.rax, .r10, .r11, .rsp, .rdi] s c
  rdi : c.regs .rdi = if 0 < x.w.sizes.returnSize
    then x.tsp - BitVec.ofNat 64 (x.w.sizes.returnSize + x.w.sizes.returnPadding) else s.regs .rdi
  slot : 0 < x.w.sizes.returnSize → c.load64 (x.tsp.toNat - x.w.sizes.returnBytes) = s.regs .rdi
  rax : c.regs .rax = (mixedPkru x.w.callerPkey x.w.targetPkey).setWidth 64

structure Entered (x : Crossing) (s c : State) : Prop where
  rsp : c.rsp.toNat = x.tsp.toNat - x.w.sizes.space
  pkru : c.pkru = mixedPkru x.w.callerPkey x.w.targetPkey
  mem : EqOn c.mem s.mem (x.callerCell ∪ x.targetStack)ᶜ
  padding : EqOn c.mem s.mem
    (Ico (x.tsp.toNat - x.w.sizes.space + x.w.sizes.argBytes) (x.tsp.toNat - x.w.sizes.returnBytes))
  saved : stackptr x.env x.w.callerPkey c = x.sp
  keeps : Keeps [.rax, .r10, .r11, .r12, .rsp, .rdi] s c
  rdi : c.regs .rdi = if 0 < x.w.sizes.returnSize
    then x.tsp - BitVec.ofNat 64 (x.w.sizes.returnSize + x.w.sizes.returnPadding) else s.regs .rdi
  slot : 0 < x.w.sizes.returnSize → c.load64 (x.tsp.toNat - x.w.sizes.returnBytes) = s.regs .rdi
  rax : c.regs .rax = if 0 < x.w.sizes.argSize then x.sp
    else (mixedPkru x.w.callerPkey x.w.targetPkey).setWidth 64

theorem runs_openPkru (hpkru : s.pkru = pkruOf x.w.callerPkey) :
    Runs (exec x.env) (CrossStep x)
      (assertPkru x.w.debug (pkruOf x.w.callerPkey) ++
        emitIntermediatePkru x.w.callerPkey x.w.targetPkey .rcx .rdx) s
      fun s' => s'.pkru = mixedPkru x.w.callerPkey x.w.targetPkey ∧ s'.mem = s.mem ∧
        Keeps [.rax, .r10, .r11] s s' ∧
        s'.regs .rax = (mixedPkru x.w.callerPkey x.w.targetPkey).setWidth 64 := by
  have hmixed : mixedPkru x.w.callerPkey x.w.targetPkey ∈ x.pkrus := by simp [Crossing.pkrus]
  have hcaller : pkruOf x.w.callerPkey ∈ x.pkrus := by simp [Crossing.pkrus]
  have hcheck := @runs_assertPkru x.env x.w.debug s
  rw [hpkru] at hcheck
  refine (hcheck.mono (fun i s' _ h => .of_quiet h hcaller hcaller) fun s' h => h).append ?_
  rintro s₁ ⟨hpkru₁, hmem₁, hkeep₁⟩
  have hset := @runs_keepingRegs x.env _ _ (.inl ⟨rfl, rfl⟩)
    (mixedPkru x.w.callerPkey x.w.targetPkey) s₁
  rw [hpkru₁] at hset
  obtain ⟨halong, hpkru₂, hmem₂, hkeep₂⟩ := hset
  refine ⟨halong.mono fun i s' _ h => .of_quiet h hcaller hmixed, hpkru₂, hmem₂.trans hmem₁, ?_,
    run_keepingRegs_rax _ s₁⟩
  exact (hkeep₁.trans hkeep₂).mono (by simp)

theorem runs_open (hok : x.Apart) (hsp : s.rsp = x.sp)
    (htsp : stackptr x.env x.w.targetPkey s = x.tsp) (hpkru : s.pkru = pkruOf x.w.callerPkey) :
    Runs (exec x.env) (CrossStep x)
      (assertPkru x.w.debug (pkruOf x.w.callerPkey) ++
        emitIntermediatePkru x.w.callerPkey x.w.targetPkey .rcx .rdx ++
        (emitSwitchStacks x.w.callerPkey x.w.targetPkey ++ emitReturnSpace x.w.sizes)) s
          (Opened x s) := by
  have hspace := x.w.sizes.space_eq
  have hdepth := x.w.space_le_targetDepth
  have hroom := hok.targetRoom
  have hslots : Ico (x.tsp.toNat - x.w.sizes.returnBytes) x.tsp.toNat ⊆ x.targetStack :=
    Ico_subset_Ico (by omega) le_rfl
  refine (runs_openPkru hpkru).append ?_
  rintro s₂ ⟨hpkru₂, hmem₂, hkeep₂, hrax₂⟩
  have htsp₂ : stackptr x.env x.w.targetPkey s₂ = x.tsp := by
    rw [← htsp, stackptr, stackptr, State.load64, hmem₂]; rfl
  have hsp₂ : s₂.rsp = x.sp := (hkeep₂.regs .rsp (by simp)).trans hsp
  have hswitch := runs_switchStacks (s := s₂) hok.callerCell_targetCell
  rw [htsp₂, hsp₂] at hswitch
  refine (runs_between hswitch (emitSwitchStacks_isPlain _ _)
    (subset_union_right.trans x.cells_subset_reads)
    (subset_union_left.trans x.cells_subset_writes) (by simp) hpkru₂).append ?_
  rintro s₃ ⟨⟨hrsp₃, hkeep₃, hsaved₃⟩, hpkru₃, heq₃⟩
  have hreturn := @runs_returnSpace x.env x.w.sizes (stackSizes_alignment _) s₃
    (by rw [hrsp₃]; omega)
  rw [hrsp₃] at hreturn
  refine (runs_between_local hreturn (emitReturnSpace_isLocal _) (empty_subset _)
    (hslots.trans x.targetStack_subset_writes) hpkru₃).post ?_
  rintro s₄ ⟨⟨hrsp₄, hkeep₄, hrdi₄, hslot₄⟩, hpkru₄, heq₄⟩
  refine ⟨hrsp₄, hpkru₄, fun a ha => ?_, ?_, ?_, ?_, fun hret => ?_, ?_⟩
  · rw [heq₄ fun hstack => ha (.inr hstack), heq₃ fun hcell => ha (.inl hcell), hmem₂]
  · rw [← hsaved₃]
    exact stackptr_congr fun a ha => heq₄ fun hstack =>
      disjoint_left.mp hok.cells_targetStack (.inl ha) (hslots hstack)
  · exact ((hkeep₂.trans hkeep₃).trans hkeep₄).mono (by simp)
  · rw [hrdi₄, hkeep₃.regs .rdi (by simp), hkeep₂.regs .rdi (by simp)]
  · rw [hslot₄ hret, hkeep₃.regs .rdi (by simp), hkeep₂.regs .rdi (by simp)]
  · rw [hkeep₄.regs .rax (by simp), hkeep₃.regs .rax (by simp), hrax₂]

theorem Opened.entered (hok : x.Apart) {c : State} (h : Opened x s c) (size : Nat) :
    Entered x s (run (exec x.env) (emitCopyStackArgs x.w.sizes size x.w.callerPkey) c) := by
  have hspace := x.w.sizes.space_eq
  have hdepth := x.w.space_le_targetDepth
  have hroom := hok.targetRoom
  have hrsp := h.rsp
  obtain ⟨hrsp', hkeep', hpkru', heq', hrax'⟩ :=
    @run_copyStackArgs x.env x.w.sizes (stackSizes_argBytes _) size x.w.callerPkey c (by omega)
  have hargs : Ico (c.rsp.toNat - x.w.sizes.argBytes) c.rsp.toNat ⊆ x.targetStack :=
    Ico_subset_Ico (by omega) (by omega)
  have hslots : Ico (x.tsp.toNat - x.w.sizes.returnBytes) x.tsp.toNat ⊆ x.targetStack :=
    Ico_subset_Ico (by omega) le_rfl
  refine ⟨by omega, hpkru'.trans h.pkru, fun a ha => ?_, fun a ha => ?_, ?_, ?_, ?_,
    fun hret => ?_, ?_⟩
  · rw [heq' fun hstack => ha (.inr (hargs hstack)), h.mem]
    rintro (hcell | hstack)
    · exact ha (.inl hcell)
    · exact ha (.inr (hslots hstack))
  · have hlo := ha.1
    have hhi := ha.2
    rw [heq' fun hstack => by have := hstack.2; omega, h.mem]
    rintro (hcell | hstack)
    · exact disjoint_left.mp hok.cells_targetStack (.inl hcell) ⟨by omega, by omega⟩
    · exact absurd hstack.1 (by omega)
  · rw [← h.saved]
    exact stackptr_congr fun a ha => heq' fun hstack =>
      disjoint_left.mp hok.cells_targetStack (.inl ha) (hargs hstack)
  · exact (h.keeps.trans hkeep').mono (by simp)
  · rw [hkeep'.regs .rdi (by simp), h.rdi]
  · rw [← h.slot hret]
    refine State.load64_congr fun a ha => heq' fun hstack => ?_
    have := ha.1
    have := hstack.2
    omega
  · rw [hrax', h.saved, h.rax]

theorem runs_enter (hok : x.Apart) (hsp : s.rsp = x.sp)
    (htsp : stackptr x.env x.w.targetPkey s = x.tsp) (hpkru : s.pkru = pkruOf x.w.callerPkey)
    {size src : Nat} (hsize : x.w.sizes.argSize ≤ savedBytes + size)
    (hsrc : src + x.w.sizes.argSize = x.sp.toNat + savedBytes + 8 + size)
    (htop : src + x.w.sizes.argBytes ≤ x.top) :
    Runs (exec x.env) (CrossStep x)
      (assertPkru x.w.debug (pkruOf x.w.callerPkey) ++
        emitIntermediatePkru x.w.callerPkey x.w.targetPkey .rcx .rdx ++
        (emitSwitchStacks x.w.callerPkey x.w.targetPkey ++ emitReturnSpace x.w.sizes) ++
        emitCopyStackArgs x.w.sizes size x.w.callerPkey) s fun c =>
      Entered x s c ∧ ∀ i < x.w.sizes.argBytes,
        c.mem (x.tsp.toNat - x.w.sizes.space + i) = s.mem (src + i) := by
  have hz : x.w.sizes.argBytes = 8 * ((x.w.sizes.argSize + 7) / 8) := stackSizes_argBytes _
  have hspace := x.w.sizes.space_eq
  have hdepth := x.w.space_le_targetDepth
  have hroom := hok.targetRoom
  have hslots : Ico (x.tsp.toNat - x.w.sizes.space) x.tsp.toNat ⊆ x.targetStack :=
    Ico_subset_Ico (by omega) le_rfl
  have hsource : Ico src (src + x.w.sizes.argBytes) ⊆ x.callerStack :=
    Ico_subset_Ico (by omega) htop
  have hapart : ∀ a ∈ Ico src (src + x.w.sizes.argBytes),
      a ∉ Ico (x.tsp.toNat - x.w.sizes.space) x.tsp.toNat :=
    fun a ha hstack => disjoint_left.mp hok.targetStack_callerStack (hslots hstack) (hsource ha)
  refine (runs_open hok hsp htsp hpkru).append fun c hopen => ?_
  have hrsp := hopen.rsp
  have hargs := @runs_copyStackArgs x.env x.w.sizes hz size x.w.callerPkey src c (by omega) hsize
    (by rw [hopen.saved]; exact hsrc) (htop.trans hok.top_le)
    fun a ha hstack => hapart a ha ⟨by have := hstack.1; omega, by have := hstack.2; omega⟩
  rw [hopen.saved, show c.rsp.toNat - x.w.sizes.argBytes = x.tsp.toNat - x.w.sizes.space by omega]
    at hargs
  obtain ⟨halong, ⟨-, -, -, hcopy⟩, -⟩ := runs_between hargs (emitCopyStackArgs_isPlain _ _ _)
    (union_subset (subset_union_left.trans x.cells_subset_reads)
      (hsource.trans x.callerStack_subset_reads))
    ((Ico_subset_Ico le_rfl (by omega)).trans (hslots.trans x.targetStack_subset_writes))
      (by simp) hopen.pkru
  refine ⟨halong, hopen.entered hok size, fun i hi => ?_⟩
  have hi' : src + i ∈ Ico src (src + x.w.sizes.argBytes) := ⟨by omega, by omega⟩
  rw [hcopy i hi, hopen.mem]
  rintro (hcell | hstack)
  · exact disjoint_left.mp hok.cells_callerStack (.inl hcell) (hsource hi')
  · exact hapart _ hi' ⟨by have := hstack.1; omega, hstack.2⟩

variable {r : ArgReg} {w : Wrapper} {c : State}
variable {isIndirect : Bool}

theorem mem_savedRegs {locs : List ArgLocation} :
    r ∈ savedRegs locs isIndirect ↔
      (∃ loc ∈ locs, loc.isStack = false ∧ loc.reg = some r) ∨ isIndirect = true ∧
        r = .gpr .r12 := by
  cases isIndirect <;> simp [savedRegs, savedLocs, and_assoc]

theorem savedRegs_args (h : r ∈ savedRegs w.args isIndirect) :
    r ∈ paramRegs ∨ isIndirect = true ∧ r = .gpr .r12 := by
  rcases mem_savedRegs.mp h with ⟨loc, hloc, hstack, hreg⟩ | hr12
  · rcases placed_of_mem_params hloc with hplaced | ⟨r', hr', hreg'⟩
    · rw [hplaced] at hstack
      cases hstack
    · rw [hreg'] at hreg
      cases hreg
      exact .inl hr'
  · exact .inr hr12

theorem runs_leave (hok : x.Apart) {c : State} (hrsp : c.rsp.toNat = x.tsp.toNat - x.w.sizes.space)
    (hpkru : c.pkru = mixedPkru x.w.callerPkey x.w.targetPkey) :
    Runs (exec x.env) (CrossStep x)
      (emitScrubRegs x.w.callerPkey x.w.args (decide (x.w.kind = .indirectCallsite)) ++
        emitSetPkru x.w.targetPkey) c fun c' =>
      c'.rsp.toNat = c.rsp.toNat ∧ c'.pkru = pkruOf x.w.targetPkey ∧
        EqOn c'.mem c.mem (Ico (x.tsp.toNat - x.w.targetDepth) (x.tsp.toNat - x.w.sizes.space))ᶜ ∧
        ∀ r ∈ savedRegs x.w.args (decide (x.w.kind = .indirectCallsite)),
          r.value c' = r.value c := by
  have hdepth := x.w.targetDepth_eq
  have hroom := hok.targetRoom
  have hrsp' : .gpr .rsp ∉ savedRegs x.w.args (decide (x.w.kind = .indirectCallsite)) := fun h => by
    rcases savedRegs_args h with h | ⟨-, h⟩
    · exact absurd h (by decide)
    · cases h
  have hscrub := @runs_scrubRegs x.env x.w.callerPkey x.w.args
    (decide (x.w.kind = .indirectCallsite)) hrsp' c (by omega)
  rw [hrsp, show x.tsp.toNat - x.w.sizes.space -
    (savedSize (savedRegs x.w.args (decide (x.w.kind = .indirectCallsite))) + 8) =
    x.tsp.toNat - x.w.targetDepth by omega] at hscrub
  have hsub : Ico (x.tsp.toNat - x.w.targetDepth) (x.tsp.toNat - x.w.sizes.space) ⊆ x.targetStack :=
    Ico_subset_Ico le_rfl (by omega)
  refine (runs_between_local hscrub (emitScrubRegs_isLocal _ _ _)
    (hsub.trans x.targetStack_subset_reads)
    (hsub.trans x.targetStack_subset_writes) hpkru).append ?_
  rintro c₁ ⟨⟨hrsp₁, hvalue⟩, hpkru₁, heq⟩
  have hset := @runs_keepingRegs x.env _ _ (.inl ⟨rfl, rfl⟩) (pkruOf x.w.targetPkey) c₁
  rw [hpkru₁] at hset
  refine hset.mono (fun i s' _ h => .of_quiet h (by simp [Crossing.pkrus])
    (by simp [Crossing.pkrus])) ?_
  rintro c₂ ⟨hpkru₂, hmem₂, hkeep₂⟩
  refine ⟨(congrArg BitVec.toNat (hkeep₂.regs .rsp (by simp))).trans (hrsp₁.trans hrsp.symm),
    hpkru₂, ?_, fun r hr => ?_⟩
  · rwa [hmem₂]
  · have hscratch : ∀ r' ∈ [Reg.rax, .r10, .r11], r ≠ .gpr r' := by
      rcases savedRegs_args hr with h | ⟨-, rfl⟩
      · rintro r' hr' rfl
        revert h hr'
        cases r' <;> decide
      · decide
    rw [keeps_value hkeep₂ hscratch, hvalue r fun h => hrsp' (h ▸ hr), scrubbed,
      if_pos (Or.inl hr), ite_self]

structure AtCall (x : Crossing) (s c : State) : Prop where
  rsp : c.rsp.toNat = x.tsp.toNat - x.w.sizes.space
  pkru : c.pkru = pkruOf x.w.targetPkey
  mem : EqOn c.mem s.mem (x.callerCell ∪ x.targetStack)ᶜ
  saved : stackptr x.env x.w.callerPkey c = x.sp
  slot : 0 < x.w.sizes.returnSize → c.load64 (x.tsp.toNat - x.w.sizes.returnBytes) = s.regs .rdi
  stackArgs : ∀ i < x.w.sizes.argBytes, c.mem (x.tsp.toNat - x.w.sizes.space + i) =
    s.mem (x.sp.toNat + savedBytes + 8 + i)
  regArgs : ∀ r ∈ savedRegs x.w.args false, r.value c = if 0 < x.w.sizes.returnSize ∧ r = .gpr .rdi
    then x.tsp.toNat - (x.w.sizes.returnSize + x.w.sizes.returnPadding) else r.value s

theorem Entered.value_arg (h : Entered x s c) (hok : x.Apart) (hr : r ∈ savedRegs x.w.args false) :
    r.value c = if 0 < x.w.sizes.returnSize ∧ r = .gpr .rdi
    then x.tsp.toNat - (x.w.sizes.returnSize + x.w.sizes.returnPadding) else r.value s := by
  by_cases hrdi : r = .gpr .rdi
  · subst hrdi
    change (c.regs .rdi).toNat = _
    rw [h.rdi]
    by_cases hret : 0 < x.w.sizes.returnSize
    · have hbytes : x.w.sizes.returnBytes = x.w.sizes.returnSize + x.w.sizes.returnPadding + 8 :=
        if_pos hret
      have hspace : x.w.sizes.returnBytes ≤ x.w.sizes.space := by rw [StackSizes.space]; omega
      have hdepth := x.w.space_le_targetDepth
      have hroom := hok.targetRoom
      rw [if_pos hret, if_pos ⟨hret, rfl⟩]
      exact toNat_sub_of_le (by omega)
    · rw [if_neg hret, if_neg fun h => hret h.1]
      rfl
  · rw [if_neg fun h => hrdi h.2]
    refine keeps_value h.keeps fun r' hr' hsame => ?_
    subst hsame
    have hparam := (savedRegs_args hr).resolve_right (by simp)
    revert hparam hr' hrdi
    cases r' <;> decide

/-- The arguments of a wrapper without a signature of its own. -/
def directArgs (w : Wrapper) : List Instr :=
  emitReturnSpace w.sizes ++ emitCopyStackArgs w.sizes w.sizes.argSize w.callerPkey

def enterCode (w : Wrapper) : List Instr :=
  assertPkru w.debug (pkruOf w.callerPkey) ++ emitIntermediatePkru w.callerPkey w.targetPkey
    .rcx .rdx ++
    (emitSwitchStacks w.callerPkey w.targetPkey ++ emitReturnSpace w.sizes) ++
    emitCopyStackArgs w.sizes w.sizes.argSize w.callerPkey

theorem emitToTarget_directArgs (w : Wrapper) :
    w.emitToTarget (directArgs w) = enterCode w ++
      (emitScrubRegs w.callerPkey w.args (decide (w.kind = .indirectCallsite)) ++
        emitSetPkru w.targetPkey) := by
  simp only [Wrapper.emitToTarget, directArgs, enterCode, List.append_assoc]

theorem runs_toTarget (hok : x.Apart) (hkind : x.w.kind ≠ .indirectCallsite) (hsp : s.rsp = x.sp)
    (htsp : stackptr x.env x.w.targetPkey s = x.tsp) (hpkru : s.pkru = pkruOf x.w.callerPkey)
    (htop : x.sp.toNat + savedBytes + 8 + x.w.sizes.argBytes ≤ x.top) :
    Runs (exec x.env) (CrossStep x) (x.w.emitToTarget (directArgs x.w)) s (AtCall x s) := by
  have hdirect : decide (x.w.kind = .indirectCallsite) = false := decide_eq_false hkind
  have henter := @runs_enter x s hok hsp htsp hpkru x.w.sizes.argSize (x.sp.toNat + savedBytes + 8)
    (by omega) rfl htop
  rw [emitToTarget_directArgs]
  refine henter.append fun c₁ h => ?_
  obtain ⟨hentered, hargs⟩ := h
  refine (runs_leave hok hentered.rsp hentered.pkru).post ?_
  rintro c ⟨hrsp, hpkruc, heq, hvalue⟩
  rw [hdirect] at hvalue
  have hspace := x.w.sizes.space_eq
  have hdepth := x.w.space_le_targetDepth
  have hroom := hok.targetRoom
  have hbelow : Ico (x.tsp.toNat - x.w.targetDepth) (x.tsp.toNat - x.w.sizes.space) ⊆
      x.targetStack :=
    Ico_subset_Ico le_rfl (by omega)
  have habove : ∀ a, x.tsp.toNat - x.w.sizes.space ≤ a → c.mem a = c₁.mem a := fun a ha =>
    heq fun h => by have := h.2; omega
  refine ⟨hrsp.trans hentered.rsp, hpkruc, fun a ha => ?_, ?_, fun hret => ?_, fun i hi => ?_,
    fun r hr => ?_⟩
  · rw [heq fun h => ha (.inr (hbelow h)), hentered.mem ha]
  · rw [← hentered.saved]
    exact stackptr_congr fun a ha => heq fun h =>
      disjoint_left.mp hok.cells_targetStack (.inl ha) (hbelow h)
  · rw [← hentered.slot hret]
    exact State.load64_congr fun a ha => habove a (by have := ha.1; omega)
  · rw [habove _ (by omega), hargs i hi]
  · rw [hvalue r hr]
    exact hentered.value_arg hok hr

/-! ### Back to the caller -/

structure Returned (x : Crossing) (c d : State) : Prop where
  rsp : d.rsp = x.sp
  pkru : d.pkru = pkruOf x.w.callerPkey
  mem : EqOn d.mem c.mem (x.targetCell ∪ x.scrubStack ∪ x.returnBuffer)ᶜ
  tsp : stackptr x.env x.w.targetPkey d = x.tsp
  result : ∀ i < x.w.sizes.returnSize,
    d.mem (x.buffer.toNat + i) =
    c.mem (x.tsp.toNat - (x.w.sizes.returnSize + x.w.sizes.returnPadding) + i)
  regs : ∀ r ∈ returnRegs, r.value d = if x.w.targetPkey = 0 ∨ r ∈ savedRegs x.w.rets false
    then (if 0 < x.w.sizes.returnSize ∧ r = .gpr .rax then x.buffer.toNat else r.value c) else 0

theorem savedRegs_rets (h : r ∈ savedRegs w.rets false) :
    r ∈ returnRegs := by
  rcases mem_savedRegs.mp h with ⟨loc, hloc, -, hreg⟩ | ⟨hfalse, -⟩
  · obtain ⟨-, r', hr', hreg'⟩ := mem_returnRegs hloc
    rw [hreg'] at hreg
    cases hreg
    exact hr'
  · cases hfalse

theorem runs_takeResult (hok : x.Ok) (hrsp : c.rsp.toNat = x.tsp.toNat - x.w.sizes.space)
    (hpkru : c.pkru = mixedPkru x.w.callerPkey x.w.targetPkey)
    (hslot : 0 < x.w.sizes.returnSize → c.load64 (x.tsp.toNat - x.w.sizes.returnBytes) = x.buffer) :
    Runs (exec x.env) (CrossStep x)
      (emitFreeStackSpace (x.w.sizes.argSize + x.w.sizes.argPadding + x.w.sizes.alignment) ++
        emitCopyStackReturns x.w.sizes) c
      fun d => d.rsp = x.tsp ∧ d.pkru = mixedPkru x.w.callerPkey x.w.targetPkey ∧
        EqOn d.mem c.mem x.returnBufferᶜ ∧
        Keeps [.rsp, .rax, .r10] c d ∧ d.regs .rax =
          (if 0 < x.w.sizes.returnSize then x.buffer else c.regs .rax) ∧
        ∀ i < x.w.sizes.returnSize,
          d.mem (x.buffer.toNat + i) =
            c.mem (x.tsp.toNat - (x.w.sizes.returnSize + x.w.sizes.returnPadding) + i) := by
  have hspace := x.w.sizes.space_eq
  have hargs : x.w.sizes.argBytes = x.w.sizes.argSize + x.w.sizes.argPadding := rfl
  have hdepth := x.w.space_le_targetDepth
  have hroom := hok.targetRoom
  have htop := x.tsp.isLt
  have hresult : Ico (x.tsp.toNat - x.w.sizes.returnBytes) x.tsp.toNat ⊆ x.targetStack :=
    Ico_subset_Ico (by omega) le_rfl
  have hfree := @runs_freeStackSpace x.env
    (x.w.sizes.argSize + x.w.sizes.argPadding + x.w.sizes.alignment) ∅ ∅ c (by omega)
  refine (runs_between_local hfree (emitFreeStackSpace_isLocal _) (empty_subset _) (empty_subset _)
    hpkru).append ?_
  rintro c₁ ⟨⟨hrsp₁, hkeep₁⟩, hpkru₁, heq₁⟩
  have hrsp₁' : c₁.rsp.toNat = x.tsp.toNat - x.w.sizes.returnBytes := by omega
  have hend : x.tsp.toNat - x.w.sizes.returnBytes + x.w.sizes.returnBytes = x.tsp.toNat := by omega
  have hmem₁ : c₁.mem = c.mem := by
    rw [compl_empty, eqOn_univ] at heq₁
    exact heq₁
  have hcopy := @runs_copyStackReturns x.env x.w.sizes c₁ x.buffer
    (fun hret => by rw [hrsp₁', State.load64, hmem₁]; exact hslot hret) (by omega) hok.bufferRoom
    (fun a ha hbuffer => disjoint_left.mp hok.both_returnBuffer
      (.inl (hresult (by rw [hrsp₁', hend] at ha; exact ha))) hbuffer)
  rw [hrsp₁', hend] at hcopy
  refine (runs_between_local hcopy (emitCopyStackReturns_isLocal _)
    (hresult.trans x.targetStack_subset_reads)
    x.returnBuffer_subset_writes hpkru₁).post ?_
  rintro d ⟨⟨hrspd, hkeep, hrax, hbytes⟩, hpkrud, heq⟩
  rw [hmem₁] at heq hbytes
  refine ⟨BitVec.eq_of_toNat_eq hrspd, hpkrud, heq, (hkeep₁.trans hkeep).mono (by simp), ?_,
    fun i hi => ?_⟩
  · rw [hrax, hkeep₁.regs .rax (by simp)]
  · have hret : 0 < x.w.sizes.returnSize := by omega
    have hreturn : x.w.sizes.returnBytes = x.w.sizes.returnSize + x.w.sizes.returnPadding + 8 :=
      if_pos hret
    rw [hbytes i hi]
    congr 1
    omega

def homeCode (w : Wrapper) : List Instr :=
  emitIntermediatePkru w.callerPkey w.targetPkey .rax .rdx ++
    (emitFreeStackSpace (w.sizes.argSize + w.sizes.argPadding + w.sizes.alignment) ++
      emitCopyStackReturns w.sizes) ++
    emitSwitchStacks w.targetPkey w.callerPkey

theorem emitToCaller_eq (w : Wrapper) :
    w.emitToCaller = homeCode w ++
      (emitScrubRegs w.targetPkey w.rets false ++ emitSetReturnPkru w.callerPkey) := by
  simp only [Wrapper.emitToCaller, homeCode, List.append_assoc]

structure Home (x : Crossing) (c d : State) : Prop where
  rsp : d.rsp = x.sp
  pkru : d.pkru = mixedPkru x.w.callerPkey x.w.targetPkey
  mem : EqOn d.mem c.mem (x.targetCell ∪ x.returnBuffer)ᶜ
  tsp : stackptr x.env x.w.targetPkey d = x.tsp
  result : ∀ i < x.w.sizes.returnSize,
    d.mem (x.buffer.toNat + i) =
    c.mem (x.tsp.toNat - (x.w.sizes.returnSize + x.w.sizes.returnPadding) + i)
  keeps : Keeps [.rax, .rcx, .r10, .r11, .rsp] c d
  rax : d.regs .rax = if 0 < x.w.sizes.returnSize then x.buffer else c.regs .rax

theorem Home.value {d : State} (h : Home x c d) (hr : r ∈ returnRegs) :
    r.value d = if 0 < x.w.sizes.returnSize ∧ r = .gpr .rax then x.buffer.toNat else r.value c := by
  have hscratch : ∀ r ∈ returnRegs, ∀ r' ∈ [Reg.rcx, .r10, .r11, .rsp], r ≠ .gpr r' := by decide
  by_cases hrax : r = .gpr .rax
  · subst hrax
    change (d.regs .rax).toNat = _
    rw [h.rax]
    by_cases hret : 0 < x.w.sizes.returnSize
    · rw [if_pos hret, if_pos ⟨hret, rfl⟩]
    · rw [if_neg hret, if_neg fun h => hret h.1]
      rfl
  · rw [if_neg fun h => hrax h.2]
    exact keeps_value h.keeps (List.forall_mem_cons.mpr ⟨hrax, hscratch r hr⟩)

section

variable (hok : x.Ok) (hrsp : c.rsp.toNat = x.tsp.toNat - x.w.sizes.space)
  (hpkru : c.pkru = pkruOf x.w.targetPkey) (hsaved : stackptr x.env x.w.callerPkey c = x.sp)
  (hslot : 0 < x.w.sizes.returnSize → c.load64 (x.tsp.toNat - x.w.sizes.returnBytes) = x.buffer)

include hok hrsp hpkru hsaved hslot

theorem runs_home :
    Runs (exec x.env) (CrossStep x) (homeCode x.w) c (Home x c) := by
  have hmixed : mixedPkru x.w.callerPkey x.w.targetPkey ∈ x.pkrus := by simp [Crossing.pkrus]
  have htarget : pkruOf x.w.targetPkey ∈ x.pkrus := by simp [Crossing.pkrus]
  rw [homeCode, List.append_assoc]
  -- both compartments
  have hopen := @runs_keepingRegs x.env _ _ (.inr ⟨rfl, rfl⟩)
    (mixedPkru x.w.callerPkey x.w.targetPkey) c
  rw [hpkru] at hopen
  refine (hopen.mono (fun i s' _ h => .of_quiet h htarget hmixed) fun s' h => h).append ?_
  rintro c₁ ⟨hpkru₁, hmem₁, hkeep₁⟩
  have hrsp₁ : c₁.rsp = c.rsp := hkeep₁.regs .rsp (by simp)
  -- the result
  have htake := runs_takeResult hok (c := c₁) (by rw [hrsp₁, hrsp]) hpkru₁
    (fun hret => by rw [State.load64, hmem₁]; exact hslot hret)
  refine htake.append ?_
  rintro c₂ ⟨hrsp₂, hpkru₂, heq₂, hkeep₂, hrax₂, hresult₂⟩
  rw [hmem₁] at heq₂ hresult₂
  have hsaved₂ : stackptr x.env x.w.callerPkey c₂ = x.sp := by
    rw [← hsaved]
    exact stackptr_congr fun a ha => heq₂ fun hbuffer =>
      disjoint_left.mp hok.cells_returnBuffer (.inl ha) hbuffer
  -- the caller's stack
  have hswitch := runs_switchStacks (s := c₂) hok.callerCell_targetCell.symm
  rw [hsaved₂, hrsp₂] at hswitch
  refine (runs_between hswitch (emitSwitchStacks_isPlain _ _)
    (subset_union_left.trans x.cells_subset_reads)
    (subset_union_right.trans x.cells_subset_writes) (by simp) hpkru₂).post ?_
  rintro d ⟨⟨hrsp₃, hkeep₃, htsp₃⟩, hpkru₃, heq₃⟩
  refine ⟨hrsp₃, hpkru₃, fun a ha => ?_, htsp₃, fun i hi => ?_, ?_, ?_⟩
  · rw [heq₃ fun h => ha (.inl h), heq₂ fun h => ha (.inr h)]
  · have hbuffer : x.buffer.toNat + i ∈ x.returnBuffer := ⟨by omega, by omega⟩
    rw [heq₃ fun h => disjoint_left.mp hok.cells_returnBuffer (.inr h) hbuffer, hresult₂ i hi]
  · exact ((hkeep₁.trans hkeep₂).trans hkeep₃).mono (by simp)
  · rw [hkeep₃.regs .rax (by simp), hrax₂, hkeep₁.regs .rax (by simp)]

theorem runs_toCaller :
    Runs (exec x.env) (CrossStep x) x.w.emitToCaller c (Returned x c) := by
  have hmixed : mixedPkru x.w.callerPkey x.w.targetPkey ∈ x.pkrus := by simp [Crossing.pkrus]
  have hcaller : pkruOf x.w.callerPkey ∈ x.pkrus := by simp [Crossing.pkrus]
  rw [emitToCaller_eq]
  refine (runs_home hok hrsp hpkru hsaved hslot).append fun c₃ hhome => ?_
  -- registers other than those of the result are scrubbed
  have hrspReturn : .gpr .rsp ∉ savedRegs x.w.rets false :=
    fun h => absurd (savedRegs_rets h) (by decide)
  have hscrub := @runs_scrubRegs x.env x.w.targetPkey x.w.rets false hrspReturn c₃
    (by rw [hhome.rsp]; exact hok.scrubRoom)
  rw [hhome.rsp] at hscrub
  refine (runs_between_local hscrub (emitScrubRegs_isLocal _ _ _)
    (Subset.trans (Ico_subset_Ico le_rfl hok.sp_le) x.callerStack_subset_reads)
      x.scrubStack_subset_writes hhome.pkru).append ?_
  rintro c₄ ⟨⟨hrsp₄, hvalue₄⟩, hpkru₄, heq₄⟩
  -- the caller's compartment
  have hclose := @runs_keepingRegs x.env _ _ (.inr ⟨rfl, rfl⟩) (pkruOf x.w.callerPkey) c₄
  rw [hpkru₄] at hclose
  refine hclose.mono (fun i s' _ h => .of_quiet h hmixed hcaller) ?_
  rintro d ⟨hpkrud, hmemd, hkeepd⟩
  have hscrubCaller : x.scrubStack ⊆ x.callerStack := Ico_subset_Ico le_rfl hok.sp_le
  have hmem : ∀ a, a ∉ x.scrubStack → d.mem a = c₃.mem a := fun a hscrub => by
    rw [hmemd, heq₄ hscrub]
  have hscratch : ∀ r ∈ returnRegs, ∀ r' ∈ [Reg.rcx, .r10, .r11, .rsp, .rbp],
    r ≠ .gpr r' := by decide
  refine ⟨?_, hpkrud, fun a ha => ?_, ?_, fun i hi => ?_, fun r hr => ?_⟩
  · exact (hkeepd.regs .rsp (by simp)).trans (BitVec.eq_of_toNat_eq hrsp₄)
  · rw [hmem a fun h => ha (.inl (.inr h)), hhome.mem]
    rintro (hcell | hbuffer)
    · exact ha (.inl (.inl hcell))
    · exact ha (.inr hbuffer)
  · rw [← hhome.tsp]
    exact stackptr_congr fun a ha => hmem a fun h =>
      disjoint_left.mp hok.cells_callerStack (.inr ha) (hscrubCaller h)
  · have hbuffer : x.buffer.toNat + i ∈ x.returnBuffer := ⟨by omega, by omega⟩
    rw [hmem _ fun h => disjoint_left.mp hok.both_returnBuffer (.inr (hscrubCaller h)) hbuffer,
      hhome.result i hi]
  · have hd : r.value d = r.value c₄ := keeps_value (hkeepd.mono (by simp)) (hscratch r hr)
    have hneRbp : r ≠ .gpr .rbp := hscratch r hr .rbp (by simp)
    rw [hd, hvalue₄ r (hscratch r hr .rsp (by simp)), scrubbed, hhome.value hr]
    by_cases hpkey : x.w.targetPkey = 0
    · rw [if_pos hpkey, if_pos (Or.inl hpkey)]
    · simp only [hpkey, hneRbp, false_or, or_false, if_false]

end

end Ia2.Gate
