import Ia2.Gate.Direct

/-!
# Nested gates

A thread that calls gates from the functions that gates call, to any depth and back and forth
between compartments. The invariant relates every saved stack pointer to the gates that are
suspended: what they left on the stacks is never below the stack pointer that the next gate to that
compartment will load.
-/

namespace Ia2.Gate

open X86 Rewriter StraightLine Set

/-! ### Functions that call gates -/

/-- What a function does up to its return: code of its own, and gates that it calls in between. What
the target of a gate does is such a body again. -/
inductive Body where
  | ret (code : State → State)
  | call (code : State → State) (w : Wrapper) (target : TargetInfo) (callee rest : Body)

def runBody (env : Env) : Body → State → State
  | .ret code, s => code s
  | .call code w _ callee rest, s =>
    runBody env rest (run (exec (targeting env (runBody env callee))) (gateCode w) (code s))

/-! ### Stacks and suspended gates -/

structure Layout where
  lo : Nat → Nat
  hi : Nat → Nat

namespace Layout

variable (L : Layout)

def area (n : Nat) : Set Nat := Ico (L.lo n) (L.hi n)

/-- The stacks and the cells do not overlap. -/
structure Apart (env : Env) : Prop where
  top : ∀ n < 16, L.hi n ≤ 2 ^ 64
  cells : ∀ m < 16, ∀ n < 16, m ≠ n → Disjoint (cell env m) (cell env n)
  areas : ∀ m < 16, ∀ n < 16, m ≠ n → Disjoint (L.area m) (L.area n)
  cells_areas : ∀ m < 16, ∀ n < 16, Disjoint (cell env m) (L.area n)

theorem Apart.eq_of_mem {L : Layout} {env : Env} (h : L.Apart env) {m n a : Nat} (hm : m < 16)
    (hn : n < 16) (ham : a ∈ L.area m) (han : a ∈ L.area n) : m = n := by
  by_contra hne
  exact disjoint_left.mp (h.areas m hm n hn hne) ham han

end Layout

def allCells (env : Env) : Set Nat := {a | ∃ n < 16, a ∈ cell env n}

def otherCells (env : Env) (pkey : Nat) : Set Nat := {a | ∃ n < 16, n ≠ pkey ∧ a ∈ cell env n}

theorem otherCells_subset (env : Env) (pkey : Nat) : otherCells env pkey ⊆ allCells env :=
  fun _ ⟨n, hn, _, ha⟩ => ⟨n, hn, ha⟩

variable {n : Nat} {c : State}

theorem cell_subset_otherCells {env : Env} {pkey : Nat} (hn : n < 16) (hne : n ≠ pkey) :
    cell env n ⊆ otherCells env pkey :=
  fun _ ha => ⟨n, hn, hne, ha⟩

structure Activation where
  pkey : Nat
  entry : Nat
  guard : Set Nat

namespace Activation

variable (x : Activation)

def floor (env : Env) (s : State) (n : Nat) :
    Nat := if n = x.pkey then x.entry + 8 else (stackptr env n s).toNat

structure Inv (L : Layout) (env : Env) (s : State) : Prop where
  pkey : x.pkey < 16
  pkru : s.pkru = pkruOf x.pkey
  entry : x.entry + 8 ≤ L.hi x.pkey
  aligned : ∀ n < 16, n ≠ x.pkey → (stackptr env n s).toNat % 16 = 8
  within : ∀ n < 16, n ≠ x.pkey → L.lo n ≤ (stackptr env n s).toNat ∧
    (stackptr env n s).toNat ≤ L.hi n
  guard : ∀ a ∈ x.guard, ∃ n < 16, a ∈ L.area n ∧ x.floor env s n ≤ a

def inside (w : Wrapper) (target : TargetInfo) (env : Env) (s : State) : Activation :=
  ⟨w.targetPkey, (stackptr env w.targetPkey s).toNat - w.sizes.space - 8,
    x.guard ∪ suspended w target env s⟩

structure Done (env : Env) (s s' : State) : Prop where
  rsp : s'.rsp.toNat = x.entry + 8
  pkru : s'.pkru = s.pkru
  mem : EqOn s'.mem s.mem (x.guard ∪ otherCells env x.pkey)

variable {x} {L : Layout} {env : Env} {s s' : State}

theorem Inv.congr (h : x.Inv L env s) (hpkru : s'.pkru = s.pkru)
    (hmem : EqOn s'.mem s.mem (otherCells env x.pkey)) :
    x.Inv L env s' := by
  have hptr : ∀ n < 16, n ≠ x.pkey → stackptr env n s' = stackptr env n s := fun n hn hne =>
    stackptr_congr (hmem.mono (cell_subset_otherCells hn hne))
  refine ⟨h.pkey, hpkru.trans h.pkru, h.entry, fun n hn hne => ?_, fun n hn hne => ?_,
    fun a ha => ?_⟩
  · rw [hptr n hn hne]
    exact h.aligned n hn hne
  · rw [hptr n hn hne]
    exact h.within n hn hne
  · obtain ⟨n, hn, harea, hfloor⟩ := h.guard a ha
    refine ⟨n, hn, harea, ?_⟩
    rw [floor] at hfloor ⊢
    split_ifs at hfloor ⊢ with hp
    · exact hfloor
    · rwa [hptr n hn hp]

end Activation

structure MayCall (L : Layout) (env : Env) (x : Activation) (w : Wrapper) (target : TargetInfo)
    (s : State) : Prop where
  named : w.target = some target
  direct : w.kind = .direct
  wrapperSig : w.wrapperSig = none
  callerPkey : w.callerPkey = x.pkey
  targetPkey : w.targetPkey < 16
  crosses : w.targetPkey ≠ x.pkey
  aligned : s.rsp.toNat % 16 = 8
  below : argsEnd w s ≤ x.entry
  callerRoom : L.lo x.pkey + (frameDepth + w.scrubDepth) ≤ s.rsp.toNat
  targetRoom : L.lo w.targetPkey + w.targetDepth ≤ (stackptr env w.targetPkey s).toNat
  helpers : HelpersOk w target env (s.rsp.toNat - frameDepth) s.rsp.toNat (argsEnd w s)
    (x.guard ∪ allCells env)
  buffer : BufferOk w env s ((entered w env s).regs .rdi)
  bufferApart : Disjoint (x.guard ∪ allCells env) (bufferArea w ((entered w env s).regs .rdi))

section Gate

variable {L : Layout} {env : Env} {x : Activation} {w : Wrapper} {target : TargetInfo} {s : State}
  {a y : Nat} {i : Instr} {t : State}

variable (h : MayCall L env x w target s) (hL : L.Apart env) (hinv : x.Inv L env s)

include h

theorem MayCall.cell_subset :
    cell env w.targetPkey ⊆ x.guard ∪ allCells env :=
  fun _ ha => .inr ⟨_, h.targetPkey, ha⟩

theorem MayCall.kind_ne : w.kind ≠ .indirectCallsite := by
  rw [h.direct]
  decide

include hinv

theorem MayCall.callerPkey_lt : w.callerPkey < 16 := by
  rw [h.callerPkey]
  exact hinv.pkey

theorem MayCall.callerArea_subset :
    callerArea w s ⊆ L.area w.callerPkey := by
  have hroom := h.callerRoom
  have hbelow := h.below
  have hentry := hinv.entry
  rw [h.callerPkey]
  exact Ico_subset_Ico (by omega) (by omega)

theorem MayCall.targetArea_subset :
    targetArea w env s ⊆ L.area w.targetPkey := by
  have hroom := h.targetRoom
  have hwithin := hinv.within _ h.targetPkey h.crosses
  exact Ico_subset_Ico (by omega) (by omega)

include hL

theorem MayCall.gateOk :
    GateOk w env s := by
  have hcaller := h.callerPkey_lt hinv
  have hne : w.callerPkey ≠ w.targetPkey := by rw [h.callerPkey]; exact h.crosses.symm
  have hentry := hinv.entry
  have htop := hL.top _ hinv.pkey
  have hcells : ∀ n < 16, Disjoint (cell env w.callerPkey ∪ cell env w.targetPkey) (L.area n) :=
    fun n hn =>
    disjoint_union_left.mpr ⟨hL.cells_areas _ hcaller n hn, hL.cells_areas _ h.targetPkey n hn⟩
  refine ⟨?_, ?_, ?_, ?_, hL.cells _ hcaller _ h.targetPkey hne,
    (hcells _ h.targetPkey).mono_right (h.targetArea_subset hinv),
    (hcells _ hcaller).mono_right (h.callerArea_subset hinv),
    (hL.areas _ h.targetPkey _ hcaller hne.symm).mono (h.targetArea_subset hinv)
    (h.callerArea_subset hinv)⟩
  · have := h.callerRoom
    omega
  · have := h.below
    omega
  · have := h.targetRoom
    omega
  · rw [h.callerPkey]
    exact hinv.pkru

theorem MayCall.apart (ha : a ∈ x.guard ∪ otherCells env x.pkey) :
    a ∉ cell env w.callerPkey ∧ a ∉ targetArea w env s ∧ a ∉ callerArea w s := by
  have hcaller := h.callerPkey_lt hinv
  have htargetArea := h.targetArea_subset hinv
  have hcallerArea := h.callerArea_subset hinv
  rcases ha with ha | ⟨n, hn, hne, ha⟩
  · obtain ⟨n, hn, harea, hfloor⟩ := hinv.guard a ha
    rw [Activation.floor] at hfloor
    refine ⟨fun hcell => disjoint_left.mp (hL.cells_areas _ hcaller n hn) hcell harea,
      fun htarget => ?_, fun hstack => ?_⟩
    · obtain rfl := hL.eq_of_mem hn h.targetPkey harea (htargetArea htarget)
      rw [if_neg h.crosses] at hfloor
      exact absurd htarget.2 (not_lt.mpr hfloor)
    · rw [if_pos ((hL.eq_of_mem hn hcaller harea (hcallerArea hstack)).trans h.callerPkey)]
        at hfloor
      have hbelow := h.below
      have := hstack.2
      omega
  · rw [← h.callerPkey] at hne
    refine ⟨fun hcell => disjoint_left.mp (hL.cells n hn _ hcaller hne) ha hcell, fun htarget => ?_,
      fun hstack => ?_⟩
    · exact disjoint_left.mp (hL.cells_areas n hn _ h.targetPkey) ha (htargetArea htarget)
    · exact disjoint_left.mp (hL.cells_areas n hn _ hcaller) ha (hcallerArea hstack)

theorem MayCall.keep_disjoint :
    Disjoint (x.guard ∪ allCells env) (Ico (s.rsp.toNat - frameDepth) s.rsp.toNat) := by
  have hcaller := h.callerPkey_lt hinv
  refine disjoint_left.mpr fun a ha hstack => ?_
  have hstack := entryArea_subset w s hstack
  rcases ha with ha | ⟨n, hn, ha⟩
  · exact (h.apart hL hinv (.inl ha)).2.2 hstack
  · exact disjoint_left.mp (hL.cells_areas n hn _ hcaller) ha (h.callerArea_subset hinv hstack)

theorem MayCall.entryState :
    EntryState w target (argsEnd w s) (x.guard ∪ allCells env) s (entered w env s) :=
  (gate_entry h.named (h.gateOk hL hinv) h.helpers (h.keep_disjoint hL hinv)).2

theorem MayCall.call :
    AtCall (crossing w env s (entered w env s)) (entered w env s) (atCall w env s) :=
  (gate_toTarget h.kind_ne (h.gateOk hL hinv) h.cell_subset (h.entryState hL hinv)).2

theorem MayCall.toTarget_keeps :
    EqOn ((atCall w env s).push env.retAddr).mem s.mem (x.guard ∪ otherCells env x.pkey) := by
  have hcall := h.call hL hinv
  intro a ha
  obtain ⟨hcell, htarget, -⟩ := h.apart hL hinv ha
  rw [(callStep (h.gateOk hL hinv) hcall).2 fun hbelow =>
    htarget ⟨hbelow.1, by have := hbelow.2; omega⟩, hcall.mem]
  · exact (h.entryState hL hinv).mem
      (.inr (ha.imp_right fun hother => otherCells_subset env _ hother))
  · rintro (hcell' | htarget')
    · exact hcell hcell'
    · exact htarget htarget'

theorem MayCall.inside_entry :
    ((atCall w env s).push env.retAddr).rsp.toNat = (x.inside w target env s).entry ∧
      (x.inside w target env s).entry + 8 = (stackptr env w.targetPkey s).toNat -
        w.sizes.space := by
  have hdepth := w.targetDepth_eq
  have hroom := h.targetRoom
  have hrsp : (atCall w env s).rsp.toNat = (stackptr env w.targetPkey s).toNat - w.sizes.space :=
    (h.call hL hinv).rsp
  refine ⟨?_, ?_⟩
  · rw [State.push_rsp (by omega), hrsp]
    rfl
  · change (stackptr env w.targetPkey s).toNat - w.sizes.space - 8 + 8 = _
    omega

theorem MayCall.inside_saved :
    (stackptr env x.pkey ((atCall w env s).push env.retAddr)).toNat =
      s.rsp.toNat - entryDepth target := by
  have hcall := h.call hL hinv
  have hcell : EqOn ((atCall w env s).push env.retAddr).mem (atCall w env s).mem
      (cell env x.pkey) := fun a ha =>
    (callStep (h.gateOk hL hinv) hcall).2 fun hstack =>
      disjoint_left.mp (hL.cells_areas _ hinv.pkey _ h.targetPkey) ha
      (h.targetArea_subset hinv ⟨hstack.1, by have := hstack.2; omega⟩)
  have hsp := hcall.saved
  rw [crossing_w, crossing_env, crossing_sp, h.callerPkey] at hsp
  rw [stackptr_congr hcell, hsp, (h.entryState hL hinv).rsp]

theorem MayCall.inside_others (hn : n < 16) (hne : n ≠ x.pkey) :
    stackptr env n ((atCall w env s).push env.retAddr) = stackptr env n s :=
  stackptr_congr ((h.toTarget_keeps hL hinv).mono fun _ ha => .inr ⟨n, hn, hne, ha⟩)

theorem MayCall.inside_guard (ha : a ∈ (x.inside w target env s).guard) :
    ∃ n < 16, a ∈ L.area n ∧ (x.inside w target env s).floor env
      ((atCall w env s).push env.retAddr) n ≤ a := by
  have hentry := (h.inside_entry hL hinv).2
  have hcallerFloor : (x.inside w target env s).floor env
    ((atCall w env s).push env.retAddr) x.pkey =
    s.rsp.toNat - entryDepth target := (if_neg (Ne.symm h.crosses)).trans (h.inside_saved hL hinv)
  have htargetFloor : (x.inside w target env s).floor env ((atCall w env s).push env.retAddr)
    w.targetPkey =
    (stackptr env w.targetPkey s).toNat - w.sizes.space := (if_pos rfl).trans hentry
  rcases ha with ha | hframe | hslot
  · -- left by an earlier gate
    obtain ⟨n, hn, harea, hfloor⟩ := hinv.guard a ha
    refine ⟨n, hn, harea, le_trans ?_ hfloor⟩
    by_cases hp : n = x.pkey
    · subst hp
      have hend := argsEnd_eq w s
      have hbelow := h.below
      rw [hcallerFloor, Activation.floor, if_pos rfl]
      omega
    · rw [show x.floor env s n = (stackptr env n s).toNat from if_neg hp]
      by_cases hq : n = w.targetPkey
      · rw [hq, htargetFloor]
        exact Nat.sub_le _ _
      · exact ((if_neg hq).trans (congrArg BitVec.toNat (h.inside_others hL hinv hn hp))).le
  · -- the frame of this gate
    refine ⟨x.pkey, hinv.pkey, ?_, hcallerFloor.le.trans hframe.1⟩
    rw [← h.callerPkey]
    exact h.callerArea_subset hinv (frame_subset target (h.gateOk hL hinv) hframe)
  · -- the saved address of a result
    split at hslot
    · rename_i hret
      have hbytes : w.sizes.returnBytes = w.sizes.returnSize + w.sizes.returnPadding + 8 :=
        if_pos hret
      have hspace := w.sizes.space_eq
      have hdepth := w.space_le_targetDepth
      have hroom := h.targetRoom
      have hwithin := hinv.within _ h.targetPkey h.crosses
      have hlow := hslot.1
      have hhigh := hslot.2
      exact ⟨w.targetPkey, h.targetPkey, ⟨by omega, by omega⟩, htargetFloor.le.trans (by omega)⟩
    · cases hslot

theorem MayCall.inside_inv :
    (x.inside w target env s).Inv L env ((atCall w env s).push env.retAddr) := by
  have hentry := (h.inside_entry hL hinv).2
  have hsaved := h.inside_saved hL hinv
  have hdepth := entryDepth_le target
  have hroom := h.callerRoom
  refine ⟨h.targetPkey, (h.call hL hinv).pkru, ?_, fun n hn hne => ?_, fun n hn hne => ?_,
    fun a ha => h.inside_guard hL hinv ha⟩
  · rw [hentry]
    exact (Nat.sub_le _ _).trans (hinv.within _ h.targetPkey h.crosses).2
  · by_cases hp : n = x.pkey
    · have haligned := h.aligned
      have hmod : entryDepth target % 16 = 0 := by
        rw [entryDepth]
        split <;> rfl
      rw [hp, hsaved]
      omega
    · rw [h.inside_others hL hinv hn hp]
      exact hinv.aligned n hn hp
  · by_cases hp : n = x.pkey
    · have hend := argsEnd_eq w s
      have hbelow := h.below
      have htop := hinv.entry
      rw [hp, hsaved]
      omega
    · rw [h.inside_others hL hinv hn hp]
      exact hinv.within n hn hp

theorem MayCall.gateRun
    (hdone : (x.inside w target env s).Done env ((atCall w env s).push env.retAddr)
    (afterCall w env s)) :
    GateRun w target env (x.guard ∪ allCells env) s := by
  refine gate_run h.named h.kind_ne (h.gateOk hL hinv) h.helpers h.cell_subset
    (h.keep_disjoint hL hinv) h.buffer fun hcall => ?_
  obtain ⟨hentry, hspace⟩ := h.inside_entry hL hinv
  refine ⟨BitVec.eq_of_toNat_eq ?_, hdone.pkru, hdone.mem.mono ?_⟩
  · have hrsp : ((atCall w env s).push env.retAddr).rsp + 8#64 = (atCall w env s).rsp :=
      BitVec.sub_add_cancel _ _
    rw [hrsp, hdone.rsp, hspace]
    exact hcall.rsp.symm
  · refine union_subset (subset_union_right.trans subset_union_left) fun a ha =>
      .inr ⟨w.callerPkey, ?_, ?_, ha⟩
    · rw [h.callerPkey]
      exact hinv.pkey
    · rw [h.callerPkey]
      exact h.crosses.symm

theorem MayCall.gate_keeps
    (hdone : (x.inside w target env s).Done env ((atCall w env s).push env.retAddr)
    (afterCall w env s)) :
    stackptr env w.targetPkey (gateEnd w env s) = stackptr env w.targetPkey s ∧
      EqOn (gateEnd w env s).mem s.mem (x.guard ∪ otherCells env x.pkey) := by
  have hrun := h.gateRun hL hinv hdone
  have htsp : stackptr env w.targetPkey (gateEnd w env s) = stackptr env w.targetPkey s :=
    (stackptr_congr (hrun.mem.mono (h.cell_subset.trans subset_union_right))).trans hrun.back.tsp
  refine ⟨htsp, fun a ha => ?_⟩
  by_cases hq : a ∈ cell env w.targetPkey
  · exact State.eqOn_of_load64_eq htsp hq
  have hkeep : a ∈ x.guard ∪ allCells env := ha.imp_right fun hother =>
    otherCells_subset env _ hother
  have hinside : a ∈ (x.inside w target env s).guard ∪ otherCells env w.targetPkey := by
    rcases ha with ha | ⟨n, hn, -, ha⟩
    · exact .inl (.inl ha)
    · exact .inr ⟨n, hn, fun hsame => hq (hsame ▸ ha), ha⟩
  obtain ⟨-, -, hstack⟩ := h.apart hL hinv ha
  rw [hrun.mem (.inr hkeep), hrun.back.mem, hdone.mem hinside, h.toTarget_keeps hL hinv ha]
  rintro ((hcell | hscrub) | hbuffer)
  · exact hq hcell
  · have hlow := hscrub.1
    have hhigh := hscrub.2
    have hroom := (h.gateOk hL hinv).callerRoom
    have hdepth := entryDepth_le target
    rw [crossing_sp, hrun.entry.rsp] at hlow hhigh
    exact hstack ⟨by rw [crossing_w] at hlow; omega, by rw [argsEnd]; omega⟩
  · exact disjoint_left.mp h.bufferApart hkeep hbuffer

/-! ### The steps of a gate -/

def savedAt (w : Wrapper) (env : Env) (s : State) (n : Nat) : Nat :=
  if n = w.callerPkey then s.rsp.toNat else (stackptr env n s).toNat

structure KeepsStacks (L : Layout) (w : Wrapper) (env : Env) (s : State) (buffer : Set Nat)
    (i : Instr) (t : State) : Prop where
  loads : ∀ offset dst, i = .loadFs offset dst → (t.load64 (t.fsAddr env offset)).toNat % 16 = 8
  writes : ∀ a ∈ accesses env i t, a.isWrite = true → ∀ y ∈ a.bytes, y ∉ buffer → ∀ n < 16,
    y ∈ L.area n → y < savedAt w env s n

omit h hL hinv in
theorem writes_of_confined {R W buffer : Set Nat} (h : Confined env R W i t)
    (hW : ∀ y ∈ W, y ∉ buffer → ∀ n < 16, y ∈ L.area n → y < savedAt w env s n) :
    ∀ a ∈ accesses env i t, a.isWrite = true → ∀ y ∈ a.bytes, y ∉ buffer → ∀ n < 16, y ∈ L.area n →
      y < savedAt w env s n := by
  intro a ha hwrite y hy
  have hmem := h a ha hy
  rw [if_pos hwrite] at hmem
  exact hW y hmem

theorem MayCall.lt_savedAt_caller (hy : y ∈ callerArea w s) (hlt : y < s.rsp.toNat) (hn : n < 16)
    (harea : y ∈ L.area n) : y < savedAt w env s n := by
  have hcaller := h.callerPkey_lt hinv
  rw [hL.eq_of_mem hn hcaller harea (h.callerArea_subset hinv hy), savedAt, if_pos rfl]
  exact hlt

theorem MayCall.lt_savedAt_target (hy : y ∈ targetArea w env s) (hn : n < 16)
    (harea : y ∈ L.area n) :
    y < savedAt w env s n := by
  have hne : w.targetPkey ≠ w.callerPkey := by rw [h.callerPkey]; exact h.crosses
  rw [hL.eq_of_mem hn h.targetPkey harea (h.targetArea_subset hinv hy), savedAt, if_neg hne]
  exact hy.2

theorem GateStep.keepsStacks (hstep : GateStep w env s (entered w env s) i t) :
    KeepsStacks L w env s (bufferArea w ((entered w env s).regs .rdi)) i t := by
  have hrsp := (h.entryState hL hinv).rsp
  have hdepth := entryDepth_le target
  have hroom := (h.gateOk hL hinv).callerRoom
  have hend := argsEnd_eq w s
  cases hstep with
  | caller hstep =>
    refine ⟨fun offset dst hi => absurd hi (hstep.noLoad offset dst),
      writes_of_confined hstep.conf ?_⟩
    exact fun y hy _ n hn => h.lt_savedAt_caller hL hinv (entryArea_subset w s hy) hy.2 hn
  | cross hstep =>
    refine ⟨fun offset dst hi => ?_, ?_⟩
    · have hvalue := hstep.loads offset dst hi
      have haligned := h.aligned
      have hmod : entryDepth target % 16 = 0 := by
        rw [entryDepth]
        split <;> rfl
      rw [crossing_env, crossing_sp, crossing_tsp, List.mem_cons, List.mem_singleton] at hvalue
      rcases hvalue with hvalue | hvalue
      · rw [hvalue, hrsp]
        omega
      · rw [hvalue]
        exact hinv.aligned _ h.targetPkey h.crosses
    · rcases hstep.access with ⟨hnone, -⟩ | ⟨-, hconf⟩
      · rw [crossing_env] at hnone
        simp [hnone]
      · refine writes_of_confined hconf ?_
        rintro y (((hcell | htarget) | hscrub) | hbuffer) hout n hn harea
        · have hcaller : w.callerPkey < 16 := by rw [h.callerPkey]; exact hinv.pkey
          rcases hcell with hcell | hcell
          · exact absurd harea (disjoint_left.mp (hL.cells_areas _ hcaller n hn) hcell)
          · exact absurd harea (disjoint_left.mp (hL.cells_areas _ h.targetPkey n hn) hcell)
        · exact h.lt_savedAt_target hL hinv htarget hn harea
        · have hlow := hscrub.1
          have hhigh := hscrub.2
          rw [crossing_sp, hrsp] at hlow hhigh
          rw [crossing_w] at hlow
          exact h.lt_savedAt_caller hL hinv ⟨by omega, by omega⟩ (by omega) hn harea
        · exact absurd hbuffer hout
  | call hi _ hconf =>
    subst hi
    exact ⟨by simp, writes_of_confined hconf fun y hy _ n hn => h.lt_savedAt_target hL hinv hy hn⟩

end Gate

/-! ### Trees of gates -/

structure Segment (env : Env) (x : Activation) (s s' : State) : Prop where
  pkru : s'.pkru = s.pkru
  mem : EqOn s'.mem s.mem (x.guard ∪ allCells env)

/-- A function and all that it calls through gates obey the calling convention, from state `s` on.
-/
def BodyOk (L : Layout) (env : Env) : Body → Activation → State → Prop
  | .ret code, x, s => Segment env x s (code s) ∧ (code s).rsp.toNat = x.entry + 8
  | .call code w target callee rest, x, s =>
    let gateEnv := targeting env (runBody env callee)
    Segment env x s (code s) ∧ MayCall L gateEnv x w target (code s) ∧
      BodyOk L env callee (x.inside w target env (code s))
      ((atCall w gateEnv (code s)).push env.retAddr) ∧
      BodyOk L env rest x (run (exec gateEnv) (gateCode w) (code s))

/-- A gate called in state `s` keeps every stack intact. -/
structure GateKeeps (L : Layout) (env : Env) (x : Activation) (w : Wrapper) (buffer : Set Nat)
    (s : State) : Prop where
  rsp : (run (exec env) (gateCode w) s).rsp.toNat = s.rsp.toNat + 8
  targetCell : stackptr env w.targetPkey (run (exec env) (gateCode w) s) =
    stackptr env w.targetPkey s
  guard : EqOn (run (exec env) (gateCode w) s).mem s.mem x.guard
  steps : Along (exec env) (KeepsStacks L w env s buffer) (gateCode w) s

/-- Every gate of a tree keeps every stack intact, where a gate may write the memory for its result.
-/
def BodyKeeps (L : Layout) (env : Env) : Body → Activation → State → Prop
  | .ret _, _, _ => True
  | .call code w target callee rest, x, s =>
    let gateEnv := targeting env (runBody env callee)
    GateKeeps L gateEnv x w (bufferArea w ((entered w gateEnv (code s)).regs .rdi)) (code s) ∧
      BodyKeeps L env callee (x.inside w target env (code s))
      ((atCall w gateEnv (code s)).push env.retAddr) ∧
      BodyKeeps L env rest x (run (exec gateEnv) (gateCode w) (code s))

section Tree

variable {L : Layout} {env : Env} {x : Activation} {s : State}

theorem Layout.Apart.targeting (h : L.Apart env) (body : State → State) :
    L.Apart (targeting env body) :=
  ⟨h.top, h.cells, h.areas, h.cells_areas⟩

theorem Activation.inv_targeting_iff {body : State → State} :
    x.Inv L (targeting env body) s ↔ x.Inv L env s :=
  ⟨fun h => ⟨h.pkey, h.pkru, h.entry, h.aligned, h.within, h.guard⟩,
    fun h => ⟨h.pkey, h.pkru, h.entry, h.aligned, h.within, h.guard⟩⟩

theorem body_run (hL : L.Apart env) (b : Body) : ∀ x s, x.Inv L env s → BodyOk L env b x s →
    x.Done env s (runBody env b s) ∧ BodyKeeps L env b x s := by
  induction b with
  | ret code =>
    intro x s hinv hok
    exact ⟨⟨hok.2, hok.1.pkru,
      hok.1.mem.mono (union_subset_union_right _ (otherCells_subset env _))⟩, trivial⟩
  | call code w target callee rest ihCallee ihRest =>
    intro x s hinv ⟨hcode, hmay, hcalleeOk, hrestOk⟩
    have hcodeKeeps :=
      hcode.mem.mono (union_subset_union_right x.guard (otherCells_subset env x.pkey))
    have hinv₁ : x.Inv L env (code s) := hinv.congr hcode.pkru (hcodeKeeps.mono subset_union_right)
    have hL' := hL.targeting (runBody env callee)
    have hinv₁' : x.Inv L (targeting env (runBody env callee)) (code s) :=
      Activation.inv_targeting_iff.mpr hinv₁
    -- the target
    have hinside := Activation.inv_targeting_iff.mp (hmay.inside_inv hL' hinv₁')
    obtain ⟨hcalleeDone, hcalleeKeeps⟩ := ihCallee _ _ hinside hcalleeOk
    have hdone : (x.inside w target env (code s)).Done (targeting env (runBody env callee))
        ((atCall w (targeting env (runBody env callee)) (code s)).push env.retAddr)
        (afterCall w (targeting env (runBody env callee)) (code s)) := by
      rw [afterCall_eq hmay.named]
      exact ⟨hcalleeDone.rsp, hcalleeDone.pkru, hcalleeDone.mem⟩
    -- the gate
    have hrun := hmay.gateRun hL' hinv₁' hdone
    obtain ⟨htsp, hgateKeeps⟩ := hmay.gate_keeps hL' hinv₁' hdone
    rw [← run_gateCode] at htsp hgateKeeps
    have hpkru := hrun.pkru
    have hrsp := hrun.rsp
    rw [← run_gateCode] at hpkru hrsp
    have hgate : GateKeeps L (targeting env (runBody env callee)) x w _ (code s) :=
      ⟨hrsp, htsp, hgateKeeps.mono subset_union_left, hrun.steps.mono fun i t _ hstep =>
        hstep.keepsStacks hmay hL' hinv₁'⟩
    -- the rest of the function
    obtain ⟨hrestDone, hrestKeeps⟩ :=
      ihRest x _ (hinv₁.congr hpkru (hgateKeeps.mono subset_union_right)) hrestOk
    refine ⟨⟨hrestDone.rsp, ?_, ?_⟩, hgate, hcalleeKeeps, hrestKeeps⟩
    · exact hrestDone.pkru.trans (hpkru.trans hcode.pkru)
    · exact hrestDone.mem.trans (hgateKeeps.trans hcodeKeeps)

/-- Nested gates keep every compartment's stack intact. -/
theorem nested_gates_keep_stacks (hL : L.Apart env) {b : Body} (hinv : x.Inv L env s)
    (hok : BodyOk L env b x s) :
    BodyKeeps L env b x s :=
  (body_run hL b x s hinv hok).2

end Tree

/-! ### A call back into the caller's compartment -/

def nestLayout : Layout := ⟨fun n => 0x100000 * (n + 1), fun n => 0x100000 * (n + 1) + 0x10000⟩

def nestMemory : ByteMemory := fun a =>
  if 0x10000 ≤ a ∧ a < 0x10080 then
    BitVec.ofNat 8 ((0x100000 * ((a - 0x10000) / 8 + 1) + 0xfff8) / 256 ^ ((a - 0x10000) % 8))
  else 0

def nestEntry : State := { structEntry with mem := nestMemory }

/-- A function of compartment 1. -/
def nestActivation : Activation := ⟨1, 0x20f008, ∅⟩

/-- It calls the gate for a function on structures, with memory for the result in its own frame. -/
def callStruct (s : State) : State := (s.set .rsp 0x20e008).set .rdi 0x20e800

def voidSig : AbiSignature := ⟨[], [], slots_nil, .void⟩

def callbackGate : Wrapper := ⟨⟨voidSig, []⟩, none, some {}, .direct, 2, 1, false⟩

def nestTree : Body :=
  .call callStruct structGate {}
    (.call (fun c => c.set .rsp 0x30ff08) callbackGate {} (.ret fun c => c.set .rsp 0x20dfd0)
      (.ret fun c => c.set .rsp 0x30ffb0))
    (.ret fun s => s.set .rsp 0x20f010)

theorem nest_stackptr :
    ∀ n < 16, (stackptr structEnv n nestEntry).toNat = 0x100000 * (n + 1) + 0xfff8 := by
  decide +kernel

theorem nest_cell (hn : n < 16) :
    cell structEnv n = Ico (0x10000 + 8 * n) (0x10000 + 8 * n + 8) := by
  have haddr : (structEnv.fsBase + structEnv.tpoff n).toNat = 0x10000 + 8 * n := toNat_add_of_lt (by
    change 0x10000 + 8 * n < 2 ^ 64
    omega)
  rw [cell, haddr]

theorem nestLayout_apart : nestLayout.Apart structEnv := by
  refine ⟨fun n hn => ?_, fun m hm n hn hne => ?_, fun m hm n hn hne => ?_, fun m hm n hn => ?_⟩
  · change 0x100000 * (n + 1) + 0x10000 ≤ 2 ^ 64
    omega
  · rw [nest_cell hm, nest_cell hn, Ico_disjoint_Ico]
    omega
  · rw [Layout.area, Layout.area, Ico_disjoint_Ico]
    simp only [nestLayout]
    omega
  · rw [nest_cell hm, Layout.area, Ico_disjoint_Ico]
    simp only [nestLayout]
    omega

theorem nest_inv : nestActivation.Inv nestLayout structEnv nestEntry := by
  refine ⟨by decide, rfl, by decide, fun n hn _ => ?_, fun n hn _ => ?_,
    fun a ha => absurd ha (notMem_empty a)⟩
  · rw [nest_stackptr n hn]
    omega
  · rw [nest_stackptr n hn]
    simp only [nestLayout]
    omega

theorem nest_areas (body : State → State) :
    callerArea structGate (callStruct nestEntry) = Ico 0x20df88 0x20e028 ∧
      targetArea structGate (targeting structEnv body) (callStruct nestEntry) =
        Ico 0x30ff98 0x30fff8 ∧
      bufferArea structGate
        ((entered structGate (targeting structEnv body) (callStruct nestEntry)).regs .rdi) =
        Ico 0x20e800 0x20e828 := by
  have hptr : (stackptr (targeting structEnv body) structGate.targetPkey
      (callStruct nestEntry)).toNat = 0x30fff8 :=
    nest_stackptr 2 (by decide)
  refine ⟨rfl, ?_, rfl⟩
  rw [targetArea, hptr]
  rfl

theorem nest_mayCall (body : State → State) :
    MayCall nestLayout (targeting structEnv body) nestActivation structGate {}
      (callStruct nestEntry) := by
  obtain ⟨hcaller, htarget, hbuffer⟩ := nest_areas body
  have hcell : ∀ n < 16, Disjoint (cell structEnv n) (Ico 0x20e800 0x20e828) := fun n hn => by
    rw [nest_cell hn, Ico_disjoint_Ico]
    omega
  refine ⟨rfl, rfl, rfl, rfl, by decide, by decide, by decide, by decide, by decide, ?_,
    structGate_bare.helpersOk _ _ _ _,
    ⟨?_, ?_, ?_⟩, ?_⟩
  · have hptr : (stackptr (targeting structEnv body) structGate.targetPkey
        (callStruct nestEntry)).toNat = 0x30fff8 :=
      nest_stackptr 2 (by decide)
    rw [hptr]
    decide
  · change 0x20e800 + 40 < 2 ^ 64
    decide
  · rw [hbuffer]
    exact disjoint_union_left.mpr ⟨hcell 1 (by decide), hcell 2 (by decide)⟩
  · rw [hcaller, htarget, hbuffer, disjoint_union_left, Ico_disjoint_Ico, Ico_disjoint_Ico]
    decide
  · rw [hbuffer]
    refine disjoint_left.mpr fun a ha hin => ?_
    rcases ha with ha | ⟨n, hn, ha⟩
    · exact ha
    · exact disjoint_left.mp (hcell n hn) ha hin

theorem nest_inv' (body : State → State) :
    nestActivation.Inv nestLayout (targeting structEnv body) (callStruct nestEntry) :=
  Activation.inv_targeting_iff.mpr (nest_inv.congr rfl (eqOn_refl _ _))

theorem nest_saved (body : State → State) :
    (stackptr structEnv 1
      ((atCall structGate (targeting structEnv body) (callStruct nestEntry)).push
      structEnv.retAddr)).toNat =
      0x20dfd8 :=
  (nest_mayCall body).inside_saved (nestLayout_apart.targeting body) (nest_inv' body)

theorem nest_callback (body : State → State) {x : Activation} (hpkey : x.pkey = 2)
    (hentry : x.entry = 0x30ffa8) (hptr : (stackptr structEnv 1 c).toNat = 0x20dfd8) :
    MayCall nestLayout (targeting structEnv body) x callbackGate {} (c.set .rsp 0x30ff08) := by
  have hbare : Bare callbackGate {} := ⟨rfl, rfl, rfl, rfl, rfl⟩
  refine ⟨rfl, rfl, rfl, hpkey.symm, by decide, by rw [hpkey]; decide, ?_, ?_, ?_, ?_,
    hbare.helpersOk _ _ _ _,
    .of_returnSize rfl _, ?_⟩
  · change 0x30ff08 % 16 = 8
    decide
  · rw [hentry]
    change 0x30ff10 ≤ 0x30ffa8
    decide
  · rw [hpkey]
    change nestLayout.lo 2 + (frameDepth + callbackGate.scrubDepth) ≤ 0x30ff08
    decide
  · change nestLayout.lo 1 + callbackGate.targetDepth ≤ (stackptr structEnv 1 c).toNat
    rw [hptr]
    decide
  · rw [bufferArea_eq_empty rfl]
    exact disjoint_empty _

theorem nest_callback_entry (x : Activation) (hptr : (stackptr structEnv 1 c).toNat = 0x20dfd8) :
    (x.inside callbackGate {} structEnv (c.set .rsp 0x30ff08)).entry + 8 = 0x20dfd0 := by
  change (stackptr structEnv 1 c).toNat - 8 - 8 + 8 = _
  rw [hptr]

theorem nest_bodyOk : BodyOk nestLayout structEnv nestTree nestActivation nestEntry := by
  have hquiet : ∀ (x : Activation) (c : State) (v : BitVec 64),
      Segment structEnv x c (c.set .rsp v) := fun _ _ _ =>
    ⟨rfl, eqOn_refl _ _⟩
  have hptr : (stackptr structEnv 2 nestEntry).toNat = 0x30fff8 := nest_stackptr 2 (by decide)
  have hentry : (nestActivation.inside structGate {} structEnv (callStruct nestEntry)).entry =
      0x30ffa8 := by
    change (stackptr structEnv 2 nestEntry).toNat - 72 - 8 = _
    rw [hptr]
  refine ⟨⟨rfl, eqOn_refl _ _⟩, nest_mayCall _,
    ⟨hquiet _ _ _, ?_, ⟨hquiet _ _ _, ?_⟩, hquiet _ _ _, ?_⟩, hquiet _ _ _, rfl⟩
  · exact nest_callback _ rfl hentry (nest_saved _)
  · exact (nest_callback_entry _ (nest_saved _)).symm
  · exact (congrArg (· + 8) hentry).symm

theorem nested_gates_keep_stacks_callback :
    BodyKeeps nestLayout structEnv nestTree nestActivation nestEntry :=
  nested_gates_keep_stacks nestLayout_apart nest_inv nest_bodyOk

/-! ### A result on the caller's stack -/

/-- A target that returns a structure whose first byte is 1. -/
def writeResult (c : State) : State := { c.set .rsp 0x30ffb0 with mem := c.mem.write 0x30ffd0 1 1 }

def resultTree :
    Body := .call callStruct structGate {} (.ret writeResult) (.ret fun s => s.set .rsp 0x20f010)

theorem writeResult_mem (c : State) {a : Nat} (ha : a ≠ 0x30ffd0) :
    (writeResult c).mem a = c.mem a :=
  ByteMemory.write_of_notMem fun h => ha (by have := h.1; have := h.2; omega)

theorem writeResult_result (c : State) : (writeResult c).mem 0x30ffd0 = 1#8 :=
  ByteMemory.write_one_apply c.mem 0x30ffd0 1

theorem writeResult_segment (c : State) :
    Segment structEnv (nestActivation.inside structGate {} structEnv (callStruct nestEntry)) c
      (writeResult c) := by
  have hptr : (stackptr structEnv structGate.targetPkey (callStruct nestEntry)).toNat = 0x30fff8 :=
    nest_stackptr 2 (by decide)
  refine ⟨rfl, fun a ha => writeResult_mem c ?_⟩
  rintro rfl
  rcases ha with (hnone | hframe | hslot) | ⟨n, hn, hcell⟩
  · exact hnone
  · exact absurd hframe.2 (by decide)
  · rw [if_pos (by decide), hptr] at hslot
    exact absurd hslot.2 (by decide)
  · rw [nest_cell hn] at hcell
    have := hcell.2
    omega

theorem writeResult_rsp (c : State) :
    (writeResult c).rsp.toNat =
      (nestActivation.inside structGate {} structEnv (callStruct nestEntry)).entry + 8 := by
  have hptr : (stackptr structEnv 2 nestEntry).toNat = 0x30fff8 := nest_stackptr 2 (by decide)
  change 0x30ffb0 = (stackptr structEnv 2 nestEntry).toNat - 72 - 8 + 8
  rw [hptr]

theorem result_above_stack_pointer :
    nestActivation.Inv nestLayout structEnv nestEntry ∧
      BodyOk nestLayout structEnv resultTree nestActivation nestEntry ∧
      ¬ GateKeeps nestLayout (targeting structEnv writeResult) nestActivation structGate ∅
        (callStruct nestEntry) := by
  refine ⟨nest_inv, ⟨⟨rfl, eqOn_refl _ _⟩, nest_mayCall _,
    ⟨writeResult_segment _, writeResult_rsp _⟩, ⟨rfl, eqOn_refl _ _⟩, rfl⟩,
    fun h => ?_⟩
  have hsegment := writeResult_segment
    ((atCall structGate (targeting structEnv writeResult) (callStruct nestEntry)).push
    structEnv.retAddr)
  have hrun := (nest_mayCall writeResult).gateRun (nestLayout_apart.targeting _) (nest_inv' _)
    ⟨writeResult_rsp _, hsegment.pkru,
      hsegment.mem.mono (union_subset_union_right _ (otherCells_subset _ _))⟩
  -- the result is in the caller's frame
  have hptr : (stackptr (targeting structEnv writeResult) structGate.targetPkey
      (callStruct nestEntry)).toNat = 0x30fff8 :=
    nest_stackptr 2 (by decide)
  have hresult := hrun.back.result 0 (by decide)
  have hrdi : (entered structGate (targeting structEnv writeResult) (callStruct nestEntry)).regs
    .rdi = 0x20e800 := rfl
  have haddr : 0x30fff8 - (structGate.sizes.returnSize + structGate.sizes.returnPadding) + 0 =
    0x30ffd0 := by decide
  rw [crossing_w, crossing_tsp, crossing_buffer, hptr, hrdi, afterCall_eq rfl, haddr] at hresult
  have hwritten : (returned structGate (targeting structEnv writeResult) (callStruct nestEntry)).mem
      0x20e800 = 1#8 :=
    hresult.trans (writeResult_result _)
  -- but a gate that writes below the stack pointers only does not change it
  have hkept : (returned structGate (targeting structEnv writeResult) (callStruct nestEntry)).mem
      0x20e800 = 0#8 := by
    rw [← run_returned]
    refine (((along_append _).mp h.steps).1.invariant (J := fun t => t.mem 0x20e800 = 0#8) rfl
      fun i t hi hstep ht => ?_).2
    obtain ⟨t', ht'⟩ := hrun.steps.exists_of_mem (List.mem_append_left _ hi)
    refine (exec_spares (R := univ) (fun a ha => ?_) (fun callee c => ?_) ht'.ne_callIndirect).trans
      ht
    · split
      · rename_i hwrite
        rintro y hy rfl
        exact absurd (hstep.writes a ha hwrite _ hy (notMem_empty _) 1 (by decide)
          ⟨by decide, by decide⟩) (by decide)
      · exact subset_univ _
    · cases callee with
      | target => exact writeResult_mem c (by decide)
      | _ => rfl
  rw [hwritten] at hkept
  cases hkept

end Ia2.Gate
