import Ia2.Arm.Moves
import Ia2.Arm.Scrub

/-!
# Indirect call sites on AArch64

The gate that an indirect call goes through: its code up to `blr x9`, and what is in registers and
memory there, in terms of the state in which the gate is called.
-/

namespace Ia2.Arm

open StraightLine Set
open Rewriter (ArgLocation Slot)
open Rewriter.ArgLocation (register indirect)

/-- A wrapper for an indirect call site, whose own signature has the pointer to the function first.
-/
structure IsSite (w : Wrapper) : Prop where
  kind : w.kind = .indirectCallsite
  target : w.target = none
  wrapperSig : w.wrapperSig = some (prepended w.sig)

variable {w : Wrapper} {env : Env} {s s' : State}

/-! ### What it means that the arguments arrive -/

def wrapperArgSize (w : Wrapper) : Nat := (allocateParamLocations (prepended w.sig)).2

theorem argSize_le_wrapperArgSize (w : Wrapper) : w.sizes.argSize ≤ wrapperArgSize w :=
  argSize_le w.sig

def siteBase (w : Wrapper) (env : Env) (s : State) :
    Nat := low (stackptr env w.targetPkey s) - w.sizes.total

def siteExtent (w : Wrapper) : Nat := (w.copies.map fun p => p.2 + p.1.size).foldr max w.sizes.total

def gateWrites (w : Wrapper) (env : Env) (s : State) : Set Nat :=
  cell env w.callerPkey ∪ Ico (low s.sp - savedBytes) (low s.sp) ∪
    Ico (siteBase w env s - scrubBytes w.args true) (siteBase w env s + siteExtent w)

def CopyArrives (w : Wrapper) (env : Env) (s c : State) (pointer pointer' n : Nat) : Prop :=
  pointer + n ≤ 2 ^ 56 → Disjoint (Ico pointer (pointer + n)) (gateWrites w env s) →
    Ico pointer' (pointer' + n) ⊆ Ico (low c.sp) (low (stackptr env w.targetPkey s)) ∧
      ∀ i < n, c.mem (pointer' + i) = s.mem (pointer + i)

/-- At the call, `x9` and the locations of every argument hold what the caller passed, or pointers
to copies of it. -/
structure Delivered (w : Wrapper) (env : Env) (s c : State) : Prop where
  pointer : (c.regs (.x 9)).toNat = argValue s (low s.sp)
    (newLocs (initialParams w.sig.ret) (register .integral 8))
  args : ∀ g ∈ siteGroups w.sig, g.1.isIndirect = false →
    argValue c (low c.sp) g.2.1 = argValue s (low s.sp) g.2.2
  indirects : ∀ g ∈ siteGroups w.sig, g.1.isIndirect = true →
    CopyArrives w env s c (argValue s (low s.sp) g.2.2 % 2 ^ 56)
    (argValue c (low c.sp) g.2.1 % 2 ^ 56) g.1.bytes

structure Passes (w : Wrapper) (env : Env) (s s' : State) : Prop where
  sp : s'.sp = s.sp
  cell : EqOn s'.mem s.mem (cell env w.targetPkey)

/-- Whatever the caller passes, the gate delivers it. -/
def Delivers (w : Wrapper) (env : Env) (s : State) : Prop :=
  ∀ s', Passes w env s s' → ∃ prog c, w.emitAsmWrapper = some prog ∧
    firstAt (exec env) (fun i => decide (i = .blr (.x 9))) prog s' = some c ∧ Delivered w env s' c

/-! ### Where its memory lies -/

def callerArea (w : Wrapper) (s : State) :
    Set Nat := Ico (low s.sp - savedBytes) (low s.sp + (wrapperArgSize w + 16))

def targetArea (w : Wrapper) (env : Env) (s : State) : Set Nat :=
  Ico (siteBase w env s - scrubBytes w.args true) (siteBase w env s + (siteExtent w + 8))

def siteMemory (w : Wrapper) (env : Env) (s : State) : Set Nat :=
  cell env w.callerPkey ∪ cell env w.targetPkey ∪ callerArea w s ∪ targetArea w env s

/-- The call site has room on both stacks, its memory does not overlap, and the caller has memory
for what it passes indirectly. -/
structure SiteOk (w : Wrapper) (env : Env) (s : State) : Prop where
  callerRoom : savedBytes ≤ low s.sp
  callerTop : low s.sp + (wrapperArgSize w + 16) ≤ 2 ^ 56
  targetRoom : w.sizes.total + scrubBytes w.args true ≤ low (stackptr env w.targetPkey s)
  targetTop : siteBase w env s + siteExtent w ≤ 2 ^ 56
  cells : Disjoint (cell env w.callerPkey) (cell env w.targetPkey)
  cells_caller : Disjoint (cell env w.callerPkey ∪ cell env w.targetPkey) (callerArea w s)
  cells_target : Disjoint (cell env w.callerPkey ∪ cell env w.targetPkey) (targetArea w env s)
  areas : Disjoint (callerArea w s) (targetArea w env s)
  spare : ∀ arg ∈ w.sig.args, arg.isIndirect = true → ∃ a, a + (arg.bytes + 1) ≤ 2 ^ 56 ∧
    Disjoint (Ico a (a + (arg.bytes + 1))) (siteMemory w env s)

theorem Passes.stackptr (h : Passes w env s s') :
    stackptr env w.targetPkey s' = stackptr env w.targetPkey s :=
  State.load64_congr h.cell

theorem Passes.targetArea (h : Passes w env s s') : targetArea w env s' = targetArea w env s := by
  rw [Arm.targetArea, Arm.targetArea, siteBase, siteBase, h.stackptr]

theorem Passes.callerArea (h : Passes w env s s') : callerArea w s' = callerArea w s := by
  rw [Arm.callerArea, Arm.callerArea, h.sp]

theorem Passes.siteOk (h : Passes w env s s') (hok : SiteOk w env s) : SiteOk w env s' := by
  obtain ⟨hroom, htop, htarget, htop', hcells, hcaller, htarget', hareas, hspare⟩ := hok
  refine ⟨by rwa [h.sp], by rwa [h.sp], by rwa [h.stackptr], by rwa [siteBase, h.stackptr], hcells,
    ?_, ?_, ?_, ?_⟩
  · rw [h.callerArea]
    exact hcaller
  · rw [h.targetArea]
    exact htarget'
  · rw [h.callerArea, h.targetArea]
    exact hareas
  · rw [siteMemory, h.callerArea, h.targetArea]
    exact hspare

/-! ### The code -/

def siteLocs (w : Wrapper) : List Location := (siteGroups w.sig).flatMap fun g => g.2.1

def siteSrcs (w : Wrapper) : List Location := (siteGroups w.sig).flatMap fun g => g.2.2

def siteMoves (w : Wrapper) : Option (List Instr) := moveArgs (siteSrcs w) (siteLocs w)

def siteArgs (w : Wrapper) (moves : List Instr) : List Instr :=
  emitCopies w.sizes w.args (wrapperArgSize w) ++ .mov (.x 9) (.x 0) :: moves

def siteCode (w : Wrapper) (moves : List Instr) : List Instr :=
  w.emitEntry ++ emitSwitchStacks w.callerPkey w.targetPkey ++ w.emitToTarget (siteArgs w moves)

theorem copyWrapperArgs_site (w : Wrapper) :
    copyWrapperArgs w.sizes (allocateParamLocations (prepended w.sig)).1 w.args =
    (siteMoves w).map (.mov (.x 9) (.x 0) :: ·) := by
  have hskip : ∀ locs, ((initialParams w.sig.ret).args ++ locs).drop
    (if 0 < w.sizes.returnSize then 1 else 0) = locs := fun locs => by
    rw [← initialParams_length]
    exact List.drop_left
  have hlocs : w.args = (initialParams w.sig.ret).args ++ siteLocs w := siteGroups_locs w.sig
  rw [copyWrapperArgs, siteGroups_srcs, hlocs]
  simp only [hskip, siteMoves, siteSrcs]
  cases moveArgs _ _ <;> rfl

theorem emitAsmWrapper_site (hsite : IsSite w) : w.emitAsmWrapper =
    (siteMoves w).map fun moves => siteCode w moves ++
      .blr (.x 9) :: (w.emitFromTarget ++ emitSwitchStacks w.targetPkey w.callerPkey ++
        w.emitExit) := by
  have hchecks : w.hasTypeChecks = false := by rw [Wrapper.hasTypeChecks, hsite.target]
  have hcopy : emitCopyArgs w.sizes w.args (w.wrapperSig.map allocateParamLocations) =
      (siteMoves w).map (siteArgs w) := by
    rw [hsite.wrapperSig, Option.map_some]
    simp only [emitCopyArgs, copyWrapperArgs_site]
    cases siteMoves w <;> rfl
  have hcall : w.emitFnCall = .blr (.x 9) := by rw [Wrapper.emitFnCall, hsite.target]
  rw [Wrapper.emitAsmWrapper, hchecks, hcopy, hcall]
  cases siteMoves w with
  | none => rfl
  | some moves => simp [siteCode]

/-! ### Up to the moves -/

theorem site_entered (hsite : IsSite w) : entered w env s = run (exec env) emitPrologue s := by
  rw [entered, Wrapper.emitEntry, hsite.target, List.append_nil]

structure SiteSwitched (w : Wrapper) (env : Env) (s t : State) : Prop where
  sp : t.sp = stackptr env w.targetPkey s
  saved : t.regs (.x 12) = s.sp - BitVec.ofNat 64 savedBytes
  regs : ∀ n ∈ 8 :: intParamRegOrder, t.regs (.x n) = s.regs (.x n)
  vregs : t.vregs = s.vregs
  mem : EqOn t.mem s.mem (cell env w.callerPkey ∪ Ico (low s.sp - savedBytes) (low s.sp))ᶜ

theorem site_switched (hsite : IsSite w) (hok : SiteOk w env s) :
    SiteSwitched w env s (switched w env s) := by
  have hframed : Framed s (entered w env s) := by
    rw [site_entered hsite]
    exact framed_prologue hok.callerRoom
  have hswitched := switched_spec w env s
  have hframe : Disjoint (cell env w.targetPkey) (Ico (low s.sp - savedBytes) (low s.sp)) :=
    hok.cells_caller.mono subset_union_right (Ico_subset_Ico le_rfl (by omega))
  refine ⟨?_, hswitched.saved.trans hframed.sp, fun n hn => ?_, hswitched.vregs.trans hframed.vregs,
    fun a ha => ?_⟩
  · rw [hswitched.sp, hswitched.loaded, stackptr, stackptr]
    refine State.load64_congr fun a ha => ?_
    rw [State.store_mem, ByteMemory.write_of_notMem fun h => disjoint_left.mp hok.cells h ha]
    exact hframed.mem (disjoint_left.mp hframe ha)
  · have hne : Reg.x n ∉ [Reg.x 9, .x 10, .x 11, .x 12, .sp] ∧ Reg.x n ∉ [Reg.x 29, .sp] := by
      revert n
      decide
    rw [hswitched.regs _ hne.1, hframed.regs _ hne.2]
  · simp only [mem_compl_iff, mem_union, not_or] at ha
    rw [hswitched.mem, ByteMemory.write_of_notMem ha.1]
    exact hframed.mem ha.2

def siteSp (w : Wrapper) (env : Env) (s : State) :
    BitVec 64 := stackptr env w.targetPkey s - BitVec.ofNat 64 w.sizes.total

theorem site_room (hok : SiteOk w env s) :
    low (stackptr env w.targetPkey s) = siteBase w env s + w.sizes.total := by
  have := hok.targetRoom
  rw [siteBase]
  omega

theorem low_siteSp (hok : SiteOk w env s) : low (siteSp w env s) = siteBase w env s := by
  have := hok.targetRoom
  exact low_sub (by omega)

def siteCopied (w : Wrapper) (env : Env) (s : State) :
    State := copied w env (wrapperArgSize w) (switched w env s)

theorem le_siteExtent (w : Wrapper) :
    w.sizes.total ≤ siteExtent w ∧ ∀ p ∈ w.copies, p.2 + p.1.size ≤ siteExtent w := by
  have hmax : ∀ ns : List Nat, w.sizes.total ≤ ns.foldr max w.sizes.total ∧ ∀ n ∈ ns,
      n ≤ ns.foldr max w.sizes.total := by
    intro ns
    induction ns with
    | nil => exact ⟨le_rfl, fun _ h => absurd h List.not_mem_nil⟩
    | cons n ns ih =>
      refine ⟨ih.1.trans (le_max_right _ _),
        List.forall_mem_cons.mpr ⟨le_max_left _ _, fun m hm => ?_⟩⟩
      exact (ih.2 m hm).trans (le_max_right _ _)
  exact ⟨(hmax _).1, fun p hp => (hmax _).2 _ (List.mem_map_of_mem hp)⟩

section Copied

variable (hsite : IsSite w) (hok : SiteOk w env s)
include hsite hok

theorem low_switched_sp : low (switched w env s).sp = siteBase w env s + w.sizes.total := by
  rw [(site_switched hsite hok).sp, site_room hok]

theorem siteCopied_sp : (siteCopied w env s).sp = siteSp w env s := by
  rw [siteCopied, copied_sp, (site_switched hsite hok).sp, siteSp]

theorem siteCopied_eqOn : EqOn (siteCopied w env s).mem (switched w env s).mem
    (Ico (siteBase w env s) (siteBase w env s + siteExtent w))ᶜ := by
  obtain ⟨htotal, hfit⟩ := le_siteExtent w
  have hwritten := written_subset_of_le env (wrapperArgSize w) (low_switched_sp hsite hok) htotal
    hfit hok.targetTop
  exact (copied_eqOn w env (wrapperArgSize w) (switched w env s)).mono
    (compl_subset_compl.mpr hwritten)

theorem siteCopied_caller :
    EqOn (siteCopied w env s).mem s.mem (Ico (low s.sp) (low s.sp + (wrapperArgSize w + 16))) := by
  intro a ha
  have hcaller : a ∈ callerArea w s := ⟨(Nat.sub_le _ _).trans ha.1, ha.2⟩
  rw [siteCopied_eqOn hsite hok, (site_switched hsite hok).mem]
  · rintro (hcell | hframe)
    · exact disjoint_left.mp hok.cells_caller (.inl hcell) hcaller
    · exact absurd hframe.2 (Nat.not_lt.mpr ha.1)
  · exact fun htarget => disjoint_left.mp hok.areas hcaller
      ⟨(Nat.sub_le _ _).trans htarget.1, htarget.2.trans_le (by omega)⟩

theorem siteCopied_vregs : (siteCopied w env s).vregs = s.vregs := by
  rw [siteCopied, copied_vregs, (site_switched hsite hok).vregs]

theorem siteCopied_saved :
    (siteCopied w env s).regs (.x 12) = s.sp - BitVec.ofNat 64 savedBytes := by
  have hsets := @copyIndirects_sets w (.x 12) (by decide) (by decide)
  rw [siteCopied, copied, run_regs hsets, argsCopied_regs _ _ _ _ (by decide),
    (site_switched hsite hok).saved]

theorem siteCopied_regs {n : Fin 31} (hn : n ∈ intParamRegOrder) :
    ((siteCopied w env s).regs (.x n)).toNat =
      (copyOrigins w.copies (.x n)).value (siteSp w env s) s 8 := by
  have hne : Reg.x n ∉ [Reg.sp, .x 8, .x 9] := by
    revert n
    decide
  have hsp : (argsCopied w env (wrapperArgSize w) (switched w env s)).sp = siteSp w env s := by
    rw [argsCopied_sp, (site_switched hsite hok).sp, siteSp]
  have hlt := fun u : BitVec 64 => Nat.mod_eq_of_lt u.isLt
  rw [siteCopied, copied, emitCopyIndirects, regs_copyIndirects _ hn, hsp,
    argsCopied_regs _ _ _ _ hne,
    (site_switched hsite hok).regs n (List.mem_cons_of_mem _ hn)]
  simp only [copyOrigins, Wrapper.copies]
  cases copyTo (indirectCopies w.sizes.indirectStart w.args) n with
  | some offset => exact (hlt _).symm
  | none => exact (hlt _).symm

end Copied

/-! ### At the call -/

def siteOrigins (w : Wrapper) : Origins :=
  origins (Function.update (copyOrigins w.copies) (.x 9) (copyOrigins w.copies (.x 0))) (siteSrcs w)
    (siteLocs w)

section Call

variable {moves : List Instr}

def siteMoved (w : Wrapper) (env : Env) (s : State) (moves : List Instr) : State :=
  run (exec env) moves (exec env (.mov (.x 9) (.x 0)) (siteCopied w env s))

def siteCall (w : Wrapper) (env : Env) (s : State) (moves : List Instr) : State :=
  run (exec env) (siteCode w moves) s

theorem siteCall_eq (hsite : IsSite w) : siteCall w env s moves =
    exec env (.movz (.x 18) (w.targetPkey * 2 ^ 8))
      (run (exec env) (emitScrubRegs w.args true) (siteMoved w env s moves)) := by
  have hkind : decide (w.kind = .indirectCallsite) = true := decide_eq_true hsite.kind
  rw [siteCall, siteCode, Wrapper.emitToTarget, siteArgs, hkind]
  simp only [run_append, run_emitCopies]
  rw [← entered, ← switched, ← siteCopied]
  rfl

variable {loc : Location}

theorem mem_siteLocs (h : loc ∈ siteLocs w) :
    ∃ g ∈ siteGroups w.sig, loc ∈ g.2.1 := List.mem_flatMap.mp h

theorem siteLocs_isParam (h : loc ∈ siteLocs w) {r : ArgReg} (hr : loc.reg = some r) :
    IsParam r := by
  obtain ⟨g, hg, hloc⟩ := mem_siteLocs h
  exact (site_shift hg).isParam.1 loc hloc r hr

theorem site_walk (hsite : IsSite w) (hok : SiteOk w env s) (hmoves : siteMoves w = some moves) :
    Walk s (siteSp w env s) (siteCopied w env s).mem (siteOrigins w) (siteMoved w env s moves) := by
  refine Walk.moves hok.callerTop (siteCopied_caller hsite hok) hmoves (fun src hsrc => ?_)
    (fun loc hloc r hr => (siteLocs_isParam hloc hr).carried) ?_
  · obtain ⟨g, hg, hsrc⟩ := List.mem_flatMap.mp hsrc
    refine ⟨fun r hr => ((site_shift hg).isParam.2 src hsrc r hr).carried, fun hstack => ?_⟩
    have hend : src.stackOffset + min src.width 8 ≤ wrapperArgSize w := (src_stack hg hsrc hstack).1
    omega
  · -- `x9` has what was in `x0`, and the other registers are as after the copies
    refine ⟨fun r hr => ?_, siteCopied_saved hsite hok, siteCopied_sp hsite hok, rfl⟩
    cases r with
    | x n =>
      by_cases hn : n = 9
      · subst hn
        rw [Function.update_self]
        exact siteCopied_regs hsite hok (by decide : (0 : Fin 31) ∈ intParamRegOrder)
      · have hparam : n ∈ intParamRegOrder := (List.mem_cons.mp hr).resolve_left hn
        rw [Function.update_of_ne (by simp [hn]), ArgReg.value,
          exec_regs (by simp [Instr.sets, hn])]
        exact siteCopied_regs hsite hok hparam
    | q i =>
      rw [Function.update_of_ne (by simp), ArgReg.value, exec_vregs rfl, siteCopied_vregs hsite hok]
      exact (Nat.mod_eq_of_lt (s.vregs i).isLt).symm

structure SiteCalled (w : Wrapper) (env : Env) (s c : State) : Prop where
  sp : c.sp = siteSp w env s
  pointer : ArgReg.value c (.x 9) = (siteOrigins w (.x 9)).value (siteSp w env s) s 8
  holds : ∀ loc ∈ siteLocs w, loc.isStack = false → ∀ r, loc.reg = some r →
    r.value c = (siteOrigins w r).value (siteSp w env s) s r.bytes
  mem : EqOn c.mem (siteCopied w env s).mem
    (Ico (siteBase w env s - scrubBytes w.args true) (siteBase w env s))ᶜ

theorem siteCall_spec (hsite : IsSite w) (hok : SiteOk w env s)
    (hmoves : siteMoves w = some moves) :
    SiteCalled w env s (siteCall w env s moves) := by
  have hwalk := site_walk hsite hok hmoves
  have hlow : low (siteMoved w env s moves).sp = siteBase w env s := by
    rw [hwalk.sp, low_siteSp hok]
  have hroom : scrubBytes w.args true ≤ low (siteMoved w env s moves).sp := by
    have := hok.targetRoom
    rw [hlow, siteBase]
    omega
  obtain ⟨hrestores, hregs⟩ := @restores_scrubRegs env w.args true _ hroom
  have hmem := hrestores.mem
  rw [hlow, hwalk.mem] at hmem
  rw [siteCall_eq hsite]
  have hx : ∀ n ∈ regs64bit w.args true, n ∈ 9 :: intParamRegOrder →
      ArgReg.value (exec env (.movz (.x 18) (w.targetPkey * 2 ^ 8))
        (run (exec env) (emitScrubRegs w.args true) (siteMoved w env s moves)))
        (.x n) = (siteOrigins w (.x n)).value (siteSp w env s) s 8 := by
    intro n hn hcarried
    have hne : n ≠ 18 := by
      rintro rfl
      revert hcarried
      decide
    rw [ArgReg.value, exec_regs (by simpa [Instr.sets] using hne), hregs n hn]
    exact hwalk.holds (.x n) hcarried
  refine ⟨hrestores.sp.trans hwalk.sp, hx 9 List.mem_cons_self List.mem_cons_self,
    fun loc hloc hstack r hr => ?_, hmem⟩
  have hcarried := (siteLocs_isParam hloc hr).carried
  cases r with
  | x n =>
    refine hx n (List.mem_append_right _ (List.mem_filterMap.mpr ⟨loc, ?_, by rw [hstack, hr]⟩))
      hcarried
    rw [show w.args = (initialParams w.sig.ret).args ++ siteLocs w from siteGroups_locs w.sig]
    exact List.mem_append_right _ hloc
  | q i =>
    have hvregs := hwalk.holds (.q i) trivial
    rw [ArgReg.value, exec_vregs rfl, hrestores.vregs]
    exact hvregs

theorem siteCode_isCall (hsite : IsSite w) (hmoves : siteMoves w = some moves) :
    ∀ i ∈ siteCode w moves, i.isCall = false := by
  have hprologue : ∀ i ∈ emitPrologue, i.isCall = false := by decide
  have hcopies : ∀ i ∈ emitCopies w.sizes w.args (wrapperArgSize w), i.isCall = false :=
    fun i hi => (emitCopies_plain w _ i hi).2
  have hmov : (Instr.mov (.x 9) (.x 0)).isCall = false := rfl
  have hpkru : ∀ i ∈ emitSetPkru w.targetPkey, i.isCall = false := List.forall_mem_singleton.mpr rfl
  simp only [siteCode, Wrapper.emitEntry, hsite.target, Wrapper.emitToTarget, siteArgs,
    List.append_nil, List.forall_mem_append,
    List.forall_mem_cons]
  exact ⟨⟨hprologue, switchStacks_isCall _ _⟩,
    ⟨⟨hcopies, hmov, moveArgs_isCall hmoves⟩, scrubRegs_isCall _ _⟩, hpkru⟩

theorem delivers_iff (hsite : IsSite w) :
    Delivers w env s ↔ ∀ s', Passes w env s s' → ∃ moves, siteMoves w = some moves ∧
    Delivered w env s' (siteCall w env s' moves) := by
  refine forall₂_congr fun s' _ => ?_
  rw [emitAsmWrapper_site hsite]
  have hfirst : ∀ {moves}, siteMoves w = some moves → ∀ rest,
    firstAt (exec env) (fun i => decide (i = .blr (.x 9)))
      (siteCode w moves ++ .blr (.x 9) :: rest) s' = some (siteCall w env s' moves) :=
        fun {moves} hmoves rest => by
    refine firstAt_append (fun i hi => ?_) (by simp) s'
    rw [decide_eq_false_iff_not]
    rintro rfl
    cases siteCode_isCall hsite hmoves _ hi
  constructor
  · rintro ⟨prog, c, hprog, hc, hdelivered⟩
    obtain ⟨moves, hmoves, rfl⟩ := Option.map_eq_some_iff.mp hprog
    rw [hfirst hmoves] at hc
    cases hc
    exact ⟨moves, hmoves, hdelivered⟩
  · rintro ⟨moves, hmoves, hdelivered⟩
    exact ⟨_, _, Option.map_eq_some_iff.mpr ⟨moves, hmoves, rfl⟩, hfirst hmoves _, hdelivered⟩

end Call

end Ia2.Arm
