import Ia2.Gate.Crossing
import Ia2.Rewriter.Shift
import Mathlib.Tactic.IntervalCases

/-!
# The argument moves of an indirect call site

The moves run one after the other over the registers they read from. Since every argument moves from
a later register to an earlier one, no move reads a register that an earlier move has written, and
each one finds in its source what was there before all of them.
-/

namespace Ia2.Gate

open X86 Rewriter StraightLine Set ArgLocation

variable {env : Env} {pad : Nat}

/-! ### One move -/

theorem isCall_moveReg (r r' : ArgReg) : (moveReg r r').isCall = false := by
  cases r <;> cases r' <;> rfl

structure SetsOnly (regs : List ArgReg) (c c' : State) : Prop where
  mem : c'.mem = c.mem
  pkru : c'.pkru = c.pkru
  value : ∀ r, r ∉ regs → r.value c' = r.value c

theorem SetsOnly.refl (regs : List ArgReg) (c : State) : SetsOnly regs c c :=
  ⟨rfl, rfl, fun _ _ => rfl⟩

variable {c c' : State} {r : ArgReg} {src dst arg : ArgLocation} {moves rest : List Instr}
  {dsts srcs : List ArgLocation} {st : ParamState}

variable {regs regs' : List ArgReg} {args : List ArgLocation}

theorem SetsOnly.trans {c'' : State} (h : SetsOnly regs c c') (h' : SetsOnly regs' c' c'') :
    SetsOnly (regs ++ regs') c c'' := by
  refine ⟨h'.mem.trans h.mem, h'.pkru.trans h.pkru, fun r hr => ?_⟩
  simp only [List.mem_append, not_or] at hr
  exact (h'.value r hr.2).trans (h.value r hr.1)

theorem SetsOnly.mono (h : SetsOnly regs c c') (hsub : regs ⊆ regs') :
    SetsOnly regs' c c' :=
  ⟨h.mem, h.pkru, fun r hr => h.value r fun hmem => hr (hsub hmem)⟩

theorem SetsOnly.reg (h : SetsOnly regs c c') {r : Reg} (hr : .gpr r ∉ regs) :
    c'.regs r = c.regs r :=
  BitVec.eq_of_toNat_eq (h.value (.gpr r) hr)

theorem setsOnly_set (c : State) (r : Reg) (v : BitVec 64) : SetsOnly [.gpr r] c (c.set r v) := by
  refine ⟨rfl, rfl, fun r' hr' => ?_⟩
  cases r' with
  | gpr r' => simp_all [ArgReg.value]
  | xmm i => rfl

theorem setsOnly_setXmm (c : State) (i : Xmm) (v : BitVec 128) :
    SetsOnly [.xmm i] c (c.setXmm i v) := by
  refine ⟨rfl, rfl, fun r' hr' => ?_⟩
  cases r' with
  | gpr r' => rfl
  | xmm j => simp_all [ArgReg.value]

theorem exec_moveReg (src dst : ArgReg) (c : State) :
    SetsOnly [dst] c (exec env (moveReg src dst) c) ∧ dst.value (exec env (moveReg src dst) c) =
      src.value c % 2 ^ 64 := by
  cases src with
  | gpr src =>
    have hlt := (c.regs src).isLt
    cases dst with
    | gpr dst => exact ⟨setsOnly_set _ _ _, by simp [moveReg, exec, ArgReg.value]; omega⟩
    | xmm dst => exact ⟨setsOnly_setXmm _ _ _, by simp [moveReg, exec, ArgReg.value]; omega⟩
  | xmm src =>
    cases dst with
    | gpr dst => exact ⟨setsOnly_set _ _ _, by simp [moveReg, exec, ArgReg.value]⟩
    | xmm dst => exact ⟨setsOnly_setXmm _ _ _, by simp [moveReg, exec, ArgReg.value]; omega⟩

theorem exec_loadReg (offset : Nat) (base : Reg) (dst : ArgReg) (c : State) :
    SetsOnly [dst] c (exec env (loadReg offset base dst) c) ∧
      dst.value (exec env (loadReg offset base dst) c) = (c.load64 (c.addr offset base)).toNat := by
  cases dst with
  | gpr dst =>
    exact ⟨setsOnly_set _ _ _, by
      simp [loadReg, exec, ArgReg.value, Width.merge, Width.bytes, State.load64]⟩
  | xmm dst =>
    have hlt := (c.load64 (c.addr offset base)).isLt
    exact ⟨setsOnly_setXmm _ _ _, by simp [loadReg, exec, ArgReg.value]; omega⟩

def fetched (pad : Nat) (src : ArgLocation) (c : State) : Nat :=
  if src.isStack then (c.load64 (c.addr (fetchOffset pad src) .rax)).toNat
  else match src.reg with
    | some r => r.value c % 2 ^ 64
    | none => 0

theorem fetched_reg (h : src.isStack = false) (hr : src.reg = some r) (c : State) :
    fetched pad src c = r.value c % 2 ^ 64 := by
  rw [fetched, if_neg (by simp [h]), hr]

theorem fetched_congr (h : SetsOnly regs c c') (hrax : .gpr .rax ∉ regs)
    (hsrc : ∀ r ∈ regs, src.isStack = false → src.reg ≠ some r) :
    fetched pad src c' = fetched pad src c := by
  unfold fetched
  by_cases hstack : src.isStack = true
  · rw [if_pos hstack, if_pos hstack, State.load64, State.load64, State.addr, State.addr,
      h.mem, h.reg hrax]
  · rw [if_neg hstack, if_neg hstack]
    cases hreg : src.reg with
    | none => rfl
    | some r =>
      exact congrArg (· % 2 ^ 64) (h.value r fun hr => hsrc r hr (by simpa using hstack) hreg)

theorem mem_moveArg {i : Instr} : i ∈ moveArg pad src dst ↔
    dst.isStack = false ∧ ∃ r, dst.reg = some r ∧
      (src.isStack = true ∧ i = loadReg (fetchOffset pad src) .rax r ∨
      src.isStack = false ∧ ∃ r', src.reg = some r' ∧ i = moveReg r' r) := by
  cases hdst : dst.isStack <;> cases hreg : dst.reg <;> cases hsrc : src.isStack <;>
    cases hreg' : src.reg <;>
    simp [moveArg, fetchOffset, hdst, hreg, hsrc, hreg']

theorem run_moveArg_sets (src dst : ArgLocation) (c : State) :
    SetsOnly (savedRegs [dst] false) c (run (exec env) (moveArg pad src dst) c) := by
  unfold moveArg
  split
  · exact .refl _ c
  · rename_i hstack
    split
    · exact .refl _ c
    · rename_i r hr
      have hregs : [r] ⊆ savedRegs [dst] false := by
        simp [mem_savedRegs, hstack, hr]
      split
      · exact (exec_loadReg _ _ _ _).1.mono hregs
      · split
        · exact .refl _ c
        · exact (exec_moveReg _ _ _).1.mono hregs

structure Fetches (env : Env) (pad : Nat) (moves : List Instr) (r : ArgReg)
    (src : ArgLocation) : Prop where
  load : src.isStack = true → loadReg (fetchOffset pad src) .rax r ∈ moves
  value : ∀ c, r.value (run (exec env) moves c) = fetched pad src c

theorem fetches_moveArg (hsrc : src.isStack = false → src.reg ≠ none) (hdst : dst.isStack = false)
    (hr : dst.reg = some r) : Fetches env pad (moveArg pad src dst) r src := by
  rw [moveArg, if_neg (by simp [hdst]), hr]
  dsimp only
  by_cases hstack : src.isStack = true
  · rw [if_pos hstack]
    refine ⟨fun _ => List.mem_singleton_self _, fun c => ?_⟩
    rw [fetched, if_pos hstack]
    exact (exec_loadReg _ _ _ _).2
  · rw [if_neg hstack]
    cases hreg : src.reg with
    | none => exact absurd hreg (hsrc (by simpa using hstack))
    | some r' =>
      refine ⟨fun h => absurd h hstack, fun c => ?_⟩
      rw [fetched, if_neg hstack, hreg]
      exact (exec_moveReg _ _ _).2

theorem Fetches.append_right (h : Fetches env pad moves r src)
    (hrest : ∀ c, r.value (run (exec env) rest c) = r.value c) :
    Fetches env pad (moves ++ rest) r src := by
  refine ⟨fun hstack => List.mem_append_left _ (h.load hstack), fun c => ?_⟩
  rw [run_append, hrest, h.value]

theorem Fetches.append_left (h : Fetches env pad rest r src)
    (hmoves : ∀ c, fetched pad src (run (exec env) moves c) = fetched pad src c) :
    Fetches env pad (moves ++ rest) r src := by
  refine ⟨fun hstack => List.mem_append_right _ (h.load hstack), fun c => ?_⟩
  rw [run_append, h.value, hmoves]

/-! ### The walk -/

def moveGroup (pad : Nat) (srcs dsts : List ArgLocation) : List Instr :=
  (srcs.zip dsts).flatMap fun p => moveArg pad p.1 p.2

theorem moveArgs_append {srcs dsts : List ArgLocation} (hlen : dsts.length = srcs.length)
    (srcs' dsts' : List ArgLocation) :
    moveArgs pad (srcs ++ srcs') (dsts ++ dsts') =
      (moveArgs pad srcs' dsts').map (moveGroup pad srcs dsts ++ ·) := by
  induction srcs generalizing dsts with
  | nil =>
    obtain rfl := List.length_eq_zero_iff.mp hlen
    simp [moveGroup]
  | cons src srcs ih =>
    cases dsts with
    | nil => cases hlen
    | cons dst dsts =>
      rw [List.cons_append, List.cons_append, moveArgs, ih (Nat.succ.inj hlen)]
      cases moveArgs pad srcs' dsts' <;> simp [moveGroup]

theorem savedRegs_cons (loc : ArgLocation) (locs : List ArgLocation) :
    savedRegs (loc :: locs) false = savedRegs [loc] false ++ savedRegs locs false := by
  simp only [savedRegs, savedLocs, List.filter_cons, List.filter_nil]
  split <;> simp [List.filterMap_cons]
  split <;> rfl

theorem run_moveArgs_sets (h : moveArgs pad srcs dsts = some moves) (c : State) :
    SetsOnly (savedRegs dsts false) c (run (exec env) moves c) := by
  induction dsts generalizing srcs moves c with
  | nil =>
    cases srcs <;> cases h <;> exact .refl _ c
  | cons dst dsts ih =>
    rw [savedRegs_cons]
    cases srcs with
    | nil =>
      rw [moveArgs] at h
      split at h
      · exact (ih h c).mono (List.subset_append_right _ _)
      · cases h
    | cons src srcs =>
      rw [moveArgs] at h
      obtain ⟨rest, hrest, hmoves⟩ := Option.bind_eq_some_iff.mp h
      cases hmoves
      rw [run_append]
      exact (run_moveArg_sets src dst c).trans (ih hrest _)

theorem run_moveGroup_sets (hlen : dsts.length = srcs.length) (c : State) :
    SetsOnly (savedRegs dsts false) c (run (exec env) (moveGroup pad srcs dsts) c) := by
  have hmoves : moveArgs pad srcs dsts = some (moveGroup pad srcs dsts) := by
    simpa [moveArgs] using @moveArgs_append pad srcs dsts hlen [] []
  exact run_moveArgs_sets hmoves c

theorem moveGroup_singleton (src dst : ArgLocation) :
    moveGroup pad [src] [dst] = moveArg pad src dst := by
  simp [moveGroup]

theorem fetches_pair {i : Nat} (hi : i < 4) :
    ∀ p ∈ [half i, half (i + 1)].zip [half (i + 1), half (i + 2)], ∀ r, p.1.reg = some r →
      Fetches env pad (moveGroup pad [half (i + 1), half (i + 2)] [half i, half (i + 1)]) r
        p.2 := by
  have hgroup : moveGroup pad [half (i + 1), half (i + 2)] [half i, half (i + 1)] =
      moveArg pad (half (i + 1)) (half i) ++ moveArg pad (half (i + 2)) (half (i + 1)) := by
    simp [moveGroup]
  have hfirst : ∀ r ∈ (half i).reg, r ∉ savedRegs [half (i + 1)] false := by
    interval_cases i <;> decide
  have hsecond : ∀ r ∈ savedRegs [half i] false, (half (i + 2)).isStack = false →
      (half (i + 2)).reg ≠ some r := by
    interval_cases i <;> decide
  have hrax : .gpr .rax ∉ savedRegs [half i] false := by
    interval_cases i <;> decide
  have hsource : ∀ j < 6, (half j).isStack = false → (half j).reg ≠ none := by decide
  intro p hp r hr
  rw [hgroup]
  simp only [List.zip_cons_cons, List.zip_nil_right, List.mem_cons, List.not_mem_nil, or_false]
    at hp
  rcases hp with rfl | rfl
  · refine (fetches_moveArg (hsource _ (by omega)) rfl hr).append_right fun c => ?_
    exact (run_moveArg_sets _ _ c).value r (hfirst r hr)
  · refine (fetches_moveArg (hsource _ (by omega)) rfl hr).append_left fun c => ?_
    exact fetched_congr (run_moveArg_sets _ _ c) hrax hsecond

theorem shift_fetches {locs : List ArgLocation} (h : Shift locs srcs) :
    ∀ p ∈ locs.zip srcs, ∀ r, p.1.isStack = false → p.1.reg = some r →
      Fetches env pad (moveGroup pad srcs locs) r p.2 := by
  cases h with
  | @gpr n i hn hi =>
    intro p hp r hstack hr
    obtain rfl := List.mem_singleton.mp hp
    obtain ⟨r', hr'⟩ := intParamReg_lt (Nat.succ_lt_succ hi)
    rw [moveGroup_singleton]
    exact fetches_moveArg (fun _ h => by simp [allocateReg, hr'] at h) hstack hr
  | pair hi => exact fun p hp r _ hr => fetches_pair hi p hp r hr
  | @xmm n i hi =>
    intro p hp r hstack hr
    obtain rfl := List.mem_singleton.mp hp
    obtain ⟨r', hr'⟩ := floatReg_lt hi
    rw [moveGroup_singleton]
    exact fetches_moveArg (fun _ h => by simp [allocateReg, hr'] at h) hstack hr
  | spill hn =>
    intro p hp r hstack hr
    obtain rfl := List.mem_singleton.mp hp
    rw [moveGroup_singleton]
    exact fetches_moveArg (fun h => by cases h) hstack hr
  | stacked arg offset offset' =>
    intro p hp r hstack
    obtain rfl := List.mem_singleton.mp hp
    cases hstack

theorem moveArgs_instr (h : moveArgs pad srcs dsts = some moves) :
    ∀ i ∈ moves, ∃ r ∈ savedRegs dsts false, (∃ r', i = moveReg r' r) ∨ ∃ offset,
      i = loadReg offset .rax r := by
  induction dsts generalizing srcs moves with
  | nil => cases srcs <;> cases h <;> simp
  | cons dst dsts ih =>
    rw [savedRegs_cons]
    cases srcs with
    | nil =>
      rw [moveArgs] at h
      split at h
      · intro i hi
        obtain ⟨r, hr, hinstr⟩ := ih h i hi
        exact ⟨r, List.mem_append_right _ hr, hinstr⟩
      · cases h
    | cons src srcs =>
      rw [moveArgs] at h
      obtain ⟨rest, hrest, hmoves⟩ := Option.bind_eq_some_iff.mp h
      cases hmoves
      intro i hi
      rcases List.mem_append.mp hi with hi | hi
      · obtain ⟨hdst, r, hr, hi⟩ := mem_moveArg.mp hi
        refine ⟨r, List.mem_append_left _
          (mem_savedRegs.mpr (.inl ⟨dst, List.mem_singleton_self _, hdst, hr⟩)), ?_⟩
        rcases hi with ⟨-, rfl⟩ | ⟨-, r', -, rfl⟩
        · exact .inr ⟨_, rfl⟩
        · exact .inl ⟨r', rfl⟩
      · obtain ⟨r, hr, hinstr⟩ := ih hrest i hi
        exact ⟨r, List.mem_append_right _ hr, hinstr⟩

/-! ### The walk over two aligned lists -/

theorem savedRegs_groups (hargs : ∀ arg ∈ args, Slot arg)
    (hr : r ∈ savedRegs (paramGroups st args).flatten false) : r ∈ freeRegs st := by
  rcases mem_savedRegs.mp hr with ⟨loc, hloc, hstack, hreg⟩ | ⟨hfalse, -⟩
  · obtain ⟨r', hfree, hreg'⟩ := paramGroups_reg hargs hloc hstack
    rw [hreg'] at hreg
    cases hreg
    exact hfree
  · cases hfalse

theorem savedRegs_newLocs (harg : Slot arg) (hr : r ∈ savedRegs (newLocs st arg) false) :
    r ∈ freeRegs st ∧ r ∈ usedRegs (allocateParam st arg) := by
  rcases mem_savedRegs.mp hr with ⟨loc, hloc, hstack, hreg⟩ | ⟨hfalse, -⟩
  · obtain ⟨r', hreg', hfree, hused⟩ := (allocateParam_round st harg).reg rfl rfl hloc hstack
    rw [hreg'] at hreg
    cases hreg
    exact ⟨hfree, hused⟩
  · cases hfalse

theorem freeRegs_subset_paramRegs (st : ParamState) : freeRegs st ⊆ paramRegs := by
  refine List.append_subset.mpr ⟨List.subset_append_of_subset_left _ ?_,
    List.subset_append_of_subset_right _ ?_⟩
  · exact List.map_subset _ (List.drop_subset _ _)
  · exact List.map_subset _ (List.drop_subset _ _)

theorem rax_notMem_freeRegs (st : ParamState) : .gpr .rax ∉ freeRegs st := fun h =>
  absurd (freeRegs_subset_paramRegs st h) (by decide)

theorem fetched_later {st' : ParamState} {loc : ArgLocation} (harg : Slot arg)
    (hargs : ∀ arg ∈ args, Slot arg)
    (hnext : Aligned (allocateParam st arg) (allocateParam st' arg))
    (hlen : (newLocs st arg).length = (newLocs st' arg).length)
    (hloc : loc ∈ (paramGroups (allocateParam st' arg) args).flatten) (c : State) :
    fetched pad loc (run (exec env) (moveGroup pad (newLocs st' arg) (newLocs st arg)) c) =
      fetched pad loc c := by
  refine fetched_congr (run_moveGroup_sets hlen c) ?_ fun r hr hstack hreg => ?_
  · exact fun h => rax_notMem_freeRegs st (savedRegs_newLocs harg h).1
  · obtain ⟨r', hfree, hreg'⟩ := paramGroups_reg hargs hloc hstack
    rw [hreg'] at hreg
    cases hreg
    exact hnext.ahead.notMem_freeRegs (savedRegs_newLocs harg hr).2 hfree

theorem Fetches.before (h : Fetches env pad moves r src) (harg : Slot arg)
    (hargs : ∀ arg ∈ args, Slot arg) (hr : r ∈ savedRegs (newLocs st arg) false)
    (hrest : moveArgs pad srcs (paramGroups (allocateParam st arg) args).flatten = some rest) :
    Fetches env pad (moves ++ rest) r src := by
  have hahead : Ahead (allocateParam st arg) (allocateParam st arg) := ⟨le_rfl, le_rfl⟩
  refine h.append_right fun c => (run_moveArgs_sets hrest c).value r fun hlater => ?_
  exact hahead.notMem_freeRegs (savedRegs_newLocs harg hr).2 (savedRegs_groups hargs hlater)

def moveGroups (pad : Nat) (groups : List (List ArgLocation × List ArgLocation)) : List Instr :=
  groups.flatMap fun g => moveGroup pad g.2 g.1

theorem aligned_moves {st st' : ParamState} {args : List ArgLocation} (h : Aligned st st')
    (hargs : ∀ arg ∈ args, Slot arg)
    (hlen : ∀ g ∈ pairedGroups st st' args, g.1.length = g.2.length) :
    moveArgs pad (paramGroups st' args).flatten (paramGroups st args).flatten =
        some (moveGroups pad (pairedGroups st st' args)) ∧
      ∀ g ∈ pairedGroups st st' args, ∀ p ∈ g.1.zip g.2, ∀ r, p.1.isStack = false →
        p.1.reg = some r →
        Fetches env pad (moveGroups pad (pairedGroups st st' args)) r p.2 := by
  induction args generalizing st st' with
  | nil => exact ⟨rfl, by simp [pairedGroups, paramGroups]⟩
  | cons arg args ih =>
    rw [List.forall_mem_cons] at hargs
    simp only [pairedGroups, paramGroups, List.zip_cons_cons, List.forall_mem_cons] at hlen ⊢
    rcases h.round hargs.1 with ⟨hshift, hnext⟩ | ⟨hlocs, offset, hlocs'⟩
    · obtain ⟨hrest, hfetch⟩ := ih hnext hargs.2 hlen.2
      simp only [pairedGroups] at hrest hfetch
      rw [moveGroups, List.flatMap_cons]
      refine ⟨?_, fun p hp r hstack hr => ?_, fun g hg p hp r hstack hr => ?_⟩
      · rw [List.flatten_cons, List.flatten_cons, moveArgs_append hlen.1, hrest]
        rfl
      · refine (shift_fetches hshift p hp r hstack hr).before hargs.1 hargs.2 ?_ hrest
        exact mem_savedRegs.mpr (.inl ⟨p.1, (List.of_mem_zip hp).1, hstack, hr⟩)
      · refine (hfetch g hg p hp r hstack hr).append_left fun c => ?_
        refine fetched_later hargs.1 hargs.2 hnext hlen.1
          (List.mem_flatten.mpr ⟨g.2, ?_, (List.of_mem_zip hp).2⟩) c
        exact (List.of_mem_zip hg).2
    · rw [hlocs, hlocs'] at hlen
      cases hlen.1

theorem split_moves {st st' : ParamState} {args : List ArgLocation} (h : Aligned st st')
    (hargs : ∀ arg ∈ args, Slot arg)
    (hlen : ¬ ∀ g ∈ pairedGroups st st' args, g.1.length = g.2.length) :
    ∃ offset, ([half 4, half 5], [(register .integral 16).allocateStack offset]) ∈
      pairedGroups st st' args ∧
      ∀ moves, moveArgs pad (paramGroups st' args).flatten (paramGroups st args).flatten =
        some moves →
        Fetches env pad moves (.gpr .r8) ((register .integral 16).allocateStack offset) := by
  induction args generalizing st st' with
  | nil => exact absurd (by simp [pairedGroups, paramGroups]) hlen
  | cons arg args ih =>
    rw [List.forall_mem_cons] at hargs
    simp only [pairedGroups, paramGroups, List.zip_cons_cons, List.forall_mem_cons] at hlen
    simp only [pairedGroups, paramGroups, List.zip_cons_cons, List.mem_cons]
    rcases h.round hargs.1 with ⟨hshift, hnext⟩ | ⟨hlocs, offset, hlocs'⟩
    · obtain ⟨offset, hmem, hfetch⟩ := ih hnext hargs.2 fun hrest => hlen ⟨hshift.length_eq, hrest⟩
      refine ⟨offset, .inr hmem, fun moves hmoves => ?_⟩
      rw [List.flatten_cons, List.flatten_cons, moveArgs_append hshift.length_eq] at hmoves
      obtain ⟨rest, hrest, rfl⟩ := Option.map_eq_some_iff.mp hmoves
      refine (hfetch rest hrest).append_left fun c => ?_
      refine fetched_later hargs.1 hargs.2 hnext hshift.length_eq
        (List.mem_flatten.mpr ⟨_, (List.of_mem_zip hmem).2, ?_⟩) c
      exact List.mem_singleton_self _
    · refine ⟨offset, .inl (by rw [hlocs, hlocs']), fun moves hmoves => ?_⟩
      have hother : .gpr .r8 ∉
          savedRegs ([half 5] ++ (paramGroups (allocateParam st arg) args).flatten) false := by
        intro h8
        have hused : .gpr .r8 ∈ usedRegs (allocateParam st arg) :=
          (savedRegs_newLocs hargs.1 (by rw [hlocs]; decide)).2
        rw [List.singleton_append, savedRegs_cons, List.mem_append] at h8
        rcases h8 with h8 | h8
        · exact absurd h8 (by decide)
        · exact (show Ahead _ _ from ⟨le_rfl, le_rfl⟩).notMem_freeRegs hused
            (savedRegs_groups hargs.2 h8)
      rw [hlocs, hlocs', List.flatten_cons, List.flatten_cons] at hmoves
      obtain ⟨rest, hrest, hsome⟩ := Option.bind_eq_some_iff.mp hmoves
      cases hsome
      refine (fetches_moveArg (fun h => by cases h) rfl rfl).append_right fun c => ?_
      exact (run_moveArgs_sets hrest c).value _ hother

end Ia2.Gate
