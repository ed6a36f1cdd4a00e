import Ia2.Gate.Site
import Mathlib.Data.List.Zip
import Mathlib.Order.Interval.Set.Disjoint

/-!
# Indirect calls

For which signatures the arguments of an indirect call arrive is a matter of the two lists of
locations. `Shifts` says it of a signature; here it is shown to be enough, and to be needed: where
it fails, some bytes that the caller passes differ from those that the function gets.
-/

namespace Ia2.Gate

open X86 Rewriter StraightLine Set ArgLocation

variable {w : Wrapper} {env : Env} {s s' : State}

/-! ### Signatures whose arguments arrive -/

section Arrive

variable {moves : List Instr}

theorem wrapperArgSize_eq (w : Wrapper) :
    wrapperArgSize w = (w.sig.abi.args.foldl allocateParam (pointerParams w.sig.abi)).stackOffset :=
  rfl

theorem site_aligned (hlen : ∀ g ∈ shiftedGroups w.sig.abi, g.1.length = g.2.length) :
    siteMoves w = some (moveGroups w.sizes.argPadding (shiftedGroups w.sig.abi)) ∧
      (∀ g ∈ shiftedGroups w.sig.abi, Shift g.1 g.2) ∧ w.sizes.argSize ≤ wrapperArgSize w ∧
      ∀ g ∈ shiftedGroups w.sig.abi, ∀ p ∈ g.1.zip g.2, ∀ r, p.1.isStack = false →
        p.1.reg = some r →
        Fetches env w.sizes.argPadding (moveGroups w.sizes.argPadding (shiftedGroups w.sig.abi)) r
          p.2 := by
  have haligned := initialParams_aligned w.sig.abi
  obtain ⟨hshift, hend⟩ := haligned.shifts w.sig.abi.args_slots hlen
  obtain ⟨hmoves, hfetch⟩ := @aligned_moves env w.sizes.argPadding _ _ _ haligned
    w.sig.abi.args_slots hlen
  exact ⟨hmoves, hshift, hend.stackOffset, hfetch⟩

theorem argValue_congr {c : State} {base base' : Nat} {locs srcs : List ArgLocation}
    (hlen : locs.length = srcs.length)
    (h : ∀ p ∈ locs.zip srcs, p.1.width = p.2.width ∧ locValue c base p.1 = locValue s base' p.2) :
    argValue c base locs = argValue s base' srcs := by
  induction locs generalizing srcs with
  | nil =>
    obtain rfl := List.length_eq_zero_iff.mp hlen.symm
    rfl
  | cons loc locs ih =>
    cases srcs with
    | nil => cases hlen
    | cons src srcs =>
      rw [List.zip_cons_cons, List.forall_mem_cons] at h
      rw [argValue, argValue, h.1.1, h.1.2, ih (Nat.succ.inj hlen) h.2]

variable {g : List ArgLocation × List ArgLocation}

theorem src_stackOffset (hg : g ∈ shiftedGroups w.sig.abi) {src : ArgLocation} (hsrc : src ∈ g.2)
    (hstack : src.isStack = true) :
    src.stackOffset + min src.width 8 ≤ wrapperArgSize w ∧ src.stackOffset + src.width ≤
      wrapperArgSize w + 8 := by
  rw [wrapperArgSize_eq]
  exact paramGroups_stack w.sig.abi.args_slots
    (List.mem_flatten.mpr ⟨g.2, (List.of_mem_zip hg).2, hsrc⟩) hstack

theorem locValue_arrives (hsite : IsSite w) (hok : SiteOk w env s) (hshifts : Shifts w.sig.abi)
    {p : ArgLocation × ArgLocation} (hg : g ∈ shiftedGroups w.sig.abi) (hp : p ∈ g.1.zip g.2)
    (hmoves : siteMoves w = some moves) :
    p.1.width = p.2.width ∧
      locValue (siteCall w env s moves) (siteCall w env s moves).rsp.toNat p.1 =
        locValue s (s.rsp.toNat + 8) p.2 := by
  obtain ⟨hmoves', hshift, hsize, hfetch⟩ := @site_aligned w env fun g hg => (hshifts g hg).1
  obtain rfl := Option.some.inj (hmoves.symm.trans hmoves')
  obtain ⟨hwidth, hcase⟩ := (hshift g hg).loc p hp
  have hloc := (hshifts g hg).2 p hp
  have hroom := hok.callerRoom
  refine ⟨hwidth, ?_⟩
  cases hcase with
  | moved hstack hr hstack' hr' hkind =>
    rw [LocShifts, if_neg (by simp [hstack]), if_neg (by simp [hstack'])] at hloc
    have hle : p.1.width ≤ 8 := by
      rcases hkind with ⟨hfloat, hbytes⟩ | ⟨-, height⟩
      · rw [hbytes]
        exact hloc hfloat
      · exact height.le
    have hdvd : 256 ^ p.1.width ∣ 2 ^ 64 := pow_dvd_pow 256 hle
    rw [locValue_moved hsite hok hmoves hg hp (hfetch g hg p hp _ hstack hr) hstack hr hstack' hr',
      locValue_reg hstack' hr',
      ← hwidth, Nat.mod_mod_of_dvd _ hdvd]
  | loaded hstack hr hstack' height hsize' halign =>
    rw [LocShifts, if_neg (by simp [hstack]), if_pos hstack'] at hloc
    have hoffset := (src_stackOffset hg (List.of_mem_zip hp).2 hstack').1
    have haddr : s.rsp.toNat - savedBytes + fetchOffset w.sizes.argPadding p.2 =
        s.rsp.toNat + 8 + p.2.stackOffset := by
      have hfetched : fetchOffset w.sizes.argPadding p.2 = savedBytes + 8 + p.2.stackOffset :=
        hloc.2
      omega
    rw [locValue_reg hstack hr, value_loaded hsite hok hmoves
      (savedRegs_of_mem_groups hg (List.of_mem_zip hp).1 hstack hr) (hfetch g hg p hp _ hstack hr)
        hloc.1 hstack' (by omega)
      (by omega) (by omega), haddr, locValue_stack hstack', ← hwidth, height]
    exact Nat.mod_eq_of_lt (ByteMemory.read_lt _ _ 8)
  | stacked hstack hstack' =>
    rw [LocShifts, if_pos hstack] at hloc
    rw [locValue_stack hstack, locValue_stack hstack', ← hwidth]
    rcases hloc with hzero | ⟨-, hoffset, hend⟩
    · rw [hzero]
      rfl
    · refine ByteMemory.read_shift fun i hi => ?_
      have hoffset' : p.2.stackOffset + w.sizes.argSize = p.1.stackOffset + wrapperArgSize w :=
        hoffset
      have hend' : p.1.stackOffset + p.1.width ≤ w.sizes.argBytes := hend
      rw [Nat.add_assoc, stackByte hsite hok hmoves hsize (by omega)]
      congr 1
      omega

theorem fetchesFrom_arrives (hok : SiteOk w env s) (hshifts : Shifts w.sig.abi)
    (hmoves : siteMoves w = some moves) :
    Along (exec env) (FetchesFrom (s.rsp.toNat - savedBytes)) (siteCode w moves) s := by
  obtain ⟨hmoves', -, -, -⟩ := @site_aligned w env fun g hg => (hshifts g hg).1
  rw [site_fetchesFrom hok]
  by_cases hargs : 0 < w.sizes.argSize
  · refine along_fetchesFrom_rax (moves_keep_rax hmoves) ?_ ((siteCopied_rax hok).mpr hargs)
    refine List.forall_mem_cons.mpr ⟨fun base hbase => ?_, fun i hi base hbase => ?_⟩
    · rw [fetchBase_moveReg] at hbase
      cases hbase
    · obtain ⟨r, -, ⟨r', rfl⟩ | ⟨offset, rfl⟩⟩ := moveArgs_instr hmoves i hi
      · rw [fetchBase_moveReg] at hbase
        cases hbase
      · rw [fetchBase_loadReg] at hbase
        exact (Option.some.inj hbase).symm
  · -- without stack arguments of its own, no argument of the function is on the caller's stack
    refine along_fetchesFrom (List.forall_mem_cons.mpr ⟨fetchBase_moveReg _ _, fun i hi => ?_⟩) _ _
    obtain rfl := Option.some.inj (hmoves.symm.trans hmoves')
    obtain ⟨g, hg, hi⟩ := List.mem_flatMap.mp hi
    obtain ⟨p, hp, hi⟩ := List.mem_flatMap.mp hi
    have hp' : (p.2, p.1) ∈ g.1.zip g.2 := by
      rw [← List.zip_swap]
      exact List.mem_map_of_mem hp
    have hloc := (hshifts g hg).2 _ hp'
    obtain ⟨hdst, r, -, ⟨hstack, -⟩ | ⟨-, r', -, rfl⟩⟩ := mem_moveArg.mp hi
    · rw [LocShifts, if_neg (by simp [hdst]), if_pos hstack] at hloc
      exact absurd hloc.1 hargs
    · exact fetchBase_moveReg _ _

theorem delivers_of_shifts (hsite : IsSite w) (hok : SiteOk w env s) (hshifts : Shifts w.sig.abi) :
    Delivers w env s := by
  rw [delivers_iff_moves hsite]
  intro s' hpass
  have hok' := hpass.siteOk hok
  obtain ⟨hmoves, -, -, -⟩ := @site_aligned w env fun g hg => (hshifts g hg).1
  refine ⟨_, hmoves, ?_, ?_, fun g hg => ?_⟩
  · rw [← hpass.rsp]
    exact fetchesFrom_arrives hok' hshifts hmoves
  · rw [siteCall_pointer hsite hok' hmoves, newLocs_pointer, argValue_singleton,
      locValue_reg rfl rfl]
    refine (Nat.mod_eq_of_lt ?_).symm
    unfold pointerReg
    split <;> exact BitVec.isLt _
  · exact argValue_congr (hshifts g hg).1 fun p hp =>
      locValue_arrives hsite hok' hshifts hg hp hmoves

end Arrive

/-! ### Signatures whose arguments do not arrive -/

def poke (s : State) (a : Nat) (v : BitVec 8) : State := { s with mem := s.mem.write a 1 v.toNat }

theorem poke_mem_self (s : State) (a : Nat) (v : BitVec 8) : (poke s a v).mem a = v := by
  have hwrite := ByteMemory.write_one_apply s.mem a v.toNat
  rwa [BitVec.ofNat_toNat, BitVec.setWidth_eq] at hwrite

variable {a b : Nat}

theorem poke_mem_of_ne (s : State) (h : b ≠ a) (v : BitVec 8) :
    (poke s a v).mem b = s.mem b :=
  ByteMemory.write_of_notMem fun hb => h (by have := hb.1; have := hb.2; omega)

theorem passes_poke (ha : a ∈ Ico (s.rsp.toNat + 8) (siteTop w s)) (v : BitVec 8) :
    Passes w s (poke s a v) := by
  refine ⟨rfl, rfl, fun b hb => poke_mem_of_ne s ?_ v⟩
  rintro rfl
  exact hb ha

theorem eq_of_passes (ha : a ∈ Ico (s.rsp.toNat + 8) (siteTop w s))
    (h : ∀ s', Passes w s s' → s'.mem b = s'.mem a) : b = a := by
  by_contra hne
  have hsame := h _ (passes_poke ha (s.mem b + 1))
  rw [poke_mem_self, poke_mem_of_ne s hne] at hsame
  revert hsame
  generalize s.mem b = v
  revert v
  decide

section Lost

variable {moves : List Instr}
variable {r : ArgReg} {src loc : ArgLocation}

theorem argSize_pos (hok : SiteOk w env s) (hmoves : siteMoves w = some moves)
    (halong : Along (exec env) (FetchesFrom (s.rsp.toNat - savedBytes)) (siteCode w moves) s)
    {pad : Nat} (hfetch : Fetches env pad moves r src) (hstack : src.isStack = true) :
    0 < w.sizes.argSize := by
  rw [site_fetchesFrom hok] at halong
  have hload := List.mem_cons_of_mem (moveReg (pointerReg w.sig.abi) (.gpr .r12))
    (hfetch.load hstack)
  exact (siteCopied_rax hok).mp
    (rax_of_fetchesFrom (moves_keep_rax hmoves) halong hload (fetchBase_loadReg _ _ r))

section

variable (h : Delivers w env s) (hsite : IsSite w) (hok : SiteOk w env s)
  (hmoves : siteMoves w = some moves)

include h hsite hok hmoves

theorem Delivers.fetchOffset_eq {g : List ArgLocation × List ArgLocation}
    (hg : g ∈ shiftedGroups w.sig.abi) {locs : List ArgLocation} (hlocs : g.1 = loc :: locs)
    (hsrcs : g.2 = [src]) (hloc : loc.isStack = false) (hr : loc.reg = some r)
    (hwidth : loc.width = 8) (hstack : src.isStack = true) (hwidth' : 8 ≤ src.width)
    (hsize : src.size ≤ 16) (halign : src.align ≤ 16)
    (hfetch : Fetches env w.sizes.argPadding moves r src) :
    0 < w.sizes.argSize ∧ fetchOffset w.sizes.argPadding src =
      savedBytes + 8 + src.stackOffset := by
  rw [delivers_iff_moves hsite] at h
  have hargs : 0 < w.sizes.argSize := by
    obtain ⟨moves', hmoves', halong, -⟩ := h s ⟨rfl, rfl, eqOn_refl _ _⟩
    obtain rfl := Option.some.inj (hmoves.symm.trans hmoves')
    exact argSize_pos hok hmoves halong hfetch hstack
  have hsaved : r ∈ savedRegs w.args false :=
    savedRegs_of_mem_groups hg (by rw [hlocs]; exact List.mem_cons_self) hloc hr
  have hoffset := (src_stackOffset hg (by rw [hsrcs]; exact List.mem_singleton_self _) hstack).1
  have htop := siteTop_eq w s
  have hroom := hok.callerRoom
  have haddr : s.rsp.toNat - savedBytes + fetchOffset w.sizes.argPadding src =
      s.rsp.toNat + 8 + src.stackOffset := by
    refine eq_of_passes (w := w) (s := s) ⟨by omega, by omega⟩ fun s' hpass => ?_
    obtain ⟨moves', hmoves', -, hdelivered⟩ := h s' hpass
    obtain rfl := Option.some.inj (hmoves.symm.trans hmoves')
    have hvalue := hdelivered.args g hg
    rw [hlocs, hsrcs, argValue, argValue_singleton, locValue_reg hloc hr,
      locValue_stack hstack, hwidth,
      value_loaded hsite (hpass.siteOk hok) hmoves hsaved hfetch hargs hstack hsize halign
      (by omega), hpass.rsp] at hvalue
    have hbyte := s'.mem.read_mod (s.rsp.toNat + 8 + src.stackOffset) (show 0 < src.width by omega)
    have hbyte' := s'.mem.read_mod (s.rsp.toNat - savedBytes + fetchOffset w.sizes.argPadding src)
      (show 0 < 8 by omega)
    apply BitVec.eq_of_toNat_eq
    rw [← hbyte, ← hbyte', ← hvalue]
    omega
  exact ⟨hargs, by omega⟩

theorem Delivers.float_le (hg : ([loc], [src]) ∈ shiftedGroups w.sig.abi) {i : Xmm}
    (hloc : loc.isStack = false) (hr : loc.reg = some (.xmm i)) (hsrc : src.isStack = false)
    (hr' : src.reg = some (.xmm i)) (hwidth : loc.width = src.width)
    (hfetch : Fetches env w.sizes.argPadding moves (.xmm i) src) :
    loc.width ≤ 8 := by
  rw [delivers_iff_moves hsite] at h
  by_contra hlong
  have hpass : Passes w s (s.setXmm i (BitVec.ofNat 128 (2 ^ 64))) := ⟨rfl, rfl, eqOn_refl _ _⟩
  obtain ⟨moves', hmoves', -, hdelivered⟩ := h _ hpass
  obtain rfl := Option.some.inj (hmoves.symm.trans hmoves')
  have hvalue := hdelivered.args _ hg
  have hmoved := @locValue_moved w env _ moves _ (loc, src) (.xmm i) (.xmm i) hsite
    (hpass.siteOk hok) hmoves hg
    (List.mem_singleton_self _) hfetch hloc hr hsrc hr'
  have hxmm : (ArgReg.xmm i).value (s.setXmm i (BitVec.ofNat 128 (2 ^ 64))) = 2 ^ 64 := by
    simp [ArgReg.value]
  have hlt : 2 ^ 64 < 256 ^ src.width := by
    rw [← hwidth]
    exact (show 2 ^ 64 < 256 ^ 9 by decide).trans_le (Nat.pow_le_pow_right (by decide) (by omega))
  rw [argValue_singleton, argValue_singleton, hmoved, locValue_reg hsrc hr', hxmm, Nat.mod_self,
    Nat.zero_mod,
    Nat.mod_eq_of_lt hlt] at hvalue
  cases hvalue

omit h hsite hmoves in
theorem siteCopied_above (h : ¬ (0 < w.sizes.returnSize ∧ w.sizes.alignment = 0)) :
    (siteCopied w env s).mem ((stackptr env w.targetPkey s).toNat - w.sizes.space +
      w.sizes.argBytes) =
      s.mem ((stackptr env w.targetPkey s).toNat - w.sizes.space + w.sizes.argBytes) := by
  have hentered := site_entered hok
  have hspace := w.sizes.space_eq
  have hdepth := w.space_le_targetDepth
  have hroom := hok.targetRoom
  have hroom' := hok.callerRoom
  have hmem : (stackptr env w.targetPkey s).toNat - w.sizes.space + w.sizes.argBytes ∈
    siteTarget w env s := ⟨by omega, by omega⟩
  have hframe : (stackptr env w.targetPkey s).toNat - w.sizes.space + w.sizes.argBytes ∉
      Ico (s.rsp.toNat - savedBytes) s.rsp.toNat := by
    have htop := siteTop_eq w s
    exact fun hframe => disjoint_left.mp hok.areas hmem
      ⟨by have := hframe.1; omega, by have := hframe.2; omega⟩
  rw [← (site_prologue hok).2.2.2 hframe]
  by_cases halign : w.sizes.alignment = 0
  · -- no result in memory and no padding: the byte at the target's stack pointer
    have hret : w.sizes.returnBytes = 0 := if_neg fun hret => h ⟨hret, halign⟩
    refine hentered.mem ?_
    rintro (hcell | hstack)
    · exact disjoint_left.mp hok.cells_siteTarget (.inl hcell) hmem
    · have hlt : _ < (stackptr env w.targetPkey s).toNat := hstack.2
      omega
  · refine hentered.padding ⟨le_rfl, ?_⟩
    change _ < (stackptr env w.targetPkey s).toNat - w.sizes.returnBytes
    omega

omit h in
theorem byte_above_args (ha : a ∈ Ico (s.rsp.toNat + 8) (siteTop w s)) (v v' : BitVec 8) :
    (siteCall w env (poke s a v) moves).mem
      ((stackptr env w.targetPkey s).toNat - w.sizes.space + w.sizes.argBytes) =
      (siteCall w env (poke s a v') moves).mem
        ((stackptr env w.targetPkey s).toNat - w.sizes.space + w.sizes.argBytes) := by
  have hpass := passes_poke ha v
  have hpass' := passes_poke ha v'
  have hok₁ := hpass.siteOk hok
  have hok₂ := hpass'.siteOk hok
  have habove := (siteCall_facts hsite hok₁ hmoves).2.1
  have habove' := (siteCall_facts hsite hok₂ hmoves).2.1
  have hspace := w.sizes.space_eq
  have hdepth := w.space_le_targetDepth
  have hroom := hok.targetRoom
  rw [hpass.stackptr hok] at habove
  rw [hpass'.stackptr hok] at habove'
  rw [habove _ (Nat.le_add_right _ _), habove' _ (Nat.le_add_right _ _)]
  by_cases hslot : 0 < w.sizes.returnSize ∧ w.sizes.alignment = 0
  · have hload := (site_entered hok₁).slot hslot.1
    have hload' := (site_entered hok₂).slot hslot.1
    rw [(site_prologue hok₁).2.1.regs .rdi (by decide)] at hload
    rw [(site_prologue hok₂).2.1.regs .rdi (by decide)] at hload'
    have htsp : (siteCrossing w env (poke s a v)).tsp = stackptr env w.targetPkey s :=
      hpass.stackptr hok
    have htsp' : (siteCrossing w env (poke s a v')).tsp = stackptr env w.targetPkey s :=
      hpass'.stackptr hok
    rw [htsp] at hload
    rw [htsp'] at hload'
    refine State.eqOn_of_load64_eq (hload.trans hload'.symm) ?_
    change _ ∈ Ico ((stackptr env w.targetPkey s).toNat - w.sizes.returnBytes)
      ((stackptr env w.targetPkey s).toNat - w.sizes.returnBytes + 8)
    exact ⟨by omega, by omega⟩
  · have hne : (stackptr env w.targetPkey s).toNat - w.sizes.space + w.sizes.argBytes ≠ a := by
      rintro rfl
      exact disjoint_left.mp hok.areas ⟨by omega, by omega⟩ (args_subset_siteArea w s ha)
    have hmem := siteCopied_above hok₁ hslot
    have hmem' := siteCopied_above hok₂ hslot
    rw [hpass.stackptr hok, poke_mem_of_ne s hne] at hmem
    rw [hpass'.stackptr hok, poke_mem_of_ne s hne] at hmem'
    rw [hmem, hmem']

omit h hsite hok hmoves in
theorem Delivers.stacked (h : Delivers w env s) (hsite : IsSite w) (hok : SiteOk w env s)
    (hmoves : siteMoves w = some moves) (hsize : w.sizes.argSize ≤ wrapperArgSize w)
    (hg : ([loc], [src]) ∈ shiftedGroups w.sig.abi) (hloc : loc.isStack = true)
    (hsrc : src.isStack = true) (hwidth : loc.width = src.width) (hpos : 0 < loc.width) :
    src.stackOffset + w.sizes.argSize = loc.stackOffset + wrapperArgSize w ∧
      loc.stackOffset + loc.width ≤ w.sizes.argBytes := by
  rw [delivers_iff_moves hsite] at h
  have htop := siteTop_eq w s
  have hbytes : w.sizes.argBytes = w.sizes.argSize + w.sizes.argPadding := rfl
  have hoffset := src_stackOffset hg (List.mem_singleton_self _) hsrc
  have hoffset' : loc.stackOffset + min loc.width 8 ≤ w.sizes.argSize :=
    (paramGroups_stack w.sig.abi.args_slots
      (List.mem_flatten.mpr ⟨[loc], (List.of_mem_zip hg).1, List.mem_singleton_self _⟩) hloc).1
  -- a byte of the argument at the call is the byte that the caller passed
  have hbyte : ∀ s', Passes w s s' → ∀ i < loc.width,
      (siteCall w env s' moves).mem ((siteCall w env s' moves).rsp.toNat + loc.stackOffset + i) =
        s'.mem (s.rsp.toNat + 8 + src.stackOffset + i) := by
    intro s' hpass i hi
    obtain ⟨moves', hmoves', -, hdelivered⟩ := h s' hpass
    obtain rfl := Option.some.inj (hmoves.symm.trans hmoves')
    have hvalue := hdelivered.args _ hg
    rw [argValue_singleton, argValue_singleton, locValue_stack hloc, locValue_stack hsrc, hpass.rsp,
      ← hwidth] at hvalue
    apply BitVec.eq_of_toNat_eq
    rw [← ByteMemory.read_div_mod _ _ hi, ← ByteMemory.read_div_mod _ _ hi, hvalue]
  have hshift : s.rsp.toNat + 8 + (wrapperArgSize w - w.sizes.argSize) + loc.stackOffset =
      s.rsp.toNat + 8 + src.stackOffset := by
    refine eq_of_passes (w := w) (s := s) ⟨by omega, by omega⟩ fun s' hpass => ?_
    rw [← hpass.rsp, ← stackByte hsite (hpass.siteOk hok) hmoves hsize (by omega), hpass.rsp]
    exact hbyte s' hpass 0 hpos
  refine ⟨by omega, ?_⟩
  by_contra hlong
  -- the first byte that is not copied
  have hend : s.rsp.toNat + 8 + src.stackOffset + (w.sizes.argBytes - loc.stackOffset) ∈
      Ico (s.rsp.toNat + 8) (siteTop w s) := ⟨by omega, by omega⟩
  have hlast : ∀ v,
    (siteCall w env
    (poke s (s.rsp.toNat + 8 + src.stackOffset + (w.sizes.argBytes - loc.stackOffset)) v)
      moves).mem ((stackptr env w.targetPkey s).toNat - w.sizes.space + w.sizes.argBytes) = v := by
    intro v
    have hpass := passes_poke hend v
    have hsame := hbyte _ hpass (w.sizes.argBytes - loc.stackOffset) (by omega)
    have hsum : (stackptr env w.targetPkey s).toNat - w.sizes.space + loc.stackOffset +
      (w.sizes.argBytes - loc.stackOffset) =
        (stackptr env w.targetPkey s).toNat - w.sizes.space + w.sizes.argBytes := by omega
    rw [poke_mem_self, (siteCall_facts hsite (hpass.siteOk hok) hmoves).1, hpass.stackptr hok, hsum]
      at hsame
    exact hsame
  have habsurd := byte_above_args hsite hok hmoves hend 0 1
  rw [hlast, hlast] at habsurd
  cases habsurd

omit hmoves in
theorem Delivers.shifts :
    Shifts w.sig.abi := by
  by_cases hlen : ∀ g ∈ shiftedGroups w.sig.abi, g.1.length = g.2.length
  · obtain ⟨hmoves, hshift, hsize, hfetch⟩ := @site_aligned w env hlen
    rintro ⟨locs, srcs⟩ hg
    refine ⟨hlen _ hg, ?_⟩
    have hgroup := hshift _ hg
    have hgroup' := hfetch _ hg
    dsimp only at hgroup hgroup' ⊢
    cases hgroup with
    | gpr hn hi => exact List.forall_mem_singleton.mpr nofun
    | pair hi => exact List.forall_mem_cons.mpr ⟨nofun, List.forall_mem_singleton.mpr nofun⟩
    | @xmm n i hi =>
      obtain ⟨r, hr⟩ := floatReg_lt hi
      obtain ⟨j, -, rfl⟩ := Option.map_eq_some_iff.mp hr
      refine List.forall_mem_singleton.mpr fun _ => ?_
      exact h.float_le hsite hok hmoves hg rfl hr rfl hr rfl
        (hgroup' _ (List.mem_singleton_self _) _ rfl hr)
    | @spill n offset hn =>
      refine List.forall_mem_singleton.mpr ?_
      exact h.fetchOffset_eq hsite hok hmoves hg rfl rfl rfl rfl (width_integral hn) rfl
        (width_integral hn).ge
        (hn.trans (by decide)) (hn.trans (by decide))
          (hgroup' _ (List.mem_singleton_self _) _ rfl rfl)
    | stacked arg offset offset' =>
      refine List.forall_mem_singleton.mpr ?_
      rcases Nat.eq_zero_or_pos (arg.allocateStack offset).width with hzero | hpos
      · exact .inl hzero
      · exact .inr ⟨rfl, h.stacked hsite hok hmoves hsize hg rfl rfl rfl hpos⟩
  · -- a 16-byte integer that only the function has in registers is not loaded from where it is
    exfalso
    obtain ⟨offset, hg, hfetch⟩ := @split_moves env w.sizes.argPadding _ _ _
      (initialParams_aligned w.sig.abi) w.sig.abi.args_slots hlen
    obtain ⟨moves, hmoves, -⟩ := (delivers_iff_moves hsite).mp h s ⟨rfl, rfl, eqOn_refl _ _⟩
    have hoffset := (h.fetchOffset_eq hsite hok hmoves hg rfl rfl rfl rfl rfl rfl
      (show 8 ≤ 16 by decide) le_rfl le_rfl
      (hfetch moves hmoves)).2
    have hle := le_alignUp (savedBytes + w.sizes.argPadding + offset + 16) 16
    change alignUp (savedBytes + w.sizes.argPadding + offset + 16) 16 = savedBytes + 8 + offset
      at hoffset
    omega

end

end Lost

/-- For every signature, the arguments of an indirect call arrive, whatever they are, exactly when
every location is filled from where the caller has the argument. -/
theorem indirect_call_delivers_iff (hsite : IsSite w) (hok : SiteOk w env s) :
    Delivers w env s ↔ Shifts w.sig.abi :=
  ⟨fun h => h.shifts hsite hok, delivers_of_shifts hsite hok⟩

/-! ### Functions of integers -/

/-- A function of `n` integers. -/
def intsSig (n : Nat) : AbiSignature where
  args := List.replicate n (register .integral 8)
  ret := []
  args_slots := slots_replicate n
  ret_slots := .void

def intsSite (n : Nat) :
    Wrapper := ⟨⟨intsSig n, []⟩, some (prepended (intsSig n)), none, .indirectCallsite, 1, 2, true⟩

def siteEnv : Env where
  fsBase := 0x10000
  tpoff pkey := BitVec.ofNat 64 (8 * pkey)
  retAddr := 0x400000
  function _ c := c
  pointee _ c := c

def siteState : State :=
  State.store64 { regs := fun r => if r = .rsp then 0x400000008 else 7
                  xmm := fun _ => 0, pkru := pkruOf 1, mem := fun _ => 0, rip :=
                    0x400100 } 0x10010 0x30008

theorem intsSite_isSite (n : Nat) : IsSite (intsSite n) := ⟨rfl, rfl, rfl⟩

theorem siteState_stackptr : stackptr siteEnv 2 siteState = 0x30008 := State.load64_store64 _ _ _

theorem intsSite_ok {n : Nat} (hscrub : (intsSite n).scrubDepth ≤ 0x1000)
    (hdepth : (intsSite n).targetDepth ≤ 0x1000)
    (hargs : wrapperArgSize (intsSite n) + (intsSite n).sizes.argPadding ≤ 0x1000) :
    SiteOk (intsSite n) siteEnv siteState := by
  have hsp : siteState.rsp.toNat = 0x400000008 := rfl
  have htsp : stackptr siteEnv (intsSite n).targetPkey siteState = 0x30008 := siteState_stackptr
  have htsp' : (stackptr siteEnv (intsSite n).targetPkey siteState).toNat = 0x30008 := by
    rw [htsp]; rfl
  have hbytes : savedBytes = 48 := rfl
  have hcell : cell siteEnv (intsSite n).callerPkey = Ico 0x10008 0x10010 := rfl
  have hcell' : cell siteEnv (intsSite n).targetPkey = Ico 0x10010 0x10018 := rfl
  have htop : siteTop (intsSite n) siteState =
    siteState.rsp.toNat + 8 + (wrapperArgSize (intsSite n) + (intsSite n).sizes.argPadding + 24) :=
      rfl
  refine ⟨by omega, by omega, by omega, by omega, rfl, ?_, ?_, ?_, ?_⟩
  · rw [hcell, hcell', Ico_disjoint_Ico]
    decide
  · rw [hcell, hcell', siteTarget, htsp', disjoint_union_left, Ico_disjoint_Ico, Ico_disjoint_Ico]
    omega
  · rw [hcell, hcell', siteArea, disjoint_union_left, Ico_disjoint_Ico, Ico_disjoint_Ico]
    omega
  · rw [siteTarget, siteArea, htsp', Ico_disjoint_Ico]
    omega

theorem indirect_call_delivers_iff_seven :
    Delivers (intsSite 7) siteEnv siteState ∧ Shifts (intsSig 7) := by
  have hshifts : Shifts (intsSig 7) := by decide
  exact ⟨(indirect_call_delivers_iff (intsSite_isSite 7)
    (intsSite_ok (by decide) (by decide) (by decide))).mpr hshifts, hshifts⟩

/-- The sixth integer is on the caller's stack, but `rax` was never loaded. -/
theorem six_integers_not_delivered : ¬ Delivers (intsSite 6) siteEnv siteState := by
  intro h
  have hshifts : Shifts (intsSig 6) :=
    h.shifts (intsSite_isSite 6) (intsSite_ok (by decide) (by decide) (by decide))
  exact absurd hshifts (by decide)

end Ia2.Gate
