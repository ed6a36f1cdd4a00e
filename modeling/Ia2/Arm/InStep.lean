import Ia2.Arm.Delivery

/-!
# Call sites whose arguments arrive on AArch64

`Arrives` says of a signature, in terms of the locations of its arguments with and without the
pointer to the function before them, that the gate at an indirect call site delivers every argument.
For these signatures the walk of `emit_copy_args` over the two lists stays in step, each register is
read before it is overwritten, and what the moves give is what `Traced` asks for.
-/

namespace Ia2.Arm

open Rewriter (ArgLocation Slot)
open Rewriter.ArgLocation (register indirect)

variable {w : Wrapper}

/-- A stack argument is passed on the stack by the caller, as far from the end of the stack
arguments, is copied as a whole and is not overwritten by a pointer to a copy. -/
def StackArrives (w : Wrapper) (loc src : Location) : Prop :=
  src.isStack = true ∧ src.stackOffset = loc.stackOffset + (wrapperArgSize w - w.sizes.argSize) ∧
    loc.stackOffset + loc.width ≤ w.sizes.argSize ∧
    ∀ p ∈ w.copies, loc.stackOffset + loc.width ≤ p.1.stackOffset ∨
    p.1.stackOffset + 8 ≤ loc.stackOffset

instance (w : Wrapper) (loc src : Location) : Decidable (StackArrives w loc src) :=
  inferInstanceAs (Decidable (_ ∧ _))

/-- No argument is a float, which would be in a vector register; every argument has as many
locations with the pointer before it as without; indirect arguments are passed on the stack by the
caller and to the function, and their copies fit; and the other stack arguments arrive. -/
structure Arrives (w : Wrapper) : Prop where
  integral : ∀ arg ∈ w.sig.args, arg.kind ≠ .float
  whole : ∀ g ∈ siteGroups w.sig, g.2.1.length = g.2.2.length
  indirects : ∀ g ∈ siteGroups w.sig, g.1.isIndirect = true →
    (∀ loc ∈ g.2.1, loc.isStack = true) ∧ ∀ src ∈ g.2.2, src.isStack = true
  fits : ∀ p ∈ w.copies, p.2 + p.1.size ≤ w.sizes.total
  stacked : ∀ g ∈ siteGroups w.sig, g.1.isIndirect = false → ∀ p ∈ g.2.1.zip g.2.2,
    p.1.isStack = true → StackArrives w p.1 p.2

variable {locs srcs : List Location} {arg : ArgLocation}

theorem sources_of_length (hlen : locs.length = srcs.length) :
    sources locs srcs = srcs.map Location.place := by
  unfold sources
  split
  · simp at hlen
  · rfl

/-! ### Walks in step -/

section Walks

variable {st st' : ParamState} {args : List ArgLocation} {σ : Origins}
variable {dsts : List Location} {n : Fin 31} {i : Nat} {dst src : Location} {r : ArgReg}
  {p : Location × Location}

theorem origins_append (hlen : srcs.length = dsts.length) (srcs' dsts' : List Location)
    (σ : Origins) :
    origins σ (srcs ++ srcs') (dsts ++ dsts') = origins (origins σ srcs dsts) srcs' dsts' := by
  induction srcs generalizing dsts σ with
  | nil =>
    obtain rfl := List.length_eq_zero_iff.mp hlen.symm
    rfl
  | cons src srcs ih =>
    cases dsts with
    | nil => cases hlen
    | cons dst dsts => exact ih (Nat.succ.inj hlen) _

theorem isSome_moveArgs_append {srcs' dsts' : List Location} (hlen : srcs.length = dsts.length)
    (hmove : ∀ p ∈ srcs.zip dsts, (moveArg p.1 p.2).isSome)
    (hrest : (moveArgs srcs' dsts').isSome) :
    (moveArgs (srcs ++ srcs') (dsts ++ dsts')).isSome := by
  induction srcs generalizing dsts with
  | nil =>
    obtain rfl := List.length_eq_zero_iff.mp hlen.symm
    exact hrest
  | cons src srcs ih =>
    cases dsts with
    | nil => cases hlen
    | cons dst dsts =>
      rw [List.zip_cons_cons, List.forall_mem_cons] at hmove
      obtain ⟨is, his⟩ := Option.isSome_iff_exists.mp hmove.1
      obtain ⟨moves, hmoves⟩ := Option.isSome_iff_exists.mp (ih (Nat.succ.inj hlen) hmove.2)
      simp [moveArgs, his, hmoves]

theorem intReg_val {k : Nat} (h : intReg k = some (.x n)) : n.val = k := by
  by_cases hk : k < 8
  · have hall : ∀ k < 8, ∀ n, intReg k = some (.x n) → n.val = k := by decide
    exact hall k hk n h
  · have hnone : intParamRegOrder[k]? = none := List.getElem?_eq_none (Nat.not_lt.mp hk)
    rw [intReg, hnone] at h
    cases h

theorem Round.regs {f o : Nat} (h : Round st arg locs i f o) :
    st.intsUsed ≤ i ∧ ∀ loc ∈ locs, ∀ n, loc.reg = some (.x n) →
      st.intsUsed ≤ n.val ∧ n.val < i := by
  have hval : ∀ (k : Nat) (n : Fin 31), intReg k = some (.x n) → n.val = k := fun _ _ => intReg_val
  have hfloat : ∀ (k : Nat) (n : Fin 31), floatReg k ≠ some (.x n) := by
    intro k n hk
    obtain ⟨i, -, hn⟩ := Option.map_eq_some_iff.mp hk
    cases hn
  cases h with
  | word =>
    refine ⟨Nat.le_succ _, List.forall_mem_singleton.mpr fun n hn => ?_⟩
    have := hval _ n hn
    omega
  | pair =>
    refine ⟨by omega, List.forall_mem_cons.mpr
      ⟨fun n hn => ?_, List.forall_mem_singleton.mpr fun n hn => ?_⟩⟩
    · have := hval _ n hn
      omega
    · have := hval _ n hn
      omega
  | vector => exact ⟨le_rfl, List.forall_mem_singleton.mpr fun n hn => absurd hn (hfloat _ n)⟩
  | stackWord | stackPair | stackVector =>
    refine ⟨le_rfl, List.forall_mem_singleton.mpr fun n hn => ?_⟩
    cases hn

theorem intsUsed_le_of_mem (hargs : ∀ arg ∈ args, Slot arg) {loc : Location}
    (hloc : loc ∈ (paramGroups st args).flatMap Prod.snd) (hn : loc.reg = some (.x n)) :
    st.intsUsed ≤ n.val := by
  induction args generalizing st with
  | nil => cases hloc
  | cons arg args ih =>
    rw [List.forall_mem_cons] at hargs
    have hregs := (newLocs_round st hargs.1).2.regs
    rw [paramGroups, List.flatMap_cons] at hloc
    rcases List.mem_append.mp hloc with hloc | hloc
    · exact (hregs.2 loc hloc n hn).1
    · exact hregs.1.trans (ih hargs.2 hloc)

theorem originStep_move (σ : Origins) {r' : ArgReg} (hdst : dst.isStack = false)
    (hr : dst.reg = some r) (hsrc : src.isStack = false) (hr' : src.reg = some r') :
    originStep σ src dst = Function.update σ r (σ r') := by
  simp [originStep, hdst, hr, hsrc, hr']

theorem originStep_load (σ : Origins) (hdst : dst.isStack = false) (hr : dst.reg = some r)
    (hsrc : src.isStack = true) :
    originStep σ src dst = Function.update σ r (.stack src.stackOffset) := by
  simp [originStep, hdst, hr, hsrc]

theorem origins_shift (h : Shift arg locs srcs) (hkind : arg.kind ≠ .float)
    (hlen : locs.length = srcs.length)
    (hlocs : ∀ loc ∈ locs, ∀ n, loc.reg = some (.x n) → i ≤ n.val)
    (hσ : ∀ n : Fin 31, i < n.val → n.val < 8 → σ (.x n) = .x n) (hp : p ∈ locs.zip srcs)
    (hstack : p.1.isStack = false) (hn : p.1.reg = some (.x n)) :
    origins σ srcs locs (.x n) = p.2.place := by
  cases h with
  | @word arg k hword hk =>
    obtain rfl := List.mem_singleton.mp hp
    obtain ⟨n', -, hn'⟩ := intReg_lt (Nat.succ_lt_succ hk)
    have hle := hlocs _ (List.mem_singleton_self _) n hn
    have hval : n.val = k := intReg_val hn
    have hval' := intReg_val hn'
    rw [place_intReg hword.isStack hn']
    change originStep σ _ _ _ = _
    have hsrc : (⟨arg, intReg (k + 1)⟩ : Location).isStack = false := hword.isStack
    rw [originStep_move σ hstack hn hsrc hn', Function.update_self]
    exact hσ n' (by omega) (by omega)
  | @spill arg o hword =>
    obtain rfl := List.mem_singleton.mp hp
    change originStep σ _ _ _ = _
    rw [originStep_load σ hstack hn rfl, Function.update_self]
    rfl
  | @pair k hk =>
    obtain ⟨n₀, -, hn₀⟩ := intReg_lt (by omega : k < 8)
    obtain ⟨n₁, -, hn₁⟩ := intReg_lt (by omega : k + 1 < 8)
    obtain ⟨n₂, -, hn₂⟩ := intReg_lt (by omega : k + 2 < 8)
    have hle := hlocs (half k) List.mem_cons_self n₀ hn₀
    have hval₀ := intReg_val hn₀
    have hval₁ := intReg_val hn₁
    have hval₂ := intReg_val hn₂
    have hne : ∀ {a b : Fin 31}, a.val ≠ b.val → ArgReg.x a ≠ .x b := by
      intro a b hab heq
      exact hab (congrArg Fin.val (ArgReg.x.inj heq))
    -- the first move does not reach the register that the second one reads
    have hmoves : origins σ [half (k + 1), half (k + 2)] [half k, half (k + 1)] =
        Function.update (Function.update σ (.x n₀) (σ (.x n₁))) (.x n₁) (σ (.x n₂)) := by
      have hsecond : ∀ τ : Origins, originStep τ (half (k + 2)) (half (k + 1)) =
          Function.update τ (.x n₁) (τ (.x n₂)) := fun τ => originStep_move τ rfl hn₁ rfl hn₂
      simp only [origins]
      rw [hsecond, originStep_move σ rfl hn₀ rfl hn₁, Function.update_of_ne (hne (by omega))]
    have hplace₁ : (half (k + 1)).place = .x n₁ := place_intReg rfl hn₁
    have hplace₂ : (half (k + 2)).place = .x n₂ := place_intReg rfl hn₂
    rw [hmoves]
    rcases List.mem_cons.mp hp with rfl | hp
    · obtain rfl := ArgReg.x.inj (Option.some.inj (hn₀.symm.trans hn))
      rw [hplace₁, Function.update_of_ne (hne (by omega)), Function.update_self]
      exact hσ n₁ (by omega) (by omega)
    · obtain rfl := List.mem_singleton.mp hp
      obtain rfl := ArgReg.x.inj (Option.some.inj (hn₁.symm.trans hn))
      rw [hplace₂, Function.update_self]
      exact hσ n₂ (by omega) (by omega)
  | split => cases hlen
  | vector => exact absurd rfl hkind
  | unspill | stacked =>
    obtain rfl := List.mem_singleton.mp hp
    cases hstack

theorem origins_inStep (hargs : ∀ arg ∈ args, Slot arg) (hkinds : ∀ arg ∈ args, arg.kind ≠ .float)
    (hphase : Phase st st') (hstep : ∀ g ∈ pairGroups st st' args, g.2.1.length = g.2.2.length)
    (hσ : ∀ n : Fin 31, st.intsUsed < n.val → n.val < 8 → σ (.x n) = .x n)
    {g : ArgLocation × List Location × List Location} (hg : g ∈ pairGroups st st' args)
    (hp : p ∈ g.2.1.zip g.2.2) (hstack : p.1.isStack = false) (hn : p.1.reg = some (.x n)) :
    origins σ ((pairGroups st st' args).flatMap fun g => g.2.2)
      ((pairGroups st st' args).flatMap fun g => g.2.1) (.x n) = p.2.place := by
  induction args generalizing st st' σ with
  | nil => cases hg
  | cons arg args ih =>
    rw [List.forall_mem_cons] at hargs hkinds
    rw [pairGroups, List.forall_mem_cons] at hstep
    obtain ⟨hshift, hnext⟩ := shift_round hphase hargs.1
    obtain ⟨hmono, hregs⟩ := (newLocs_round st hargs.1).2.regs
    rw [pairGroups, List.flatMap_cons, List.flatMap_cons, origins_append hstep.1.symm]
    rcases List.mem_cons.mp hg with rfl | hg
    · -- later moves do not reach the registers of this argument
      have hlt := (hregs p.1 (List.of_mem_zip hp).1 n hn).2
      rw [origins_of_notMem]
      · exact origins_shift hshift hkinds.1 hstep.1
          (fun loc hloc n hn => (hregs loc hloc n hn).1) hσ hp
          hstack hn
      · intro dst hdst hreg
        rw [flatMap_locs] at hdst
        have := intsUsed_le_of_mem hargs.2 hdst hreg
        omega
    · refine ih hargs.2 hkinds.2 hnext hstep.2 (fun m hm hm8 => ?_) hg
      rw [origins_of_notMem]
      · exact hσ m (by omega) hm8
      · intro dst hdst hreg
        have := (hregs dst hdst m hreg).2
        omega

theorem isSome_moveArg (h : Shift arg locs srcs) (hkind : arg.kind ≠ .float)
    (hlen : locs.length = srcs.length) :
    ∀ p ∈ srcs.zip locs, (moveArg p.1 p.2).isSome := by
  have hmove : ∀ {k : Nat} {slot : ArgLocation}, slot.isStack = false → k + 1 < 8 →
      (moveArg ⟨slot, intReg (k + 1)⟩ ⟨slot, intReg k⟩).isSome := by
    intro k slot hslot hk
    obtain ⟨n, -, hn⟩ := intReg_lt (by omega : k < 8)
    obtain ⟨n', -, hn'⟩ := intReg_lt hk
    simp [moveArg, Location.isStack, hslot, hn, hn', moveReg]
  cases h with
  | word hword hk => exact List.forall_mem_singleton.mpr (hmove hword.isStack (Nat.succ_lt_succ hk))
  | spill hword =>
    obtain ⟨n, -, hn⟩ := intReg_lt (by decide : 7 < 8)
    refine List.forall_mem_singleton.mpr ?_
    simp [moveArg, Location.isStack, hword.isStack, hn]
    rfl
  | pair hk =>
    exact List.forall_mem_cons.mpr ⟨hmove rfl (by omega),
      List.forall_mem_singleton.mpr (hmove rfl (by omega))⟩
  | unspill | stacked => exact List.forall_mem_singleton.mpr rfl
  | split => cases hlen
  | vector => exact absurd rfl hkind

theorem isSome_moveArgs (hargs : ∀ arg ∈ args, Slot arg) (hkinds : ∀ arg ∈ args, arg.kind ≠ .float)
    (hphase : Phase st st') (hstep : ∀ g ∈ pairGroups st st' args, g.2.1.length = g.2.2.length) :
    (moveArgs ((pairGroups st st' args).flatMap fun g => g.2.2)
      ((pairGroups st st' args).flatMap fun g => g.2.1)).isSome := by
  induction args generalizing st st' with
  | nil => rfl
  | cons arg args ih =>
    rw [List.forall_mem_cons] at hargs hkinds
    rw [pairGroups, List.forall_mem_cons] at hstep
    obtain ⟨hshift, hnext⟩ := shift_round hphase hargs.1
    rw [pairGroups, List.flatMap_cons, List.flatMap_cons]
    exact isSome_moveArgs_append hstep.1.symm (isSome_moveArg hshift hkinds.1 hstep.1)
      (ih hargs.2 hkinds.2 hnext hstep.2)

end Walks

theorem Shift.exists_reg (h : Shift arg locs srcs) (hkind : arg.kind ≠ .float) {loc : Location}
    (hloc : loc ∈ locs) (hstack : loc.isStack = false) :
    ∃ n, loc.reg = some (.x n) := by
  have hreg : ∀ {k : Nat}, k < 8 → ∃ n, intReg k = some (.x n) := fun hk =>
    have ⟨n, _, hn⟩ := intReg_lt hk
    ⟨n, hn⟩
  cases h with
  | word _ hk =>
    obtain rfl := List.mem_singleton.mp hloc
    exact hreg (by omega)
  | spill =>
    obtain rfl := List.mem_singleton.mp hloc
    exact hreg (by decide : 7 < 8)
  | pair hk =>
    rcases List.mem_cons.mp hloc with rfl | hloc
    · exact hreg (by omega)
    · obtain rfl := List.mem_singleton.mp hloc
      exact hreg (by omega)
  | split =>
    rcases List.mem_cons.mp hloc with rfl | hloc
    · exact hreg (by decide : 6 < 8)
    · obtain rfl := List.mem_singleton.mp hloc
      exact hreg (by decide : 7 < 8)
  | vector => exact absurd rfl hkind
  | unspill | stacked =>
    obtain rfl := List.mem_singleton.mp hloc
    cases hstack

theorem Arrives.kind_ne (h : Arrives w) {g : ArgLocation × List Location × List Location}
    (hg : g ∈ siteGroups w.sig) : g.1.kind ≠ .float :=
  h.integral g.1 (fst_mem_of_mem_paramGroups (pairGroups_left hg))

theorem Arrives.traced (h : Arrives w) : Traced w := by
  have hslots := w.sig.args_slots
  have hphase := phase_initial w.sig.ret
  have hcopies : ∀ p ∈ w.copies, p.1.isStack = true := by
    intro p hp
    obtain ⟨g, hg, hind, hlocs⟩ := exists_group_of_mem_copies hp
    exact (h.indirects g hg hind).1 p.1 (hlocs ▸ List.mem_singleton_self _)
  refine ⟨isSome_moveArgs hslots h.integral hphase h.whole, h.indirects, h.fits,
    fun g hg hind p hp => ?_⟩
  have hsourced := sourced hg hp
  rw [sources_of_length (h.whole g hg), List.zip_map_right] at hp
  obtain ⟨⟨loc, src⟩, hq, rfl⟩ := List.mem_map.mp hp
  refine .inr ?_
  split
  case isTrue hstack =>
    obtain ⟨hsrc, hoffset, hend, hapart⟩ := h.stacked g hg hind _ hq hstack
    have hplace : src.place = .stack src.stackOffset := if_pos hsrc
    exact ⟨hplace.trans (congrArg Place.stack hoffset), hend, hapart⟩
  case isFalse hstack =>
    have hreg : loc.isStack = false := by simpa using hstack
    obtain ⟨n, hn⟩ := (site_shift hg).exists_reg (h.kind_ne hg) (List.of_mem_zip hq).1 hreg
    change loc.reg.map (siteOrigins w) = some src.place
    rw [hn]
    refine congrArg some (origins_inStep hslots h.integral hphase h.whole (fun m _ hm8 => ?_)
      hg hq hreg hn)
    have hne : ArgReg.x m ≠ .x 9 := by
      intro heq
      rw [ArgReg.x.inj heq] at hm8
      exact absurd hm8 (by decide)
    rw [Function.update_of_ne hne, copyOrigins_of_isStack hcopies]

/-! ### The signatures for which the moves are right -/

section Traced

variable {st st' : ParamState} {args : List ArgLocation} {σ : Origins}
variable {dst : Location} {i : VReg} {dsts : List Location} {moves : List Instr}

theorem isStack_of_moveArg {src : Location} {is : List Instr} (h : moveArg src dst = some is)
    (hstack : dst.isStack = false) (hi : dst.reg = some (.q i)) :
    src.isStack = true := by
  by_contra hsrc
  have hnone : ∀ r, moveReg r (.q i) = none := fun r => by cases r <;> rfl
  simp [moveArg, hstack, hi, hsrc, hnone] at h

theorem origins_vector (hmoves : moveArgs srcs dsts = some moves)
    (h : (∃ offset, σ (.q i) = .stack offset) ∨ ∃ dst ∈ dsts,
    dst.isStack = false ∧ dst.reg = some (.q i)) :
    ∃ offset, origins σ srcs dsts (.q i) = .stack offset := by
  induction srcs, dsts using moveArgs.induct generalizing σ moves with
  | case1 srcs =>
    have hσ := h.resolve_right (by simp)
    cases srcs <;> exact hσ
  | case2 dst dsts hstack ih =>
    rw [moveArgs, if_pos hstack] at hmoves
    have hrest := ih hmoves (σ := σ) (by simpa [hstack] using h)
    cases dsts <;> exact hrest
  | case3 dst dsts hstack =>
    rw [moveArgs, if_neg hstack] at hmoves
    cases hmoves
  | case4 src srcs dst dsts ih =>
    obtain ⟨is, his, moves', hmoves', -⟩ : ∃ is, moveArg src dst = some is ∧ ∃ moves',
        moveArgs srcs dsts = some moves' ∧ is ++ moves' = moves := by
      simpa [moveArgs, Option.bind_eq_some_iff] using hmoves
    refine ih hmoves' ?_
    by_cases hdst : dst.isStack = false ∧ dst.reg = some (.q i)
    · rw [originStep_load σ hdst.1 hdst.2 (isStack_of_moveArg his hdst.1 hdst.2),
        Function.update_self]
      exact .inl ⟨_, rfl⟩
    · -- this move is to another register
      have hsame : originStep σ src dst (.q i) = σ (.q i) := by
        cases hkind : dst.isStack with
        | true => simp [originStep, hkind]
        | false =>
          rcases originStep_cases σ src dst with heq | ⟨r, p, hr, heq, -⟩
          · rw [heq]
          · rw [heq, Function.update_of_ne]
            rintro rfl
            exact hdst ⟨hkind, hr⟩
      rw [hsame]
      exact h.imp id (by simp [hdst])

theorem moveArgs_last (hmoves : moveArgs srcs (dsts ++ [dst]) = some moves)
    (hlen : srcs.length ≤ dsts.length) :
    dst.isStack = true := by
  induction dsts generalizing srcs moves with
  | nil =>
    obtain rfl := List.length_eq_zero_iff.mp (Nat.le_zero.mp hlen)
    by_contra hstack
    rw [List.nil_append, moveArgs, if_neg hstack] at hmoves
    cases hmoves
  | cons dst' dsts ih =>
    cases srcs with
    | nil =>
      rw [List.cons_append, moveArgs] at hmoves
      split at hmoves
      · exact ih hmoves (Nat.zero_le _)
      · cases hmoves
    | cons src srcs =>
      rw [List.cons_append] at hmoves
      obtain ⟨is, -, moves', hmoves', -⟩ : ∃ is, moveArg src dst' = some is ∧ ∃ moves',
          moveArgs srcs (dsts ++ [dst]) = some moves' ∧ is ++ moves' = moves := by
        simpa [moveArgs, Option.bind_eq_some_iff] using hmoves
      exact ih hmoves' (Nat.le_of_succ_le_succ hlen)

theorem Round.floatsUsed {i f o : Nat} (h : Round st arg locs i f o) (hkind : arg.kind ≠ .float) :
    f = st.floatsUsed := by
  cases h with
  | vector => exact absurd rfl hkind
  | _ => rfl

theorem exists_vector (hargs : ∀ arg ∈ args, Slot arg) (harg : arg ∈ args)
    (hkind : arg.kind = .float) (hst : st.floatsUsed < 8) (hst' : st'.floatsUsed = st.floatsUsed) :
    ∃ n i, i < 8 ∧ (register .float n, [⟨register .float n, floatReg i⟩],
      [⟨register .float n, floatReg i⟩]) ∈ pairGroups st st' args := by
  induction args generalizing st st' with
  | nil => cases harg
  | cons arg' args ih =>
    rw [List.forall_mem_cons] at hargs
    by_cases hkind' : arg'.kind = .float
    · cases hargs.1 with
      | float n =>
        refine ⟨n, st.floatsUsed, hst, ?_⟩
        rw [pairGroups, newLocs_float, newLocs_float, hst', if_pos hst, if_pos hst]
        exact List.mem_cons_self
      | integral | wide | indirect => cases hkind'
    · have hfloats := (newLocs_round st hargs.1).2.floatsUsed hkind'
      have hfloats' := (newLocs_round st' hargs.1).2.floatsUsed hkind'
      have hmem : arg ∈ args := (List.mem_cons.mp harg).resolve_left fun heq => hkind' (heq ▸ hkind)
      have hsame : (allocateParam st' arg').floatsUsed = (allocateParam st arg').floatsUsed := by
        rw [hfloats, hfloats', hst']
      obtain ⟨n, i, hi, hg⟩ := ih hargs.2 hmem (hfloats ▸ hst) hsame
      exact ⟨n, i, hi, List.mem_cons_of_mem _ hg⟩

theorem Traced.integral (h : Traced w) (hfloats : ∀ n, register .float n ∈ w.sig.args → 0 < n) :
    ∀ arg ∈ w.sig.args, arg.kind ≠ .float := by
  intro arg harg hkind
  obtain ⟨moves, hmoves⟩ := Option.isSome_iff_exists.mp h.moves
  have hzero : (initialParams w.sig.ret).floatsUsed < 8 := by
    rcases initialParams_cases w.sig.ret with h | h <;> rw [h] <;> decide
  obtain ⟨n, i, hi, hg⟩ :=
    exists_vector w.sig.args_slots harg hkind hzero (phase_initial w.sig.ret).floats
  obtain ⟨r, -, hr⟩ := floatReg_lt hi
  have hpos := hfloats n (fst_mem_of_mem_paramGroups (pairGroups_left hg))
  obtain ⟨offset, horigin⟩ : ∃ offset, siteOrigins w (.q r) = .stack offset :=
    origins_vector hmoves (.inr ⟨_, mem_siteLocs_of_group hg (List.mem_singleton_self _), rfl, hr⟩)
  have hplace : (⟨register .float n, floatReg i⟩ : Location).place = .q r := by
    rw [Location.place, hr]
    rfl
  rcases h.args _ hg rfl _ (List.mem_singleton_self _) with hwidth | htraced
  · exact absurd hwidth hpos.ne'
  · obtain ⟨r', hr', hsrc⟩ := Option.map_eq_some_iff.mp htraced
    obtain rfl := Option.some.inj (hr.symm.trans hr')
    rw [horigin, hplace] at hsrc
    cases hsrc

theorem nil_of_split (hargs : ∀ arg ∈ args, Slot arg) (hkinds : ∀ arg ∈ args, arg.kind ≠ .float)
    (hst : st.intsUsed = 8) (hst' : st'.intsUsed = 7)
    (hend : (args.foldl allocateParam st).stackOffset = w.sizes.argSize)
    (hindirects : ∀ g ∈ pairGroups st st' args, g.1.isIndirect = true → ∀ src ∈ g.2.2,
      src.isStack = true) (htraced : ∀ g ∈ pairGroups st st' args, g.1.isIndirect = false →
      ∀ p ∈ g.2.1.zip (sources g.2.1 g.2.2), LocTraced w p.1 p.2) : args = [] := by
  induction args generalizing st st' with
  | nil => rfl
  | cons arg args ih =>
    rw [List.forall_mem_cons] at hargs hkinds
    rw [pairGroups, List.forall_mem_cons] at hindirects htraced
    exfalso
    cases hargs.1 with
    | float n => exact hkinds.1 rfl
    | indirect hsize halign =>
      have hword : Word (indirect _ _) := .indirect hsize halign
      have hsrcs := hindirects.1 rfl
      rw [newLocs_word st' hword, if_pos (by omega)] at hsrcs
      cases hsrcs _ (List.mem_singleton_self _)
    | @integral n hn =>
      have hword : Word (register .integral n) := .integral hn
      obtain ⟨m, -, hm⟩ := intReg_lt (by decide : 7 < 8)
      have hlocs := htraced.1 rfl
      rw [newLocs_word st hword, if_neg (by omega), newLocs_word st' hword, if_pos (by omega), hst']
        at hlocs
      rcases hlocs _ (List.mem_singleton_self _) with hzero | hsrc
      · have hwidth : (⟨(register .integral n).allocateStack st.stackOffset, none⟩ :
            Location).width = 8 :=
          hword.width none
        exact absurd (hwidth.symm.trans hzero) (by decide)
      · have hplace := hsrc.1
        rw [place_intReg hword.isStack hm] at hplace
        cases hplace
    | wide =>
      have hlocs := htraced.1 rfl
      rw [newLocs_wide st, if_neg (by omega), newLocs_wide st', if_neg (by omega)] at hlocs
      have hnext := allocateParam_wide st
      have hnext' := allocateParam_wide st'
      rw [if_neg (by omega)] at hnext hnext'
      obtain rfl := ih hargs.2 hkinds.2 (by rw [hnext, hst]) (by rw [hnext', hst']) hend
        hindirects.2 htraced.2
      rcases hlocs _ (List.mem_singleton_self _) with hzero | hsrc
      · cases hzero
      · have hle : st.stackOffset + 16 ≤ w.sizes.argSize := hsrc.2.1
        rw [List.foldl_cons, hnext] at hend
        have hsize : st.stackOffset + 8 = w.sizes.argSize := hend
        omega

theorem split_of_length (hphase : Phase st st') (harg : Slot arg)
    (hlen : (newLocs st arg).length ≠ (newLocs st' arg).length) :
    arg = register .integral 16 ∧ st.intsUsed = 6 ∧ st'.intsUsed = 7 := by
  have hword : ∀ {arg}, Word arg → ∀ st, (newLocs st arg).length = 1 := by
    intro arg h st
    rw [newLocs_word st h]
    split <;> rfl
  cases harg with
  | integral hn =>
    exact absurd ((hword (.integral hn) st).trans (hword (.integral hn) st').symm) hlen
  | indirect hsize halign =>
    have h := hword (.indirect hsize halign)
    exact absurd ((h st).trans (h st').symm) hlen
  | float n =>
    rw [newLocs_float, newLocs_float, hphase.floats] at hlen
    split at hlen <;> exact absurd rfl hlen
  | wide =>
    have hints := hphase.ints
    rw [newLocs_wide, newLocs_wide] at hlen
    refine ⟨rfl, ?_⟩
    by_cases hi : st.intsUsed + 1 < 8
    · by_cases hi' : st'.intsUsed + 1 < 8
      · rw [if_pos hi, if_pos hi'] at hlen
        exact absurd rfl hlen
      · omega
    · rw [if_neg hi, if_neg (by omega)] at hlen
      exact absurd rfl hlen

theorem exists_last_of_split (hargs : ∀ arg ∈ args, Slot arg)
    (hkinds : ∀ arg ∈ args, arg.kind ≠ .float) (hphase : Phase st st')
    (hend : (args.foldl allocateParam st).stackOffset = w.sizes.argSize)
    (hindirects : ∀ g ∈ pairGroups st st' args, g.1.isIndirect = true → ∀ src ∈ g.2.2,
    src.isStack = true) (htraced : ∀ g ∈ pairGroups st st' args, g.1.isIndirect = false →
      ∀ p ∈ g.2.1.zip (sources g.2.1 g.2.2), LocTraced w p.1 p.2)
    (hsplit : ∃ g ∈ pairGroups st st' args, g.2.1.length ≠ g.2.2.length) :
    ∃ locs, (pairGroups st st' args).flatMap (fun g => g.2.1) = locs ++ [half 7] ∧
      ((pairGroups st st' args).flatMap fun g => g.2.2).length ≤ locs.length := by
  induction args generalizing st st' with
  | nil => simp [pairGroups] at hsplit
  | cons arg args ih =>
    rw [List.forall_mem_cons] at hargs hkinds
    rw [pairGroups, List.forall_mem_cons] at hindirects htraced
    obtain ⟨hshift, hnext⟩ := shift_round hphase hargs.1
    rw [pairGroups, List.flatMap_cons, List.flatMap_cons]
    by_cases hlen : (newLocs st arg).length = (newLocs st' arg).length
    · have hrest : ∃ g ∈ pairGroups (allocateParam st arg) (allocateParam st' arg) args,
          g.2.1.length ≠ g.2.2.length := by simpa [pairGroups, hlen] using hsplit
      obtain ⟨locs, hlocs, hle⟩ := ih hargs.2 hkinds.2 hnext hend hindirects.2 htraced.2 hrest
      refine ⟨newLocs st arg ++ locs, ?_, ?_⟩
      · dsimp only
        rw [hlocs, List.append_assoc]
      · dsimp only
        rw [List.length_append, List.length_append]
        omega
    · obtain ⟨rfl, hst, hst'⟩ : arg = register .integral 16 ∧ st.intsUsed = 6 ∧ st'.intsUsed = 7 :=
        split_of_length hphase hargs.1 hlen
      have hafter := allocateParam_wide st
      have hafter' := allocateParam_wide st'
      rw [if_pos (by omega)] at hafter
      rw [if_neg (by omega)] at hafter'
      obtain rfl := nil_of_split hargs.2 hkinds.2 (by rw [hafter, hst]) (by rw [hafter', hst']) hend
        hindirects.2 htraced.2
      rw [newLocs_wide st, if_pos (by omega), newLocs_wide st', if_neg (by omega), hst]
      exact ⟨[half 6], rfl, le_rfl⟩

end Traced

theorem Shift.of_isStack (h : Shift arg locs srcs) (hkind : arg.kind ≠ .float)
    {p : Location × Location} (hp : p ∈ locs.zip srcs) (hstack : p.1.isStack = true) :
    0 < p.1.width ∧ (p.2.isStack = true ∨ ∃ n, p.2.place = .x n) := by
  have hreg : ∀ {slot : ArgLocation} {reg : Option ArgReg}, slot.isStack = false →
      (⟨slot, reg⟩ : Location).isStack ≠ true := by
    intro slot reg hslot h
    exact Bool.false_ne_true (hslot.symm.trans h)
  cases h with
  | word hword | spill hword =>
    obtain rfl := List.mem_singleton.mp hp
    exact absurd hstack (hreg hword.isStack)
  | @unspill arg o hword =>
    obtain rfl := List.mem_singleton.mp hp
    obtain ⟨n, -, hn⟩ := intReg_lt (by decide : 7 < 8)
    have hwidth : (⟨arg.allocateStack o, none⟩ : Location).width = 8 := hword.width none
    exact ⟨hwidth ▸ Nat.succ_pos 7, .inr ⟨n, place_intReg hword.isStack hn⟩⟩
  | pair =>
    rcases List.mem_cons.mp hp with rfl | hp
    · cases hstack
    · obtain rfl := List.mem_singleton.mp hp
      cases hstack
  | split =>
    obtain rfl := List.mem_singleton.mp hp
    cases hstack
  | vector => exact absurd rfl hkind
  | @stacked arg o o' hslot =>
    obtain rfl := List.mem_singleton.mp hp
    refine ⟨?_, .inl rfl⟩
    cases hslot with
    | @integral n hn =>
      have hwidth : (⟨(register .integral n).allocateStack o, none⟩ : Location).width = 8 :=
        Word.width (.integral hn) none
      exact hwidth ▸ Nat.succ_pos 7
    | wide | indirect => exact Nat.succ_pos _
    | float n => exact absurd rfl hkind

theorem Traced.arrives (h : Traced w) (hfloats : ∀ n, register .float n ∈ w.sig.args → 0 < n) :
    Arrives w := by
  have hintegral := h.integral hfloats
  have hwhole : ∀ g ∈ siteGroups w.sig, g.2.1.length = g.2.2.length := by
    by_contra hsplit
    obtain ⟨moves, hmoves⟩ := Option.isSome_iff_exists.mp h.moves
    obtain ⟨locs, hlocs, hle⟩ :=
      exists_last_of_split w.sig.args_slots hintegral (phase_initial w.sig.ret) rfl
      (fun g hg hind => (h.indirects g hg hind).2) h.args (by simpa [siteGroups] using hsplit)
    rw [siteMoves, show siteLocs w = locs ++ [half 7] from hlocs] at hmoves
    cases moveArgs_last hmoves hle
  refine ⟨hintegral, hwhole, h.indirects, h.fits, fun g hg hind p hp hstack => ?_⟩
  have hmem : (p.1, p.2.place) ∈ g.2.1.zip (sources g.2.1 g.2.2) := by
    rw [sources_of_length (hwhole g hg), List.zip_map_right]
    exact List.mem_map.mpr ⟨p, hp, rfl⟩
  have hkind := hintegral g.1 (fst_mem_of_mem_paramGroups (pairGroups_left hg))
  obtain ⟨hpos, hsrc⟩ := (site_shift hg).of_isStack hkind hp hstack
  have htraced := (h.args g hg hind _ hmem).resolve_left hpos.ne'
  rw [if_pos hstack] at htraced
  obtain ⟨hsource, hend, hapart⟩ := htraced
  rcases hsrc with hsrc | ⟨n, hn⟩
  · have hplace : p.2.place = .stack p.2.stackOffset := if_pos hsrc
    exact ⟨hsrc, Place.stack.inj (hplace.symm.trans hsource), hend, hapart⟩
  · rw [hn] at hsource
    cases hsource

theorem traced_iff_arrives (hfloats : ∀ n, register .float n ∈ w.sig.args → 0 < n) :
    Traced w ↔ Arrives w :=
  ⟨fun h => h.arrives hfloats, fun h => h.traced⟩

end Ia2.Arm
