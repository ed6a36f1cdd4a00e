import Ia2.Rewriter.Locations
import Mathlib.Data.List.Perm.Lattice

/-!
# A pointer before the arguments

An indirect call site passes the address of the function before the arguments of the function. The
locations of the arguments come from the same loop over the same slots, once as the function takes
them and once with one integer register less. `Aligned` relates the variables of the two loops, and
`Shift` says what two rounds for the same slot give, as long as no 16-byte integer is in registers
in one list and on the stack in the other.
-/

namespace Ia2.Rewriter

open X86 ArgLocation

/-! ### The locations of one argument -/

def newLocs (st : ParamState) (arg : ArgLocation) : List ArgLocation :=
  (allocateParam st arg).args.drop st.args.length

def paramGroups : ParamState → List ArgLocation → List (List ArgLocation)
  | _, [] => []
  | st, arg :: args => newLocs st arg :: paramGroups (allocateParam st arg) args

theorem allocateParam_newLocs (st : ParamState) (arg : ArgLocation) :
    (allocateParam st arg).args = st.args ++ newLocs st arg := by
  obtain ⟨locs, hargs, -⟩ := allocateParam_args st arg
  rw [newLocs, hargs, List.drop_left]

theorem foldl_allocateParam_groups (args : List ArgLocation) (st : ParamState) :
    (args.foldl allocateParam st).args = st.args ++ (paramGroups st args).flatten := by
  induction args generalizing st with
  | nil => simp [paramGroups]
  | cons arg args ih =>
    rw [List.foldl_cons, ih, allocateParam_newLocs, paramGroups, List.flatten_cons,
      List.append_assoc]

def half (i : Nat) : ArgLocation := (register .integral 8).allocateReg (intParamReg i)

variable {n i f offset : Nat} {arg : ArgLocation} {locs locs' : List ArgLocation}
  {st st₂ st' : ParamState} {r : ArgReg}

theorem allocateParam_integral (st : ParamState) (hn : n ≤ 8) :
    allocateParam st (register .integral n) = if st.intsUsed < 6
      then
        { st with
            args := st.args ++ [(register .integral n).allocateReg (intParamReg st.intsUsed)]
            intsUsed := st.intsUsed + 1 }
      else
        { st with
            args := st.args ++ [(register .integral n).allocateStack st.stackOffset]
            stackOffset := st.stackOffset + 8 } := by
  by_cases hints : st.intsUsed < 6
  · rw [if_pos hints]
    exact if_pos ⟨.inl hn, hints⟩
  · have hone : ¬ ((n ≤ 8 ∨ (register .integral n).isIndirect = true) ∧
      st.intsUsed < intParamRegOrder.length) := fun h => hints h.2
    have htwo : ¬ st.intsUsed + 1 < intParamRegOrder.length := fun h => hints (Nat.lt_of_succ_lt h)
    rw [if_neg hints]
    exact (if_neg hone).trans (if_neg htwo)

theorem allocateParam_wide (st : ParamState) :
    allocateParam st (register .integral 16) = if st.intsUsed < 5
      then
        { st with
            args := st.args ++ [half st.intsUsed, half (st.intsUsed + 1)]
            intsUsed := st.intsUsed + 2 }
      else
        { st with
            args := st.args ++ [(register .integral 16).allocateStack st.stackOffset]
            stackOffset := st.stackOffset + 8 } := by
  -- the test for one register does not depend on the state, so the term starts at the test for two
  by_cases hints : st.intsUsed < 5
  · have htwo : st.intsUsed + 1 < intParamRegOrder.length := Nat.succ_lt_succ hints
    rw [if_pos hints]
    exact if_pos htwo
  · have htwo : ¬ st.intsUsed + 1 < intParamRegOrder.length :=
      fun h => hints (Nat.lt_of_succ_lt_succ h)
    rw [if_neg hints]
    exact if_neg htwo

theorem allocateParam_float (st : ParamState) (n : Nat) :
    allocateParam st (register .float n) = if st.floatsUsed < 8
      then
        { st with
            args := st.args ++ [(register .float n).allocateReg (floatReg st.floatsUsed)]
            floatsUsed := st.floatsUsed + 1 }
      else
        { st with
            args := st.args ++ [(register .float n).allocateStack st.stackOffset]
            stackOffset := st.stackOffset + n } :=
  rfl

theorem allocateParam_indirect (st : ParamState) (size align : Nat) :
    allocateParam st (indirect size align) =
      { st with
        args := st.args ++ [(stack size align).allocateStack (alignUp st.stackOffset align)]
        stackOffset := alignUp (alignUp st.stackOffset align + size) 8 } :=
  rfl

theorem newLocs_eq (h : (allocateParam st arg).args = st.args ++ locs) : newLocs st arg = locs := by
  rw [newLocs, h, List.drop_left]

inductive Round (st : ParamState) : ArgLocation → List ArgLocation → Nat → Nat → Nat → Prop
  | gpr {n : Nat} (hn : n ≤ 8) (hints : st.intsUsed < 6) :
      Round st (register .integral n) [(register .integral n).allocateReg (intParamReg st.intsUsed)]
        (st.intsUsed + 1) st.floatsUsed st.stackOffset
  | pair (hints : st.intsUsed < 5) :
      Round st (register .integral 16) [half st.intsUsed, half (st.intsUsed + 1)]
        (st.intsUsed + 2) st.floatsUsed st.stackOffset
  | xmm {n : Nat} (hfloats : st.floatsUsed < 8) :
      Round st (register .float n) [(register .float n).allocateReg (floatReg st.floatsUsed)]
        st.intsUsed (st.floatsUsed + 1) st.stackOffset
  | spill {n : Nat} (hn : n ≤ 8) (hints : 6 ≤ st.intsUsed) :
      Round st (register .integral n) [(register .integral n).allocateStack st.stackOffset]
        st.intsUsed st.floatsUsed (st.stackOffset + 8)
  | spillPair (hints : 5 ≤ st.intsUsed) :
      Round st (register .integral 16) [(register .integral 16).allocateStack st.stackOffset]
        st.intsUsed st.floatsUsed (st.stackOffset + 8)
  | spillFloat {n : Nat} (hfloats : 8 ≤ st.floatsUsed) :
      Round st (register .float n) [(register .float n).allocateStack st.stackOffset]
        st.intsUsed st.floatsUsed (st.stackOffset + n)
  | memory {size align : Nat} (hsize : 0 < size) (halign : 0 < align) :
      Round st (indirect size align)
      [(stack size align).allocateStack (alignUp st.stackOffset align)]
        st.intsUsed st.floatsUsed (alignUp (alignUp st.stackOffset align + size) 8)

theorem allocateParam_round (st : ParamState) (harg : Slot arg) :
    Round st arg (newLocs st arg) (allocateParam st arg).intsUsed (allocateParam st arg).floatsUsed
      (allocateParam st arg).stackOffset := by
  cases harg with
  | @integral n hn =>
    have heq := allocateParam_integral st hn
    by_cases hints : st.intsUsed < 6
    · rw [if_pos hints] at heq
      rw [newLocs_eq (congrArg ParamState.args heq), heq]
      exact .gpr hn hints
    · rw [if_neg hints] at heq
      rw [newLocs_eq (congrArg ParamState.args heq), heq]
      exact .spill hn (Nat.not_lt.mp hints)
  | wide =>
    have heq := allocateParam_wide st
    by_cases hints : st.intsUsed < 5
    · rw [if_pos hints] at heq
      rw [newLocs_eq (congrArg ParamState.args heq), heq]
      exact .pair hints
    · rw [if_neg hints] at heq
      rw [newLocs_eq (congrArg ParamState.args heq), heq]
      exact .spillPair (Nat.not_lt.mp hints)
  | float n =>
    have heq := allocateParam_float st n
    by_cases hfloats : st.floatsUsed < 8
    · rw [if_pos hfloats] at heq
      rw [newLocs_eq (congrArg ParamState.args heq), heq]
      exact .xmm hfloats
    · rw [if_neg hfloats] at heq
      rw [newLocs_eq (congrArg ParamState.args heq), heq]
      exact .spillFloat (Nat.not_lt.mp hfloats)
  | @indirect size align hsize halign =>
    have heq := allocateParam_indirect st size align
    rw [newLocs_eq (congrArg ParamState.args heq), heq]
    exact .memory hsize halign

/-! ### Registers of the new locations -/

def usedRegs (st : ParamState) : List ArgReg :=
  (intParamRegOrder.take st.intsUsed).map .gpr ++ (floatRegOrder.take st.floatsUsed).map .xmm

def freeRegs (st : ParamState) : List ArgReg :=
  (intParamRegOrder.drop st.intsUsed).map .gpr ++ (floatRegOrder.drop st.floatsUsed).map .xmm

theorem gpr_mem_usedRegs (h : intParamReg i = some r) (hi : i < st.intsUsed) :
    r ∈ usedRegs st := by
  obtain ⟨r', hr', rfl⟩ := Option.map_eq_some_iff.mp h
  refine List.mem_append_left _ (List.mem_map_of_mem (List.mem_of_getElem? (i := i) ?_))
  rw [List.getElem?_take, if_pos hi, hr']

theorem gpr_mem_freeRegs (h : intParamReg i = some r) (hi : st.intsUsed ≤ i) :
    r ∈ freeRegs st := by
  obtain ⟨r', hr', rfl⟩ := Option.map_eq_some_iff.mp h
  refine List.mem_append_left _
    (List.mem_map_of_mem (List.mem_of_getElem? (i := i - st.intsUsed) ?_))
  rw [List.getElem?_drop, Nat.add_sub_cancel' hi, hr']

theorem xmm_mem_usedRegs (h : floatReg i = some r) (hi : i < st.floatsUsed) :
    r ∈ usedRegs st := by
  obtain ⟨r', hr', rfl⟩ := Option.map_eq_some_iff.mp h
  refine List.mem_append_right _ (List.mem_map_of_mem (List.mem_of_getElem? (i := i) ?_))
  rw [List.getElem?_take, if_pos hi, hr']

theorem xmm_mem_freeRegs (h : floatReg i = some r) (hi : st.floatsUsed ≤ i) :
    r ∈ freeRegs st := by
  obtain ⟨r', hr', rfl⟩ := Option.map_eq_some_iff.mp h
  refine List.mem_append_right _
    (List.mem_map_of_mem (List.mem_of_getElem? (i := i - st.floatsUsed) ?_))
  rw [List.getElem?_drop, Nat.add_sub_cancel' hi, hr']

structure Ahead (st st₂ : ParamState) : Prop where
  ints : st.intsUsed ≤ st₂.intsUsed
  floats : st.floatsUsed ≤ st₂.floatsUsed

theorem Ahead.freeRegs_subset (h : Ahead st st₂) :
    freeRegs st₂ ⊆ freeRegs st := by
  refine List.append_subset.mpr ⟨List.subset_append_of_subset_left _ ?_,
    List.subset_append_of_subset_right _ ?_⟩
  · exact List.map_subset _ (List.drop_subset_drop_left _ h.ints)
  · exact List.map_subset _ (List.drop_subset_drop_left _ h.floats)

theorem Ahead.notMem_freeRegs (h : Ahead st st₂) (hr : r ∈ usedRegs st) : r ∉ freeRegs st₂ := by
  have hints : (intParamRegOrder.take st.intsUsed).Disjoint (intParamRegOrder.drop st₂.intsUsed) :=
    List.disjoint_take_drop (by decide) h.ints
  have hfloats : (floatRegOrder.take st.floatsUsed).Disjoint (floatRegOrder.drop st₂.floatsUsed) :=
    List.disjoint_take_drop (by decide) h.floats
  intro hfree
  simp only [usedRegs, freeRegs, List.mem_append, List.mem_map] at hr hfree
  rcases hr with ⟨a, ha, rfl⟩ | ⟨a, ha, rfl⟩
  · rcases hfree with ⟨b, hb, hsame⟩ | ⟨b, -, hsame⟩
    · cases hsame
      exact hints ha hb
    · cases hsame
  · rcases hfree with ⟨b, -, hsame⟩ | ⟨b, hb, hsame⟩
    · cases hsame
    · cases hsame
      exact hfloats ha hb

theorem Round.ahead (h : Round st arg locs i f offset) (hi : st₂.intsUsed = i)
    (hf : st₂.floatsUsed = f) : Ahead st st₂ := by
  cases h <;> exact ⟨by omega, by omega⟩

theorem Round.reg {arg loc : ArgLocation} (h : Round st arg locs i f offset) (hi : st₂.intsUsed = i)
    (hf : st₂.floatsUsed = f) (hloc : loc ∈ locs) (hreg : loc.isStack = false) :
    ∃ r, loc.reg = some r ∧ r ∈ freeRegs st ∧ r ∈ usedRegs st₂ := by
  cases h with
  | gpr hn hints =>
    obtain rfl := List.mem_singleton.mp hloc
    obtain ⟨r, hr⟩ := intParamReg_lt hints
    exact ⟨r, hr, gpr_mem_freeRegs hr le_rfl, gpr_mem_usedRegs hr (by omega)⟩
  | pair hints =>
    simp only [List.mem_cons, List.not_mem_nil, or_false] at hloc
    rcases hloc with rfl | rfl
    · obtain ⟨r, hr⟩ := intParamReg_lt (Nat.lt_succ_of_lt hints)
      exact ⟨r, hr, gpr_mem_freeRegs hr le_rfl, gpr_mem_usedRegs hr (by omega)⟩
    · obtain ⟨r, hr⟩ := intParamReg_lt (Nat.succ_lt_succ hints)
      exact ⟨r, hr, gpr_mem_freeRegs hr (Nat.le_succ _), gpr_mem_usedRegs hr (by omega)⟩
  | xmm hfloats =>
    obtain rfl := List.mem_singleton.mp hloc
    obtain ⟨r, hr⟩ := floatReg_lt hfloats
    exact ⟨r, hr, xmm_mem_freeRegs hr le_rfl, xmm_mem_usedRegs hr (by omega)⟩
  | spill => simp [List.mem_singleton.mp hloc, allocateStack, isStack] at hreg
  | spillPair => simp [List.mem_singleton.mp hloc, allocateStack, isStack] at hreg
  | spillFloat => simp [List.mem_singleton.mp hloc, allocateStack, isStack] at hreg
  | memory => simp [List.mem_singleton.mp hloc, allocateStack, isStack] at hreg

variable {args : List ArgLocation}

theorem paramGroups_reg {loc : ArgLocation} (hargs : ∀ arg ∈ args, Slot arg)
    (hloc : loc ∈ (paramGroups st args).flatten) (hreg : loc.isStack = false) :
    ∃ r ∈ freeRegs st, loc.reg = some r := by
  induction args generalizing st with
  | nil => simp [paramGroups] at hloc
  | cons arg args ih =>
    rw [List.forall_mem_cons] at hargs
    rw [paramGroups, List.flatten_cons, List.mem_append] at hloc
    rcases hloc with hloc | hloc
    · obtain ⟨r, hr, hfree, -⟩ := (allocateParam_round st hargs.1).reg rfl rfl hloc hreg
      exact ⟨r, hfree, hr⟩
    · obtain ⟨r, hfree, hr⟩ := ih hargs.2 hloc
      exact ⟨r, ((allocateParam_round st hargs.1).ahead rfl rfl).freeRegs_subset hfree, hr⟩

/-! ### Offsets of the new locations -/

def ArgLocation.width (loc : ArgLocation) : Nat := if loc.kind = .integral ∧ loc.bytes ≤ 8 then 8
    else loc.bytes

theorem width_integral (hn : n ≤ 8) : (register .integral n).width = 8 := if_pos ⟨rfl, hn⟩

theorem Round.stackOffset_le (h : Round st arg locs i f offset) : st.stackOffset ≤ offset := by
  cases h with
  | @memory size align hsize halign =>
    have hstart := le_alignUp st.stackOffset align
    have hend := le_alignUp (alignUp st.stackOffset align + size) 8
    omega
  | _ => omega

theorem Round.stack {arg loc : ArgLocation} (h : Round st arg locs i f offset) (hloc : loc ∈ locs)
    (hstack : loc.isStack = true) :
    loc.stackOffset + min loc.width 8 ≤ offset ∧ loc.stackOffset + loc.width ≤ offset + 8 := by
  cases h with
  | gpr => simp [List.mem_singleton.mp hloc, allocateReg, register, isStack] at hstack
  | pair =>
    simp only [List.mem_cons, List.not_mem_nil, or_false] at hloc
    rcases hloc with rfl | rfl <;> simp [half, allocateReg, register, isStack] at hstack
  | xmm => simp [List.mem_singleton.mp hloc, allocateReg, register, isStack] at hstack
  | @spill n hn =>
    obtain rfl := List.mem_singleton.mp hloc
    have hwidth : ((register .integral n).allocateStack st.stackOffset).width = 8 :=
      width_integral hn
    have hoffset : ((register .integral n).allocateStack st.stackOffset).stackOffset =
      st.stackOffset := rfl
    omega
  | spillPair =>
    obtain rfl := List.mem_singleton.mp hloc
    have hwidth : ((register .integral 16).allocateStack st.stackOffset).width = 16 := rfl
    have hoffset : ((register .integral 16).allocateStack st.stackOffset).stackOffset =
      st.stackOffset := rfl
    omega
  | @spillFloat n =>
    obtain rfl := List.mem_singleton.mp hloc
    have hwidth : ((register .float n).allocateStack st.stackOffset).width = n := rfl
    have hoffset : ((register .float n).allocateStack st.stackOffset).stackOffset =
      st.stackOffset := rfl
    omega
  | @memory size align hsize halign =>
    obtain rfl := List.mem_singleton.mp hloc
    have hwidth :
      ((ArgLocation.stack size align).allocateStack (alignUp st.stackOffset align)).width = size :=
      rfl
    have hoffset :
      ((ArgLocation.stack size align).allocateStack (alignUp st.stackOffset align)).stackOffset =
      alignUp st.stackOffset align := rfl
    have hend := le_alignUp (alignUp st.stackOffset align + size) 8
    omega

theorem stackOffset_le_foldl (hargs : ∀ arg ∈ args, Slot arg) (st : ParamState) :
    st.stackOffset ≤ (args.foldl allocateParam st).stackOffset := by
  induction args generalizing st with
  | nil => exact le_rfl
  | cons arg args ih =>
    rw [List.forall_mem_cons] at hargs
    exact (allocateParam_round st hargs.1).stackOffset_le.trans (ih hargs.2 _)

theorem paramGroups_stack {loc : ArgLocation} (hargs : ∀ arg ∈ args, Slot arg)
    (hloc : loc ∈ (paramGroups st args).flatten) (hstack : loc.isStack = true) :
    loc.stackOffset + min loc.width 8 ≤ (args.foldl allocateParam st).stackOffset ∧
      loc.stackOffset + loc.width ≤ (args.foldl allocateParam st).stackOffset + 8 := by
  induction args generalizing st with
  | nil => simp [paramGroups] at hloc
  | cons arg args ih =>
    rw [List.forall_mem_cons] at hargs
    rw [paramGroups, List.flatten_cons, List.mem_append] at hloc
    rcases hloc with hloc | hloc
    · have hround := (allocateParam_round st hargs.1).stack hloc hstack
      have hrest := stackOffset_le_foldl hargs.2 (allocateParam st arg)
      rw [List.foldl_cons]
      omega
    · exact ih hargs.2 hloc

/-! ### Two loops over the same slots -/

structure Aligned (st st' : ParamState) : Prop where
  floats : st'.floatsUsed = st.floatsUsed
  ints : st'.intsUsed = st.intsUsed + 1 ∧ st.intsUsed ≤ 5 ∨ st.intsUsed = 6 ∧ st'.intsUsed = 6
  stackOffset : st.stackOffset ≤ st'.stackOffset

theorem Aligned.ahead (h : Aligned st st') : Ahead st st' := by
  have hints := h.ints
  exact ⟨by omega, h.floats.ge⟩

inductive Shift : List ArgLocation → List ArgLocation → Prop
  | gpr {n i : Nat} (hn : n ≤ 8) (hi : i < 5) :
      Shift [(register .integral n).allocateReg (intParamReg i)]
      [(register .integral n).allocateReg (intParamReg (i + 1))]
  | pair {i : Nat} (hi : i < 4) : Shift [half i, half (i + 1)] [half (i + 1), half (i + 2)]
  | xmm {n i : Nat} (hi : i < 8) :
      Shift [(register .float n).allocateReg (floatReg i)]
      [(register .float n).allocateReg (floatReg i)]
  | spill {n offset : Nat} (hn : n ≤ 8) :
      Shift [(register .integral n).allocateReg (intParamReg 5)]
      [(register .integral n).allocateStack offset]
  | stacked (arg : ArgLocation) (offset offset' : Nat) :
    Shift [arg.allocateStack offset] [arg.allocateStack offset']

theorem Round.shift {st₂' : ParamState} (h : Aligned st st')
    (hround : Round st arg locs st₂.intsUsed st₂.floatsUsed st₂.stackOffset)
    (hround' : Round st' arg locs' st₂'.intsUsed st₂'.floatsUsed st₂'.stackOffset) :
    Shift locs locs' ∧ Aligned st₂ st₂' ∨
      locs = [half 4, half 5] ∧ ∃ offset, locs' =
        [(register .integral 16).allocateStack offset] := by
  obtain ⟨hfloats, hints, hoffset⟩ := h
  generalize hi : st₂.intsUsed = i at hround
  generalize hf : st₂.floatsUsed = f at hround
  generalize ho : st₂.stackOffset = o at hround
  generalize hi' : st₂'.intsUsed = i' at hround'
  generalize hf' : st₂'.floatsUsed = f' at hround'
  generalize ho' : st₂'.stackOffset = o' at hround'
  cases hround with
  | gpr hn hlt =>
    cases hround' with
    | gpr _ hlt' =>
      have hnext : st'.intsUsed = st.intsUsed + 1 := by omega
      rw [hnext]
      exact .inl ⟨.gpr hn (by omega), by omega, by omega, by omega⟩
    | spill _ hge =>
      have hlast : st.intsUsed = 5 := by omega
      rw [hlast]
      exact .inl ⟨.spill hn, by omega, by omega, by omega⟩
    | pair => omega
    | spillPair => omega
  | pair hlt =>
    cases hround' with
    | gpr hn => omega
    | spill hn => omega
    | pair hlt' =>
      have hnext : st'.intsUsed = st.intsUsed + 1 := by omega
      rw [hnext]
      exact .inl ⟨.pair (by omega), by omega, by omega, by omega⟩
    | spillPair hge =>
      have hlast : st.intsUsed = 4 := by omega
      rw [hlast]
      exact .inr ⟨rfl, _, rfl⟩
  | xmm hlt =>
    cases hround' with
    | xmm _ =>
      rw [hfloats]
      exact .inl ⟨.xmm hlt, by omega, by omega, by omega⟩
    | spillFloat hge => omega
  | spill hn hge =>
    cases hround' with
    | gpr _ hlt' => omega
    | spill => exact .inl ⟨.stacked _ _ _, by omega, by omega, by omega⟩
    | pair => omega
    | spillPair => omega
  | spillPair hge =>
    cases hround' with
    | gpr hn => omega
    | spill hn => omega
    | pair hlt' => omega
    | spillPair => exact .inl ⟨.stacked _ _ _, by omega, by omega, by omega⟩
  | spillFloat hge =>
    cases hround' with
    | xmm hlt' => omega
    | spillFloat => exact .inl ⟨.stacked _ _ _, by omega, by omega, by omega⟩
  | @memory size align hsize halign =>
    cases hround' with
    | memory =>
      have hstart := alignUp_mono hoffset halign
      have hend := @alignUp_mono (alignUp st.stackOffset align + size)
        (alignUp st'.stackOffset align + size) (by omega) 8 (by omega)
      exact .inl ⟨.stacked _ _ _, by omega, by omega, by omega⟩

theorem Aligned.round (h : Aligned st st') (harg : Slot arg) :
    Shift (newLocs st arg) (newLocs st' arg) ∧
      Aligned (allocateParam st arg) (allocateParam st' arg) ∨
      newLocs st arg = [half 4, half 5] ∧ ∃ offset,
        newLocs st' arg = [(register .integral 16).allocateStack offset] :=
  (allocateParam_round st harg).shift h (allocateParam_round st' harg)

theorem Shift.length_eq (h : Shift locs locs') :
    locs.length = locs'.length := by
  cases h <;> rfl

inductive ShiftLoc (loc src : ArgLocation) : Prop
  | moved {r r' : ArgReg} (hloc : loc.isStack = false) (hr : loc.reg = some r)
    (hsrc : src.isStack = false)
      (hr' : src.reg = some r') (hkind : loc.kind = .float ∧ loc.width = loc.bytes ∨
        loc.kind = .integral ∧ loc.width = 8)
  | loaded {r : ArgReg} (hloc : loc.isStack = false) (hr : loc.reg = some r)
    (hsrc : src.isStack = true)
      (hwidth : loc.width = 8) (hsize : src.size ≤ 8) (halign : src.align ≤ 8)
  | stacked (hloc : loc.isStack = true) (hsrc : src.isStack = true)

theorem Shift.loc {srcs : List ArgLocation} (h : Shift locs srcs) :
    ∀ p ∈ locs.zip srcs, p.1.width = p.2.width ∧ ShiftLoc p.1 p.2 := by
  cases h with
  | @gpr n i hn hi =>
    obtain ⟨r, hr⟩ := intParamReg_lt (Nat.lt_succ_of_lt hi)
    obtain ⟨r', hr'⟩ := intParamReg_lt (Nat.succ_lt_succ hi)
    exact List.forall_mem_singleton.mpr ⟨rfl, .moved rfl hr rfl hr' (.inr ⟨rfl, width_integral hn⟩)⟩
  | @pair i hi =>
    obtain ⟨r₀, hr₀⟩ := intParamReg_lt (i := i) (by change i < 6; omega)
    obtain ⟨r₁, hr₁⟩ := intParamReg_lt (i := i + 1) (by change i + 1 < 6; omega)
    obtain ⟨r₂, hr₂⟩ := intParamReg_lt (i := i + 2) (by change i + 2 < 6; omega)
    refine List.forall_mem_cons.mpr ⟨?_, List.forall_mem_singleton.mpr ?_⟩
    · exact ⟨rfl, .moved rfl hr₀ rfl hr₁ (.inr ⟨rfl, rfl⟩)⟩
    · exact ⟨rfl, .moved rfl hr₁ rfl hr₂ (.inr ⟨rfl, rfl⟩)⟩
  | @xmm n i hi =>
    obtain ⟨r, hr⟩ := floatReg_lt hi
    exact List.forall_mem_singleton.mpr ⟨rfl, .moved rfl hr rfl hr (.inl ⟨rfl, rfl⟩)⟩
  | spill hn =>
    exact List.forall_mem_singleton.mpr ⟨rfl, .loaded rfl rfl rfl (width_integral hn) hn hn⟩
  | stacked => exact List.forall_mem_singleton.mpr ⟨rfl, .stacked rfl rfl⟩

def pairedGroups (st st' : ParamState) (args : List ArgLocation) :
    List (List ArgLocation × List ArgLocation) :=
  (paramGroups st args).zip (paramGroups st' args)

theorem Aligned.shifts (h : Aligned st st') (hargs : ∀ arg ∈ args, Slot arg)
    (hlen : ∀ g ∈ pairedGroups st st' args, g.1.length = g.2.length) :
    (∀ g ∈ pairedGroups st st' args, Shift g.1 g.2) ∧
      Aligned (args.foldl allocateParam st) (args.foldl allocateParam st') := by
  induction args generalizing st st' with
  | nil => exact ⟨by simp [pairedGroups, paramGroups], h⟩
  | cons arg args ih =>
    rw [List.forall_mem_cons] at hargs
    simp only [pairedGroups, paramGroups, List.zip_cons_cons, List.forall_mem_cons] at hlen ⊢
    rcases h.round hargs.1 with ⟨hshift, hnext⟩ | ⟨hlocs, offset, hlocs'⟩
    · obtain ⟨hshifts, hend⟩ := ih hnext hargs.2 hlen.2
      exact ⟨⟨hshift, hshifts⟩, hend⟩
    · rw [hlocs, hlocs'] at hlen
      cases hlen.1

/-! ### The signature with the pointer -/

def prepended (sig : AbiSignature) : AbiSignature where
  args := register .integral 8 :: sig.args
  ret := sig.ret
  args_slots := List.forall_mem_cons.mpr ⟨.integral le_rfl, sig.args_slots⟩
  ret_slots := sig.ret_slots

def pointerParams (sig : AbiSignature) :
    ParamState := allocateParam (initialParams sig.ret) (register .integral 8)

def shiftedGroups (sig : AbiSignature) : List (List ArgLocation × List ArgLocation) :=
  pairedGroups (initialParams sig.ret) (pointerParams sig) sig.args

theorem initialParams_aligned (sig : AbiSignature) :
    Aligned (initialParams sig.ret) (pointerParams sig) := by
  unfold pointerParams initialParams
  split
  · exact ⟨rfl, .inl (by decide), le_rfl⟩
  · exact ⟨rfl, .inl (by decide), le_rfl⟩

theorem params_eq (sig : AbiSignature) : (allocateParamLocations sig).1 =
    (initialParams sig.ret).args ++ (paramGroups (initialParams sig.ret) sig.args).flatten :=
  foldl_allocateParam_groups _ _

theorem prepended_params_eq (sig : AbiSignature) : (allocateParamLocations (prepended sig)).1 =
    (initialParams sig.ret).args ++ newLocs (initialParams sig.ret) (register .integral 8) ++
      (paramGroups (pointerParams sig) sig.args).flatten := by
  rw [← allocateParam_newLocs]
  exact foldl_allocateParam_groups sig.args (pointerParams sig)

def pointerReg (sig : AbiSignature) : ArgReg := if 0 < (stackSizes sig).returnSize then .gpr .rsi
    else .gpr .rdi

theorem newLocs_pointer (sig : AbiSignature) :
    newLocs (initialParams sig.ret) (register .integral 8) =
      [(register .integral 8).allocateReg (some (pointerReg sig))] := by
  unfold pointerReg
  by_cases hret : 0 < (stackSizes sig).returnSize
  · rw [if_pos hret, initialParams, if_pos ((returnSize_pos_iff sig).mp hret)]
    rfl
  · rw [if_neg hret, initialParams, if_neg fun h => hret ((returnSize_pos_iff sig).mpr h)]
    rfl

theorem length_initialParams (sig : AbiSignature) :
    (initialParams sig.ret).args.length = if 0 < (stackSizes sig).returnSize then 1 else 0 := by
  by_cases hret : 0 < (stackSizes sig).returnSize
  · rw [if_pos hret, initialParams, if_pos ((returnSize_pos_iff sig).mp hret)]
    rfl
  · rw [if_neg hret, initialParams, if_neg fun h => hret ((returnSize_pos_iff sig).mpr h)]
    rfl

theorem copyWrapperArgs_eq (sig : AbiSignature) :
    copyWrapperArgs (stackSizes sig) (allocateParamLocations (prepended sig)).1
      (allocateParamLocations sig).1 =
      (moveArgs (stackSizes sig).argPadding (paramGroups (pointerParams sig) sig.args).flatten
        (paramGroups (initialParams sig.ret) sig.args).flatten).map
          (moveReg (pointerReg sig) (.gpr .r12) :: ·) := by
  have hdrop : ∀ l, ((initialParams sig.ret).args ++ l).drop
      (if 0 < (stackSizes sig).returnSize then 1 else 0) = l := by
    intro l
    rw [← length_initialParams, List.drop_left]
  rw [copyWrapperArgs, prepended_params_eq, params_eq, List.append_assoc, hdrop, hdrop,
    newLocs_pointer]
  exact (Option.map_eq_bind).symm

def fetchOffset (argPadding : Nat) (src : ArgLocation) : Nat :=
  alignUp (savedBytes + argPadding + src.stackOffset + src.size) (max src.align 8)

def LocShifts (sig : AbiSignature) (loc src : ArgLocation) : Prop :=
  if loc.isStack then
    loc.width = 0 ∨ src.isStack = true ∧ src.stackOffset + (stackSizes sig).argSize =
      loc.stackOffset + (allocateParamLocations (prepended sig)).2 ∧ loc.stackOffset + loc.width ≤
      (stackSizes sig).argBytes
  else if src.isStack then
    0 < (stackSizes sig).argSize ∧ fetchOffset (stackSizes sig).argPadding src =
      savedBytes + 8 + src.stackOffset
  else loc.kind = .float → loc.bytes ≤ 8
deriving Decidable

/-- The moves fill every location of every argument. -/
def Shifts (sig : AbiSignature) : Prop :=
  ∀ g ∈ shiftedGroups sig, g.1.length = g.2.length ∧ ∀ p ∈ g.1.zip g.2, LocShifts sig p.1 p.2
deriving Decidable

end Ia2.Rewriter
