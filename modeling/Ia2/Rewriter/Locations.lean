import Ia2.Rewriter.GenCallAsm

/-!
# Locations and sizes of a signature

What holds of the locations and sizes of every signature: which registers carry arguments and
results, that a result in memory takes `rdi`, and that the space on the target's stack leaves the
stack pointer aligned for the call.
-/

namespace Ia2.Rewriter

open X86 ArgLocation

/-! ### Sizes -/

/-- The bytes of the target's stack that the stack arguments take. -/
def StackSizes.argBytes (z : StackSizes) : Nat := z.argSize + z.argPadding

def StackSizes.returnBytes (z : StackSizes) : Nat :=
  if 0 < z.returnSize then z.returnSize + z.returnPadding + 8 else 0

/-- The bytes of the target's stack between its old top and the stack pointer at the call. -/
def StackSizes.space (z : StackSizes) : Nat := z.returnBytes + z.alignment + z.argBytes

theorem StackSizes.space_eq (z : StackSizes) :
    z.space = z.returnBytes + z.alignment + z.argBytes :=
  rfl

theorem stackSizes_argBytes (sig : AbiSignature) :
    (stackSizes sig).argBytes = 8 * (((stackSizes sig).argSize + 7) / 8) := by
  simp only [StackSizes.argBytes, stackSizes]
  split <;> omega

theorem stackSizes_returnBytes_mod (sig : AbiSignature) :
    (stackSizes sig).returnBytes % 16 = 0 := by
  simp only [StackSizes.returnBytes, stackSizes]
  split
  · split <;> omega
  · rfl

theorem stackSizes_alignment_eq (sig : AbiSignature) :
    (stackSizes sig).alignment = ((stackSizes sig).returnBytes + (stackSizes sig).argBytes + 8) %
      16 := by
  simp only [StackSizes.returnBytes, StackSizes.argBytes, stackSizes]
  by_cases hret : 0 < stackReturnSize (allocateReturnLocations sig)
  · simp only [hret, if_true, true_and]
    congr 1
    omega
  · simp only [hret, if_false, false_and]
    congr 1
    omega

theorem stackSizes_alignment (sig : AbiSignature) :
    (stackSizes sig).alignment = 0 ∨ (stackSizes sig).alignment = 8 := by
  have hargs := stackSizes_argBytes sig
  have hret := stackSizes_returnBytes_mod sig
  have halign := stackSizes_alignment_eq sig
  omega

theorem stackSizes_space_mod (sig : AbiSignature) : (stackSizes sig).space % 16 = 8 := by
  have hargs := stackSizes_argBytes sig
  have hret := stackSizes_returnBytes_mod sig
  have halign := stackSizes_alignment_eq sig
  rw [StackSizes.space]
  omega

/-! ### Parameters -/

def paramRegs : List ArgReg := intParamRegOrder.map .gpr ++ floatRegOrder.map .xmm

variable {i : Nat} {r : ArgReg} {loc : ArgLocation}

theorem intParamReg_mem (h : intParamReg i = some r) : r ∈ paramRegs := by
  obtain ⟨r', hr', rfl⟩ := Option.map_eq_some_iff.mp h
  exact List.mem_append_left _ (List.mem_map_of_mem (List.mem_of_getElem? hr'))

theorem floatReg_mem (h : floatReg i = some r) : r ∈ paramRegs := by
  obtain ⟨r', hr', rfl⟩ := Option.map_eq_some_iff.mp h
  exact List.mem_append_right _ (List.mem_map_of_mem (List.mem_of_getElem? hr'))

theorem intParamReg_lt (h : i < intParamRegOrder.length) : ∃ r, intParamReg i = some r :=
  ⟨_, by rw [intParamReg, List.getElem?_eq_getElem h]; rfl⟩

theorem floatReg_lt (h : i < floatRegOrder.length) : ∃ r, floatReg i = some r :=
  ⟨_, by rw [floatReg, List.getElem?_eq_getElem h]; rfl⟩

def Placed (loc : ArgLocation) : Prop := loc.isStack = true ∨ ∃ r ∈ paramRegs, loc.reg = some r

theorem placed_allocateInt (loc : ArgLocation) (h : i < intParamRegOrder.length) :
    Placed (loc.allocateReg (intParamReg i)) := by
  obtain ⟨r, hr⟩ := intParamReg_lt h
  exact .inr ⟨r, intParamReg_mem hr, hr⟩

theorem allocateParam_args (st : ParamState) (arg : ArgLocation) :
    ∃ locs, (allocateParam st arg).args = st.args ++ locs ∧ ∀ loc ∈ locs, Placed loc := by
  simp only [allocateParam]
  generalize (if arg.isIndirect = true then stack arg.size arg.align else arg) = arg
  split
  · split
    · rename_i hreg
      exact ⟨_, rfl, by simpa using placed_allocateInt _ hreg.2⟩
    · split
      · rename_i _ hpair
        refine ⟨_, rfl, ?_⟩
        simp only [List.mem_cons, List.not_mem_nil, or_false, forall_eq_or_imp, forall_eq]
        exact ⟨placed_allocateInt _ (by omega), placed_allocateInt _ hpair⟩
      · exact ⟨_, rfl, by simp [Placed, allocateStack, isStack]⟩
  · split
    · rename_i hreg
      obtain ⟨r, hr⟩ := floatReg_lt hreg
      refine ⟨_, rfl, ?_⟩
      simp only [List.mem_singleton, forall_eq]
      exact .inr ⟨r, floatReg_mem hr, hr⟩
    · exact ⟨_, rfl, by simp [Placed, allocateStack, isStack]⟩
  · exact ⟨_, rfl, by simp [Placed, allocateStack, isStack]⟩

theorem foldl_allocateParam_args (args : List ArgLocation) (st : ParamState) :
    ∃ locs, (args.foldl allocateParam st).args = st.args ++ locs ∧ ∀ loc ∈ locs, Placed loc := by
  induction args generalizing st with
  | nil => exact ⟨[], by simp⟩
  | cons arg args ih =>
    obtain ⟨locs, hargs, hplaced⟩ := allocateParam_args st arg
    obtain ⟨locs', hargs', hplaced'⟩ := ih (allocateParam st arg)
    refine ⟨locs ++ locs', by rw [List.foldl_cons, hargs', hargs, List.append_assoc],
      fun loc hloc => ?_⟩
    rcases List.mem_append.mp hloc with hloc | hloc
    · exact hplaced loc hloc
    · exact hplaced' loc hloc

variable {sig : AbiSignature}

theorem placed_of_mem_params (h : loc ∈ (allocateParamLocations sig).1) :
    Placed loc := by
  obtain ⟨locs, hargs, hplaced⟩ := foldl_allocateParam_args sig.args (initialParams sig.ret)
  rw [allocateParamLocations, hargs] at h
  rcases List.mem_append.mp h with h | h
  · unfold initialParams at h
    split at h
    · obtain rfl := List.mem_singleton.mp h
      exact placed_allocateInt _ (by decide)
    · exact absurd h List.not_mem_nil
  · exact hplaced loc h

/-! ### Results -/

def returnRegs : List ArgReg := [.gpr .rax, .gpr .rdx, .xmm 0, .xmm 1]

theorem allocateReturn_integral (st : ReturnState) {n : Nat} (h : n ≤ 8) :
    allocateReturn st (register .integral n) =
      { st with
          args := st.args ++ [(register .integral n).allocateReg (intRetReg st.intsUsed)]
          intsUsed := st.intsUsed + 1 } :=
  if_pos (Or.inl h)

theorem allocateReturn_float (st : ReturnState) (n : Nat) :
    allocateReturn st (register .float n) =
      { st with
          args := st.args ++ [(register .float n).allocateReg (floatReg st.floatsUsed)]
          floatsUsed := st.floatsUsed + 1 } :=
  rfl

theorem allocateReturn_indirect (st : ReturnState) (size align : Nat) :
    allocateReturn st (indirect size align) =
      { st with
          args := st.args ++ [(indirect size align).allocateReg (intRetReg st.intsUsed)]
          intsUsed := st.intsUsed + 1 } :=
  if_pos (Or.inr rfl)

abbrev IsScalarSlot (slot : ArgLocation) :
    Prop := (∃ n, n ≤ 8 ∧ slot = register .integral n) ∨ ∃ n, slot = register .float n

theorem mem_foldl_allocateReturn {slots : List ArgLocation}
    (hscalar : ∀ slot ∈ slots, IsScalarSlot slot) {st : ReturnState}
    (h : loc ∈ (slots.foldl allocateReturn st).args) :
    loc ∈ st.args ∨ loc.isStack = false ∧ loc.isIndirect = false ∧
      ((∃ i, st.intsUsed ≤ i ∧ i < st.intsUsed + slots.countP (·.kind = .integral) ∧
        loc.reg = intRetReg i) ∨
        ∃ i, st.floatsUsed ≤ i ∧ i < st.floatsUsed + slots.countP (¬ ·.kind = .integral) ∧
          loc.reg = floatReg i) := by
  induction slots generalizing st with
  | nil => exact .inl h
  | cons slot slots ih =>
    rw [List.foldl_cons] at h
    have hrest : ∀ slot ∈ slots, IsScalarSlot slot :=
      fun slot hslot => hscalar slot (List.mem_cons_of_mem _ hslot)
    rcases hscalar slot List.mem_cons_self with ⟨n, hn, rfl⟩ | ⟨n, rfl⟩
    · rw [allocateReturn_integral st hn] at h
      rw [List.countP_cons_of_pos (by rfl), List.countP_cons_of_neg (by simp [register])]
      rcases ih hrest h with hloc | ⟨hstack, hindirect, ⟨i, hle, hlt, hreg⟩ | hreg⟩
      · rcases List.mem_append.mp hloc with hloc | hloc
        · exact .inl hloc
        · rw [List.mem_singleton.mp hloc]
          exact .inr ⟨rfl, rfl, .inl ⟨st.intsUsed, le_rfl, by omega, rfl⟩⟩
      · dsimp only at hle hlt
        exact .inr ⟨hstack, hindirect, .inl ⟨i, by omega, by omega, hreg⟩⟩
      · exact .inr ⟨hstack, hindirect, .inr hreg⟩
    · rw [allocateReturn_float] at h
      rw [List.countP_cons_of_neg (by simp [register]),
        List.countP_cons_of_pos (by simp [register])]
      rcases ih hrest h with hloc | ⟨hstack, hindirect, hreg | ⟨i, hle, hlt, hreg⟩⟩
      · rcases List.mem_append.mp hloc with hloc | hloc
        · exact .inl hloc
        · rw [List.mem_singleton.mp hloc]
          exact .inr ⟨rfl, rfl, .inr ⟨st.floatsUsed, le_rfl, by omega, rfl⟩⟩
      · exact .inr ⟨hstack, hindirect, .inl hreg⟩
      · dsimp only at hle hlt
        exact .inr ⟨hstack, hindirect, .inr ⟨i, by omega, by omega, hreg⟩⟩

theorem intRetReg_mem_returnRegs (hi : i < 2) :
    ∃ r ∈ returnRegs, intRetReg i = some r := by
  obtain rfl | rfl : i = 0 ∨ i = 1 := by omega
  · exact ⟨.gpr .rax, by decide, rfl⟩
  · exact ⟨.gpr .rdx, by decide, rfl⟩

theorem floatReg_mem_returnRegs (hi : i < 2) : ∃ r ∈ returnRegs, floatReg i = some r := by
  obtain rfl | rfl : i = 0 ∨ i = 1 := by omega
  · exact ⟨.xmm 0, by decide, rfl⟩
  · exact ⟨.xmm 1, by decide, rfl⟩

theorem return_cases (sig : AbiSignature) :
    (∃ size align, 0 < size ∧ sig.ret = [indirect size align] ∧
        allocateReturnLocations sig = [(indirect size align).allocateReg (some (.gpr .rax))]) ∨
      (sig.ret.any fun slot => slot.isStack || slot.isIndirect) = false ∧
        ∀ loc ∈ allocateReturnLocations sig, loc.isStack = false ∧ loc.isIndirect = false ∧
          ∃ r ∈ returnRegs, loc.reg = some r := by
  have hslots := sig.ret_slots
  unfold allocateReturnLocations
  generalize sig.ret = ret at hslots ⊢
  cases hslots with
  | void => exact .inr ⟨rfl, by simp⟩
  | @memory size align hsize halign =>
    exact .inl ⟨size, align, hsize, rfl, by rw [List.foldl_cons, allocateReturn_indirect]; rfl⟩
  | wide => exact .inr ⟨rfl, by decide⟩
  | scalars hlen hscalar =>
    refine .inr ⟨?_, ?_⟩
    · rw [List.any_eq_false]
      intro slot hslot
      rcases hscalar slot hslot with ⟨n, -, rfl⟩ | ⟨n, rfl⟩ <;> simp [register, isStack, isIndirect]
    · intro loc hloc
      rcases mem_foldl_allocateReturn hscalar hloc with hloc | ⟨hstack, hindirect, hreg⟩
      · exact absurd hloc List.not_mem_nil
      refine ⟨hstack, hindirect, ?_⟩
      rcases hreg with ⟨i, -, hi, hreg⟩ | ⟨i, -, hi, hreg⟩
      · rw [hreg]
        exact intRetReg_mem_returnRegs
          (hi.trans_le ((Nat.zero_add _).trans_le (List.countP_le_length.trans hlen)))
      · rw [hreg]
        exact floatReg_mem_returnRegs
          (hi.trans_le ((Nat.zero_add _).trans_le (List.countP_le_length.trans hlen)))

theorem mem_returnRegs (h : loc ∈ allocateReturnLocations sig) :
    loc.isStack = false ∧ ∃ r ∈ returnRegs, loc.reg = some r := by
  rcases return_cases sig with ⟨size, align, -, -, hrets⟩ | ⟨-, hrets⟩
  · rw [hrets, List.mem_singleton] at h
    subst h
    exact ⟨rfl, .gpr .rax, by simp [returnRegs], rfl⟩
  · exact ⟨(hrets loc h).1, (hrets loc h).2.2⟩

theorem returnSize_pos_iff (sig : AbiSignature) :
    0 < (stackSizes sig).returnSize ↔ (sig.ret.any fun slot => slot.isStack || slot.isIndirect) =
      true := by
  change 0 < stackReturnSize (allocateReturnLocations sig) ↔ _
  rcases return_cases sig with ⟨size, align, hsize, hret, hrets⟩ | ⟨hret, hrets⟩
  · rw [hret, hrets]
    simpa [stackReturnSize, indirect, allocateReg, isStack, isIndirect, ArgLocation.size,
      is128bitFloat] using hsize
  · have hnone : (allocateReturnLocations sig).filter (fun x => x.isStack || x.isIndirect) =
        [] := by
      rw [List.filter_eq_nil_iff]
      intro loc hloc
      simp [hrets loc hloc]
    simp [stackReturnSize, hnone, hret]

theorem params_of_returnSize {sig : AbiSignature} (h : 0 < (stackSizes sig).returnSize) :
    ∃ locs, (allocateParamLocations sig).1 = (register .integral 8).allocateReg
      (some (.gpr .rdi)) :: locs := by
  have hmemory := (returnSize_pos_iff sig).mp h
  obtain ⟨locs, hargs, -⟩ := foldl_allocateParam_args sig.args (initialParams sig.ret)
  refine ⟨locs, ?_⟩
  rw [allocateParamLocations, hargs, initialParams, if_pos hmemory]
  rfl

theorem rax_mem_returns {sig : AbiSignature} (h : 0 < (stackSizes sig).returnSize) :
    ∃ loc ∈ allocateReturnLocations sig, loc.reg = some (.gpr .rax) := by
  rcases return_cases sig with ⟨size, align, -, -, hrets⟩ | ⟨hret, -⟩
  · exact ⟨_, by rw [hrets]; exact List.mem_singleton_self _, rfl⟩
  · exact absurd ((returnSize_pos_iff sig).mp h) (by simp [hret])

end Ia2.Rewriter
