import Ia2.Arm.GenCallAsm
import Mathlib.Algebra.BigOperators.Group.List.Basic

/-!
# Locations on AArch64

What the two allocation loops can produce. `Round` has a case for every way in which a round of the
parameter loop places an argument; facts about all locations of a signature come from it by
`exists_round`.
-/

namespace Ia2.Arm

open Rewriter (ArgLocation Slot alignUp)
open Rewriter.ArgLocation (register indirect)

inductive Word : ArgLocation → Prop where
  | integral {n : Nat} : n ≤ 8 → Word (register .integral n)
  | indirect {size align : Nat} : 0 < size → 0 < align → Word (indirect size align)

variable {i f o : Nat} {arg : ArgLocation} {locs : List Location} {st : ParamState} {loc : Location}

theorem intReg_lt (hi : i < 8) : ∃ r ∈ intParamRegOrder, intReg i = some (.x r) := by
  revert i
  decide

theorem floatReg_lt (hi : i < 8) : ∃ r ∈ floatRegOrder, floatReg i = some (.q r) := by
  revert i
  decide

def half (i : Nat) : Location := { slot := register .integral 8, reg := intReg i }

inductive Round (st : ParamState) : ArgLocation → List Location → Nat → Nat → Nat → Prop where
  | word {arg : ArgLocation} : Word arg → st.intsUsed < 8 →
      Round st arg [⟨arg, intReg st.intsUsed⟩] (st.intsUsed + 1) st.floatsUsed st.stackOffset
  | pair : st.intsUsed + 1 < 8 →
      Round st (register .integral 16) [half st.intsUsed, half (st.intsUsed + 1)] (st.intsUsed + 2)
      st.floatsUsed st.stackOffset
  | vector (n : Nat) : st.floatsUsed < 8 →
      Round st (register .float n) [⟨register .float n, floatReg st.floatsUsed⟩] st.intsUsed
      (st.floatsUsed + 1) st.stackOffset
  | stackWord {arg : ArgLocation} : Word arg → 8 ≤ st.intsUsed →
      Round st arg [⟨arg.allocateStack st.stackOffset, none⟩] st.intsUsed st.floatsUsed
      (st.stackOffset + 8)
  | stackPair : 7 ≤ st.intsUsed →
      Round st (register .integral 16)
      [⟨(register .integral 16).allocateStack st.stackOffset, none⟩] st.intsUsed st.floatsUsed
        (st.stackOffset + 8)
  | stackVector (n : Nat) : 8 ≤ st.floatsUsed →
      Round st (register .float n) [⟨(register .float n).allocateStack st.stackOffset, none⟩]
      st.intsUsed st.floatsUsed
        (st.stackOffset + n)

theorem allocateParam_word (st : ParamState) (h : Word arg) :
    allocateParam st arg =
    if st.intsUsed < 8
      then { st with args := st.args ++ [⟨arg, intReg st.intsUsed⟩], intsUsed := st.intsUsed + 1 }
    else
      { st with
          args := st.args ++ [⟨arg.allocateStack st.stackOffset, none⟩]
          stackOffset := st.stackOffset + 8 } := by
  have hkind : arg.kind = .integral := by cases h <;> rfl
  have hword : arg.size ≤ 8 ∨ arg.isIndirect = true := by
    cases h with
    | integral hn => exact .inl hn
    | indirect => exact .inr rfl
  unfold allocateParam
  simp only [hkind, hword, true_and, show intParamRegOrder.length = 8 from rfl]
  split
  · rfl
  · rw [if_neg (by omega)]
    rfl

theorem allocateParam_wide (st : ParamState) : allocateParam st (register .integral 16) =
    if st.intsUsed + 1 < 8 then
      { st with
          args := st.args ++ [half st.intsUsed, half (st.intsUsed + 1)]
          intsUsed := st.intsUsed + 2 }
    else
      { st with
          args := st.args ++ [⟨(register .integral 16).allocateStack st.stackOffset, none⟩]
          stackOffset := st.stackOffset + 8 } := by
  have hnot : ¬ ((register .integral 16).size ≤ 8 ∨ (register .integral 16).isIndirect = true) := by
    decide
  unfold allocateParam
  simp only [show (register .integral 16).kind = .integral from rfl, hnot, false_and, if_false,
    show intParamRegOrder.length = 8 from rfl]
  rfl

theorem allocateParam_float (st : ParamState) (n : Nat) : allocateParam st (register .float n) =
    if st.floatsUsed < 8 then
      { st with
          args := st.args ++ [⟨register .float n, floatReg st.floatsUsed⟩]
          floatsUsed := st.floatsUsed + 1 }
    else
      { st with
          args := st.args ++ [⟨(register .float n).allocateStack st.stackOffset, none⟩]
          stackOffset := st.stackOffset + n } :=
  rfl

theorem allocateParam_round (st : ParamState) (harg : Slot arg) :
    ∃ locs i f o, allocateParam st arg = ⟨st.args ++ locs, i, f, o⟩ ∧ Round st arg locs i f o := by
  have hword : ∀ {arg}, Word arg → ∃ locs i f o, allocateParam st arg = ⟨st.args ++ locs, i, f, o⟩ ∧
      Round st arg locs i f o := by
    intro arg h
    rw [allocateParam_word st h]
    by_cases hi : st.intsUsed < 8
    · rw [if_pos hi]
      exact ⟨_, _, _, _, rfl, .word h hi⟩
    · rw [if_neg hi]
      exact ⟨_, _, _, _, rfl, .stackWord h (by omega)⟩
  cases harg with
  | integral hn => exact hword (.integral hn)
  | indirect hsize halign => exact hword (.indirect hsize halign)
  | wide =>
    rw [allocateParam_wide]
    by_cases hi : st.intsUsed + 1 < 8
    · rw [if_pos hi]
      exact ⟨_, _, _, _, rfl, .pair hi⟩
    · rw [if_neg hi]
      exact ⟨_, _, _, _, rfl, .stackPair (by omega)⟩
  | float n =>
    rw [allocateParam_float]
    by_cases hf : st.floatsUsed < 8
    · rw [if_pos hf]
      exact ⟨_, _, _, _, rfl, .vector n hf⟩
    · rw [if_neg hf]
      exact ⟨_, _, _, _, rfl, .stackVector n (by omega)⟩

/-! ### All locations of a signature -/

def newLocs (st : ParamState) (arg : ArgLocation) : List Location :=
  (allocateParam st arg).args.drop st.args.length

def paramGroups : ParamState → List ArgLocation → List (ArgLocation × List Location)
  | _, [] => []
  | st, arg :: args => (arg, newLocs st arg) :: paramGroups (allocateParam st arg) args

theorem newLocs_eq (h : allocateParam st arg = ⟨st.args ++ locs, i, f, o⟩) :
    newLocs st arg = locs := by
  rw [newLocs, h]
  exact List.drop_left

theorem newLocs_round (st : ParamState) (harg : Slot arg) :
    (allocateParam st arg).args = st.args ++ newLocs st arg ∧
      Round st arg (newLocs st arg) (allocateParam st arg).intsUsed
        (allocateParam st arg).floatsUsed
        (allocateParam st arg).stackOffset := by
  obtain ⟨locs, i, f, o, heq, hround⟩ := allocateParam_round st harg
  rw [newLocs_eq heq, heq]
  exact ⟨rfl, hround⟩

variable {args : List ArgLocation} {sig : AbiSignature}

theorem foldl_args (hargs : ∀ arg ∈ args, Slot arg) (st : ParamState) :
    (args.foldl allocateParam st).args = st.args ++ (paramGroups st args).flatMap Prod.snd := by
  induction args generalizing st with
  | nil => simp [paramGroups]
  | cons arg args ih =>
    rw [List.forall_mem_cons] at hargs
    rw [List.foldl_cons, ih hargs.2, (newLocs_round st hargs.1).1, paramGroups, List.flatMap_cons,
      List.append_assoc]

theorem Round.stackOffset_le (h : Round st arg locs i f o) : st.stackOffset ≤ o := by
  cases h <;> omega

theorem stackOffset_le_foldl (hargs : ∀ arg ∈ args, Slot arg) (st : ParamState) :
    st.stackOffset ≤ (args.foldl allocateParam st).stackOffset := by
  induction args generalizing st with
  | nil => exact le_rfl
  | cons arg args ih =>
    rw [List.forall_mem_cons] at hargs
    exact (newLocs_round st hargs.1).2.stackOffset_le.trans (ih hargs.2 _)

theorem exists_round (hargs : ∀ arg ∈ args, Slot arg) (h : (arg, locs) ∈ paramGroups st args) :
    ∃ st' i f o, Round st' arg locs i f o ∧ st.stackOffset ≤ st'.stackOffset ∧
      o ≤ (args.foldl allocateParam st).stackOffset := by
  induction args generalizing st with
  | nil => cases h
  | cons arg' args ih =>
    rw [List.forall_mem_cons] at hargs
    have hround := (newLocs_round st hargs.1).2
    rcases List.mem_cons.mp h with heq | h
    · obtain ⟨rfl, rfl⟩ := Prod.mk.inj heq
      exact ⟨st, _, _, _, hround, le_rfl, stackOffset_le_foldl hargs.2 _⟩
    · obtain ⟨st', i, f, o, hround', hle, hend⟩ := ih hargs.2 h
      exact ⟨st', i, f, o, hround', hround.stackOffset_le.trans hle, hend⟩

theorem mem_paramGroups (h : arg ∈ args) (st : ParamState) :
    ∃ locs, (arg, locs) ∈ paramGroups st args := by
  induction args generalizing st with
  | nil => cases h
  | cons arg' args ih =>
    rcases List.mem_cons.mp h with rfl | h
    · exact ⟨_, List.mem_cons_self⟩
    · obtain ⟨locs, hlocs⟩ := ih h (allocateParam st arg')
      exact ⟨locs, List.mem_cons_of_mem _ hlocs⟩

theorem fst_mem_of_mem_paramGroups (h : (arg, locs) ∈ paramGroups st args) :
    arg ∈ args := by
  induction args generalizing st with
  | nil => cases h
  | cons arg' args ih =>
    rcases List.mem_cons.mp h with heq | h
    · exact (Prod.mk.inj heq).1 ▸ List.mem_cons_self
    · exact List.mem_cons_of_mem _ (ih h)

def argGroups (sig : AbiSignature) : List (ArgLocation × List Location) :=
  paramGroups (initialParams sig.ret) sig.args

theorem args_eq (sig : AbiSignature) :
    (allocateParamLocations sig).1 = (initialParams sig.ret).args ++
      (argGroups sig).flatMap Prod.snd :=
  foldl_args sig.args_slots _

theorem initialParams_cases (ret : List ArgLocation) :
    initialParams ret = { args := [⟨register .integral 8, some (.x 8)⟩] } ∨
      initialParams ret = {} := by
  unfold initialParams
  split
  · exact .inl rfl
  · exact .inr rfl

/-! ### Indirect arguments -/

theorem Round.isIndirect (h : Round st arg locs i f o) :
    ∀ loc ∈ locs, loc.isIndirect = arg.isIndirect := by
  cases h with
  | pair => exact List.forall_mem_cons.mpr ⟨rfl, List.forall_mem_singleton.mpr rfl⟩
  | _ => exact List.forall_mem_singleton.mpr rfl

theorem Round.of_isIndirect (h : Round st arg locs i f o) (harg : arg.isIndirect = true) :
    (st.intsUsed < 8 ∧ locs = [⟨arg, intReg st.intsUsed⟩]) ∨
      (locs = [⟨arg.allocateStack st.stackOffset, none⟩] ∧ o = st.stackOffset + 8) := by
  cases h with
  | word _ hi => exact .inl ⟨hi, rfl⟩
  | stackWord => exact .inr ⟨rfl, rfl⟩
  | pair | vector | stackPair | stackVector => cases harg

theorem mem_args_of_isIndirect (hloc : loc ∈ (allocateParamLocations sig).1)
    (h : loc.isIndirect = true) :
    ∃ arg, (arg, [loc]) ∈ argGroups sig ∧ arg.isIndirect = true := by
  rw [args_eq] at hloc
  rcases List.mem_append.mp hloc with hloc | hloc
  · rcases initialParams_cases sig.ret with heq | heq <;> rw [heq] at hloc
    · obtain rfl := List.mem_singleton.mp hloc
      cases h
    · cases hloc
  · obtain ⟨⟨arg, locs⟩, hg, hloc⟩ := List.mem_flatMap.mp hloc
    obtain ⟨st', i, f, o, hround, -, -⟩ := exists_round sig.args_slots hg
    have harg : arg.isIndirect = true := (hround.isIndirect loc hloc).symm.trans h
    rcases hround.of_isIndirect harg with ⟨-, rfl⟩ | ⟨rfl, -⟩ <;>
    · obtain rfl := List.mem_singleton.mp hloc
      exact ⟨arg, hg, harg⟩

theorem indirect_location (harg : arg ∈ sig.args) (h : arg.isIndirect = true) :
    ∃ loc ∈ (allocateParamLocations sig).1, loc.isIndirect = true ∧ loc.align = arg.align := by
  obtain ⟨locs, hg⟩ := mem_paramGroups harg (initialParams sig.ret)
  obtain ⟨st', i, f, o, hround, -, -⟩ := exists_round sig.args_slots hg
  have hmem : ∀ loc ∈ locs, loc ∈ (allocateParamLocations sig).1 := fun loc hloc => by
    rw [args_eq]
    exact List.mem_append_right _ (List.mem_flatMap.mpr ⟨_, hg, hloc⟩)
  rcases hround.of_isIndirect h with ⟨-, rfl⟩ | ⟨rfl, -⟩
  · exact ⟨_, hmem _ (List.mem_singleton_self _), h, rfl⟩
  · exact ⟨_, hmem _ (List.mem_singleton_self _), h, rfl⟩

theorem align_of_isIndirect (hg : (arg, [loc]) ∈ argGroups sig) (h : arg.isIndirect = true) :
    loc.align = arg.align := by
  obtain ⟨st', i, f, o, hround, -, -⟩ := exists_round sig.args_slots hg
  rcases hround.of_isIndirect h with ⟨-, heq⟩ | ⟨heq, -⟩
  · rw [List.singleton_inj.mp heq]
    rfl
  · rw [List.singleton_inj.mp heq]
    rfl

theorem indirect_facts (hloc : loc ∈ (allocateParamLocations sig).1) (h : loc.isIndirect = true) :
    0 < loc.size ∧ 0 < loc.align ∧
      (loc.isStack = false ∧ (∃ r ∈ intParamRegOrder, loc.reg = some (.x r)) ∨
        loc.isStack = true ∧ loc.stackOffset + 8 ≤ (allocateParamLocations sig).2) := by
  obtain ⟨arg, hg, harg⟩ := mem_args_of_isIndirect hloc h
  obtain ⟨st', i, f, o, hround, -, hend⟩ := exists_round sig.args_slots hg
  obtain ⟨size, align, hsize, halign, rfl⟩ : ∃ size align,
      0 < size ∧ 0 < align ∧ arg = indirect size align := by
    have hslot := sig.args_slots arg (fst_mem_of_mem_paramGroups hg)
    cases hslot with
    | indirect hsize halign => exact ⟨_, _, hsize, halign, rfl⟩
    | integral | wide | float => cases harg
  rcases hround.of_isIndirect harg with ⟨hi, heq⟩ | ⟨heq, rfl⟩
  · obtain rfl := List.singleton_inj.mp heq
    obtain ⟨r, hr, hreg⟩ := intReg_lt hi
    refine ⟨?_, halign, .inl ⟨rfl, r, hr, hreg⟩⟩
    rw [Location.size, Location.is128bitFloat, hreg]
    exact hsize
  · obtain rfl := List.singleton_inj.mp heq
    exact ⟨hsize, halign, .inr ⟨rfl, hend⟩⟩

end Ia2.Arm
