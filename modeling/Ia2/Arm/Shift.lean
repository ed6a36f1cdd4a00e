import Ia2.Arm.Locations
import Ia2.Rewriter.Shift

/-!
# A pointer before the arguments on AArch64

The locations of the arguments of an indirect call, once as the function takes them and once with
the pointer to the function before them. `Phase` relates the variables of the two allocation loops,
and `Shift` says what the two loops give for one argument. As a 16-byte integer on the stack leaves
the last register free, the second loop can give that register to an argument that the first loop
puts on the stack.
-/

namespace Ia2.Arm

open Rewriter (ArgLocation Slot)
open Rewriter.ArgLocation (register indirect)

def prepended (sig : AbiSignature) : AbiSignature where
  args := register .integral 8 :: sig.args
  ret := sig.ret
  args_slots := List.forall_mem_cons.mpr ⟨.integral le_rfl, sig.args_slots⟩
  ret_slots := sig.ret_slots

def pointerParams (ret : List ArgLocation) :
    ParamState := allocateParam (initialParams ret) (register .integral 8)

def pairGroups :
    ParamState → ParamState → List ArgLocation → List (ArgLocation × List Location × List Location)
  | _, _, [] => []
  | st, st', arg :: args =>
    (arg, newLocs st arg, newLocs st' arg) :: pairGroups (allocateParam st arg)
      (allocateParam st' arg) args

def siteGroups (sig : AbiSignature) : List (ArgLocation × List Location × List Location) :=
  pairGroups (initialParams sig.ret) (pointerParams sig.ret) sig.args

def Location.width (loc : Location) : Nat := if loc.isIndirect then 8 else loc.slot.width

/-! ### Two loops over the same slots -/

structure Phase (st st' : ParamState) : Prop where
  floats : st'.floatsUsed = st.floatsUsed
  ints : st.intsUsed ≤ 7 ∧ st'.intsUsed = st.intsUsed + 1 ∧ st'.stackOffset = st.stackOffset ∨
    st.intsUsed = 8 ∧ st'.intsUsed = 8 ∧
    (st'.stackOffset = st.stackOffset ∨ st'.stackOffset = st.stackOffset + 8) ∨
    st.intsUsed = 8 ∧ st'.intsUsed = 7 ∧ st'.stackOffset = st.stackOffset + 8

inductive Shift : ArgLocation → List Location → List Location → Prop where
  | word {arg : ArgLocation} {k : Nat} : Word arg → k < 7 →
    Shift arg [⟨arg, intReg k⟩] [⟨arg, intReg (k + 1)⟩]
  | spill {arg : ArgLocation} {o : Nat} : Word arg →
    Shift arg [⟨arg, intReg 7⟩] [⟨arg.allocateStack o, none⟩]
  | unspill {arg : ArgLocation} {o : Nat} : Word arg →
    Shift arg [⟨arg.allocateStack o, none⟩] [⟨arg, intReg 7⟩]
  | pair {k : Nat} : k < 6 → Shift (register .integral 16) [half k, half (k + 1)]
    [half (k + 1), half (k + 2)]
  | split {o : Nat} : Shift (register .integral 16) [half 6, half 7]
    [⟨(register .integral 16).allocateStack o, none⟩]
  | vector {n i : Nat} : i < 8 → Shift (register .float n) [⟨register .float n, floatReg i⟩]
    [⟨register .float n, floatReg i⟩]
  | stacked {arg : ArgLocation} {o o' : Nat} : Slot arg →
    Shift arg [⟨arg.allocateStack o, none⟩] [⟨arg.allocateStack o', none⟩]

section Rounds

variable {st st' : ParamState}
variable {arg : ArgLocation}

theorem newLocs_word (st : ParamState) (h : Word arg) :
    newLocs st arg = if st.intsUsed < 8 then [⟨arg, intReg st.intsUsed⟩]
      else [⟨arg.allocateStack st.stackOffset, none⟩] := by
  rw [newLocs, allocateParam_word st h]
  split <;> exact List.drop_left

theorem newLocs_wide (st : ParamState) : newLocs st (register .integral 16) =
    if st.intsUsed + 1 < 8 then [half st.intsUsed, half (st.intsUsed + 1)]
    else [⟨(register .integral 16).allocateStack st.stackOffset, none⟩] := by
  rw [newLocs, allocateParam_wide]
  split <;> exact List.drop_left

theorem newLocs_float (st : ParamState) (n : Nat) : newLocs st (register .float n) =
    if st.floatsUsed < 8 then [⟨register .float n, floatReg st.floatsUsed⟩]
    else [⟨(register .float n).allocateStack st.stackOffset, none⟩] := by
  rw [newLocs, allocateParam_float]
  split <;> exact List.drop_left

theorem Word.slot (h : Word arg) : Slot arg := by
  cases h with
  | integral hn => exact .integral hn
  | indirect hsize halign => exact .indirect hsize halign

theorem Word.isStack (h : Word arg) : arg.isStack = false := by cases h <;> rfl

theorem shift_word (hphase : Phase st st') (h : Word arg) :
    Shift arg (newLocs st arg) (newLocs st' arg) ∧
      Phase (allocateParam st arg) (allocateParam st' arg) := by
  obtain ⟨hfloats, hints⟩ := hphase
  rw [newLocs_word st h, newLocs_word st' h, allocateParam_word st h, allocateParam_word st' h]
  by_cases hi : st.intsUsed < 8
  · rw [if_pos hi, if_pos hi]
    by_cases hi' : st'.intsUsed < 8
    · rw [if_pos hi', if_pos hi', show st'.intsUsed = st.intsUsed + 1 by omega]
      exact ⟨.word h (by omega), hfloats, by dsimp only; omega⟩
    · rw [if_neg hi', if_neg hi', show st.intsUsed = 7 by omega]
      exact ⟨.spill h, hfloats, by dsimp only; omega⟩
  · rw [if_neg hi, if_neg hi]
    by_cases hi' : st'.intsUsed < 8
    · rw [if_pos hi', if_pos hi', show st'.intsUsed = 7 by omega]
      exact ⟨.unspill h, hfloats, by dsimp only; omega⟩
    · rw [if_neg hi', if_neg hi']
      exact ⟨.stacked h.slot, hfloats, by dsimp only; omega⟩

theorem shift_wide (hphase : Phase st st') :
    Shift (register .integral 16) (newLocs st (register .integral 16))
      (newLocs st' (register .integral 16)) ∧
    Phase (allocateParam st (register .integral 16))
      (allocateParam st' (register .integral 16)) := by
  obtain ⟨hfloats, hints⟩ := hphase
  rw [newLocs_wide st, newLocs_wide st', allocateParam_wide st, allocateParam_wide st']
  by_cases hi : st.intsUsed + 1 < 8
  · rw [if_pos hi, if_pos hi]
    by_cases hi' : st'.intsUsed + 1 < 8
    · rw [if_pos hi', if_pos hi', show st'.intsUsed = st.intsUsed + 1 by omega]
      exact ⟨.pair (by omega), hfloats, by dsimp only; omega⟩
    · rw [if_neg hi', if_neg hi', show st.intsUsed = 6 by omega]
      exact ⟨.split, hfloats, by dsimp only; omega⟩
  · have hi' : ¬ st'.intsUsed + 1 < 8 := by omega
    rw [if_neg hi, if_neg hi, if_neg hi', if_neg hi']
    exact ⟨.stacked .wide, hfloats, by dsimp only; omega⟩

theorem shift_float (hphase : Phase st st') (n : Nat) :
    Shift (register .float n) (newLocs st (register .float n))
      (newLocs st' (register .float n)) ∧
    Phase (allocateParam st (register .float n)) (allocateParam st' (register .float n)) := by
  obtain ⟨hfloats, hints⟩ := hphase
  rw [newLocs_float st, newLocs_float st', allocateParam_float st, allocateParam_float st', hfloats]
  by_cases hf : st.floatsUsed < 8
  · simp only [if_pos hf]
    exact ⟨.vector hf, rfl, hints⟩
  · simp only [if_neg hf]
    exact ⟨.stacked (.float n), rfl, by dsimp only; omega⟩

theorem shift_round (hphase : Phase st st') (harg : Slot arg) :
    Shift arg (newLocs st arg) (newLocs st' arg) ∧
      Phase (allocateParam st arg) (allocateParam st' arg) := by
  cases harg with
  | integral hn => exact shift_word hphase (.integral hn)
  | indirect hsize halign => exact shift_word hphase (.indirect hsize halign)
  | wide => exact shift_wide hphase
  | float n => exact shift_float hphase n

end Rounds

/-! ### All arguments -/

section Groups

variable {st st' : ParamState} {args : List ArgLocation}
  {g : ArgLocation × List Location × List Location}

theorem pairGroups_left (h : g ∈ pairGroups st st' args) : (g.1, g.2.1) ∈ paramGroups st args := by
  induction args generalizing st st' with
  | nil => cases h
  | cons arg args ih =>
    rcases List.mem_cons.mp h with rfl | h
    · exact List.mem_cons_self
    · exact List.mem_cons_of_mem _ (ih h)

theorem pairGroups_right (h : g ∈ pairGroups st st' args) :
    (g.1, g.2.2) ∈ paramGroups st' args := by
  induction args generalizing st st' with
  | nil => cases h
  | cons arg args ih =>
    rcases List.mem_cons.mp h with rfl | h
    · exact List.mem_cons_self
    · exact List.mem_cons_of_mem _ (ih h)

variable {arg : ArgLocation}

theorem exists_pairGroups {locs : List Location} (h : (arg, locs) ∈ paramGroups st args)
    (st' : ParamState) :
    ∃ srcs, (arg, locs, srcs) ∈ pairGroups st st' args := by
  induction args generalizing st st' with
  | nil => cases h
  | cons arg' args ih =>
    rcases List.mem_cons.mp h with heq | h
    · obtain ⟨rfl, rfl⟩ := Prod.mk.inj heq
      exact ⟨_, List.mem_cons_self⟩
    · obtain ⟨srcs, hg⟩ := ih h (allocateParam st' arg')
      exact ⟨srcs, List.mem_cons_of_mem _ hg⟩

theorem flatMap_locs (st st' : ParamState) (args : List ArgLocation) :
    (pairGroups st st' args).flatMap (fun g => g.2.1) = (paramGroups st args).flatMap Prod.snd := by
  induction args generalizing st st' with
  | nil => rfl
  | cons arg args ih => rw [pairGroups, paramGroups, List.flatMap_cons, List.flatMap_cons, ih]

theorem flatMap_srcs (st st' : ParamState) (args : List ArgLocation) :
    (pairGroups st st' args).flatMap (fun g => g.2.2) =
      (paramGroups st' args).flatMap Prod.snd := by
  induction args generalizing st st' with
  | nil => rfl
  | cons arg args ih => rw [pairGroups, paramGroups, List.flatMap_cons, List.flatMap_cons, ih]

section

variable (hargs : ∀ arg ∈ args, Slot arg) (hphase : Phase st st')

include hargs hphase

theorem shift_of_mem (h : g ∈ pairGroups st st' args) :
    Shift g.1 g.2.1 g.2.2 := by
  induction args generalizing st st' with
  | nil => cases h
  | cons arg args ih =>
    rw [List.forall_mem_cons] at hargs
    obtain ⟨hshift, hnext⟩ := shift_round hphase hargs.1
    rcases List.mem_cons.mp h with rfl | h
    · exact hshift
    · exact ih hargs.2 hnext h

theorem phase_foldl :
    Phase (args.foldl allocateParam st) (args.foldl allocateParam st') := by
  induction args generalizing st st' with
  | nil => exact hphase
  | cons arg args ih =>
    rw [List.forall_mem_cons] at hargs
    exact ih hargs.2 (shift_round hphase hargs.1).2

structure Spent (st st' : ParamState) : Prop where
  ints : st.intsUsed = 8
  ints' : st'.intsUsed = 8
  floats : st'.floatsUsed = st.floatsUsed

omit hargs hphase in
theorem Spent.next (h : Spent st st') (harg : Slot arg) :
    Spent (allocateParam st arg) (allocateParam st' arg) ∧
      (allocateParam st' arg).stackOffset + st.stackOffset = (allocateParam st arg).stackOffset +
        st'.stackOffset := by
  obtain ⟨hints, hints', hfloats⟩ := h
  have hword : ∀ {arg}, Word arg → Spent (allocateParam st arg) (allocateParam st' arg) ∧
      (allocateParam st' arg).stackOffset + st.stackOffset = (allocateParam st arg).stackOffset +
      st'.stackOffset := by
    intro arg h
    rw [allocateParam_word st h, allocateParam_word st' h, if_neg (by omega), if_neg (by omega)]
    exact ⟨⟨hints, hints', hfloats⟩, by dsimp only; omega⟩
  cases harg with
  | integral hn => exact hword (.integral hn)
  | indirect hsize halign => exact hword (.indirect hsize halign)
  | wide =>
    rw [allocateParam_wide st, allocateParam_wide st', if_neg (by omega), if_neg (by omega)]
    exact ⟨⟨hints, hints', hfloats⟩, by dsimp only; omega⟩
  | float n =>
    rw [allocateParam_float st, allocateParam_float st', hfloats]
    by_cases hf : st.floatsUsed < 8
    · simp only [if_pos hf]
      exact ⟨⟨hints, hints', rfl⟩, Nat.add_comm _ _⟩
    · simp only [if_neg hf]
      exact ⟨⟨hints, hints', rfl⟩, by omega⟩

omit hphase in
theorem Spent.stackOffset (h : Spent st st') :
    (args.foldl allocateParam st').stackOffset + st.stackOffset =
      (args.foldl allocateParam st).stackOffset + st'.stackOffset := by
  induction args generalizing st st' with
  | nil => exact Nat.add_comm _ _
  | cons arg args ih =>
    rw [List.forall_mem_cons] at hargs
    obtain ⟨hnext, hoffset⟩ := h.next hargs.1
    have hrest := ih hargs.2 hnext
    rw [List.foldl_cons, List.foldl_cons]
    omega

theorem stacked_word (hword : Word arg) {o o' : Nat}
    (h : (arg, [⟨arg.allocateStack o, none⟩], [⟨arg.allocateStack o', none⟩]) ∈
    pairGroups st st' args) :
    o' + (args.foldl allocateParam st).stackOffset =
      o + (args.foldl allocateParam st').stackOffset := by
  induction args generalizing st st' with
  | nil => cases h
  | cons arg' args ih =>
    rw [List.forall_mem_cons] at hargs
    rcases List.mem_cons.mp h with heq | h
    · obtain ⟨rfl, heq⟩ := Prod.mk.inj heq
      obtain ⟨hlocs, hsrcs⟩ := Prod.mk.inj heq
      rw [newLocs_word _ hword] at hlocs hsrcs
      have hne : ∀ {k m : Nat}, k < 8 → [(⟨arg.allocateStack m, none⟩ : Location)] ≠
          [⟨arg, intReg k⟩] := by
        intro k m hk heq
        obtain ⟨r, -, hr⟩ := intReg_lt hk
        have hreg := congrArg Location.reg (List.singleton_inj.mp heq)
        rw [hr] at hreg
        cases hreg
      have hi : ¬ st.intsUsed < 8 := fun hi => by
        rw [if_pos hi] at hlocs
        exact hne hi hlocs
      have hi' : ¬ st'.intsUsed < 8 := fun hi' => by
        rw [if_pos hi'] at hsrcs
        exact hne hi' hsrcs
      rw [if_neg hi] at hlocs
      rw [if_neg hi'] at hsrcs
      have ho : o = st.stackOffset := congrArg Location.stackOffset (List.singleton_inj.mp hlocs)
      have ho' : o' = st'.stackOffset := congrArg Location.stackOffset (List.singleton_inj.mp hsrcs)
      have hints := hphase.ints
      have hend := Spent.stackOffset (List.forall_mem_cons.mpr hargs)
        ⟨by omega, by omega, hphase.floats⟩
      omega
    · exact ih hargs.2 (shift_round hphase hargs.1).2 h

omit hargs in
theorem head_covered (harg : Slot arg) (hleft : (allocateParam st arg).intsUsed ≤ 7) :
    st.intsUsed ≤ (allocateParam st arg).intsUsed ∧ ∀ i, st.intsUsed ≤ i →
      i < (allocateParam st arg).intsUsed →
      (newLocs st arg).length = (newLocs st' arg).length ∧
        ∃ slot, (⟨slot, intReg i⟩, ⟨slot, intReg (i + 1)⟩) ∈
          (newLocs st arg).zip (newLocs st' arg) ∧ slot.isStack = false := by
  have hints := hphase.ints
  have hword : ∀ {arg}, Word arg → (allocateParam st arg).intsUsed ≤ 7 →
    st.intsUsed ≤ (allocateParam st arg).intsUsed ∧
      ∀ i, st.intsUsed ≤ i → i < (allocateParam st arg).intsUsed →
      (newLocs st arg).length = (newLocs st' arg).length ∧
        ∃ slot, (⟨slot, intReg i⟩, ⟨slot, intReg (i + 1)⟩) ∈
        (newLocs st arg).zip (newLocs st' arg) ∧ slot.isStack = false := by
    intro arg h hleft
    rw [allocateParam_word st h] at hleft ⊢
    rw [newLocs_word st h, newLocs_word st' h]
    by_cases hi : st.intsUsed < 8
    · rw [if_pos hi] at hleft ⊢
      dsimp only at hleft ⊢
      rw [if_pos hi, if_pos (by omega)]
      refine ⟨by omega, fun i hle hlt => ⟨rfl, arg, ?_, h.isStack⟩⟩
      rw [show i = st.intsUsed by omega, show st'.intsUsed = st.intsUsed + 1 by omega]
      exact List.mem_singleton_self _
    · rw [if_neg hi]
      exact ⟨le_rfl, fun i hle hlt => absurd hle (Nat.not_le.mpr hlt)⟩
  cases harg with
  | integral hn => exact hword (.integral hn) hleft
  | indirect hsize halign => exact hword (.indirect hsize halign) hleft
  | wide =>
    rw [allocateParam_wide st] at hleft ⊢
    rw [newLocs_wide st, newLocs_wide st']
    by_cases hi : st.intsUsed + 1 < 8
    · rw [if_pos hi] at hleft ⊢
      dsimp only at hleft ⊢
      rw [if_pos hi, if_pos (by omega)]
      refine ⟨by omega, fun i hle hlt => ⟨rfl, register .integral 8, ?_, rfl⟩⟩
      rw [show st'.intsUsed = st.intsUsed + 1 by omega]
      rcases (by omega : i = st.intsUsed ∨ i = st.intsUsed + 1) with rfl | rfl
      · exact List.mem_cons_self
      · exact List.mem_cons_of_mem _ (List.mem_singleton_self _)
    · rw [if_neg hi]
      exact ⟨le_rfl, fun i hle hlt => absurd hle (Nat.not_le.mpr hlt)⟩
  | float n =>
    have hsame : (allocateParam st (register .float n)).intsUsed = st.intsUsed := by
      rw [allocateParam_float]
      split <;> rfl
    rw [hsame]
    exact ⟨le_rfl, fun i hle hlt => absurd hle (Nat.not_le.mpr hlt)⟩

theorem covered (hword : Word arg) {k : Nat} (hk : k < 8) {srcs : List Location}
    (h : (arg, [⟨arg, intReg k⟩], srcs) ∈ pairGroups st st' args) :
    st.intsUsed ≤ k ∧ ∀ i, st.intsUsed ≤ i → i < k → ∃ g ∈ pairGroups st st' args,
      g.2.1.length = g.2.2.length ∧
      ∃ slot, (⟨slot, intReg i⟩, ⟨slot, intReg (i + 1)⟩) ∈ g.2.1.zip g.2.2 ∧
        slot.isStack = false := by
  induction args generalizing st st' with
  | nil => cases h
  | cons arg' args ih =>
    rw [List.forall_mem_cons] at hargs
    have hints := hphase.ints
    rcases List.mem_cons.mp h with heq | h
    · obtain ⟨rfl, heq⟩ := Prod.mk.inj heq
      have hlocs := (Prod.mk.inj heq).1
      rw [newLocs_word _ hword] at hlocs
      by_cases hi : st.intsUsed < 8
      · rw [if_pos hi] at hlocs
        have hreg := congrArg Location.reg (List.singleton_inj.mp hlocs)
        have hki := intReg_inj hk hi hreg
        exact ⟨by omega, fun i hle hlt => by omega⟩
      · rw [if_neg hi] at hlocs
        obtain ⟨r, -, hr⟩ := intReg_lt hk
        have hreg := congrArg Location.reg (List.singleton_inj.mp hlocs)
        rw [hr] at hreg
        cases hreg
    · obtain ⟨hle, hcov⟩ := ih hargs.2 (shift_round hphase hargs.1).2 h
      obtain ⟨hmono, hhead⟩ := head_covered hphase hargs.1 (by omega)
      refine ⟨hmono.trans hle, fun i hi hik => ?_⟩
      by_cases hnext : i < (allocateParam st arg').intsUsed
      · exact ⟨_, List.mem_cons_self, hhead i hi hnext⟩
      · obtain ⟨g, hg, hrest⟩ := hcov i (by omega) hik
        exact ⟨g, List.mem_cons_of_mem _ hg, hrest⟩

end

end Groups

/-! ### Stack arguments -/

variable {arg : ArgLocation} {f i o : Nat} {locs : List Location} {st : ParamState}

theorem Round.stack (h : Round st arg locs i f o) {loc : Location} (hloc : loc ∈ locs)
    (hstack : loc.isStack = true) :
    loc.stackOffset = st.stackOffset ∧ loc.stackOffset + min loc.width 8 ≤ o ∧
      loc.stackOffset + loc.width ≤ o + 8 := by
  cases h with
  | word h =>
    obtain rfl := List.mem_singleton.mp hloc
    cases h <;> cases hstack
  | pair =>
    simp only [List.mem_cons, List.not_mem_nil, or_false] at hloc
    rcases hloc with rfl | rfl <;> cases hstack
  | vector =>
    obtain rfl := List.mem_singleton.mp hloc
    cases hstack
  | @stackWord arg h =>
    obtain rfl := List.mem_singleton.mp hloc
    have hwidth : (⟨arg.allocateStack st.stackOffset, none⟩ : Location).width = 8 := by
      cases h with
      | integral hn => exact Rewriter.width_integral hn
      | indirect => rfl
    have hoffset : (⟨arg.allocateStack st.stackOffset, none⟩ : Location).stackOffset =
      st.stackOffset := rfl
    omega
  | stackPair =>
    obtain rfl := List.mem_singleton.mp hloc
    have hwidth : (⟨(register .integral 16).allocateStack st.stackOffset, none⟩ : Location).width =
      16 := rfl
    have hoffset : (⟨(register .integral 16).allocateStack st.stackOffset, none⟩ :
      Location).stackOffset = st.stackOffset := rfl
    omega
  | stackVector n =>
    obtain rfl := List.mem_singleton.mp hloc
    have hwidth : (⟨(register .float n).allocateStack st.stackOffset, none⟩ : Location).width = n :=
      rfl
    have hoffset : (⟨(register .float n).allocateStack st.stackOffset, none⟩ :
      Location).stackOffset = st.stackOffset := rfl
    omega

theorem Round.single (h : Round st arg locs i f o) :
    (∃ loc, locs = [loc]) ∨ ∀ loc ∈ locs, loc.isStack = false := by
  cases h with
  | pair => exact .inr (List.forall_mem_cons.mpr ⟨rfl, List.forall_mem_singleton.mpr rfl⟩)
  | _ => exact .inl ⟨_, rfl⟩

def Location.Before (loc loc' : Location) : Prop :=
  loc.isStack = true → loc'.isStack = true → loc.stackOffset + min loc.width 8 ≤ loc'.stackOffset

theorem pairwise_paramGroups {args : List ArgLocation} (hargs : ∀ arg ∈ args, Slot arg)
    (st : ParamState) :
    ((paramGroups st args).flatMap Prod.snd).Pairwise Location.Before := by
  induction args generalizing st with
  | nil => exact .nil
  | cons arg args ih =>
    rw [List.forall_mem_cons] at hargs
    have hround := (newLocs_round st hargs.1).2
    rw [paramGroups, List.flatMap_cons, List.pairwise_append]
    refine ⟨?_, ih hargs.2 _, fun loc hloc loc' hloc' hstack hstack' => ?_⟩
    · rcases hround.single with ⟨loc, hloc⟩ | hregs
      · rw [hloc]
        exact List.pairwise_singleton _ _
      · refine List.pairwise_of_forall_mem_list fun loc hloc loc' _ hstack => ?_
        rw [hregs loc hloc] at hstack
        cases hstack
    · obtain ⟨⟨arg', locs⟩, hg, hmem⟩ := List.mem_flatMap.mp hloc'
      obtain ⟨st', i, f, o, hround', hle, -⟩ := exists_round hargs.2 hg
      have hfirst := hround.stack hloc hstack
      have hsecond := hround'.stack hmem hstack'
      omega

/-! ### The two lists of a signature -/

section Signature

variable (sig : AbiSignature)

theorem phase_initial (ret : List ArgLocation) : Phase (initialParams ret) (pointerParams ret) := by
  have hzero : (initialParams ret).intsUsed = 0 := by
    rcases initialParams_cases ret with h | h <;> rw [h]
  rw [pointerParams, allocateParam_word _ (.integral le_rfl), if_pos (by omega)]
  exact ⟨rfl, .inl ⟨by omega, rfl, rfl⟩⟩

theorem pointerParams_args (ret : List ArgLocation) :
    (pointerParams ret).args = (initialParams ret).args ++
      [⟨register .integral 8, some (.x 0)⟩] := by
  rcases initialParams_cases ret with h | h <;> rw [pointerParams, h] <;> rfl

theorem siteGroups_locs :
    (allocateParamLocations sig).1 = (initialParams sig.ret).args ++
    (siteGroups sig).flatMap fun g => g.2.1 := by
  rw [args_eq, siteGroups, flatMap_locs]
  rfl

theorem siteGroups_srcs : (allocateParamLocations (prepended sig)).1 =
    (initialParams sig.ret).args ++ ⟨register .integral 8, some (.x 0)⟩ ::
      (siteGroups sig).flatMap fun g => g.2.2 := by
  have hargs : (allocateParamLocations (prepended sig)).1 =
    (sig.args.foldl allocateParam (pointerParams sig.ret)).args := rfl
  rw [hargs, foldl_args sig.args_slots, pointerParams_args, siteGroups, flatMap_srcs,
    List.append_assoc]
  rfl

theorem prepended_argSize :
    (allocateParamLocations (prepended sig)).2 =
    (sig.args.foldl allocateParam (pointerParams sig.ret)).stackOffset :=
  rfl

theorem argSize_le :
    (allocateParamLocations sig).2 ≤ (allocateParamLocations (prepended sig)).2 := by
  have hints := (phase_foldl sig.args_slots (phase_initial sig.ret)).ints
  have hsize : (allocateParamLocations sig).2 =
    (sig.args.foldl allocateParam (initialParams sig.ret)).stackOffset := rfl
  rw [prepended_argSize, hsize]
  omega

variable {sig} {g : ArgLocation × List Location × List Location} (hg : g ∈ siteGroups sig)
include hg

theorem site_shift : Shift g.1 g.2.1 g.2.2 := shift_of_mem sig.args_slots (phase_initial sig.ret) hg

theorem loc_stack {loc : Location} (hloc : loc ∈ g.2.1) (hstack : loc.isStack = true) :
    loc.stackOffset + min loc.width 8 ≤ (allocateParamLocations sig).2 ∧
      loc.stackOffset + loc.width ≤ (allocateParamLocations sig).2 + 8 := by
  obtain ⟨st', i, f, o, hround, -, hend⟩ := exists_round sig.args_slots (pairGroups_left hg)
  have hend' : o ≤ (allocateParamLocations sig).2 := hend
  have hround' := hround.stack hloc hstack
  omega

theorem src_stack {src : Location} (hsrc : src ∈ g.2.2) (hstack : src.isStack = true) :
    src.stackOffset + min src.width 8 ≤ (allocateParamLocations (prepended sig)).2 ∧
      src.stackOffset + src.width ≤ (allocateParamLocations (prepended sig)).2 + 8 := by
  obtain ⟨st', i, f, o, hround, -, hend⟩ := exists_round sig.args_slots (pairGroups_right hg)
  have hend' : o ≤ (allocateParamLocations (prepended sig)).2 := hend
  have hround' := hround.stack hsrc hstack
  omega

end Signature

end Ia2.Arm
