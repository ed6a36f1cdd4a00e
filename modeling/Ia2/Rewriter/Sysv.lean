import Ia2.Library.Lists
import Ia2.Rewriter.Shift
import Mathlib.Order.Bounds.Basic

/-!
# The argument locations of the System V ABI

Where a C function for x86-64 takes its arguments, stated over the same slots as the rewriter's loop
but without its variables: integers go to six registers in order, floats to eight, and each slot
without a register goes to the least offset that its alignment allows. `Follows` compares this with
`allocate_param_locations`. The two agree on the registers of every signature; on the stack they
agree exactly if no slot is followed by padding that the loop leaves out.
-/

namespace Ia2.Rewriter

open X86 ArgLocation
open scoped List

inductive Place where
  | reg (r : ArgReg)
  | stack (offset : Nat)
deriving DecidableEq, Repr

def ArgLocation.place (loc : ArgLocation) : Option Place :=
  if loc.isStack then some (.stack loc.stackOffset) else loc.reg.map .reg

namespace Sysv

/-! ### The ABI -/

/-- The slots of arguments whose sizes and alignments C types have. -/
inductive IsArg : ArgLocation → Prop where
  | integral {n : Nat} : n ≤ 8 → IsArg (register .integral n)
  | wide : IsArg (register .integral 16)
  | float {n : Nat} : n = 4 ∨ n = 8 ∨ n = 16 → IsArg (register .float n)
  | indirect {size : Nat} (k : Nat) : 0 < size → IsArg (indirect size (2 ^ k))

def intRegs : List Reg := [.rdi, .rsi, .rdx, .rcx, .r8, .r9]

def floatRegs : List Xmm := [0, 1, 2, 3, 4, 5, 6, 7]

/-- The registers of a slot after `ints` and `floats` registers are taken, with the numbers taken
after it; none if the slot goes to the stack. -/
def regs (ints floats : Nat) (slot : ArgLocation) : Option (List ArgReg × Nat × Nat) :=
  if slot.isIndirect then none
  else match slot.kind with
    | .integral =>
      let n := if slot.bytes ≤ 8 then 1 else 2
      if ints + n ≤ 6 then some (((intRegs.drop ints).take n).map .gpr, ints + n, floats) else none
    | .float =>
      if floats < 8 then some (((floatRegs.drop floats).take 1).map .xmm, ints, floats + 1)
        else none
    | .memory => none

variable {rs : List ArgReg} {e missing v i f offset : Nat} {arg : ArgLocation}
  {locs : List ArgLocation} {st st₂ : ParamState} {r : ArgReg}

variable {floats ints align n : Nat} {slots args : List ArgLocation}

theorem mem_intRegs {slot : ArgLocation} {taken : Nat × Nat}
    (h : regs ints floats slot = some (rs, taken)) {r : Reg} (hr : .gpr r ∈ rs) : r ∈ intRegs := by
  unfold regs at h
  split at h
  · cases h
  split at h
  · dsimp only at h
    generalize (if slot.bytes ≤ 8 then 1 else 2) = n at h
    split at h
    · cases h
      obtain ⟨r', hr', heq⟩ := List.mem_map.mp hr
      cases heq
      exact List.mem_of_mem_drop (List.mem_of_mem_take hr')
    · cases h
  · split at h
    · cases h
      obtain ⟨x, -, heq⟩ := List.mem_map.mp hr
      cases heq
    · cases h
  · cases h

def IsWord (slot : ArgLocation) :
    Prop := slot.kind = .integral ∧ slot.isIndirect = false ∧ slot.bytes ≤ 8

instance (slot : ArgLocation) : Decidable (IsWord slot) := inferInstanceAs (Decidable (_ ∧ _))

def stackAlign (slot : ArgLocation) : Nat := if IsWord slot then 8 else slot.align

def occupied (slot : ArgLocation) : Nat := if IsWord slot then 8 else (slot.bytes + 7) / 8 * 8

def offsets (e : Nat) (slot : ArgLocation) : Set Nat := {o | e ≤ o ∧ 8 ∣ o ∧ stackAlign slot ∣ o}

inductive Layout : Nat → Nat → Nat → List ArgLocation → List Place → Nat → Prop where
  | nil (ints floats e : Nat) : Layout ints floats e [] [] e
  | regs {ints floats ints' floats' e total : Nat} {slot : ArgLocation} {slots : List ArgLocation}
    {rs : List ArgReg}
      {places : List Place} (hregs : regs ints floats slot = some (rs, ints', floats'))
      (hrest : Layout ints' floats' e slots places total) :
      Layout ints floats e (slot :: slots) (rs.map .reg ++ places) total
  | stack {ints floats e offset total : Nat} {slot : ArgLocation} {slots : List ArgLocation}
    {places : List Place}
      (hregs : regs ints floats slot = none) (hoffset : IsLeast (offsets e slot) offset)
      (hrest : Layout ints floats (offset + occupied slot) slots places total) :
      Layout ints floats e (slot :: slots) (.stack offset :: places) total

theorem Layout.eight_dvd {total : Nat} {places : List Place}
    (h : Layout ints floats e slots places total) (he : 8 ∣ e) :
    8 ∣ total := by
  induction h with
  | nil => exact he
  | regs _ _ ih => exact ih he
  | @stack _ _ _ offset _ slot _ _ _ hoffset _ ih =>
    refine ih (Nat.dvd_add hoffset.1.2.1 ?_)
    unfold occupied
    split <;> omega

/-- The register of the hidden pointer to a result in memory. -/
def hiddenRegs (sig : AbiSignature) : List ArgReg :=
  (intRegs.take (if sig.ret.any (·.isIndirect) then 1 else 0)).map .gpr

/-- The locations that `allocate_param_locations` gives the arguments of a signature are those of
the ABI. -/
structure Follows (sig : AbiSignature) : Prop where
  layout : ∃ places, Layout (hiddenRegs sig).length 0 0 sig.args places
    (allocateParamLocations sig).2 ∧
    (allocateParamLocations sig).1.map place = ((hiddenRegs sig).map Place.reg ++ places).map some
  distinct : ((allocateParamLocations sig).1.filterMap (·.reg)).Nodup

/-! ### The condition on the stack slots -/

/-- The slots that get no register. -/
def stackSlots : Nat → Nat → List ArgLocation → List ArgLocation
  | _, _, [] => []
  | ints, floats, slot :: slots =>
    match regs ints floats slot with
    | some (_, ints', floats') => stackSlots ints' floats' slots
    | none => slot :: stackSlots ints floats slots

def leastOffset (e : Nat) (slot : ArgLocation) : Nat := alignUp (alignUp e 8) (stackAlign slot)

def areaEnd (e : Nat) (slot : ArgLocation) : Nat := leastOffset e slot + occupied slot

def shortfall (slot : ArgLocation) : Nat :=
  if slot = register .integral 16 then 8 else if slot = register .float 4 then 4 else 0

def MadeUp (missing : Nat) (after : List ArgLocation) : Prop :=
  missing = 0 ∨ ∃ size align rest, after = indirect size align :: rest ∧ 2 * missing ≤ align

/-- A slot that starts where the stack area ends at `e` is where the loop puts it, and so is the
next one. -/
structure Fits (e : Nat) (slot : ArgLocation) (after : List ArgLocation) : Prop where
  aligned : slot = register .integral 16 ∨ slot = register .float 16 → 16 ∣ e
  madeUp : MadeUp (shortfall slot) after

/-- Every slot on the stack fits the slots before it and after it. -/
def AllFit (e : Nat) (slots : List ArgLocation) : Prop := Fold.AtEach areaEnd Fits e slots

/-! ### Least offsets -/

theorem alignUp_of_dvd (h : align ∣ n) : alignUp n align = n :=
  if_neg fun hne => hne (Nat.mod_eq_zero_of_dvd h)

theorem IsArg.stackAlign_pow {slot : ArgLocation} (h : IsArg slot) :
    ∃ k, stackAlign slot = 2 ^ k := by
  cases h with
  | integral hn => exact ⟨3, if_pos ⟨rfl, rfl, hn⟩⟩
  | wide => exact ⟨4, rfl⟩
  | float hn =>
    rcases hn with rfl | rfl | rfl
    · exact ⟨2, rfl⟩
    · exact ⟨3, rfl⟩
    · exact ⟨4, rfl⟩
  | indirect k hsize => exact ⟨k, if_neg fun hword => Bool.noConfusion hword.2.1⟩

theorem dvd_leastOffset {slot : ArgLocation} (h : IsArg slot) :
    8 ∣ leastOffset e slot ∧ stackAlign slot ∣ leastOffset e slot := by
  obtain ⟨k, hk⟩ := h.stackAlign_pow
  rw [leastOffset, hk]
  refine ⟨?_, dvd_alignUp _ (Nat.two_pow_pos k)⟩
  have height : 8 ∣ alignUp e 8 := dvd_alignUp e (by decide)
  rcases Nat.le_total k 3 with hle | hle
  · -- a small alignment divides eight, so the second rounding does nothing
    have hdvd : 2 ^ k ∣ 8 := Nat.pow_dvd_pow 2 hle
    rw [alignUp_of_dvd (hdvd.trans height)]
    exact height
  · exact (Nat.pow_dvd_pow 2 hle : 8 ∣ 2 ^ k).trans (dvd_alignUp _ (Nat.two_pow_pos k))

theorem isLeast_leastOffset {slot : ArgLocation} (h : IsArg slot) :
    IsLeast (offsets e slot) (leastOffset e slot) := by
  obtain ⟨height, halign⟩ := dvd_leastOffset (e := e) h
  refine ⟨⟨(le_alignUp e 8).trans (le_alignUp _ _), height, halign⟩, ?_⟩
  rintro o ⟨hle, hdvd, hslot⟩
  exact alignUp_le (alignUp_le hle hdvd) hslot

/-! ### The offsets of the loop -/

def loopOffset (v : Nat) (slot : ArgLocation) :
    Nat := if slot.isIndirect then alignUp v slot.align else v

def loopNext (v : Nat) (slot : ArgLocation) : Nat :=
  if slot.isIndirect then alignUp (alignUp v slot.align + slot.bytes) 8
  else if slot.kind = .integral then v + 8 else v + slot.bytes

def Agree : Nat → Nat → List ArgLocation → Prop
  | v, e, [] => v = e
  | v, e, slot :: slots =>
    loopOffset v slot = leastOffset e slot ∧ Agree (loopNext v slot)
      (leastOffset e slot + occupied slot) slots

structure Behind (v e missing : Nat) : Prop where
  sum : v + missing = e
  cases : missing = 0 ∨ missing = 4 ∨ missing = 8
  dvd : 0 < missing → 2 * missing ∣ e
  eight : 8 ∣ e

theorem not_madeUp_cons {slot : ArgLocation} (hslot : slot.isIndirect = false) :
    MadeUp missing (slot :: slots) ↔ missing = 0 := by
  refine or_iff_left ?_
  rintro ⟨size, align, rest, heq, -⟩
  rw [(List.cons.inj heq).1] at hslot
  exact Bool.noConfusion hslot

theorem madeUp_indirect {size : Nat} :
    MadeUp missing (indirect size align :: slots) ↔ missing = 0 ∨ 2 * missing ≤ align := by
  refine or_congr_right ⟨?_, fun h => ⟨size, align, slots, rfl, h⟩⟩
  rintro ⟨size', align', rest, heq, h⟩
  cases heq
  exact h

theorem Behind.alignUp_eq_iff {k : Nat} (h : Behind v e missing) :
    alignUp v (2 ^ k) = alignUp e (2 ^ k) ↔ missing = 0 ∨ 2 * missing ≤ 2 ^ k := by
  obtain ⟨hsum, hmissing, hdvd, -⟩ := h
  rcases Nat.eq_zero_or_pos missing with rfl | hpos
  · simp [← hsum]
  replace hdvd := hdvd hpos
  obtain ⟨j, hj⟩ : ∃ j, missing = 2 ^ j := by
    rcases hmissing with h0 | h4 | h8
    · omega
    · exact ⟨2, h4⟩
    · exact ⟨3, h8⟩
  have hdouble : 2 * missing = 2 ^ (j + 1) := by rw [hj, Nat.pow_succ, Nat.mul_comm]
  constructor
  · intro heq
    right
    by_contra hlt
    have hkj : k ≤ j := by
      rw [hdouble, Nat.not_le, Nat.pow_lt_pow_iff_right (by decide)] at hlt
      omega
    -- then the loop does not move, and stays below the end of the area
    have hv : 2 ^ k ∣ v := by
      have hmiss : 2 ^ k ∣ missing := hj ▸ Nat.pow_dvd_pow 2 hkj
      have he : 2 ^ k ∣ e := (hmiss.trans (Dvd.intro_left 2 rfl)).trans hdvd
      exact (Nat.dvd_add_left hmiss).mp (hsum ▸ he)
    rw [alignUp_of_dvd hv] at heq
    have hle := le_alignUp e (2 ^ k)
    omega
  · rintro (h0 | hle)
    · omega
    · have halign : 2 * missing ∣ 2 ^ k := by
        rw [hdouble] at hle ⊢
        exact Nat.pow_dvd_pow 2 ((Nat.pow_le_pow_iff_right (by decide)).mp hle)
      refine le_antisymm (alignUp_mono (by omega) (Nat.two_pow_pos k))
        (alignUp_le ?_ (dvd_alignUp v (Nat.two_pow_pos k)))
      -- both the end of the area and the rounded offset are multiples of twice the missing bytes
      obtain ⟨a, ha⟩ := halign.trans (dvd_alignUp v (Nat.two_pow_pos k))
      obtain ⟨b, hb⟩ := hdvd
      have hv := le_alignUp v (2 ^ k)
      rw [ha] at hv ⊢
      rw [hb] at hsum ⊢
      refine Nat.mul_le_mul_left _ ?_
      by_contra hab
      have hstep : 2 * missing * (a + 1) ≤ 2 * missing * b := Nat.mul_le_mul_left _ (by omega)
      rw [Nat.mul_add] at hstep
      omega

theorem Behind.eq_alignUp_iff (h : Behind v e missing) (halign : 0 < align) :
    v = alignUp e align ↔ missing = 0 ∧ align ∣ e := by
  have hsum := h.sum
  constructor
  · intro heq
    have hle := le_alignUp e align
    have he : alignUp e align = e := by omega
    exact ⟨by omega, he ▸ dvd_alignUp e halign⟩
  · rintro ⟨hzero, hdvd⟩
    rw [alignUp_of_dvd hdvd]
    omega

theorem loopOffset_eq_iff {slot : ArgLocation} (slots : List ArgLocation) (hslot : IsArg slot)
    (h : Behind v e missing) : loopOffset v slot = leastOffset e slot ↔
      MadeUp missing (slot :: slots) ∧
        (slot = register .integral 16 ∨ slot = register .float 16 → 16 ∣ e) := by
  have hround : alignUp e 8 = e := alignUp_of_dvd h.eight
  rw [leastOffset, hround]
  cases hslot with
  | @integral n hn =>
    have halign : stackAlign (register .integral n) = 8 := if_pos ⟨rfl, rfl, hn⟩
    have hne : n ≠ 16 := by omega
    rw [not_madeUp_cons rfl, halign]
    refine (h.eq_alignUp_iff (by decide)).trans (and_congr_right fun _ => ?_)
    simp [h.eight, register, hne]
  | wide =>
    rw [not_madeUp_cons rfl]
    refine (h.eq_alignUp_iff (by decide)).trans (and_congr_right fun _ => ?_)
    simp [stackAlign, IsWord, register]
  | @float n hn =>
    have halign : stackAlign (register .float n) = n := if_neg fun hword => Kind.noConfusion hword.1
    rw [not_madeUp_cons rfl, halign]
    refine (h.eq_alignUp_iff (by omega)).trans (and_congr_right fun _ => ?_)
    have height := h.eight
    rcases hn with rfl | rfl | rfl
    · simp [register]
      omega
    · simp [register, height]
    · simp [register]
  | @indirect size k hsize =>
    have halign : stackAlign (indirect size (2 ^ k)) = 2 ^ k :=
      if_neg fun hword => Bool.noConfusion hword.2.1
    rw [madeUp_indirect, halign]
    refine h.alignUp_eq_iff.trans (and_iff_left ?_).symm
    simp [indirect, register]

theorem behind_loopNext {slot : ArgLocation} (hslot : IsArg slot)
    (h : loopOffset v slot = leastOffset e slot) :
    Behind (loopNext v slot) (leastOffset e slot + occupied slot) (shortfall slot) := by
  obtain ⟨height, halign⟩ := dvd_leastOffset (e := e) hslot
  generalize leastOffset e slot = o at h height halign
  cases hslot with
  | @integral n hn =>
    have hnext : loopNext v (register .integral n) = v + 8 := rfl
    have hocc : occupied (register .integral n) = 8 := if_pos ⟨rfl, rfl, hn⟩
    have hshort : shortfall (register .integral n) = 0 := by
      have hne : n ≠ 16 := by omega
      simp [shortfall, register, hne]
    rw [hnext, hocc, hshort]
    have hv : v = o := h
    exact ⟨by omega, .inl rfl, fun hpos => absurd hpos (by decide), by omega⟩
  | wide =>
    have hv : v = o := h
    have hdvd : 16 ∣ o := halign
    exact ⟨show v + 8 + 8 = o + 16 by omega, .inr (.inr rfl), fun _ => show 16 ∣ o + 16 by
      omega, show 8 ∣ o + 16 by omega⟩
  | @float n hn =>
    have hv : v = o := h
    rcases hn with rfl | rfl | rfl
    · exact ⟨show v + 4 + 4 = o + 8 by omega, .inr (.inl rfl), fun _ => show 8 ∣ o + 8 by
      omega, show 8 ∣ o + 8 by omega⟩
    · exact ⟨show v + 8 + 0 = o + 8 by omega, .inl rfl, fun hpos => absurd hpos (by decide),
        show 8 ∣ o + 8 by omega⟩
    · exact ⟨show v + 16 + 0 = o + 16 by omega, .inl rfl, fun hpos => absurd hpos (by decide),
        show 8 ∣ o + 16 by omega⟩
  | @indirect size k hsize =>
    have hocc : occupied (indirect size (2 ^ k)) = (size + 7) / 8 * 8 :=
      if_neg fun hword => Bool.noConfusion hword.2.1
    have hnext : loopNext v (indirect size (2 ^ k)) = alignUp (o + size) 8 := by
      rw [← h]
      rfl
    have hshort : shortfall (indirect size (2 ^ k)) = 0 := by simp [shortfall, indirect, register]
    rw [hnext, hocc, hshort]
    refine ⟨?_, .inl rfl, fun hpos => absurd hpos (by decide), by omega⟩
    show alignUp (o + size) 8 = o + (size + 7) / 8 * 8
    unfold alignUp
    split <;> omega

theorem agree_iff (hslots : ∀ slot ∈ slots, IsArg slot) (h : Behind v e missing) :
    Agree v e slots ↔ MadeUp missing slots ∧ AllFit e slots := by
  induction slots generalizing v e missing with
  | nil =>
    have hsum := h.sum
    have hmade : MadeUp missing [] ↔ missing = 0 := by simp [MadeUp]
    have hnone : AllFit e [] := Fold.atEach_nil e
    rw [hmade, and_iff_left hnone]
    show v = e ↔ missing = 0
    omega
  | cons slot slots ih =>
    rw [List.forall_mem_cons] at hslots
    have hhere := loopOffset_eq_iff slots hslots.1 h
    rw [AllFit, Fold.atEach_cons]
    constructor
    · rintro ⟨hoffset, hrest⟩
      obtain ⟨hmade, haligned⟩ := hhere.mp hoffset
      obtain ⟨hnext, hfit⟩ := (ih hslots.2 (behind_loopNext hslots.1 hoffset)).mp hrest
      exact ⟨hmade, ⟨haligned, hnext⟩, hfit⟩
    · rintro ⟨hmade, ⟨haligned, hnext⟩, hfit⟩
      have hoffset := hhere.mpr ⟨hmade, haligned⟩
      exact ⟨hoffset, (ih hslots.2 (behind_loopNext hslots.1 hoffset)).mpr ⟨hnext, hfit⟩⟩

/-! ### Registers -/

theorem IsArg.slot (h : IsArg arg) : Slot arg := by
  cases h with
  | integral hn => exact .integral hn
  | wide => exact .wide
  | float => exact .float _
  | indirect k hsize => exact .indirect hsize (Nat.two_pow_pos k)

theorem regs_word (ints floats : Nat) (hn : n ≤ 8) :
    regs ints floats (register .integral n) =
    if ints + 1 ≤ 6 then some (((intRegs.drop ints).take 1).map .gpr, ints + 1, floats)
      else none := by
  simp [regs, register, isIndirect, hn]

theorem regs_wide (ints floats : Nat) : regs ints floats (register .integral 16) =
    if ints + 2 ≤ 6 then some (((intRegs.drop ints).take 2).map .gpr, ints + 2, floats) else none :=
  rfl

theorem regs_float (ints floats n : Nat) : regs ints floats (register .float n) =
    if floats < 8 then some (((floatRegs.drop floats).take 1).map .xmm, ints, floats + 1)
      else none :=
  rfl

theorem map_place_regs (hregs : rs.map some = locs.map (·.reg))
    (hlocs : ∀ loc ∈ locs, loc.isStack = false) :
    locs.map place = (rs.map Place.reg).map some := by
  calc locs.map place = (locs.map (·.reg)).map (Option.map Place.reg) := by
        rw [List.map_map]
        refine List.map_congr_left fun loc hloc => ?_
        simp [place, hlocs loc hloc]
    _ = (rs.map some).map (Option.map Place.reg) := by rw [hregs]
    _ = (rs.map Place.reg).map some := by simp

theorem gpr_regs (hi : i < 6) :
    (((intRegs.drop i).take 1).map ArgReg.gpr).map some = [intParamReg i] := by
  decide +revert

theorem pair_regs (hi : i < 5) :
    (((intRegs.drop i).take 2).map ArgReg.gpr).map some = [intParamReg i, intParamReg (i + 1)] := by
  decide +revert

theorem xmm_regs (hi : i < 8) :
    (((floatRegs.drop i).take 1).map ArgReg.xmm).map some = [floatReg i] := by
  decide +revert

structure InRegs (st : ParamState) (arg : ArgLocation) (locs : List ArgLocation) (i f offset : Nat)
    (rs : List ArgReg) : Prop where
  regs : regs st.intsUsed st.floatsUsed arg = some (rs, i, f)
  places : locs.map place = (rs.map Place.reg).map some
  offset : offset = st.stackOffset

structure OnStack (st : ParamState) (arg : ArgLocation) (locs : List ArgLocation)
    (i f offset : Nat) : Prop where
  regs : regs st.intsUsed st.floatsUsed arg = none
  places : locs.map place = [some (.stack (loopOffset st.stackOffset arg))]
  ints : i = st.intsUsed
  floats : f = st.floatsUsed
  offset : offset = loopNext st.stackOffset arg

theorem round_cases (h : Round st arg locs i f offset) :
    (∃ rs, InRegs st arg locs i f offset rs) ∨ OnStack st arg locs i f offset := by
  cases h with
  | gpr hn hints =>
    refine .inl ⟨_, (regs_word _ _ hn).trans (if_pos hints),
      map_place_regs (gpr_regs hints) ?_, rfl⟩
    simp [isStack, allocateReg, register]
  | pair hints =>
    refine .inl ⟨_, (regs_wide _ _).trans (if_pos (by omega)),
      map_place_regs (pair_regs hints) ?_, rfl⟩
    simp [isStack, half, allocateReg, register]
  | xmm hfloats =>
    refine .inl ⟨_, (regs_float _ _ _).trans (if_pos hfloats),
      map_place_regs (xmm_regs hfloats) ?_, rfl⟩
    simp [isStack, allocateReg, register]
  | spill hn hints => exact .inr ⟨(regs_word _ _ hn).trans (if_neg (by omega)), rfl, rfl, rfl, rfl⟩
  | spillPair hints => exact .inr ⟨(regs_wide _ _).trans (if_neg (by omega)), rfl, rfl, rfl, rfl⟩
  | spillFloat hfloats =>
    exact .inr ⟨(regs_float _ _ _).trans (if_neg (by omega)), rfl, rfl, rfl, rfl⟩
  | memory hsize halign => exact .inr ⟨rfl, rfl, rfl, rfl, rfl⟩

theorem layout_iff (hargs : ∀ arg ∈ args, IsArg arg) (st : ParamState) (e : Nat) :
    (∃ places, Layout st.intsUsed st.floatsUsed e args places
      (args.foldl allocateParam st).stackOffset ∧
      (paramGroups st args).flatten.map place = places.map some) ↔
    Agree st.stackOffset e (stackSlots st.intsUsed st.floatsUsed args) := by
  induction args generalizing st e with
  | nil =>
    constructor
    · rintro ⟨places, hlayout, -⟩
      cases hlayout
      rfl
    · intro h
      have heq : st.stackOffset = e := h
      exact ⟨[], heq ▸ .nil _ _ _, rfl⟩
  | cons arg args ih =>
    rw [List.forall_mem_cons] at hargs
    rw [List.foldl_cons, paramGroups, List.flatten_cons, List.map_append, stackSlots]
    rcases round_cases (allocateParam_round st hargs.1.slot) with ⟨rs, hround⟩ | hround
    · rw [hround.places, hround.regs]
      show _ ↔ Agree st.stackOffset e (stackSlots _ _ args)
      rw [← hround.offset, ← ih hargs.2]
      constructor
      · rintro ⟨places, hlayout, hplaces⟩
        cases hlayout with
        | regs hregs hrest =>
          rw [hround.regs] at hregs
          cases hregs
          rw [List.map_append] at hplaces
          exact ⟨_, hrest, List.append_cancel_left hplaces⟩
        | stack hregs => simp [hround.regs] at hregs
      · rintro ⟨places, hlayout, hplaces⟩
        exact ⟨_, .regs hround.regs hlayout, by rw [hplaces, List.map_append]⟩
    · rw [hround.places, hround.regs]
      show _ ↔ _ ∧ Agree _ _ (stackSlots _ _ args)
      rw [← hround.offset, ← hround.ints, ← hround.floats, ← ih hargs.2]
      constructor
      · rintro ⟨places, hlayout, hplaces⟩
        cases hlayout with
        | regs hregs =>
          rw [hround.ints, hround.floats, hround.regs] at hregs
          cases hregs
        | stack hregs hoffset hrest =>
          obtain ⟨hhead, htail⟩ := List.cons.inj hplaces
          cases hhead
          have hleast := hoffset.unique (isLeast_leastOffset hargs.1)
          rw [hleast] at hrest
          exact ⟨hleast, _, hrest, htail⟩
      · rintro ⟨hoffset, places, hlayout, hplaces⟩
        refine ⟨_, .stack ?_ (isLeast_leastOffset hargs.1) hlayout, ?_⟩
        · rw [hround.ints, hround.floats, hround.regs]
        · rw [hplaces, hoffset]
          rfl

/-! ### No register twice -/

theorem usedRegs_gpr (hints : st₂.intsUsed = st.intsUsed + 1)
    (hfloats : st₂.floatsUsed = st.floatsUsed) (hr : intParamReg st.intsUsed = some r) :
    usedRegs st ++ [r] ~ usedRegs st₂ := by
  obtain ⟨g, hg, rfl⟩ := Option.map_eq_some_iff.mp hr
  rw [usedRegs, usedRegs, hints, hfloats, List.take_add_one, hg, List.map_append, List.append_assoc,
    List.append_assoc]
  exact List.perm_append_comm.append_left _

theorem usedRegs_xmm (hints : st₂.intsUsed = st.intsUsed)
    (hfloats : st₂.floatsUsed = st.floatsUsed + 1) (hr : floatReg st.floatsUsed = some r) :
    usedRegs st ++ [r] ~ usedRegs st₂ := by
  obtain ⟨x, hx, rfl⟩ := Option.map_eq_some_iff.mp hr
  rw [usedRegs, usedRegs, hints, hfloats, List.take_add_one, hx, List.map_append, List.append_assoc]
  rfl

theorem round_usedRegs (h : Round st arg locs i f offset) (hi : st₂.intsUsed = i)
    (hf : st₂.floatsUsed = f) :
    usedRegs st ++ locs.filterMap (·.reg) ~ usedRegs st₂ := by
  have hstack (loc : ArgLocation) (hreg : loc.reg = none) (hi : st₂.intsUsed = st.intsUsed)
    (hf : st₂.floatsUsed = st.floatsUsed) :
      usedRegs st ++ [loc].filterMap (·.reg) ~ usedRegs st₂ := by
    simp [hreg, usedRegs, hi, hf]
  cases h with
  | gpr hn hints =>
    obtain ⟨r, hr⟩ := intParamReg_lt hints
    simpa [allocateReg, hr] using usedRegs_gpr hi hf hr
  | pair hints =>
    obtain ⟨r, hr⟩ := intParamReg_lt (Nat.lt_succ_of_lt hints)
    obtain ⟨r₂, hr₂⟩ := intParamReg_lt (Nat.succ_lt_succ hints)
    -- the two halves take one register each
    let mid : ParamState := { st with intsUsed := st.intsUsed + 1 }
    have hfirst : usedRegs st ++ [r] ~ usedRegs mid := usedRegs_gpr rfl rfl hr
    have hsecond : usedRegs mid ++ [r₂] ~ usedRegs st₂ := usedRegs_gpr hi hf hr₂
    simpa [half, allocateReg, hr, hr₂] using (hfirst.append_right [r₂]).trans hsecond
  | xmm hfloats =>
    obtain ⟨r, hr⟩ := floatReg_lt hfloats
    simpa [allocateReg, hr] using usedRegs_xmm hi hf hr
  | spill => exact hstack _ rfl hi hf
  | spillPair => exact hstack _ rfl hi hf
  | spillFloat => exact hstack _ rfl hi hf
  | memory => exact hstack _ rfl hi hf

theorem foldl_usedRegs (hargs : ∀ arg ∈ args, Slot arg)
    (h : st.args.filterMap (·.reg) ~ usedRegs st) :
    (args.foldl allocateParam st).args.filterMap (·.reg) ~ usedRegs
      (args.foldl allocateParam st) := by
  induction args generalizing st with
  | nil => exact h
  | cons arg args ih =>
    rw [List.forall_mem_cons] at hargs
    refine ih hargs.2 ?_
    rw [allocateParam_newLocs, List.filterMap_append]
    exact (h.append_right _).trans (round_usedRegs (allocateParam_round st hargs.1) rfl rfl)

theorem nodup_usedRegs (st : ParamState) : (usedRegs st).Nodup := by
  refine List.Nodup.append ?_ ?_ ?_
  · exact (List.Nodup.sublist (List.take_sublist _ _) (by decide)).map fun _ _ => ArgReg.gpr.inj
  · exact (List.Nodup.sublist (List.take_sublist _ _) (by decide)).map fun _ _ => ArgReg.xmm.inj
  · intro r hgpr hxmm
    obtain ⟨g, -, rfl⟩ := List.mem_map.mp hgpr
    obtain ⟨x, -, hx⟩ := List.mem_map.mp hxmm
    cases hx

theorem nodup_regs (sig : AbiSignature) :
    ((allocateParamLocations sig).1.filterMap (·.reg)).Nodup := by
  have hinit : (initialParams sig.ret).args.filterMap (·.reg) ~ usedRegs
      (initialParams sig.ret) := by
    unfold initialParams
    split
    · exact .refl _
    · exact .refl _
  exact (foldl_usedRegs sig.args_slots hinit).nodup_iff.mpr (nodup_usedRegs _)

/-! ### The result -/

theorem stackSlots_sublist (ints floats : Nat) (slots : List ArgLocation) :
    (stackSlots ints floats slots).Sublist slots := by
  induction slots generalizing ints floats with
  | nil => exact .refl _
  | cons slot slots ih =>
    rw [stackSlots]
    split
    · exact (ih _ _).cons _
    · exact (ih _ _).cons_cons _

theorem ret_isStack (h : ReturnSlots slots) :
    ∀ slot ∈ slots, slot.isStack = false := by
  intro slot hslot
  cases h with
  | void => cases hslot
  | memory | wide =>
    cases List.mem_singleton.mp hslot
    rfl
  | scalars _ hscalar => rcases hscalar slot hslot with ⟨n, -, rfl⟩ | ⟨n, rfl⟩ <;> rfl

theorem hiddenRegs_eq (sig : AbiSignature) :
    (initialParams sig.ret).args.map place = ((hiddenRegs sig).map Place.reg).map some ∧
    (initialParams sig.ret).intsUsed = (hiddenRegs sig).length ∧
      (initialParams sig.ret).floatsUsed = 0 ∧
    (initialParams sig.ret).stackOffset = 0 := by
  have hret : (sig.ret.any fun slot => slot.isStack || slot.isIndirect) =
      sig.ret.any (·.isIndirect) := by
    refine Bool.eq_iff_iff.mpr ?_
    simp only [List.any_eq_true, Bool.or_eq_true]
    refine exists_congr fun slot => and_congr_right fun hslot => ?_
    simp [ret_isStack sig.ret_slots slot hslot]
  unfold initialParams hiddenRegs
  rw [hret]
  by_cases hany : sig.ret.any (·.isIndirect) = true
  · rw [if_pos hany, if_pos hany]
    exact ⟨rfl, rfl, rfl, rfl⟩
  · rw [if_neg hany, if_neg hany]
    exact ⟨rfl, rfl, rfl, rfl⟩

/-- The locations of the arguments of a signature are those of the ABI exactly if every 16-byte slot
on the stack starts at a multiple of sixteen, and every 16-byte integer and every `float` on the
stack is followed by a structure whose alignment skips the bytes that the loop leaves out. -/
theorem follows_iff (sig : AbiSignature) (hargs : ∀ arg ∈ sig.args, IsArg arg) :
    Follows sig ↔ AllFit 0 (stackSlots (hiddenRegs sig).length 0 sig.args) := by
  obtain ⟨hplaces, hints, hfloats, hoffset⟩ := hiddenRegs_eq sig
  have hlayout := layout_iff hargs (initialParams sig.ret) 0
  rw [hints, hfloats, hoffset] at hlayout
  have hagree : Agree 0 0 (stackSlots (hiddenRegs sig).length 0 sig.args) ↔
      AllFit 0 (stackSlots (hiddenRegs sig).length 0 sig.args) := by
    have hstart : Behind 0 0 0 := ⟨rfl, .inl rfl, fun hpos => absurd hpos (by decide), by decide⟩
    rw [agree_iff (fun slot hslot => hargs slot ((stackSlots_sublist _ _ _).subset hslot)) hstart]
    exact and_iff_right (.inl rfl)
  rw [← hagree, ← hlayout]
  constructor
  · rintro ⟨⟨places, hspec, heq⟩, -⟩
    rw [params_eq, List.map_append, List.map_append, hplaces] at heq
    exact ⟨places, hspec, List.append_cancel_left heq⟩
  · rintro ⟨places, hspec, heq⟩
    refine ⟨⟨places, hspec, ?_⟩, nodup_regs sig⟩
    rw [params_eq, List.map_append, List.map_append, hplaces, heq]

/-- Eight integers, a `double` and a structure with alignment sixteen; two integers and the
structure go to the stack. -/
def spilledSig : AbiSignature where
  args := List.replicate 8 (register .integral 8) ++ [register .float 8, indirect 24 16]
  ret := []
  args_slots := by
    intro arg harg
    simp only [List.mem_append, List.mem_cons, List.not_mem_nil, or_false] at harg
    rcases harg with harg | rfl | rfl
    · exact List.eq_of_mem_replicate harg ▸ .integral le_rfl
    · exact .float 8
    · exact .indirect (by decide) (by decide)
  ret_slots := .void

theorem follows_iff_spilled :
    (∀ arg ∈ spilledSig.args, IsArg arg) ∧ Follows spilledSig := by
  have hargs : ∀ arg ∈ spilledSig.args, IsArg arg := by
    intro arg harg
    simp only [spilledSig, List.mem_append, List.mem_cons, List.not_mem_nil, or_false] at harg
    rcases harg with harg | rfl | rfl
    · exact List.eq_of_mem_replicate harg ▸ .integral le_rfl
    · exact .float (.inr (.inl rfl))
    · exact .indirect 4 (by decide)
  refine ⟨hargs, (follows_iff spilledSig hargs).mpr ?_⟩
  have hslots : stackSlots (hiddenRegs spilledSig).length 0 spilledSig.args =
      [register .integral 8, register .integral 8, indirect 24 16] := by decide
  rw [hslots]
  simp only [AllFit, Fold.atEach_cons, and_iff_left (Fold.atEach_nil _)]
  exact ⟨⟨by decide, .inl rfl⟩, ⟨by decide, .inl rfl⟩, ⟨by decide, .inl rfl⟩⟩

/-- Nine parameters of type `float`. -/
def nineFloats : AbiSignature where
  args := List.replicate 9 (register .float 4)
  ret := []
  args_slots := fun _ harg => List.eq_of_mem_replicate harg ▸ .float 4
  ret_slots := .void

/-- The ninth `float` occupies eight bytes of the stack, but the loop counts four. -/
theorem nineFloats_not_follows : (∀ arg ∈ nineFloats.args, IsArg arg) ∧ ¬ Follows nineFloats := by
  have hargs : ∀ arg ∈ nineFloats.args, IsArg arg :=
    fun arg harg => List.eq_of_mem_replicate harg ▸ .float (.inl rfl)
  refine ⟨hargs, ?_⟩
  rintro ⟨⟨places, hlayout, -⟩, -⟩
  exact absurd (hlayout.eight_dvd (Nat.dvd_zero 8)) (by decide)

end Sysv

end Ia2.Rewriter
