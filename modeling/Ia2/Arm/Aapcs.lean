import Ia2.Arm.Locations
import Ia2.Library.Lists
import Ia2.Rewriter.DetermineAbi
import Mathlib.Data.List.Range

/-!
# Composite parameters on AArch64

Clang coerces a 16-byte composite to two 8-byte integers and a homogeneous aggregate of floats to an
array of up to four of them, and `abiSlotsForArg` makes each element a slot of its own. The loop in
`allocate_param_locations` then places the slots one by one. Here the locations are grouped by
parameter again and compared with the procedure call standard: a parameter is in registers as a
whole or on the stack as a whole, and a register class is exhausted once a parameter of the class
goes to the stack.
-/

namespace Ia2.Arm.Aapcs

open Rewriter (ArgLocation Slot alignUp le_alignUp dvd_alignUp FpType CParam LlvmType abiSlotsForArg
  abiSlotsForArgs)
open Rewriter.ArgLocation (register)

/-! ### Parameters -/

inductive Param where
  | int (bits : Nat) (hbits : bits ≤ 64)
  | ptr
  | int128
  | fp (type : FpType) (htype : type ≠ .x86Fp80)
  | pair
  | hfa (double : Bool) (count : Nat) (hcount : 1 ≤ count ∧ count ≤ 4)
  | indirect (size align : Nat) (hsize : 0 < size) (halign : 0 < align)

namespace Param

def element (double : Bool) : FpType := if double then .double else .float

def lower : Param → CParam
  | .int bits _ => ⟨bits / 8, bits / 8, .direct (.int bits) true⟩
  | .ptr => ⟨8, 8, .direct .ptr true⟩
  | .int128 => ⟨16, 16, .direct (.int 128) true⟩
  | .fp type _ => ⟨type.bits / 8, type.bits / 8, .direct (.fp type) true⟩
  | .pair => ⟨16, 8, .direct (.array 2 (.int 64)) true⟩
  | .hfa double count _ =>
    ⟨count * ((element double).bits / 8), (element double).bits / 8,
      .direct (.array count (.fp (element double))) true⟩
  | .indirect size align _ _ => ⟨size, align, .indirect⟩

def slot : Param → ArgLocation
  | .int bits _ => register .integral (bits / 8)
  | .ptr => register .integral 0
  | .int128 => register .integral 16
  | .fp type _ => register .float (type.bits / 8)
  | .pair => register .integral 8
  | .hfa double _ _ => register .float ((element double).bits / 8)
  | .indirect size align _ _ => ArgLocation.indirect size align

def count : Param → Nat
  | .pair => 2
  | .hfa _ count _ => count
  | _ => 1

def slots (p : Param) : List ArgLocation := List.replicate p.count p.slot

theorem abiSlotsForArg_lower (p : Param) : abiSlotsForArg p.lower = .ok p.slots := by
  cases p <;> rfl

/-- The parameter goes in vector registers. -/
def float : Param → Bool
  | .fp _ _ | .hfa _ _ _ => true
  | _ => false

/-- The registers that the parameter takes as a whole. -/
def regs : Param → Nat
  | .int128 => 2
  | p => p.count

def IsScalar : Param → Prop
  | .pair | .hfa _ _ _ => False
  | _ => True

/-! ### The stack area -/

/-- The bytes of the parameter on the stack; of an indirect one only its address is there. -/
def size : Param → Nat
  | .int128 | .pair => 16
  | .fp type _ => type.bits / 8
  | .hfa double count _ => count * ((element double).bits / 8)
  | _ => 8

/-- The alignment of the parameter on the stack, which is at least eight. -/
def align : Param → Nat
  | .int128 => 16
  | .fp .fp128 _ => 16
  | _ => 8

def area (a : Nat) (p : Param) : Nat := alignUp a p.align + (p.size + 7) / 8 * 8

end Param

/-! ### The standard -/

/-- Registers and stack bytes that the standard has given away. The registers that it skipped to
start a 128-bit integer at an even one are among them. -/
structure Usage where
  ints : Nat := 0
  floats : Nat := 0
  skipped : Nat := 0
  area : Nat := 0
deriving DecidableEq, Repr

/-- The registers that are skipped before the parameter. -/
def Param.skip (u : Usage) : Param → Nat
  | .int128 => u.ints % 2
  | _ => 0

namespace Usage

def used (u : Usage) (float : Bool) : Nat := if float then u.floats else u.ints

def setUsed (u : Usage) (float : Bool) (n : Nat) : Usage :=
  if float then { u with floats := n } else { u with ints := n }

/-- The first register for the parameter. -/
def first (u : Usage) (p : Param) : Nat := u.used p.float + p.skip u

/-- A parameter takes registers if there are enough, and otherwise the rest of its class is lost
and it goes to the stack. -/
def add (u : Usage) (p : Param) : Usage :=
  if u.first p + p.regs ≤ 8 then
    { u.setUsed p.float (u.first p + p.regs) with skipped := u.skipped + p.skip u }
  else { u.setUsed p.float 8 with area := p.area u.area }

end Usage

def regOf (float : Bool) (i : Nat) : Option ArgReg := if float then floatReg i else intReg i

def standardRegs : Usage → List Param → List (List (Option ArgReg))
  | _, [] => []
  | u, p :: ps =>
    (if u.first p + p.regs ≤ 8 then (List.range' (u.first p) p.regs).map (regOf p.float) else []) ::
      standardRegs (u.add p) ps

/-! ### Locations by parameter -/

structure Placement where
  param : Param
  locs : List Location
  start : Nat
  finish : Nat

def allocate (st : ParamState) (p : Param) : ParamState := p.slots.foldl allocateParam st

def placements : ParamState → List Param → List Placement
  | _, [] => []
  | st, p :: ps =>
    ⟨p, (allocate st p).args.drop st.args.length, st.stackOffset, (allocate st p).stackOffset⟩ ::
      placements (allocate st p) ps

namespace Placement

def InRegs (pl : Placement) : Prop :=
  (∀ loc ∈ pl.locs, loc.isStack = false) ∧
    ∃ i, i + pl.locs.length ≤ 8 ∧ pl.locs.map (·.reg) =
    (List.range' i pl.locs.length).map (regOf pl.param.float)

def OnStack (pl : Placement) : Prop := ∀ loc ∈ pl.locs, loc.isStack = true

def takesStack (pl : Placement) : Bool := pl.locs.any (·.isStack)

def takesReg (pl : Placement) : Bool := pl.locs.any (!·.isStack)

def registers (pl : Placement) : List (Option ArgReg) :=
  (pl.locs.filter (!·.isStack)).map (·.reg)

end Placement

/-- The parameters and the result of a function. -/
structure Signature where
  params : List Param
  ret : List ArgLocation
  ret_slots : ReturnSlots ret

theorem Param.slot_isSlot (p : Param) : Slot p.slot := by
  cases p with
  | int bits hbits => exact .integral (by omega)
  | ptr => exact .integral (Nat.zero_le 8)
  | int128 => exact .wide
  | fp => exact .float _
  | pair => exact .integral (Nat.le_refl 8)
  | hfa => exact .float _
  | indirect size align hsize halign => exact .indirect hsize halign

namespace Signature

def abi (sig : Signature) : AbiSignature where
  args := sig.params.flatMap Param.slots
  ret := sig.ret
  args_slots := by
    intro arg harg
    obtain ⟨p, -, hslot⟩ := List.mem_flatMap.mp harg
    exact List.eq_of_mem_replicate hslot ▸ p.slot_isSlot
  ret_slots := sig.ret_slots

def placements (sig : Signature) :
    List Placement := Aapcs.placements (initialParams sig.ret) sig.params

end Signature

/-- The locations of the parameters agree with the procedure call standard. -/
structure PassedWhole (sig : Signature) : Prop where
  slots : abiSlotsForArgs (sig.params.map Param.lower) = .ok sig.abi.args
  locs : (allocateParamLocations sig.abi).1 = (initialParams sig.ret).args ++
    sig.placements.flatMap (·.locs)
  whole : ∀ pl ∈ sig.placements, pl.InRegs ∨ pl.OnStack
  exhausted : sig.placements.Pairwise fun pl pl' => pl.param.float = pl'.param.float →
    pl.takesStack = true → pl'.takesReg = false
  scalars : ∀ pl ∈ sig.placements, pl.param.IsScalar → 8 ∣ pl.finish - pl.start
  total : (allocateParamLocations sig.abi).2 = (sig.params.foldl Usage.add {}).area

/-- The registers of the parameters are those of the standard. -/
def InStandardRegs (sig : Signature) : Prop :=
  sig.placements.map (·.registers) = standardRegs {} sig.params

instance (sig : Signature) : Decidable (InStandardRegs sig) :=
  inferInstanceAs (Decidable (_ = _))

/-! ### The condition -/

/-- A parameter on the stack takes the place of the standard: the loop has no register left for a
part of it, its parts fill whole eightbytes, and it starts at its alignment. -/
def Param.StackOk (u : Usage) : Param → Prop
  | .int128 => False
  | .fp type _ => type = .double ∨ (type = .fp128 ∧ 16 ∣ u.area)
  | .pair => u.ints = 8 ∧ u.skipped = 0
  | .hfa double count _ => u.floats = 8 ∧ (double = true ∨ 2 ∣ count)
  | _ => u.skipped = 0

/-- The parameter fits what the parameters before it have used. -/
def Param.Fits (u : Usage) (p : Param) : Prop := u.first p + p.regs ≤ 8 ∨ p.StackOk u

def AllFit (u : Usage) (ps : List Param) :
    Prop := Fold.AtEach Usage.add (fun u p _ => p.Fits u) u ps

/-! ### What the loop does with a parameter -/

def used (st : ParamState) (float : Bool) : Nat := if float then st.floatsUsed else st.intsUsed

def Param.unit : Param → Nat
  | .fp type _ => type.bits / 8
  | .hfa double _ _ => (element double).bits / 8
  | _ => 8

structure Outcome (st : ParamState) (p : Param) (inRegs onStack : Nat) : Prop where
  locs : ∃ first second : List Location, (allocate st p).args = st.args ++ (first ++ second) ∧
    first.length = inRegs ∧ second.length = onStack ∧
    first.map (·.reg) = (List.range' (used st p.float) inRegs).map (regOf p.float) ∧
    (∀ loc ∈ first, loc.isStack = false) ∧ ∀ loc ∈ second, loc.isStack = true
  same : used (allocate st p) p.float = used st p.float + inRegs
  other : used (allocate st p) (!p.float) = used st (!p.float)
  offset : (allocate st p).stackOffset = st.stackOffset + onStack * p.unit

inductive Single : Bool → ArgLocation → Nat → Prop where
  | word {slot : ArgLocation} : Word slot → Single false slot 8
  | float (n : Nat) : Single true (register .float n) n

def takeReg (st : ParamState) (float : Bool) (slot : ArgLocation) : ParamState :=
  { args := st.args ++ [⟨slot, regOf float (used st float)⟩]
    intsUsed := if float then st.intsUsed else st.intsUsed + 1
    floatsUsed := if float then st.floatsUsed + 1 else st.floatsUsed
    stackOffset := st.stackOffset }

def putStack (st : ParamState) (slot : ArgLocation) (unit : Nat) : ParamState :=
  { st with
      args := st.args ++ [⟨slot.allocateStack st.stackOffset, none⟩]
      stackOffset := st.stackOffset + unit }

variable {st : ParamState} {k a b : Nat} {p : Param} {u : Usage} {ps : List Param}

theorem Single.allocateParam_reg {float : Bool} {slot : ArgLocation} {unit : Nat}
    (h : Single float slot unit) (hused : used st float < 8) :
    allocateParam st slot = takeReg st float slot := by
  cases h with
  | word hword => exact (allocateParam_word st hword).trans (if_pos hused)
  | float => exact (allocateParam_float st _).trans (if_pos hused)

theorem Single.allocateParam_stack {float : Bool} {slot : ArgLocation} {unit : Nat}
    (h : Single float slot unit) (hused : 8 ≤ used st float) :
    allocateParam st slot = putStack st slot unit := by
  cases h with
  | word hword => exact (allocateParam_word st hword).trans (if_neg (Nat.not_lt.mpr hused))
  | float => exact (allocateParam_float st _).trans (if_neg (Nat.not_lt.mpr hused))

theorem Single.isStack {float : Bool} {slot : ArgLocation} {unit : Nat}
    (h : Single float slot unit) : slot.isStack = false := by
  cases h with
  | word hword => cases hword <;> rfl
  | float => rfl

@[simp] theorem used_takeReg (st : ParamState) (float : Bool) (slot : ArgLocation) :
    used (takeReg st float slot) float = used st float + 1 := by
  cases float <;> rfl

@[simp] theorem used_takeReg_not (st : ParamState) (float : Bool) (slot : ArgLocation) :
    used (takeReg st float slot) (!float) = used st (!float) := by
  cases float <;> rfl

theorem Single.replicate_regs {float : Bool} {slot : ArgLocation} {unit : Nat}
    (h : Single float slot unit) (hused : used st float + k ≤ 8) :
    ((List.replicate k slot).foldl allocateParam st).args =
        st.args ++ (List.range' (used st float) k).map (fun i => ⟨slot, regOf float i⟩) ∧
      used ((List.replicate k slot).foldl allocateParam st) float = used st float + k ∧
      used ((List.replicate k slot).foldl allocateParam st) (!float) = used st (!float) ∧
      ((List.replicate k slot).foldl allocateParam st).stackOffset = st.stackOffset := by
  induction k generalizing st with
  | zero => simp
  | succ k ih =>
    rw [List.replicate_succ, List.foldl_cons, h.allocateParam_reg (by omega)]
    obtain ⟨hargs, hsame, hother, hoffset⟩ :=
      @ih (takeReg st float slot) (by rw [used_takeReg]; omega)
    refine ⟨?_, ?_, ?_, hoffset⟩
    · rw [hargs, used_takeReg, List.range'_succ, List.map_cons]
      simp [takeReg]
    · rw [hsame, used_takeReg]
      omega
    · rw [hother, used_takeReg_not]

theorem Single.replicate_stack {float : Bool} {slot : ArgLocation} {unit : Nat}
    (h : Single float slot unit) (hused : 8 ≤ used st float) :
    (∃ locs : List Location, ((List.replicate k slot).foldl allocateParam st).args =
      st.args ++ locs ∧ locs.length = k ∧
      ∀ loc ∈ locs, loc.isStack = true) ∧
      (∀ c, used ((List.replicate k slot).foldl allocateParam st) c = used st c) ∧
      ((List.replicate k slot).foldl allocateParam st).stackOffset = st.stackOffset + k * unit := by
  induction k generalizing st with
  | zero =>
    exact ⟨⟨[], (List.append_nil _).symm, rfl, fun _ hloc => nomatch hloc⟩, fun _ => rfl, by simp⟩
  | succ k ih =>
    rw [List.replicate_succ, List.foldl_cons, h.allocateParam_stack hused]
    obtain ⟨⟨locs, hargs, hlength, hlocs⟩, hsame, hoffset⟩ := @ih (putStack st slot unit) hused
    refine ⟨⟨⟨slot.allocateStack st.stackOffset, none⟩ :: locs, ?_, ?_, ?_⟩, hsame, ?_⟩
    · rw [hargs, putStack, List.append_assoc, List.singleton_append]
    · rw [List.length_cons, hlength]
    · exact List.forall_mem_cons.mpr ⟨rfl, hlocs⟩
    · have hput : (putStack st slot unit).stackOffset = st.stackOffset + unit := rfl
      rw [hoffset, hput, Nat.succ_mul]
      omega

theorem outcome_single (h : Single p.float p.slot p.unit) (hcount : p.count = a + b)
    (ha : used st p.float + a ≤ 8) (hb : b = 0 ∨ used st p.float + a = 8) : Outcome st p a b := by
  have hslots : allocate st p = (List.replicate b p.slot).foldl allocateParam
      ((List.replicate a p.slot).foldl allocateParam st) := by
    rw [allocate, Param.slots, hcount, List.replicate_add, List.foldl_append]
  obtain ⟨hargs, hused, hother, hoffset⟩ := h.replicate_regs ha
  have hfirst : ((List.range' (used st p.float) a).map fun i =>
    (⟨p.slot, regOf p.float i⟩ : Location)).length = a := by simp
  have hregs : ∀ loc ∈ (List.range' (used st p.float) a).map (fun i =>
    (⟨p.slot, regOf p.float i⟩ : Location)),
      loc.isStack = false := by
    intro loc hloc
    obtain ⟨i, -, rfl⟩ := List.mem_map.mp hloc
    exact h.isStack
  rcases hb with rfl | hfull
  · refine ⟨⟨_, [], ?_, hfirst, rfl, ?_, hregs, fun _ hloc => nomatch hloc⟩, ?_, ?_, ?_⟩
    · rw [hslots, List.append_nil]
      exact hargs
    · simp
    · exact hslots ▸ hused
    · exact hslots ▸ hother
    · rw [hslots, Nat.zero_mul]
      exact hoffset
  · obtain ⟨⟨locs, hargs₂, hlength, hlocs⟩, hsame, hoffset₂⟩ :=
      h.replicate_stack (k := b) (hused.trans hfull).ge
    refine ⟨⟨_, locs, ?_, hfirst, hlength, ?_, hregs, hlocs⟩, ?_, ?_, ?_⟩
    · rw [hslots, hargs₂, hargs, List.append_assoc]
    · simp
    · rw [hslots, hsame, hused]
    · rw [hslots, hsame, hother]
    · rw [hslots, hoffset₂, hoffset]

theorem outcome_int128 (st : ParamState) :
    (used st false + 2 ≤ 8 → Outcome st .int128 2 0) ∧
    (7 ≤ used st false → Outcome st .int128 0 1) := by
  have halloc : allocate st .int128 = allocateParam st (register .integral 16) := rfl
  constructor
  · intro hused
    have hints : st.intsUsed + 1 < 8 := hused
    rw [allocateParam_wide, if_pos hints] at halloc
    refine ⟨⟨[half st.intsUsed, half (st.intsUsed + 1)], [], ?_, rfl, rfl, rfl, ?_,
      fun _ hloc => nomatch hloc⟩, ?_, ?_, ?_⟩
    · rw [halloc, List.append_nil]
    · simp [half, Location.isStack, ArgLocation.isStack, register]
    · exact halloc ▸ rfl
    · exact halloc ▸ rfl
    · exact halloc ▸ rfl
  · intro hused
    have hints : ¬ st.intsUsed + 1 < 8 := Nat.not_lt.mpr (Nat.succ_le_succ hused)
    rw [allocateParam_wide, if_neg hints] at halloc
    refine ⟨⟨[], [⟨(register .integral 16).allocateStack st.stackOffset, none⟩], ?_, rfl, rfl, rfl,
      ?_, ?_⟩, ?_, ?_, ?_⟩
    · rw [halloc, List.nil_append]
    · exact fun _ hloc => nomatch hloc
    · exact fun loc hloc => List.mem_singleton.mp hloc ▸ rfl
    · exact halloc ▸ rfl
    · exact halloc ▸ rfl
    · exact halloc ▸ rfl

theorem single_or_int128 (p : Param) : Single p.float p.slot p.unit ∨ p = .int128 := by
  cases p with
  | int bits hbits => exact .inl (.word (.integral (by omega)))
  | ptr => exact .inl (.word (.integral (Nat.zero_le 8)))
  | int128 => exact .inr rfl
  | fp => exact .inl (.float _)
  | pair => exact .inl (.word (.integral (Nat.le_refl 8)))
  | hfa => exact .inl (.float _)
  | indirect size align hsize halign => exact .inl (.word (.indirect hsize halign))

inductive Fate (st : ParamState) (p : Param) (inRegs onStack : Nat) : Prop where
  | regs : used st p.float + p.regs ≤ 8 → inRegs = p.regs → onStack = 0 → Fate st p inRegs onStack
  | stack : 8 < used st p.float + p.regs → (used st p.float = 8 ∨ p = .int128) → inRegs = 0 →
    onStack = p.count → Fate st p inRegs onStack
  | split : 8 < used st p.float + p.regs → used st p.float < 8 → p ≠ .int128 → 0 < inRegs →
    0 < onStack → onStack ≤ p.count →
      Fate st p inRegs onStack

theorem exists_outcome (st : ParamState) (p : Param) (hused : used st p.float ≤ 8) :
    ∃ a b, Outcome st p a b ∧ used st p.float + a ≤ 8 ∧ Fate st p a b := by
  rcases single_or_int128 p with hsingle | rfl
  · have hne : p ≠ .int128 := by
      rintro rfl
      cases hsingle with
      | word hword => cases hword with | integral hn => omega
    have hregs : p.regs = p.count := by
      cases p with
      | int128 => exact absurd rfl hne
      | _ => rfl
    rcases Nat.lt_or_ge 8 (used st p.float + p.regs) with hover | hfits
    · have hout : Outcome st p (8 - used st p.float) (p.count - (8 - used st p.float)) :=
        outcome_single hsingle (by omega) (by omega) (.inr (by omega))
      rcases Nat.lt_or_ge (used st p.float) 8 with hlt | hge
      · exact ⟨_, _, hout, by omega, .split hover hlt hne (by omega) (by omega) (by omega)⟩
      · exact ⟨_, _, hout, by omega, .stack hover (.inl (by omega)) (by omega) (by omega)⟩
    · exact ⟨_, _, outcome_single hsingle rfl (by omega) (.inl rfl), by
      omega, .regs hfits hregs.symm rfl⟩
  · rcases Nat.lt_or_ge (used st false) 7 with hlt | hge
    · exact ⟨2, 0, (outcome_int128 st).1 (Nat.succ_le_succ hlt), Nat.succ_le_succ hlt,
        .regs (Nat.succ_le_succ hlt) rfl rfl⟩
    · exact ⟨0, 1, (outcome_int128 st).2 hge, hused,
        .stack (Nat.succ_le_succ (Nat.succ_le_succ hge)) (.inr rfl) rfl rfl⟩

/-! ### Placements -/

def place (st : ParamState) (p : Param) : Placement :=
  ⟨p, (allocate st p).args.drop st.args.length, st.stackOffset, (allocate st p).stackOffset⟩

namespace Outcome

variable {st : ParamState} {p : Param} {a b : Nat}

theorem takesStack (h : Outcome st p a b) : (place st p).takesStack = decide (0 < b) := by
  obtain ⟨⟨first, second, hargs, -, rfl, -, hfirst, hsecond⟩, -⟩ := h
  rw [Placement.takesStack, place, hargs, List.drop_left, List.any_append]
  have hnone : first.any (·.isStack) = false := by simpa using hfirst
  rw [hnone, Bool.false_or]
  cases second with
  | nil => rfl
  | cons loc locs => simp [hsecond loc List.mem_cons_self]

theorem takesReg (h : Outcome st p a b) : (place st p).takesReg = decide (0 < a) := by
  obtain ⟨⟨first, second, hargs, rfl, -, -, hfirst, hsecond⟩, -⟩ := h
  rw [Placement.takesReg, place, hargs, List.drop_left, List.any_append]
  have hnone : second.any (!·.isStack) = false := by simpa using hsecond
  rw [hnone, Bool.or_false]
  cases first with
  | nil => rfl
  | cons loc locs => simp [hfirst loc List.mem_cons_self]

theorem whole_iff (h : Outcome st p a b) (hroom : used st p.float + a ≤ 8) :
    (place st p).InRegs ∨ (place st p).OnStack ↔ a = 0 ∨ b = 0 := by
  have hstack := h.takesStack
  have hreg := h.takesReg
  obtain ⟨⟨first, second, hargs, hfirst, hsecond, hregs, hfree, hput⟩, -⟩ := h
  have hlocs : (place st p).locs = first ++ second := by rw [place, hargs, List.drop_left]
  constructor
  · rintro (⟨hnone, -⟩ | hall)
    · have hfalse : (place st p).takesStack = false := by simpa [Placement.takesStack] using hnone
      simp only [hstack, decide_eq_false_iff_not] at hfalse
      exact .inr (by omega)
    · have hfalse : (place st p).takesReg = false := by
        simpa [Placement.takesReg, Placement.OnStack] using hall
      simp only [hreg, decide_eq_false_iff_not] at hfalse
      exact .inl (by omega)
  · rintro (rfl | rfl)
    · rw [List.length_eq_zero_iff.mp hfirst, List.nil_append] at hlocs
      rw [Placement.OnStack, hlocs]
      exact .inr hput
    · rw [List.length_eq_zero_iff.mp hsecond, List.append_nil] at hlocs
      exact .inl ⟨hlocs ▸ hfree, used st p.float, by rw [hlocs, hfirst]; exact hroom, by
        rw [hlocs, hfirst, hregs]; rfl⟩

theorem registers (h : Outcome st p a b) :
    (place st p).registers = (List.range' (used st p.float) a).map (regOf p.float) := by
  obtain ⟨⟨first, second, hargs, -, -, hregs, hfirst, hsecond⟩, -⟩ := h
  have hfree : first.filter (!·.isStack) = first := List.filter_eq_self.mpr (by simpa using hfirst)
  have hput : second.filter (!·.isStack) = [] := List.filter_eq_nil_iff.mpr (by simpa using hsecond)
  rw [Placement.registers, place, hargs, List.drop_left, List.filter_append, hfree, hput,
    List.append_nil, hregs]

end Outcome

/-! ### The counters of the standard -/

namespace Usage

variable (u : Usage) (p : Param)

def gap (float : Bool) : Nat := if float then 0 else u.skipped

theorem used_add (c : Bool) : (u.add p).used c =
    if c = p.float then if u.first p + p.regs ≤ 8 then u.first p + p.regs else 8 else u.used c := by
  unfold add
  split <;> cases p.float <;> cases c <;> rfl

theorem area_add :
    (u.add p).area = if u.first p + p.regs ≤ 8 then u.area else p.area u.area := by
  unfold add
  split <;> cases p.float <;> rfl

theorem skipped_add : (u.add p).skipped =
    if u.first p + p.regs ≤ 8 then u.skipped + p.skip u else u.skipped := by
  unfold add
  split <;> cases p.float <;> rfl

theorem gap_add (c : Bool) : (u.add p).gap c =
    if c = p.float ∧ u.first p + p.regs ≤ 8 then u.gap c + p.skip u else u.gap c := by
  unfold gap
  rw [skipped_add]
  cases c with
  | false =>
    -- only an integer skips registers
    have hskip : p.float = true → p.skip u = 0 := by cases p <;> simp [Param.float, Param.skip]
    cases hfloat : p.float <;> simp_all
  | true => cases p <;> simp [Param.float, Param.skip]

theorem used_le_first : u.used p.float ≤ u.first p := Nat.le_add_right _ _

theorem skipped_le_foldl (ps : List Param) : u.skipped ≤ (ps.foldl add u).skipped := by
  induction ps generalizing u with
  | nil => exact Nat.le_refl _
  | cons p ps ih =>
    refine le_trans ?_ (ih (u.add p))
    rw [skipped_add]
    split <;> omega

end Usage

/-! ### The stack area -/

namespace Param

theorem le_size (p : Param) : p.count * p.unit ≤ (p.size + 7) / 8 * 8 := by
  cases p with
  | fp type =>
    exact (Nat.one_mul _).trans_le (by show type.bits / 8 ≤ (type.bits / 8 + 7) / 8 * 8; omega)
  | hfa double count =>
    show count * ((element double).bits / 8) ≤ (count * ((element double).bits / 8) + 7) / 8 * 8
    omega
  | _ => simp [Param.count, Param.unit, Param.size]

theorem le_area (p : Param) (e : Nat) : e + p.count * p.unit ≤ p.area e :=
  Nat.add_le_add (le_alignUp e p.align) p.le_size

theorem align_pos (p : Param) : 0 < p.align := by
  unfold Param.align
  split <;> decide

theorem count_pos (p : Param) : 0 < p.count := by
  cases p with
  | hfa double count hcount => exact hcount.1
  | pair => exact Nat.two_pos
  | _ => exact Nat.one_pos

theorem unit_pos (p : Param) : 0 < p.unit := by
  cases p with
  | fp type => cases type <;> simp [Param.unit, FpType.bits]
  | hfa double => cases double <;> simp [Param.unit, Param.element, FpType.bits]
  | _ => exact Nat.succ_pos 7

theorem lt_area (p : Param) (e : Nat) : e < p.area e :=
  lt_of_lt_of_le (Nat.lt_add_of_pos_right (Nat.mul_pos p.count_pos p.unit_pos)) (p.le_area e)

theorem eight_dvd_align (p : Param) : 8 ∣ p.align := by
  unfold Param.align
  split <;> decide

theorem eight_dvd_area (p : Param) (a : Nat) : 8 ∣ p.area a :=
  Nat.dvd_add (p.eight_dvd_align.trans (dvd_alignUp a p.align_pos)) (Nat.dvd_mul_left 8 _)

theorem regs_pos (p : Param) : 0 < p.regs := by
  cases p with
  | int128 => exact Nat.two_pos
  | hfa double count hcount => exact hcount.1
  | pair => exact Nat.two_pos
  | _ => exact Nat.one_pos

end Param

theorem Fate.onStack_le (h : Fate st p a b) :
    b ≤ p.count := by
  cases h <;> omega

theorem used_le (h : Outcome st p a b) (hroom : used st p.float + a ≤ 8)
    (hused : ∀ c, used st c ≤ 8) (c : Bool) :
    used (allocate st p) c ≤ 8 := by
  rcases Bool.eq_or_eq_not c p.float with rfl | rfl
  · rw [h.same]
    exact hroom
  · rw [h.other]
    exact hused _

/-- The loop has given away no more registers than the standard. -/
structure Within (st : ParamState) (u : Usage) : Prop where
  used : ∀ c, used st c ≤ u.used c
  le : ∀ c, u.used c ≤ 8

namespace Within

variable {st : ParamState} {u : Usage} {p : Param} {a b : Nat}

theorem used_le_eight (h : Within st u) (c : Bool) : Aapcs.used st c ≤ 8 :=
  (h.used c).trans (h.le c)

theorem add (h : Within st u) (hout : Outcome st p a b) (hroom : Aapcs.used st p.float + a ≤ 8)
    (hfate : Fate st p a b) : Within (allocate st p) (u.add p) := by
  have hused := h.used p.float
  have hfirst := u.used_le_first p
  constructor
  · intro c
    rw [Usage.used_add]
    rcases Bool.eq_or_eq_not c p.float with rfl | rfl
    · rw [if_pos rfl, hout.same]
      split
      · cases hfate <;> omega
      · exact hroom
    · rw [if_neg (Bool.not_ne_self _), hout.other]
      exact h.used _
  · intro c
    rw [Usage.used_add]
    split_ifs with hc hfits
    · exact hfits
    · exact Nat.le_refl 8
    · exact h.le c

theorem bytes_le (h : Within st u) (hout : Outcome st p a b) (hfate : Fate st p a b) :
    (allocate st p).stackOffset + u.area ≤ st.stackOffset + (u.add p).area := by
  have hused := h.used p.float
  have hfirst := u.used_le_first p
  have hbytes : b * p.unit ≤ p.count * p.unit := Nat.mul_le_mul_right _ hfate.onStack_le
  have harea := p.le_area u.area
  rw [hout.offset, Usage.area_add]
  split
  · have hnone : b = 0 := by cases hfate <;> omega
    rw [hnone]
    omega
  · omega

end Within

theorem stackOffset_lt (ps : List Param) (h : Within st u) (hlt : st.stackOffset < u.area) :
    (ps.foldl allocate st).stackOffset < (ps.foldl Usage.add u).area := by
  induction ps generalizing st u with
  | nil => exact hlt
  | cons p ps ih =>
    obtain ⟨a, b, hout, hroom, hfate⟩ := exists_outcome st p (h.used_le_eight _)
    have hbytes := h.bytes_le hout hfate
    exact ih (h.add hout hroom hfate) (by omega)

theorem takesReg_of_used {c : Bool} (hused : ∀ c, used st c ≤ 8) (h : used st c = 8) :
    ∀ pl ∈ placements st ps, pl.param.float = c → pl.takesReg = false := by
  induction ps generalizing st with
  | nil => exact fun _ hpl => nomatch hpl
  | cons p ps ih =>
    obtain ⟨a, b, hout, hroom, -⟩ := exists_outcome st p (hused _)
    rw [placements, List.forall_mem_cons]
    constructor
    · rintro rfl
      refine hout.takesReg.trans ?_
      have hfull : used st p.float = 8 := h
      simp
      omega
    · refine ih (used_le hout hroom hused) ?_
      rcases Bool.eq_or_eq_not c p.float with rfl | rfl
      · have := hout.same
        omega
      · exact hout.other.trans h

/-! ### The loop and the standard -/

/-- The loop and the standard have given away the same registers, but for those that the standard
has skipped, and the same stack bytes. -/
structure Tracks (st : ParamState) (u : Usage) : Prop where
  used : ∀ c, used st c + u.gap c = u.used c
  area : st.stackOffset = u.area
  le : ∀ c, u.used c ≤ 8
  eight : 8 ∣ u.area

theorem stackOk_iff (hle : u.used p.float ≤ 8) (height : 8 ∣ u.area)
    (hover : 8 < u.first p + p.regs) :
    p.StackOk u ↔ (u.used p.float = 8 ∧ u.gap p.float = 0) ∧
      p.area u.area = u.area + p.count * p.unit := by
  have hround : alignUp u.area 8 = u.area := if_neg fun hne => hne (Nat.mod_eq_zero_of_dvd height)
  cases p with
  | int | ptr | indirect =>
    have hfull : u.ints = 8 := Nat.le_antisymm hle (Nat.lt_succ_iff.mp hover)
    simp [Param.StackOk, Param.area, Param.align, Param.size, Param.count, Param.unit, hround,
      Usage.used, Usage.gap, Param.float, hfull]
  | int128 =>
    have halign := le_alignUp u.area 16
    simp [Param.StackOk, Param.area, Param.align, Param.size, Param.count, Param.unit]
    omega
  | pair =>
    simp [Param.StackOk, Param.area, Param.align, Param.size, Param.count, Param.unit, hround,
      Usage.used, Usage.gap, Param.float]
  | fp type htype =>
    have hfull : u.floats = 8 := Nat.le_antisymm hle (Nat.lt_succ_iff.mp hover)
    have hsixteen : alignUp u.area 16 = u.area ↔ 16 ∣ u.area :=
      ⟨fun heq => heq ▸ dvd_alignUp u.area (by decide),
        fun hdvd => if_neg fun hne => hne (Nat.mod_eq_zero_of_dvd hdvd)⟩
    cases type with
    | x86Fp80 => exact absurd rfl htype
    | _ =>
      simp [Param.StackOk, Param.area, Param.align, Param.size, Param.count, Param.unit,
        FpType.bits, hround, hsixteen, Usage.used, Usage.gap, Param.float, hfull]
  | hfa double count hcount =>
    cases double with
    | false =>
      simp [Param.StackOk, Param.area, Param.align, Param.size, Param.count, Param.unit,
        Param.element, FpType.bits, hround, Usage.used, Usage.gap, Param.float]
      omega
    | true =>
      simp [Param.StackOk, Param.area, Param.align, Param.size, Param.count, Param.unit,
        Param.element, FpType.bits, hround, Usage.used, Usage.gap, Param.float]
      omega

theorem full_of_counted {e : Nat} (hfull : used st p.float = 8 ∨ p = .int128)
    (hbytes : p.area e = e + p.count * p.unit) :
    used st p.float = 8 := by
  refine hfull.resolve_right ?_
  rintro rfl
  have halign := le_alignUp e 16
  have hcounted : alignUp e 16 + 16 = e + 8 := hbytes
  omega

namespace Tracks

variable {st : ParamState} {u : Usage} {p : Param} {a b : Nat}

theorem within (h : Tracks st u) : Within st u :=
  ⟨fun c => Nat.le.intro (h.used c), h.le⟩

theorem used_allocate (h : Tracks st u) (hout : Outcome st p a b) (c : Bool) :
    Aapcs.used (allocate st p) c + u.gap c = if c = p.float then u.used c + a else u.used c := by
  have hused := h.used c
  rcases Bool.eq_or_eq_not c p.float with rfl | rfl
  · rw [if_pos rfl, hout.same]
    omega
  · rw [if_neg (Bool.not_ne_self _), hout.other, hused]

theorem regs (h : Tracks st u) (hout : Outcome st p p.regs 0) (hfits : u.first p + p.regs ≤ 8) :
    Tracks (allocate st p) (u.add p) := by
  have harea : (u.add p).area = u.area := by rw [Usage.area_add, if_pos hfits]
  refine ⟨fun c => ?_, ?_, fun c => ?_, ?_⟩
  · have hused := h.used_allocate hout c
    rw [Usage.gap_add, Usage.used_add]
    by_cases hc : c = p.float
    · rw [if_pos hc] at hused
      rw [if_pos ⟨hc, hfits⟩, if_pos hc, if_pos hfits, Usage.first, ← hc]
      omega
    · rw [if_neg hc] at hused
      rw [if_neg fun hboth => hc hboth.1, if_neg hc, hused]
  · rw [hout.offset, harea, h.area, Nat.zero_mul, Nat.add_zero]
  · exact (h.within.add hout (by have := h.used p.float; have := u.used_le_first p; omega)
      (.regs (by have := h.used p.float; have := u.used_le_first p; omega) rfl rfl)).le c
  · rw [harea]
    exact h.eight

theorem stack (h : Tracks st u) (hout : Outcome st p 0 p.count) (hover : 8 < u.first p + p.regs)
    (hfull : Aapcs.used st p.float = 8) (hbytes : p.area u.area = u.area + p.count * p.unit) :
    Tracks (allocate st p) (u.add p) := by
  have hsame := h.used p.float
  have hle := h.le p.float
  have hstack : ¬ u.first p + p.regs ≤ 8 := Nat.not_le.mpr hover
  have harea : (u.add p).area = p.area u.area := by rw [Usage.area_add, if_neg hstack]
  have hused (c : Bool) : (u.add p).used c = u.used c := by
    rw [Usage.used_add, if_neg hstack]
    split
    · rename_i hc
      rw [hc]
      omega
    · rfl
  refine ⟨fun c => ?_, ?_, fun c => ?_, ?_⟩
  · rw [Usage.gap_add, if_neg fun hboth => hstack hboth.2, h.used_allocate hout, hused,
      Nat.add_zero, ite_self]
  · rw [hout.offset, harea, hbytes, h.area]
  · rw [hused]
    exact h.le c
  · rw [harea]
    exact p.eight_dvd_area u.area

theorem fits_iff (h : Tracks st u) (hover : 8 < u.first p + p.regs) :
    p.Fits u ↔ Aapcs.used st p.float = 8 ∧ p.area u.area = u.area + p.count * p.unit := by
  have hused := h.used p.float
  have hle := h.le p.float
  rw [Param.Fits, or_iff_right (Nat.not_le.mpr hover), stackOk_iff hle h.eight hover]
  refine and_congr_left' ⟨fun hfull => by omega, fun hfull => by omega⟩

theorem of_fits (h : Tracks st u) (hfits : p.Fits u) :
    Tracks (allocate st p) (u.add p) ∧
      (u.first p + p.regs ≤ 8 ∧ Outcome st p p.regs 0 ∨
        8 < u.first p + p.regs ∧ Aapcs.used st p.float = 8 ∧ Outcome st p 0 p.count) := by
  have hused := h.used p.float
  have hfirst := u.used_le_first p
  obtain ⟨a, b, hout, hroom, hfate⟩ := exists_outcome st p (h.within.used_le_eight _)
  rcases Nat.lt_or_ge 8 (u.first p + p.regs) with hover | hstd
  · obtain ⟨hfull, hbytes⟩ := (h.fits_iff hover).mp hfits
    have hregs := p.regs_pos
    cases hfate with
    | regs hregs => omega
    | stack _ _ ha hb =>
      subst ha hb
      exact ⟨h.stack hout hover hfull hbytes, .inr ⟨hover, hfull, hout⟩⟩
    | split _ hlt => omega
  · cases hfate with
    | regs _ ha hb =>
      subst ha hb
      exact ⟨h.regs hout hstd, .inl ⟨hstd, hout⟩⟩
    | stack hover => omega
    | split hover => omega

theorem of_not_fits (h : Tracks st u) (hout : Outcome st p a b) (hfate : Fate st p a b)
    (hfits : ¬ p.Fits u) : 0 < a ∧ 0 < b ∨ (allocate st p).stackOffset < (u.add p).area := by
  have hover : 8 < u.first p + p.regs := Nat.not_le.mp fun hstd => hfits (.inl hstd)
  have harea : (u.add p).area = p.area u.area := by
    rw [Usage.area_add, if_neg (Nat.not_le.mpr hover)]
  have hstart := h.area
  cases hfate with
  | regs _ _ hb =>
    refine .inr ?_
    rw [hout.offset, harea, hb, Nat.zero_mul, Nat.add_zero, hstart]
    exact p.lt_area u.area
  | stack _ hfull _ hb =>
    refine .inr ?_
    have hbytes : p.area u.area ≠ u.area + p.count * p.unit := fun hbytes =>
      hfits ((h.fits_iff hover).mpr ⟨full_of_counted hfull hbytes, hbytes⟩)
    have hle := p.le_area u.area
    rw [hout.offset, harea, hb]
    omega
  | split _ _ _ ha hb => exact .inl ⟨ha, hb⟩

end Tracks

def Good (st : ParamState) (u : Usage) (ps : List Param) : Prop :=
  (∀ pl ∈ placements st ps, pl.InRegs ∨ pl.OnStack) ∧
  (placements st ps).Pairwise (fun pl pl' =>
    pl.param.float = pl'.param.float → pl.takesStack = true → pl'.takesReg = false) ∧
  (∀ pl ∈ placements st ps, pl.param.IsScalar → 8 ∣ pl.finish - pl.start) ∧
  (ps.foldl allocate st).stackOffset = (ps.foldl Usage.add u).area

theorem good_nil : Good st u [] ↔ st.stackOffset = u.area := by
  simp [Good, placements]

theorem good_cons :
    Good st u (p :: ps) ↔
    (((place st p).InRegs ∨ (place st p).OnStack) ∧
      (∀ pl ∈ placements (allocate st p) ps, p.float = pl.param.float →
        (place st p).takesStack = true → pl.takesReg = false) ∧
      (p.IsScalar → 8 ∣ (allocate st p).stackOffset - st.stackOffset)) ∧
    Good (allocate st p) (u.add p) ps := by
  unfold Good
  rw [placements, List.forall_mem_cons, List.forall_mem_cons, List.pairwise_cons, List.foldl_cons,
    List.foldl_cons]
  constructor
  · rintro ⟨⟨hwhole, hwholes⟩, ⟨hreg, hregs⟩, ⟨hscalar, hscalars⟩, htotal⟩
    exact ⟨⟨hwhole, hreg, hscalar⟩, hwholes, hregs, hscalars, htotal⟩
  · rintro ⟨⟨hwhole, hreg, hscalar⟩, hwholes, hregs, hscalars, htotal⟩
    exact ⟨⟨hwhole, hwholes⟩, ⟨hreg, hregs⟩, ⟨hscalar, hscalars⟩, htotal⟩

theorem good_iff (h : Tracks st u) :
    Good st u ps ↔ AllFit u ps := by
  induction ps generalizing st u with
  | nil => exact iff_of_true (good_nil.mpr h.area) (Fold.atEach_nil u)
  | cons p ps ih =>
    rw [good_cons, AllFit, Fold.atEach_cons]
    by_cases hfits : p.Fits u
    · obtain ⟨htracks, hcases⟩ := h.of_fits hfits
      rw [ih htracks]
      refine and_congr_left' (iff_of_true ?_ hfits)
      rcases hcases with ⟨hstd, hout⟩ | ⟨-, hfull, hout⟩
      · have hused := h.used p.float
        have hfirst := u.used_le_first p
        have hnone : (place st p).takesStack = false := hout.takesStack
        refine ⟨(hout.whole_iff (by omega)).mpr (.inr rfl), ?_, ?_⟩
        · rw [hnone]
          exact fun _ _ _ htakes => absurd htakes Bool.false_ne_true
        · rw [hout.offset]
          simp
      · refine ⟨(hout.whole_iff hfull.le).mpr (.inl rfl), ?_, ?_⟩
        · intro pl hpl hclass _
          have hafter : used (allocate st p) p.float = 8 := by rw [hout.same, hfull]
          exact takesReg_of_used htracks.within.used_le_eight hafter pl hpl hclass.symm
        · intro _
          rw [h.area, htracks.area]
          exact Nat.dvd_sub htracks.eight h.eight
    · obtain ⟨a, b, hout, hroom, hfate⟩ := exists_outcome st p (h.within.used_le_eight _)
      refine iff_of_false ?_ fun hfit => hfits hfit.1
      rintro ⟨⟨hwhole, -⟩, -, -, -, htotal⟩
      rcases h.of_not_fits hout hfate hfits with ⟨ha, hb⟩ | hlt
      · rw [hout.whole_iff hroom] at hwhole
        omega
      · -- the loop falls behind here, and never catches up
        exact absurd htotal (stackOffset_lt ps (h.within.add hout hroom hfate) hlt).ne

theorem registers_eq_iff (h : Tracks st u) (hskipped : u.skipped = 0) (hfit : AllFit u ps) :
    (placements st ps).map (·.registers) = standardRegs u ps ↔
      (ps.foldl Usage.add u).skipped = 0 := by
  induction ps generalizing st u with
  | nil => exact iff_of_true rfl hskipped
  | cons p ps ih =>
    obtain ⟨hhead, hrest⟩ := Fold.atEach_cons.mp hfit
    obtain ⟨htracks, hcases⟩ := h.of_fits hhead
    have hgap : u.gap p.float = 0 := by cases hfloat : p.float <;> simp [Usage.gap, hskipped]
    have hused : used st p.float = u.used p.float := by rw [← h.used, hgap, Nat.add_zero]
    rw [placements, List.map_cons, standardRegs, List.cons.injEq, List.foldl_cons]
    rcases hcases with ⟨hstd, hout⟩ | ⟨hover, -, hout⟩
    · have hregs : (place st p).registers = _ := hout.registers
      have hadd : (u.add p).skipped = p.skip u := by
        rw [Usage.skipped_add, if_pos hstd, hskipped, Nat.zero_add]
      rw [if_pos hstd, ← place, hregs, hused]
      by_cases hskip : p.skip u = 0
      · rw [Usage.first, hskip, Nat.add_zero, ih htracks (hadd.trans hskip) hrest]
        exact and_iff_right rfl
      · refine iff_of_false ?_ ?_
        · rintro ⟨heq, -⟩
          cases p with
          | int128 =>
            have hodd : u.ints % 2 = 1 := Nat.mod_two_ne_zero.mp hskip
            have hfirst : u.first .int128 = u.ints + 1 := congrArg (u.ints + ·) hodd
            rw [hfirst] at heq hstd
            have hreg : intReg u.ints = intReg (u.ints + 1) := (List.cons.inj heq).1
            have hroom : u.ints + 1 + 2 ≤ 8 := hstd
            exact absurd (intReg_inj (by omega) (by omega) hreg) (Nat.succ_ne_self _).symm
          | _ => exact hskip rfl
        · have hle := (u.add p).skipped_le_foldl ps
          omega
    · have hregs : (place st p).registers = [] := hout.registers
      have hadd : (u.add p).skipped = 0 := by
        rw [Usage.skipped_add, if_neg (Nat.not_le.mpr hover), hskipped]
      rw [if_neg (Nat.not_le.mpr hover), ← place, hregs, ih htracks hadd hrest]
      exact and_iff_right rfl

theorem abiSlotsForArgs_lower (sig : Signature) :
    abiSlotsForArgs (sig.params.map Param.lower) = .ok sig.abi.args := by
  have hgroups : List.Forall₂ (fun param slots => abiSlotsForArg param = .ok slots)
    (sig.params.map Param.lower)
      (sig.params.map Param.slots) := by
    rw [List.forall₂_map_left_iff, List.forall₂_map_right_iff, List.forall₂_same]
    exact fun p _ => p.abiSlotsForArg_lower
  rw [Rewriter.abiSlotsForArgs_eq hgroups]
  rfl

theorem foldl_slots (ps : List Param) (st : ParamState) :
    (ps.flatMap Param.slots).foldl allocateParam st = ps.foldl allocate st := by
  rw [List.foldl_flatMap]
  rfl

theorem foldl_allocate_args (ps : List Param) (st : ParamState) :
    (ps.foldl allocate st).args = st.args ++ (placements st ps).flatMap (·.locs) := by
  induction ps generalizing st with
  | nil => exact (List.append_nil _).symm
  | cons p ps ih =>
    have hhead : (allocate st p).args = st.args ++ (allocate st p).args.drop st.args.length := by
      have hslots : ∀ slot ∈ p.slots, Slot slot :=
        fun slot hslot => List.eq_of_mem_replicate hslot ▸ p.slot_isSlot
      rw [allocate, foldl_args hslots, List.drop_left]
    rw [List.foldl_cons, ih, hhead, List.append_assoc, placements, List.flatMap_cons]

theorem tracks_initial (ret : List ArgLocation) : Tracks (initialParams ret) {} := by
  rcases initialParams_cases ret with h | h
  · rw [h]
    exact ⟨by decide, rfl, by decide, by decide⟩
  · rw [h]
    exact ⟨by decide, rfl, by decide, by decide⟩

theorem foldl_allocate (sig : Signature) :
    sig.abi.args.foldl allocateParam (initialParams sig.ret) =
      sig.params.foldl allocate (initialParams sig.ret) :=
  foldl_slots sig.params _

theorem passedWhole_iff_allFit (sig : Signature) : PassedWhole sig ↔ AllFit {} sig.params := by
  rw [← good_iff (tracks_initial sig.ret)]
  have htotal : (allocateParamLocations sig.abi).2 =
      (sig.params.foldl allocate (initialParams sig.ret)).stackOffset :=
    congrArg ParamState.stackOffset (foldl_allocate sig)
  have hlocs : (allocateParamLocations sig.abi).1 =
      (initialParams sig.ret).args ++ sig.placements.flatMap (·.locs) :=
    (congrArg ParamState.args (foldl_allocate sig)).trans (foldl_allocate_args _ _)
  constructor
  · intro h
    exact ⟨h.whole, h.exhausted, h.scalars, htotal.symm.trans h.total⟩
  · rintro ⟨hwhole, hexhausted, hscalars, harea⟩
    exact ⟨abiSlotsForArgs_lower sig, hlocs, hwhole, hexhausted, hscalars, htotal.trans harea⟩

/-- Seven integers before a 16-byte composite. -/
def sevenAndPair : Signature where
  params := List.replicate 7 (.int 64 (Nat.le_refl 64)) ++ [.pair]
  ret := []
  ret_slots := .void

/-- An integer that has to be at an even register, behind a number of others and before another
one. -/
def intsAndWide (n : Nat) : Signature where
  params := List.replicate n (.int 64 (Nat.le_refl 64)) ++ [.int128, .int 64 (Nat.le_refl 64)]
  ret := []
  ret_slots := .void

end Ia2.Arm.Aapcs
