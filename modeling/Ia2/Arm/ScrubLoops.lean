import Ia2.Arm.Crossing

/-!
# The loops of `emit_scrub_regs`

The code that scrubs registers on AArch64 comes from two loops over the saved registers. The first
pushes them in pairs and leaves the last one of an odd number to a test behind it. The second goes
backwards, takes the odd one first, and moves its iterator a second time in the middle of each
round. Here they are as they are written, with the assertion of the second one, and give the code of
`emitScrubRegs`. So whatever registers are listed, the pops undo the pushes.
-/

namespace Ia2.Arm

open StraightLine Set
open Rewriter.ArgLocation (register stack indirect)

/-! ### The loops -/

def regArgCount (locs : List Location) : Nat := locs.countP fun loc => !loc.isStack

def collectReg (regs : List (Fin 31) × List VReg) (loc : Location) : List (Fin 31) × List VReg :=
  match loc.isStack, loc.reg with
  | false, some (.q i) => (regs.1, regs.2 ++ [i])
  | false, some (.x r) => (regs.1 ++ [r], regs.2)
  | _, _ => regs

def collectRegs (locs : List Location) (isIndirect : Bool) : List (Fin 31) × List VReg :=
  locs.foldl collectReg (if isIndirect then [9] else [], [])

def savePairsLoop : List (Fin 31) → List Instr × List (Fin 31)
  | [] => ([], [])
  -- the round at the last register leaves the loop before it moves the iterator
  | [reg₁] => ([], [reg₁])
  | reg₁ :: reg₂ :: regs =>
    (.stpPre (.x reg₁) (.x reg₂) :: (savePairsLoop regs).1, (savePairsLoop regs).2)

def saveRegs (regs : List (Fin 31)) : List Instr :=
  (savePairsLoop regs).1 ++
    match (savePairsLoop regs).2 with
    | [] => []
    | reg :: _ => [.strPre (.x reg)]

def restorePairsLoop : List (Fin 31) → Option (List Instr)
  | [] => some []
  | [_] => none
  | reg₁ :: reg₂ :: regs => (restorePairsLoop regs).map (.ldpPost (.x reg₂) (.x reg₁) :: ·)

def restoreRegs (regs : List (Fin 31)) : Option (List Instr) :=
  if regs.length % 2 = 1 then
    match regs.reverse with
    | [] => none
    | reg :: regs => (restorePairsLoop regs).map ([.ldr .x (.x reg) .sp 0, .addImm .sp .sp 16] ++ ·)
  else restorePairsLoop regs.reverse

/-- `emit_scrub_regs`; `none` if its assertion fails. -/
def scrubRegsCode (locs : List Location) (isIndirect : Bool) : Option (List Instr) :=
  let preserveRegs := decide (0 < regArgCount locs) || isIndirect
  let (regs64, regs128) := collectRegs locs isIndirect
  if preserveRegs && (!regs128.isEmpty || !regs64.isEmpty) then
    (restoreRegs regs64).map fun restored =>
      saveRegs regs64 ++ regs128.map .strQPre ++ [.bl .scrubRegisters] ++
        regs128.reverse.map .ldrQPost ++ restored
  else some [.bl .scrubRegisters]

/-! ### The code that they give -/

theorem foldl_collectReg (locs : List Location) (regs : List (Fin 31) × List VReg) :
    locs.foldl collectReg regs = (regs.1 ++ regs64bit locs false, regs.2 ++ regs128bit locs) := by
  induction locs generalizing regs with
  | nil => simp [regs64bit, regs128bit]
  | cons loc locs ih =>
    rw [List.foldl_cons, ih]
    simp only [collectReg, regs64bit, regs128bit, List.filterMap_cons]
    cases loc.isStack <;> rcases loc.reg with _ | _ | _ <;> simp

theorem collectRegs_eq (locs : List Location) (isIndirect : Bool) :
    collectRegs locs isIndirect = (regs64bit locs isIndirect, regs128bit locs) := by
  rw [collectRegs, foldl_collectReg]
  cases isIndirect <;> simp [regs64bit]

theorem saveRegs_eq (regs : List (Fin 31)) : saveRegs regs = savePairs regs := by
  induction regs using savePairs.induct with
  | case1 => rfl
  | case2 r => rfl
  | case3 r₁ r₂ rs ih =>
    rw [savePairs, ← ih]
    rfl

theorem restorePairsLoop_append (regs : List (Fin 31)) (r₁ r₂ : Fin 31) :
    restorePairsLoop (regs ++ [r₂, r₁]) = (restorePairsLoop regs).map
      (· ++ [.ldpPost (.x r₁) (.x r₂)]) := by
  induction regs using restorePairsLoop.induct with
  | case1 => rfl
  | case2 r => rfl
  | case3 reg₁ reg₂ regs ih =>
    rw [List.cons_append, List.cons_append, restorePairsLoop, restorePairsLoop, ih]
    cases restorePairsLoop regs <;> rfl

theorem restoreRegs_eq (regs : List (Fin 31)) : restoreRegs regs = some (restorePairs regs) := by
  induction regs using restorePairs.induct with
  | case1 => rfl
  | case2 r => rfl
  | case3 r₁ r₂ rs ih =>
    have hreverse : (r₁ :: r₂ :: rs).reverse = rs.reverse ++ [r₂, r₁] := by simp
    have hparity : (r₁ :: r₂ :: rs).length % 2 = rs.length % 2 := by
      rw [List.length_cons, List.length_cons]
      omega
    rw [restoreRegs] at ih ⊢
    rw [hparity, hreverse, restorePairs]
    split at ih
    · rename_i hodd
      rw [if_pos hodd]
      cases hback : rs.reverse with
      | nil =>
        rw [hback] at ih
        cases ih
      | cons reg regs =>
        rw [hback] at ih
        obtain ⟨code, hcode, hrs⟩ := Option.map_eq_some_iff.mp ih
        rw [List.cons_append, ← hrs]
        change (restorePairsLoop (regs ++ [r₂, r₁])).map _ = _
        rw [restorePairsLoop_append, hcode]
        rfl
    · rename_i heven
      rw [if_neg heven, restorePairsLoop_append, ih, Option.map_some]

variable {locs : List Location}

theorem regs_nil_of_regArgCount (h : regArgCount locs = 0) :
    regs64bit locs false = [] ∧ regs128bit locs = [] := by
  have hstack : ∀ loc ∈ locs, loc.isStack = true := by
    intro loc hloc
    simpa using List.countP_eq_zero.mp h loc hloc
  constructor
  · rw [regs64bit, if_neg Bool.false_ne_true, List.nil_append, List.filterMap_eq_nil_iff]
    intro loc hloc
    rw [hstack loc hloc]
  · rw [regs128bit, List.filterMap_eq_nil_iff]
    intro loc hloc
    rw [hstack loc hloc]

theorem scrubRegsCode_eq (locs : List Location) (isIndirect : Bool) :
    scrubRegsCode locs isIndirect = some (emitScrubRegs locs isIndirect) := by
  rw [scrubRegsCode, collectRegs_eq]
  dsimp only
  split
  · rw [restoreRegs_eq, saveRegs_eq, Option.map_some, emitScrubRegs]
  · rename_i hnothing
    have hnil : regs64bit locs isIndirect = [] ∧ regs128bit locs = [] := by
      simp only [Bool.and_eq_true, Bool.or_eq_true, decide_eq_true_eq, Bool.not_eq_true',
        List.isEmpty_eq_false_iff, not_and_or, not_or,
        not_not, Nat.not_lt, Nat.le_zero, Bool.not_eq_true] at hnothing
      rcases hnothing with ⟨hcount, rfl⟩ | ⟨hq, hx⟩
      · exact regs_nil_of_regArgCount hcount
      · exact ⟨hx, hq⟩
    rw [emitScrubRegs, hnil.1, hnil.2]
    rfl

theorem mem_savedRegs {isIndirect : Bool} {loc : Location} (hloc : loc ∈ locs)
    (hstack : loc.isStack = false) {r : ArgReg} (hr : loc.reg = some r) :
    r ∈ savedRegs locs isIndirect := by
  cases r with
  | x n =>
    apply List.mem_append_right
    apply List.mem_map_of_mem
    exact List.mem_append_right _ (List.mem_filterMap.mpr ⟨loc, hloc, by rw [hstack, hr]⟩)
  | q i =>
    apply List.mem_append_left
    apply List.mem_map_of_mem
    exact List.mem_filterMap.mpr ⟨loc, hloc, by rw [hstack, hr]⟩

/-- The code around a function that may leave anything in the registers comes back to its stack
pointer with the listed registers as they were. It keeps the stack aligned and writes below it only.
-/
theorem scrubRegsCode_undone (scrub : Scrub) (env : Env) (locs : List Location) (isIndirect : Bool)
    (s : State) (hroom : scrubBytes locs isIndirect ≤ low s.sp) :
    ∃ code, scrubRegsCode locs isIndirect = some code ∧
      (run (execWith scrub env) code s).sp = s.sp ∧
      (s.sp.toNat % 16 = 0 → Along (execWith scrub env) (fun _ t => t.sp.toNat % 16 = 0) code s) ∧
      (∀ loc ∈ locs, loc.isStack = false → ∀ r,
        loc.reg = some r → r.value (run (execWith scrub env) code s) = r.value s) ∧
      (isIndirect = true → (run (execWith scrub env) code s).regs (.x 9) = s.regs (.x 9)) ∧
      Along (execWith scrub env) (fun i t => stores i t ⊆ Iio (low s.sp)) code s ∧
      EqOn (run (execWith scrub env) code s).mem s.mem (Ici (low s.sp)) := by
  obtain ⟨hsteps, hsp, hvalue, hmem⟩ := nested_scrubRegs scrub env locs isIndirect s hroom
  refine ⟨_, scrubRegsCode_eq locs isIndirect, hsp, fun halign => ?_,
    fun loc hloc hstack r hr => ?_, fun hind => ?_, ?_, ?_⟩
  · apply hsteps.mono
    intro i t _ ht
    rw [ht.2, halign]
  · exact hvalue r (.inr (mem_savedRegs hloc hstack hr))
  · apply BitVec.eq_of_toNat_eq
    apply hvalue (.x 9)
    apply Or.inr
    apply List.mem_append_right
    rw [hind]
    exact List.mem_cons_self
  · apply hsteps.mono
    intro i t _ ht
    exact ht.1
  · apply hmem.mono
    intro a ha hlt
    exact absurd hlt.2 (not_lt.mpr ha)

/-- A function that zeroes `x0` to `x17`, `x19` to `x28` and all vector registers. -/
def Scrub.clobbering : Scrub where
  apply s := { scrubRegisters s with vregs := fun _ => 0 }
  sp _ := rfl
  mem _ := rfl

/-- Two general and two vector registers, with a stack slot and one without a register between them.
-/
def mixedLocs : List Location :=
  [⟨register .integral 8, intReg 0⟩, ⟨register .float 16, floatReg 0⟩, ⟨stack 8 8, none⟩,
    ⟨indirect 24 8, none⟩,
    ⟨register .integral 8, intReg 1⟩, ⟨register .float 16, floatReg 1⟩]

theorem scrubRegsCode_undone_mixed :
    ∃ code, scrubRegsCode mixedLocs true = some code ∧
      (run (execWith .clobbering idleEnv) code entryState).sp = 0x20000#64 ∧
      ∀ loc ∈ mixedLocs, loc.isStack = false → ∀ r, loc.reg = some r →
        r.value (run (execWith .clobbering idleEnv) code entryState) = r.value entryState := by
  have hroom : scrubBytes mixedLocs true ≤ low entryState.sp := by decide
  obtain ⟨code, hcode, hsp, -, hvalue, -⟩ :=
    scrubRegsCode_undone .clobbering idleEnv mixedLocs true entryState hroom
  exact ⟨code, hcode, hsp, hvalue⟩

end Ia2.Arm
