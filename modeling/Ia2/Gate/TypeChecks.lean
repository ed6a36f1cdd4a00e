import Ia2.Gate.Conditions
import Ia2.Rewriter.DetermineAbi
import Ia2.Rewriter.Sysv

/-!
# Which argument a type check looks at

A type check takes the number of a parameter in the source for the number of an integer register.
Here a function is given by its parameters as clang lowers them, so that both numbers are known:
`intReg` is the register in which the System V ABI passes a parameter, and the trace of the emitted
code is what the type registry is told. The two agree exactly if every checked register belongs to a
parameter of the same type.
-/

namespace Ia2.Gate

open X86 StraightLine Rewriter Set

/-! ### Functions -/

/-- A C function: its parameters with their types, its result, and the signature that the rewriter
determines for it. -/
structure CFunction where
  params : List (CParam × TypeInfo)
  ret : CParam
  abi : AbiSignature
  determined : determineAbiSignature ret (params.map Prod.fst) = .ok (abi.args, abi.ret)

def slotsOf (param : CParam) : List ArgLocation :=
  match abiSlotsForArg param with
  | .ok slots => slots
  | .error _ => []

namespace CFunction

variable (fn : CFunction)

def types : List TypeInfo := fn.params.map Prod.snd

def sig : FnSignature := ⟨fn.abi, fn.types⟩

def taken (i : Nat) : Nat × Nat :=
  ((fn.params.take i).flatMap fun param => slotsOf param.1).foldl
    (fun taken slot =>
      match Sysv.regs taken.1 taken.2 slot with
      | some (_, taken) => taken
      | none => taken)
    ((Sysv.hiddenRegs fn.abi).length, 0)

/-- The integer register in which the ABI passes a parameter as a whole, if there is one. -/
def intReg (i : Nat) : Option Reg :=
  match fn.params[i]? with
  | none => none
  | some (param, _) =>
    match slotsOf param with
    | [slot] =>
      match Sysv.regs (fn.taken i).1 (fn.taken i).2 slot with
      | some ([.gpr r], _) => some r
      | _ => none
    | _ => none

def checkCode (target : Option TargetInfo) : List Instr :=
  match target with
  | none => []
  | some target => emitTypeRegistryChecks target fn.sig.api

end CFunction

/-! ### What the registry is told -/

def registryEvent (i : Instr) (t : State) : Option (RegistryFn × BitVec 64 × BitVec 64) :=
  match i with
  | .call (.typeRegistry fn) => some (fn, t.regs .rdi, t.regs .rsi)
  | _ => none

def reportTo (target : Option TargetInfo) (i : Nat) : RegistryFn :=
  match target with
  | none => .check
  | some target =>
    if i = 0 ∧ target.isConstructor = true then .construct
    else if i = 0 ∧ target.isDestructor = true then .destruct
    else .check

structure RegistryOk (env : Env) (s : State) : Prop where
  room : argsBytes + 16 ≤ s.rsp.toNat
  functions : ∀ fn, SysvFn (s.rsp.toNat - (argsBytes + 16)) s.rsp.toNat s.rsp.toNat ∅
    (env.function (.typeRegistry fn))

structure Checked (fn : CFunction) (target : Option TargetInfo) (env : Env) (s : State) : Prop where
  told : ∀ i type r, fn.types[i]? = some type → type.hasStructors = true → fn.intReg i = some r →
    (reportTo target i, s.regs r, BitVec.ofNat 64 type.id) ∈
    trace (exec env) registryEvent (fn.checkCode target) s
  regs : ∀ r ∈ intParamRegOrder, (run (exec env) (fn.checkCode target) s).regs r = s.regs r
  rsp : (run (exec env) (fn.checkCode target) s).rsp = s.rsp

/-- The checks look at the right argument, whatever the registers hold. -/
def ChecksRightArgument (fn : CFunction) (target : Option TargetInfo) : Prop :=
  ∀ env s, RegistryOk env s → Checked fn target env s

/-- Every parameter to check is in the register with the number of a parameter that is checked as
the same type; a constructor or a destructor has no other such parameter than the first one. -/
def Paired (fn : CFunction) (target : Option TargetInfo) : Prop :=
  ∀ i type r, fn.types[i]? = some type → type.hasStructors = true → fn.intReg i = some r →
    ∃ info, target = some info ∧
      if info.isConstructor = true ∨ info.isDestructor = true then i = 0 ∧ r = .rdi
      else ∃ (j : Nat) (type' : TypeInfo), fn.types[j]? = some type' ∧ type'.hasStructors = true ∧
        intParamRegOrder[j]? = some r ∧
        BitVec.ofNat 64 type'.id = BitVec.ofNat 64 type.id

/-! ### The trace of the checks -/

variable {i j : Nat} {fn : CFunction} {r : Reg} {env : Env} {s : State}

theorem mem_range_zip {A : Type} {xs : List A} {x : A} :
    (i, x) ∈ (List.range xs.length).zip xs ↔ xs[i]? = some x := by
  rw [List.mem_iff_getElem?]
  constructor
  · rintro ⟨k, hk⟩
    obtain ⟨hrange, hx⟩ := List.getElem?_zip_eq_some.mp hk
    obtain ⟨hlt, hvalue⟩ := List.getElem?_eq_some_iff.mp hrange
    rw [List.getElem_range] at hvalue
    cases hvalue
    exact hx
  · intro h
    have hi : i < xs.length := (List.getElem?_eq_some_iff.mp h).1
    exact ⟨i, List.getElem?_zip_eq_some.mpr ⟨List.getElem?_range hi, h⟩⟩

theorem mem_registryChecks {target : TargetInfo} {api : List TypeInfo} {type : TypeInfo} :
    (j, type) ∈ (registryChecks target api).2 ↔ api[j]? = some type ∧
      if target.isConstructor = true ∨ target.isDestructor = true then j = 0
      else type.hasStructors = true ∧ j < intParamRegOrder.length := by
  have hfirst : (j, type) ∈ ((List.range api.length).zip api).take 1 ↔
      api[j]? = some type ∧ j = 0 := by
    cases api with
    | nil => simp
    | cons type' api =>
      rw [List.length_cons, List.range_succ_eq_map, List.zip_cons_cons, List.take_succ_cons,
        List.take_zero, List.mem_singleton]
      constructor
      · rintro ⟨⟩
        exact ⟨rfl, rfl⟩
      · rintro ⟨hget, rfl⟩
        cases hget
        rfl
  unfold registryChecks
  dsimp only
  cases target.isConstructor <;> cases target.isDestructor
  · simp [List.mem_filter, mem_range_zip]
  all_goals simpa using hfirst

def checkedReg (j : Nat) : Reg := intParamRegOrder.getD j .rdi

section

variable {env : Env} {pkru : BitVec 32} {lo hi top : Nat} {keep : Set Nat} {s : State}
variable {v : Reg → BitVec 64} {api : List TypeInfo} {target : TargetInfo}

theorem trace_registryCall {fn : RegistryFn} {id : Nat} (hi : i < intParamRegOrder.length)
    (hroom : s.rsp.toNat + 8 + argsBytes < 2 ^ 64)
    (hsaved : SavedBelow s.mem v (s.rsp.toNat + 8 + argsBytes) intParamRegOrder) :
    trace (exec env) registryEvent (registryCall fn i id) s =
      [(fn, v (checkedReg i), BitVec.ofNat 64 id)] := by
  have hlen : intParamRegOrder.length = 6 := rfl
  have hbytes : argsBytes = 48 := rfl
  have haddr : s.addr (8 + 8 * (intParamRegOrder.length - 1 - i)) .rsp =
      s.rsp.toNat + 8 + argsBytes - 8 * (i + 1) := by
    refine (toNat_add_of_lt (x := s.regs .rsp) (by rw [State.rsp] at hroom; omega)).trans ?_
    rw [State.rsp] at hroom ⊢
    omega
  have hvalue := hsaved.get (i := i) (r := checkedReg i)
    (by simp [checkedReg, List.getD_eq_getElem?_getD, List.getElem?_eq_getElem hi])
  have hload : (exec env (.load .q (8 + 8 * (intParamRegOrder.length - 1 - i)) .rsp .rdi) s).regs
      .rdi = v (checkedReg i) := by
    rw [← hvalue, ← haddr]
    rfl
  have hevent : trace (exec env) registryEvent (registryCall fn i id) s =
      [(fn, (exec env (.load .q (8 + 8 * (intParamRegOrder.length - 1 - i)) .rsp .rdi) s).regs .rdi,
        BitVec.ofNat 64 id)] := rfl
  rw [hevent, hload]

theorem trace_registryCalls {fn : RegistryFn} {checks : List (Nat × TypeInfo)}
    (hchecks : ∀ check ∈ checks, check.1 < intParamRegOrder.length)
    (hfn : SysvFn lo hi top keep (env.function (.typeRegistry fn))) (hlo : lo + 8 ≤ s.rsp.toNat)
    (hhi : s.rsp.toNat + 8 + argsBytes ≤ hi) (htop : hi ≤ top) (hmax : hi < 2 ^ 64)
    (hdisj : Disjoint keep (Ico lo hi))
    (hsaved : SavedBelow s.mem v (s.rsp.toNat + 8 + argsBytes) intParamRegOrder) :
    trace (exec env) registryEvent (checks.flatMap fun check => registryCall fn check.1 check.2.id)
      s =
      checks.map fun check => (fn, v (checkedReg check.1), BitVec.ofNat 64 check.2.id) := by
  induction checks generalizing s with
  | nil => rfl
  | cons check checks ih =>
    rw [List.forall_mem_cons] at hchecks
    obtain ⟨hrsp, hstable⟩ :=
      (runs_registryCall htop hmax hdisj rfl check.1 check.2.id hfn hlo hhi).2
    -- the call leaves the saved registers above the stack pointer alone
    have hlen : argsBytes = 8 * intParamRegOrder.length := rfl
    have hkept := hstable.saved hsaved (by omega) (by omega)
    rw [List.flatMap_cons, trace_append, trace_registryCall hchecks.1 (by omega) hsaved,
      List.map_cons, List.singleton_append]
    refine congrArg _ (ih hchecks.2 ?_ ?_ ?_)
    · rw [hrsp]
      exact hlo
    · rw [hrsp]
      exact hhi
    · rw [hrsp]
      exact hkept

theorem registryEvent_of_isCall {i : Instr} (h : i.isCall = false) (t : State) :
    registryEvent i t = none := by
  cases i
  case call callee =>
    cases callee
    case typeRegistry => cases h
    all_goals rfl
  all_goals rfl

theorem trace_typeRegistryChecks (hok : RegistryOk env s) :
    trace (exec env) registryEvent (emitTypeRegistryChecks target api) s =
      (registryChecks target api).2.map fun check =>
        ((registryChecks target api).1, s.regs (checkedReg check.1),
          BitVec.ofNat 64 check.2.id) := by
  have hquiet {prog : List Instr} (h : ∀ i ∈ prog, i.isCall = false) (t : State) :
      trace (exec env) registryEvent prog t = [] :=
    trace_of_none (fun i hi t => registryEvent_of_isCall (h i hi) t) t
  cases hchecks : (registryChecks target api).2.isEmpty with
  | true =>
    rw [List.isEmpty_iff] at hchecks
    rw [emitTypeRegistryChecks_nil hchecks, hchecks]
    rfl
  | false =>
    have hbytes : argsBytes = 48 := rfl
    have hroom := hok.room
    have hmax := s.rsp.isLt
    obtain ⟨⟨hrsp, hkeep, hsaved⟩, hpkru, -⟩ :=
      (@runs_saveArgs env s.pkru (s.rsp.toNat - (argsBytes + 16)) s.rsp.toNat s.rsp.toNat s
      (by omega) le_rfl rfl).2
    obtain ⟨⟨hrsp', -, -⟩, hmem⟩ :=
      (@runs_alignStack env s.pkru (s.rsp.toNat - (argsBytes + 16)) s.rsp.toNat s.rsp.toNat _
      (by omega) hpkru).2
    have hopen : (run (exec env) (emitSaveArgs ++ emitAlignStack8To16) s).rsp.toNat + 8 +
        argsBytes = s.rsp.toNat := by
      rw [run_append, hrsp', hrsp]
      omega
    have hslots : SavedBelow (run (exec env) (emitSaveArgs ++ emitAlignStack8To16) s).mem s.regs
        ((run (exec env) (emitSaveArgs ++ emitAlignStack8To16) s).rsp.toNat + 8 + argsBytes)
            intParamRegOrder := by
      rw [hopen, run_append, hmem]
      exact hsaved
    have hnumbers : ∀ check ∈ (registryChecks target api).2, check.1 < intParamRegOrder.length := by
      intro check hcheck
      have hmem := (mem_registryChecks.mp hcheck).2
      split at hmem
      · rw [hmem]
        decide
      · exact hmem.2
    have hcalls := trace_registryCalls hnumbers (hok.functions (registryChecks target api).1)
      (by omega) hopen.le le_rfl hmax (empty_disjoint _) hslots
    rw [emitTypeRegistryChecks_eq hchecks, trace_append, trace_append, trace_append, hcalls,
      hquiet (isCall_of_all rfl),
      hquiet (isCall_of_all rfl), hquiet (isCall_of_all rfl), List.nil_append, List.append_nil,
      List.append_nil]

theorem run_typeRegistryChecks (hok : RegistryOk env s) :
    (run (exec env) (emitTypeRegistryChecks target api) s).rsp = s.rsp ∧
      ∀ r ∈ intParamRegOrder, (run (exec env) (emitTypeRegistryChecks target api) s).regs r =
        s.regs r := by
  have hroom := hok.room
  have hruns : Runs (exec env) _ (emitTypeRegistryChecks target api) s _ :=
    runs_typeRegistryChecks le_rfl s.rsp.isLt (empty_disjoint _) rfl (fun _ => hok.functions)
      (by omega) le_rfl
  exact ⟨hruns.2.1, hruns.2.2.1⟩

end

/-! ### The result -/

theorem mem_of_intReg (h : fn.intReg i = some r) :
    r ∈ intParamRegOrder := by
  unfold CFunction.intReg at h
  split at h
  · cases h
  split at h
  · split at h
    · rename_i hregs
      cases h
      exact Sysv.mem_intRegs hregs (List.mem_singleton_self _)
    · cases h
  · cases h

theorem checkedReg_eq (h : intParamRegOrder[j]? = some r) :
    checkedReg j = r := by
  rw [checkedReg, List.getD_eq_getElem?_getD, h]
  rfl

theorem getElem?_checkedReg (h : j < intParamRegOrder.length) :
    intParamRegOrder[j]? = some (checkedReg j) := by
  rw [checkedReg, List.getD_eq_getElem?_getD, List.getElem?_eq_getElem h]
  rfl

variable {info : TargetInfo}

theorem mem_trace (hok : RegistryOk env s) {event : RegistryFn × BitVec 64 × BitVec 64} :
    event ∈ trace (exec env) registryEvent (fn.checkCode (some info)) s ↔
      ∃ (j : Nat) (type : TypeInfo), fn.types[j]? = some type ∧
        (if info.isConstructor = true ∨ info.isDestructor = true then j = 0
          else type.hasStructors = true ∧ j < intParamRegOrder.length) ∧
        event = ((registryChecks info fn.types).1, s.regs (checkedReg j),
          BitVec.ofNat 64 type.id) := by
  rw [CFunction.checkCode, CFunction.sig, trace_typeRegistryChecks hok, List.mem_map]
  constructor
  · rintro ⟨⟨j, type⟩, hcheck, rfl⟩
    obtain ⟨htype, hj⟩ := mem_registryChecks.mp hcheck
    exact ⟨j, type, htype, hj, rfl⟩
  · rintro ⟨j, type, htype, hj, rfl⟩
    exact ⟨(j, type), mem_registryChecks.mpr ⟨htype, hj⟩, rfl⟩

theorem registryChecks_fst (info : TargetInfo) (api : List TypeInfo) :
    (registryChecks info api).1 = reportTo (some info) 0 := by
  cases hcon : info.isConstructor <;> cases hde : info.isDestructor <;>
    simp [registryChecks, reportTo, hcon, hde]

theorem reportTo_plain (h : ¬ (info.isConstructor = true ∨ info.isDestructor = true)) (i : Nat) :
    reportTo (some info) i = .check := by
  obtain ⟨hcon, hde⟩ := not_or.mp h
  simp [reportTo, hcon, hde]

theorem eq_zero_of_reportTo (h : info.isConstructor = true ∨ info.isDestructor = true)
    (heq : reportTo (some info) i = reportTo (some info) 0) : i = 0 := by
  by_contra hi
  rcases h with h | h <;> cases hcon : info.isConstructor <;> simp_all [reportTo]

theorem Paired.checked {target : Option TargetInfo} (h : Paired fn target)
    (hok : RegistryOk env s) : Checked fn target env s := by
  constructor
  · intro i type r htype hstructors hreg
    obtain ⟨info, rfl, hpair⟩ := h i type r htype hstructors hreg
    rw [mem_trace hok, registryChecks_fst]
    split at hpair
    · rename_i hspecial
      obtain ⟨rfl, rfl⟩ := hpair
      exact ⟨0, type, htype, if_pos hspecial ▸ rfl, rfl⟩
    · rename_i hplain
      obtain ⟨j, type', htype', hstructors', hj, hid⟩ := hpair
      have hlt : j < intParamRegOrder.length := (List.getElem?_eq_some_iff.mp hj).1
      refine ⟨j, type', htype', ?_, ?_⟩
      · rw [if_neg hplain]
        exact ⟨hstructors', hlt⟩
      · rw [reportTo_plain hplain, reportTo_plain hplain, checkedReg_eq hj, hid]
  · cases target with
    | none => exact fun _ _ => rfl
    | some info => exact (run_typeRegistryChecks hok).2
  · cases target with
    | none => rfl
    | some info => exact (run_typeRegistryChecks hok).1

def spread : State where
  regs r := if r = .rsp then 0x1000 else BitVec.ofNat 64 (intParamRegOrder.idxOf r)
  xmm _ := 0
  pkru := 0
  mem _ := 0
  rip := 0

def idle : Env where
  fsBase := 0
  tpoff _ := 0
  retAddr := 0
  function _ := returning
  pointee _ := returning

theorem spread_ok : RegistryOk idle spread := ⟨by decide, fun _ c _ => returning_sysv _ c⟩

theorem spread_injective : ∀ r ∈ intParamRegOrder, ∀ r' ∈ intParamRegOrder,
    spread.regs r = spread.regs r' → r = r' := by decide

theorem checkedReg_mem (j : Nat) : checkedReg j ∈ intParamRegOrder := by
  by_cases hj : j < intParamRegOrder.length
  · exact List.mem_of_getElem? (getElem?_checkedReg hj)
  · rw [checkedReg, List.getD_eq_getElem?_getD, List.getElem?_eq_none (Nat.not_lt.mp hj)]
    decide

/-- A function of a `float` and a pointer to a type with a constructor and a destructor. -/
def floatThenPointer : CFunction where
  params := [(⟨4, 4, .direct (.fp .float) true⟩, ⟨0, false⟩),
    (⟨8, 8, .direct .ptr true⟩, ⟨1, true⟩)]
  ret := ⟨0, 1, .ignore⟩
  abi :=
    { args := [.register .float 4, .register .integral 0]
      ret := []
      args_slots := List.forall_mem_cons.mpr ⟨.float 4,
        List.forall_mem_singleton.mpr (.integral (Nat.zero_le 8))⟩
      ret_slots := .void }
  determined := rfl

end Ia2.Gate
