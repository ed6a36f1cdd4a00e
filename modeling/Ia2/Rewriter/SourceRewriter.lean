import Ia2.Library.Tables
import Mathlib.Data.Finset.Max
import Mathlib.Data.Finset.Sort
import Mathlib.Data.List.Dedup

/-!
# The gates of a set of translation units

`SourceRewriter.cpp` runs its passes over every translation unit and works out the gates from what
they have recorded. A unit is given here by that record: the functions it defines, declares and
takes the address of, without those that the passes skip (variadic functions, compiler builtins,
functions of system headers and functions that are annotated to be ignored). This is the tool
without `--libc-compartment`.

All tables have the name of a function as their key, and a definition enters the key of its unit
into `fnPkeys` whatever its linkage. A function that more than one compartment calls gets a gate for
each of them, under a symbol that is renamed after the caller.
-/

namespace Ia2.SourceRewriter

abbrev FnName := String

def maxPkeys : Nat := 16

structure TranslationUnit where
  pkey : Nat
  external : List FnName
  static : List FnName
  declared : List FnName
  takesExternal : List FnName
  takesStatic : List FnName
  linkage : ∀ fn ∈ static, fn ∉ external ∧ fn ∉ takesExternal
  takesStatic_static : ∀ fn ∈ takesStatic, fn ∈ static

def TranslationUnit.defined (unit : TranslationUnit) : List FnName := unit.external ++ unit.static

/-! ### The keys in use -/

def pkeysUsed (units : List TranslationUnit) : Finset Nat := (units.map (·.pkey)).toFinset

def configError (used : Finset Nat) : String :=
  "Error in pkey configuration. The following pkeys were used: [" ++
    ", ".intercalate ((used.sort (· ≤ ·)).map toString) ++
    "]\npkeys must be in the range 0 to N - 1 or 1 to N\n"

/-- The number of keys that the loops run over. The keys of N compartments are 0 to N - 1 or 1 to N.
A failed assertion is an error here, and so is a call without source files, where there is no least
key. -/
def numPkeys (units : List TranslationUnit) : Except String Nat :=
  let used := pkeysUsed units
  if used.card < maxPkeys then
    if h : used.Nonempty then
      if used.min' h = 0 ∧ used.max' h + 1 = used.card then .ok used.card
      else if used.min' h = 1 ∧ used.max' h = used.card then .ok (used.card + 1)
      else .error (configError used)
    else .error "no source files"
  else .error "num_pkeys < MAX_PKEYS"

variable {order units : List TranslationUnit} {num pkey caller : Nat} {fn : FnName}

theorem numPkeys_perm (h : order.Perm units) :
    numPkeys order = numPkeys units := by
  have hused : pkeysUsed order = pkeysUsed units := List.toFinset_eq_of_perm _ _ (h.map _)
  simp only [numPkeys, hused]

theorem numPkeys_ok (h : numPkeys units = .ok num) :
    num ≤ maxPkeys ∧ ∀ unit ∈ units, unit.pkey < num := by
  have hmem : ∀ unit ∈ units, unit.pkey ∈ pkeysUsed units := by
    intro unit hunit
    exact List.mem_toFinset.mpr (List.mem_map_of_mem hunit)
  simp only [numPkeys] at h
  split at h
  case isFalse => cases h
  case isTrue hcard =>
    split at h
    case isFalse => cases h
    case isTrue hne =>
      have hmax : ∀ unit ∈ units, unit.pkey ≤ (pkeysUsed units).max' hne :=
        fun unit hunit => Finset.le_max' _ _ (hmem unit hunit)
      split at h
      case isTrue hconfig =>
        cases h
        refine ⟨hcard.le, fun unit hunit => ?_⟩
        have := hmax unit hunit
        omega
      case isFalse =>
        split at h
        case isTrue hconfig =>
          cases h
          refine ⟨hcard, fun unit hunit => ?_⟩
          have := hmax unit hunit
          omega
        case isFalse => cases h

/-! ### The record of the declarations -/

def declaredFns (units : List TranslationUnit) (pkey : Nat) : List FnName :=
  (units.filter (·.pkey = pkey)).flatMap (·.declared)

def definedFns (units : List TranslationUnit) (pkey : Nat) : List FnName :=
  (units.filter (·.pkey = pkey)).flatMap (·.defined)

def undefinedFns (units : List TranslationUnit) (caller : Nat) : List FnName :=
  (declaredFns units caller).dedup.filter (· ∉ definedFns units caller)

/-- The key of each function: that of the last unit with a definition. -/
def fnPkeys (units : List TranslationUnit) : Table FnName Nat :=
  Table.collect TranslationUnit.defined TranslationUnit.pkey units

def fnNames (units : List TranslationUnit) : List FnName := (units.flatMap (·.declared)).dedup

theorem mem_declaredFns :
    fn ∈ declaredFns units pkey ↔ ∃ unit ∈ units, unit.pkey = pkey ∧ fn ∈ unit.declared := by
  simp [declaredFns, and_assoc]

theorem mem_definedFns :
    fn ∈ definedFns units pkey ↔ ∃ unit ∈ units, unit.pkey = pkey ∧ fn ∈ unit.defined := by
  simp [definedFns, and_assoc]

theorem mem_undefinedFns :
    fn ∈ undefinedFns units caller ↔ fn ∈ declaredFns units caller ∧
      fn ∉ definedFns units caller := by
  simp [undefinedFns]

theorem nodup_undefinedFns (units : List TranslationUnit) (caller : Nat) :
    (undefinedFns units caller).Nodup :=
  (List.nodup_dedup _).filter _

theorem mem_undefinedFns_perm (h : order.Perm units) :
    fn ∈ undefinedFns order caller ↔ fn ∈ undefinedFns units caller := by
  simp only [mem_undefinedFns, mem_declaredFns, mem_definedFns, h.mem_iff]

theorem mem_fnNames (h : fn ∈ undefinedFns units caller) : fn ∈ fnNames units := by
  obtain ⟨unit, hunit, -, hfn⟩ := mem_declaredFns.mp (mem_undefinedFns.mp h).1
  exact List.mem_dedup.mpr (List.mem_flatMap.mpr ⟨unit, hunit, hfn⟩)

/-! ### The callers of each function -/

structure Callers where
  direct : Table FnName Nat
  multi : Table FnName (List Nat)

def addCaller (caller : Nat) (w : Callers) (fn : FnName) : Callers :=
  match w.direct fn with
  | some other => ⟨w.direct.erase fn, w.multi.assign fn [caller, other]⟩
  | none =>
    match w.multi fn with
    | some callers => ⟨w.direct, w.multi.assign fn (callers.insert caller)⟩
    | none => ⟨w.direct.assign fn caller, w.multi⟩

def addCallers (units : List TranslationUnit) (w : Callers) (caller : Nat) : Callers :=
  (undefinedFns units caller).foldl (addCaller caller) w

def collectCallers (num : Nat) (units : List TranslationUnit) : Callers :=
  (List.range num).foldl (addCallers units) ⟨.empty, .empty⟩

/-- The compartments that declare a function without defining it. -/
def callers (num : Nat) (units : List TranslationUnit) (fn : FnName) : List Nat :=
  (List.range num).filter (fn ∈ undefinedFns units ·)

theorem mem_callers :
    caller ∈ callers num units fn ↔ caller < num ∧ fn ∈ undefinedFns units caller := by
  simp [callers]

theorem callers_perm (h : order.Perm units) (num : Nat) :
    callers num order = callers num units := by
  funext fn
  simp only [callers, mem_undefinedFns_perm h]

def Callers.entry (w : Callers) (fn : FnName) : Option Nat × Option (List Nat) :=
  (w.direct fn, w.multi fn)

def joinCaller (caller : Nat) : Option Nat × Option (List Nat) → Option Nat × Option (List Nat)
  | (some other, _) => (none, some [caller, other])
  | (none, some callers) => (none, some (callers.insert caller))
  | (none, none) => (some caller, none)

def entryOf : List Nat → Option Nat × Option (List Nat)
  | [] => (none, none)
  | [caller] => (some caller, none)
  | callers => (none, some callers.reverse)

theorem addCaller_entry_self (caller : Nat) (w : Callers) (fn : FnName) :
    (addCaller caller w fn).entry fn = joinCaller caller (w.entry fn) := by
  cases hdirect : w.direct fn with
  | some other => simp [addCaller, Callers.entry, joinCaller, hdirect]
  | none =>
    cases hmulti : w.multi fn with
    | some callers => simp [addCaller, Callers.entry, joinCaller, hdirect, hmulti]
    | none => simp [addCaller, Callers.entry, joinCaller, hdirect, hmulti]

theorem addCaller_entry_of_ne {other : FnName} (h : other ≠ fn) (caller : Nat) (w : Callers) :
    (addCaller caller w fn).entry other = w.entry other := by
  cases hdirect : w.direct fn with
  | some _ => simp [addCaller, Callers.entry, hdirect, Table.erase_of_ne h, Table.assign_of_ne h]
  | none =>
    cases hmulti : w.multi fn with
    | some _ => simp [addCaller, Callers.entry, hdirect, hmulti, Table.assign_of_ne h]
    | none => simp [addCaller, Callers.entry, hdirect, hmulti, Table.assign_of_ne h]

theorem foldl_addCaller_entry {fns : List FnName} (hnodup : fns.Nodup) (w : Callers) (fn : FnName) :
    (fns.foldl (addCaller caller) w).entry fn = if fn ∈ fns then joinCaller caller (w.entry fn)
      else w.entry fn := by
  induction fns generalizing w with
  | nil => simp
  | cons head fns ih =>
    obtain ⟨hhead, hfns⟩ := List.nodup_cons.mp hnodup
    rw [List.foldl_cons, ih hfns]
    by_cases heq : fn = head
    · subst heq
      simp [hhead, addCaller_entry_self]
    · simp [heq, addCaller_entry_of_ne heq]

theorem joinCaller_entryOf {callers : List Nat} (h : caller ∉ callers) :
    joinCaller caller (entryOf callers) = entryOf (callers ++ [caller]) := by
  match callers with
  | [] => rfl
  | [other] => rfl
  | first :: second :: rest =>
    have hrev : caller ∉ (first :: second :: rest).reverse := by rwa [List.mem_reverse]
    simp only [entryOf, joinCaller, List.insert_of_not_mem hrev, List.cons_append]
    simp

theorem collectCallers_entry (num : Nat) (units : List TranslationUnit) (fn : FnName) :
    (collectCallers num units).entry fn = entryOf (callers num units fn) := by
  induction num with
  | zero => rfl
  | succ num ih =>
    have hstep : collectCallers (num + 1) units =
        addCallers units (collectCallers num units) num := by
      rw [collectCallers, List.range_succ, List.foldl_append]
      rfl
    have hnew : num ∉ callers num units fn := fun h => absurd (mem_callers.mp h).1 (lt_irrefl num)
    rw [hstep, addCallers, foldl_addCaller_entry (nodup_undefinedFns units num), ih]
    by_cases hfn : fn ∈ undefinedFns units num
    · rw [if_pos hfn, joinCaller_entryOf hnew, callers, callers, List.range_succ,
        List.filter_append, List.filter_singleton]
      simp [hfn]
    · rw [if_neg hfn, callers, callers, List.range_succ, List.filter_append, List.filter_singleton]
      simp [hfn]

/-! ### Renamed symbols -/

/-- The symbol for the calls from one of several compartments. -/
def renamed (fn : FnName) (caller : Nat) : FnName := fn ++ "_from_" ++ toString caller

structure Wrappers where
  direct : Table FnName Nat
  pkeys : Table FnName Nat
  targets : Table FnName FnName

def addRenamed (fn : FnName) (target : Nat) (t : Wrappers) (caller : Nat) : Wrappers :=
  if caller = target then t
  else
    { direct := t.direct.insert (renamed fn caller) caller
      pkeys := t.pkeys.insert (renamed fn caller) target
      targets := t.targets.insert (renamed fn caller) fn }

def expandMulticaller (w : Callers) (t : Wrappers) (fn : FnName) : Except String Wrappers :=
  match w.multi fn with
  | none => .ok t
  | some callers =>
    match t.pkeys fn with
    | none => .error ("pkey not known for function " ++ fn ++ "\n")
    | some target => .ok (callers.foldl (addRenamed fn target) t)

def expandMulticallers (units : List TranslationUnit) (w : Callers) : Except String Wrappers :=
  (fnNames units).foldlM (expandMulticaller w) ⟨w.direct, fnPkeys units, .empty⟩

/-! ### Gates -/

inductive Gate where
  | direct (symbol targetFn : FnName) (callerPkey targetPkey : Nat)
  | pointer (fn : FnName) (targetPkey : Nat)
  | pointerToStatic (unit : TranslationUnit) (fn : FnName) (targetPkey : Nat)

def directGate (t : Wrappers) (symbol : FnName) : Option Gate :=
  match t.direct symbol, t.pkeys symbol with
  | some caller, some target =>
    if caller = target then none
      else some (.direct symbol ((t.targets symbol).getD symbol) caller target)
  | _, _ => none

def symbols (num : Nat) (units : List TranslationUnit) : List FnName :=
  (fnNames units ++ (fnNames units).flatMap fun fn => (List.range num).map (renamed fn)).dedup

def isSighandler (fn : FnName) : Bool := fn.startsWith "ia2_sighandler_"

def addrTakenFns (units : List TranslationUnit) : List FnName :=
  ((units.filter (·.pkey ≠ 0)).flatMap fun unit =>
    unit.takesExternal.filter (!isSighandler ·)).dedup

def internalAddrTakenFns (units : List TranslationUnit) : List (TranslationUnit × FnName) :=
  (units.filter (·.pkey ≠ 0)).flatMap fun unit =>
    (unit.takesStatic.filter (!isSighandler ·)).dedup.map (unit, ·)

def pointerGate (pkeys : Table FnName Nat) (fn : FnName) : Option Gate :=
  let target := (pkeys fn).getD 0
  if target ≠ 0 then some (.pointer fn target) else none

def staticGate (pkeys : Table FnName Nat) (entry : TranslationUnit × FnName) : Option Gate :=
  let target := (pkeys entry.2).getD 0
  if target ≠ 0 then some (.pointerToStatic entry.1 entry.2 target) else none

def generateGates (units : List TranslationUnit) : Except String (List Gate) := do
  let num ← numPkeys units
  let t ← expandMulticallers units (collectCallers num units)
  return (symbols num units).filterMap (directGate t) ++
    (addrTakenFns units).filterMap (pointerGate t.pkeys) ++
    (internalAddrTakenFns units).filterMap (staticGate t.pkeys)

end Ia2.SourceRewriter
