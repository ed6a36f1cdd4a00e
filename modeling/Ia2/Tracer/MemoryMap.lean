import Ia2.Library.IntervalTree
import Ia2.Tracer.Range
import Mathlib.Data.List.ReduceOption

/-!
# The memory map

`MemoryMap` of the tracer's Rust library and the functions it exports to the tracer. The map keeps
its regions in a tree of disjoint intervals, whose implementation is a parameter. A Rust panic (a
failed `assert!`, `unwrap` on nothing, an inverted query) and the tracer's `exit(1)` are the two
ways a computation aborts.
-/

namespace Ia2.Tracer

inductive Abort where
  | panic
  | exit
deriving DecidableEq, Repr

abbrev Outcome := Except Abort

def Outcome.unwrap {α : Type} : Option α → Outcome α
  | some a => .ok a
  | none => .error .panic

/-- The state of a contiguous region of memory. -/
structure State where
  ownerPkey : UInt8
  pkeyMprotected : Bool
  mprotected : Bool
  prot : UInt32
deriving DecidableEq, Repr

structure MemRegion where
  range : Range
  state : State
deriving DecidableEq, Repr

structure MemoryMap (T : Type) where
  regions : T
  initFinished : Bool

/-- `memory_map_region_get_prot` found no or multiple protections in the given range. -/
def PROT_INDETERMINATE : UInt32 := 0xFFFFFFFF

def PKEY_MULTIPLE : UInt8 := 255
def PKEY_NONE : UInt8 := 254

def regionOf (e : LabelledInterval Nat State) : MemRegion := ⟨⟨e.lo, wrappingSub e.hi e.lo⟩, e.val⟩

namespace MemoryMap

open IntervalTree

variable {T : Type} [IntervalTree T Nat State]

def new : MemoryMap T := ⟨empty, false⟩

def markInitFinished (map : MemoryMap T) : MemoryMap T × Bool :=
  if map.initFinished then (map, false) else ({ map with initFinished := true }, true)

def overlapping (map : MemoryMap T) (needle : Range) :
    Outcome (List (LabelledInterval Nat State)) :=
  Outcome.unwrap (range map.regions needle.start needle.endAddr)

def addRegion (map : MemoryMap T) (range : Range) (state : State) : Outcome (MemoryMap T × Bool) :=
  do
  if range.len = 0 then
    return (map, false)
  let range := range.roundTo4k
  let interfering ← map.overlapping range
  if interfering ≠ [] then
    return (map, false)
  let inPosition ← map.overlapping range
  if inPosition.length ≠ 0 then
    throw .panic
  return ({ map with regions := insert map.regions range.start range.endAddr state }, true)

def findOverlappingRegion (map : MemoryMap T) (needle : Range) : Outcome (Option MemRegion) := do
  let entries ← map.overlapping needle
  return entries.head?.map regionOf

def findRegionContainingAddr (map : MemoryMap T) (needle : Nat) : Outcome (Option MemRegion) :=
  map.findOverlappingRegion ⟨needle, 1⟩

def allOverlappingRegions (map : MemoryMap T) (needle : Range) (predicate : MemRegion → Bool) :
  Outcome Bool := do
  let entries ← map.overlapping needle
  return entries.all fun e => predicate (regionOf e)

def contiguous : Option Nat → List MemRegion → Bool × Option Nat
  | lastEnd, [] => (true, lastEnd)
  | none, region :: rest => contiguous (some region.range.endAddr) rest
  | some lastEnd, region :: rest =>
    if region.range.start ≠ lastEnd then (false, some lastEnd)
    else contiguous (some region.range.endAddr) rest

def containsHoles (map : MemoryMap T) (needle : Range) : Outcome Bool := do
  let first ← map.findRegionContainingAddr needle.start
  if first.isNone then
    return true
  let entries ← map.overlapping needle
  let (allContiguous, lastEnd) := contiguous none (entries.map regionOf)
  if !allContiguous then
    return true
  match lastEnd with
  | some lastEnd => return decide (lastEnd < needle.endAddr)
  | none => return true

def remainder (subrange : Range) (e : LabelledInterval Nat State) :
  Outcome (List (LabelledInterval Nat State)) := do
  let overlapped ← Outcome.unwrap (Range.fromBounds e.lo e.hi)
  match overlapped.subtract subrange with
  | none => throw .panic
  | some (before, after) =>
    return (before.toList ++ after.toList).map fun r => ⟨r.start, r.endAddr, e.val⟩

def common (subrange : Range) (e : LabelledInterval Nat State) : Outcome (Option MemRegion) :=
  let start := max e.lo subrange.start
  let stop := min e.hi subrange.endAddr
  if start ≠ stop then do
    let range ← Outcome.unwrap (Range.fromBounds start stop)
    return some ⟨range, e.val⟩
  else return none

/-- Removes exactly the specified range from all existing regions, leaving any other parts of that
region mapped. -/
def splitOutRegion (map : MemoryMap T) (subrange : Range) :
  Outcome (MemoryMap T × List MemRegion) := do
  let subrange := subrange.roundTo4k
  let overlapped ← map.overlapping subrange
  let removed ← Outcome.unwrap (removeAll map.regions overlapped)
  let regions ← overlapped.foldlM (fun t e => do return insertAll t (← remainder subrange e))
    removed
  let pieces ← overlapped.mapM (common subrange)
  return ({ map with regions }, pieces.reduceOption)

/-! ### The functions exported to the tracer -/

def allOverlappingRegionsHavePkey (map : MemoryMap T) (needle : Range) (pkey : UInt8) :
    Outcome Bool :=
  map.allOverlappingRegions needle fun region => decide (pkey = region.state.ownerPkey)

def allOverlappingRegionsPkeyMprotected (map : MemoryMap T) (needle : Range)
    (pkeyMprotected : Bool) : Outcome Bool :=
  map.allOverlappingRegions needle fun region =>
    decide (pkeyMprotected = region.state.pkeyMprotected)

def allOverlappingRegionsMprotected (map : MemoryMap T) (needle : Range) (mprotected : Bool) :
    Outcome Bool :=
  map.allOverlappingRegions needle fun region => decide (mprotected = region.state.mprotected)

def agreeing {α : Type} [DecidableEq α] (field : State → α) :
    Option α → List MemRegion → Bool × Option α
  | seen, [] => (true, seen)
  | none, region :: rest => agreeing field (some (field region.state)) rest
  | some value, region :: rest =>
    if value = field region.state then agreeing field (some value) rest else (false, some value)

def regionGetProt (map : MemoryMap T) (needle : Range) : Outcome UInt32 := do
  let entries ← map.overlapping needle
  let (same, prot) := agreeing State.prot none (entries.map regionOf)
  if same then Outcome.unwrap prot else return PROT_INDETERMINATE

def regionGetOwnerPkey (map : MemoryMap T) (needle : Range) : Outcome UInt8 := do
  let entries ← map.overlapping needle
  let (same, pkey) := agreeing State.ownerPkey none (entries.map regionOf)
  if same then return pkey.getD PKEY_NONE else return PKEY_MULTIPLE

def unmapRegion (map : MemoryMap T) (needle : Range) : Outcome (MemoryMap T) := do
  let (map, _) ← map.splitOutRegion needle
  return map

def addFreshRegion (map : MemoryMap T) (range : Range) (ownerPkey : UInt8) (prot : UInt32) :
    Outcome (MemoryMap T × Bool) :=
  map.addRegion range ⟨ownerPkey, false, false, prot⟩

/-- Put the pieces taken out by `splitOutRegion` back with an updated state; each addition is
asserted to succeed. -/
def addBack (update : State → State) (map : MemoryMap T) (pieces : List MemRegion) :
    Outcome (MemoryMap T) :=
  pieces.foldlM (fun map region => do
    let (map, added) ← map.addRegion region.range (update region.state)
    if added then return map else throw .panic) map

def mayPkeyMprotect (initFinished : Bool) (pkey : UInt8) (region : MemRegion) : Bool :=
  if region.state.ownerPkey ≠ pkey ∧ region.state.ownerPkey ≠ 0 then
    if initFinished then false else true
  else if region.state.pkeyMprotected = true then
    if initFinished then false else true
  else true

def pkeyMprotectState (initFinished : Bool) (pkey : UInt8) (state : State) : State :=
  let state := { state with pkeyMprotected := true }
  -- set owner if a trusted compartment protected untrusted memory, or if we are still in init
  if state.ownerPkey = 0 ∨ initFinished = false then { state with ownerPkey := pkey } else state

def pkeyMprotectRegion (map : MemoryMap T) (range : Range) (pkey : UInt8) :
  Outcome (MemoryMap T × Bool) := do
  if ← map.containsHoles range then
    return (map, false)
  if !(← map.allOverlappingRegions range (mayPkeyMprotect map.initFinished pkey)) then
    return (map, false)
  let (map, pieces) ← map.splitOutRegion range
  let map ← map.addBack (pkeyMprotectState map.initFinished pkey) pieces
  return (map, true)

def mprotectState (prot : UInt32) (state : State) :
    State := { state with mprotected := true, prot := prot }

def mprotectRegion (map : MemoryMap T) (range : Range) (prot : UInt32) :
  Outcome (MemoryMap T × Bool) := do
  if ← map.containsHoles range then
    return (map, false)
  let (map, pieces) ← map.splitOutRegion range
  let map ← map.addBack (mprotectState prot) pieces
  return (map, true)

def clear (_ : MemoryMap T) : MemoryMap T := ⟨empty, false⟩

end MemoryMap

end Ia2.Tracer
