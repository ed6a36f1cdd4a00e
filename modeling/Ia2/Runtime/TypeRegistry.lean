import Mathlib.Data.List.Induction
import Mathlib.Logic.Function.Basic
import Mathlib.Tactic.Common

/-!
# The type registry

The registry maps the address of each constructed object to its type. Wrappers call `construct` and
`destruct` after constructors and destructors, and `check` for other arguments. Every call holds the
lock for its whole body, so what threads do to a registry is a list of calls in some order; the
thread that makes a call has no part in it.

A run that does not panic keeps the brackets: the registered type of an address is that of its last
`construct`, with no `destruct` since (`map_eq_some_iff`). `check` compares the types. `destruct`
only looks whether the address is registered and takes any type for it, so the brackets of a run may
have different types at their ends.
-/

namespace Ia2.TypeRegistry

abbrev Ptr := BitVec 64

structure PtrAddr where
  addr : BitVec 64
deriving DecidableEq, Repr

structure TypeId where
  id : BitVec 32
deriving DecidableEq, Repr

def PtrAddr.display (ptr : PtrAddr) :
    String := "ptr 0x" ++ String.ofList (Nat.toDigits 16 ptr.addr.toNat)

def TypeId.display (typeId : TypeId) : String := "type " ++ toString typeId.id.toNat

inductive Panic where
  | alreadyConstructed (typeId : TypeId) (ptr : PtrAddr) (prevTypeId : TypeId)
  | destructUntyped (expectedTypeId : TypeId) (ptr : PtrAddr)
  | checkUntyped (ptr : PtrAddr) (expectedTypeId : TypeId)
  | checkMismatch (ptr : PtrAddr) (expectedTypeId typeId : TypeId)
deriving DecidableEq, Repr

def Panic.message : Panic → String
  | alreadyConstructed typeId ptr prevTypeId =>
    "trying to construct " ++ typeId.display ++ " at " ++ ptr.display ++ ", but " ++ ptr.display ++
      " is already " ++ prevTypeId.display
  | destructUntyped expectedTypeId ptr =>
    "trying to destruct " ++ expectedTypeId.display ++ " at " ++ ptr.display ++ ", but " ++
      ptr.display ++ " has no type currently"
  | checkUntyped ptr expectedTypeId =>
    ptr.display ++ " should have " ++ expectedTypeId.display ++ ", but has no type currently"
  | checkMismatch ptr expectedTypeId typeId =>
    ptr.display ++ " should have " ++ expectedTypeId.display ++ ", but has " ++
      typeId.display ++ " instead"

abbrev Map := PtrAddr → Option TypeId

def new : Map := fun _ => none

/-! ### Calls

Each returns its panic, if any, and the map. The map keeps an insertion or a removal also when the
call then panics. -/

def construct (ptr : Ptr) (typeId : TypeId) (map : Map) : Option Panic × Map :=
  let ptr := PtrAddr.mk ptr
  let prevTypeId := map ptr
  let map : Map := Function.update map ptr (some typeId)
  match prevTypeId with
  | some prevTypeId => (some (.alreadyConstructed typeId ptr prevTypeId), map)
  | none => (none, map)

def destruct (ptr : Ptr) (expectedTypeId : TypeId) (map : Map) : Option Panic × Map :=
  let ptr := PtrAddr.mk ptr
  let typeId := map ptr
  let map : Map := Function.update map ptr none
  if typeId.isNone then (some (.destructUntyped expectedTypeId ptr), map) else (none, map)

def check (ptr : Ptr) (expectedTypeId : TypeId) (map : Map) : Option Panic × Map :=
  let ptr := PtrAddr.mk ptr
  match map ptr with
  | none => (some (.checkUntyped ptr expectedTypeId), map)
  | some typeId =>
    if typeId ≠ expectedTypeId then (some (.checkMismatch ptr expectedTypeId typeId), map)
      else (none, map)

inductive Call where
  | construct (ptr : Ptr) (typeId : TypeId)
  | destruct (ptr : Ptr) (typeId : TypeId)
  | check (ptr : Ptr) (typeId : TypeId)
deriving DecidableEq, Repr

def Call.run : Call → Map → Option Panic × Map
  | construct ptr typeId => TypeRegistry.construct ptr typeId
  | destruct ptr typeId => TypeRegistry.destruct ptr typeId
  | check ptr typeId => TypeRegistry.check ptr typeId

def runCalls : List Call → Map → Option Panic × Map
  | [], map => (none, map)
  | call :: calls, map =>
    match call.run map with
    | (some panic, map) => (some panic, map)
    | (none, map) => runCalls calls map

/-- The calls of several threads, each with the thread that made it, in the order in which they got
the lock. -/
def runThreads {T : Type} (calls : List (T × Call)) : Option Panic × Map :=
  runCalls (calls.map Prod.snd) new

/-! ### What a call does that does not panic -/

variable {map map' : Map} {p : Ptr} {t : TypeId} {call : Call}

theorem construct_iff :
    Call.run (.construct p t) map = (none, map') ↔
      map ⟨p⟩ = none ∧ Function.update map ⟨p⟩ (some t) = map' := by
  simp only [Call.run, construct]
  cases map ⟨p⟩ <;> simp

theorem destruct_iff :
    Call.run (.destruct p t) map = (none, map') ↔
      (∃ t', map ⟨p⟩ = some t') ∧ Function.update map ⟨p⟩ none = map' := by
  simp only [Call.run, destruct]
  cases map ⟨p⟩ <;> simp

theorem check_iff :
    Call.run (.check p t) map = (none, map') ↔ map ⟨p⟩ = some t ∧ map = map' := by
  simp only [Call.run, check]
  cases map ⟨p⟩ with
  | none => simp
  | some t' => by_cases h : t' = t <;> simp [h]

variable {calls : List Call}

theorem runCalls_append {calls' : List Call} :
    runCalls (calls ++ calls') map = (none, map') ↔
      ∃ map₁, runCalls calls map = (none, map₁) ∧ runCalls calls' map₁ = (none, map') := by
  induction calls generalizing map with
  | nil => simp [runCalls]
  | cons call calls ih =>
    rw [List.cons_append, runCalls, runCalls]
    rcases call.run map with ⟨_ | panic, map₁⟩
    · exact ih
    · simp

theorem runCalls_singleton :
    runCalls [call] map = (none, map') ↔ call.run map = (none, map') := by
  rw [runCalls]
  rcases call.run map with ⟨_ | panic, map₁⟩ <;> simp [runCalls]

/-! ### Traces -/

def Call.Destructs (p : Ptr) (call : Call) : Prop := ∃ t, call = .destruct p t

def Open (calls : List Call) (p : Ptr) (t : TypeId) : Prop :=
  ∃ before since, calls = before ++ .construct p t :: since ∧ ∀ call ∈ since, ¬ call.Destructs p

/-- A trace whose checks and destructs have the types of the brackets that they are in, and whose
brackets do not overlap. -/
structure TypeConsistent (calls : List Call) : Prop where
  check : ∀ before after p t, calls = before ++ .check p t :: after → Open before p t
  destruct : ∀ before after p t, calls = before ++ .destruct p t :: after → Open before p t
  construct : ∀ before between after p t t', calls = before ++ .construct p t :: between ++
    .construct p t' :: after →
    ∃ call ∈ between, call.Destructs p

theorem not_open_nil : ¬ Open [] p t := by
  rintro ⟨before, since, h, -⟩
  simp at h

theorem Open.snoc (h : Open calls p t) (hcall : ¬ call.Destructs p) :
    Open (calls ++ [call]) p t := by
  obtain ⟨before, since, rfl, hsince⟩ := h
  refine ⟨before, since ++ [call], by simp, fun c hc => ?_⟩
  rcases List.mem_append.mp hc with hc | hc
  · exact hsince c hc
  · rwa [List.mem_singleton.mp hc]

theorem open_snoc_iff :
    Open (calls ++ [call]) p t ↔ call = .construct p t ∨ Open calls p t ∧ ¬ call.Destructs p := by
  constructor
  · rintro ⟨before, since, h, hsince⟩
    rcases List.eq_nil_or_concat since with rfl | ⟨since, last, rfl⟩
    · have hlast := (List.append_inj' h rfl).2
      exact .inl (List.singleton_inj.mp hlast)
    · rw [List.concat_eq_append, ← List.cons_append, ← List.append_assoc] at h
      obtain ⟨rfl, hlast⟩ := List.append_inj' h rfl
      rw [List.singleton_inj.mp hlast]
      exact .inr ⟨⟨before, since, rfl, fun c hc => hsince c (by simp [hc])⟩, hsince last (by simp)⟩
  · rintro (rfl | ⟨h, hcall⟩)
    · exact ⟨calls, [], rfl, by simp⟩
    · exact h.snoc hcall

theorem map_eq_some_iff (h : runCalls calls new = (none, map)) (p : Ptr) (t : TypeId) :
    map ⟨p⟩ = some t ↔ Open calls p t := by
  induction calls using List.reverseRecOn generalizing map p t with
  | nil =>
    obtain rfl : new = map := congrArg Prod.snd h
    simp [new, not_open_nil]
  | append_singleton calls call ih =>
    obtain ⟨map₁, hrun, hcall⟩ := runCalls_append.mp h
    have hih := ih hrun
    rw [runCalls_singleton] at hcall
    rw [open_snoc_iff, ← hih]
    cases call with
    | construct q u =>
      obtain ⟨hfree, rfl⟩ := construct_iff.mp hcall
      by_cases hq : p = q
      · subst hq
        simp [hfree, Call.Destructs]
      · have hne : PtrAddr.mk p ≠ ⟨q⟩ := by simpa using hq
        simp [Function.update_of_ne hne, Call.Destructs, Ne.symm hq]
    | destruct q u =>
      obtain ⟨-, rfl⟩ := destruct_iff.mp hcall
      by_cases hq : p = q
      · subst hq
        simp [Call.Destructs]
      · have hne : PtrAddr.mk p ≠ ⟨q⟩ := by simpa using hq
        simp [Function.update_of_ne hne, Call.Destructs, Ne.symm hq]
    | check q u =>
      obtain ⟨-, rfl⟩ := check_iff.mp hcall
      simp [Call.Destructs]

theorem run_at_call {before after : List Call}
    (h : runCalls (before ++ call :: after) new = (none, map)) :
    ∃ map₁ map₂, runCalls before new = (none, map₁) ∧ call.run map₁ = (none, map₂) := by
  obtain ⟨map₁, hbefore, hrest⟩ := runCalls_append.mp h
  rw [← List.singleton_append, runCalls_append] at hrest
  obtain ⟨map₂, hcall, -⟩ := hrest
  exact ⟨map₁, map₂, hbefore, runCalls_singleton.mp hcall⟩

/-- No `destruct` names a type other than the one that is registered for its address. -/
def DestructsMatch (calls : List Call) : Prop :=
  ∀ before after p t t', calls = before ++ .destruct p t :: after →
    (runCalls before new).2 ⟨p⟩ = some t' → t' = t

theorem DestructsMatch.consistent (hmatch : DestructsMatch calls)
    (h : runCalls calls new = (none, map)) : TypeConsistent calls where
  check before after p t heq := by
    rw [heq] at h
    obtain ⟨map₁, map₂, hbefore, hcall⟩ := run_at_call h
    exact (map_eq_some_iff hbefore p t).mp (check_iff.mp hcall).1
  destruct before after p t heq := by
    rw [heq] at h
    obtain ⟨map₁, map₂, hbefore, hcall⟩ := run_at_call h
    obtain ⟨⟨t', hreg⟩, -⟩ := destruct_iff.mp hcall
    have htype : t' = t := hmatch before after p t t' heq (by rw [hbefore]; exact hreg)
    exact (map_eq_some_iff hbefore p t).mp (htype ▸ hreg)
  construct before between after p t t' heq := by
    rw [heq] at h
    obtain ⟨map₁, map₂, hbefore, hcall⟩ := run_at_call h
    have hfree := (construct_iff.mp hcall).1
    by_contra! hnone
    have hopen : Open (before ++ .construct p t :: between) p t := ⟨before, between, rfl, hnone⟩
    rw [← map_eq_some_iff hbefore, hfree] at hopen
    simp at hopen

theorem TypeConsistent.destructsMatch (hcons : TypeConsistent calls)
    (h : runCalls calls new = (none, map)) : DestructsMatch calls := by
  intro before after p t t' heq hreg
  rw [heq] at h
  obtain ⟨map₁, -, hbefore, -⟩ := run_at_call h
  have hopen := (map_eq_some_iff hbefore p t).mpr (hcons.destruct before after p t heq)
  rw [hbefore] at hreg
  exact Option.some.inj (hreg.symm.trans hopen)

/-- A run of any number of threads that does not panic is type-consistent exactly if no `destruct`
names another type than the registered one. -/
theorem typeConsistent_iff {T : Type} (calls : List (T × Call)) (h : (runThreads calls).1 = none) :
    TypeConsistent (calls.map Prod.snd) ↔ DestructsMatch (calls.map Prod.snd) := by
  have hrun : runCalls (calls.map Prod.snd) new = (none, (runThreads calls).2) := Prod.ext h rfl
  exact ⟨fun hcons => hcons.destructsMatch hrun, fun hmatch => hmatch.consistent hrun⟩

/-- Two threads that reuse an address for objects of two types. -/
def reuse : List (Bool × Call) :=
  [(true, .construct 10 ⟨1⟩), (false, .check 10 ⟨1⟩), (false, .destruct 10 ⟨1⟩),
    (true, .construct 10 ⟨2⟩), (true, .destruct 10 ⟨2⟩)]

theorem typeConsistent_iff_reuse :
    (runThreads reuse).1 = none ∧
      (TypeConsistent (reuse.map Prod.snd) ↔ DestructsMatch (reuse.map Prod.snd)) :=
  ⟨rfl, typeConsistent_iff reuse rfl⟩

/-- An object that is constructed as one type and destructed as another. -/
def confused : List (Unit × Call) := [((), .construct 10 ⟨1⟩), ((), .destruct 10 ⟨2⟩)]

theorem confused_not_consistent :
    (runThreads confused).1 = none ∧ ¬ TypeConsistent (confused.map Prod.snd) := by
  refine ⟨rfl, fun h => ?_⟩
  have hopen := h.destruct [.construct 10 ⟨1⟩] [] 10 ⟨2⟩ rfl
  have hrun : runCalls [.construct 10 ⟨1⟩] new = (none, (runCalls [.construct 10 ⟨1⟩] new).2) := rfl
  exact absurd ((map_eq_some_iff hrun 10 ⟨2⟩).mpr hopen) (by decide)

end Ia2.TypeRegistry
