import Ia2.Runtime.DynamicTable
import Mathlib.Data.List.Induction

/-!
# Rewriting the finalizers of an object

`ia2_setup_destructors` makes the loader call the gate to `ia2_compartment_destructor` instead of
the object's finalizers. The destructor then runs what was saved of the dynamic table.

The size of the finalizer array that goes into the table is 1, which the loader divides by 8, so
only `DT_FINI` leads to the destructor; and the destructor runs the array from its start while the
loader runs it from its end.
-/

namespace Ia2.Destructors

open Image

/-- The last value under a tag before the end of the table, as the loader finds it. -/
def lookup (table : List Dyn) (tag : UInt64) : Option UInt64 :=
  ((table.takeWhile fun dyn => dyn.dTag ≠ DT_NULL).filter fun dyn => dyn.dTag = tag).getLast?.map
    Dyn.dVal

section Loader

variable (base : UInt64) (pointers : UInt64 → UInt64)

def arrayCalls (offset size : UInt64) : List UInt64 :=
  (List.range (size.toNat / 8)).map fun i => pointers (base + offset + 8 * UInt64.ofNat i)

def finalizerCalls (table : List Dyn) : List UInt64 :=
  (match lookup table DT_FINI_ARRAY, lookup table DT_FINI_ARRAYSZ with
    | some offset, some size => (arrayCalls base pointers offset size).reverse
    | _, _ => []) ++
  match lookup table DT_FINI with
  | some offset => [base + offset]
  | none => []

end Loader

/-- A loaded object, with the function pointers in its memory. -/
structure Object extends Image where
  pointers : UInt64 → UInt64
  dynamic_aligned : dynamic % 8 = 0
  /-- Nothing but padding follows the end of the table. -/
  ended : ∀ dyn ∈ table.dropWhile fun dyn => dyn.dTag ≠ DT_NULL, dyn.dTag = DT_NULL
  together : (lookup table DT_FINI_ARRAY).isSome = (lookup table DT_FINI_ARRAYSZ).isSome
  /-- The gate is not one of the object's own finalizers. -/
  fresh : wrapDestructor ∉ finalizerCalls ehdrStart pointers table

namespace Object

variable (obj : Object)

/-! ### Running finalizers -/

def compartmentDestructor (info : FinalizerInfo) (ranDestructors : Bool) : List UInt64 × Bool :=
  if ranDestructors then ([], true)
  else
    (arrayCalls obj.ehdrStart obj.pointers info.finiArrayOffset info.finiArraySize ++
      (if info.finiOffset ≠ 0 then [obj.ehdrStart + info.finiOffset] else []), true)

def runFinalizers (info : FinalizerInfo) : List UInt64 → Bool → List UInt64
  | [], _ => []
  | addr :: rest, ranDestructors =>
    if addr = obj.wrapDestructor then
      (obj.compartmentDestructor info ranDestructors).1 ++
        runFinalizers info rest (obj.compartmentDestructor info ranDestructors).2
    else addr :: runFinalizers info rest ranDestructors

/-- The rewriting completes, and the finalizers that run then are those of the original table, in
its order. -/
def Preserved : Prop :=
  ∃ table info, obj.setupDestructors = some (table, info) ∧
    obj.runFinalizers info (finalizerCalls obj.ehdrStart obj.pointers table) false =
      finalizerCalls obj.ehdrStart obj.pointers obj.table

/-! ### Looking up in the rewritten table -/

variable {tag : UInt64}

theorem filter_ended (htag : tag ≠ DT_NULL) :
    ((obj.table.takeWhile fun dyn => dyn.dTag ≠ DT_NULL).filter fun dyn => dyn.dTag = tag) =
      obj.table.filter fun dyn => dyn.dTag = tag := by
  have hpadding : ((obj.table.dropWhile fun dyn => dyn.dTag ≠ DT_NULL).filter fun dyn =>
      dyn.dTag = tag) = [] := by
    rw [List.filter_eq_nil_iff]
    intro dyn hdyn
    simpa [obj.ended dyn hdyn] using htag.symm
  have hsplit := congrArg (List.filter fun dyn => dyn.dTag = tag)
    (List.takeWhile_append_dropWhile (p := fun dyn => dyn.dTag ≠ DT_NULL)
    (l := obj.table))
  rwa [List.filter_append, hpadding, List.append_nil] at hsplit

theorem lookup_eq (htag : tag ≠ DT_NULL) :
    lookup obj.table tag = (obj.table.filter fun dyn => dyn.dTag = tag).getLast?.map Dyn.dVal := by
  rw [lookup, obj.filter_ended htag]

theorem lookup_map {f : Dyn → Dyn} (htags : ∀ dyn, (f dyn).dTag = dyn.dTag) {v : UInt64}
    (hval : ∀ dyn, dyn.dTag = tag → (f dyn).dVal = v) (table : List Dyn) :
    lookup (table.map f) tag = (lookup table tag).map fun _ => v := by
  simp only [lookup, List.takeWhile_map, List.filter_map, List.getLast?_map, Option.map_map,
    Function.comp_def, htags]
  refine Option.map_congr fun dyn hdyn => hval dyn ?_
  simpa using (List.mem_filter.mp (List.mem_of_getLast? hdyn)).2

theorem replace_dTag (dyn : Dyn) : (obj.replace dyn).dTag = dyn.dTag := by
  simp only [replace]
  split_ifs <;> rfl

theorem foldl_save {field : FinalizerInfo → UInt64}
    (hfield : ∀ info dyn, field (save info dyn) = if dyn.dTag = tag then dyn.dVal else field info)
    (table : List Dyn) :
    field (table.foldl save {}) =
      ((table.filter fun dyn => dyn.dTag = tag).getLast?.map Dyn.dVal).getD (field {}) := by
  induction table using List.reverseRecOn with
  | nil => rfl
  | append_singleton table dyn ih =>
    rw [List.foldl_append, List.foldl_cons, List.foldl_nil, hfield, List.filter_append]
    by_cases htag : dyn.dTag = tag
    · simp [htag]
    · simp [htag, ih]

theorem foldl_save_table : obj.table.foldl save {} =
    ⟨(lookup obj.table DT_FINI).getD 0, (lookup obj.table DT_FINI_ARRAY).getD 0,
      (lookup obj.table DT_FINI_ARRAYSZ).getD 0⟩ := by
  have hfini : ∀ info dyn, (save info dyn).finiOffset = if dyn.dTag = DT_FINI then dyn.dVal
      else info.finiOffset := by
    intro info dyn
    simp only [save]
    split_ifs <;> rfl
  have harray : ∀ info dyn, (save info dyn).finiArrayOffset = if dyn.dTag = DT_FINI_ARRAY
      then dyn.dVal else info.finiArrayOffset := by
    intro info dyn
    simp only [save]
    split_ifs <;> simp_all [DT_FINI, DT_FINI_ARRAY]
  have hsize : ∀ info dyn, (save info dyn).finiArraySize = if dyn.dTag = DT_FINI_ARRAYSZ
      then dyn.dVal else info.finiArraySize := by
    intro info dyn
    simp only [save]
    split_ifs <;> simp_all [DT_FINI, DT_FINI_ARRAY, DT_FINI_ARRAYSZ]
  rw [obj.lookup_eq (by decide), obj.lookup_eq (by decide), obj.lookup_eq (by decide)]
  rw [FinalizerInfo.mk.injEq]
  exact ⟨foldl_save hfini _, foldl_save harray _, foldl_save hsize _⟩

/-! ### The rewriting -/

theorem within (i : Nat) (table : List Dyn) : obj.Within i table := by
  induction table generalizing i with
  | nil => trivial
  | cons dyn rest ih =>
    refine ⟨fun _ => ?_, ih (i + 1)⟩
    have haligned := obj.dynamic_aligned
    simp only [valueAddr, roundDown, PAGE_SIZE]
    omega

variable {obj}

theorem setupDestructors_of_faultless (h : obj.Faultless) :
    obj.setupDestructors = some (obj.table.map obj.replace, obj.table.foldl save {}) := by
  obtain ⟨st, hrun, hsaved, -⟩ := rewriteTable_of_faultless (obj.within 0 obj.table) h
  simp [setupDestructors, hrun, hsaved]

theorem setupDestructors_of_not_faultless (h : ¬ obj.Faultless) : obj.setupDestructors = none := by
  simp [setupDestructors, rewriteTable_of_not_faultless (obj.within 0 obj.table) h]

/-! ### What runs -/

/-- The pointers of the object's finalizer array, from its start. -/
def finiArray (obj : Object) : List UInt64 :=
  match lookup obj.table DT_FINI_ARRAY, lookup obj.table DT_FINI_ARRAYSZ with
  | some offset, some size => arrayCalls obj.ehdrStart obj.pointers offset size
  | _, _ => []

theorem finalizerCalls_original : finalizerCalls obj.ehdrStart obj.pointers obj.table =
    obj.finiArray.reverse ++ (lookup obj.table DT_FINI).toList.map (obj.ehdrStart + ·) := by
  rw [finalizerCalls, finiArray]
  congr 1
  · split <;> rfl
  · split <;> simp_all

theorem finalizerCalls_rewritten :
    finalizerCalls obj.ehdrStart obj.pointers (obj.table.map obj.replace) =
    (lookup obj.table DT_FINI).toList.map fun _ => obj.wrapDestructor := by
  have hfini : lookup (obj.table.map obj.replace) DT_FINI =
      (lookup obj.table DT_FINI).map fun _ => obj.wrapDestructor - obj.ehdrStart :=
    lookup_map obj.replace_dTag (fun dyn htag => by simp [replace, htag]) obj.table
  have hsize : lookup (obj.table.map obj.replace) DT_FINI_ARRAYSZ =
      (lookup obj.table DT_FINI_ARRAYSZ).map fun _ => 1 :=
    lookup_map obj.replace_dTag (fun dyn htag => by
      simp [replace, htag, DT_FINI, DT_FINI_ARRAY, DT_FINI_ARRAYSZ]) obj.table
  have harray : (match lookup (obj.table.map obj.replace) DT_FINI_ARRAY,
    lookup (obj.table.map obj.replace) DT_FINI_ARRAYSZ with
      | some offset, some size => (arrayCalls obj.ehdrStart obj.pointers offset size).reverse
      | _, _ => []) = [] := by
    rw [hsize]
    cases lookup obj.table DT_FINI_ARRAYSZ <;>
      cases lookup (obj.table.map obj.replace) DT_FINI_ARRAY <;> simp [arrayCalls]
  have hgate : obj.ehdrStart + (obj.wrapDestructor - obj.ehdrStart) = obj.wrapDestructor := by
    rw [UInt64.add_comm, UInt64.sub_add_cancel]
  rw [finalizerCalls, harray, hfini]
  cases lookup obj.table DT_FINI <;> simp [hgate]

theorem compartmentDestructor_saved :
    (obj.compartmentDestructor (obj.table.foldl save {}) false).1 =
    obj.finiArray ++ ((lookup obj.table DT_FINI).toList.filter (· ≠ 0)).map
      (obj.ehdrStart + ·) := by
  rw [compartmentDestructor, if_neg (by simp), obj.foldl_save_table, finiArray]
  have htogether := obj.together
  have harray : arrayCalls obj.ehdrStart obj.pointers ((lookup obj.table DT_FINI_ARRAY).getD 0)
      ((lookup obj.table DT_FINI_ARRAYSZ).getD 0) =
      match lookup obj.table DT_FINI_ARRAY, lookup obj.table DT_FINI_ARRAYSZ with
      | some offset, some size => arrayCalls obj.ehdrStart obj.pointers offset size
      | _, _ => [] := by
    cases hoffset : lookup obj.table DT_FINI_ARRAY <;>
      cases hsize : lookup obj.table DT_FINI_ARRAYSZ <;> simp_all [arrayCalls]
  simp only [harray]
  cases lookup obj.table DT_FINI with
  | none => simp
  | some fini => by_cases hzero : fini = 0 <;> simp [hzero]

theorem runFinalizers_gate (info : FinalizerInfo) (fini : Option UInt64) :
    obj.runFinalizers info (fini.toList.map fun _ => obj.wrapDestructor) false =
      if fini.isSome then (obj.compartmentDestructor info false).1 else [] := by
  cases fini <;> simp [runFinalizers]

end Object

/-- The rewriting preserves finalization exactly if it does not fault and either there is a
`DT_FINI`, it is not 0 and the array reads the same from both ends, or there is none and the array
is empty. -/
theorem preserved_iff (obj : Object) :
    obj.Preserved ↔ obj.Faultless ∧
      match lookup obj.table DT_FINI with
      | some fini => fini ≠ 0 ∧ obj.finiArray.reverse = obj.finiArray
      | none => obj.finiArray = [] := by
  by_cases hfault : obj.Faultless
  · have hsetup := Object.setupDestructors_of_faultless hfault
    rw [Object.Preserved, hsetup]
    have hruns : (∃ table info, some (obj.table.map obj.replace, obj.table.foldl save {}) =
      some (table, info) ∧
        obj.runFinalizers info (finalizerCalls obj.ehdrStart obj.pointers table) false =
          finalizerCalls obj.ehdrStart obj.pointers obj.table) ↔
        (if (lookup obj.table DT_FINI).isSome
          then (obj.compartmentDestructor (obj.table.foldl save {}) false).1 else []) =
          obj.finiArray.reverse ++ (lookup obj.table DT_FINI).toList.map (obj.ehdrStart + ·) := by
      rw [← Object.runFinalizers_gate, ← Object.finalizerCalls_rewritten,
        ← Object.finalizerCalls_original]
      constructor
      · rintro ⟨table, info, heq, hrun⟩
        cases heq
        exact hrun
      · intro hrun
        exact ⟨_, _, rfl, hrun⟩
    rw [hruns, and_iff_right hfault, Object.compartmentDestructor_saved]
    cases lookup obj.table DT_FINI with
    | none =>
      rw [if_neg (by simp), Option.toList_none, List.map_nil, List.append_nil, eq_comm,
        List.reverse_eq_nil_iff]
    | some fini =>
      by_cases hzero : fini = 0
      · have hlength : ∀ tail : UInt64, obj.finiArray ≠ obj.finiArray.reverse ++ [tail] :=
          fun tail heq => by
          have := congrArg List.length heq
          simp at this
        simp [hzero, hlength]
      · have hsame : obj.finiArray = obj.finiArray.reverse ↔
          obj.finiArray.reverse = obj.finiArray := eq_comm
        simp [hzero, hsame]
  · have hsetup := Object.setupDestructors_of_not_faultless hfault
    simp [Object.Preserved, hsetup, hfault]

/-- An object whose only finalizer is in its array, with the table on a page of its own. -/
def arrayOnly : Object where
  ehdrStart := 0x10000
  wrapDestructor := 0x11000
  destructorPtr := 0x13000
  finalizers := 0x12000
  dynamic := 0x14000
  table := [⟨DT_FINI_ARRAY, 0x5000⟩, ⟨DT_FINI_ARRAYSZ, 8⟩, ⟨DT_NULL, 0⟩]
  writable _ := false
  mapped := by decide
  pointers _ := 0x10800
  dynamic_aligned := rfl
  ended := by decide
  together := by decide
  fresh := by decide

/-- Its finalizer does not run any more. -/
theorem arrayOnly_not_preserved : ¬ arrayOnly.Preserved := by
  rintro ⟨table, info, hsetup, hruns⟩
  have hrewritten : arrayOnly.setupDestructors =
      some ([⟨DT_FINI_ARRAY, 0x3000⟩, ⟨DT_FINI_ARRAYSZ, 1⟩, ⟨DT_NULL, 0⟩], ⟨0, 0x5000, 8⟩) := by
        decide
  rw [hrewritten] at hsetup
  cases hsetup
  exact absurd hruns (by decide)

end Ia2.Destructors
