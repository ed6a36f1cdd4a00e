import Mathlib.Data.List.Basic
import Mathlib.Data.List.Induction
import Mathlib.Data.List.Perm.Basic
import Mathlib.Logic.Function.Basic

/-!
# Tables

A table is a partial function from keys to values, changed one key at a time. `assign` overwrites
what is there and `insert` keeps it, so after a sequence of assignments the last one for a key
counts and after a sequence of insertions the first.
-/

abbrev Table (K V : Type) := K → Option V

namespace Table

variable {K V A : Type}

def empty : Table K V := fun _ => none

@[simp] theorem empty_apply (k : K) : (empty : Table K V) k = none := rfl

variable [DecidableEq K]

def assign (m : Table K V) (k : K) (v : V) : Table K V := Function.update m k (some v)

def erase (m : Table K V) (k : K) : Table K V := Function.update m k none

/-- Add an entry unless the key has one. -/
def insert (m : Table K V) (k : K) (v : V) : Table K V :=
  match m k with
  | some _ => m
  | none => m.assign k v

@[simp] theorem assign_self (m : Table K V) (k : K) (v : V) : m.assign k v k = some v := by
  rw [assign, Function.update_self]

@[simp] theorem erase_self (m : Table K V) (k : K) : m.erase k k = none := by
  rw [erase, Function.update_self]

theorem assign_of_ne {k l : K} (h : l ≠ k) (m : Table K V) (v : V) : m.assign k v l = m l := by
  rw [assign, Function.update_of_ne h]

theorem erase_of_ne {k l : K} (h : l ≠ k) (m : Table K V) : m.erase k l = m l := by
  rw [erase, Function.update_of_ne h]

theorem insert_of_some {m : Table K V} {k : K} {w : V} (h : m k = some w) (v : V) :
    m.insert k v = m := by
  simp only [insert, h]

@[simp] theorem insert_self (m : Table K V) (k : K) (v : V) :
    m.insert k v k = (m k).or (some v) := by
  cases h : m k with
  | none => simp [insert, h]
  | some w => rw [insert_of_some h, h, Option.some_or]

theorem insert_of_ne {k l : K} (h : l ≠ k) (m : Table K V) (v : V) : m.insert k v l = m l := by
  cases hm : m k with
  | none =>
    simp only [insert, hm]
    exact assign_of_ne h m v
  | some w => rw [insert_of_some hm]

/-! ### The last assignment counts -/

def assignAll (m : Table K V) (ks : List K) (v : V) : Table K V :=
  ks.foldl (fun m k => m.assign k v) m

theorem assignAll_apply (m : Table K V) (ks : List K) (v : V) (k : K) :
    m.assignAll ks v k = if k ∈ ks then some v else m k := by
  induction ks generalizing m with
  | nil => simp [assignAll]
  | cons l ks ih =>
    have hstep : m.assignAll (l :: ks) v = (m.assign l v).assignAll ks v := rfl
    rw [hstep, ih]
    by_cases hks : k ∈ ks
    · simp [hks]
    · by_cases hkl : k = l
      · subst hkl
        simp [hks]
      · rw [assign_of_ne hkl]
        simp [hks, hkl]

/-- Every element assigns its value to its keys, in the order of the list. -/
def collect (keys : A → List K) (value : A → V) (xs : List A) : Table K V :=
  xs.foldl (fun m x => m.assignAll (keys x) (value x)) empty

section Collect

variable {keys : A → List K} {value : A → V}

theorem collect_concat (xs : List A) (x : A) (k : K) :
    collect keys value (xs ++ [x]) k = if k ∈ keys x then some (value x)
    else collect keys value xs k := by
  rw [collect, List.foldl_append, List.foldl_cons, List.foldl_nil, assignAll_apply]
  rfl

theorem exists_of_collect {xs : List A} {k : K} {v : V} (h : collect keys value xs k = some v) :
    ∃ x ∈ xs, k ∈ keys x ∧ value x = v := by
  induction xs using List.reverseRecOn with
  | nil => simp [collect] at h
  | append_singleton xs x ih =>
    rw [collect_concat] at h
    split at h
    case isTrue hk => exact ⟨x, by simp, hk, Option.some.inj h⟩
    case isFalse hk =>
      obtain ⟨y, hy, hrest⟩ := ih h
      exact ⟨y, List.mem_append_left _ hy, hrest⟩

theorem collect_eq_none {xs : List A} {k : K} (h : ∀ x ∈ xs, k ∉ keys x) :
    collect keys value xs k = none := by
  cases hv : collect keys value xs k with
  | none => rfl
  | some v =>
    obtain ⟨x, hx, hk, -⟩ := exists_of_collect hv
    exact absurd hk (h x hx)

theorem collect_isSome {xs : List A} {x : A} (hx : x ∈ xs) {k : K} (hk : k ∈ keys x) :
    ∃ v, collect keys value xs k = some v := by
  induction xs using List.reverseRecOn with
  | nil => simp at hx
  | append_singleton xs y ih =>
    rw [collect_concat]
    split
    case isTrue => exact ⟨value y, rfl⟩
    case isFalse hy =>
      refine ih ?_
      rcases List.mem_append.mp hx with hx | hx
      · exact hx
      · rw [List.mem_singleton.mp hx] at hk
        exact absurd hk hy

theorem exists_perm_collect {xs : List A} {x : A} (hx : x ∈ xs) {k : K} (hk : k ∈ keys x) :
    ∃ order, order.Perm xs ∧ collect keys value order k = some (value x) := by
  obtain ⟨before, after, rfl⟩ := List.append_of_mem hx
  refine ⟨before ++ after ++ [x], ?_, ?_⟩
  · rw [List.append_assoc]
    exact (List.perm_append_singleton x after).append_left before
  · rw [collect_concat, if_pos hk]

end Collect

end Table
