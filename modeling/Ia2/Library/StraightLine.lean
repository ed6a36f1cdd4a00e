import Mathlib.Tactic.Common

/-!
# Straight-line programs

A straight-line program is a list of instructions, each of which takes a state to the next one.
`Along P` says that `P` holds of every instruction with the state it starts in. `Runs P prog s Q`
adds what holds of the state at the end; programs are verified piece by piece with `Runs.append`.
-/

namespace StraightLine

variable {I S : Type} (exec : I → S → S)

def run : List I → S → S
  | [], s => s
  | i :: prog, s => run prog (exec i s)

def Along (P : I → S → Prop) : List I → S → Prop
  | [], _ => True
  | i :: prog, s => P i s ∧ Along P prog (exec i s)

/-- The state in which the first instruction with the property starts. -/
def firstAt (p : I → Bool) : List I → S → Option S
  | [], _ => none
  | i :: prog, s => if p i then some s else firstAt p prog (exec i s)

/-- What can be observed of the instructions of a run, in order. -/
def trace {E : Type} (observe : I → S → Option E) : List I → S → List E
  | [], _ => []
  | i :: prog, s => (observe i s).toList ++ trace observe prog (exec i s)

/-- Every step of the program meets `P`, and its last state meets `Q`. -/
def Runs (P : I → S → Prop) (prog : List I) (s : S) (Q : S → Prop) : Prop :=
  Along exec P prog s ∧ Q (run exec prog s)

variable {exec} {P P' : I → S → Prop} {prog prog' : List I} {s : S} {Q R : S → Prop}

theorem run_append (s : S) : run exec (prog ++ prog') s = run exec prog' (run exec prog s) := by
  induction prog generalizing s with
  | nil => rfl
  | cons i prog ih => exact ih (exec i s)

theorem along_append (s : S) :
    Along exec P (prog ++ prog') s ↔ Along exec P prog s ∧
      Along exec P prog' (run exec prog s) := by
  induction prog generalizing s with
  | nil => simp [Along, run]
  | cons i prog ih => simp only [List.cons_append, Along, run, ih, and_assoc]

theorem Along.mono (h : Along exec P prog s) (himp : ∀ i s, i ∈ prog → P i s → P' i s) :
    Along exec P' prog s := by
  induction prog generalizing s with
  | nil => trivial
  | cons i prog ih =>
    exact ⟨himp i s (by simp) h.1, ih h.2 fun j s hj => himp j s (by simp [hj])⟩

theorem along_of_forall (h : ∀ i ∈ prog, ∀ s, P i s) (s : S) : Along exec P prog s := by
  induction prog generalizing s with
  | nil => trivial
  | cons i prog ih =>
    rw [List.forall_mem_cons] at h
    exact ⟨h.1 s, ih h.2 (exec i s)⟩

/-- A property of states that every step keeps holds along the whole program. -/
theorem Along.invariant {J : S → Prop} (h : Along exec P prog s) (hs : J s)
    (hstep : ∀ i s, i ∈ prog → P i s → J s → J (exec i s)) :
    Runs exec (fun i s => P i s ∧ J s) prog s J := by
  induction prog generalizing s with
  | nil => exact ⟨trivial, hs⟩
  | cons i prog ih =>
    have hnext := ih h.2 (hstep i s (by simp) h.1 hs) fun j s hj => hstep j s (by simp [hj])
    exact ⟨⟨⟨h.1, hs⟩, hnext.1⟩, hnext.2⟩

theorem Runs.nil (h : Q s) : Runs exec P [] s Q := ⟨trivial, h⟩

theorem Runs.cons {i : I} (hi : P i s) (h : Runs exec P prog (exec i s) Q) :
    Runs exec P (i :: prog) s Q :=
  ⟨⟨hi, h.1⟩, h.2⟩

theorem Runs.append (h : Runs exec P prog s Q) (h' : ∀ s', Q s' → Runs exec P prog' s' R) :
    Runs exec P (prog ++ prog') s R := by
  obtain ⟨halong, hq⟩ := h
  obtain ⟨halong', hr⟩ := h' _ hq
  exact ⟨(along_append s).mpr ⟨halong, halong'⟩, by rwa [run_append]⟩

theorem Runs.mono (h : Runs exec P prog s Q) (hP : ∀ i s, i ∈ prog → P i s → P' i s)
    (hQ : ∀ s, Q s → R s) :
    Runs exec P' prog s R :=
  ⟨h.1.mono hP, hQ _ h.2⟩

theorem Runs.post (h : Runs exec P prog s Q) (hQ : ∀ s, Q s → R s) : Runs exec P prog s R :=
  ⟨h.1, hQ _ h.2⟩

/-- A loop that is unrolled: a property of states for each round. -/
theorem Runs.range {J : Nat → S → Prop} {body : Nat → List I} {n : Nat} (h : J 0 s)
    (hround : ∀ k < n, ∀ s, J k s → Runs exec P (body k) s (J (k + 1))) :
    Runs exec P ((List.range n).flatMap body) s (J n) := by
  induction n with
  | zero => exact Runs.nil h
  | succ n ih =>
    rw [List.range_succ, List.flatMap_append, List.flatMap_singleton]
    exact (ih fun k hk => hround k (by omega)).append fun s' hs' => hround n (by omega) s' hs'

theorem Along.exists_of_mem {i : I} (h : Along exec P prog s) (hi : i ∈ prog) : ∃ s', P i s' := by
  induction prog generalizing s with
  | nil => cases hi
  | cons j prog ih =>
    rcases List.mem_cons.mp hi with rfl | hi
    · exact ⟨s, h.1⟩
    · exact ih h.2 hi

/-- A program that means the same under two semantics. -/
theorem run_congr {exec' : I → S → S} (h : ∀ i ∈ prog, exec i = exec' i) (s : S) :
    run exec prog s = run exec' prog s := by
  induction prog generalizing s with
  | nil => rfl
  | cons i prog ih =>
    rw [List.forall_mem_cons] at h
    rw [run, run, h.1, ih h.2]

theorem firstAt_congr {exec' : I → S → S} {p : I → Bool}
    (h : ∀ i ∈ prog, exec i = exec' i) (s : S) :
    firstAt exec p prog s = firstAt exec' p prog s := by
  induction prog generalizing s with
  | nil => rfl
  | cons i prog ih =>
    rw [List.forall_mem_cons] at h
    rw [firstAt, firstAt, h.1, ih h.2]

theorem firstAt_append {p : I → Bool} {i : I} (hprog : ∀ j ∈ prog, p j = false)
    (hi : p i = true) (s : S) :
    firstAt exec p (prog ++ i :: prog') s = some (run exec prog s) := by
  induction prog generalizing s with
  | nil => simp [firstAt, run, hi]
  | cons j prog ih =>
    rw [List.forall_mem_cons] at hprog
    rw [List.cons_append, firstAt, hprog.1, run, if_neg (by simp), ih hprog.2]

theorem trace_append {E : Type} {observe : I → S → Option E} (s : S) :
    trace exec observe (prog ++ prog') s = trace exec observe prog s ++
      trace exec observe prog' (run exec prog s) := by
  induction prog generalizing s with
  | nil => rfl
  | cons i prog ih => rw [List.cons_append, trace, trace, ih, run, List.append_assoc]

theorem trace_of_none {E : Type} {observe : I → S → Option E}
    (h : ∀ i ∈ prog, ∀ s, observe i s = none) (s : S) :
    trace exec observe prog s = [] := by
  induction prog generalizing s with
  | nil => rfl
  | cons i prog ih =>
    rw [List.forall_mem_cons] at h
    rw [trace, h.1 s, ih h.2, Option.toList_none, List.nil_append]

end StraightLine
