import Mathlib.Data.List.Induction
import Mathlib.Data.List.Perm.Basic
import Mathlib.Tactic.Common

/-!
# Lists

What a program can do with a list in one go: fold over it, take text with separators apart, read an
array up to its end, note what happened, and remove an element of an array that is in no order.
-/

/-! ### Conditions along a fold

A fold over a list meets every element in the state that the elements before it have led to.
`AtEach` states a condition on every element, that state and the elements that are still to come,
without the order in which the fold computes. -/

namespace Fold

variable {S A : Type} {step : S → A → S} {P : S → A → List A → Prop}

/-- Every element meets the condition in the state that it finds, given the elements after it. -/
def AtEach (step : S → A → S) (P : S → A → List A → Prop) (s : S) (xs : List A) : Prop :=
  ∀ before x after, xs = before ++ x :: after → P (before.foldl step s) x after

theorem atEach_nil (s : S) : AtEach step P s [] := by
  intro before x after h
  simp at h

theorem atEach_cons {s : S} {x : A} {xs : List A} :
    AtEach step P s (x :: xs) ↔ P s x xs ∧ AtEach step P (step s x) xs := by
  constructor
  · intro h
    exact ⟨h [] x xs rfl, fun before y after heq =>
      h (x :: before) y after (by rw [heq, List.cons_append])⟩
  · rintro ⟨hhead, hrest⟩ before y after heq
    cases before with
    | nil =>
      obtain ⟨rfl, rfl⟩ := List.cons.inj heq
      exact hhead
    | cons b before =>
      obtain ⟨rfl, hxs⟩ := List.cons.inj heq
      exact hrest before y after hxs

end Fold

/-! ### Separated lists

Text with a separator stands for a list of entries, `List.splitOn`. The induction here goes through
it entry by entry. -/

namespace Separated

variable {α : Type*} [DecidableEq α]

@[elab_as_elim]
theorem entry_induction (sep : α) {motive : List α → Prop}
    (last : ∀ entry, sep ∉ entry → motive entry)
    (next : ∀ entry rest, sep ∉ entry → motive rest → motive (entry ++ sep :: rest)) (l : List α) :
    motive l := by
  by_cases hsep : sep ∈ l
  · obtain ⟨entry, rest, rfl, hentry⟩ := List.eq_append_cons_of_mem hsep
    exact next entry rest hentry (entry_induction sep last next rest)
  · exact last l hsep
termination_by l.length
decreasing_by
  subst_vars
  simp only [List.length_append, List.length_cons]
  omega

theorem dropWhile_entry {sep : α} {entry : List α} (hentry : sep ∉ entry) {tail : List α}
    (htail : tail = [] ∨ tail.head? = some sep) :
    (entry ++ tail).dropWhile (· ≠ sep) = tail := by
  rw [List.dropWhile_append_of_pos fun x hx => decide_eq_true (ne_of_mem_of_not_mem hx hentry)]
  cases tail with
  | nil => rfl
  | cons c tail =>
    obtain rfl : c = sep := by simpa using htail
    simp

end Separated

/-! ### Terminated arrays

An array of pointers ends with a null pointer, and code that goes through it stops there. `read` is
what such code finds in an array of a given length; it has no result if there is no null pointer in
the array, since the code then goes on behind its end. -/

namespace Terminated

variable {α β : Type*}

def read : List (Option α) → Option (List α)
  | [] => none
  | none :: _ => some []
  | some x :: rest => (read rest).map (x :: ·)

theorem read_eq_some_iff {cells : List (Option α)} {xs : List α} :
    read cells = some xs ↔ ∃ rest, cells = xs.map some ++ none :: rest := by
  induction cells generalizing xs with
  | nil => simp [read]
  | cons cell cells ih =>
    cases cell with
    | none => cases xs <;> simp [read]
    | some x =>
      cases xs with
      | nil => simp [read]
      | cons y ys => simp [read, ih, and_comm]

theorem read_append (xs : List α) (rest : List (Option α)) :
    read (xs.map some ++ none :: rest) = some xs :=
  read_eq_some_iff.mpr ⟨rest, rfl⟩

/-- Cells that are the results of a partial function hold a terminated array if the function fails
somewhere. -/
theorem read_map_eq_some_iff {f : β → Option α} {ys : List β} {xs : List α} :
    read (ys.map f) = some xs ↔ ∃ before y after,
      ys = before ++ y :: after ∧ before.map f = xs.map some ∧ f y = none := by
  rw [read_eq_some_iff]
  constructor
  · rintro ⟨rest, hcells⟩
    obtain ⟨before, tail, rfl, hbefore, htail⟩ := List.map_eq_append_iff.mp hcells
    obtain ⟨y, after, rfl, hy, -⟩ := List.map_eq_cons_iff.mp htail
    exact ⟨before, y, after, rfl, hbefore, hy⟩
  · rintro ⟨before, y, after, rfl, hbefore, hy⟩
    exact ⟨after.map f, by rw [List.map_append, List.map_cons, hbefore, hy]⟩

end Terminated

/-! ### Histories

A history is a list of events, oldest first. Many properties of histories say of every event that it
fits the events before it. Such a property holds of a history with one more event exactly if it
holds without the event and the event fits, which is the form that an induction over a run uses. -/

namespace History

variable {A : Type}

/-- Every event fits the events before it. -/
def Fitting (fits : List A → A → Prop) (history : List A) : Prop :=
  ∀ before event after, history = before ++ event :: after → fits before event

theorem fitting_nil (fits : List A → A → Prop) : Fitting fits [] := by
  intro before event after h
  simp at h

theorem fitting_snoc {fits : List A → A → Prop} {history : List A} {event : A} :
    Fitting fits (history ++ [event]) ↔ Fitting fits history ∧ fits history event := by
  constructor
  · intro h
    exact ⟨fun before ev after heq => h before ev (after ++ [event]) (by simp [heq]),
      h history event [] rfl⟩
  · rintro ⟨h, hfits⟩ before ev after heq
    rcases List.eq_nil_or_concat after with rfl | ⟨after, last, rfl⟩
    · obtain ⟨rfl, hlast⟩ := List.append_inj' heq rfl
      rw [← List.singleton_inj.mp hlast]
      exact hfits
    · rw [List.concat_eq_append, ← List.cons_append, ← List.append_assoc] at heq
      exact h before ev after (List.append_inj' heq rfl).1

end History

/-! ### Removing by swapping

An array that is not kept in order loses an element by moving the last one into its place. What is
left is the other elements in some order. The place to remove is usually one that a search found;
`findIdx?_split` gives it as a split of the list, the form that `swapRemove_perm` takes. -/

namespace List

variable {α : Type}

/-- The last element moves to a position, and the list gets shorter by one. -/
def swapRemove (xs : List α) (i : Nat) : List α :=
  match xs.getLast? with
  | none => xs
  | some last => (xs.set i last).dropLast

theorem swapRemove_perm (l r : List α) (x : α) : swapRemove (l ++ x :: r) l.length ~ l ++ r := by
  rcases eq_nil_or_concat r with rfl | ⟨r, last, rfl⟩
  · simp [swapRemove]
  · rw [concat_eq_append]
    have hlast : (l ++ x :: (r ++ [last])).getLast? = some last := by
      rw [← cons_append, ← append_assoc, getLast?_concat]
    have hset : ((l ++ x :: (r ++ [last])).set l.length last).dropLast = l ++ last :: r := by
      rw [set_append_right _ _ (Nat.le_refl _), Nat.sub_self, set_cons_zero, ← cons_append,
        ← append_assoc, dropLast_concat]
    rw [swapRemove, hlast]
    simp only [hset]
    exact Perm.append_left l (perm_append_singleton last r).symm

theorem findIdx?_split {p : α → Bool} {xs : List α} (h : ∃ x ∈ xs, p x = true) :
    ∃ l x r, xs = l ++ x :: r ∧ xs.findIdx? p = some l.length ∧ p x = true := by
  have hsome : (xs.findIdx? p).isSome := by
    rw [findIdx?_isSome, any_eq_true]
    exact h
  obtain ⟨i, hi⟩ := Option.isSome_iff_exists.mp hsome
  obtain ⟨hlt, hmem, -⟩ := findIdx?_eq_some_iff_getElem.mp hi
  refine ⟨xs.take i, xs[i], xs.drop (i + 1), ?_, ?_, hmem⟩
  · rw [getElem_cons_drop, take_append_drop]
  · rw [hi, length_take_of_le (Nat.le_of_lt hlt)]

end List
