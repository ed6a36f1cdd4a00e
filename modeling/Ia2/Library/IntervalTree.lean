import Mathlib.Order.Basic
import Mathlib.Data.List.Sort

/-!
# Trees of disjoint intervals

A map from half-open intervals to values, as an interface: what an implementation stores (`entries`,
in key order) and what its operations do to it. `range` is the only operation that can panic, on an
inverted query. On a query of length zero the interface promises no more than that the answer
consists of stored intervals.

Programs over such a tree are verified against `lookup`, the partial function from points to values
that the stored intervals describe. `SortedIntervals` is the reference implementation.
-/

/-- A half-open interval `[lo, hi)` with a value. -/
structure LabelledInterval (K V : Type) where
  lo : K
  hi : K
  val : V
deriving DecidableEq, Repr

namespace LabelledInterval

variable {K V : Type} [LinearOrder K]

/-- The point `k` lies in the interval. -/
def Contains (e : LabelledInterval K V) (k : K) : Prop := e.lo ≤ k ∧ k < e.hi

instance (e : LabelledInterval K V) (k : K) : Decidable (e.Contains k) :=
  inferInstanceAs (Decidable (_ ∧ _))

/-- The interval has a point in common with `[lo, hi)`, for a nonempty interval and a nonempty
query. -/
def Meets (e : LabelledInterval K V) (lo hi : K) : Prop := e.lo < hi ∧ lo < e.hi

instance (e : LabelledInterval K V) (lo hi : K) : Decidable (e.Meets lo hi) :=
  inferInstanceAs (Decidable (_ ∧ _))

theorem Contains.meets {e : LabelledInterval K V} {k lo hi : K} (he : e.Contains k) (hlo : lo ≤ k)
    (hhi : k < hi) :
    e.Meets lo hi :=
  ⟨he.1.trans_lt hhi, hlo.trans_lt he.2⟩

/-- Nonempty intervals in ascending order, none overlapping the next. -/
structure Apart (es : List (LabelledInterval K V)) : Prop where
  nonempty : ∀ e ∈ es, e.lo < e.hi
  ordered : es.Pairwise fun a b => a.hi ≤ b.lo

theorem Apart.nil : Apart ([] : List (LabelledInterval K V)) := ⟨by simp, List.Pairwise.nil⟩

theorem Apart.tail {e : LabelledInterval K V} {es : List (LabelledInterval K V)}
    (h : Apart (e :: es)) : Apart es :=
  ⟨fun a ha => h.nonempty a (List.mem_cons_of_mem _ ha), (List.pairwise_cons.mp h.ordered).2⟩

theorem Apart.sublist {es fs : List (LabelledInterval K V)} (h : Apart fs)
    (hsub : es.Sublist fs) : Apart es :=
  ⟨fun e he => h.nonempty e (hsub.subset he), h.ordered.sublist hsub⟩

/-- Two stored intervals with a point in common are the same. -/
theorem Apart.eq_of_contains {es : List (LabelledInterval K V)} (h : Apart es)
    {a b : LabelledInterval K V} (ha : a ∈ es) (hb : b ∈ es) {k : K} (hak : a.Contains k)
    (hbk : b.Contains k) : a = b := by
  by_contra hne
  have hord := List.pairwise_iff_getElem.mp h.ordered
  obtain ⟨i, hi, rfl⟩ := List.getElem_of_mem ha
  obtain ⟨j, hj, rfl⟩ := List.getElem_of_mem hb
  rcases lt_trichotomy i j with hij | rfl | hij
  · exact absurd (hord i j hi hj hij) (not_le.mpr (hbk.1.trans_lt hak.2))
  · exact hne rfl
  · exact absurd (hord j i hj hi hij) (not_le.mpr (hak.1.trans_lt hbk.2))

theorem Apart.of_sorted {es : List (LabelledInterval K V)}
    (hsorted : es.Pairwise fun a b => a.lo < b.lo) (hne : ∀ e ∈ es, e.lo < e.hi)
    (hsep : ∀ a ∈ es, ∀ b ∈ es, a ≠ b → ¬ a.Meets b.lo b.hi) : Apart es := by
  refine ⟨hne, hsorted.imp_of_mem fun {a b} ha hb hlt => ?_⟩
  by_contra hover
  refine hsep a ha b hb (fun he => absurd hlt (by simp [he])) ⟨?_, not_le.mp hover⟩
  exact hlt.trans (hne b hb)

theorem Apart.not_meets {es : List (LabelledInterval K V)} (h : Apart es)
    {a b : LabelledInterval K V} (ha : a ∈ es) (hb : b ∈ es) (hne : a ≠ b) :
    ¬ a.Meets b.lo b.hi := by
  intro hm
  have hcommon : a.Contains (max a.lo b.lo) ∧ b.Contains (max a.lo b.lo) :=
    ⟨⟨le_max_left _ _, max_lt (h.nonempty a ha) hm.2⟩,
      ⟨le_max_right _ _, max_lt hm.1 (h.nonempty b hb)⟩⟩
  exact hne (h.eq_of_contains ha hb hcommon.1 hcommon.2)

theorem Apart.eq_of_lo_eq {es : List (LabelledInterval K V)} (h : Apart es)
    {a b : LabelledInterval K V} (ha : a ∈ es) (hb : b ∈ es) (hlo : a.lo = b.lo) : a = b :=
  h.eq_of_contains ha hb ⟨le_rfl, h.nonempty a ha⟩ ⟨hlo.ge, hlo ▸ h.nonempty b hb⟩

theorem Apart.head_contains {a o : LabelledInterval K V} {es : List (LabelledInterval K V)}
    (h : Apart (a :: es)) {lo hi : K} (ho : o ∈ a :: es) (hlo : o.Contains lo)
    (hmeets : a.Meets lo hi) : a.Contains lo := by
  rcases List.mem_cons.mp ho with rfl | ho
  · exact hlo
  · have hbefore : a.hi ≤ o.lo := (List.pairwise_cons.mp h.ordered).1 o ho
    exact absurd hmeets.2 (not_lt.mpr (hbefore.trans hlo.1))

end LabelledInterval

/-- An implementation of a map from intervals to values: what it stores and what its operations do
to that. -/
class IntervalTree (T : Type) (K V : outParam Type) [LinearOrder K] where
  /-- The stored intervals, in iteration order. -/
  entries : T → List (LabelledInterval K V)
  empty : T
  /-- The stored intervals that overlap `[lo, hi)`, in order; `none` is a panic. -/
  range : T → K → K → Option (List (LabelledInterval K V))
  insert : T → K → K → V → T
  /-- Remove the interval that starts at the key; `none` when there is none. -/
  remove : T → K → Option T
  sorted (t : T) : (entries t).Pairwise fun a b => a.lo < b.lo
  entries_empty : entries empty = []
  range_inverted (t : T) {lo hi : K} : hi < lo → range t lo hi = none
  range_point (t : T) (k : K) : ∃ es, range t k k = some es ∧ es.Sublist (entries t)
  range_proper (t : T) {lo hi : K} : LabelledInterval.Apart (entries t) → lo < hi →
    range t lo hi = some ((entries t).filter fun e => decide (e.Meets lo hi))
  mem_insert (t : T) (lo hi : K) (v : V) : (∀ e ∈ entries t, e.lo ≠ lo) →
    ∀ e, e ∈ entries (insert t lo hi v) ↔ e = ⟨lo, hi, v⟩ ∨ e ∈ entries t
  remove_absent (t : T) (k : K) : (∀ e ∈ entries t, e.lo ≠ k) → remove t k = none
  remove_present (t : T) (k : K) : (∃ e ∈ entries t, e.lo = k) →
    ∃ t', remove t k = some t' ∧ entries t' = (entries t).filter fun e => decide (e.lo ≠ k)

namespace IntervalTree

open LabelledInterval

variable {T K V : Type} [LinearOrder K] [IntervalTree T K V]

/-- The value at a point: the partial function that the stored intervals describe. -/
def lookup (t : T) (k : K) :
    Option V := ((entries t).find? fun e => decide (e.Contains k)).map LabelledInterval.val

theorem lookup_eq_none {t : T} {k : K} : lookup t k = none ↔ ∀ e ∈ entries t, ¬ e.Contains k := by
  simp [lookup]

theorem lookup_of_mem {t : T} (h : Apart (entries t)) {e : LabelledInterval K V}
    (he : e ∈ entries t) {k : K} (hk : e.Contains k) : lookup t k = some e.val := by
  unfold lookup
  cases hfind : (entries t).find? fun e => decide (e.Contains k) with
  | none => exact absurd (by simpa using hk) (List.find?_eq_none.mp hfind e he)
  | some a =>
    have hak : a.Contains k := by simpa using List.find?_some hfind
    rw [h.eq_of_contains (List.mem_of_find?_eq_some hfind) he hak hk]
    rfl

theorem lookup_eq_some {t : T} (h : Apart (entries t)) {k : K} {v : V} :
    lookup t k = some v ↔ ∃ e ∈ entries t, e.Contains k ∧ e.val = v := by
  constructor
  · intro hlook
    obtain ⟨e, hfind, rfl⟩ := Option.map_eq_some_iff.mp hlook
    exact ⟨e, List.mem_of_find?_eq_some hfind, by simpa using List.find?_some hfind, rfl⟩
  · rintro ⟨e, he, hk, rfl⟩
    exact lookup_of_mem h he hk

@[simp] theorem lookup_empty (k : K) : lookup (empty : T) k = none := by
  simp [lookup, entries_empty]

/-- The stored intervals that overlap `[lo, hi)`, in order. -/
def meeting (t : T) (lo hi : K) : List (LabelledInterval K V) :=
  (entries t).filter fun e => decide (e.Meets lo hi)

theorem mem_meeting {t : T} {lo hi : K} {e : LabelledInterval K V} :
    e ∈ meeting t lo hi ↔ e ∈ entries t ∧ e.Meets lo hi := by
  simp [meeting]

theorem meeting_sublist (t : T) (lo hi : K) : (meeting t lo hi).Sublist (entries t) :=
  List.filter_sublist

theorem range_eq_meeting {t : T} (h : Apart (entries t)) {lo hi : K} (hlt : lo < hi) :
    range t lo hi = some (meeting t lo hi) :=
  range_proper t h hlt

theorem isSome_lookup_iff {t : T} (h : Apart (entries t)) {lo hi k : K} (hlo : lo ≤ k)
    (hhi : k < hi) :
    (lookup t k).isSome ↔ ∃ e ∈ meeting t lo hi, e.Contains k := by
  rw [Option.isSome_iff_exists]
  constructor
  · rintro ⟨v, hv⟩
    obtain ⟨e, he, hk, -⟩ := (lookup_eq_some h).mp hv
    exact ⟨e, mem_meeting.mpr ⟨he, hk.meets hlo hhi⟩, hk⟩
  · rintro ⟨e, he, hk⟩
    exact ⟨e.val, lookup_of_mem h (mem_meeting.mp he).1 hk⟩

/-! ### Adding intervals -/

theorem ne_lo_of_not_meets {t : T} (h : Apart (entries t)) {lo hi : K} (hlt : lo < hi)
    (hfree : ∀ e ∈ entries t, ¬ e.Meets lo hi) : ∀ e ∈ entries t, e.lo ≠ lo := by
  rintro e he rfl
  exact hfree e he ⟨hlt, h.nonempty e he⟩

theorem insert_apart {t : T} (h : Apart (entries t)) {lo hi : K} (hlt : lo < hi) (v : V)
    (hfree : ∀ e ∈ entries t, ¬ e.Meets lo hi) : Apart (entries (insert t lo hi v)) := by
  have hmem := mem_insert t lo hi v (ne_lo_of_not_meets h hlt hfree)
  refine Apart.of_sorted (sorted _) ?_ ?_
  · intro e he
    rcases (hmem e).mp he with rfl | he
    · exact hlt
    · exact h.nonempty e he
  · intro a ha b hb hne
    rcases (hmem a).mp ha with rfl | ha <;> rcases (hmem b).mp hb with rfl | hb
    · exact absurd rfl hne
    · exact fun hm => hfree b hb ⟨hm.2, hm.1⟩
    · exact hfree a ha
    · exact h.not_meets ha hb hne

/-- An interval that starts behind all stored ones comes last. -/
theorem entries_insert_last {t : T} {lo : K} (hi : K) (v : V) (hlast : ∀ e ∈ entries t, e.lo < lo) :
    entries (insert t lo hi v) = entries t ++ [⟨lo, hi, v⟩] := by
  have hmem := mem_insert t lo hi v fun e he => ne_of_lt (hlast e he)
  have : Std.Irrefl fun a b : LabelledInterval K V => a.lo < b.lo := ⟨fun _ => lt_irrefl _⟩
  have : Std.Antisymm fun a b : LabelledInterval K V => a.lo < b.lo :=
    ⟨fun _ _ hab hba => absurd hba (lt_asymm hab)⟩
  refine List.Pairwise.eq_of_mem_iff (sorted _) ?_ fun e => ?_
  · exact List.pairwise_append.mpr ⟨sorted t, List.pairwise_singleton _ _,
      fun a ha b hb => List.mem_singleton.mp hb ▸ hlast a ha⟩
  · rw [hmem, List.mem_append, List.mem_singleton, or_comm]

theorem lookup_insert {t : T} (h : Apart (entries t)) {lo hi : K} (hlt : lo < hi) (v : V)
    (hfree : ∀ e ∈ entries t, ¬ e.Meets lo hi) (k : K) :
    lookup (insert t lo hi v) k = if lo ≤ k ∧ k < hi then some v else lookup t k := by
  have hmem := mem_insert t lo hi v (ne_lo_of_not_meets h hlt hfree)
  have hnew := insert_apart h hlt v hfree
  split
  · rename_i hk
    exact lookup_of_mem hnew ((hmem _).mpr (.inl rfl)) hk
  · rename_i hk
    cases hold : lookup t k with
    | none =>
      refine lookup_eq_none.mpr fun e he => ?_
      rcases (hmem e).mp he with rfl | he
      · exact hk
      · exact lookup_eq_none.mp hold e he
    | some w =>
      obtain ⟨e, he, hke, rfl⟩ := (lookup_eq_some h).mp hold
      exact lookup_of_mem hnew ((hmem e).mpr (.inr he)) hke

/-- Insert a list of intervals, one after the other. -/
def insertAll (t : T) (es : List (LabelledInterval K V)) :
    T := es.foldl (fun t e => insert t e.lo e.hi e.val) t

theorem insertAll_spec {t : T} (h : Apart (entries t)) {es : List (LabelledInterval K V)}
    (hne : ∀ e ∈ es, e.lo < e.hi) (hsep : es.Pairwise fun a b => ¬ a.Meets b.lo b.hi)
    (hfree : ∀ e ∈ es, ∀ o ∈ entries t, ¬ o.Meets e.lo e.hi) :
    Apart (entries (insertAll t es)) ∧ ∀ e, e ∈ entries (insertAll t es) ↔
      e ∈ es ∨ e ∈ entries t := by
  induction es generalizing t with
  | nil => simpa [insertAll] using h
  | cons a es ih =>
    have hlt := hne a (by simp)
    have hclear := hfree a (by simp)
    have hmem := mem_insert t a.lo a.hi a.val (ne_lo_of_not_meets h hlt hclear)
    obtain ⟨hafter, hsep⟩ := List.pairwise_cons.mp hsep
    obtain ⟨hapart, hunion⟩ :=
      ih (insert_apart h hlt a.val hclear) (fun e he => hne e (by simp [he])) hsep
      fun e he o ho => by
        rcases (hmem o).mp ho with rfl | ho
        · exact hafter e he
        · exact hfree e (by simp [he]) o ho
    refine ⟨hapart, fun e => (hunion e).trans ?_⟩
    rw [hmem e, List.mem_cons]
    tauto

/-! ### Removing intervals -/

/-- Remove the listed intervals by where they start, one after the other. -/
def removeAll (t : T) (es : List (LabelledInterval K V)) : Option T :=
  es.foldlM (fun t e => remove t e.lo) t

theorem removeAll_spec {t : T} (h : Apart (entries t)) {es : List (LabelledInterval K V)}
    (hsub : es.Sublist (entries t)) :
    ∃ t', removeAll t es = some t' ∧ Apart (entries t') ∧ ∀ e, e ∈ entries t' ↔
      e ∈ entries t ∧ e ∉ es := by
  -- the stored list may lose intervals between the listed ones, so only membership carries the
  -- induction
  suffices ∀ (es : List (LabelledInterval K V)) (t : T), Apart (entries t) → es.Nodup →
    (∀ e ∈ es, e ∈ entries t) →
      ∃ t', removeAll t es = some t' ∧ Apart (entries t') ∧ ∀ e, e ∈ entries t' ↔
      e ∈ entries t ∧ e ∉ es by
    refine this es t h (hsub.nodup ?_) fun e he => hsub.subset he
    exact (sorted t).imp fun hlt he => absurd hlt (by simp [he])
  intro es
  induction es with
  | nil => exact fun t h _ _ => ⟨t, rfl, h, by simp⟩
  | cons a es ih =>
    intro t h hnodup hmem
    obtain ⟨hnew, hnodup⟩ := List.nodup_cons.mp hnodup
    have ha := hmem a (by simp)
    obtain ⟨t₁, hremove, hentries⟩ := remove_present t a.lo ⟨a, ha, rfl⟩
    have hfilter : ∀ e, e ∈ entries t₁ ↔ e ∈ entries t ∧ e ≠ a := by
      intro e
      rw [hentries, List.mem_filter, decide_eq_true_eq]
      exact and_congr_right fun he =>
        not_congr ⟨fun hlo => h.eq_of_lo_eq he ha hlo, fun he => he ▸ rfl⟩
    obtain ⟨t', hrest, hapart, hleft⟩ := ih t₁ (h.sublist (hentries ▸ List.filter_sublist)) hnodup
      fun e he => (hfilter e).mpr ⟨hmem e (by simp [he]), fun heq => hnew (heq ▸ he)⟩
    refine ⟨t', ?_, hapart, fun e => (hleft e).trans ?_⟩
    · simpa [removeAll, hremove] using hrest
    · rw [hfilter e, List.mem_cons]
      tauto

/-! ### Taking a range out -/

/-- What a stored interval keeps outside `[lo, hi)`. -/
def outside (lo hi : K) (e : LabelledInterval K V) : List (LabelledInterval K V) :=
  (if e.lo < lo then [⟨e.lo, lo, e.val⟩] else []) ++ if hi < e.hi then [⟨hi, e.hi, e.val⟩] else []

theorem mem_outside {lo hi : K} {e a : LabelledInterval K V} :
    a ∈ outside lo hi e ↔ (e.lo < lo ∧ a = ⟨e.lo, lo, e.val⟩) ∨
      (hi < e.hi ∧ a = ⟨hi, e.hi, e.val⟩) := by
  unfold outside
  split_ifs <;> simp_all

theorem contains_of_mem_outside {lo hi : K} {e a : LabelledInterval K V} (ha : a ∈ outside lo hi e)
    (hm : e.Meets lo hi) {k : K} (hk : a.Contains k) : e.Contains k ∧ ¬ (lo ≤ k ∧ k < hi) := by
  rcases mem_outside.mp ha with ⟨_, rfl⟩ | ⟨_, rfl⟩
  · exact ⟨⟨hk.1, hk.2.trans hm.2⟩, fun h => absurd h.1 (not_le.mpr hk.2)⟩
  · exact ⟨⟨(hm.1.le).trans hk.1, hk.2⟩, fun h => absurd h.2 (not_lt.mpr hk.1)⟩

theorem exists_mem_outside {lo hi : K} {e : LabelledInterval K V} {k : K} (hk : e.Contains k)
    (hout : ¬ (lo ≤ k ∧ k < hi)) :
    ∃ a ∈ outside lo hi e, a.Contains k ∧ a.val = e.val := by
  rcases lt_or_ge k lo with hlo | hlo
  · exact ⟨_, mem_outside.mpr (.inl ⟨hk.1.trans_lt hlo, rfl⟩), ⟨hk.1, hlo⟩, rfl⟩
  · have hhi : hi ≤ k := not_lt.mp fun h => hout ⟨hlo, h⟩
    exact ⟨_, mem_outside.mpr (.inr ⟨hhi.trans_lt hk.2, rfl⟩), ⟨hhi, hk.2⟩, rfl⟩

theorem lt_of_mem_outside {lo hi : K} {e a : LabelledInterval K V} (ha : a ∈ outside lo hi e) :
    a.lo < a.hi := by
  rcases mem_outside.mp ha with ⟨h, rfl⟩ | ⟨h, rfl⟩ <;> exact h

theorem not_meets_of_forall {a b : LabelledInterval K V} (ha : a.lo < a.hi) (hb : b.lo < b.hi)
    (h : ∀ k, a.Contains k → ¬ b.Contains k) : ¬ a.Meets b.lo b.hi := fun hm =>
  h (max a.lo b.lo) ⟨le_max_left _ _, max_lt ha hm.2⟩ ⟨le_max_right _ _, max_lt hm.1 hb⟩

theorem pairwise_outside {es : List (LabelledInterval K V)} (h : Apart es) {lo hi : K}
    (hlt : lo < hi) (hm : ∀ e ∈ es, e.Meets lo hi) :
    (es.flatMap (outside lo hi)).Pairwise fun a b => ¬ a.Meets b.lo b.hi := by
  rw [List.pairwise_flatMap]
  constructor
  · intro e _
    unfold outside
    split_ifs <;> simp [Meets, hlt.le]
  · refine h.ordered.imp_of_mem fun {a b} ha hb hord x hx y hy => ?_
    refine not_meets_of_forall (lt_of_mem_outside hx) (lt_of_mem_outside hy) fun k hkx hky => ?_
    have hka := (contains_of_mem_outside hx (hm a ha) hkx).1
    have hkb := (contains_of_mem_outside hy (hm b hb) hky).1
    exact absurd hord (not_le.mpr (hkb.1.trans_lt hka.2))

theorem takeOut_spec {t : T} (h : Apart (entries t)) {lo hi : K} (hlt : lo < hi) :
    ∃ removed, removeAll t (meeting t lo hi) = some removed ∧
      let t' := insertAll removed ((meeting t lo hi).flatMap (outside lo hi))
      Apart (entries t') ∧
      (∀ e, e ∈ entries t' ↔ (∃ o ∈ entries t, o.Meets lo hi ∧ e ∈ outside lo hi o) ∨
        (e ∈ entries t ∧ ¬ e.Meets lo hi)) ∧
      ∀ k, lookup t' k = if lo ≤ k ∧ k < hi then none else lookup t k := by
  obtain ⟨removed, hremove, hapart, hleft⟩ := removeAll_spec h (meeting_sublist t lo hi)
  have hkept : ∀ e, e ∈ entries removed ↔ e ∈ entries t ∧ ¬ e.Meets lo hi := by
    intro e
    rw [hleft e, mem_meeting]
    tauto
  have hparts : ∀ e, e ∈ (meeting t lo hi).flatMap (outside lo hi) ↔
      ∃ o ∈ entries t, o.Meets lo hi ∧ e ∈ outside lo hi o := by
    simp [mem_meeting, and_assoc]
  obtain ⟨hunited, hunion⟩ := insertAll_spec hapart (fun e he => by
      obtain ⟨o, -, -, ho⟩ := (hparts e).mp he
      exact lt_of_mem_outside ho)
    (pairwise_outside (h.sublist (meeting_sublist t lo hi)) hlt fun e he => (mem_meeting.mp he).2)
    fun e he o ho => by
      obtain ⟨c, hc, hcm, hce⟩ := (hparts e).mp he
      obtain ⟨ho, hom⟩ := (hkept o).mp ho
      refine not_meets_of_forall (h.nonempty o ho) (lt_of_mem_outside hce) fun k hko hke => ?_
      have hkc := (contains_of_mem_outside hce hcm hke).1
      exact hom (h.eq_of_contains ho hc hko hkc ▸ hcm)
  have hmem : ∀ e, e ∈ entries (insertAll removed ((meeting t lo hi).flatMap (outside lo hi))) ↔
      (∃ o ∈ entries t, o.Meets lo hi ∧ e ∈ outside lo hi o) ∨
      (e ∈ entries t ∧ ¬ e.Meets lo hi) := by
    intro e
    rw [hunion e, hparts e, hkept e]
  refine ⟨removed, hremove, hunited, hmem, fun k => ?_⟩
  split
  · rename_i hk
    refine lookup_eq_none.mpr fun e he hke => ?_
    rcases (hmem e).mp he with ⟨o, -, hom, heo⟩ | ⟨-, hem⟩
    · exact (contains_of_mem_outside heo hom hke).2 hk
    · exact hem (hke.meets hk.1 hk.2)
  · rename_i hk
    cases hold : lookup t k with
    | none =>
      refine lookup_eq_none.mpr fun e he hke => ?_
      rcases (hmem e).mp he with ⟨o, ho, hom, heo⟩ | ⟨he, -⟩
      · exact lookup_eq_none.mp hold o ho (contains_of_mem_outside heo hom hke).1
      · exact lookup_eq_none.mp hold e he hke
    | some v =>
      obtain ⟨e, he, hke, rfl⟩ := (lookup_eq_some h).mp hold
      by_cases hem : e.Meets lo hi
      · obtain ⟨a, ha, hka, hval⟩ := exists_mem_outside hke hk
        rw [← hval]
        exact lookup_of_mem hunited ((hmem a).mpr (.inl ⟨e, he, hem, ha⟩)) hka
      · exact lookup_of_mem hunited ((hmem e).mpr (.inr ⟨he, hem⟩)) hke

end IntervalTree

/-! ### The reference implementation -/

/-- Intervals in a list sorted by where they start. -/
structure SortedIntervals (K V : Type) [LinearOrder K] where
  list : List (LabelledInterval K V)
  sorted : list.Pairwise fun a b => a.lo < b.lo

namespace SortedIntervals

variable {K V : Type} [LinearOrder K]

/-- Place an interval before the first one that starts after it, replacing one that starts at the
same key. -/
def place (a : LabelledInterval K V) : List (LabelledInterval K V) → List (LabelledInterval K V)
  | [] => [a]
  | b :: bs =>
    if a.lo < b.lo then a :: b :: bs else if a.lo = b.lo then a :: bs else b :: place a bs

theorem mem_place {a e : LabelledInterval K V} {es : List (LabelledInterval K V)}
    (h : e ∈ place a es) : e = a ∨ e ∈ es := by
  induction es with
  | nil => simpa [place] using h
  | cons b bs ih =>
    unfold place at h
    split_ifs at h
    · simpa using h
    · rcases List.mem_cons.mp h with rfl | h
      · exact .inl rfl
      · exact .inr (by simp [h])
    · rcases List.mem_cons.mp h with rfl | h
      · exact .inr (by simp)
      · exact (ih h).imp_right fun he => by simp [he]

theorem mem_place_iff {a e : LabelledInterval K V} {es : List (LabelledInterval K V)}
    (hnew : ∀ b ∈ es, b.lo ≠ a.lo) :
    e ∈ place a es ↔ e = a ∨ e ∈ es := by
  refine ⟨mem_place, fun h => ?_⟩
  induction es with
  | nil => simpa [place] using h
  | cons b bs ih =>
    have hb := hnew b (by simp)
    unfold place
    split_ifs with hlt heq
    · simpa using h
    · exact absurd heq.symm hb
    · rcases h with rfl | h
      · exact List.mem_cons_of_mem _ (ih (fun c hc => hnew c (by simp [hc])) (.inl rfl))
      · rcases List.mem_cons.mp h with rfl | h
        · simp
        · exact List.mem_cons_of_mem _ (ih (fun c hc => hnew c (by simp [hc])) (.inr h))

theorem sorted_place (a : LabelledInterval K V) {es : List (LabelledInterval K V)}
    (h : es.Pairwise fun a b => a.lo < b.lo) :
    (place a es).Pairwise fun a b => a.lo < b.lo := by
  induction es with
  | nil => simp [place]
  | cons b bs ih =>
    obtain ⟨hfirst, hrest⟩ := List.pairwise_cons.mp h
    unfold place
    split_ifs with hlt heq
    · refine List.pairwise_cons.mpr ⟨fun c hc => ?_, h⟩
      rcases List.mem_cons.mp hc with rfl | hc
      · exact hlt
      · exact hlt.trans (hfirst c hc)
    · exact List.pairwise_cons.mpr ⟨fun c hc => heq ▸ hfirst c hc, hrest⟩
    · refine List.pairwise_cons.mpr ⟨fun c hc => ?_, ih hrest⟩
      rcases mem_place hc with rfl | hc
      · exact lt_of_le_of_ne (not_lt.mp hlt) (Ne.symm heq)
      · exact hfirst c hc

instance : IntervalTree (SortedIntervals K V) K V where
  entries t := t.list
  empty := ⟨[], List.Pairwise.nil⟩
  range t lo hi := if hi < lo then none else some (t.list.filter fun e => decide (e.Meets lo hi))
  insert t lo hi v := ⟨place ⟨lo, hi, v⟩ t.list, sorted_place _ t.sorted⟩
  remove t k :=
    if t.list.any fun e => decide (e.lo = k) then
      some ⟨t.list.filter fun e => decide (e.lo ≠ k), t.sorted.sublist List.filter_sublist⟩
    else none
  sorted t := t.sorted
  entries_empty := rfl
  range_inverted t _ _ h := if_pos h
  range_point t k := ⟨_, if_neg (lt_irrefl k), List.filter_sublist⟩
  range_proper t _ _ _ h := if_neg h.not_gt
  mem_insert t lo hi v h e := mem_place_iff h
  remove_absent t k h := if_neg (by simpa using h)
  remove_present t k h := ⟨_, if_pos (by simpa using h), rfl⟩

end SortedIntervals
