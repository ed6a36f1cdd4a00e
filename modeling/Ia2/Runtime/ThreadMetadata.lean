import Mathlib.Data.Finset.Card
import Mathlib.Data.List.Dedup
import Mathlib.Logic.Function.Basic
import Mathlib.Tactic.Common

/-!
# The table of thread metadata

In debug builds every thread has a slot in a table of `MAX_THREADS` entries, which it finds by its
tid and takes on its first call. A call holds the table's lock from its first test to its return, so
a run is a list of calls in some order.

The test for a full table stands before the search. As long as the table has a free slot a call
finds its thread's slot or takes a new one; with the last slot taken every further call aborts, also
one by a thread that has its slot.
-/

namespace Ia2.ThreadTable

def MAX_THREADS : Nat := 512

structure ThreadMetadata where
  tid : Int32
  thread : UInt64
deriving DecidableEq, Repr

/-- `struct ia2_all_threads_metadata` without its lock. -/
structure AllThreadsMetadata where
  numThreads : Nat
  stored : numThreads ≤ MAX_THREADS
  tids : Fin MAX_THREADS → Int32
  threadMetadata : Fin MAX_THREADS → ThreadMetadata

/-- What `gettid` and `pthread_self` return to the calling thread. -/
structure Call where
  tid : Int32
  self : UInt64
deriving DecidableEq, Repr

namespace AllThreadsMetadata

/-- The table as the program starts. -/
def zeroed : AllThreadsMetadata := ⟨0, Nat.zero_le _, fun _ => 0, fun _ => ⟨0, 0⟩⟩

def search (this : AllThreadsMetadata) (tid : Int32) (i : Nat) : Option (Fin MAX_THREADS) :=
  if h : i < this.numThreads then
    if this.tids ⟨i, h.trans_le this.stored⟩ = tid then some ⟨i, h.trans_le this.stored⟩
      else search this tid (i + 1)
  else none
termination_by this.numThreads - i

/-- The next slot, taken by the calling thread. -/
def add (this : AllThreadsMetadata) (call : Call) (hroom : this.numThreads < MAX_THREADS) :
    AllThreadsMetadata where
  numThreads := this.numThreads + 1
  stored := hroom
  tids := Function.update this.tids ⟨this.numThreads, hroom⟩ call.tid
  threadMetadata := Function.update this.threadMetadata ⟨this.numThreads, hroom⟩
    ⟨call.tid, call.self⟩

def getForCurrentThread (this : AllThreadsMetadata) (call : Call) :
    Option (AllThreadsMetadata × Fin MAX_THREADS) :=
  if hroom : this.numThreads < MAX_THREADS then
    match this.search call.tid 0 with
    | some slot => some (this, slot)
    | none => some (this.add call hroom, ⟨this.numThreads, hroom⟩)
  else none

/-- A run of calls, each with the slot that it returned; `none` if one of them aborts. -/
def callAll :
    AllThreadsMetadata → List Call → Option (AllThreadsMetadata × List (Call × Fin MAX_THREADS))
  | this, [] => some (this, [])
  | this, call :: calls => do
    let (this, slot) ← this.getForCurrentThread call
    let (this, answers) ← this.callAll calls
    return (this, (call, slot) :: answers)

/-! ### One call -/

variable {this later : AllThreadsMetadata} {call : Call} {slot : Fin MAX_THREADS}
variable {i : Nat} {tid : Int32}

theorem search_some (h : this.search tid i = some slot) :
    slot.val < this.numThreads ∧ this.tids slot = tid := by
  fun_induction search this tid i with
  | case1 i hi heq =>
    obtain rfl := Option.some.inj h
    exact ⟨hi, heq⟩
  | case2 i hi hne ih => exact ih h
  | case3 i hi => cases h

theorem search_none (h : this.search tid i = none) (hi : i ≤ slot.val)
    (hslot : slot.val < this.numThreads) : this.tids slot ≠ tid := by
  fun_induction search this tid i with
  | case1 i hlt heq => cases h
  | case2 i hlt hne ih =>
    by_cases heq : i = slot.val
    · subst heq
      exact hne
    · exact ih h (by omega)
  | case3 i hge => omega

theorem getForCurrentThread_cases (h : this.getForCurrentThread call = some (later, slot)) :
    (later = this ∧ slot.val < this.numThreads ∧ this.tids slot = call.tid) ∨
      ∃ hroom : this.numThreads < MAX_THREADS,
        (∀ other : Fin MAX_THREADS, other.val < this.numThreads → this.tids other ≠ call.tid) ∧
        later = this.add call hroom ∧ slot = ⟨this.numThreads, hroom⟩ := by
  unfold getForCurrentThread at h
  split at h
  · rename_i hroom
    split at h
    · rename_i found hfound
      obtain ⟨rfl, rfl⟩ := Prod.mk.inj (Option.some.inj h)
      exact .inl ⟨rfl, search_some hfound⟩
    · rename_i hnone
      obtain ⟨rfl, rfl⟩ := Prod.mk.inj (Option.some.inj h)
      exact .inr ⟨hroom, fun other hother => search_none hnone (Nat.zero_le _) hother, rfl, rfl⟩
  · cases h

theorem getForCurrentThread_isSome (call : Call) :
    (this.getForCurrentThread call).isSome ↔ this.numThreads < MAX_THREADS := by
  unfold getForCurrentThread
  split
  · rename_i hroom
    cases this.search call.tid 0 <;> simp [hroom]
  · rename_i hfull
    simp [hfull]

theorem add_tids_new (hroom : this.numThreads < MAX_THREADS) :
    (this.add call hroom).tids ⟨this.numThreads, hroom⟩ = call.tid := Function.update_self ..

theorem add_threadMetadata_new (hroom : this.numThreads < MAX_THREADS) :
    (this.add call hroom).threadMetadata ⟨this.numThreads, hroom⟩ = ⟨call.tid, call.self⟩ :=
  Function.update_self ..

theorem add_of_lt (hroom : this.numThreads < MAX_THREADS) (hslot : slot.val < this.numThreads) :
    (this.add call hroom).tids slot = this.tids slot ∧ (this.add call hroom).threadMetadata slot =
      this.threadMetadata slot := by
  have hne : slot ≠ ⟨this.numThreads, hroom⟩ := Fin.ne_of_lt hslot
  exact ⟨Function.update_of_ne hne .., Function.update_of_ne hne ..⟩

theorem callAll_cons (calls : List Call) :
    this.callAll (call :: calls) = (this.getForCurrentThread call).bind fun next =>
      (next.1.callAll calls).map fun rest => (rest.1, (call, next.2) :: rest.2) := by
  rw [callAll]
  cases this.getForCurrentThread call with
  | none => rfl
  | some next => cases h : next.1.callAll calls <;> simp [h]

end AllThreadsMetadata

/-! ### Runs -/

/-- How many threads the calls come from. -/
def distinct (calls : List Call) : Nat := (calls.map Call.tid).toFinset.card

variable {calls : List Call}

theorem distinct_mono {before : List Call} (h : before <+: calls) :
    distinct before ≤ distinct calls := by
  apply Finset.card_le_card
  intro tid htid
  rw [List.mem_toFinset] at htid ⊢
  exact (h.map Call.tid).subset htid

variable {call : Call}

theorem distinct_snoc_of_mem (h : call.tid ∈ calls.map Call.tid) :
    distinct (calls ++ [call]) = distinct calls := by
  have heq : ((calls ++ [call]).map Call.tid).toFinset = (calls.map Call.tid).toFinset := by
    ext tid
    simp only [List.mem_toFinset, List.map_append, List.map_cons, List.map_nil, List.mem_append,
      List.mem_singleton]
    constructor
    · rintro (hmem | rfl)
      · exact hmem
      · exact h
    · exact .inl
  rw [distinct, heq, distinct]

theorem distinct_snoc_of_notMem (h : call.tid ∉ calls.map Call.tid) :
    distinct (calls ++ [call]) = distinct calls + 1 := by
  have heq : ((calls ++ [call]).map Call.tid).toFinset =
      insert call.tid (calls.map Call.tid).toFinset := by
    ext tid
    simp
  rw [distinct, heq, Finset.card_insert_of_notMem (mt List.mem_toFinset.mp h), distinct]

structure Registered (answers : List (Call × Fin MAX_THREADS))
    (this : AllThreadsMetadata) : Prop where
  numThreads : this.numThreads = distinct (answers.map Prod.fst)
  answered : ∀ answer ∈ answers, answer.2.val < this.numThreads ∧ this.tids answer.2 = answer.1.tid
  used : ∀ slot : Fin MAX_THREADS, slot.val < this.numThreads → ∃ answer ∈ answers, answer.2 = slot
  injective : ∀ slot other : Fin MAX_THREADS, slot.val < this.numThreads →
    other.val < this.numThreads → this.tids slot = this.tids other → slot = other
  recorded : ∀ slot : Fin MAX_THREADS, slot.val < this.numThreads →
    (this.threadMetadata slot).tid = this.tids slot

namespace Registered

open AllThreadsMetadata

variable {this later : AllThreadsMetadata} {call : Call} {calls : List Call}
  {slot : Fin MAX_THREADS}
  {answers past : List (Call × Fin MAX_THREADS)}

theorem zeroed : Registered [] zeroed where
  numThreads := rfl
  answered := by simp
  used slot h := absurd h (Nat.not_lt_zero _)
  injective slot other h := absurd h (Nat.not_lt_zero _)
  recorded slot h := absurd h (Nat.not_lt_zero _)

theorem slot_eq_iff (h : Registered answers this) {a b : Call × Fin MAX_THREADS} (ha : a ∈ answers)
    (hb : b ∈ answers) :
    a.2 = b.2 ↔ a.1.tid = b.1.tid := by
  obtain ⟨hausd, hatid⟩ := h.answered a ha
  obtain ⟨hbused, hbtid⟩ := h.answered b hb
  constructor
  · intro heq
    rw [← hatid, ← hbtid, heq]
  · intro heq
    apply h.injective _ _ hausd hbused
    rw [hatid, hbtid, heq]

theorem mem_tids_iff (h : Registered answers this) {tid : Int32} :
    tid ∈ (answers.map Prod.fst).map Call.tid ↔ ∃ slot : Fin MAX_THREADS,
      slot.val < this.numThreads ∧ this.tids slot = tid := by
  simp only [List.map_map, List.mem_map, Function.comp_apply]
  constructor
  · rintro ⟨answer, hmem, rfl⟩
    exact ⟨answer.2, h.answered answer hmem⟩
  · rintro ⟨slot, hslot, rfl⟩
    obtain ⟨answer, hmem, rfl⟩ := h.used slot hslot
    exact ⟨answer, hmem, (h.answered answer hmem).2.symm⟩

theorem again (h : Registered past this) (hslot : slot.val < this.numThreads)
    (htid : this.tids slot = call.tid) :
    Registered (past ++ [(call, slot)]) this where
  numThreads := by
    have hmem := h.mem_tids_iff.mpr ⟨slot, hslot, htid⟩
    rw [List.map_append, List.map_cons, List.map_nil, distinct_snoc_of_mem hmem, h.numThreads]
  answered answer hanswer := by
    rcases List.mem_append.mp hanswer with hpast | hnew
    · exact h.answered answer hpast
    · obtain rfl := List.mem_singleton.mp hnew
      exact ⟨hslot, htid⟩
  used other hother := by
    obtain ⟨answer, hmem, heq⟩ := h.used other hother
    exact ⟨answer, List.mem_append_left _ hmem, heq⟩
  injective := h.injective
  recorded := h.recorded

theorem lt_or_eq_of_lt_succ {n : Nat} (hroom : n < MAX_THREADS) (h : slot.val < n + 1) :
    slot.val < n ∨ slot = ⟨n, hroom⟩ := by
  rcases Nat.lt_succ_iff_lt_or_eq.mp h with hlt | heq
  · exact .inl hlt
  · exact .inr (Fin.ext heq)

theorem add (h : Registered past this) (hroom : this.numThreads < MAX_THREADS)
    (hnew : ∀ other : Fin MAX_THREADS, other.val < this.numThreads → this.tids other ≠ call.tid) :
    Registered (past ++ [(call, ⟨this.numThreads, hroom⟩)]) (this.add call hroom) where
  numThreads := by
    have hmem : call.tid ∉ (past.map Prod.fst).map Call.tid := by
      intro hmem
      obtain ⟨other, hother, htid⟩ := h.mem_tids_iff.mp hmem
      exact hnew other hother htid
    rw [List.map_append, List.map_cons, List.map_nil, distinct_snoc_of_notMem hmem, ← h.numThreads]
    rfl
  answered answer hanswer := by
    rcases List.mem_append.mp hanswer with hpast | hlast
    · obtain ⟨hused, htid⟩ := h.answered answer hpast
      exact ⟨Nat.lt_succ_of_lt hused, (add_of_lt hroom hused).1.trans htid⟩
    · obtain rfl := List.mem_singleton.mp hlast
      exact ⟨Nat.lt_succ_self _, add_tids_new hroom⟩
  used slot hslot := by
    rcases lt_or_eq_of_lt_succ hroom hslot with hlt | rfl
    · obtain ⟨answer, hmem, heq⟩ := h.used slot hlt
      exact ⟨answer, List.mem_append_left _ hmem, heq⟩
    · exact ⟨_, List.mem_append_right _ (List.mem_singleton_self _), rfl⟩
  injective slot other hslot hother htid := by
    rcases lt_or_eq_of_lt_succ hroom hslot with hlt | rfl <;>
      rcases lt_or_eq_of_lt_succ hroom hother with hlt' | rfl
    · rw [(add_of_lt hroom hlt).1, (add_of_lt hroom hlt').1] at htid
      exact h.injective slot other hlt hlt' htid
    · rw [(add_of_lt hroom hlt).1, add_tids_new] at htid
      exact absurd htid (hnew slot hlt)
    · rw [add_tids_new, (add_of_lt hroom hlt').1] at htid
      exact absurd htid.symm (hnew other hlt')
    · rfl
  recorded slot hslot := by
    rcases lt_or_eq_of_lt_succ hroom hslot with hlt | rfl
    · rw [(add_of_lt hroom hlt).1, (add_of_lt hroom hlt).2, h.recorded slot hlt]
    · rw [add_tids_new, add_threadMetadata_new]

theorem step (h : Registered past this)
    (hcall : this.getForCurrentThread call = some (later, slot)) :
    Registered (past ++ [(call, slot)]) later := by
  rcases getForCurrentThread_cases hcall with ⟨rfl, hslot, htid⟩ | ⟨hroom, hnew, rfl, rfl⟩
  · exact h.again hslot htid
  · exact h.add hroom hnew

theorem callAll (h : Registered past this) (hrun : this.callAll calls = some (later, answers)) :
    answers.map Prod.fst = calls ∧ Registered (past ++ answers) later := by
  induction calls generalizing this past answers with
  | nil =>
    obtain ⟨rfl, rfl⟩ := Prod.mk.inj (Option.some.inj hrun)
    rw [List.append_nil]
    exact ⟨rfl, h⟩
  | cons call calls ih =>
    rw [callAll_cons, Option.bind_eq_some_iff] at hrun
    obtain ⟨⟨mid, slot⟩, hcall, hmap⟩ := hrun
    obtain ⟨⟨last, rest⟩, hrest, heq⟩ := Option.map_eq_some_iff.mp hmap
    obtain ⟨rfl, rfl⟩ := Prod.mk.inj heq
    obtain ⟨hcalls, hlast⟩ := ih (h.step hcall) hrest
    rw [List.append_assoc, List.singleton_append] at hlast
    rw [List.map_cons, hcalls]
    exact ⟨rfl, hlast⟩

theorem callAll_isSome (h : Registered past this) :
    (this.callAll calls).isSome ↔ calls = [] ∨ distinct (past.map Prod.fst ++ calls.dropLast) <
      MAX_THREADS := by
  induction calls generalizing this past with
  | nil => simp [AllThreadsMetadata.callAll]
  | cons call calls ih =>
    rw [callAll_cons]
    by_cases hroom : this.numThreads < MAX_THREADS
    · obtain ⟨⟨mid, slot⟩, hcall⟩ :=
        Option.isSome_iff_exists.mp ((getForCurrentThread_isSome call).mpr hroom)
      rw [hcall, Option.bind_some, Option.isSome_map, ih (h.step hcall), List.map_append,
        List.append_assoc]
      cases calls with
      | nil => simpa [← h.numThreads] using hroom
      | cons next calls => simp
    · have hcall : this.getForCurrentThread call = none := by
        rw [← Option.not_isSome_iff_eq_none, getForCurrentThread_isSome]
        exact hroom
      have hmono := distinct_mono (List.prefix_append (past.map Prod.fst) (call :: calls).dropLast)
      rw [← h.numThreads] at hmono
      rw [hcall]
      simp only [Option.bind_none, Option.isSome_none, Bool.false_eq_true, reduceCtorEq, false_or,
        false_iff, not_lt]
      exact (not_lt.mp hroom).trans hmono

end Registered

/-- What the lookup promises of a run of calls from the program's start: no call aborts, one thread
always gets one slot and two threads get two, and the slots in use are those of the threads that
called, with their tids in both places. -/
def Promised (calls : List Call) : Prop :=
  ∃ this answers, AllThreadsMetadata.zeroed.callAll calls = some (this, answers) ∧
    answers.map Prod.fst = calls ∧
    (∀ a ∈ answers, ∀ b ∈ answers, a.2 = b.2 ↔ a.1.tid = b.1.tid) ∧
    this.numThreads = distinct calls ∧
    ∀ slot : Fin MAX_THREADS, slot.val < this.numThreads →
      ∃ answer ∈ answers, answer.2 = slot ∧ this.tids slot = answer.1.tid ∧
      (this.threadMetadata slot).tid = answer.1.tid

theorem callAll_zeroed_isSome (calls : List Call) :
    (AllThreadsMetadata.zeroed.callAll calls).isSome ↔ distinct calls.dropLast < MAX_THREADS := by
  rw [Registered.zeroed.callAll_isSome, List.map_nil, List.nil_append, or_iff_right_of_imp]
  rintro rfl
  decide

theorem promised_iff_isSome (calls : List Call) :
    Promised calls ↔ (AllThreadsMetadata.zeroed.callAll calls).isSome := by
  constructor
  · rintro ⟨this, answers, hrun, -⟩
    rw [hrun]
    rfl
  · intro h
    obtain ⟨⟨this, answers⟩, hrun⟩ := Option.isSome_iff_exists.mp h
    obtain ⟨hcalls, hreg⟩ := Registered.zeroed.callAll hrun
    rw [List.nil_append] at hreg
    refine ⟨this, answers, hrun, hcalls, fun a ha b hb => hreg.slot_eq_iff ha hb, ?_, ?_⟩
    · rw [hreg.numThreads, hcalls]
    · intro slot hslot
      obtain ⟨answer, hmem, rfl⟩ := hreg.used slot hslot
      have htid := (hreg.answered answer hmem).2
      exact ⟨answer, hmem, rfl, htid, (hreg.recorded _ hslot).trans htid⟩

/-- The promise holds after every call of a run exactly if the table is not full before the last
one. -/
theorem getForCurrentThread_promised_iff (calls : List Call) :
    (∀ before, before <+: calls → Promised before) ↔ distinct calls.dropLast < MAX_THREADS := by
  constructor
  · intro h
    exact (callAll_zeroed_isSome calls).mp
      ((promised_iff_isSome calls).mp (h calls (List.prefix_refl _)))
  · rintro h before ⟨after, rfl⟩
    rw [promised_iff_isSome, callAll_zeroed_isSome]
    apply lt_of_le_of_lt _ h
    apply distinct_mono
    by_cases hafter : after = []
    · rw [hafter, List.append_nil]
    · rw [List.dropLast_append_of_ne_nil hafter]
      exact (List.dropLast_prefix before).trans (List.prefix_append before _)

/-- One call by each of as many threads as the table has slots. -/
def everyThread :
    List Call := (List.range MAX_THREADS).map fun i => ⟨Int32.ofNat (i + 1), UInt64.ofNat i⟩

theorem length_everyThread :
    everyThread.length = MAX_THREADS := by rw [everyThread, List.length_map, List.length_range]

theorem distinct_everyThread : distinct everyThread = MAX_THREADS := by
  have hnodup : (everyThread.map Call.tid).Nodup := by
    rw [everyThread, List.map_map]
    apply List.Nodup.map_on _ List.nodup_range
    intro i hi j hj heq
    have hbits := congrArg (fun n : Int32 => n.toBitVec.toNat) heq
    simp only [Function.comp_apply, Int32.toBitVec_ofNat', BitVec.toNat_ofNat] at hbits
    rw [List.mem_range, MAX_THREADS] at hi hj
    omega
  rw [distinct, List.toFinset_card_of_nodup hnodup, List.length_map, length_everyThread]

theorem first_mem_everyThread : (⟨1, 0⟩ : Call) ∈ everyThread :=
  List.mem_map.mpr ⟨0, List.mem_range.mpr (by decide), rfl⟩

theorem getForCurrentThread_aborts_known :
    distinct (everyThread ++ [⟨1, 0⟩]) = MAX_THREADS ∧ Promised everyThread ∧
      AllThreadsMetadata.zeroed.callAll (everyThread ++ [⟨1, 0⟩]) = none ∧
        ¬ Promised (everyThread ++ [⟨1, 0⟩]) := by
  have hmem : (1 : Int32) ∈ everyThread.map Call.tid :=
    List.mem_map.mpr ⟨_, first_mem_everyThread, rfl⟩
  have hfull : ¬ (AllThreadsMetadata.zeroed.callAll (everyThread ++ [⟨1, 0⟩])).isSome := by
    rw [callAll_zeroed_isSome, List.dropLast_concat, distinct_everyThread]
    exact Nat.lt_irrefl _
  refine ⟨?_, ?_, Option.not_isSome_iff_eq_none.mp hfull, mt (promised_iff_isSome _).mp hfull⟩
  · rw [distinct_snoc_of_mem hmem, distinct_everyThread]
  · rw [promised_iff_isSome, callAll_zeroed_isSome]
    apply (List.toFinset_card_le _).trans_lt
    rw [List.length_map, List.length_dropLast, length_everyThread]
    decide

end Ia2.ThreadTable
