import Ia2.Library.Lists
import Mathlib.Logic.Function.Basic
import Mathlib.Tactic.Common

/-!
# The queue of permission violations

In permissive mode the signal handler pushes each violation onto a ring buffer, and the logging
thread pops them. All calls hold the queue's spinlock, so a run is a list of pushes and pops in some
order. Both indices run from 0 to `QUEUE_SIZE` and are taken back to 0 at the start of the operation
that next uses them.

An index that stands at `QUEUE_SIZE` and one that stands at 0 name the same slot, but the tests for
an empty and for a full queue compare the indices as they are. As long as that does not matter the
queue is a FIFO (`Tracks`); where it does, a drained queue looks full of entries and a full one
looks empty.
-/

namespace Ia2.ViolationQueue

open History

def QUEUE_SIZE : Nat := 8192

structure MpkErr where
  addr : UInt64
  val : UInt64
  pc : UInt64
  sp : UInt64
  fp : UInt64
  pkru : UInt32
  localAddr : UInt64
deriving DecidableEq, Repr

structure Queue where
  push : Nat
  pop : Nat
  data : Nat → MpkErr

/-- The queue as the program starts. -/
def zeroed : Queue := ⟨0, 0, fun _ => ⟨0, 0, 0, 0, 0, 0, 0⟩⟩

def wrap (index : Nat) : Nat := if index = QUEUE_SIZE then 0 else index

def pushQueue (q : Queue) (e : MpkErr) : Option Queue :=
  let push := wrap q.push
  if push + 1 = q.pop then none
    else some { push := push + 1, pop := q.pop, data := Function.update q.data push e }

def popQueue (q : Queue) : Option MpkErr × Queue :=
  let pop := wrap q.pop
  if q.push = pop then (none, { q with pop }) else (some (q.data pop), { q with pop := pop + 1 })

/-- The entries that `flush_queue` logs, for a number of rounds of its loop; `none` if the loop
needs more of them. -/
def flushQueue : Nat → Queue → Option (List MpkErr × Queue)
  | 0, _ => none
  | rounds + 1, q =>
    match popQueue q with
    | (none, q) => some ([], q)
    | (some err, q) => (flushQueue rounds q).map fun (errs, q) => (err :: errs, q)

/-! ### Runs and histories -/

inductive Op where
  | push (e : MpkErr)
  | pop
deriving DecidableEq, Repr

/-- What one operation did. -/
inductive Event where
  | pushed (slot : Nat) (e : MpkErr)
  | full (e : MpkErr)
  | popped (e : MpkErr)
  | empty
deriving DecidableEq, Repr

def Op.exec (q : Queue) : Op → Event × Option Queue
  | push e =>
    match pushQueue q e with
    | none => (.full e, none)
    | some q' => (.pushed (wrap q.push) e, some q')
  | pop =>
    match popQueue q with
    | (none, q) => (.empty, some q)
    | (some e, q) => (.popped e, some q)

def step (s : List Event × Option Queue) (op : Op) : List Event × Option Queue :=
  match s.2 with
  | none => s
  | some q => (s.1 ++ [(op.exec q).1], (op.exec q).2)

def run (ops : List Op) : List Event × Option Queue := ops.foldl step ([], some zeroed)

theorem run_snoc (ops : List Op) (op : Op) : run (ops ++ [op]) = step (run ops) op := by
  rw [run, List.foldl_append]
  rfl

def pushes (history : List Event) : List (Nat × MpkErr) :=
  history.filterMap fun
    | .pushed slot e => some (slot, e)
    | _ => none

def pops (history : List Event) : Nat :=
  history.countP fun
    | .popped _ => true
    | _ => false

/-- The entries that were pushed and not yet popped. -/
def pending (history : List Event) : List (Nat × MpkErr) := (pushes history).drop (pops history)

/-- What a FIFO may do after a history: it pops the first pending entry, finds itself empty only if
no entry is pending, and accepts no entry into the slot of a pending one. -/
def Fits (history : List Event) : Event → Prop
  | .pushed slot _ => slot ∉ (pending history).map Prod.fst
  | .full _ => True
  | .popped e => (pending history).head?.map Prod.snd = some e
  | .empty => pending history = []

def FifoHistory (history : List Event) : Prop := Fitting Fits history

/-- A run is that of a FIFO, and `flush_queue` after it logs the pending entries and ends. -/
structure IsFifo (ops : List Op) : Prop where
  history : FifoHistory (run ops).1
  flush : ∀ q, (run ops).2 = some q → ∃ rounds q',
    flushQueue rounds q = some ((pending (run ops).1).map Prod.snd, q')

/-! ### Indices -/

def indexAfter (n : Nat) : Nat := if n = 0 then 0 else (n - 1) % QUEUE_SIZE + 1

theorem wrap_indexAfter (n : Nat) : wrap (indexAfter n) = n % QUEUE_SIZE := by
  simp only [wrap, indexAfter, QUEUE_SIZE]
  split <;> split <;> omega

theorem wrap_lt {index : Nat} (h : index ≤ QUEUE_SIZE) : wrap index < QUEUE_SIZE := by
  rw [wrap]
  by_cases hsize : index = QUEUE_SIZE
  · rw [if_pos hsize]
    exact Nat.succ_pos _
  · rw [if_neg hsize]
    omega

theorem indexAfter_le (n : Nat) : indexAfter n ≤ QUEUE_SIZE := by
  simp only [indexAfter, QUEUE_SIZE]
  split <;> omega

theorem indexAfter_succ (n : Nat) : indexAfter (n + 1) = n % QUEUE_SIZE + 1 := by
  simp [indexAfter]

variable {n : Nat} {history : List Event} {q : Queue} {s : List Event × Option Queue}
  {ops : List Op}

theorem indexAfter_eq_zero : indexAfter n = 0 ↔ n = 0 := by
  simp only [indexAfter, QUEUE_SIZE]
  split <;> omega

theorem indexAfter_eq_size : indexAfter n = QUEUE_SIZE ↔ 0 < n ∧ n % QUEUE_SIZE = 0 := by
  simp only [indexAfter, QUEUE_SIZE]
  split <;> omega

theorem indexAfter_eq_mod :
    indexAfter n = n % QUEUE_SIZE ↔ n = 0 ∨ n % QUEUE_SIZE ≠ 0 := by
  simp only [indexAfter, QUEUE_SIZE]
  split <;> omega

/-! ### Histories with one more event -/

section Snoc

variable (history : List Event) (slot : Nat) (e : MpkErr)

@[simp] theorem pushes_pushed :
    pushes (history ++ [.pushed slot e]) = pushes history ++ [(slot, e)] := by simp [pushes]

@[simp] theorem pushes_full : pushes (history ++ [.full e]) = pushes history := by simp [pushes]

@[simp] theorem pushes_popped : pushes (history ++ [.popped e]) = pushes history := by simp [pushes]

@[simp] theorem pushes_empty : pushes (history ++ [.empty]) = pushes history := by simp [pushes]

@[simp] theorem pops_pushed : pops (history ++ [.pushed slot e]) = pops history := by simp [pops]

@[simp] theorem pops_full : pops (history ++ [.full e]) = pops history := by simp [pops]

@[simp] theorem pops_popped : pops (history ++ [.popped e]) = pops history + 1 := by simp [pops]

@[simp] theorem pops_empty : pops (history ++ [.empty]) = pops history := by simp [pops]

end Snoc

theorem mem_pending {x : Nat × MpkErr} :
    x ∈ pending history ↔ ∃ j, pops history ≤ j ∧ (pushes history)[j]? = some x := by
  rw [pending, List.mem_iff_getElem?]
  constructor
  · rintro ⟨i, hi⟩
    exact ⟨pops history + i, by omega, by rw [← List.getElem?_drop]; exact hi⟩
  · rintro ⟨j, hj, hx⟩
    refine ⟨j - pops history, ?_⟩
    rw [List.getElem?_drop, Nat.add_sub_cancel' hj]
    exact hx

theorem head_pending (history : List Event) :
    (pending history).head? = (pushes history)[pops history]? := by
  rw [pending, List.head?_drop]

/-! ### One operation -/

structure Tracks (history : List Event) (q : Queue) : Prop where
  le : pops history ≤ (pushes history).length
  room : (pushes history).length ≤ pops history + QUEUE_SIZE
  full : (pushes history).length = pops history + QUEUE_SIZE → pops history = 0
  push : q.push = indexAfter (pushes history).length
  pop : q.pop = indexAfter (pops history)
  entries : ∀ j slot e, (pushes history)[j]? = some (slot, e) →
    slot = j % QUEUE_SIZE ∧ (pops history ≤ j → q.data slot = e)

def Safe (q : Queue) : Op → Prop
  | .push _ => ¬ (q.push = QUEUE_SIZE ∧ q.pop = 0)
  | .pop => ¬ (q.push = QUEUE_SIZE ∧ q.pop = QUEUE_SIZE)

theorem tracks_zeroed : Tracks [] zeroed where
  le := Nat.le_refl _
  room := Nat.zero_le _
  full := fun _ => rfl
  push := rfl
  pop := rfl
  entries := fun _ _ _ h => by simp [pushes] at h

section Step

variable {history : List Event} {q : Queue} {e : MpkErr}

theorem Tracks.exec_push (h : Tracks history q) (hsafe : Safe q (.push e)) :
    Fits history (Op.exec q (.push e)).1 ∧
      ∀ q', (Op.exec q (.push e)).2 = some q' →
        Tracks (history ++ [(Op.exec q (.push e)).1]) q' := by
  obtain ⟨hle, hroom, hfull, hpush, hpop, hentries⟩ := h
  have hwrap : wrap q.push = (pushes history).length % QUEUE_SIZE := by rw [hpush, wrap_indexAfter]
  by_cases hassert : wrap q.push + 1 = q.pop
  · simp [Op.exec, pushQueue, hassert, Fits]
  -- a queue with no room left has never been popped, so its indices are those that the operation
  -- confuses
  have hfree : (pushes history).length < pops history + QUEUE_SIZE := by
    by_contra hnot
    have hcount : (pushes history).length = pops history + QUEUE_SIZE := by omega
    have hnone := hfull hcount
    rw [hnone, Nat.zero_add] at hcount
    refine hsafe ⟨?_, by rw [hpop, hnone]; rfl⟩
    rw [hpush, hcount]
    rfl
  simp only [Op.exec, pushQueue, hassert, if_false, Option.some.injEq, forall_eq']
  rw [hwrap] at hassert ⊢
  rw [hpop] at hassert
  constructor
  · intro hmem
    obtain ⟨⟨slot, e'⟩, hpend, hslot⟩ := List.mem_map.mp hmem
    obtain ⟨j, hj, hget⟩ := mem_pending.mp hpend
    have hlt := (List.getElem?_eq_some_iff.mp hget).1
    have hmod := (hentries j slot e' hget).1
    simp only [QUEUE_SIZE] at *
    omega
  · refine ⟨by simp; omega, by simp; omega, ?_, by simp [indexAfter_succ], by simpa using hpop, ?_⟩
    · simp only [pushes_pushed, pops_pushed, List.length_append, List.length_singleton, indexAfter,
        QUEUE_SIZE] at *
      intro hcount
      by_contra hpos
      rw [if_neg hpos] at hassert
      omega
    · intro j slot e' hget
      simp only [pushes_pushed, pops_pushed] at hget ⊢
      rcases Nat.lt_trichotomy j (pushes history).length with hj | hj | hj
      · rw [List.getElem?_append_left hj] at hget
        obtain ⟨hslot, hdata⟩ := hentries j slot e' hget
        refine ⟨hslot, fun hge => ?_⟩
        rw [Function.update_of_ne]
        · exact hdata hge
        · simp only [QUEUE_SIZE] at *
          omega
      · subst hj
        simp only [List.getElem?_concat_length, Option.some.injEq, Prod.mk.injEq] at hget
        obtain ⟨rfl, rfl⟩ := hget
        exact ⟨rfl, fun _ => Function.update_self _ _ _⟩
      · rw [List.getElem?_eq_none (by simp; omega)] at hget
        simp at hget

theorem Tracks.exec_pop (h : Tracks history q) (hsafe : Safe q .pop) :
    Fits history (Op.exec q .pop).1 ∧ ∀ q', (Op.exec q .pop).2 = some q' →
      Tracks (history ++ [(Op.exec q .pop).1]) q' := by
  obtain ⟨hle, hroom, hfull, hpush, hpop, hentries⟩ := h
  have hwrap : wrap q.pop = pops history % QUEUE_SIZE := by rw [hpop, wrap_indexAfter]
  by_cases hempty : q.push = wrap q.pop
  · have hnone : (pushes history).length = pops history := by
      rw [hpush, hwrap] at hempty
      simp only [indexAfter, QUEUE_SIZE] at *
      split at hempty <;> omega
    simp only [Op.exec, popQueue, hempty, if_true, Fits, Option.some.injEq, forall_eq']
    refine ⟨by rw [pending, hnone.symm, List.drop_length], ?_⟩
    refine ⟨by simpa using hle, by simpa using hroom, by simpa using hfull, by
      simpa [hempty] using hpush, ?_, by simpa using hentries⟩
    rw [pops_empty, ← hempty, hpush, hnone]
  · have hsome : pops history < (pushes history).length := by
      by_contra hnot
      have hnone : (pushes history).length = pops history := by omega
      rw [hpush, hwrap, hnone, indexAfter_eq_mod, not_or, not_not] at hempty
      have hsize := indexAfter_eq_size.mpr ⟨Nat.pos_of_ne_zero hempty.1, hempty.2⟩
      exact hsafe ⟨by rw [hpush, hnone, hsize], by rw [hpop, hsize]⟩
    obtain ⟨⟨slot, e⟩, hget⟩ : ∃ x, (pushes history)[pops history]? = some x :=
      ⟨_, List.getElem?_eq_getElem hsome⟩
    obtain ⟨hslot, hdata⟩ := hentries _ slot e hget
    have hvalue : q.data (wrap q.pop) = e := by rw [hwrap, ← hslot]; exact hdata (Nat.le_refl _)
    simp only [Op.exec, popQueue, hempty, if_false, Fits, hvalue, Option.some.injEq, forall_eq']
    refine ⟨by rw [head_pending, hget]; rfl, ?_⟩
    refine ⟨by simpa [Nat.succ_le_iff] using hsome, by simp; omega, by simp; omega, by
      simpa using hpush, ?_, ?_⟩
    · rw [pops_popped, indexAfter_succ, ← hwrap]
    · intro j slot' e' hj
      simp only [pushes_popped, pops_popped] at hj ⊢
      exact ⟨(hentries j slot' e' hj).1, fun hle' => (hentries j slot' e' hj).2 (by omega)⟩

theorem Tracks.not_fits_push (h : Tracks history q) (hsafe : ¬ Safe q (.push e)) :
    ¬ Fits history (Op.exec q (.push e)).1 := by
  obtain ⟨hsize, hzero⟩ := not_not.mp hsafe
  have hpops : pops history = 0 := indexAfter_eq_zero.mp (h.pop.symm.trans hzero)
  obtain ⟨hpos, hmod⟩ := indexAfter_eq_size.mp (h.push.symm.trans hsize)
  have haccept : (Op.exec q (.push e)).1 = .pushed 0 e := by
    simp [Op.exec, pushQueue, hsize, hzero, wrap]
  obtain ⟨⟨slot, e'⟩, hget⟩ : ∃ x, (pushes history)[0]? = some x :=
    ⟨_, List.getElem?_eq_getElem hpos⟩
  rw [haccept]
  refine not_not.mpr (List.mem_map.mpr ⟨(slot, e'), mem_pending.mpr ⟨0, by omega, hget⟩, ?_⟩)
  exact (h.entries 0 slot e' hget).1

theorem Tracks.not_fits_pop (h : Tracks history q) (hsafe : ¬ Safe q .pop) :
    ¬ Fits history (Op.exec q .pop).1 := by
  obtain ⟨hpush, hpop⟩ := not_not.mp hsafe
  obtain ⟨hpos, hmod⟩ := indexAfter_eq_size.mp (h.push.symm.trans hpush)
  obtain ⟨hpos', hmod'⟩ := indexAfter_eq_size.mp (h.pop.symm.trans hpop)
  have hnone : (pushes history).length = pops history := by
    have hle := h.le
    have hroom := h.room
    have hfull := h.full
    simp only [QUEUE_SIZE] at *
    omega
  have hreplay : (Op.exec q .pop).1 = .popped (q.data 0) := by
    simp [Op.exec, popQueue, hpush, hpop, wrap, QUEUE_SIZE]
  rw [hreplay, Fits, head_pending, ← hnone, List.getElem?_eq_none (Nat.le_refl _)]
  simp

end Step

/-! ### Runs -/

/-- No operation of a run confuses an empty queue with a full one. -/
def SafeRun (ops : List Op) :
    Prop := Fitting (fun before op => ∀ q, (run before).2 = some q → Safe q op) ops

theorem step_some (h : s.2 = some q) (op : Op) :
    step s op = (s.1 ++ [(op.exec q).1], (op.exec q).2) := by
  rw [step, h]

theorem step_none (h : s.2 = none) (op : Op) : step s op = s := by
  rw [step, h]

variable {op : Op}

theorem Tracks.exec (h : Tracks history q) (hsafe : Safe q op) :
    Fits history (op.exec q).1 ∧ ∀ q', (op.exec q).2 = some q' →
      Tracks (history ++ [(op.exec q).1]) q' := by
  cases op with
  | push e => exact h.exec_push hsafe
  | pop => exact h.exec_pop hsafe

theorem Tracks.not_fits (h : Tracks history q) (hsafe : ¬ Safe q op) :
    ¬ Fits history (op.exec q).1 := by
  cases op with
  | push e => exact h.not_fits_push hsafe
  | pop => exact h.not_fits_pop hsafe

theorem SafeRun.fifo (h : SafeRun ops) :
    FifoHistory (run ops).1 ∧ ∀ q, (run ops).2 = some q → Tracks (run ops).1 q := by
  induction ops using List.reverseRecOn with
  | nil =>
    refine ⟨fitting_nil _, fun q hq => ?_⟩
    obtain rfl : zeroed = q := Option.some.inj hq
    exact tracks_zeroed
  | append_singleton ops op ih =>
    obtain ⟨hops, hop⟩ := fitting_snoc.mp h
    obtain ⟨hfifo, htracks⟩ := ih hops
    rw [run_snoc]
    cases hrun : (run ops).2 with
    | none =>
      rw [step_none hrun]
      exact ⟨hfifo, htracks⟩
    | some q =>
      obtain ⟨hfits, hnext⟩ := (htracks q hrun).exec (hop q hrun)
      rw [step_some hrun]
      exact ⟨fitting_snoc.mpr ⟨hfifo, hfits⟩, hnext⟩

theorem safeRun_of_fifo (h : FifoHistory (run ops).1) : SafeRun ops := by
  induction ops using List.reverseRecOn with
  | nil => exact fitting_nil _
  | append_singleton ops op ih =>
    rw [run_snoc] at h
    cases hrun : (run ops).2 with
    | none =>
      rw [step_none hrun] at h
      exact fitting_snoc.mpr ⟨ih h, fun q hq => by simp [hrun] at hq⟩
    | some q =>
      rw [step_some hrun] at h
      obtain ⟨hfifo, hfits⟩ := fitting_snoc.mp h
      refine fitting_snoc.mpr ⟨ih hfifo, fun q' hq' => ?_⟩
      obtain rfl : q = q' := Option.some.inj (hrun.symm.trans hq')
      by_contra hsafe
      exact ((ih hfifo).fifo.2 q hrun).not_fits hsafe hfits

/-! ### Flushing -/

theorem flushQueue_diverges (rounds : Nat) (hpush : q.push = QUEUE_SIZE)
    (hpop : q.pop ≤ QUEUE_SIZE) :
    flushQueue rounds q = none := by
  induction rounds generalizing q with
  | zero => rfl
  | succ rounds ih =>
    have hlt : wrap q.pop < QUEUE_SIZE := wrap_lt hpop
    have hpopped : popQueue q = (some (q.data (wrap q.pop)), { q with pop := wrap q.pop + 1 }) := by
      rw [popQueue, if_neg (by rw [hpush]; exact Nat.ne_of_gt hlt)]
    rw [flushQueue, hpopped]
    simp only [ih (q := { q with pop := wrap q.pop + 1 }) hpush hlt, Option.map_none]

theorem Tracks.flush (h : Tracks history q) (hpush : q.push ≠ QUEUE_SIZE) :
    ∃ rounds q', flushQueue rounds q = some ((pending history).map Prod.snd, q') := by
  generalize hcount : (pending history).length = n
  induction n generalizing history q with
  | zero =>
    obtain ⟨hfits, -⟩ := h.exec_pop (fun hboth => hpush hboth.1)
    have hnone : pending history = [] := List.eq_nil_of_length_eq_zero hcount
    refine ⟨1, (popQueue q).2, ?_⟩
    rw [flushQueue]
    simp only [Op.exec] at hfits
    rcases hpopped : popQueue q with ⟨_ | e, q'⟩
    · simp [hnone]
    · rw [hpopped] at hfits
      simp [Fits, hnone] at hfits
  | succ n ih =>
    obtain ⟨hfits, hnext⟩ := h.exec_pop (fun hboth => hpush hboth.1)
    obtain ⟨x, rest, hpending⟩ := List.exists_cons_of_length_eq_add_one hcount
    rcases hpopped : popQueue q with ⟨_ | e, q'⟩
    · simp [Op.exec, hpopped, Fits, hpending] at hfits
    · simp only [Op.exec, hpopped, Fits, hpending, List.head?_cons, Option.map_some,
        Option.some.injEq] at hfits hnext
      have hrest : pending (history ++ [.popped e]) = rest := by
        have htail := congrArg List.tail hpending
        rw [List.tail_cons, pending, List.tail_drop] at htail
        rw [pending, pushes_popped, pops_popped, htail]
      have hpush' : q'.push = q.push := by
        have := congrArg (fun p => p.2.push) hpopped
        simp only [popQueue] at this
        split at this <;> exact this.symm
      obtain ⟨rounds, q'', hflush⟩ :=
        ih (hnext q' rfl) (by rwa [hpush']) (by rw [hrest]; simpa [hpending] using hcount)
      refine ⟨rounds + 1, q'', ?_⟩
      rw [flushQueue, hpopped]
      simp [hflush, hrest, hpending, hfits]

/-- A run is that of a FIFO exactly if none of its pops finds both indices at `QUEUE_SIZE`, none of
its pushes finds the push index there and the pop index at 0, and it does not end with the push
index there. -/
theorem isFifo_iff (ops : List Op) :
    IsFifo ops ↔ SafeRun ops ∧ ∀ q, (run ops).2 = some q → q.push ≠ QUEUE_SIZE := by
  constructor
  · rintro ⟨hhistory, hflush⟩
    have hsafe := safeRun_of_fifo hhistory
    refine ⟨hsafe, fun q hq hpush => ?_⟩
    have htracks := hsafe.fifo.2 q hq
    obtain ⟨rounds, q', hends⟩ := hflush q hq
    rw [flushQueue_diverges rounds hpush (htracks.pop ▸ indexAfter_le _)] at hends
    simp at hends
  · rintro ⟨hsafe, hend⟩
    obtain ⟨hfifo, htracks⟩ := hsafe.fifo
    exact ⟨hfifo, fun q hq => (htracks q hq).flush (hend q hq)⟩

/-! ### A queue that is filled once -/

theorem run_replicate_push (e : MpkErr) (hn : n ≤ QUEUE_SIZE) :
    ∃ q, (run (List.replicate n (.push e))).2 = some q ∧ q.push = n ∧ q.pop = 0 := by
  induction n with
  | zero => exact ⟨zeroed, rfl, rfl, rfl⟩
  | succ n ih =>
    obtain ⟨q, hrun, hpush, hpop⟩ := ih (Nat.le_of_succ_le hn)
    have hwrap : wrap q.push = n := by rw [hpush, wrap, if_neg (Nat.ne_of_lt hn)]
    rw [List.replicate_succ', run_snoc, step_some hrun]
    simp [Op.exec, pushQueue, hwrap, hpop]

/-- After as many violations as the queue has room for, the logging thread never ends its first
flush. -/
theorem filled_queue_not_fifo :
    ¬ IsFifo (List.replicate QUEUE_SIZE (.push ⟨0, 0, 0, 0, 0, 0, 0⟩)) := by
  intro h
  obtain ⟨q, hrun, hpush, hpop⟩ := run_replicate_push ⟨0, 0, 0, 0, 0, 0, 0⟩ (Nat.le_refl QUEUE_SIZE)
  obtain ⟨rounds, q', hends⟩ := h.flush q hrun
  simp [flushQueue_diverges rounds hpush (by rw [hpop]; exact Nat.zero_le _)] at hends

end Ia2.ViolationQueue
