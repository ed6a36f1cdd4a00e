import Ia2.Library.Runs
import Ia2.Library.Lists
import Mathlib.Data.List.Nodup
import Mathlib.Logic.Function.Basic

/-!
# The table of traced processes

The tracer has one memory map for each process and looks it up by the id of the thread that it was
woken for. The table is an array of entries, each with the ids of its threads in another array; both
shrink by swapping in the last element. Threads are cloned and exit and processes are forked in any
order, as long as the ids of parents and exiting threads are known and those of children are not.

`Processes` says which process each live thread belongs to. The table is a partition of the live
threads into processes (`Represents`), up to the order of entries and of ids, which swapping
changes.
-/

namespace Ia2.Tracer

abbrev Pid := Int

variable {M : Type}

/-- `struct memory_map_for_process`; `n_pids` is the length of the list. -/
structure MemoryMapForProcess (M : Type) where
  map : M
  pids : List Pid
deriving DecidableEq, Repr

inductive ControlFlow where
  | continue_ | returnFalse | returnTrue
deriving DecidableEq, Repr

/-- The index of the first entry that has the id. -/
def findMemoryMap (maps : List (MemoryMapForProcess M)) (pid : Pid) : Option Nat :=
  maps.findIdx? fun mapForProc => mapForProc.pids.any fun p => p == pid

def addPid (mapForProc : MemoryMapForProcess M) (pid : Pid) : MemoryMapForProcess M :=
  { mapForProc with pids := mapForProc.pids ++ [pid] }

def removePid (mapForProc : MemoryMapForProcess M) (pid : Pid) : Option (MemoryMapForProcess M) :=
  (mapForProc.pids.findIdx? fun p => p == pid).map fun j =>
    { mapForProc with pids := mapForProc.pids.swapRemove j }

def addMap (maps : List (MemoryMapForProcess M)) (map : MemoryMapForProcess M) :
    List (MemoryMapForProcess M) := maps ++ [map]

def removeMap (maps : List (MemoryMapForProcess M)) (i : Nat) : List (MemoryMapForProcess M) :=
  if i < maps.length then maps.swapRemove i else maps

def forProcessNew (map : M) (pid : Pid) : MemoryMapForProcess M := ⟨map, [pid]⟩

def handleThreadExit (maps : List (MemoryMapForProcess M)) (waitedPid : Pid) :
    ControlFlow × List (MemoryMapForProcess M) :=
  match findMemoryMap maps waitedPid with
  | none => (.returnFalse, maps)
  | some i =>
    match maps[i]?.bind fun mapForProc => removePid mapForProc waitedPid with
    | none => (.returnFalse, maps)
    | some mapForProc =>
      let maps := maps.set i mapForProc
      let maps := if mapForProc.pids.length = 0 then removeMap maps i else maps
      if maps.length = 0 then (.returnTrue, maps) else (.continue_, maps)

inductive LifetimeEvent where
  | clone (parent child : Pid)
  | fork (parent child : Pid)
  | exit (pid : Pid)
deriving DecidableEq, Repr

def handleLifetime (maps : List (MemoryMapForProcess M)) :
    LifetimeEvent → ControlFlow × List (MemoryMapForProcess M)
  | .clone parent child =>
    match findMemoryMap maps parent with
    | none => (.returnFalse, maps)
    | some i => (.continue_, maps.modify i fun mapForProc => addPid mapForProc child)
  | .fork parent child =>
    match (findMemoryMap maps parent).bind fun i => maps[i]? with
    | none => (.returnFalse, maps)
    | some mapForProc => (.continue_, addMap maps (forProcessNew mapForProc.map child))
  | .exit pid => handleThreadExit maps pid

/-! ### Processes -/

structure Processes where
  process : Pid → Option Nat
  next : Nat

namespace Processes

def Live (procs : Processes) (pid : Pid) : Prop := procs.process pid ≠ none

def first (pid : Pid) : Processes := ⟨fun p => if p = pid then some 0 else none, 1⟩

def apply (procs : Processes) : LifetimeEvent → Processes
  | .clone parent child =>
    { procs with process := Function.update procs.process child (procs.process parent) }
  | .fork _ child => ⟨Function.update procs.process child (some procs.next), procs.next + 1⟩
  | .exit pid => { procs with process := Function.update procs.process pid none }

def Enabled (procs : Processes) : LifetimeEvent → Prop
  | .clone parent child => procs.Live parent ∧ ¬ procs.Live child
  | .fork parent child => procs.Live parent ∧ ¬ procs.Live child
  | .exit pid => procs.Live pid

instance (procs : Processes) (pid : Pid) : Decidable (procs.Live pid) :=
  inferInstanceAs (Decidable (procs.process pid ≠ none))

instance (procs : Processes) (event : LifetimeEvent) : Decidable (procs.Enabled event) :=
  match event with
  | .clone parent child => inferInstanceAs (Decidable (procs.Live parent ∧ ¬ procs.Live child))
  | .fork parent child => inferInstanceAs (Decidable (procs.Live parent ∧ ¬ procs.Live child))
  | .exit pid => inferInstanceAs (Decidable (procs.Live pid))

end Processes

/-- The processes and the tracer's table of them. -/
structure TracedState (M : Type) where
  procs : Processes
  maps : List (MemoryMapForProcess M)

def TracedState.first (map : M) (pid : Pid) : TracedState M := ⟨.first pid, [forProcessNew map pid]⟩

/-- An event happens to the processes and the tracer handles it. -/
def LifetimeStep (s : TracedState M) (event : LifetimeEvent) (s' : TracedState M) : Prop :=
  s.procs.Enabled event ∧ s' = ⟨s.procs.apply event, (handleLifetime s.maps event).2⟩

/-! ### The table as a partition -/

structure IsEntry (process : Pid → Option Nat) (n : Nat) (e : MemoryMapForProcess M) : Prop where
  nodup : e.pids.Nodup
  mem : ∀ p, p ∈ e.pids ↔ process p = some n

structure Represents (procs : Processes) (maps : List (MemoryMapForProcess M)) : Prop where
  entry : ∀ e ∈ maps, e.pids ≠ [] ∧ ∃ n, IsEntry procs.process n e
  disjoint : maps.Pairwise fun e e' => e.pids.Disjoint e'.pids
  live : ∀ p, procs.Live p → ∃ e ∈ maps, p ∈ e.pids
  fresh : ∀ p n, procs.process p = some n → n < procs.next

variable {maps : List (MemoryMapForProcess M)} {procs : Processes} {e : MemoryMapForProcess M}
  {pid : Pid}

theorem Represents.perm {maps' : List (MemoryMapForProcess M)} (h : Represents procs maps)
    (hperm : maps.Perm maps') : Represents procs maps' where
  entry e he := h.entry e (hperm.mem_iff.mpr he)
  disjoint := (hperm.pairwise_iff fun hdisj => fun p hp hp' => hdisj p hp' hp).mp h.disjoint
  live p hp := by simpa only [hperm.mem_iff] using h.live p hp
  fresh := h.fresh

theorem represents_first (map : M) (pid : Pid) :
    Represents (.first pid) [forProcessNew map pid] where
  entry e he := by
    rw [List.mem_singleton.mp he]
    exact ⟨by simp [forProcessNew], 0, by simp [forProcessNew], by
      simp [forProcessNew, Processes.first]⟩
  disjoint := List.pairwise_singleton _ _
  live p hp := ⟨_, List.mem_singleton.mpr rfl, by
    simpa [Processes.Live, Processes.first, forProcessNew] using hp⟩
  fresh p n hp := by
    simp only [Processes.first] at hp ⊢
    split at hp <;> simp_all

theorem IsEntry.update {process : Pid → Option Nat} {n : Nat} (h : IsEntry process n e) {q : Pid}
    (hq : q ∉ e.pids) {v : Option Nat} (hv : v ≠ some n) :
    IsEntry (Function.update process q v) n e := by
  refine ⟨h.nodup, fun p => ?_⟩
  by_cases hp : p = q
  · rw [hp, Function.update_self]
    exact iff_of_false hq hv
  · rw [Function.update_of_ne hp]
    exact h.mem p

/-! ### Looking up and removing -/

theorem findMemoryMap_spec (h : ∃ e ∈ maps, pid ∈ e.pids) :
    ∃ l e r, maps = l ++ e :: r ∧ findMemoryMap maps pid = some l.length ∧ pid ∈ e.pids := by
  obtain ⟨l, e, r, hsplit, hfind, hmem⟩ :=
    @List.findIdx?_split _ (fun e => e.pids.any fun p => p == pid) maps (by simpa using h)
  exact ⟨l, e, r, hsplit, hfind, by simpa using hmem⟩

theorem removePid_spec (h : pid ∈ e.pids) :
    ∃ pids, removePid e pid = some { e with pids } ∧ e.pids.Perm (pid :: pids) := by
  obtain ⟨l, p, r, hsplit, hfind, hmem⟩ :=
    @List.findIdx?_split _ (fun p => p == pid) e.pids ⟨pid, h, by simp⟩
  obtain rfl : p = pid := by simpa using hmem
  refine ⟨e.pids.swapRemove l.length, by rw [removePid, hfind]; rfl, ?_⟩
  rw [hsplit]
  exact List.perm_middle.trans ((List.swapRemove_perm l r p).symm.cons p)

/-! ### One event -/

section Step

variable {procs : Processes} {e : MemoryMapForProcess M} {maps rest : List (MemoryMapForProcess M)}
  {parent child pid : Pid}

theorem Represents.live_iff (h : Represents procs maps) (p : Pid) :
    procs.Live p ↔ ∃ e ∈ maps, p ∈ e.pids := by
  refine ⟨h.live p, fun ⟨e, he, hp⟩ => ?_⟩
  obtain ⟨-, n, hentry⟩ := h.entry e he
  rw [Processes.Live, (hentry.mem p).mp hp]
  simp

theorem Represents.clone (h : Represents procs (e :: rest)) (hparent : parent ∈ e.pids)
    (hchild : ¬ procs.Live child) :
    Represents (procs.apply (.clone parent child)) (addPid e child :: rest) := by
  have hout : ∀ e' ∈ e :: rest, child ∉ e'.pids :=
    fun e' he' hmem => hchild ((h.live_iff child).mpr ⟨e', he', hmem⟩)
  obtain ⟨hdisj, hrest⟩ := List.pairwise_cons.mp h.disjoint
  obtain ⟨-, n, hentry⟩ := h.entry e List.mem_cons_self
  have hn : procs.process parent = some n := (hentry.mem parent).mp hparent
  refine ⟨List.forall_mem_cons.mpr ⟨⟨by simp [addPid], n, ?_, fun p => ?_⟩, fun e' he' => ?_⟩, ?_,
    fun p hp => ?_, fun p m hp => ?_⟩
  · exact List.nodup_append.mpr ⟨hentry.nodup, List.nodup_singleton child,
      fun p hp q hq heq => hout e List.mem_cons_self (List.mem_singleton.mp hq ▸ heq ▸ hp)⟩
  · by_cases hp : p = child
    · simp [addPid, Processes.apply, hp, hn]
    · simp [addPid, Processes.apply, hp, hentry.mem]
  · obtain ⟨hne, n', hentry'⟩ := h.entry e' (List.mem_cons_of_mem e he')
    refine ⟨hne, n', hentry'.update (hout e' (List.mem_cons_of_mem e he')) fun heq => ?_⟩
    exact hdisj e' he' hparent ((hentry'.mem parent).mpr heq)
  · refine List.pairwise_cons.mpr ⟨fun e' he' p hp hp' => ?_, hrest⟩
    rcases List.mem_append.mp hp with hp | hp
    · exact hdisj e' he' hp hp'
    · rw [List.mem_singleton.mp hp] at hp'
      exact hout e' (List.mem_cons_of_mem e he') hp'
  · by_cases heq : p = child
    · exact ⟨_, List.mem_cons_self, by simp [addPid, heq]⟩
    · have hlive : procs.Live p := by
        simpa [Processes.Live, Processes.apply, Function.update_of_ne heq] using hp
      simpa [addPid, heq] using h.live p hlive
  · by_cases heq : p = child
    · exact h.fresh parent m (by simpa [Processes.apply, heq] using hp)
    · exact h.fresh p m (by simpa [Processes.apply, Function.update_of_ne heq] using hp)

theorem Represents.fork (h : Represents procs maps) (map : M) (hchild : ¬ procs.Live child) :
    Represents (procs.apply (.fork parent child)) (forProcessNew map child :: maps) := by
  have hout : ∀ e' ∈ maps, child ∉ e'.pids :=
    fun e' he' hmem => hchild ((h.live_iff child).mpr ⟨e', he', hmem⟩)
  refine ⟨List.forall_mem_cons.mpr
    ⟨⟨by simp [forProcessNew], procs.next, by simp [forProcessNew], fun p => ?_⟩, fun e' he' => ?_⟩,
    ?_, fun p hp => ?_, fun p m hp => ?_⟩
  · by_cases hp : p = child
    · simp [forProcessNew, Processes.apply, hp]
    · simp only [forProcessNew, Processes.apply, Function.update_of_ne hp, List.mem_singleton,
        hp, false_iff]
      exact fun heq => Nat.lt_irrefl _ (h.fresh p _ heq)
  · obtain ⟨hne, n', hentry⟩ := h.entry e' he'
    refine ⟨hne, n', hentry.update (hout e' he') fun heq => ?_⟩
    obtain ⟨p, hp⟩ := List.exists_mem_of_ne_nil _ hne
    have hlt := h.fresh p n' ((hentry.mem p).mp hp)
    exact Nat.ne_of_gt hlt (Option.some.inj heq)
  · exact List.pairwise_cons.mpr ⟨fun e' he' => by
    simpa [forProcessNew] using hout e' he', h.disjoint⟩
  · by_cases heq : p = child
    · exact ⟨_, List.mem_cons_self, by simp [forProcessNew, heq]⟩
    · have hlive : procs.Live p := by
        simpa [Processes.Live, Processes.apply, Function.update_of_ne heq] using hp
      obtain ⟨e', he', hmem⟩ := h.live p hlive
      exact ⟨e', List.mem_cons_of_mem _ he', hmem⟩
  · by_cases heq : p = child
    · obtain rfl : procs.next = m := by simpa [Processes.apply, heq] using hp
      exact Nat.lt_succ_self _
    · exact Nat.lt_succ_of_lt (h.fresh p m (by
      simpa [Processes.apply, Function.update_of_ne heq] using hp))

theorem Represents.exit (h : Represents procs (e :: rest)) {pids : List Pid}
    (hpids : e.pids.Perm (pid :: pids)) :
    Represents (procs.apply (.exit pid)) (if pids.length = 0 then rest
      else { e with pids } :: rest) := by
  obtain ⟨hdisj, hrest⟩ := List.pairwise_cons.mp h.disjoint
  obtain ⟨-, n, hentry⟩ := h.entry e List.mem_cons_self
  have hpid : pid ∈ e.pids := hpids.mem_iff.mpr List.mem_cons_self
  obtain ⟨hgone, hnodup⟩ := List.nodup_cons.mp (hpids.nodup_iff.mp hentry.nodup)
  have hothers : ∀ e' ∈ rest, e'.pids ≠ [] ∧ ∃ n,
      IsEntry (procs.apply (.exit pid)).process n e' := by
    intro e' he'
    obtain ⟨hne, n', hentry'⟩ := h.entry e' (List.mem_cons_of_mem e he')
    exact ⟨hne, n', hentry'.update (hdisj e' he' hpid) (by simp)⟩
  have hleft : ∀ p, (procs.apply (.exit pid)).Live p → p ∈ pids ∨ ∃ e' ∈ rest, p ∈ e'.pids := by
    intro p hp
    have heq : p ≠ pid := by
      rintro rfl
      simp [Processes.Live, Processes.apply] at hp
    have hlive : procs.Live p := by
      simpa [Processes.Live, Processes.apply, Function.update_of_ne heq] using hp
    obtain ⟨e', he', hmem⟩ := h.live p hlive
    rcases List.mem_cons.mp he' with rfl | he'
    · exact .inl (by simpa [heq] using hpids.mem_iff.mp hmem)
    · exact .inr ⟨e', he', hmem⟩
  have hfresh : ∀ p m, (procs.apply (.exit pid)).process p = some m → m < procs.next := by
    intro p m hp
    by_cases heq : p = pid
    · simp [Processes.apply, heq] at hp
    · exact h.fresh p m (by simpa [Processes.apply, Function.update_of_ne heq] using hp)
  split
  case isTrue hnone =>
    have hnil := List.eq_nil_of_length_eq_zero hnone
    exact ⟨hothers, hrest, fun p hp => (hleft p hp).resolve_left (by simp [hnil]), hfresh⟩
  case isFalse hsome =>
    refine ⟨List.forall_mem_cons.mpr
      ⟨⟨fun hnil => hsome (by simp [show pids = [] from hnil]), n, hnodup, fun p => ?_⟩, hothers⟩,
      List.pairwise_cons.mpr ⟨fun e' he' p hp =>
        hdisj e' he' (hpids.mem_iff.mpr (List.mem_cons_of_mem _ hp)), hrest⟩,
      fun p hp => ?_, hfresh⟩
    · by_cases hp : p = pid
      · simp [Processes.apply, hp, hgone]
      · have hmem := hpids.mem_iff (a := p)
        simp only [List.mem_cons, hp, false_or] at hmem
        rw [Processes.apply, ← hmem, hentry.mem]
        simp [Function.update_of_ne hp]
    · rcases hleft p hp with hmem | ⟨e', he', hmem⟩
      · exact ⟨_, List.mem_cons_self, hmem⟩
      · exact ⟨e', List.mem_cons_of_mem _ he', hmem⟩

end Step

/-! ### Runs -/

theorem Represents.exits (h : Represents procs maps) (hlive : procs.Live pid) :
    ∃ maps', handleThreadExit maps pid = (if maps'.length = 0 then .returnTrue
      else .continue_, maps') ∧
      Represents (procs.apply (.exit pid)) maps' := by
  obtain ⟨l, e, r, rfl, hfind, hmem⟩ := findMemoryMap_spec ((h.live_iff pid).mp hlive)
  obtain ⟨pids, hremove, hpids⟩ := removePid_spec hmem
  have hexit := (h.perm List.perm_middle).exit hpids
  have hget : (l ++ e :: r)[l.length]? = some e := by simp
  have hset : (l ++ e :: r).set l.length { e with pids } = l ++ { e with pids } :: r := by simp
  set maps' := if pids.length = 0 then removeMap (l ++ { e with pids } :: r) l.length
    else l ++ { e with pids } :: r with hmaps'
  refine ⟨maps', ?_, ?_⟩
  · simp only [handleThreadExit, hfind, hget, Option.bind_some, hremove, hset]
    rw [← hmaps']
    split <;> rfl
  · split at hexit
    case isTrue hnone =>
      rw [hmaps', if_pos hnone, removeMap, if_pos (by simp)]
      exact hexit.perm (List.swapRemove_perm l r _).symm
    case isFalse hsome =>
      rw [hmaps', if_neg hsome]
      exact hexit.perm List.perm_middle.symm

theorem Represents.handles (h : Represents procs maps) {event : LifetimeEvent}
    (henabled : procs.Enabled event) :
    Represents (procs.apply event) (handleLifetime maps event).2 := by
  cases event with
  | clone parent child =>
    obtain ⟨l, e, r, rfl, hfind, hmem⟩ := findMemoryMap_spec ((h.live_iff parent).mp henabled.1)
    have hclone := (h.perm List.perm_middle).clone hmem henabled.2
    have hmodify : (l ++ e :: r).modify l.length (addPid · child) = l ++ addPid e child :: r := by
      simp [List.modify_eq_set_getElem?]
    simp only [handleLifetime, hfind, hmodify]
    exact hclone.perm List.perm_middle.symm
  | fork parent child =>
    obtain ⟨l, e, r, rfl, hfind, -⟩ := findMemoryMap_spec ((h.live_iff parent).mp henabled.1)
    have hget : (l ++ e :: r)[l.length]? = some e := by simp
    simp only [handleLifetime, hfind, Option.bind_some, hget]
    exact (h.fork e.map henabled.2).perm (List.perm_append_singleton _ _).symm
  | exit pid =>
    obtain ⟨maps', hexit, hrepr⟩ := h.exits henabled
    simpa only [handleLifetime, hexit] using hrepr

/-- The table has every live thread once, in the entry of its process, and no entry without threads.
-/
structure IsPartition (procs : Processes) (maps : List (MemoryMapForProcess M)) : Prop where
  once : ∀ p, procs.Live p → (maps.flatMap (·.pids)).count p = 1
  dead : ∀ p, ¬ procs.Live p → p ∉ maps.flatMap (·.pids)
  same : ∀ p p', procs.Live p → procs.Live p' →
    ((∃ e ∈ maps, p ∈ e.pids ∧ p' ∈ e.pids) ↔ procs.process p = procs.process p')
  nonempty : ∀ e ∈ maps, e.pids ≠ []

theorem Represents.isPartition (h : Represents procs maps) :
    IsPartition procs maps where
  once p hp := by
    have hnodup : (maps.flatMap (·.pids)).Nodup :=
      List.nodup_flatMap.mpr ⟨fun e he => (h.entry e he).2.elim fun _ hentry =>
        hentry.nodup, h.disjoint⟩
    exact List.count_eq_one_of_mem hnodup (List.mem_flatMap.mpr (h.live p hp))
  dead p hp hmem := hp ((h.live_iff p).mpr (List.mem_flatMap.mp hmem))
  same p p' hp hp' := by
    constructor
    · rintro ⟨e, he, hmem, hmem'⟩
      obtain ⟨-, n, hentry⟩ := h.entry e he
      rw [(hentry.mem p).mp hmem, (hentry.mem p').mp hmem']
    · intro heq
      obtain ⟨e, he, hmem⟩ := h.live p hp
      obtain ⟨-, n, hentry⟩ := h.entry e he
      exact ⟨e, he, hmem, (hentry.mem p').mpr (heq ▸ (hentry.mem p).mp hmem)⟩
  nonempty e he := (h.entry e he).1

theorem represents_run {map : M} {events : List LifetimeEvent} {s : TracedState M}
    (h : Run LifetimeStep (.first map pid) events s) : Represents s.procs s.maps := by
  have hkeep : ∀ (s : TracedState M) (event : LifetimeEvent) (s' : TracedState M),
    Represents s.procs s.maps → ¬ False →
      LifetimeStep s event s' → Represents s'.procs s'.maps := by
    rintro s event s' hs - ⟨henabled, rfl⟩
    exact hs.handles henabled
  exact Run.invariant_of_labels hkeep h (represents_first map pid) fun _ _ => id

theorem Represents.length_eq_zero (h : Represents procs maps) :
    maps.length = 0 ↔ ∀ p, ¬ procs.Live p := by
  rw [List.length_eq_zero_iff]
  constructor
  · rintro rfl p hp
    simpa using h.live p hp
  · intro hdead
    by_contra hne
    obtain ⟨e, he⟩ := List.exists_mem_of_ne_nil _ hne
    obtain ⟨p, hp⟩ := List.exists_mem_of_ne_nil _ (h.entry e he).1
    exact hdead p ((h.live_iff p).mpr ⟨e, he, hp⟩)

/-- After any events the table is a partition of the live threads into processes. The exit of a live
thread is never an error, and ends the tracer exactly if no other thread is live. -/
theorem process_table_partition (map : M) (pid : Pid) (events : List LifetimeEvent)
    (s : TracedState M) (h : Run LifetimeStep (.first map pid) events s) :
    IsPartition s.procs s.maps ∧
      ∀ p, s.procs.Live p → (handleThreadExit s.maps p).1 ≠ .returnFalse ∧
        ((handleThreadExit s.maps p).1 = .returnTrue ↔ ∀ p', s.procs.Live p' → p' = p) := by
  have hrepr := represents_run h
  refine ⟨hrepr.isPartition, fun p hp => ?_⟩
  obtain ⟨maps', hexit, hrepr'⟩ := hrepr.exits hp
  have hlast : (∀ p', ¬ (s.procs.apply (.exit p)).Live p') ↔ ∀ p', s.procs.Live p' → p' = p := by
    refine forall_congr' fun p' => ?_
    by_cases heq : p' = p
    · simp [Processes.Live, Processes.apply, heq]
    · simp [Processes.Live, Processes.apply, heq]
  rw [hexit, ← hlast, ← hrepr'.length_eq_zero]
  split <;> simp_all

/-- A process with two threads forks, and its first thread exits. -/
def family : List LifetimeEvent := [.clone 1 2, .fork 2 3, .exit 1]

theorem process_table_partition_family :
    ∃ s, Run LifetimeStep (.first () 1) family s ∧ IsPartition s.procs s.maps ∧
      (handleThreadExit s.maps 2).1 = .continue_ := by
  have hrun : ∃ s, Run LifetimeStep (.first () 1) family s ∧ (handleThreadExit s.maps 2).1 =
      .continue_ :=
    ⟨_, .cons ⟨by decide, rfl⟩ (.cons ⟨by decide, rfl⟩ (.cons ⟨by decide, rfl⟩ (.nil _))), by
      decide⟩
  obtain ⟨s, hrun, hexit⟩ := hrun
  exact ⟨s, hrun, (process_table_partition () 1 family s hrun).1, hexit⟩

end Ia2.Tracer
