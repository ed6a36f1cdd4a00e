import Ia2.Tracer.Processes

/-!
# What the table of processes says

The table of traced processes as the tracer's loop uses it: which process each thread belongs to
that the tracer knows of, and the memory map of each process. The numbers of the processes are the
kernel's. A process can become known in another order than it was forked in, so they differ from the
ones that the table as a partition counts.
-/

namespace Ia2.Tracer

variable {M : Type}

structure Tabulates (maps : List (MemoryMapForProcess M)) (owner : Pid → Option Nat)
    (mapOf : Nat → M) : Prop where
  partition : ∃ procs : Processes, Represents procs maps ∧
    (∀ p, owner p = none ↔ procs.process p = none) ∧
    ∀ p q, owner p = owner q ↔ procs.process p = procs.process q
  map_eq : ∀ e ∈ maps, ∀ p ∈ e.pids, ∀ n, owner p = some n → e.map = mapOf n

theorem tabulates_first (map : M) (pid : Pid) (n : Nat) :
    Tabulates [forProcessNew map pid] (fun p => if p = pid then some n else none) fun _ => map := by
  constructor
  · refine ⟨.first pid, represents_first map pid, fun p => ?_, fun p q => ?_⟩
    · by_cases hp : p = pid <;> simp [Processes.first, hp]
    · by_cases hp : p = pid <;> by_cases hq : q = pid <;> simp [Processes.first, hp, hq]
  · intro e he p _ n _
    rw [List.mem_singleton.mp he]
    rfl

theorem Represents.of_pids_eq {procs : Processes} {maps maps' : List (MemoryMapForProcess M)}
    (h : Represents procs maps) (hpids : maps'.map (·.pids) = maps.map (·.pids)) :
    Represents procs maps' := by
  have hmem : ∀ e' ∈ maps', ∃ e ∈ maps, e.pids = e'.pids := by
    intro e' he'
    exact List.mem_map.mp (hpids ▸ List.mem_map_of_mem he')
  constructor
  · intro e' he'
    obtain ⟨e, he, heq⟩ := hmem e' he'
    obtain ⟨hne, n, hnodup, hentry⟩ := h.entry e he
    exact ⟨heq ▸ hne, n, heq ▸ hnodup, fun p => heq ▸ hentry p⟩
  · have hdisjoint := h.disjoint
    have hmap : ∀ maps : List (MemoryMapForProcess M),
      maps.Pairwise (fun e e' => e.pids.Disjoint e'.pids) ↔
        (maps.map (·.pids)).Pairwise List.Disjoint := fun maps => List.pairwise_map.symm
    rw [hmap] at hdisjoint ⊢
    exact hpids ▸ hdisjoint
  · intro p hp
    obtain ⟨e, he, hpe⟩ := h.live p hp
    obtain ⟨e', he', heq⟩ := List.mem_map.mp (hpids.symm ▸ List.mem_map_of_mem he)
    exact ⟨e', he', heq ▸ hpe⟩
  · exact h.fresh

namespace Tabulates

variable {maps : List (MemoryMapForProcess M)} {owner : Pid → Option Nat} {mapOf : Nat → M}
  {pid child : Pid} {n m : Nat}

section

variable (h : Tabulates maps owner mapOf) (hpid : owner pid = some n)

include h hpid

theorem find :
    ∃ l e r, maps = l ++ e :: r ∧ findMemoryMap maps pid = some l.length ∧ e.map = mapOf n ∧
      (∀ q, q ∈ e.pids ↔ owner q = some n) ∧
      ∀ e' ∈ l ++ r, ∀ q ∈ e'.pids, owner q ≠ some n := by
  obtain ⟨procs, hrepr, hnone, hsame⟩ := h.partition
  have hlive : procs.Live pid := by
    intro hdead
    rw [← hnone, hpid] at hdead
    exact nomatch hdead
  obtain ⟨l, e, r, rfl, hfind, hmem⟩ := findMemoryMap_spec ((hrepr.live_iff pid).mp hlive)
  have he : e ∈ l ++ e :: r := by simp
  obtain ⟨-, a, hentry⟩ := hrepr.entry e he
  have hpids : ∀ q, q ∈ e.pids ↔ owner q = some n := by
    intro q
    rw [hentry.mem, ← (hentry.mem pid).mp hmem, ← hsame, hpid]
  obtain ⟨hdisjoint, -⟩ := List.pairwise_cons.mp (hrepr.perm List.perm_middle).disjoint
  exact ⟨l, e, r, rfl, hfind, h.map_eq e he pid hmem _ hpid, hpids,
    fun e' he' q hq hn => hdisjoint e' he' ((hpids q).mpr hn) hq⟩

omit hpid in
theorem find_none (hpid : owner pid = none) :
    findMemoryMap maps pid = none := by
  obtain ⟨procs, hrepr, hnone, -⟩ := h.partition
  rw [findMemoryMap, List.findIdx?_eq_none_iff]
  intro e he
  rw [List.any_eq_false]
  intro p hp heq
  obtain rfl := beq_iff_eq.mp heq
  exact (hrepr.live_iff p).mpr ⟨e, he, hp⟩ ((hnone p).mp hpid)

theorem setMap {i : Nat} (hi : findMemoryMap maps pid = some i) (map : M) :
    Tabulates (maps.modify i fun e => { e with map }) owner (Function.update mapOf n map) := by
  obtain ⟨l, e, r, rfl, hfind, -, hpids, hothers⟩ := h.find hpid
  obtain rfl := Option.some.inj (hi.symm.trans hfind)
  have hmodify : ((l ++ e :: r).modify l.length fun e => { e with map }) =
    l ++ { e with map } :: r := by simp [List.modify_eq_set_getElem?]
  rw [hmodify]
  constructor
  · obtain ⟨procs, hrepr, hnone, hsame⟩ := h.partition
    exact ⟨procs, hrepr.of_pids_eq (by simp), hnone, hsame⟩
  · intro e' he' p hp k hk
    obtain rfl | he' := List.mem_cons.mp (List.perm_middle.mem_iff.mp he')
    · obtain rfl : n = k := Option.some.inj (((hpids p).mp hp).symm.trans hk)
      rw [Function.update_self]
    · have hne : k ≠ n := fun heq => hothers e' he' p hp (heq ▸ hk)
      rw [Function.update_of_ne hne]
      exact h.map_eq e' (List.perm_middle.mem_iff.mpr (List.mem_cons_of_mem _ he')) p hp k hk

theorem clone (hchild : owner child = none) {i : Nat} (hi : findMemoryMap maps pid = some i) :
    Tabulates (maps.modify i fun e => addPid e child)
    (Function.update owner child (some n)) mapOf := by
  obtain ⟨procs, hrepr, hnone, hsame⟩ := h.partition
  have hlive : procs.Live pid := fun hdead => nomatch hpid.symm.trans ((hnone pid).mpr hdead)
  have hdead : ¬ procs.Live child := fun hlive => hlive ((hnone child).mp hchild)
  constructor
  · have henabled : procs.Enabled (.clone pid child) := ⟨hlive, hdead⟩
    have hclone := hrepr.handles henabled
    simp only [handleLifetime, hi] at hclone
    -- the child is to be told apart from the others as its parent is
    have hothers : ∀ p, ∃ q, Function.update owner child (some n) p = owner q ∧
        (procs.apply (.clone pid child)).process p = procs.process q := by
      intro p
      by_cases hp : p = child
      · subst hp
        exact ⟨pid, by simp [hpid], by simp [Processes.apply]⟩
      · exact ⟨p, by simp [hp], by simp [Processes.apply, hp]⟩
    refine ⟨_, hclone, fun p => ?_, fun p q => ?_⟩
    · obtain ⟨p', howner, hprocess⟩ := hothers p
      rw [howner, hprocess]
      exact hnone p'
    · obtain ⟨p', howner, hprocess⟩ := hothers p
      obtain ⟨q', howner', hprocess'⟩ := hothers q
      rw [howner, hprocess, howner', hprocess']
      exact hsame p' q'
  · obtain ⟨l, e, r, rfl, hfind, hmap, hpids, -⟩ := h.find hpid
    obtain rfl := Option.some.inj (hi.symm.trans hfind)
    have hmodify : ((l ++ e :: r).modify l.length fun e => addPid e child) =
      l ++ addPid e child :: r := by simp [List.modify_eq_set_getElem?]
    rw [hmodify]
    intro e' he' p hp k hk
    obtain rfl | he' := List.mem_cons.mp (List.perm_middle.mem_iff.mp he')
    · have hkn : k = n := by
        by_cases hpc : p = child
        · subst hpc
          simpa using hk.symm
        · rw [Function.update_of_ne hpc] at hk
          have hpe : p ∈ e.pids := by simpa [addPid, hpc] using hp
          exact Option.some.inj (hk.symm.trans ((hpids p).mp hpe))
      rw [hkn, ← hmap]
      rfl
    · have hmem : e' ∈ l ++ e :: r := List.perm_middle.mem_iff.mpr (List.mem_cons_of_mem _ he')
      have hpc : p ≠ child := by
        rintro rfl
        exact hdead ((hrepr.live_iff p).mpr ⟨e', hmem, hp⟩)
      rw [Function.update_of_ne hpc] at hk
      exact h.map_eq e' hmem p hp k hk

omit hpid in
theorem fork (hchild : owner child = none) (hfresh : ∀ q, owner q ≠ some m) (map : M) :
    Tabulates (addMap maps (forProcessNew map child)) (Function.update owner child (some m))
      (Function.update mapOf m map) := by
  obtain ⟨procs, hrepr, hnone, hsame⟩ := h.partition
  have hdead : ¬ procs.Live child := fun hlive => hlive ((hnone child).mp hchild)
  constructor
  · refine ⟨procs.apply (.fork 0 child),
      (hrepr.fork map hdead).perm (List.perm_append_singleton _ _).symm, fun p => ?_, fun p q => ?_⟩
    · by_cases hp : p = child
      · simp [Processes.apply, hp]
      · simp [Processes.apply, hp, hnone]
    · have hnext : ∀ p, procs.process p ≠ some procs.next :=
        fun p hp => Nat.lt_irrefl _ (hrepr.fresh p _ hp)
      by_cases hp : p = child
      · by_cases hq : q = child
        · simp [hp, hq]
        · simp [Processes.apply, hp, hq, (hfresh q).symm, (hnext q).symm]
      · by_cases hq : q = child
        · simp [Processes.apply, hp, hq, hfresh p, hnext p]
        · simp [Processes.apply, hp, hq, hsame p q]
  · intro e he p hp k hk
    obtain hold | hnew := List.mem_append.mp he
    · have hpc : p ≠ child := fun heq => hdead ((hrepr.live_iff child).mpr ⟨e, hold, heq ▸ hp⟩)
      rw [Function.update_of_ne hpc] at hk
      have hkm : k ≠ m := fun heq => hfresh p (heq ▸ hk)
      rw [Function.update_of_ne hkm]
      exact h.map_eq e hold p hp k hk
    · rw [List.mem_singleton.mp hnew] at hp ⊢
      obtain rfl : p = child := by simpa [forProcessNew] using hp
      obtain rfl : m = k := by simpa using hk
      rw [Function.update_self]
      rfl

theorem of_mem_handleThreadExit {e' : MemoryMapForProcess M}
    (he' : e' ∈ (handleThreadExit maps pid).2) :
    ∃ e ∈ maps, e'.map = e.map ∧ ∀ p ∈ e'.pids, p ∈ e.pids := by
  obtain ⟨l, e, r, rfl, hfind, -, hpids, -⟩ := h.find hpid
  obtain ⟨pids, hremove, hperm⟩ := removePid_spec ((hpids pid).mpr hpid)
  have hget : (l ++ e :: r)[l.length]? = some e := by simp
  have hset : (l ++ e :: r).set l.length { e with pids } = l ++ { e with pids } :: r := by simp
  have hmem : e' ∈ l ++ { e with pids } :: r := by
    simp only [handleThreadExit, hfind, hget, Option.bind_some, hremove, hset, apply_ite Prod.snd,
      ite_self] at he'
    by_cases hnil : pids.length = 0
    · rw [if_pos hnil, removeMap, if_pos (by simp)] at he'
      exact List.perm_middle.mem_iff.mpr
        (List.mem_cons_of_mem _ ((List.swapRemove_perm l r _).mem_iff.mp he'))
    · rwa [if_neg hnil] at he'
  obtain rfl | hmem := List.mem_cons.mp (List.perm_middle.mem_iff.mp hmem)
  · exact ⟨e, by simp, rfl, fun p hp => hperm.mem_iff.mpr (List.mem_cons_of_mem _ hp)⟩
  · exact ⟨e', List.perm_middle.mem_iff.mpr (List.mem_cons_of_mem _ hmem), rfl, fun _ => id⟩

theorem exit :
    ∃ maps', handleThreadExit maps pid = (if maps'.length = 0 then .returnTrue
      else .continue_, maps') ∧
      Tabulates maps' (Function.update owner pid none) mapOf := by
  obtain ⟨procs, hrepr, hnone, hsame⟩ := h.partition
  have hlive : procs.Live pid := fun hdead => nomatch hpid.symm.trans ((hnone pid).mpr hdead)
  obtain ⟨maps', hexit, hrepr'⟩ := hrepr.exits hlive
  refine ⟨maps', hexit, ⟨⟨_, hrepr', fun p => ?_, fun p q => ?_⟩, ?_⟩⟩
  · by_cases hp : p = pid
    · simp [Processes.apply, hp]
    · simp [Processes.apply, hp, hnone]
  · by_cases hp : p = pid
    · by_cases hq : q = pid
      · simp [hp, hq]
      · simpa [Processes.apply, hp, hq, eq_comm] using hnone q
    · by_cases hq : q = pid
      · simpa [Processes.apply, hp, hq] using hnone p
      · simp [Processes.apply, hp, hq, hsame p q]
  · intro e' he' p hp k hk
    have hpp : p ≠ pid := by
      rintro rfl
      simp at hk
    rw [Function.update_of_ne hpp] at hk
    have hmem : e' ∈ (handleThreadExit maps pid).2 := by rwa [hexit]
    obtain ⟨e, he, hmap, hsub⟩ := h.of_mem_handleThreadExit hpid hmem
    rw [hmap]
    exact h.map_eq e he p (hsub p hp) k hk

end

end Tabulates

end Ia2.Tracer
