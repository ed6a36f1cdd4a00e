import Ia2.Tracer.Focus

/-!
# New threads and processes

The stop of a thread that has created another one. The tracer asks which thread it is, lets it go on
if it has already stopped, and enters it in the table: in the entry of its parent, or in one of its
own with a copy of the parent's map. A forked process starts with what its parent had executed, so
the copy records just that.
-/

namespace Ia2.Tracer

variable {T : Type} [IntervalTree T Nat State]

def recordChild (maps : List (MemoryMapForProcess (MemoryMap T))) (i : Nat) (child : Pid) :
    Stop → List (MemoryMapForProcess (MemoryMap T))
  | .clone _ => maps.modify i fun e => addPid e child
  | _ => match maps[i]? with
    | none => maps
    | some e => addMap maps (forProcessNew e.map child)

section Children

variable {initial : MemoryMap T} {t : Tracking T} {i : Nat} {pid child : Pid}
  {owner : Pid → Option Nat} {mapOf : Nat → MemoryMap T}
  {th thc : Thread} {k k' : Tracees} {stop : Stop} {status : Status}

/-! ### The table -/

omit [IntervalTree T Nat State] in
theorem findMemoryMap_recordChild {maps : List (MemoryMapForProcess (MemoryMap T))}
    (h : findMemoryMap maps pid = some i) :
    findMemoryMap (recordChild maps i child stop) pid = some i := by
  rw [findMemoryMap, List.findIdx?_eq_some_iff_getElem] at h ⊢
  obtain ⟨hi, hfound, hfirst⟩ := h
  unfold recordChild
  split
  · refine ⟨by simpa using hi, ?_, fun j hj => ?_⟩
    · simp only [List.getElem_modify_eq, addPid, List.any_append, Bool.or_eq_true]
      exact .inl hfound
    · rw [List.getElem_modify, if_neg (Nat.ne_of_gt hj)]
      exact hfirst j hj
  · simp only [List.getElem?_eq_getElem hi, addMap]
    refine ⟨by simp; omega, ?_, fun j hj => ?_⟩
    · rw [List.getElem_append_left hi]
      exact hfound
    · rw [List.getElem_append_left (by omega)]
      exact hfirst j hj

theorem Sees.recordChild (h : Sees initial t i pid owner mapOf th k)
    (hbirth : Birth k pid th.process stop child thc) (hchild : stop.child? = some child)
    (hunknown : owner child = none) :
    ∃ mapOf', Tabulates (recordChild t.maps i child stop)
    (Function.update owner child (some thc.process)) mapOf' ∧
      (∀ n, n ≠ thc.process → mapOf' n = mapOf n) ∧ mapOf' th.process = mapOf th.process ∧
        mapOf' thc.process = mapOf th.process := by
  by_cases hstop : stop = .clone child
  · subst hstop
    refine ⟨mapOf, ?_, fun _ _ => rfl, rfl, by rw [hbirth.cloned rfl]⟩
    rw [hbirth.cloned rfl]
    exact h.traced.table.clone h.known hunknown h.entry
  · obtain ⟨honly, -, -⟩ := hbirth.forked hstop
    have hfresh : ∀ q, owner q ≠ some thc.process := by
      intro q hq
      obtain ⟨th', hth', hn, -⟩ := h.traced.known q _ hq
      obtain rfl := honly q th' hth' hn
      exact absurd (hunknown.symm.trans hq) nofun
    have hne : th.process ≠ thc.process := fun heq => hfresh pid (heq ▸ h.known)
    obtain ⟨e, he, hmap⟩ := h.map_eq
    refine ⟨Function.update mapOf thc.process e.map, ?_, fun n hn => Function.update_of_ne hn ..,
      Function.update_of_ne hne ..,
      (Function.update_self ..).trans hmap⟩
    have hrecord : Ia2.Tracer.recordChild t.maps i child stop =
        addMap t.maps (forProcessNew e.map child) := by
      cases stop with
      | clone c => exact absurd (congrArg Stop.clone (Option.some.inj hchild)) hstop
      | _ => simp only [Ia2.Tracer.recordChild, he]
    rw [hrecord]
    exact h.traced.table.fork hunknown hfresh e.map

variable {m : Nat} {q : Pid} {l : Local}

omit [IntervalTree T Nat State] in
theorem update_owner_some {n : Nat} (h : Function.update owner child (some m) q = some n) :
    (q = child ∧ n = m) ∨ (q ≠ child ∧ owner q = some n) := by
  by_cases hq : q = child
  · subst hq
    rw [Function.update_self] at h
    exact .inl ⟨rfl, (Option.some.inj h).symm⟩
  · exact .inr ⟨hq, (Function.update_of_ne hq ..).symm.trans h⟩

omit [IntervalTree T Nat State] in
theorem update_owner_none (h : Function.update owner child (some m) q = none) :
    q ≠ child ∧ owner q = none := by
  by_cases hq : q = child
  · subst hq
    rw [Function.update_self] at h
    exact nomatch h
  · exact ⟨hq, (Function.update_of_ne hq ..).symm.trans h⟩

variable {pending : List Pid}

theorem Sees.announce_accounted (h : Sees initial t i pid owner mapOf th k)
    (hbirth : Birth k pid th.process stop child thc) {mapOf' : Nat → MemoryMap T}
    (htable : Tabulates (Ia2.Tracer.recordChild t.maps i child stop)
    (Function.update owner child (some thc.process)) mapOf')
    (hothers : ∀ n, n ≠ thc.process → mapOf' n = mapOf n)
    (hmap : mapOf' thc.process = mapOf th.process) (hpc : pid ≠ child)
    (hrun : Run Serves initial (k.past th.process) (mapOf th.process)) (hcalm : status.Calm)
    (hgone : thc.status.Gone → status.Gone) (hnodup : pending.Nodup)
    (hpending : ∀ q, q ∈ pending ↔ q ∈ t.pending ∧ q ≠ child) :
    Accounted initial { t with maps := Ia2.Tracer.recordChild t.maps i child stop, pending }
      (some pid) (k.setStatus child thc status)
      (Function.update owner child (some thc.process)) mapOf' := by
  have hknown : Function.update owner child (some thc.process) pid = some th.process :=
    (Function.update_of_ne hpc ..).trans h.known
  constructor
  · exact h.traced.toSound.step hbirth.thread hgone rfl rfl
  · exact htable
  · intro q n hq
    obtain ⟨rfl, rfl⟩ | ⟨hqc, hq⟩ := update_owner_some hq
    · exact ⟨_, Tracees.setStatus_self .., rfl, fun _ => hcalm⟩
    · obtain ⟨th', hth', hn, hcalm'⟩ := h.traced.known q n hq
      exact ⟨th', (Tracees.setStatus_of_ne hqc).trans hth', hn, hcalm'⟩
  · intro q th' hq hnone
    obtain ⟨hqc, hnone⟩ := update_owner_none hnone
    have hiff : q ∈ pending ↔ q ∈ t.pending := by simp [hpending, hqc]
    have hresting := h.traced.unknown q th' ((Tracees.setStatus_of_ne hqc).symm.trans hq) hnone
    rw [← hiff] at hresting
    exact hresting
  · refine ⟨hnodup, fun q hq => ?_⟩
    obtain ⟨hq, hqc⟩ := (hpending q).mp hq
    obtain ⟨hnone, hthread⟩ := h.traced.pending.2 q hq
    refine ⟨(Function.update_of_ne hqc ..).trans hnone, ?_⟩
    rwa [Tracees.setStatus_of_ne hqc]
  · intro p hp
    cases hp
    rw [hknown]
    exact nofun
  · intro q n hq hkilled helse
    have hnp : n ≠ th.process := by
      rintro rfl
      exact helse pid rfl hknown
    by_cases hnc : n = thc.process
    · subst hnc
      -- a process of its own starts with what its parent has executed
      have hstop : stop ≠ .clone child := fun heq => hnp (hbirth.cloned heq)
      rw [hmap]
      exact (hbirth.forked hstop).2.1 ▸ hrun
    · obtain ⟨-, rfl⟩ | ⟨-, hq⟩ := update_owner_some hq
      · exact absurd rfl hnc
      · rw [hothers n hnc]
        exact h.traced.served q n hq hkilled (h.apart hnp)
  · intro n _
    exact h.mediated (.recorded hrun) n

theorem Sees.announce (h : Sees initial t i pid owner mapOf th k)
    (hbirth : Birth k pid th.process stop child thc) (hchild : stop.child? = some child)
    (hunknown : owner child = none)
    (hrun : Run Serves initial (k.past th.process) (mapOf th.process)) (hcalm : status.Calm)
    (hgone : thc.status.Gone → status.Gone)
    (hchildless : ∀ stop regs pkru seen, status = .stopped stop regs pkru seen → stop.child? = none)
    (hnodup : pending.Nodup) (hpending : ∀ q, q ∈ pending ↔ q ∈ t.pending ∧ q ≠ child) :
    ∃ owner' mapOf', Sees initial
      { t with maps := Ia2.Tracer.recordChild t.maps i child stop, pending } i pid owner' mapOf' th
      (k.setStatus child thc status) ∧ mapOf' th.process = mapOf th.process := by
  obtain ⟨mapOf', htable, hothers, hmap, hmapc⟩ := h.recordChild hbirth hchild hunknown
  have hpc : pid ≠ child := by
    rintro rfl
    exact absurd (h.known.symm.trans hunknown) nofun
  have haccounted := h.announce_accounted hbirth htable hothers hmapc hpc hrun hcalm hgone
    hnodup hpending
  refine ⟨Function.update owner child (some thc.process), mapOf',
    ⟨⟨haccounted, ?_⟩, findMemoryMap_recordChild h.entry, ?_, ?_⟩, hmap⟩
  · intro q th' stop' regs pkru child' hq hth' hstatus hchild'
    have hqp : q ≠ pid := fun heq => hq (heq ▸ rfl)
    have hqc : q ≠ child := by
      rintro rfl
      obtain rfl := Option.some.inj ((Tracees.setStatus_self ..).symm.trans hth')
      exact absurd (hchild'.symm.trans (hchildless stop' regs pkru false hstatus)) nofun
    obtain ⟨hunknown', thc', hbirth'⟩ := h.traced.births q th' stop' regs pkru child' hq
      ((Tracees.setStatus_of_ne hqc).symm.trans hth') hstatus hchild'
    -- a child has one parent
    have hcc : child' ≠ child := by
      rintro rfl
      obtain rfl := Option.some.inj (hbirth.thread.symm.trans hbirth'.thread)
      exact hqp (Option.some.inj (hbirth'.parent_eq.symm.trans hbirth.parent_eq))
    exact ⟨(Function.update_of_ne hcc ..).trans hunknown',
      hbirth'.setStatus hbirth.thread hgone (absurd · hqc) (absurd · hcc)⟩
  · exact (Function.update_of_ne hpc ..).trans h.known
  · exact (Tracees.setStatus_of_ne hpc).trans h.thread

/-! ### The round -/

def Announces (initial : MemoryMap T) (t : Tracking T) (i : Nat) (pid : Pid) (stop : Stop)
    (regs : Regs) (pkru : UInt32) (child : Pid) (past : List Entry) (k : Tracees) : Prop :=
  ∃ owner mapOf th thc, Sees initial t i pid owner mapOf th k ∧
    Birth k pid th.process stop child thc ∧ owner child = none ∧
    (k.view th).At (.stopped stop regs pkru true) past ∧ Run Serves initial past (mapOf th.process)

def Stands (initial : MemoryMap T) (t : Tracking T) (i : Nat) (pid : Pid) (stop : Stop)
    (regs : Regs) (pkru : UInt32) (past : List Entry) (k : Tracees) : Prop :=
  ∃ owner mapOf th, Sees initial t i pid owner mapOf th k ∧
    (k.view th).At (.stopped stop regs pkru true) past ∧
    Run Serves initial past (mapOf th.process)

variable {regs : Regs} {pkru : UInt32} {past : List Entry} {allowed : Tracees → Move → Prop}
  {α : Type} {post : α → Tracees → Prop}

omit [IntervalTree T Nat State] in
theorem Local.At.past_eq (h : l.At status past) : l.past = past := by
  obtain ⟨-, hpast⟩ | hl := h
  · exact hpast
  · exact hl.past_eq

theorem Stands.quiet (h : Stands initial t i pid stop regs pkru past k) : Quiet initial k := by
  obtain ⟨owner, mapOf, th, hsees, hat, hrun⟩ := h
  exact hsees.quiet (hat.parked (.recorded hrun))

theorem Announces.stands (h : Announces initial t i pid stop regs pkru child past k) :
    Stands initial t i pid stop regs pkru past k := by
  obtain ⟨owner, mapOf, th, -, hsees, -, -, hat, hrun⟩ := h
  exact ⟨owner, mapOf, th, hsees, hat, hrun⟩

theorem Announces.move {m : Move} (h : Announces initial t i pid stop regs pkru child past k)
    (horderly : k.Orderly m) (hmove : k.Moves m k') :
    Announces initial t i pid stop regs pkru child past k' := by
  obtain ⟨owner, mapOf, th, thc, hsees, hbirth, hunknown, hat, hrun⟩ := h
  have hparked := hat.parked (.recorded hrun)
  obtain ⟨th', hsees', hprocess, hmoves⟩ := hsees.move hparked.held hparked.mediated horderly hmove
  obtain ⟨thc', hbirth'⟩ := hbirth.effect (hmove.effect hsees.traced.coherent horderly)
  refine ⟨owner, mapOf, th', thc', hsees', hprocess ▸ hbirth', hunknown, ?_, hprocess ▸ hrun⟩
  exact Local.of_moves (fun l l' hl hm => hl.move hm) hmoves hat

theorem wp_getEventMsg {f : Option Pid → Tracing α} (hallowed : ∀ k m, allowed k m → k.Orderly m)
    (hchild : stop.child? = some child) (h : Announces initial t i pid stop regs pkru child past k)
    (hsome : ∀ k, Announces initial t i pid stop regs pkru child past k →
      WpAmong initial allowed (f (some child)) post k)
    (hnone : ∀ k, Quiet initial k → WpAmong initial allowed
      (f none) post k) :
    WpAmong initial allowed (getEventMsg pid >>= f) post k := by
  rw [getEventMsg_bind]
  apply Wp.ask_of_stable (Announces initial t i pid stop regs pkru child past) _ _ _ h
  · rintro k k' hk ⟨m, hm, hmove⟩
    exact hk.move (hallowed k m hm) hmove
  · exact fun k hk => hk.stands.quiet.safe
  · intro k a k' hk hans
    have hquiet := hk.stands.quiet
    obtain ⟨owner, mapOf, th, thc, hsees, hbirth, hunknown, hat, hrun⟩ := id hk
    have hans' : k.Answers (.getEventMsg pid) a k' := hans
    obtain ⟨l, ⟨hmsg, rfl⟩, -, -, hk'⟩ := hsees.answers rfl hans'
    obtain rfl : k' = k := (hk' rfl).trans (Tracees.setStatus_status hsees.thread)
    obtain ⟨hstatus, -⟩ | hkilled := hat
    · rw [hstatus] at hmsg
      have ha : a = some child := by
        cases stop with
        | clone c => exact hmsg.trans hchild
        | fork c => exact hmsg.trans hchild
        | vfork c => exact hmsg.trans hchild
        | _ => exact nomatch hchild
      rw [ha]
      exact hsome k' hk
    · obtain ⟨death, hdead⟩ := hkilled.dead
      rw [hdead] at hmsg
      obtain rfl : a = none := hmsg
      exact hnone k' hquiet

omit [IntervalTree T Nat State] in
theorem pending_swapRemove (hnodup : pending.Nodup) (hmem : child ∈ pending) :
    ∃ j, (pending.findIdx? fun p => p == child) = some j ∧ (pending.swapRemove j).Nodup ∧
      ∀ q, q ∈ pending.swapRemove j ↔ q ∈ pending ∧ q ≠ child := by
  obtain ⟨l, p, r, rfl, hfind, hp⟩ :=
    @List.findIdx?_split _ (fun p => p == child) pending ⟨child, hmem, by simp⟩
  obtain rfl : p = child := by simpa using hp
  have hperm := List.swapRemove_perm l r p
  obtain ⟨hnotin, hrest⟩ := List.nodup_cons.mp (List.perm_middle.nodup_iff.mp hnodup)
  refine ⟨l.length, hfind, hperm.nodup_iff.mpr hrest, fun q => ?_⟩
  rw [hperm.mem_iff, List.perm_middle.mem_iff, List.mem_cons]
  constructor
  · intro hq
    refine ⟨.inr hq, ?_⟩
    rintro rfl
    exact hnotin hq
  · rintro ⟨rfl | hq, hne⟩
    · exact absurd rfl hne
    · exact hq

omit [IntervalTree T Nat State] in
theorem calm_of_resting {pending : Prop} (h : status.Resting pending) (hreaped : status ≠ .reaped)
    (hpending : ¬ pending) :
    status.Calm ∧ ∀ stop regs pkru seen, status = .stopped stop regs pkru seen →
      stop.child? = none := by
  cases status with
  | stopped stop regs pkru seen =>
    obtain ⟨rfl, hseen⟩ := h
    refine ⟨⟨?_, trivial⟩, fun stop regs pkru seen heq => ?_⟩
    · cases seen with
      | false => rfl
      | true => exact absurd (hseen.mp rfl) hpending
    · cases heq
      rfl
  | dead death => exact ⟨trivial, fun _ _ _ _ heq => nomatch heq⟩
  | reaped => exact absurd rfl hreaped
  | _ => exact h.elim

omit [IntervalTree T Nat State] in
theorem resume_resting {pending : Prop} {sig : Nat} {a : Bool} (h : thc.status.Resting pending)
    (hreaped : thc.status ≠ .reaped)
    (hans : (k.view thc).Answers child (.resume (continueRequest .seccomp) child sig) a l) :
    l.past = k.past thc.process ∧ l.status.Calm ∧ (thc.status.Gone → l.status.Gone) ∧
      ∀ stop regs pkru seen, l.status = .stopped stop regs pkru seen → stop.child? = none := by
  cases hstatus : thc.status with
  | stopped stop regs pkru seen =>
    rw [hstatus] at h
    obtain ⟨rfl, -⟩ := h
    simp only [Tracees.view, hstatus] at hans
    obtain ⟨-, rfl⟩ := hans
    refine ⟨rfl, rfl, id, fun stop regs pkru seen heq => ?_⟩
    cases heq
  | dead death =>
    simp only [Tracees.view, hstatus] at hans
    obtain ⟨-, rfl⟩ := hans
    refine ⟨rfl, trivial, id, fun stop regs pkru seen heq => ?_⟩
    cases heq
  | reaped => exact absurd hstatus hreaped
  | running _ =>
    rw [hstatus] at h
    exact h.elim
  | calling _ _ _ =>
    rw [hstatus] at h
    exact h.elim

section

variable (hallowed : ∀ k m, allowed k m → k.Orderly m)

include hallowed

theorem wp_continuePending (hchild : stop.child? = some child)
    (h : Announces initial t i pid stop regs pkru child past k) :
    WpAmong initial allowed (continuePending .seccomp t child)
      (fun t' k => t'.maps = t.maps ∧
      Stands initial { t' with maps := recordChild t.maps i child stop } i pid stop regs pkru
        past k) k := by
  -- what the child is let do when it becomes known
  have hannounce : ∀ {k owner mapOf th thc status pending}, Sees initial t i pid owner mapOf th k →
    Birth k pid th.process stop child thc →
      owner child = none → (k.view th).At (.stopped stop regs pkru true) past →
      Run Serves initial past (mapOf th.process) →
      status.Calm → (thc.status.Gone → status.Gone) →
      (∀ stop regs pkru seen, status = .stopped stop regs pkru seen → stop.child? = none) →
      pending.Nodup →
      (∀ q, q ∈ pending ↔ q ∈ t.pending ∧ q ≠ child) →
      Stands initial { t with maps := recordChild t.maps i child stop, pending } i pid stop regs
      pkru past (k.setStatus child thc status) := by
    intro k owner mapOf th thc status pending hsees hbirth hunknown hat hrun hcalm hgone hchildless
      hnodup hpending
    have hpast : k.past th.process = past := hat.past_eq
    have hrun' : Run Serves initial (k.past th.process) (mapOf th.process) := hpast.symm ▸ hrun
    obtain ⟨owner', mapOf', hsees', hmap⟩ :=
      hsees.announce hbirth hchild hunknown hrun' hcalm hgone hchildless hnodup hpending
    exact ⟨owner', mapOf', th, hsees', hat, hmap ▸ hrun⟩
  have hpending : t.pending.Nodup := by
    obtain ⟨_, _, _, _, hsees, -⟩ := h
    exact hsees.traced.pending.1
  unfold continuePending
  by_cases hmem : child ∈ t.pending
  · obtain ⟨j, hj, hnodup, hrest⟩ := pending_swapRemove hpending hmem
    simp only [hj]
    rw [resume_bind]
    apply Wp.ask_of_stable (Announces initial t i pid stop regs pkru child past) _ _ _ h
    · rintro k k' hk ⟨m, hm, hmove⟩
      exact hk.move (hallowed k m hm) hmove
    · exact fun k hk => hk.stands.quiet.safe
    · rintro k a k' ⟨owner, mapOf, th, thc, hsees, hbirth, hunknown, hat, hrun⟩ hans
      have hresting := hsees.traced.unknown child thc hbirth.thread hunknown
      simp only [Tracees.world, Tracees.Answers, Request.target, Tracees.AnswersFor, hbirth.thread]
        at hans
      obtain ⟨l, hl, rfl⟩ := hans
      obtain ⟨hpast, hcalm, hgone, hchildless⟩ := resume_resting hresting hbirth.parked.2 hl
      rw [Tracees.put_eq_setStatus hpast]
      exact ⟨rfl, hannounce hsees hbirth hunknown hat hrun hcalm hgone hchildless hnodup hrest⟩
  · have hnone : (t.pending.findIdx? fun p => p == child) = none := by
      rw [List.findIdx?_eq_none_iff]
      intro p hp
      exact beq_false_of_ne fun heq => hmem (heq ▸ hp)
    simp only [hnone]
    obtain ⟨owner, mapOf, th, thc, hsees, hbirth, hunknown, hat, hrun⟩ := h
    have hresting := hsees.traced.unknown child thc hbirth.thread hunknown
    obtain ⟨hcalm, hchildless⟩ := calm_of_resting hresting hbirth.parked.2 hmem
    have hstands := hannounce hsees hbirth hunknown hat hrun hcalm id hchildless
      hpending fun q => by
      constructor
      · exact fun hq => ⟨hq, fun heq => hmem (heq ▸ hq)⟩
      · exact fun hq => hq.1
    rw [Tracees.setStatus_status hbirth.thread] at hstands
    exact ⟨rfl, hstands⟩

theorem Stands.wp_syscallEntry (hstop : stop = .clone child ∨ stop = .fork child)
    (hfits : stop.Fits regs) (h : Stands initial t i pid stop regs pkru past k) :
    WpAmong initial allowed (syscallEntry .seccomp t i pid)
      (Rounds initial) k := by
  obtain ⟨owner, mapOf, th, hsees, hat, hrun⟩ := h
  obtain ⟨e, he, hmap⟩ := hsees.map_eq
  have hcall : ∃ call, regs.call = some call ∧ call.syscall.spawns := by
    obtain rfl | rfl := hstop <;> exact hfits
  obtain ⟨call, hcall, hspawns⟩ := hcall
  have hready : EntryReady initial e.map (k.view th) := by
    obtain ⟨hstatus, hpast⟩ | hkilled := hat
    · exact .spawned child hstop hstatus hcall hspawns (by rw [hpast, hmap]; exact hrun)
    · exact .lost (hkilled.lost (.recorded hrun))
  exact wp_settled hallowed hsees (Ia2.Tracer.wp_syscallEntry he hready)

theorem wp_handleClone (hfits : (Stop.clone child).Fits regs)
    (h : Announces initial t i pid (.clone child) regs pkru child past k) :
    WpAmong initial allowed
      (handleTrap .seccomp t i pid .ptraceClone) (Rounds initial) k := by
  apply wp_getEventMsg hallowed rfl h
  · intro k hk
    apply Wp.bind
    apply (wp_continuePending hallowed rfl hk).mono
    rintro t' k ⟨hmaps, hstands⟩
    rw [hmaps]
    exact hstands.wp_syscallEntry hallowed (.inl rfl) hfits
  · exact fun k hk => hk

theorem wp_handleFork (hfits : (Stop.fork child).Fits regs)
    (h : Announces initial t i pid (.fork child) regs pkru child past k) :
    WpAmong initial allowed (handleTrap .seccomp t i pid .ptraceFork)
      (Rounds initial) k := by
  obtain ⟨e, he⟩ : ∃ e, t.maps[i]? = some e := by
    obtain ⟨_, _, _, _, hsees, -⟩ := h
    obtain ⟨e, he, -⟩ := hsees.map_eq
    exact ⟨e, he⟩
  apply wp_getEventMsg hallowed rfl h
  · intro k hk
    apply Wp.bind
    apply (wp_continuePending hallowed rfl hk).mono
    rintro t' k ⟨hmaps, hstands⟩
    have hrecord : recordChild t.maps i child (.fork child) =
      addMap t.maps (forProcessNew e.map child) := by simp only [recordChild, he]
    rw [hrecord] at hstands
    simp only [hmaps, he]
    exact hstands.wp_syscallEntry hallowed (.inr rfl) hfits
  · exact fun k hk => hk

end

end Children

end Ia2.Tracer
