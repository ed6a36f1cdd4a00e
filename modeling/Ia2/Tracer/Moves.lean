import Ia2.Tracer.OneThread

/-!
# What the threads do

What one move of a thread does to the others, as far as the tracer is concerned: the threads that
there are go on to be threads of the same process (`Persist`), and a thread that has just been
created waits, with its parent, for the tracer to hear of it (`Birth`). The lemmas here say nothing
of the tracer and its maps.
-/

namespace Ia2.Tracer

open Relation (ReflTransGen)

def Stop.child? : Stop → Option Pid
  | .clone child | .fork child | .vfork child => some child
  | _ => none

structure Birth (k : Tracees) (pid : Pid) (process : Nat) (stop : Stop) (child : Pid)
    (th : Thread) : Prop where
  parent : ∃ parent, k.threads pid = some parent ∧ parent.process = process ∧ parent.status.Parked
  thread : k.threads child = some th
  parent_eq : th.parent = some pid
  parked : th.status.Parked ∧ th.status ≠ .reaped
  cloned : stop = .clone child → th.process = process
  forked : stop ≠ .clone child →
    (∀ q th', k.threads q = some th' → th'.process = th.process → q = child) ∧
    k.past th.process = k.past process ∧ k.Alone pid process

section Threads

variable {k k' : Tracees} {pid child : Pid} {th thc : Thread} {status : Status} {stop : Stop}
  {n : Nat} {l : Local}

/-! ### One thread changes -/

theorem Tracees.setStatus_self (k : Tracees) (pid : Pid) (th : Thread) (status : Status) :
    (k.setStatus pid th status).threads pid = some { th with status } :=
  Function.update_self ..

variable {q group : Pid} {call : UserRegs} {pkru : UInt32} {process : Nat} {death : Death}
  {th' : Thread} {traced : Bool} {sysno : Sysno} {l' : Local} {op : Request}

theorem Tracees.setStatus_of_ne (h : q ≠ pid) :
    (k.setStatus pid th status).threads q = k.threads q :=
  Function.update_of_ne h ..

theorem Tracees.setStatus_some (hq : (k.setStatus pid th status).threads q = some th') :
    (q = pid ∧ th' = { th with status }) ∨ (q ≠ pid ∧ k.threads q = some th') := by
  by_cases hqp : q = pid
  · subst hqp
    exact .inl ⟨rfl, (Option.some.inj ((Tracees.setStatus_self ..).symm.trans hq)).symm⟩
  · exact .inr ⟨hqp, (Tracees.setStatus_of_ne hqp).symm.trans hq⟩

theorem Tracees.setStatus_status (hth : k.threads pid = some th) :
    k.setStatus pid th th.status = k := by
  have hthreads : Function.update k.threads pid (some th) = k.threads := by
    rw [← hth]
    exact Function.update_eq_self ..
  unfold Tracees.setStatus
  rw [hthreads]

theorem Tracees.put_eq_setStatus (hpast : l.past = k.past th.process) :
    k.put pid th l = k.setStatus pid th l.status := by
  unfold Tracees.put
  rw [hpast, Function.update_eq_self]
  rfl

theorem Tracees.view_put (hkilled : l.killed = k.killed th.process) :
    (k.put pid th l).view { th with status := l.status } = l := by
  obtain ⟨status, past, killed⟩ := l
  obtain rfl : killed = k.killed th.process := hkilled
  exact congrArg (fun past => Local.mk status past (k.killed th.process)) (Function.update_self ..)

def Persist (k k' : Tracees) : Prop :=
  ∀ q th, k.threads q = some th →
    ∃ th', k'.threads q = some th' ∧ th'.process = th.process ∧ th'.parent = th.parent ∧
    (th.status.Gone → th'.status.Gone)

theorem persist_setStatus (hth : k.threads pid = some th) (hgone : th.status.Gone → status.Gone) :
    Persist k (k.setStatus pid th status) := by
  intro q th' hq
  by_cases hqp : q = pid
  · subst hqp
    obtain rfl := Option.some.inj (hth.symm.trans hq)
    exact ⟨_, Tracees.setStatus_self .., rfl, rfl, hgone⟩
  · exact ⟨th', (Tracees.setStatus_of_ne hqp).trans hq, rfl, rfl, id⟩

/-! ### Memories and groups -/

/-- Two threads run in one memory exactly if they are in one group. -/
structure Coherent (k : Tracees) : Prop where
  leader : ∀ q th, k.threads q = some th → k.threads th.group ≠ none
  same : ∀ q q' th th', k.threads q = some th → k.threads q' = some th' →
    (th.process = th'.process ↔ th.group = th'.group)

def Thread.Known (k : Tracees) (th' : Thread) : Prop :=
  ∃ q th, k.threads q = some th ∧ th'.process = th.process ∧ th'.group = th.group

theorem Coherent.of_known (h : Coherent k)
    (hpersist : ∀ q, k.threads q ≠ none → k'.threads q ≠ none)
    (hknown : ∀ q th', k'.threads q = some th' → th'.Known k) : Coherent k' := by
  constructor
  · intro q th' hq
    obtain ⟨q₀, th, hth, -, hgroup⟩ := hknown q th' hq
    rw [hgroup]
    exact hpersist _ (h.leader q₀ th hth)
  · intro q q' th₁ th₂ hq hq'
    obtain ⟨p₁, th₁', hth₁, hprocess₁, hgroup₁⟩ := hknown q th₁ hq
    obtain ⟨p₂, th₂', hth₂, hprocess₂, hgroup₂⟩ := hknown q' th₂ hq'
    rw [hprocess₁, hprocess₂, hgroup₁, hgroup₂]
    exact h.same p₁ p₂ th₁' th₂' hth₁ hth₂

theorem Persist.ne_none (h : Persist k k') (q : Pid) (hq : k.threads q ≠ none) :
    k'.threads q ≠ none := by
  obtain ⟨th, hth⟩ := Option.ne_none_iff_exists'.mp hq
  obtain ⟨th', hth', -⟩ := h q th hth
  simp [hth']

theorem Coherent.setStatus (h : Coherent k) (hth : k.threads pid = some th)
    (hgone : th.status.Gone → status.Gone) : Coherent (k.setStatus pid th status) := by
  apply h.of_known (persist_setStatus hth hgone).ne_none
  intro q th' hq
  obtain ⟨rfl, rfl⟩ | ⟨-, hq⟩ := Tracees.setStatus_some hq
  · exact ⟨q, th, hth, rfl, rfl⟩
  · exact ⟨q, th', hq, rfl, rfl⟩

theorem Coherent.congr (h : Coherent k) (hthreads : k'.threads = k.threads) : Coherent k' := by
  apply h.of_known
  · intro q hq
    rw [hthreads]
    exact hq
  · intro q th hq
    exact ⟨q, th, hthreads ▸ hq, rfl, rfl⟩

/-! ### Births -/

theorem Birth.persist (h : Birth k pid n stop child thc) (hpersist : Persist k k')
    (hpid : ∀ th', k'.threads pid = some th' → th'.status.Parked)
    (hchild : ∀ th', k'.threads child = some th' → th'.status.Parked ∧ th'.status ≠ .reaped)
    (hforked : stop ≠ .clone child → k'.past n = k.past n ∧
      k'.past thc.process = k.past thc.process ∧
      ∀ q th', k'.threads q = some th' → k.threads q = none →
        th'.process ≠ n ∧ th'.process ≠ thc.process) :
    ∃ thc', Birth k' pid n stop child thc' := by
  obtain ⟨parent, hparent, hn, -⟩ := h.parent
  obtain ⟨parent', hparent', hn', -⟩ := hpersist pid parent hparent
  obtain ⟨thc', hthread, hprocess, hparentc, -⟩ := hpersist child thc h.thread
  refine ⟨thc', ⟨parent', hparent', hn'.trans hn, hpid parent' hparent'⟩, hthread,
    hparentc.trans h.parent_eq, hchild thc' hthread,
    fun hstop => hprocess.trans (h.cloned hstop), fun hstop => ?_⟩
  obtain ⟨honly, hsame, halone⟩ := h.forked hstop
  obtain ⟨hpast, hpastc, hnew⟩ := hforked hstop
  -- a thread of one of the two processes was there before
  have hold : ∀ q th', k'.threads q = some th' → th'.process = n ∨ th'.process = thc.process →
      ∃ th, k.threads q = some th ∧ th'.process = th.process ∧
      (th.status.Gone → th'.status.Gone) := by
    intro q th' hq hn
    cases hth : k.threads q with
    | none => exact absurd hn (not_or.mpr (hnew q th' hq hth))
    | some th =>
      obtain ⟨th'', hq'', hprocess', -, hgone⟩ := hpersist q th hth
      obtain rfl := Option.some.inj (hq.symm.trans hq'')
      exact ⟨th, rfl, hprocess', hgone⟩
  refine ⟨fun q th' hq hn => ?_, ?_, fun q th' hne hq hn => ?_⟩
  · obtain ⟨th, hth, heq, -⟩ := hold q th' hq (.inr (hn.trans hprocess))
    exact honly q th hth (heq.symm.trans (hn.trans hprocess))
  · rw [hprocess, hpast, hpastc, hsame]
  · obtain ⟨th, hth, heq, hgone⟩ := hold q th' hq (.inl hn)
    exact hgone (halone q th hne hth (heq.symm.trans hn))

theorem Birth.setStatus {q' : Pid} (h : Birth k q n stop child thc) (hth : k.threads q' = some th)
    (hgone : th.status.Gone → status.Gone) (hparent : q = q' → status.Parked)
    (hchild : child = q' → status.Parked ∧ status ≠ .reaped) :
    ∃ thc', Birth (k.setStatus q' th status) q n stop child thc' := by
  apply h.persist (persist_setStatus hth hgone)
  · intro th' hth'
    obtain ⟨rfl, rfl⟩ | ⟨-, hth'⟩ := Tracees.setStatus_some hth'
    · exact hparent rfl
    · obtain ⟨parent, hthread, -, hparked⟩ := h.parent
      obtain rfl := Option.some.inj (hth'.symm.trans hthread)
      exact hparked
  · intro th' hth'
    obtain ⟨rfl, rfl⟩ | ⟨-, hth'⟩ := Tracees.setStatus_some hth'
    · exact hchild rfl
    · obtain rfl := Option.some.inj (hth'.symm.trans h.thread)
      exact h.parked
  · refine fun _ => ⟨rfl, rfl, fun p th' hp hnone => ?_⟩
    obtain ⟨rfl, -⟩ | ⟨-, hp⟩ := Tracees.setStatus_some hp
    · exact absurd (hth.symm.trans hnone) nofun
    · exact absurd (hp.symm.trans hnone) nofun

theorem Birth.put (h : Birth k q n stop child thc) (hth : k.threads pid = some th) (hqp : q ≠ pid)
    (hcp : child ≠ pid) (hgone : th.status.Gone → l.status.Gone ∧ l.past = k.past th.process) :
    ∃ thc', Birth (k.put pid th l) q n stop child thc' := by
  have hothers : ∀ {q}, q ≠ pid → (k.put pid th l).threads q = k.threads q :=
    fun hq => Tracees.setStatus_of_ne hq
  have hpersist : Persist k (k.put pid th l) := persist_setStatus hth fun hg => (hgone hg).1
  obtain ⟨parent, hparent, -, hparked⟩ := h.parent
  apply h.persist hpersist
  · intro th' hth'
    obtain rfl := Option.some.inj (((hothers hqp).symm.trans hth').symm.trans hparent)
    exact hparked
  · intro th' hth'
    obtain rfl := Option.some.inj (((hothers hcp).symm.trans hth').symm.trans h.thread)
    exact h.parked
  · intro hfork
    obtain ⟨honly, -, halone⟩ := h.forked hfork
    refine ⟨?_, ?_, fun q' th' hq' hnone => ?_⟩
    · by_cases hsame : n = th.process
      · rw [hsame]
        exact (Function.update_self ..).trans (hgone (halone pid th (Ne.symm hqp) hth hsame.symm)).2
      · exact Function.update_of_ne hsame ..
    · apply Function.update_of_ne
      exact fun hsame => hcp (honly pid th hth hsame.symm).symm
    · obtain ⟨rfl, -⟩ | ⟨-, hq'⟩ := Tracees.setStatus_some hq'
      · exact absurd (hth.symm.trans hnone) nofun
      · exact absurd (hq'.symm.trans hnone) nofun

/-! ### A thread is created -/

theorem Tracees.addChild_self (k : Tracees) (pid child : Pid) (process : Nat) (group : Pid)
    (call : UserRegs) (pkru : UInt32) :
    (k.addChild pid child process group call pkru).threads child =
      some ⟨process, group, some pid, .stopped .attached ⟨some call, 0⟩ pkru false⟩ :=
  Function.update_self ..

theorem Tracees.addChild_of_ne (h : q ≠ child) :
    (k.addChild pid child process group call pkru).threads q = k.threads q :=
  Function.update_of_ne h ..

structure Spawns (k : Tracees) (pid child : Pid) (th : Thread) (call : UserRegs) (pkru : UInt32)
    (stop : Stop) (process : Nat) (group : Pid) (k' : Tracees) : Prop where
  child_eq : stop.child? = some child
  fresh : k.threads child = none
  positive : 0 < child
  threads_eq :
    k'.threads = ((k.setStatus pid th (.stopped stop ⟨some call, ENOSYS⟩ pkru false)).addChild
    pid child process group call pkru).threads
  cloned : stop = .clone child →
    process = th.process ∧ group = th.group ∧ k'.past = k.past ∧ k'.killed = k.killed
  forked : stop ≠ .clone child → group = child ∧ k.Fresh process ∧
    k'.past = Function.update k.past process (k.past th.process) ∧
    k'.killed = Function.update k.killed process false ∧ k.Alone pid th.process

namespace Spawns

variable {call : UserRegs} {pkru : UInt32} {process : Nat} {group : Pid}

section

variable (h : Spawns k pid child th call pkru stop process group k')

include h

theorem cases_of_some (hq : k'.threads q = some th') :
    (q = child ∧ th' = ⟨process, group, some pid, .stopped .attached ⟨some call, 0⟩ pkru false⟩) ∨
      (q = pid ∧ th' = { th with status := .stopped stop ⟨some call, ENOSYS⟩ pkru false }) ∨
        (q ≠ pid ∧ k.threads q = some th') := by
  rw [h.threads_eq] at hq
  by_cases hqc : q = child
  · subst hqc
    exact .inl ⟨rfl, (Option.some.inj ((Tracees.addChild_self ..).symm.trans hq)).symm⟩
  · exact .inr (Tracees.setStatus_some ((Tracees.addChild_of_ne hqc).symm.trans hq))

theorem child_some :
    k'.threads child = some ⟨process, group, some pid,
      .stopped .attached ⟨some call, 0⟩ pkru false⟩ := by
  rw [h.threads_eq]
  exact Tracees.addChild_self ..

theorem persist (hth : k.threads pid = some th) (hgone : ¬ th.status.Gone) :
    Persist k k' := by
  intro q th' hq
  have hqc : q ≠ child := by
    rintro rfl
    exact absurd (hq.symm.trans h.fresh) nofun
  obtain ⟨th'', hth'', hrest⟩ := persist_setStatus hth (absurd · hgone) q th' hq
  refine ⟨th'', ?_, hrest⟩
  rw [h.threads_eq]
  exact (Tracees.addChild_of_ne hqc).trans hth''

theorem process_eq (hq : k.threads q = some th') :
    k'.past th'.process = k.past th'.process ∧ k'.killed th'.process = k.killed th'.process := by
  by_cases hstop : stop = .clone child
  · obtain ⟨-, -, hpast, hkilled⟩ := h.cloned hstop
    rw [hpast, hkilled]
    exact ⟨rfl, rfl⟩
  · obtain ⟨-, hfresh, hpast, hkilled, -⟩ := h.forked hstop
    have hne := hfresh q th' hq
    rw [hpast, hkilled, Function.update_of_ne hne, Function.update_of_ne hne]
    exact ⟨rfl, rfl⟩

theorem past_cases (n : Nat) :
    k'.past n = k.past n ∨ k'.past n = k.past th.process := by
  by_cases hstop : stop = .clone child
  · exact .inl (by rw [(h.cloned hstop).2.2.1])
  · rw [(h.forked hstop).2.2.1]
    by_cases hn : n = process
    · exact .inr (hn ▸ Function.update_self ..)
    · exact .inl (Function.update_of_ne hn ..)

end

end Spawns

theorem Spawns.coherent (h : Spawns k pid child th call pkru stop process group k')
    (hcoherent : Coherent k) (hth : k.threads pid = some th) (hgone : ¬ th.status.Gone) :
    Coherent k' := by
  have hpersist := (h.persist hth hgone).ne_none
  have hold : ∀ {q th'}, q ≠ child → k'.threads q = some th' → th'.Known k := by
    intro q th' hqc hq
    obtain ⟨rfl, -⟩ | ⟨rfl, rfl⟩ | ⟨-, hq'⟩ := h.cases_of_some hq
    · exact absurd rfl hqc
    · exact ⟨q, th, hth, rfl, rfl⟩
    · exact ⟨q, th', hq', rfl, rfl⟩
  by_cases hstop : stop = .clone child
  · obtain ⟨hprocess, hgroup, -⟩ := h.cloned hstop
    apply hcoherent.of_known hpersist
    intro q th' hq
    by_cases hqc : q = child
    · subst hqc
      obtain rfl := Option.some.inj (h.child_some.symm.trans hq)
      exact ⟨pid, th, hth, hprocess, hgroup⟩
    · exact hold hqc hq
  · obtain ⟨hgroup, hfresh, -⟩ := h.forked hstop
    -- the id of the child has not been used for a group
    have hnew : ∀ {th' : Thread}, th'.Known k → th'.process ≠ process ∧ th'.group ≠ child := by
      rintro th' ⟨q, th₀, hth₀, hprocess, hgroup⟩
      refine ⟨hprocess ▸ hfresh q th₀ hth₀, fun heq => ?_⟩
      exact hcoherent.leader q th₀ hth₀ (hgroup ▸ heq ▸ h.fresh)
    have hchild : ∀ {th'}, k'.threads child = some th' →
        th'.process = process ∧ th'.group = child := by
      intro th' hq
      obtain rfl := Option.some.inj (h.child_some.symm.trans hq)
      exact ⟨rfl, hgroup⟩
    constructor
    · intro q th' hq
      by_cases hqc : q = child
      · subst hqc
        rw [(hchild hq).2, hq]
        exact nofun
      · obtain ⟨q₀, th₀, hth₀, -, hgroup'⟩ := hold hqc hq
        rw [hgroup']
        exact hpersist _ (hcoherent.leader q₀ th₀ hth₀)
    · intro q q' th₁ th₂ hq hq'
      by_cases hqc : q = child
      · subst hqc
        rw [(hchild hq).1, (hchild hq).2]
        by_cases hqc' : q' = q
        · subst hqc'
          rw [(hchild hq').1, (hchild hq').2]
          exact iff_of_true rfl rfl
        · obtain ⟨hprocess, hgroup'⟩ := hnew (hold hqc' hq')
          exact iff_of_false hprocess.symm hgroup'.symm
      · obtain ⟨q₀, th₀, hth₀, hprocess, hgroup'⟩ := hold hqc hq
        by_cases hqc' : q' = child
        · subst hqc'
          obtain ⟨hne, hne'⟩ := hnew (hold hqc hq)
          rw [(hchild hq').1, (hchild hq').2]
          exact iff_of_false hne hne'
        · obtain ⟨q₁, th₁', hth₁, hprocess₁, hgroup₁⟩ := hold hqc' hq'
          rw [hprocess, hgroup', hprocess₁, hgroup₁]
          exact hcoherent.same q₀ q₁ th₀ th₁' hth₀ hth₁

theorem Tracees.Moves.spawns {args : CloneArgs}
    (horderly : k.Orderly (.spawn pid child process args))
    (h : k.Moves (.spawn pid child process args) k') : ∃ th call pkru traced stop group,
      k.threads pid = some th ∧ th.status = .calling call pkru traced ∧ call.syscall.spawns ∧
      Spawns k pid child th call pkru stop process group k' := by
  obtain ⟨⟨huntraced, hthread, hvm⟩, hnone, halone⟩ := horderly
  obtain ⟨th, call, pkru, traced, hth, hstatus, hspawns, -, -, hpos, hprocess, rfl⟩ := h
  have hattaches : args.attaches = true := by simp [CloneArgs.attaches, huntraced]
  cases hshared : args.vm with
  | true =>
    obtain ⟨hvfork, hsignal⟩ := hvm.mp hshared
    have hevent : args.event child = some (.clone child) := by
      simp [CloneArgs.event, huntraced, hvfork, hsignal]
    refine ⟨th, call, pkru, traced, .clone child, th.group, hth, hstatus, hspawns, ?_⟩
    rw [if_pos hshared] at hprocess
    simp only [Tracees.spawn, hevent, hshared, hthread, hattaches, if_true]
    exact ⟨rfl, hnone, hpos, rfl, fun _ => ⟨hprocess, rfl, rfl, rfl⟩, fun hne => absurd rfl hne⟩
  | false =>
    obtain ⟨stop, hevent, hchild, hstop⟩ : ∃ stop, args.event child = some stop ∧
        stop.child? = some child ∧ stop ≠ .clone child := by
      cases hvfork : args.has CLONE_VFORK with
      | true => exact ⟨.vfork child, by simp [CloneArgs.event, huntraced, hvfork], rfl, nofun⟩
      | false =>
        have hsignal : args.exitSignal.toNat = SIGCHLD := by
          by_contra hsignal
          exact absurd (hshared.symm.trans (hvm.mpr ⟨hvfork, hsignal⟩)) nofun
        exact ⟨.fork child, by simp [CloneArgs.event, huntraced, hvfork, hsignal], rfl, nofun⟩
    refine ⟨th, call, pkru, traced, stop, child, hth, hstatus, hspawns, ?_⟩
    rw [hshared, if_neg Bool.false_ne_true] at hprocess
    simp only [Tracees.spawn, hevent, hshared, hthread, hattaches, if_true, Bool.false_eq_true,
      if_false]
    refine ⟨hchild, hnone, hpos, rfl, fun heq => absurd heq hstop, fun _ => ?_⟩
    exact ⟨rfl, hprocess, rfl, rfl, halone hshared th hth⟩

theorem Spawns.birth (h : Spawns k pid child th call pkru stop process group k')
    (hth : k.threads pid = some th) :
    ∃ thc, Birth k' pid th.process stop child thc := by
  have hpid : ∃ parent, k'.threads pid = some parent ∧ parent.process = th.process ∧
      parent.status.Parked := by
    have hpc : pid ≠ child := by
      rintro rfl
      exact absurd (hth.symm.trans h.fresh) nofun
    refine ⟨{ th with status := .stopped stop ⟨some call, ENOSYS⟩ pkru false }, ?_, rfl, trivial⟩
    rw [h.threads_eq, Tracees.addChild_of_ne hpc]
    exact Tracees.setStatus_self ..
  refine ⟨_, hpid, h.child_some, rfl, ⟨trivial, nofun⟩, fun hstop => (h.cloned hstop).1,
    fun hstop => ?_⟩
  obtain ⟨-, hfresh, hpast, -, halone⟩ := h.forked hstop
  refine ⟨fun q th' hq hn => ?_, ?_, fun q th' hne hq hn => ?_⟩
  · obtain ⟨rfl, -⟩ | ⟨rfl, rfl⟩ | ⟨-, hold⟩ := h.cases_of_some hq
    · rfl
    · exact absurd hn (hfresh q th hth)
    · exact absurd hn (hfresh q th' hold)
  · rw [hpast, Function.update_self, Function.update_of_ne (hfresh pid th hth)]
  · obtain ⟨rfl, rfl⟩ | ⟨rfl, -⟩ | ⟨-, hold⟩ := h.cases_of_some hq
    · exact absurd hn.symm (hfresh pid th hth)
    · exact absurd rfl hne
    · exact halone q th' hne hold hn

/-! ### A process ends -/

def Tracees.killProcess (k : Tracees) (process : Nat) (death : Death) : Tracees :=
  { k with
    threads := fun pid => (k.threads pid).map fun th =>
      if th.process = process then { th with status := th.status.die death } else th
    killed := Function.update k.killed process true }

theorem Coherent.killGroup (h : Coherent k) (hth : k.threads pid = some th) (death : Death) :
    k.killGroup th.group th.process death = k.killProcess th.process death := by
  have hthreads : ∀ q, (k.threads q).map (fun th' =>
      if th'.group = th.group then { th' with status := th'.status.die death } else th') =
      (k.threads q).map fun th' =>
        if th'.process = th.process then { th' with status := th'.status.die death } else th' := by
    intro q
    apply Option.map_congr
    intro th' hq
    simp only [h.same q pid th' th hq hth]
  simp only [Tracees.killGroup, Tracees.killProcess, hthreads]

theorem Status.die_of_gone (h : status.Gone) : status.die death = status := by
  cases status with
  | dead _ => rfl
  | reaped => rfl
  | _ => exact h.elim

theorem Coherent.replace (h : Coherent k) (hth : k.threads pid = some th) (hgroup : th.group = pid)
    (halone : k.Alone pid th.process) (call : UserRegs) (pkru : UInt32) :
    k.replace pid th th.process call pkru =
      k.setStatus pid th (.stopped .exec ⟨some call, ENOSYS⟩ pkru false) := by
  simp only [Tracees.replace, if_true, Tracees.setStatus]
  congr 1
  funext q
  by_cases hqp : q = pid
  · subst hqp
    rw [if_pos hgroup.symm, Function.update_self]
  · rw [if_neg (hgroup ▸ hqp), if_neg hqp, Function.update_of_ne hqp]
    cases hq : k.threads q with
    | none => rfl
    | some th' =>
      refine congrArg some ?_
      beta_reduce
      split
      · rename_i hsame
        have hgone := halone q th' hqp hq ((h.same q pid th' th hq hth).mpr hsame)
        rw [Status.die_of_gone hgone]
      · rfl

theorem Coherent.not_shared (h : Coherent k) (hth : k.threads pid = some th) : ¬ k.Shared th := by
  rintro ⟨q, th', hq, hprocess, hgroup⟩
  exact hgroup ((h.same q pid th' th hq hth).mp hprocess)

theorem Status.Gone.die : (status.die death).Gone := by
  cases status <;> trivial

theorem Status.die_ne_reaped (h : status ≠ .reaped) :
    status.die death ≠ .reaped := by
  cases status with
  | reaped => exact absurd rfl h
  | _ => exact nofun

theorem Tracees.killProcess_some (hq : (k.killProcess process death).threads q = some th') :
    ∃ th, k.threads q = some th ∧ th'.process = th.process ∧
      th'.parent = th.parent ∧ ((th.process = process ∧ th'.status = th.status.die death) ∨
        (th.process ≠ process ∧ th' = th)) := by
  obtain ⟨th, hth, rfl⟩ := Option.map_eq_some_iff.mp hq
  by_cases hn : th.process = process
  · exact ⟨th, hth, by simp [hn], by simp [hn], .inl ⟨hn, by simp [hn]⟩⟩
  · exact ⟨th, hth, by simp [hn], by simp [hn], .inr ⟨hn, by simp [hn]⟩⟩

theorem persist_killProcess (k : Tracees) (process : Nat) (death : Death) :
    Persist k (k.killProcess process death) := by
  intro q th hq
  have hnew : (k.killProcess process death).threads q =
      some (if th.process = process then { th with status := th.status.die death } else th) :=
    Option.map_eq_some_iff.mpr ⟨th, hq, rfl⟩
  refine ⟨_, hnew, ?_⟩
  split
  · exact ⟨rfl, rfl, fun _ => Status.Gone.die⟩
  · exact ⟨rfl, rfl, id⟩

theorem Coherent.killProcess (h : Coherent k) (process : Nat) (death : Death) :
    Coherent (k.killProcess process death) := by
  apply h.of_known (persist_killProcess k process death).ne_none
  intro q th' hq
  obtain ⟨th, hth, rfl⟩ := Option.map_eq_some_iff.mp hq
  refine ⟨q, th, hth, ?_⟩
  split
  · exact ⟨rfl, rfl⟩
  · exact ⟨rfl, rfl⟩

theorem Birth.kill (h : Birth k pid n stop child thc) (process : Nat) (death : Death) :
    ∃ thc', Birth (k.killProcess process death) pid n stop child thc' := by
  apply h.persist (persist_killProcess k process death)
  · intro th' hth'
    obtain ⟨th, hth, -, -, hstatus⟩ := Tracees.killProcess_some hth'
    obtain ⟨parent, hparent, -, hparked⟩ := h.parent
    obtain rfl := Option.some.inj (hth.symm.trans hparent)
    obtain ⟨-, heq⟩ | ⟨-, rfl⟩ := hstatus
    · exact heq ▸ Status.Gone.die.parked
    · exact hparked
  · intro th' hth'
    obtain ⟨th, hth, -, -, hstatus⟩ := Tracees.killProcess_some hth'
    obtain rfl := Option.some.inj (hth.symm.trans h.thread)
    obtain ⟨-, heq⟩ | ⟨-, rfl⟩ := hstatus
    · exact heq ▸ ⟨Status.Gone.die.parked, Status.die_ne_reaped h.parked.2⟩
    · exact h.parked
  · refine fun _ => ⟨rfl, rfl, fun q th' hq hnone => ?_⟩
    obtain ⟨th, hth, -⟩ := Tracees.killProcess_some hq
    exact absurd (hth.symm.trans hnone) nofun

/-! ### Births go on -/

structure Advances (k : Tracees) (q : Pid) (th : Thread) (k' : Tracees) : Prop where
  thread : k.threads q = some th
  busy : ¬ th.status.Parked
  persist : Persist k k'
  others : ∀ q' th', q' ≠ q → k.threads q' = some th' → k'.threads q' = some th'
  fresh : ∀ q' th', k'.threads q' = some th' → k.threads q' = none →
    th'.process = th.process ∨ ∀ q th, k.threads q = some th → th.process ≠ th'.process
  past : ∀ q' th', k.threads q' = some th' → th'.process ≠ th.process →
    k'.past th'.process = k.past th'.process

theorem Advances.of_setStatus (hth : k.threads pid = some th) (hbusy : ¬ th.status.Parked)
    (hthreads : k'.threads = (k.setStatus pid th status).threads)
    (hpast : ∀ n, n ≠ th.process → k'.past n = k.past n) : Advances k pid th k' := by
  have hgone : ¬ th.status.Gone := fun hgone => hbusy hgone.parked
  constructor
  · exact hth
  · exact hbusy
  · intro q th' hq
    rw [hthreads]
    exact persist_setStatus hth (absurd · hgone) q th' hq
  · intro q th' hne hq
    rw [hthreads]
    exact (Tracees.setStatus_of_ne hne).trans hq
  · intro q th' hq hnone
    rw [hthreads] at hq
    obtain ⟨rfl, -⟩ | ⟨-, hq⟩ := Tracees.setStatus_some hq
    · exact absurd (hth.symm.trans hnone) nofun
    · exact absurd (hq.symm.trans hnone) nofun
  · intro _ th' _ hne
    exact hpast th'.process hne

theorem Spawns.advances (h : Spawns k pid child th call pkru stop process group k')
    (hth : k.threads pid = some th) (hbusy : ¬ th.status.Parked) : Advances k pid th k' := by
  constructor
  · exact hth
  · exact hbusy
  · exact h.persist hth fun hgone => hbusy hgone.parked
  · intro q th' hne hq
    have hqc : q ≠ child := by
      rintro rfl
      exact absurd (hq.symm.trans h.fresh) nofun
    rw [h.threads_eq, Tracees.addChild_of_ne hqc, Tracees.setStatus_of_ne hne]
    exact hq
  · intro q th' hq hnone
    obtain ⟨-, rfl⟩ | ⟨rfl, -⟩ | ⟨-, hold⟩ := h.cases_of_some hq
    · by_cases hstop : stop = .clone child
      · exact .inl (h.cloned hstop).1
      · exact .inr (h.forked hstop).2.1
    · exact absurd (hth.symm.trans hnone) nofun
    · exact absurd (hold.symm.trans hnone) nofun
  · intro q th' hq _
    exact (h.process_eq hq).1

theorem Birth.advance (h : Birth k pid n stop child thc) (hadvances : Advances k q th k') :
    ∃ thc', Birth k' pid n stop child thc' := by
  obtain ⟨parent, hparent, hn, hparked⟩ := h.parent
  have hqp : q ≠ pid := by
    rintro rfl
    obtain rfl := Option.some.inj (hparent.symm.trans hadvances.thread)
    exact hadvances.busy hparked
  have hqc : q ≠ child := by
    rintro rfl
    obtain rfl := Option.some.inj (h.thread.symm.trans hadvances.thread)
    exact hadvances.busy h.parked.1
  apply h.persist hadvances.persist
  · intro th' hth'
    obtain rfl :=
      Option.some.inj ((hadvances.others pid parent (Ne.symm hqp) hparent).symm.trans hth')
    exact hparked
  · intro th' hth'
    obtain rfl :=
      Option.some.inj ((hadvances.others child thc (Ne.symm hqc) h.thread).symm.trans hth')
    exact h.parked
  · intro hstop
    obtain ⟨honly, -, halone⟩ := h.forked hstop
    have hne : th.process ≠ n :=
      fun heq => hadvances.busy (halone q th hqp hadvances.thread heq).parked
    have hnec : th.process ≠ thc.process := fun heq => hqc (honly q th hadvances.thread heq)
    refine ⟨?_, hadvances.past child thc h.thread (Ne.symm hnec), fun q' th' hq' hnone => ?_⟩
    · rw [← hn] at hne ⊢
      exact hadvances.past pid parent hparent (Ne.symm hne)
    · obtain heq | hfresh := hadvances.fresh q' th' hq' hnone
      · exact ⟨heq ▸ hne, heq ▸ hnec⟩
      · exact ⟨hn ▸ (hfresh pid parent hparent).symm, (hfresh child thc h.thread).symm⟩

inductive Effect (k k' : Tracees) : Prop where
  | step {pid : Pid} {th : Thread} {status : Status} : k.threads pid = some th →
    ¬ th.status.Parked →
      k'.threads = (k.setStatus pid th status).threads →
      (∀ n, n ≠ th.process → k'.past n = k.past n) →
      (∀ stop regs pkru seen, status = .stopped stop regs pkru seen → stop.child? = none) →
      Effect k k'
  | spawn {pid child : Pid} {th : Thread} {call : UserRegs} {pkru : UInt32} {stop : Stop}
      {process : Nat} {group : Pid} : k.threads pid = some th →
      ¬ th.status.Parked → Spawns k pid child th call pkru stop process group k' → Effect k k'
  | kill (process : Nat) (death : Death) : k' = k.killProcess process death → Effect k k'

theorem Status.not_parked_of_running (h : status = .running traced) :
    ¬ status.Parked := by
  rw [h]
  exact id

theorem Status.not_parked_of_calling (h : status = .calling call pkru traced) :
    ¬ status.Parked := by
  rw [h]
  exact id

theorem Status.enter_childless (call : UserRegs) (pkru : UInt32) (traced : Bool) (stop : Stop)
    (regs : Regs) (pkru' : UInt32) (seen : Bool)
    (h : Status.enter call pkru traced = .stopped stop regs pkru' seen) : stop.child? = none := by
  unfold Status.enter at h
  split at h
  · cases h
    rfl
  · exact nomatch h

theorem Status.leave_childless (regs : Regs) (pkru : UInt32) (traced : Bool) (stop : Stop)
    (regs' : Regs) (pkru' : UInt32) (seen : Bool)
    (h : Status.leave regs pkru traced = .stopped stop regs' pkru' seen) : stop.child? = none := by
  unfold Status.leave at h
  split at h
  · cases h
    rfl
  · exact nomatch h

theorem Tracees.Moves.effect {m : Move} (hcoherent : Coherent k) (horderly : k.Orderly m)
    (hmove : k.Moves m k') : Effect k k' := by
  cases m with
  | call pid call pkru =>
    obtain ⟨th, traced, hth, hstatus, rfl⟩ := hmove
    apply Effect.step hth (Status.not_parked_of_running hstatus) rfl (fun _ _ => rfl)
    intro stop regs pkru' seen hstop
    split at hstop
    · cases hstop
      rfl
    · exact Status.enter_childless call pkru false stop regs pkru' seen hstop
  | run pid retval =>
    obtain ⟨th, call, pkru, traced, hth, hstatus, -, rfl⟩ := hmove
    apply Effect.step hth (Status.not_parked_of_calling hstatus)
    · rfl
    · exact fun n hn => Function.update_of_ne hn ..
    · exact Status.leave_childless _ _ _
  | spawn pid child process args =>
    obtain ⟨th, call, pkru, traced, stop, group, hth, hstatus, -, hspawn⟩ := hmove.spawns horderly
    exact .spawn hth (Status.not_parked_of_calling hstatus) hspawn
  | exec pid process pkru =>
    obtain ⟨th, call, pkru', traced, hth, hstatus, -, -, hsame, rfl⟩ := hmove
    obtain ⟨hgroup, halone⟩ := horderly th hth
    rw [hsame (hcoherent.not_shared hth), hcoherent.replace hth hgroup halone]
    apply Effect.step hth (Status.not_parked_of_calling hstatus)
    · rfl
    · exact fun _ _ => rfl
    · intro stop regs pkru'' seen hstop
      cases hstop
      rfl
  | stop pid stop regs pkru =>
    obtain ⟨th, traced, hth, hstatus, hinterrupts, rfl⟩ := hmove
    apply Effect.step hth (Status.not_parked_of_running hstatus) rfl (fun _ _ => rfl)
    intro stop' regs' pkru' seen hstop
    cases hstop
    cases stop with
    | signal _ => rfl
    | group _ => rfl
    | _ => exact hinterrupts.elim
  | exit pid code =>
    obtain ⟨th, call, pkru, traced, hth, hstatus, -, rfl⟩ := hmove
    apply Effect.step hth (Status.not_parked_of_calling hstatus) rfl (fun _ _ => rfl)
    intro stop regs pkru' seen hstop
    exact absurd hstop nofun
  | kill group death =>
    obtain ⟨q, th, hth, rfl, rfl⟩ := hmove
    exact .kill th.process death (hcoherent.killGroup hth death)

theorem Birth.effect (h : Birth k pid n stop child thc) (heffect : Effect k k') :
    ∃ thc', Birth k' pid n stop child thc' := by
  cases heffect with
  | step hth hbusy hthreads hpast _ => exact h.advance (.of_setStatus hth hbusy hthreads hpast)
  | spawn hth hbusy hspawn => exact h.advance (hspawn.advances hth hbusy)
  | kill process death hk' => exact hk' ▸ h.kill process death

theorem Effect.child_stop {regs : Regs} {seen : Bool} (h : Effect k k')
    (hq : k'.threads q = some th') (hstatus : th'.status = .stopped stop regs pkru seen)
    (hchild : stop.child? = some child) :
    k.threads q = some th' ∨ (k.threads child = none ∧ ∃ thc,
      Birth k' q th'.process stop child thc) := by
  cases h with
  | @step pid th status hth _ hthreads _ hchildless =>
    rw [hthreads] at hq
    obtain ⟨rfl, rfl⟩ | ⟨-, hq⟩ := Tracees.setStatus_some hq
    · exact absurd (hchild.symm.trans (hchildless stop regs pkru seen hstatus)) nofun
    · exact .inl hq
  | spawn hth _ hspawn =>
    obtain ⟨-, rfl⟩ | ⟨rfl, rfl⟩ | ⟨-, hold⟩ := hspawn.cases_of_some hq
    · cases hstatus
      exact absurd hchild nofun
    · cases hstatus
      obtain rfl := Option.some.inj (hspawn.child_eq.symm.trans hchild)
      exact .inr ⟨hspawn.fresh, hspawn.birth hth⟩
    · exact .inl hold
  | kill process death hk' =>
    subst hk'
    obtain ⟨th, hth, -, -, ⟨-, heq⟩ | ⟨-, rfl⟩⟩ := Tracees.killProcess_some hq
    · have hgone : th'.status.Gone := heq ▸ Status.Gone.die
      rw [hstatus] at hgone
      exact hgone.elim
    · exact .inl hth

/-! ### The thread that is dealt with -/

/-- A thread goes on as the thread by itself can. -/
def Follows (pid : Pid) (k k' : Tracees) : Prop :=
  ∀ th, k.threads pid = some th → ∃ th', k'.threads pid = some th' ∧ th'.process = th.process ∧
    ReflTransGen Local.Moves (k.view th) (k'.view th')

theorem follows_of_eq (hthreads : k'.threads pid = k.threads pid)
    (hprocess : ∀ th, k.threads pid = some th → k'.past th.process = k.past th.process ∧
      k'.killed th.process = k.killed th.process) :
    Follows pid k k' := by
  intro th hth
  obtain ⟨hpast, hkilled⟩ := hprocess th hth
  refine ⟨th, hthreads.trans hth, rfl, ?_⟩
  rw [Tracees.view, Tracees.view, hpast, hkilled]

/-- The thread that is dealt with does not run on its own. -/
def Holds (focus : Option Pid) (k : Tracees) : Prop :=
  ∀ p th, focus = some p → k.threads p = some th → (k.view th).Held

theorem Local.Held.running (h : l.Held) (hstatus : l.status = .running traced) : traced = true := by
  simpa [Local.Held, hstatus] using h

theorem Local.Held.calling (h : l.Held) (hstatus : l.status = .calling call pkru traced) :
    call.syscall.traced = true := by
  simpa [Local.Held, hstatus] using h

theorem Sysno.not_spawns_of_traced (h : sysno.traced = true) : ¬ sysno.spawns := by
  cases sysno <;> simp [Sysno.traced, Sysno.spawns] at h ⊢

theorem Sysno.not_execs_of_traced (h : sysno.traced = true) : ¬ sysno.execs := by
  cases sysno <;> simp [Sysno.traced, Sysno.execs] at h ⊢

theorem Local.of_moves {assertion : Local → Prop}
    (hstep : ∀ l l', assertion l → l.Moves l' → assertion l') (h : ReflTransGen Local.Moves l l')
    (hl : assertion l) : assertion l' := by
  induction h with
  | refl => exact hl
  | tail _ hmove ih => exact hstep _ _ ih hmove

/-- No request brings a thread back or forgets that its process was killed. -/
theorem Local.Answers.frame {a : op.Answer} (h : l.Answers pid op a l') :
    l'.killed = l.killed ∧ (l.status.Gone → l'.status.Gone ∧ l'.past = l.past) := by
  obtain ⟨status, past, killed⟩ := l
  have hsame : l' = ⟨status, past, killed⟩ → l'.killed = killed ∧
      (status.Gone → l'.status.Gone ∧ l'.past = past) := by
    rintro rfl
    exact ⟨rfl, fun hgone => ⟨hgone, rfl⟩⟩
  cases op with
  | waitpid _ =>
    cases status with
    | stopped stop regs pkru seen =>
      cases seen with
      | true => exact h.elim
      | false =>
        obtain ⟨-, rfl⟩ := h
        exact ⟨rfl, False.elim⟩
    | dead _ =>
      obtain ⟨-, rfl⟩ := h
      exact ⟨rfl, fun _ => ⟨trivial, rfl⟩⟩
    | reaped => exact hsame h.2
    | _ => exact h.elim
  | resume request _ _ =>
    cases status with
    | stopped stop regs pkru seen =>
      cases request with
      | listen => exact hsame h
      | _ =>
        obtain ⟨-, rfl⟩ := h
        exact ⟨rfl, False.elim⟩
    | _ => exact hsame h.2
  | setRegs _ regs =>
    obtain rfl := h
    refine ⟨rfl, fun hgone => ⟨?_, rfl⟩⟩
    cases status with
    | stopped _ _ _ _ => exact hgone.elim
    | _ => exact hgone
  | pokeProcSelfMaps _ _ _ => exact hsame h
  | _ => exact hsame h.2

end Threads

end Ia2.Tracer
