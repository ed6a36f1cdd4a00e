import Ia2.Tracer.Handling
import Ia2.Tracer.Moves
import Ia2.Tracer.ThreadTable

/-!
# The tracer among its threads

The tracer's loop with all the threads that it traces. While the tracer deals with one thread the
others run, stop, are created and die. `Abreast` is what holds at any time of the threads, the table
of processes and the maps in it, with the thread that the tracer is dealing with, if any, left out.
It is stable under everything the threads do by themselves, so the tracer can be followed from one
request to the next with the rules for one thread.
-/

namespace Ia2.Tracer

open Relation (ReflTransGen)

variable {T : Type} [IntervalTree T Nat State]

def Status.Resting (pending : Prop) : Status → Prop
  | stopped stop _ _ seen => stop = .attached ∧ (seen = true ↔ pending)
  | dead _ | reaped => True
  | running _ | calling .. => False

structure Tracees.Sound (k : Tracees) : Prop where
  positive : ∀ q th, k.threads q = some th → 0 < q
  doomed : ∀ q th, k.threads q = some th → k.killed th.process = true → th.status.Gone
  coherent : Coherent k

structure Accounted (initial : MemoryMap T) (t : Tracking T) (focus : Option Pid) (k : Tracees)
    (owner : Pid → Option Nat) (mapOf : Nat → MemoryMap T) : Prop extends k.Sound where
  table : Tabulates t.maps owner mapOf
  known : ∀ q n, owner q = some n → ∃ th, k.threads q = some th ∧ th.process = n ∧
    (focus ≠ some q → th.status.Calm)
  unknown : ∀ q th, k.threads q = some th → owner q = none → th.status.Resting (q ∈ t.pending)
  pending : t.pending.Nodup ∧ ∀ q ∈ t.pending, owner q = none ∧ k.threads q ≠ none
  focused : ∀ p, focus = some p → owner p ≠ none
  served : ∀ q n, owner q = some n → k.killed n = false → (∀ p, focus = some p → owner p ≠ some n) →
    Run Serves initial (k.past n) (mapOf n)
  mediated : ∀ n, (∀ p, focus = some p → owner p ≠ some n) → Mediated initial (k.past n)

structure Abreast (initial : MemoryMap T) (t : Tracking T) (focus : Option Pid) (k : Tracees)
    (owner : Pid → Option Nat) (mapOf : Nat → MemoryMap T) :
    Prop extends Accounted initial t focus k owner mapOf where
  births : ∀ q th stop regs pkru child, focus ≠ some q → k.threads q = some th →
    th.status = .stopped stop regs pkru false →
    stop.child? = some child → owner child = none ∧ ∃ th', Birth k q th.process stop child th'

section Moves

variable {initial : MemoryMap T} {t : Tracking T} {focus : Option Pid} {k k' : Tracees}
  {owner : Pid → Option Nat} {mapOf : Nat → MemoryMap T}
  {pid child : Pid} {th thc : Thread} {status : Status} {stop : Stop} {n : Nat}

/-! ### One thread changes -/

omit [IntervalTree T Nat State] in
theorem Tracees.Sound.step (h : k.Sound) (hth : k.threads pid = some th)
    (hgone : th.status.Gone → status.Gone)
    (hthreads : k'.threads = (k.setStatus pid th status).threads) (hkilled : k'.killed = k.killed) :
    k'.Sound where
  positive q th' hq := by
    rw [hthreads] at hq
    obtain ⟨rfl, -⟩ | ⟨-, hq⟩ := Tracees.setStatus_some hq
    · exact h.positive q th hth
    · exact h.positive q th' hq
  doomed q th' hq hdoomed := by
    rw [hthreads] at hq
    rw [hkilled] at hdoomed
    obtain ⟨rfl, rfl⟩ | ⟨-, hq⟩ := Tracees.setStatus_some hq
    · exact hgone (h.doomed q th hth hdoomed)
    · exact h.doomed q th' hq hdoomed
  coherent := (h.coherent.setStatus hth hgone).congr hthreads

theorem Accounted.owner_of_none (h : Accounted initial t focus k owner mapOf)
    (hnone : k.threads pid = none) : owner pid = none := by
  cases howner : owner pid with
  | none => rfl
  | some n =>
    obtain ⟨th, hth, -⟩ := h.known pid n howner
    exact absurd (hth.symm.trans hnone) nofun

theorem Accounted.owner_eq (h : Accounted initial t (some pid) k owner mapOf)
    (hth : k.threads pid = some th) : owner pid = some th.process := by
  obtain ⟨n, hn⟩ := Option.ne_none_iff_exists'.mp (h.focused pid rfl)
  obtain ⟨th', hth', rfl, -⟩ := h.known pid n hn
  obtain rfl := Option.some.inj (hth.symm.trans hth')
  exact hn

theorem Accounted.pending_of_persist (h : Accounted initial t focus k owner mapOf)
    (hpersist : Persist k k') :
    t.pending.Nodup ∧ ∀ q ∈ t.pending, owner q = none ∧ k'.threads q ≠ none := by
  obtain ⟨hnodup, hpending⟩ := h.pending
  refine ⟨hnodup, fun q hq => ?_⟩
  obtain ⟨hnone, hthread⟩ := hpending q hq
  obtain ⟨th, hth⟩ := Option.ne_none_iff_exists'.mp hthread
  obtain ⟨th', hth', -⟩ := hpersist q th hth
  exact ⟨hnone, by simp [hth']⟩

theorem Accounted.change (h : Accounted initial t focus k owner mapOf)
    (hth : k.threads pid = some th) (hthreads : k'.threads = (k.setStatus pid th status).threads)
    (hpast : ∀ n, (∀ p, focus = some p → owner p ≠ some n) → k'.past n = k.past n)
    (hkilled : k'.killed = k.killed) (hgone : th.status.Gone → status.Gone)
    (hcalm : owner pid ≠ none → focus ≠ some pid → status.Calm)
    (hresting : owner pid = none → status.Resting (pid ∈ t.pending)) :
    Accounted initial t focus k' owner mapOf where
  toSound := h.toSound.step hth hgone hthreads hkilled
  table := h.table
  known q n hq := by
    obtain ⟨th', hth', hn, hcalm'⟩ := h.known q n hq
    rw [hthreads]
    by_cases hqp : q = pid
    · subst hqp
      obtain rfl := Option.some.inj (hth.symm.trans hth')
      exact ⟨_, Tracees.setStatus_self .., hn, hcalm (by simp [hq])⟩
    · exact ⟨th', (Tracees.setStatus_of_ne hqp).trans hth', hn, hcalm'⟩
  unknown q th' hq hnone := by
    rw [hthreads] at hq
    obtain ⟨rfl, rfl⟩ | ⟨-, hq⟩ := Tracees.setStatus_some hq
    · exact hresting hnone
    · exact h.unknown q th' hq hnone
  pending := by
    rw [hthreads]
    exact h.pending_of_persist (persist_setStatus hth hgone)
  focused := h.focused
  served q n hq hn helse := by
    rw [hpast n helse]
    exact h.served q n hq (hkilled ▸ hn) helse
  mediated n helse := by
    rw [hpast n helse]
    exact h.mediated n helse

variable {l : Local} {call : UserRegs} {group : Pid} {pkru : UInt32} {process : Nat} {traced : Bool}
  {m : Move}

theorem Accounted.put (h : Accounted initial t (some pid) k owner mapOf)
    (hth : k.threads pid = some th) (hgone : th.status.Gone → l.status.Gone) :
    Accounted initial t (some pid) (k.put pid th l) owner mapOf := by
  have howner := h.owner_eq hth
  refine h.change hth rfl (fun n helse => ?_) rfl hgone (fun _ hne => absurd rfl hne)
    fun hnone => absurd (howner.symm.trans hnone) nofun
  apply Function.update_of_ne
  rintro rfl
  exact helse pid rfl howner

omit [IntervalTree T Nat State] in
theorem Status.Resting.parked {pending : Prop} (h : status.Resting pending) : status.Parked := by
  cases status with
  | running _ => exact h.elim
  | calling _ _ _ => exact h.elim
  | _ => trivial

theorem Accounted.busy (h : Accounted initial t focus k owner mapOf) (hth : k.threads pid = some th)
    (hbusy : ¬ th.status.Parked) :
    owner pid ≠ none ∧ ¬ th.status.Gone ∧ (focus ≠ some pid → th.status.Calm) := by
  cases howner : owner pid with
  | none => exact absurd (h.unknown pid th hth howner).parked hbusy
  | some n =>
    obtain ⟨th', hth', -, hcalm⟩ := h.known pid n howner
    obtain rfl := Option.some.inj (hth.symm.trans hth')
    exact ⟨nofun, fun hgone => hbusy hgone.parked, hcalm⟩

theorem Accounted.running (h : Accounted initial t focus k owner mapOf)
    (hth : k.threads pid = some th) (hstatus : th.status = .running traced) :
    owner pid ≠ none ∧ ¬ th.status.Gone ∧ (focus ≠ some pid → traced = false) := by
  obtain ⟨hknown, hgone, hcalm⟩ := h.busy hth (Status.not_parked_of_running hstatus)
  rw [hstatus] at hcalm
  exact ⟨hknown, hgone, hcalm⟩

theorem Accounted.calling (h : Accounted initial t focus k owner mapOf)
    (hth : k.threads pid = some th) (hstatus : th.status = .calling call pkru traced) :
    owner pid ≠ none ∧ ¬ th.status.Gone ∧
      (focus ≠ some pid → traced = false ∧ call.syscall.traced = false) := by
  obtain ⟨hknown, hgone, hcalm⟩ := h.busy hth (Status.not_parked_of_calling hstatus)
  rw [hstatus] at hcalm
  exact ⟨hknown, hgone, hcalm⟩

omit [IntervalTree T Nat State] in
theorem Spawns.sound (h : Spawns k pid child th call pkru stop process group k')
    (hsound : k.Sound) (hth : k.threads pid = some th) (hgone : ¬ th.status.Gone) : k'.Sound where
  positive q th' hq := by
    obtain ⟨rfl, -⟩ | ⟨rfl, -⟩ | ⟨-, hold⟩ := h.cases_of_some hq
    · exact h.positive
    · exact hsound.positive q th hth
    · exact hsound.positive q th' hold
  doomed q th' hq hkilled := by
    have halive : k.killed th.process ≠ true :=
      fun hdoomed => hgone (hsound.doomed pid th hth hdoomed)
    obtain ⟨rfl, rfl⟩ | ⟨rfl, rfl⟩ | ⟨-, hold⟩ := h.cases_of_some hq
    · by_cases hstop : stop = .clone q
      · obtain ⟨hprocess, -, -, hsame⟩ := h.cloned hstop
        rw [hsame, hprocess] at hkilled
        exact absurd hkilled halive
      · rw [(h.forked hstop).2.2.2.1] at hkilled
        exact absurd ((Function.update_self ..).symm.trans hkilled) nofun
    · exact absurd ((h.process_eq hth).2.symm.trans hkilled) halive
    · exact hsound.doomed q th' hold ((h.process_eq hold).2.symm.trans hkilled)
  coherent := h.coherent hsound.coherent hth hgone

theorem Accounted.spawn (h : Accounted initial t focus k owner mapOf)
    (hth : k.threads pid = some th) (hfocus : focus ≠ some pid)
    (hstatus : th.status = .calling call pkru traced) (hspawns : call.syscall.spawns)
    (hmediated : ∀ n, Mediated initial (k.past n))
    (hspawn : Spawns k pid child th call pkru stop process group k') :
    Accounted initial t focus k' owner mapOf := by
  obtain ⟨hknown, hgone, -⟩ := h.calling hth hstatus
  have hpersist := hspawn.persist hth hgone
  have hunknown := h.owner_of_none hspawn.fresh
  have hsame : ∀ q n, owner q = some n → k'.past n = k.past n ∧ k'.killed n = k.killed n := by
    intro q n hq
    obtain ⟨th', hth', rfl, -⟩ := h.known q n hq
    exact hspawn.process_eq hth'
  constructor
  · exact hspawn.sound h.toSound hth hgone
  · exact h.table
  · intro q n hq
    obtain ⟨th₀, hth₀, hn, hcalm⟩ := h.known q n hq
    obtain ⟨th', hth', hprocess, -, -⟩ := hpersist q th₀ hth₀
    refine ⟨th', hth', hprocess.trans hn, fun hne => ?_⟩
    obtain ⟨rfl, -⟩ | ⟨rfl, rfl⟩ | ⟨-, hold⟩ := hspawn.cases_of_some hth'
    · exact absurd (hq.symm.trans hunknown) nofun
    · constructor
      · rfl
      · have hchild := hspawn.child_eq
        cases stop with
        | clone _ => exact ⟨call, rfl, hspawns⟩
        | fork _ => exact ⟨call, rfl, hspawns⟩
        | vfork _ => exact ⟨call, rfl, hspawns⟩
        | _ => exact absurd hchild nofun
    · obtain rfl := Option.some.inj (hth₀.symm.trans hold)
      exact hcalm hne
  · intro q th' hq hnone
    obtain ⟨rfl, rfl⟩ | ⟨rfl, -⟩ | ⟨-, hold⟩ := hspawn.cases_of_some hq
    · have hfresh : q ∉ t.pending := fun hq => (h.pending.2 q hq).2 hspawn.fresh
      exact ⟨rfl, by simpa using hfresh⟩
    · exact absurd hnone hknown
    · exact h.unknown q th' hold hnone
  · exact h.pending_of_persist hpersist
  · exact h.focused
  · intro q n hq hkilled helse
    obtain ⟨hpast, hkilled'⟩ := hsame q n hq
    rw [hpast]
    exact h.served q n hq (hkilled'.symm.trans hkilled) helse
  · intro n _
    obtain heq | heq := hspawn.past_cases n <;> exact heq ▸ hmediated _

omit [IntervalTree T Nat State] in
theorem Tracees.Sound.kill (h : k.Sound) (process : Nat) (death : Death) :
    (k.killProcess process death).Sound where
  positive q th' hq := by
    obtain ⟨th, hth, -⟩ := Tracees.killProcess_some hq
    exact h.positive q th hth
  doomed q th' hq hn := by
    obtain ⟨th, hth, -, -, ⟨-, heq⟩ | ⟨hne, rfl⟩⟩ := Tracees.killProcess_some hq
    · exact heq ▸ Status.Gone.die
    · exact h.doomed q _ hth ((Function.update_of_ne hne ..).symm.trans hn)
  coherent := h.coherent.killProcess process death

theorem Accounted.kill (h : Accounted initial t focus k owner mapOf) (process : Nat)
    (death : Death) :
    Accounted initial t focus (k.killProcess process death) owner mapOf := by
  have hpersist := persist_killProcess k process death
  constructor
  · exact h.toSound.kill process death
  · exact h.table
  · intro q n hq
    obtain ⟨th, hth, hn, hcalm⟩ := h.known q n hq
    obtain ⟨th', hth', hprocess, -⟩ := hpersist q th hth
    refine ⟨th', hth', hprocess.trans hn, fun hne => ?_⟩
    obtain ⟨th₀, hth₀, -, -, hstatus⟩ := Tracees.killProcess_some hth'
    obtain rfl := Option.some.inj (hth₀.symm.trans hth)
    obtain ⟨-, heq⟩ | ⟨-, rfl⟩ := hstatus
    · have hcalm := hcalm hne
      rw [heq]
      cases hst : th₀.status with
      | reaped => exact (hst ▸ hcalm : Status.reaped.Calm).elim
      | _ => trivial
    · exact hcalm hne
  · intro q th' hq hnone
    obtain ⟨th, hth, -, -, ⟨-, heq⟩ | ⟨-, rfl⟩⟩ := Tracees.killProcess_some hq
    · rw [heq]
      cases th.status <;> trivial
    · exact h.unknown q _ hth hnone
  · exact h.pending_of_persist hpersist
  · exact h.focused
  · intro q n hq hn helse
    have hne : n ≠ process := by
      rintro rfl
      exact absurd ((Function.update_self ..).symm.trans hn) nofun
    exact h.served q n hq ((Function.update_of_ne hne ..).symm.trans hn) helse
  · exact h.mediated

/-! ### The moves -/

def KeepsAccount (initial : MemoryMap T) (t : Tracking T) (focus : Option Pid) (k k' : Tracees)
    (owner : Pid → Option Nat) (mapOf : Nat → MemoryMap T) : Prop :=
  Accounted initial t focus k' owner mapOf ∧ ∀ p, focus = some p → Follows p k k'

theorem Accounted.put_move (h : Accounted initial t (some pid) k owner mapOf)
    (hth : k.threads pid = some th) (hgone : ¬ th.status.Gone) (hmove : (k.view th).Moves l)
    (hkilled : l.killed = k.killed th.process) :
    KeepsAccount initial t (some pid) k (k.put pid th l) owner mapOf := by
  constructor
  · exact h.put hth (absurd · hgone)
  · intro p hp th' hth'
    cases hp
    obtain rfl := Option.some.inj (hth.symm.trans hth')
    refine ⟨_, Tracees.setStatus_self .., rfl, .single ?_⟩
    exact (Tracees.view_put hkilled).symm ▸ hmove

theorem Accounted.move_other (h : Accounted initial t focus k owner mapOf)
    (hth : k.threads pid = some th) (hfocus : focus ≠ some pid) (hknown : owner pid ≠ none)
    (hgone : ¬ th.status.Gone) (hcalm : status.Calm) :
    KeepsAccount initial t focus k (k.setStatus pid th status) owner mapOf := by
  constructor
  · exact h.change hth rfl (fun _ _ => rfl) rfl (absurd · hgone) (fun _ _ => hcalm)
      (absurd · hknown)
  · intro p hp
    exact follows_of_eq (Tracees.setStatus_of_ne fun heq => hfocus (heq ▸ hp)) fun _ _ => ⟨rfl, rfl⟩

section

variable (h : Accounted initial t focus k owner mapOf) (hheld : Holds focus k)

include h hheld

theorem Accounted.move_call (hmove : k.Moves (.call pid call pkru) k') :
    KeepsAccount initial t focus k k' owner mapOf := by
  obtain ⟨th, traced, hth, hstatus, hk'⟩ := hmove
  obtain ⟨hknown, hgone, htraced⟩ := h.running hth hstatus
  by_cases hfocus : focus = some pid
  · subst hfocus
    obtain rfl := (hheld pid th rfl hth).running hstatus
    have hlocal : (k.view th).Moves ⟨.stopped .entry ⟨some call, ENOSYS⟩ pkru false,
        k.past th.process, k.killed th.process⟩ := by
      rw [Tracees.view, hstatus]
      exact .call call pkru
    have hput := h.put_move hth hgone hlocal rfl
    rw [Tracees.put_eq_setStatus rfl] at hput
    exact hk' ▸ hput
  · obtain rfl := htraced hfocus
    exact hk' ▸ h.move_other hth hfocus hknown hgone (released_enter call pkru).calm

theorem Accounted.move_run {retval : UInt64} (hmove : k.Moves (.run pid retval) k') :
    KeepsAccount initial t focus k k' owner mapOf := by
  obtain ⟨th, call, pkru, traced, hth, hstatus, hcompletes, hk'⟩ := hmove
  obtain ⟨hknown, hgone, htraced⟩ := h.calling hth hstatus
  by_cases hfocus : focus = some pid
  · subst hfocus
    have hcall := (hheld pid th rfl hth).calling hstatus
    have hlocal : (k.view th).Moves
        ⟨.leave ⟨some call, retval⟩ pkru traced, k.past th.process ++ [.call call pkru retval],
            k.killed th.process⟩ := by
      rw [Tracees.view, hstatus]
      exact .run hcall hcompletes
    rw [ran, if_pos hcall] at hk'
    exact hk' ▸ h.put_move hth hgone hlocal rfl
  · obtain ⟨rfl, hcall⟩ := htraced hfocus
    rw [ran, if_neg (by simp [hcall]), Function.update_eq_self] at hk'
    exact hk' ▸ h.move_other hth hfocus hknown hgone rfl

theorem Accounted.move_spawn (hmediated : ∀ n, Mediated initial (k.past n))
    (hth : k.threads pid = some th) (hstatus : th.status = .calling call pkru traced)
    (hspawns : call.syscall.spawns)
    (hspawn : Spawns k pid child th call pkru stop process group k') :
    KeepsAccount initial t focus k k' owner mapOf := by
  have hfocus : focus ≠ some pid := fun heq =>
    Sysno.not_spawns_of_traced ((hheld pid th heq hth).calling hstatus) hspawns
  constructor
  · exact h.spawn hth hfocus hstatus hspawns hmediated hspawn
  · intro p hp th' hth'
    have hpc : p ≠ child := by
      rintro rfl
      exact absurd (hth'.symm.trans hspawn.fresh) nofun
    apply follows_of_eq _ (fun th hth => hspawn.process_eq hth) th' hth'
    rw [hspawn.threads_eq, Tracees.addChild_of_ne hpc]
    exact Tracees.setStatus_of_ne fun heq => hfocus (heq ▸ hp)

theorem Accounted.move_exec (horderly : k.Orderly (.exec pid process pkru))
    (hmove : k.Moves (.exec pid process pkru) k') :
    KeepsAccount initial t focus k k' owner mapOf := by
  obtain ⟨th, call, pkru', traced, hth, hstatus, hexecs, -, hsame, hk'⟩ := hmove
  obtain ⟨hgroup, halone⟩ := horderly th hth
  rw [hsame (h.coherent.not_shared hth), h.coherent.replace hth hgroup halone] at hk'
  obtain ⟨hknown, hgone, -⟩ := h.calling hth hstatus
  have hfocus : focus ≠ some pid := fun heq =>
    Sysno.not_execs_of_traced ((hheld pid th heq hth).calling hstatus) hexecs
  exact hk' ▸ h.move_other hth hfocus hknown hgone ⟨rfl, call, rfl, hexecs⟩

theorem Accounted.move_stop {regs : Regs} (horderly : k.Orderly (.stop pid stop regs pkru))
    (hmove : k.Moves (.stop pid stop regs pkru) k') :
    KeepsAccount initial t focus k k' owner mapOf := by
  obtain ⟨th, traced, hth, hstatus, hinterrupts, hk'⟩ := hmove
  obtain ⟨hknown, hgone, -⟩ := h.running hth hstatus
  have hfocus : focus ≠ some pid := by
    intro heq
    obtain rfl := (hheld pid th heq hth).running hstatus
    exact horderly th hth hstatus
  have hstop : stop.Fits regs := by
    cases stop with
    | signal _ => trivial
    | group _ => trivial
    | _ => exact hinterrupts.elim
  exact hk' ▸ h.move_other hth hfocus hknown hgone ⟨rfl, hstop⟩

theorem Accounted.move_exit {code : Nat} (hmove : k.Moves (.exit pid code) k') :
    KeepsAccount initial t focus k k' owner mapOf := by
  obtain ⟨th, call, pkru, traced, hth, hstatus, hexit, hk'⟩ := hmove
  obtain ⟨hknown, hgone, -⟩ := h.calling hth hstatus
  have hfocus : focus ≠ some pid := by
    intro heq
    have htraced := (hheld pid th heq hth).calling hstatus
    rw [hexit] at htraced
    exact absurd htraced nofun
  exact hk' ▸ h.move_other hth hfocus hknown hgone trivial

omit hheld in
theorem Accounted.move_kill {death : Death} (hmove : k.Moves (.kill group death) k') :
    KeepsAccount initial t focus k k' owner mapOf := by
  obtain ⟨q, th', hth', rfl, rfl⟩ := hmove
  rw [h.coherent.killGroup hth' death]
  constructor
  · exact h.kill th'.process death
  · intro p hp th hth
    by_cases hn : th.process = th'.process
    · refine ⟨{ th with status := th.status.die death }, by
      simp [Tracees.killProcess, hth, hn], rfl,
        .single ?_⟩
      have hkill : (k.view th).Moves ⟨th.status.die death, k.past th.process, true⟩ := .kill death
      simpa [Tracees.view, Tracees.killProcess, hn] using hkill
    · refine ⟨th, by simp [Tracees.killProcess, hth, hn], rfl, ?_⟩
      simp only [Tracees.view, Tracees.killProcess, Function.update_of_ne hn]
      exact .refl

theorem Accounted.move (hmediated : ∀ n, Mediated initial (k.past n)) (horderly : k.Orderly m)
    (hmove : k.Moves m k') :
    KeepsAccount initial t focus k k' owner mapOf := by
  cases m with
  | call pid call pkru => exact h.move_call hheld hmove
  | run pid retval => exact h.move_run hheld hmove
  | spawn pid child process args =>
    obtain ⟨th, call, pkru, traced, stop, group, hth, hstatus, hspawns, hspawn⟩ :=
      hmove.spawns horderly
    exact h.move_spawn hheld hmediated hth hstatus hspawns hspawn
  | exec pid process pkru => exact h.move_exec hheld horderly hmove
  | stop pid stop regs pkru => exact h.move_stop hheld horderly hmove
  | exit pid code => exact h.move_exit hheld hmove
  | kill group death => exact h.move_kill hmove

end

theorem Abreast.move (h : Abreast initial t focus k owner mapOf) (hheld : Holds focus k)
    (hmediated : ∀ n, Mediated initial (k.past n)) (horderly : k.Orderly m) (hmove : k.Moves m k') :
    Abreast initial t focus k' owner mapOf ∧ ∀ p, focus = some p → Follows p k k' := by
  obtain ⟨haccounted, hfollows⟩ := h.toAccounted.move hheld hmediated horderly hmove
  have heffect := hmove.effect h.coherent horderly
  refine ⟨⟨haccounted, ?_⟩, hfollows⟩
  intro q th' stop regs pkru child hq hth' hstatus hchild
  obtain hold | ⟨hfresh, hbirth⟩ := heffect.child_stop hth' hstatus hchild
  · obtain ⟨hunknown, thc, hbirth⟩ := h.births q th' stop regs pkru child hq hold hstatus hchild
    exact ⟨hunknown, hbirth.effect heffect⟩
  · exact ⟨h.owner_of_none hfresh, hbirth⟩

theorem Abreast.put (h : Abreast initial t (some pid) k owner mapOf) (hth : k.threads pid = some th)
    (hgone : th.status.Gone → l.status.Gone ∧ l.past = k.past th.process) :
    Abreast initial t (some pid) (k.put pid th l) owner mapOf := by
  constructor
  · exact h.toAccounted.put hth fun hg => (hgone hg).1
  · intro q th' stop regs pkru child hq hth' hstatus hchild
    have hqp : q ≠ pid := fun heq => hq (heq ▸ rfl)
    obtain ⟨hunknown, thc, hbirth⟩ := h.births q th' stop regs pkru child hq
      ((Tracees.setStatus_of_ne hqp).symm.trans hth') hstatus hchild
    have hcp : child ≠ pid := fun heq => h.focused pid rfl (heq ▸ hunknown)
    exact ⟨hunknown, hbirth.put hth hqp hcp hgone⟩

end Moves

end Ia2.Tracer
