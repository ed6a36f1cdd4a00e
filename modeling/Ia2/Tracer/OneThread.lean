import Ia2.Tracer.Tracees

/-!
# One thread as the tracer's surroundings

A thread that the tracer deals with, seen by itself: its status, what its process has executed, and
what the tracer's requests do to it. For each request there is a rule that says what the tracer
knows of the thread afterwards. The process can be killed at any time, and most requests then fail.

`Serves` says what the tracer does with a call when nothing comes in between: it lets the call run
if its map allows it and records the result. `Mediated` says of what a process has executed that
every call was allowed by the map that records the calls before it.
-/

namespace Ia2.Tracer

open Relation (ReflTransGen)

variable {T : Type} [IntervalTree T Nat State]

/-! ### The tracer without interruption -/

/-- The map lets the call run, which stands for the event. -/
structure Allows (map : MemoryMap T) (call : UserRegs) (pkru : UInt32) (event : Event) : Prop where
  valid : pkeyForPkru pkru ≠ PKEY_INVALID
  interpreted : interpretSyscall call (pkeyForPkru pkru) .seccomp = some event
  permitted : if eventMarksInitFinished event then map.initFinished = false
    else eventIsRequestProcSelfMaps event = false ∧ map.isOpPermitted event = .ok true

/-- The call that ends init fails and is noted in the map. The result of any other call that is let
run is recorded. -/
inductive Serves : MemoryMap T → Entry → MemoryMap T → Prop where
  | finishInit {map : MemoryMap T} {call : UserRegs} {pkru : UInt32} {event : Event}
    {retval : UInt64} : Allows map call pkru event →
      eventMarksInitFinished event = true → 2 ^ 63 ≤ retval.toNat →
      Serves map (.call call pkru retval) { map with initFinished := true }
  | record {map map' : MemoryMap T} {call : UserRegs} {pkru : UInt32} {event : Event}
    {retval : UInt64} : Allows map call pkru event →
      eventMarksInitFinished event = false → map.finishSyscall event retval = .ok (map', true) →
      Serves map (.call call pkru retval) map'
  | exec {map : MemoryMap T} : Serves map .exec map.clear

inductive Mediated (initial : MemoryMap T) : List Entry → Prop where
  | recorded {past : List Entry} {map : MemoryMap T} : Run Serves initial past map →
    Mediated initial past
  | running {past : List Entry} {map : MemoryMap T} {call : UserRegs} {pkru : UInt32}
    {event : Event} {retval : UInt64} :
      Run Serves initial past map → Allows map call pkru event →
      Mediated initial (past ++ [.call call pkru retval])

/-! ### Where a thread stops -/

/-- The trap of a stop that is not for a signal. -/
def Stop.trap : Stop → WaitTrapResult
  | attached | group _ | signal _ => .stop
  | seccomp | entry | exit => .syscall
  | clone _ => .ptraceClone
  | fork _ => .ptraceFork
  | vfork _ => .error
  | exec => .exec

theorem trapOf_group (pid : Pid) (sig : Nat) :
    trapOf pid (stopStatus (sig % 128) PTRACE_EVENT_STOP) = .done (.stop, pid, none) := by
  have hlt : sig % 128 < 128 := Nat.mod_lt _ (by decide)
  have hexited : ¬ WIFEXITED (stopStatus (sig % 128) PTRACE_EVENT_STOP) = true := by
    rw [WIFEXITED, decide_eq_true_eq, stopStatus, PTRACE_EVENT_STOP]
    omega
  have hsignaled : ¬ WIFSIGNALED (stopStatus (sig % 128) PTRACE_EVENT_STOP) = true := by
    rw [WIFSIGNALED, decide_eq_true_eq, stopStatus, PTRACE_EVENT_STOP]
    omega
  have hstopped : WIFSTOPPED (stopStatus (sig % 128) PTRACE_EVENT_STOP) = true := by
    rw [WIFSTOPPED, decide_eq_true_eq, stopStatus, PTRACE_EVENT_STOP]
    omega
  have hevent : stopStatus (sig % 128) PTRACE_EVENT_STOP / 65536 = PTRACE_EVENT_STOP := by
    rw [stopStatus, PTRACE_EVENT_STOP]
    omega
  rw [trapOf, if_neg hexited, if_neg hsignaled, if_pos hstopped, hevent]
  rfl

variable {stop : Stop} {regs : Regs}

theorem trapOf_stop (pid : Pid) (h : ∀ sig, stop ≠ .signal sig) :
    trapOf pid stop.waitStatus = .done (stop.trap, pid, none) := by
  cases stop with
  | signal sig => exact absurd rfl (h sig)
  | group sig => exact trapOf_group pid sig
  | clone child =>
    exact (rfl : trapOf pid (stopStatus SIGTRAP PTRACE_EVENT_CLONE) =
      .done (.ptraceClone, pid, none))
  | fork child =>
    exact (rfl : trapOf pid (stopStatus SIGTRAP PTRACE_EVENT_FORK) = .done (.ptraceFork, pid, none))
  | vfork child =>
    exact (rfl : trapOf pid (stopStatus SIGTRAP PTRACE_EVENT_VFORK) = .done (.error, pid, none))
  | _ => rfl

theorem trapOf_exited (pid : Pid) (code : Nat) :
    trapOf pid (Death.exited code).waitStatus = .done (.exited, pid, some (code % 256)) := by
  have hexited : WIFEXITED (256 * (code % 256)) = true := by
    rw [WIFEXITED, decide_eq_true_eq]
    omega
  have hcode : WEXITSTATUS (256 * (code % 256)) = code % 256 := by
    unfold WEXITSTATUS
    omega
  rw [trapOf, Death.waitStatus, if_pos hexited, hcode]
  rfl

theorem trapOf_killed (pid : Pid) (sig : Nat) :
    trapOf pid (Death.killed sig).waitStatus = .done (.signaled, pid, none) := by
  have hexited : ¬ WIFEXITED (1 + sig % 126) = true := by
    rw [WIFEXITED, decide_eq_true_eq]
    omega
  have hsignaled : WIFSIGNALED (1 + sig % 126) = true := by
    rw [WIFSIGNALED, decide_eq_true_eq]
    omega
  rw [trapOf, Death.waitStatus, if_neg hexited, if_pos hsignaled]
  rfl

/-! ### One thread as the tracer's surroundings -/

def Status.Parked : Status → Prop
  | stopped .. | dead _ | reaped => True
  | running _ | calling .. => False

namespace Local

inductive Moves : Local → Local → Prop where
  | run {call : UserRegs} {pkru : UInt32} {traced killed : Bool} {past : List Entry}
      {retval : UInt64} : call.syscall.traced = true → Completes call retval →
      Moves ⟨.calling call pkru traced, past, killed⟩
        ⟨.leave ⟨some call, retval⟩ pkru traced, past ++ [.call call pkru retval], killed⟩
  | call {past : List Entry} {killed : Bool} (call : UserRegs) (pkru : UInt32) :
      Moves ⟨.running true, past, killed⟩ ⟨.stopped .entry ⟨some call, ENOSYS⟩ pkru false,
        past, killed⟩
  | kill {status : Status} {past : List Entry} {killed : Bool} (death : Death) :
    Moves ⟨status, past, killed⟩ ⟨status.die death, past, true⟩

def world (pid : Pid) : World Request Request.Answer Local := ⟨Moves, Answers pid⟩

def Held (l : Local) : Prop :=
  match l.status with
  | .running traced => traced = true
  | .calling call _ _ => call.syscall.traced = true
  | _ => True

structure Safe (initial : MemoryMap T) (l : Local) : Prop where
  mediated : Mediated initial l.past
  allowed : ∀ call pkru traced, l.status = .calling call pkru traced → ∃ map event,
    Run Serves initial l.past map ∧ Allows map call pkru event

structure Parked (initial : MemoryMap T) (l : Local) : Prop where
  mediated : Mediated initial l.past
  parked : l.status.Parked

structure Ready (initial : MemoryMap T) (pid : Pid) (op : Request) (l : Local) : Prop where
  target : op.target = some pid
  held : l.Held
  safe : l.Safe initial

structure Lost (initial : MemoryMap T) (l : Local) : Prop where
  mediated : Mediated initial l.past
  killed : l.killed = true
  gone : l.status.Gone

structure Killed (past : List Entry) (l : Local) : Prop where
  past_eq : l.past = past
  killed : l.killed = true
  dead : ∃ death, l.status = .dead death

end Local

section Moves

variable {initial : MemoryMap T} {l l' : Local} {past : List Entry}

theorem Local.Lost.move (h : l.Lost initial) (hmove : l.Moves l') : l'.Lost initial := by
  obtain ⟨hmediated, hkilled, hgone⟩ := h
  cases hmove with
  | run _ _ => exact hgone.elim
  | call _ _ => exact hgone.elim
  | @kill status past killed death =>
    constructor
    · exact hmediated
    · rfl
    · cases status with
      | dead _ => trivial
      | reaped => trivial
      | _ => exact hgone.elim

theorem Local.Parked.move (h : l.Parked initial) (hmove : l.Moves l') : l'.Parked initial := by
  obtain ⟨hmediated, hparked⟩ := h
  cases hmove with
  | run _ _ => exact hparked.elim
  | call _ _ => exact hparked.elim
  | @kill status past killed death =>
    constructor
    · exact hmediated
    · cases status <;> trivial

theorem Local.Parked.safe (h : l.Parked initial) : l.Safe initial where
  mediated := h.mediated
  allowed call pkru traced hcall := by
    have hparked := h.parked
    rw [hcall] at hparked
    exact hparked.elim

theorem Local.Parked.held (h : l.Parked initial) : l.Held := by
  have hparked := h.parked
  unfold Held
  cases hstatus : l.status with
  | running _ => exact (hstatus ▸ hparked : (Status.running _).Parked).elim
  | calling _ _ _ => exact (hstatus ▸ hparked : (Status.calling _ _ _).Parked).elim
  | _ => trivial

theorem Status.Gone.parked {status : Status} (h : status.Gone) : status.Parked := by
  cases status with
  | dead _ => trivial
  | reaped => trivial
  | _ => exact h.elim

section

variable (h : l.Lost initial)

include h

theorem Local.Lost.parked : l.Parked initial := ⟨h.mediated, h.gone.parked⟩

theorem Local.Lost.safe : l.Safe initial := h.parked.safe

theorem Local.Lost.held : l.Held := h.parked.held

theorem Local.Lost.regs?_eq : l.status.regs? = none := by
  have hgone := h.gone
  cases hstatus : l.status with
  | stopped _ _ _ _ => exact (hstatus ▸ hgone : (Status.stopped _ _ _ _).Gone).elim
  | _ => rfl

theorem Local.Lost.pkru?_eq : l.status.pkru? = none := by
  have hgone := h.gone
  cases hstatus : l.status with
  | stopped _ _ _ _ => exact (hstatus ▸ hgone : (Status.stopped _ _ _ _).Gone).elim
  | _ => rfl

theorem Local.Lost.setRegs_eq :
    { l with status := l.status.setRegs regs } = l := by
  obtain ⟨status, past, killed⟩ := l
  have hgone : status.Gone := h.gone
  cases status with
  | stopped _ _ _ _ => exact hgone.elim
  | _ => rfl

variable {pid : Pid}

theorem Local.Lost.resume_eq {request : Resume} {sig : Nat} {a : Bool}
    (hans : l.Answers pid (.resume request pid sig) a l') :
    a = false ∧ l' = l := by
  obtain ⟨status, past, killed⟩ := l
  have hgone : status.Gone := h.gone
  cases status with
  | stopped _ _ _ _ => exact hgone.elim
  | _ => exact hans

theorem Local.Lost.waitpid {which : Option Pid} {a : Option (Pid × Nat)}
    (hans : l.Answers pid (.waitpid which) a l') : l'.Lost initial := by
  obtain ⟨status, past, killed⟩ := l
  have hgone : status.Gone := h.gone
  cases status with
  | dead death =>
    obtain ⟨-, rfl⟩ := hans
    exact ⟨h.mediated, h.killed, trivial⟩
  | reaped =>
    obtain ⟨-, rfl⟩ := hans
    exact h
  | _ => exact hgone.elim

end

theorem Local.Killed.lost (h : l.Killed past) (hmediated : Mediated initial past) :
    l.Lost initial := by
  obtain ⟨hpast, hkilled, death, hstatus⟩ := h
  constructor
  · exact hpast ▸ hmediated
  · exact hkilled
  · rw [hstatus]
    trivial

theorem Local.Killed.move (h : l.Killed past) (hmove : l.Moves l') : l'.Killed past := by
  obtain ⟨hpast, hkilled, death, hstatus⟩ := h
  cases hmove with
  | kill death' =>
    cases hstatus
    exact ⟨hpast, rfl, death, rfl⟩
  | _ => cases hstatus

theorem Local.killed_of_stopped {pkru : UInt32} {seen : Bool}
    (hstatus : l.status = .stopped stop regs pkru seen) (hpast : l.past = past)
    (hmove : l.Moves l') : l'.Killed past := by
  cases hmove with
  | kill death =>
    cases hstatus
    exact ⟨hpast, rfl, death, rfl⟩
  | _ => cases hstatus

end Moves

/-! ### Requests -/

abbrev WpFor (initial : MemoryMap T) (pid : Pid) {α : Type} :
    Tracing α → (α → Local → Prop) → Local → Prop :=
  Wp (Local.world pid) (Local.Ready initial pid)

def Local.Has (initial : MemoryMap T) (status : Status) (past : List Entry) (l : Local) : Prop :=
  (l.status = status ∧ l.past = past) ∨ l.Lost initial

def Local.At (status : Status) (past : List Entry) (l : Local) : Prop :=
  (l.status = status ∧ l.past = past) ∨ l.Killed past

variable {l : Local} {past : List Entry} {pkru : UInt32} {seen : Bool}

theorem Local.At.move {l' : Local} (h : l.At (.stopped stop regs pkru seen) past)
    (hmove : l.Moves l') :
    l'.At (.stopped stop regs pkru seen) past := by
  obtain ⟨hstatus, hpast⟩ | hl := h
  · exact .inr (Local.killed_of_stopped hstatus hpast hmove)
  · exact .inr (hl.move hmove)

theorem Local.At.parked {initial : MemoryMap T} (h : l.At (.stopped stop regs pkru seen) past)
    (hmediated : Mediated initial past) :
    l.Parked initial := by
  obtain ⟨hstatus, hpast⟩ | hl := h
  · exact ⟨hpast ▸ hmediated, by simp [hstatus, Status.Parked]⟩
  · exact (hl.lost hmediated).parked

section Requests

variable {initial : MemoryMap T} {pid : Pid} {α : Type} {post : α → Local → Prop} {l : Local}
  {past : List Entry}
  {stop : Stop} {regs : Regs} {pkru : UInt32} {seen : Bool}

variable {op : Request}

theorem wp_ask_lost {next : op.Answer → Tracing α} (htarget : op.target = some pid)
    (h : l.Lost initial) (hlost : ∀ (l : Local) a l', l.Lost initial → l.Answers pid op a l' →
    WpFor initial pid (next a) post l') :
    WpFor initial pid (.ask op next) post l := by
  apply Wp.ask_of_stable (Local.Lost initial) _ _ _ h
  · exact fun l l' hl hmove => hl.move hmove
  · exact fun l hl => ⟨htarget, hl.held, hl.safe⟩
  · exact fun l a l' hl hans => hlost l a l' hl hans

theorem wp_ask_at {next : op.Answer → Tracing α} (htarget : op.target = some pid)
    (hmediated : Mediated initial past) (h : l.At (.stopped stop regs pkru seen) past)
    (hstop : ∀ killed a l', Local.Answers pid ⟨.stopped stop regs pkru seen, past, killed⟩ op a l' →
    WpFor initial pid (next a) post l')
    (hkilled : ∀ (l : Local) a l', l.Killed past → l.Answers pid op a l' →
    WpFor initial pid (next a) post l') :
    WpFor initial pid (.ask op next) post l := by
  apply Wp.ask_of_stable (Local.At (.stopped stop regs pkru seen) past) _ _ _ h
  · exact fun l l' hl hmove => hl.move hmove
  · intro l hl
    have hparked := hl.parked hmediated
    exact ⟨htarget, hparked.held, hparked.safe⟩
  · rintro ⟨status, past', killed⟩ a l' (⟨hstatus, hpast⟩ | hl) hans
    · obtain rfl : status = _ := hstatus
      obtain rfl : past' = past := hpast
      exact hstop killed a l' hans
    · exact hkilled _ a l' hl hans

section

variable (htarget : op.target = some pid) (hmediated : Mediated initial past)
  (h : l.Has initial (.stopped stop regs pkru seen) past)

include htarget hmediated h

theorem wp_ask_stopped {next : op.Answer → Tracing α}
    (hstop : ∀ killed a l', Local.Answers pid ⟨.stopped stop regs pkru seen, past, killed⟩ op a l' →
    WpFor initial pid (next a) post l')
    (hlost : ∀ (l : Local) a l', l.Lost initial → l.Answers pid op a l' →
    WpFor initial pid (next a) post l') :
    WpFor initial pid (.ask op next) post l := by
  obtain ⟨hstatus, hpast⟩ | h := h
  · apply wp_ask_at htarget hmediated (.inl ⟨hstatus, hpast⟩) hstop
    exact fun l a l' hl hans => hlost l a l' (hl.lost hmediated) hans
  · exact wp_ask_lost htarget h hlost

omit htarget in
theorem wp_getRegs {f : Option Regs → Tracing α}
    (hsome : ∀ l : Local, l.status = .stopped stop regs pkru seen → l.past = past →
    WpFor initial pid (f (some regs)) post l)
    (hnone : ∀ l : Local, l.Lost initial → WpFor initial pid (f none) post l) :
    WpFor initial pid (getRegs pid >>= f) post l := by
  rw [getRegs_bind]
  apply wp_ask_stopped rfl hmediated h
  · rintro killed a l' ⟨rfl, rfl⟩
    exact hsome _ rfl rfl
  · rintro l a l' hl ⟨rfl, rfl⟩
    rw [hl.regs?_eq]
    exact hnone _ hl

omit htarget in
theorem wp_setRegs {regs' : Regs} {f : Unit → Tracing α}
    (hnext : ∀ l : Local, l.Has initial (.stopped stop regs' pkru seen) past →
    WpFor initial pid (f ()) post l) :
    WpFor initial pid (setRegs pid regs' >>= f) post l := by
  rw [setRegs_bind]
  apply wp_ask_stopped rfl hmediated h
  · rintro killed a l' rfl
    exact hnext _ (.inl ⟨rfl, rfl⟩)
  · rintro l a l' hl rfl
    rw [hl.setRegs_eq]
    exact hnext _ (.inr hl)

def Stop.pastOnResume (stop : Stop) (past : List Entry) : List Entry :=
  if stop = .exec then past ++ [.exec] else past

omit htarget hmediated h in
theorem wp_resume {request : Resume} {sig : Nat} {f : Bool → Tracing α}
    (hrequest : request ≠ .listen) (hmediated : Mediated initial past)
    (h : l.Has initial (.stopped stop regs pkru seen) past)
    (htrue : ∀ l : Local, l.status = .resumed stop regs pkru (request = .syscall) →
    l.past = stop.pastOnResume past →
      WpFor initial pid (f true) post l)
    (hfalse : ∀ l : Local, l.Lost initial → WpFor initial pid (f false) post l) :
    WpFor initial pid (resume request pid sig >>= f) post l := by
  rw [resume_bind]
  apply wp_ask_stopped rfl hmediated h
  · intro killed a l' hans
    cases request with
    | listen => exact absurd rfl hrequest
    | _ =>
      obtain ⟨rfl, rfl⟩ := hans
      exact htrue _ rfl rfl
  · intro l a l' hl hans
    obtain ⟨rfl, rfl⟩ := hl.resume_eq hans
    exact hfalse _ hl

omit htarget h in
theorem wp_waitpid {f : Option (Pid × Nat) → Tracing α}
    (h : l.Has initial (.stopped stop regs pkru false) past)
    (hnext : ∀ (l : Local) a, l.Has initial (.stopped stop regs pkru true) past →
    WpFor initial pid (f a) post l) :
    WpFor initial pid (waitpid (some pid) >>= f) post l := by
  rw [waitpid_bind]
  apply wp_ask_stopped rfl hmediated h
  · rintro killed a l' ⟨rfl, rfl⟩
    exact hnext _ _ (.inl ⟨rfl, rfl⟩)
  · intro l a l' hl hans
    exact hnext _ _ (.inr (hl.waitpid hans))

omit htarget in
theorem wp_getInferiorPkru {f : Option UInt32 → Tracing α}
    (hnext : ∀ (l : Local) a, l.Has initial (.stopped stop regs pkru seen) past →
    (a = none ∨ a = some pkru) → WpFor initial pid (f a) post l) :
    WpFor initial pid (getInferiorPkru pid >>= f) post l := by
  rw [getInferiorPkru_bind]
  apply wp_ask_stopped rfl hmediated h
  · rintro killed a l' ⟨ha, rfl⟩
    exact hnext _ a (.inl ⟨rfl, rfl⟩) ha
  · rintro l a l' hl ⟨ha, rfl⟩
    apply hnext _ a (.inr hl)
    rw [hl.pkru?_eq, or_self] at ha
    exact .inl ha

omit htarget in
theorem wp_pokeProcSelfMaps {start len : Nat} {f : Int → Tracing α}
    (hnext : ∀ (l : Local) a, l.Has initial (.stopped stop regs pkru seen) past →
    WpFor initial pid (f a) post l) :
    WpFor initial pid (pokeProcSelfMaps pid start len >>= f) post l := by
  rw [pokeProcSelfMaps_bind]
  apply wp_ask_stopped rfl hmediated h
  · rintro killed a l' rfl
    exact hnext _ a (.inl ⟨rfl, rfl⟩)
  · rintro l a l' hl rfl
    exact hnext _ a (.inr hl)

end

theorem wp_waitForNextTrap {f : WaitTrapResult × Pid × Option Nat → Tracing α}
    {assertion : Local → Prop} (hmove : ∀ l l', assertion l → l.Moves l' → assertion l')
    (hready : ∀ l, assertion l → l.Held ∧ l.Safe initial)
    (hstop : ∀ l stop regs pkru, assertion l → l.status = .stopped stop regs pkru false →
    (∀ sig, stop ≠ .signal sig) ∧
      WpFor initial pid (f (stop.trap, pid, none)) post
      { l with status := .stopped stop regs pkru true })
    (hexited : ∀ l code, assertion l → l.status = .dead (.exited code) →
      WpFor initial pid (f (.exited, pid, some (code % 256))) post { l with status := .reaped })
    (hkilled : ∀ l sig, assertion l → l.status = .dead (.killed sig) →
      WpFor initial pid (f (.signaled, pid, none)) post { l with status := .reaped })
    (hreaped : ∀ l, assertion l → l.status = .reaped →
      WpFor initial pid (f (.error, -1, none)) post l)
    (h : assertion l) : WpFor initial pid (waitForNextTrap (some pid) >>= f) post l := by
  apply Wp.bind
  unfold waitForNextTrap
  rw [waitpid_bind]
  apply Wp.ask_of_stable assertion hmove _ _ h
  · intro l hl
    obtain ⟨hheld, hsafe⟩ := hready l hl
    exact ⟨rfl, hheld, hsafe⟩
  · intro l a l' hl hans
    cases hstatus : l.status with
    | running _ => simp [Local.world, Local.Answers, hstatus] at hans
    | calling _ _ _ => simp [Local.world, Local.Answers, hstatus] at hans
    | stopped stop regs pkru seen =>
      cases seen with
      | true => simp [Local.world, Local.Answers, hstatus] at hans
      | false =>
        obtain ⟨rfl, rfl⟩ : a = some (pid, stop.waitStatus) ∧
            l' = { l with status := .stopped stop regs pkru true } := by
          simpa [Local.world, Local.Answers, hstatus] using hans
        obtain ⟨hsig, hwp⟩ := hstop l stop regs pkru hl hstatus
        simp only [trapOf_stop pid hsig]
        exact hwp
    | dead death =>
      obtain ⟨rfl, rfl⟩ : a = some (pid, death.waitStatus) ∧ l' = { l with status := .reaped } := by
        simpa [Local.world, Local.Answers, hstatus] using hans
      cases death with
      | exited code =>
        simp only [trapOf_exited]
        exact hexited l code hl hstatus
      | killed sig =>
        simp only [trapOf_killed]
        exact hkilled l sig hl hstatus
    | reaped =>
      obtain ⟨rfl, rfl⟩ : a = none ∧ l' = l := by
        simpa [Local.world, Local.Answers, hstatus] using hans
      exact hreaped _ hl hstatus

end Requests

end Ia2.Tracer
