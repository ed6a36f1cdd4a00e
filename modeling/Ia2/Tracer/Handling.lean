import Ia2.Tracer.OneThread

/-!
# Dealing with one stop

What the tracer does with a thread from the stop at which it was waited for to the request that lets
it run again. `Settled` says how such a round can end: the map records what the process has executed
and the thread runs again, or the thread has exited, or its call is run next, or the tracer ends.
From the stops at which the tracer reads a call (`EntryReady`) and from those at which it lets one
run (`ExitReady`) every round ends like this, whatever the kernel does in the meantime.
-/

namespace Ia2.Tracer

variable {T : Type} [IntervalTree T Nat State]

/-! ### Where a round leaves the thread -/

/-- The registers go with the stop. -/
def Stop.Fits (regs : Regs) : Stop → Prop
  | seccomp => ∃ call, regs.call = some call ∧ call.syscall.traced = true
  | clone _ | fork _ | vfork _ => ∃ call, regs.call = some call ∧ call.syscall.spawns
  | exec => ∃ call, regs.call = some call ∧ call.syscall.execs
  | entry | exit => False
  | attached | group _ | signal _ => True

def Status.Calm : Status → Prop
  | running traced => traced = false
  | calling call _ traced => traced = false ∧ call.syscall.traced = false
  | stopped stop regs _ seen => seen = false ∧ stop.Fits regs
  | dead _ => True
  | reaped => False

def Status.Released : Status → Prop
  | running traced => traced = false
  | calling call _ traced => traced = false ∧ call.syscall.traced = false
  | stopped stop regs _ seen => seen = false ∧ stop = .seccomp ∧ stop.Fits regs
  | dead _ => True
  | reaped => False

theorem Status.Released.calm {status : Status} (h : status.Released) : status.Calm := by
  cases status with
  | stopped stop regs pkru seen => exact ⟨h.1, h.2.2⟩
  | _ => exact h

inductive ExitReady (initial map : MemoryMap T) (event : Event) (l : Local) : Prop where
  | permitted {regs : Regs} {call : UserRegs} {pkru : UInt32} :
    l.status = .stopped .seccomp regs pkru true → regs.call = some call →
      call.syscall.traced = true → Run Serves initial l.past map → Allows map call pkru event →
      eventMarksInitFinished event = false →
      ExitReady initial map event l
  | spawned {stop : Stop} {regs : Regs} {pkru : UInt32} (child : Pid) : stop = .clone child ∨
    stop = .fork child →
      l.status = .stopped stop regs pkru true → Run Serves initial l.past map → event = .clone →
      ExitReady initial map event l
  | replaced {map' : MemoryMap T} {regs : Regs} {pkru : UInt32} :
    l.status = .stopped .exec regs pkru true →
      Run Serves initial l.past map' → map = map'.clear → event = .exec →
      ExitReady initial map event l
  | initFinished {regs : Regs} {pkru : UInt32} : l.status = .stopped .exit regs pkru true →
    Run Serves initial l.past map →
      ExitReady initial map event l
  | lost : l.Lost initial → ExitReady initial map event l

inductive Settled (initial : MemoryMap T) (t : Tracking T) (i : Nat) (pid : Pid) :
    RoundEnd T → Local → Prop where
  | next {t' : Tracking T} {map : MemoryMap T} {l : Local} : t'.maps = (t.setMap i map).maps →
    t'.pending = t.pending → l.status.Released →
      Run Serves initial l.past map → Settled initial t i pid (.inl (.next t')) l
  | exited {t' : Tracking T} {l : Local} : (handleThreadExit t.maps pid) = (.continue_, t'.maps) →
    t'.pending = t.pending →
      l.status = .reaped → Mediated initial l.past →
      (l.killed = false → ∃ e, t.maps[i]? = some e ∧ Run Serves initial l.past e.map) →
      Settled initial t i pid (.inl (.next t')) l
  | syscallExit {t' : Tracking T} {map : MemoryMap T} {event : Event} {l : Local} :
    t'.maps = (t.setMap i map).maps →
      t'.pending = t.pending → ExitReady initial map event l →
      Settled initial t i pid (.inl (.syscallExit t' i pid event)) l
  | ended {ending : Ending} {l : Local} : l.Parked initial → Settled initial t i pid (.inr ending) l

/-! ### System calls that are not run -/

section Refuse

variable {initial : MemoryMap T} {pid : Pid} {α : Type} {post : α → Local → Prop} {l : Local}
  {past : List Entry}
  {regs : Regs} {pkru : UInt32} {t : Tracking T}

theorem wp_resume_any {S : Local → Prop} {request : Resume} {sig : Nat} {stop : Stop} {seen : Bool}
    {p : Tracing α} (hrequest : request ≠ .listen) (hmediated : Mediated initial past)
    (h : l.Has initial (.stopped stop regs pkru seen) past)
    (hresumed : ∀ l : Local, l.status = .resumed stop regs pkru (request = .syscall) →
    l.past = stop.pastOnResume past → S l) (hlost : ∀ l : Local, l.Lost initial → S l)
    (hnext : ∀ l : Local, S l → WpFor initial pid p post l) :
    WpFor initial pid (resume request pid sig >>= fun _ => p) post l := by
  apply wp_resume hrequest hmediated h
  · exact fun l hstatus hpast => hnext l (hresumed l hstatus hpast)
  · exact fun l hl => hnext l (hlost l hl)

theorem wp_returnSyscallValue {retval : Int} {f : Unit → Tracing α}
    (hmediated : Mediated initial past) (h : l.Has initial (.stopped .seccomp regs pkru true) past)
    (hnext : ∀ l : Local, l.Has initial (.stopped .exit ⟨none, UInt64.ofInt retval⟩ pkru true)
    past → WpFor initial pid (f ()) post l) :
    WpFor initial pid (returnSyscallValue pid retval >>= f) post l := by
  apply Wp.bind
  unfold returnSyscallValue
  have hlost : ∀ l : Local, l.Lost initial → WpFor initial pid (f ()) post l :=
    fun l hl => hnext l (.inr hl)
  apply wp_getRegs hmediated h _ hlost
  intro l hstatus hpast
  apply wp_setRegs hmediated (.inl ⟨hstatus, hpast⟩)
  intro l hl
  -- with the number -1 the thread goes straight to the exit of the call
  apply wp_resume_any (S := fun l => l.Has initial (.stopped .exit ⟨none, regs.retval⟩ pkru false)
    past) (by simp) hmediated hl
  · exact fun l hstatus hpast => .inl ⟨hstatus, hpast⟩
  · exact fun l hl => .inr hl
  · intro l hl
    apply wp_waitpid hmediated hl
    intro l _ hl
    apply wp_getRegs hmediated hl _ hlost
    intro l hstatus hpast
    apply wp_setRegs hmediated (.inl ⟨hstatus, hpast⟩)
    exact hnext

theorem wp_goOnOrFail {i : Nat} {map : MemoryMap T} (hrun : Run Serves initial past map)
    (hmap : t.maps = (t.setMap i map).maps)
    (h : l.Has initial (.stopped .exit regs pkru true) past) :
    WpFor initial pid (goOnOrFail .seccomp t pid) (Settled initial t i pid) l := by
  apply wp_resume (by simp [continueRequest]) (.recorded hrun) h
  · intro l hstatus hpast
    have hreleased : l.status.Released := by
      rw [hstatus]
      rfl
    exact .next hmap rfl hreleased (hpast ▸ hrun)
  · exact fun l hl => .ended hl.parked

end Refuse

/-! ### System calls that are run -/

section Finish

variable {initial map : MemoryMap T} {pid : Pid} {l : Local} {past : List Entry} {regs : Regs}
  {pkru : UInt32} {t : Tracking T}
  {i : Nat} {event : Event} {stop : Stop}

theorem wp_resume_at {α : Type} {post : α → Local → Prop} {request : Resume} {sig : Nat}
    {p : Tracing α} {seen : Bool} (hrequest : request ≠ .listen) (hmediated : Mediated initial past)
    (h : l.At (.stopped stop regs pkru seen) past)
    (hresumed : ∀ l : Local, l.status = .resumed stop regs pkru (request = .syscall) →
    l.past = stop.pastOnResume past → WpFor initial pid p post l)
    (hkilled : ∀ l : Local, l.Killed past → WpFor initial pid p post l) :
    WpFor initial pid (resume request pid sig >>= fun _ => p) post l := by
  rw [resume_bind]
  apply wp_ask_at rfl hmediated h
  · intro killed a l' hans
    cases request with
    | listen => exact absurd rfl hrequest
    | _ =>
      obtain ⟨-, rfl⟩ := hans
      exact hresumed _ rfl rfl
  · intro l a l' hl hans
    obtain ⟨-, rfl⟩ := (hl.lost hmediated).resume_eq hans
    exact hkilled _ hl

theorem wp_finishEvent (hmediated : Mediated initial past)
    (hstatus : l.status = .stopped stop regs pkru true) (hpast : l.past = past)
    (hstop : (Status.resumed stop regs pkru false).Released ∧ stop.pastOnResume past = past)
    (hmap : ∃ e, t.maps[i]? = some e ∧ e.map = map)
    (hrecord : ∀ map', map.finishSyscall event regs.retval = .ok (map', true) →
    Run Serves initial past map') :
    WpFor initial pid (finishEvent .seccomp t i pid event) (Settled initial t i pid) l := by
  obtain ⟨e, he, rfl⟩ := hmap
  apply wp_getRegs hmediated (.inl ⟨hstatus, hpast⟩)
  case hnone => exact fun l hl => .ended hl.parked
  intro l hstatus hpast
  have hparked : l.Parked initial := ⟨hpast ▸ hmediated, by simp [hstatus, Status.Parked]⟩
  simp only [he]
  cases hfinish : e.map.finishSyscall event regs.retval with
  | error abort => exact .ended hparked
  | ok result =>
    obtain ⟨map', recorded⟩ := result
    cases recorded with
    | false => exact .ended hparked
    | true =>
      have hrun := hrecord map' hfinish
      apply wp_resume_at (by simp [continueRequest]) hmediated (.inl ⟨hstatus, hpast⟩)
      · intro l hstatus hpast
        have hreleased : l.status.Released := by
          rw [hstatus]
          exact hstop.1
        exact .next rfl rfl hreleased ((hpast.trans hstop.2) ▸ hrun)
      · intro l hl
        obtain ⟨death, hdead⟩ := hl.dead
        have hreleased : l.status.Released := by
          rw [hdead]
          trivial
        exact .next rfl rfl hreleased (hl.past_eq ▸ hrun)

theorem wp_exitThread (hreaped : l.status = .reaped) (hmediated : Mediated initial l.past)
    (hserved : l.killed = false → ∃ e, t.maps[i]? = some e ∧ Run Serves initial l.past e.map) :
    WpFor initial pid (exitThread t pid) (Settled initial t i pid) l := by
  have hparked : l.Parked initial := ⟨hmediated, by simp [hreaped, Status.Parked]⟩
  unfold exitThread
  split
  case h_1 maps hexit => exact .exited hexit rfl hreaped hmediated hserved
  case h_2 maps hexit => exact .ended hparked
  case h_3 maps hexit => exact .ended hparked

end Finish

/-! ### Waiting for a call to return -/

inductive Awaiting (initial : MemoryMap T) (after : UInt64 → List Entry → Prop)
    (idle : List Entry → Prop) (l : Local) : Prop where
  | calling {map : MemoryMap T} {call : UserRegs} {pkru : UInt32} {event : Event} :
    l.status = .calling call pkru true →
      call.syscall.traced = true → Run Serves initial l.past map → Allows map call pkru event →
      (∀ retval, Completes call retval → after retval (l.past ++ [.call call pkru retval])) →
      Awaiting initial after idle l
  | returned {regs : Regs} {pkru : UInt32} : l.status = .stopped .exit regs pkru false →
    Mediated initial l.past → after regs.retval l.past →
      Awaiting initial after idle l
  | running : l.status = .running true → Mediated initial l.past → idle l.past →
    Awaiting initial after idle l
  | entered {call : UserRegs} {pkru : UInt32} :
    l.status = .stopped .entry ⟨some call, ENOSYS⟩ pkru false → Mediated initial l.past →
      idle l.past → Awaiting initial after idle l
  | lost : l.Lost initial → Awaiting initial after idle l

section Awaiting

variable {initial : MemoryMap T} {after : UInt64 → List Entry → Prop} {idle : List Entry → Prop}
  {l l' : Local}

theorem Awaiting.mediated (h : Awaiting initial after idle l) : Mediated initial l.past := by
  cases h with
  | calling _ _ hrun _ _ => exact .recorded hrun
  | returned _ hmediated _ => exact hmediated
  | running _ hmediated _ => exact hmediated
  | entered _ hmediated _ => exact hmediated
  | lost hlost => exact hlost.mediated

theorem Awaiting.move (h : Awaiting initial after idle l) (hmove : l.Moves l') :
    Awaiting initial after idle l' := by
  have hmediated := h.mediated
  cases hmove with
  | @run call pkru traced killed past retval htraced hcompletes =>
    cases h with
    | calling hstatus _ hrun hallows hafter =>
      cases hstatus
      exact .returned rfl (.running hrun hallows) (hafter retval hcompletes)
    | lost hlost => exact hlost.gone.elim
    | _ hstatus => cases hstatus
  | call call pkru =>
    cases h with
    | running _ hmediated hidle => exact .entered rfl hmediated hidle
    | lost hlost => exact hlost.gone.elim
    | _ hstatus => cases hstatus
  | @kill status past killed death =>
    apply Awaiting.lost
    constructor
    · exact hmediated
    · rfl
    · cases status <;> trivial

theorem Awaiting.held (h : Awaiting initial after idle l) : l.Held := by
  cases h with
  | calling hstatus htraced _ _ _ =>
    unfold Local.Held
    rw [hstatus]
    exact htraced
  | lost hlost => exact hlost.held
  | _ hstatus => simp [Local.Held, hstatus]

theorem Awaiting.safe (h : Awaiting initial after idle l) : l.Safe initial := by
  constructor
  · exact h.mediated
  · intro call pkru traced hcall
    cases h with
    | calling hstatus _ hrun hallows _ =>
      rw [hcall] at hstatus
      cases hstatus
      exact ⟨_, _, hrun, hallows⟩
    | lost hlost => exact hlost.safe.allowed call pkru traced hcall
    | _ hstatus => simp [hcall] at hstatus

end Awaiting

section SyscallExit

variable {initial map : MemoryMap T} {pid : Pid} {l : Local} {t : Tracking T} {i : Nat}
  {event : Event}

variable {status : Option Nat} {retval : UInt64}

theorem Settled.of_noteExit {r : RoundEnd T} (h : Settled initial (t.noteExit status) i pid r l) :
    Settled initial t i pid r l := by
  cases h with
  | next hmaps hpending hreleased hrun => exact .next hmaps hpending hreleased hrun
  | exited hexit hpending hreaped hmediated hserved =>
    exact .exited hexit hpending hreaped hmediated hserved
  | syscallExit hmaps hpending hready => exact .syscallExit hmaps hpending hready
  | ended hparked => exact .ended hparked

theorem wp_of_noteExit {p : Tracing (RoundEnd T)}
    (h : WpFor initial pid p (Settled initial (t.noteExit status) i pid) l) :
    WpFor initial pid p (Settled initial t i pid) l :=
  h.mono fun _ _ => Settled.of_noteExit

theorem finishSyscall_failed (h : 2 ^ 63 ≤ retval.toNat) :
    map.finishSyscall event retval = .ok (map, true) := by
  unfold MemoryMap.finishSyscall updateEventWithResult
  rw [if_pos h]
  rfl

theorem finishSyscall_clone (retval : UInt64) :
    map.finishSyscall .clone retval = .ok (map, true) := by
  unfold MemoryMap.finishSyscall updateEventWithResult
  by_cases h : 2 ^ 63 ≤ retval.toNat
  · rw [if_pos h]
    rfl
  · rw [if_neg h]
    rfl

theorem released_enter (call : UserRegs) (pkru : UInt32) :
    (Status.enter call pkru false).Released := by
  unfold Status.enter
  cases htraced : call.syscall.traced with
  | true => exact ⟨rfl, rfl, call, rfl, htraced⟩
  | false => exact ⟨rfl, htraced⟩

def Recordable (initial map : MemoryMap T) (event : Event) (retval : UInt64)
    (past : List Entry) : Prop :=
  ∀ map', map.finishSyscall event retval = .ok (map', true) → Run Serves initial past map'

theorem recordable_failed {past : List Entry} (hrun : Run Serves initial past map)
    (h : 2 ^ 63 ≤ retval.toNat) :
    Recordable initial map event retval past := by
  intro map' hfinish
  rw [finishSyscall_failed h] at hfinish
  cases hfinish
  exact hrun

theorem wp_awaitExit (hmap : ∃ e, t.maps[i]? = some e ∧ e.map = map)
    (h : Awaiting initial (Recordable initial map event)
      (fun past => Run Serves initial past map) l) :
    WpFor initial pid (waitForNextTrap (some pid) >>= fun trap =>
      exitTrap .seccomp (t.noteExit trap.2.2) i pid event trap.1)
      (Settled initial t i pid) l := by
  apply wp_waitForNextTrap (fun l l' hl hmove => Awaiting.move hl hmove)
    (fun l hl => ⟨hl.held, hl.safe⟩) _ _ _ _ h
  · intro l stop regs pkru hl hstatus
    have hmediated := hl.mediated
    cases hl with
    | returned hexit _ hafter =>
      cases hstatus.symm.trans hexit
      constructor
      · exact nofun
      · apply wp_of_noteExit
        apply wp_finishEvent
        · exact hmediated
        · rfl
        · rfl
        · exact ⟨rfl, rfl⟩
        · exact hmap
        · exact hafter
    | @entered call _ hentry _ hidle =>
      cases hstatus.symm.trans hentry
      have hrecord : Recordable initial map event ENOSYS l.past :=
        recordable_failed hidle (by decide)
      constructor
      · exact nofun
      · apply wp_of_noteExit
        apply wp_finishEvent
        · exact hmediated
        · rfl
        · rfl
        · exact ⟨released_enter call pkru, rfl⟩
        · exact hmap
        · exact hrecord
    | lost hlost =>
      have hgone := hlost.gone
      rw [hstatus] at hgone
      exact hgone.elim
    | _ hother => simp [hstatus] at hother
  · intro l code hl hstatus
    obtain ⟨e, he, rfl⟩ := hmap
    apply wp_of_noteExit
    apply wp_exitThread
    · rfl
    · exact hl.mediated
    · intro hkilled
      cases hl with
      | lost hlost => exact absurd (hlost.killed.symm.trans hkilled) nofun
      | _ hother => simp [hstatus] at hother
  · intro l sig hl hstatus
    exact .ended ⟨hl.mediated, trivial⟩
  · intro l hl hstatus
    exact .ended ⟨hl.mediated, by simp [hstatus, Status.Parked]⟩

theorem wp_syscallExit (hmap : ∃ e, t.maps[i]? = some e ∧ e.map = map)
    (h : ExitReady initial map event l) :
    WpFor initial pid (syscallExit .seccomp t i pid event) (Settled initial t i pid) l := by
  unfold syscallExit
  have hlost : ∀ l : Local, l.Lost initial → WpFor initial pid
      (waitForNextTrap (some pid) >>= fun trap =>
      exitTrap .seccomp (t.noteExit trap.2.2) i pid event trap.1) (Settled initial t i pid) l :=
    fun l hl => wp_awaitExit hmap (.lost hl)
  cases h with
  | @permitted regs call pkru hstatus hcall htraced hrun hallows hmarks =>
    apply wp_resume_at (by simp) (.recorded hrun) (.inl ⟨hstatus, rfl⟩)
    · intro l' hstatus' hpast
      apply wp_awaitExit hmap
      have hresumed : l'.status = .calling call pkru true := by
        rw [hstatus']
        simp [Status.resumed, hcall]
      have hpast' : l'.past = l.past := hpast
      apply Awaiting.calling hresumed htraced (hpast' ▸ hrun) hallows
      intro retval _ map' hfinish
      exact (hpast' ▸ hrun).snoc (.record hallows hmarks hfinish)
    · exact fun l hl => hlost l (hl.lost (.recorded hrun))
  | @spawned stop regs pkru child hstop hstatus hrun hevent =>
    subst hevent
    apply wp_resume_at (by simp) (.recorded hrun) (.inl ⟨hstatus, rfl⟩)
    · intro l' hstatus' hpast
      have hreturned : l'.status = .stopped .exit { regs with retval := UInt64.ofInt child } pkru
          false ∧ l'.past = l.past := by
        rw [hstatus', hpast]
        rcases hstop with rfl | rfl <;> exact ⟨rfl, rfl⟩
      apply wp_awaitExit hmap
      apply Awaiting.returned hreturned.1 (hreturned.2 ▸ .recorded hrun)
      intro map' hfinish
      rw [finishSyscall_clone] at hfinish
      cases hfinish
      exact hreturned.2 ▸ hrun
    · exact fun l hl => hlost l (hl.lost (.recorded hrun))
  | @replaced map' regs pkru hstatus hrun hclear hevent =>
    subst hevent hclear
    apply wp_resume_at (by simp) (.recorded hrun) (.inl ⟨hstatus, rfl⟩)
    · intro l' hstatus' hpast
      have hpast' : l'.past = l.past ++ [.exec] := hpast
      have hrun' : Run Serves initial l'.past map'.clear := hpast' ▸ hrun.snoc .exec
      apply wp_awaitExit hmap
      apply Awaiting.returned hstatus' (.recorded hrun')
      intro map'' hfinish
      cases hfinish
      exact hrun'
    · exact fun l hl => hlost l (hl.lost (.recorded hrun))
  | @initFinished regs pkru hstatus hrun =>
    apply wp_resume_at (by simp) (.recorded hrun) (.inl ⟨hstatus, rfl⟩)
    · intro l' hstatus' hpast
      have hpast' : l'.past = l.past := hpast
      apply wp_awaitExit hmap
      exact .running hstatus' (hpast' ▸ .recorded hrun) (hpast' ▸ hrun)
    · exact fun l hl => hlost l (hl.lost (.recorded hrun))
  | lost hl =>
    rw [resume_bind]
    apply wp_ask_lost rfl hl
    intro l a l' hl hans
    obtain ⟨-, rfl⟩ := hl.resume_eq hans
    exact hlost _ hl

end SyscallExit

/-! ### Deciding about a call -/

section Entry

variable {initial map : MemoryMap T} {pid : Pid} {l : Local} {past : List Entry} {regs : Regs}
  {call : UserRegs} {pkru : UInt32}
  {t : Tracking T} {i : Nat} {event : Event} {e : MemoryMapForProcess (MemoryMap T)}

omit [IntervalTree T Nat State] in
theorem Tracking.setMap_self (h : t.maps[i]? = some e) : (t.setMap i e.map).maps = t.maps := by
  apply List.ext_getElem?
  intro j
  rw [setMap, List.getElem?_modify]
  by_cases hj : i = j
  · subst hj
    simp [h]
  · simp [hj]

variable {stop : Stop}

theorem Local.Has.parked {seen : Bool} (h : l.Has initial (.stopped stop regs pkru seen) past)
    (hmediated : Mediated initial past) :
    l.Parked initial := by
  obtain ⟨hstatus, hpast⟩ | hlost := h
  · exact ⟨hpast ▸ hmediated, by simp [hstatus, Status.Parked]⟩
  · exact hlost.parked

variable {pkey : UInt8}

theorem initCall_fails {retval : UInt64} (hevent : interpretSyscall call pkey .seccomp = some event)
    (hmarks : eventMarksInitFinished event = true) (hcompletes : Completes call retval) :
    2 ^ 63 ≤ retval.toNat := by
  by_contra hok
  have haccepts := hcompletes.2.2 (Nat.not_le.mp hok)
  cases hcall : call.syscall with
  | mmap =>
    simp only [interpretSyscall, hcall, Option.some.injEq] at hevent
    subst hevent
    simp only [eventMarksInitFinished, Bool.and_eq_true, decide_eq_true_eq] at hmarks
    simp only [Accepts, hcall] at haccepts
    obtain ⟨-, haligned, -, hfixed⟩ := haccepts
    rw [hfixed hmarks.2, hmarks.1] at haligned
    exact absurd haligned (by decide)
  | other => simp [interpretSyscall, hcall] at hevent
  | _ =>
    simp only [interpretSyscall, hcall, Option.some.injEq] at hevent
    subst hevent
    exact absurd hmarks nofun

theorem wp_initFinished (hcall : regs.call = some call) (htraced : call.syscall.traced = true)
    (hrun : Run Serves initial past map) (hallows : Allows map call pkru event)
    (hmarks : eventMarksInitFinished event = true)
    (h : l.Has initial (.stopped .seccomp regs pkru true) past) :
    WpFor initial pid (handleEvent .seccomp t i map pid event) (Settled initial t i pid) l := by
  have hinit : map.initFinished = false := by simpa [hmarks] using hallows.permitted
  have hmark : map.markInitFinished = ({ map with initFinished := true }, true) := by
    simp [MemoryMap.markInitFinished, hinit]
  unfold handleEvent
  simp only [hmarks, hmark, if_true]
  set marked : MemoryMap T := { map with initFinished := true } with hmarked
  apply wp_resume_any (S := Awaiting initial (fun _ past => Run Serves initial past marked) fun _ =>
    False) (by simp) (.recorded hrun) h
  · intro l hstatus hpast
    have hpast' : l.past = past := hpast
    have hresumed : l.status = .calling call pkru true := by
      rw [hstatus]
      simp [Status.resumed, hcall]
    apply Awaiting.calling hresumed htraced (hpast' ▸ hrun) hallows
    intro retval hcompletes
    exact (hpast' ▸ hrun).snoc
      (.finishInit hallows hmarks (initCall_fails hallows.interpreted hmarks hcompletes))
  · exact fun l hl => .lost hl
  · intro l hl
    apply wp_waitForNextTrap (fun l l' hl hmove => Awaiting.move hl hmove)
      (fun l hl => ⟨hl.held, hl.safe⟩) _ _ _ _ hl
    · intro l stop regs pkru hl hstatus
      cases hl with
      | returned hexit _ hafter =>
        cases hstatus.symm.trans hexit
        exact ⟨nofun, .syscallExit rfl rfl (.initFinished rfl hafter)⟩
      | entered _ _ hidle => exact hidle.elim
      | lost hlost =>
        have hgone := hlost.gone
        rw [hstatus] at hgone
        exact hgone.elim
      | _ hother => simp [hstatus] at hother
    · intro l code hl hstatus
      exact .ended ⟨hl.mediated, trivial⟩
    · intro l sig hl hstatus
      exact .ended ⟨hl.mediated, trivial⟩
    · intro l hl hstatus
      exact .ended ⟨hl.mediated, by simp [hstatus, Status.Parked]⟩

theorem wp_handleEvent (he : t.maps[i]? = some e) (hcall : regs.call = some call)
    (htraced : call.syscall.traced = true) (hrun : Run Serves initial past e.map)
    (hvalid : pkeyForPkru pkru ≠ PKEY_INVALID)
    (hevent : interpretSyscall call (pkeyForPkru pkru) .seccomp = some event)
    (h : l.Has initial (.stopped .seccomp regs pkru true) past) :
    WpFor initial pid (handleEvent .seccomp t i e.map pid event) (Settled initial t i pid) l := by
  have hmediated : Mediated initial past := .recorded hrun
  have hself := Tracking.setMap_self he
  by_cases hmarks : eventMarksInitFinished event = true
  · by_cases hinit : e.map.initFinished = true
    · simp only [handleEvent, hmarks, MemoryMap.markInitFinished, hinit, if_true]
      exact .ended (h.parked hmediated)
    · apply wp_initFinished hcall htraced hrun _ hmarks h
      exact ⟨hvalid, hevent, by simpa [hmarks] using hinit⟩
  unfold handleEvent
  rw [if_neg hmarks]
  by_cases hmaps : eventIsRequestProcSelfMaps event = true
  · rw [if_pos hmaps]
    apply wp_pokeProcSelfMaps hmediated h
    intro l len hl
    apply wp_returnSyscallValue hmediated hl
    exact fun l hl => wp_goOnOrFail hrun hself.symm hl
  rw [if_neg hmaps]
  cases hpermitted : e.map.isOpPermitted event with
  | error abort => exact .ended (h.parked hmediated)
  | ok permitted =>
    cases permitted with
    | true =>
      apply Settled.syscallExit hself.symm rfl
      obtain ⟨hstatus, rfl⟩ | hlost := h
      · have hallows : Allows e.map call pkru event :=
          ⟨hvalid, hevent, by simpa [hmarks, hpermitted] using hmaps⟩
        exact .permitted hstatus hcall htraced hrun hallows (by simpa using hmarks)
      · exact .lost hlost
    | false =>
      cases event.targetRange.elim (.ok 0) e.map.regionGetOwnerPkey with
      | error abort => exact .ended (h.parked hmediated)
      | ok owner =>
        apply wp_returnSyscallValue hmediated h
        exact fun l hl => wp_goOnOrFail hrun hself.symm hl

inductive EntryReady (initial map : MemoryMap T) (l : Local) : Prop where
  | seccomp {regs : Regs} {call : UserRegs} {pkru : UInt32} :
    l.status = .stopped .seccomp regs pkru true → regs.call = some call →
      call.syscall.traced = true → Run Serves initial l.past map → EntryReady initial map l
  | spawned {stop : Stop} {regs : Regs} {call : UserRegs} {pkru : UInt32} (child : Pid) :
    stop = .clone child ∨ stop = .fork child →
      l.status = .stopped stop regs pkru true → regs.call = some call → call.syscall.spawns →
      Run Serves initial l.past map →
      EntryReady initial map l
  | replaced {map' : MemoryMap T} {regs : Regs} {call : UserRegs} {pkru : UInt32} :
    l.status = .stopped .exec regs pkru true →
      regs.call = some call → call.syscall.execs → Run Serves initial l.past map' →
      map = map'.clear → EntryReady initial map l
  | lost : l.Lost initial → EntryReady initial map l

theorem wp_readCall (hmediated : Mediated initial past) (hcall : regs.call = some call)
    (hstatus : l.status = .stopped stop regs pkru true) (hpast : l.past = past)
    (he : t.maps[i]? = some e)
    (hevent : ∀ (l : Local) event, l.Has initial (.stopped stop regs pkru true) past →
    pkeyForPkru pkru ≠ PKEY_INVALID → interpretSyscall call (pkeyForPkru pkru) .seccomp =
    some event → WpFor initial pid (handleEvent .seccomp t i e.map pid event)
    (Settled initial t i pid) l) :
    WpFor initial pid (syscallEntry .seccomp t i pid) (Settled initial t i pid) l := by
  unfold syscallEntry
  apply wp_getRegs hmediated (.inl ⟨hstatus, hpast⟩)
  case hnone => exact fun l hl => .ended hl.parked
  intro l hstatus hpast
  simp only [hcall]
  apply wp_getInferiorPkru hmediated (.inl ⟨hstatus, hpast⟩)
  intro l a hl ha
  obtain rfl | rfl := ha
  · exact .ended (hl.parked hmediated)
  by_cases hvalid : pkeyForPkru pkru = PKEY_INVALID
  · simp only [hvalid, if_true]
    exact .ended (hl.parked hmediated)
  cases hinterpreted : interpretSyscall call (pkeyForPkru pkru) .seccomp with
  | none =>
    simp only [hvalid, hinterpreted, if_false]
    exact .ended (hl.parked hmediated)
  | some event =>
    simp only [hvalid, hinterpreted, he, if_false]
    exact hevent l event hl hvalid hinterpreted

theorem interpretSyscall_spawns (h : call.syscall.spawns) :
    interpretSyscall call pkey .seccomp = some .clone := by
  unfold interpretSyscall
  cases hcall : call.syscall with
  | clone => rfl
  | clone3 => rfl
  | _ => simp [hcall, Sysno.spawns] at h

theorem interpretSyscall_execs (h : call.syscall.execs) :
    interpretSyscall call pkey .seccomp = some .exec := by
  unfold interpretSyscall
  cases hcall : call.syscall with
  | execve => rfl
  | execveat => rfl
  | _ => simp [hcall, Sysno.execs] at h

theorem wp_syscallEntry (he : t.maps[i]? = some e) (h : EntryReady initial e.map l) :
    WpFor initial pid (syscallEntry .seccomp t i pid) (Settled initial t i pid) l := by
  have hself := Tracking.setMap_self he
  cases h with
  | seccomp hstatus hcall htraced hrun =>
    apply wp_readCall (.recorded hrun) hcall hstatus rfl he
    intro l' event hl' hvalid hevent
    exact wp_handleEvent he hcall htraced hrun hvalid hevent hl'
  | @spawned stop regs call pkru child hstop hstatus hcall hspawns hrun =>
    apply wp_readCall (.recorded hrun) hcall hstatus rfl he
    intro l' event hl' _ hevent
    rw [interpretSyscall_spawns hspawns] at hevent
    cases hevent
    apply Settled.syscallExit hself.symm rfl
    obtain ⟨hstatus', hpast⟩ | hlost := hl'
    · exact .spawned child hstop hstatus' (hpast ▸ hrun) rfl
    · exact .lost hlost
  | replaced hstatus hcall hexecs hrun hclear =>
    apply wp_readCall (.recorded hrun) hcall hstatus rfl he
    intro l' event hl' _ hevent
    rw [interpretSyscall_execs hexecs] at hevent
    cases hevent
    apply Settled.syscallExit hself.symm rfl
    obtain ⟨hstatus', hpast⟩ | hlost := hl'
    · exact .replaced hstatus' (hpast ▸ hrun) hclear rfl
    · exact .lost hlost
  | lost hlost =>
    apply wp_ask_lost rfl hlost
    rintro l a l' hl ⟨rfl, rfl⟩
    rw [hl.regs?_eq]
    exact .ended hl.parked

end Entry

/-! ### Signals -/

section Signals

variable {initial : MemoryMap T} {pid : Pid} {l : Local} {past : List Entry} {regs : Regs}
  {pkru : UInt32} {t : Tracking T} {i : Nat}
  {e : MemoryMapForProcess (MemoryMap T)} {stop : Stop}

inductive OfSignal : WaitTrapResult → Prop where
  | stop : OfSignal .stop
  | cont : OfSignal .cont
  | sigchld : OfSignal .sigchld
  | sigsegv : OfSignal .sigsegv
  | error : OfSignal .error

variable {sig : Nat}

theorem wp_stoppedBy {sig' : Nat} (hsig : sig' < 128) (hmediated : Mediated initial past)
    (h : l.At (.stopped (.signal sig) regs pkru true) past) :
    WpFor initial pid (stoppedBy pid sig') (fun result l =>
      OfSignal result ∧ l.At (.stopped (.signal sig) regs pkru true) past) l := by
  unfold stoppedBy
  have htrap : sig' ≠ SIGTRAP + 0x80 := by
    have : SIGTRAP + 0x80 = 133 := rfl
    omega
  rw [if_neg htrap]
  split
  · apply wp_ask_at rfl hmediated h
    · rintro killed a l' ⟨rfl, rfl⟩
      exact ⟨.stop, .inl ⟨rfl, rfl⟩⟩
    · rintro ⟨status, past', killed⟩ a l' hl ⟨ha, rfl⟩
      obtain ⟨death, hdead⟩ := hl.dead
      obtain rfl : status = .dead death := hdead
      obtain rfl : a = .error .esrch := ha
      exact ⟨.stop, .inr hl⟩
  split
  · exact ⟨.cont, h⟩
  split
  · exact ⟨.sigchld, h⟩
  split
  · exact ⟨.sigsegv, h⟩
  · exact ⟨.error, h⟩

theorem wp_trapOf_signal (hmediated : Mediated initial past)
    (h : l.At (.stopped (.signal sig) regs pkru true) past) :
    WpFor initial pid (trapOf pid (Stop.signal sig).waitStatus)
      (fun trap l => OfSignal trap.1 ∧ trap.2 = (pid, none) ∧
        l.At (.stopped (.signal sig) regs pkru true) past) l := by
  have hlt : sig % 128 < 128 := Nat.mod_lt _ (by omega)
  have hstat : (Stop.signal sig).waitStatus = 127 + 256 * (sig % 128) := rfl
  have hexited : ¬ WIFEXITED (127 + 256 * (sig % 128)) = true := by
    rw [WIFEXITED, decide_eq_true_eq]
    omega
  have hsignaled : ¬ WIFSIGNALED (127 + 256 * (sig % 128)) = true := by
    rw [WIFSIGNALED, decide_eq_true_eq]
    omega
  have hstopped : WIFSTOPPED (127 + 256 * (sig % 128)) = true := by
    rw [WIFSTOPPED, decide_eq_true_eq]
    omega
  have hevent : (127 + 256 * (sig % 128)) / 65536 = 0 := by omega
  have hstopsig : WSTOPSIG (127 + 256 * (sig % 128)) = sig % 128 := by
    rw [WSTOPSIG]
    omega
  rw [hstat, trapOf, if_neg hexited, if_neg hsignaled, if_pos hstopped, hevent, hstopsig]
  apply Wp.bind
  apply (wp_stoppedBy hlt hmediated h).mono
  rintro result l ⟨hresult, hl⟩
  exact ⟨hresult, rfl, hl⟩

def Stop.Passing (stop : Stop) : Prop := stop = .attached ∨ stop.Interrupts

theorem wp_deliver (he : t.maps[i]? = some e) (hrun : Run Serves initial past e.map)
    (hstop : stop.Passing) (h : l.At (.stopped stop regs pkru true) past) :
    WpFor initial pid (deliver .seccomp t pid sig) (Settled initial t i pid) l := by
  have hself := (Tracking.setMap_self he).symm
  apply wp_resume_at (by simp [continueRequest]) (.recorded hrun) h
  · intro l hstatus hpast
    have hresumed : l.status = .running false ∧ l.past = past := by
      rw [hstatus, hpast]
      obtain rfl | hinterrupts := hstop
      · exact ⟨rfl, rfl⟩
      · cases stop with
        | signal _ => exact ⟨rfl, rfl⟩
        | group _ => exact ⟨rfl, rfl⟩
        | _ => exact hinterrupts.elim
    apply Settled.next hself rfl
    · rw [hresumed.1]
      rfl
    · exact hresumed.2 ▸ hrun
  · intro l hl
    obtain ⟨death, hdead⟩ := hl.dead
    apply Settled.next hself rfl
    · rw [hdead]
      trivial
    · exact hl.past_eq ▸ hrun

theorem wp_handleError (hmediated : Mediated initial past)
    (h : l.At (.stopped stop regs pkru true) past) :
    WpFor initial pid (handleTrap .seccomp t i pid .error) (Settled initial t i pid) l := by
  apply wp_ask_at rfl hmediated h
  · rintro killed a l' ⟨-, rfl⟩
    exact .ended ⟨hmediated, trivial⟩
  · rintro l a l' hl ⟨-, rfl⟩
    exact .ended (hl.lost hmediated).parked

theorem wp_handleSignal {result : WaitTrapResult} (hresult : OfSignal result)
    (he : t.maps[i]? = some e) (hrun : Run Serves initial past e.map) (hstop : stop.Passing)
    (h : l.At (.stopped stop regs pkru true) past) :
    WpFor initial pid (handleTrap .seccomp t i pid result) (Settled initial t i pid) l := by
  cases hresult with
  | error => exact wp_handleError (.recorded hrun) h
  | _ => exact wp_deliver he hrun hstop h

end Signals

end Ia2.Tracer
