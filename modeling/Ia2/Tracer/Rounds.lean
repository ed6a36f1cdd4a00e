import Ia2.Tracer.Children

/-!
# The rounds of the tracer's loop

Each round of the loop waits for the next stop of any thread, or goes on with the call of one. It
starts and ends with the table of processes in agreement with the threads, so the loop keeps an
invariant whatever the threads do.
-/

namespace Ia2.Tracer

variable {T : Type} [IntervalTree T Nat State]

section Next

variable {initial : MemoryMap T} {t : Tracking T} {i : Nat} {pid : Pid} {owner : Pid → Option Nat}
  {mapOf : Nat → MemoryMap T}
  {th : Thread} {k k' : Tracees} {stop : Stop} {regs : Regs} {pkru : UInt32}
    {allowed : Tracees → Move → Prop}

/-! ### A thread that the tracer knows -/

variable {f : WaitTrapResult × Pid × Option Nat → Tracing (RoundEnd T)} {a : Pid × Nat}

theorem wp_handleStop (hallowed : ∀ k m, allowed k m → k.Orderly m)
    (hf : ∀ result, f (result, pid, none) = handleTrap .seccomp t i pid result)
    (hsees : Sees initial t i pid owner mapOf th k)
    (hstatus : th.status = .stopped stop regs pkru true) (hfits : stop.Fits regs)
    (hrun : Run Serves initial (k.past th.process) (mapOf th.process))
    (hbirth : ∀ child, stop.child? = some child → owner child = none ∧ ∃ thc,
    Birth k pid th.process stop child thc) :
    WpAmong initial allowed (trapOf pid stop.waitStatus >>= f)
      (Rounds initial) k := by
  obtain ⟨e, he, hmap⟩ := hsees.map_eq
  have hat : (k.view th).At (.stopped stop regs pkru true) (k.past th.process) :=
    .inl ⟨hstatus, rfl⟩
  have hrun' : Run Serves initial (k.past th.process) e.map := hmap ▸ hrun
  have hannounces : ∀ child, stop.child? = some child →
      Announces initial t i pid stop regs pkru child (k.past th.process) k := by
    intro child hchild
    obtain ⟨hunknown, thc, hbirth⟩ := hbirth child hchild
    exact ⟨owner, mapOf, th, thc, hsees, hbirth, hunknown, hat, hrun⟩
  -- all stops but those for signals are read off the status alone
  have htrap : ∀ {p}, (∀ sig, stop ≠ .signal sig) → handleTrap .seccomp t i pid stop.trap = p →
      WpAmong initial allowed p (Rounds initial) k →
      WpAmong initial allowed (trapOf pid stop.waitStatus >>= f)
      (Rounds initial) k := by
    rintro p hsig rfl hp
    rw [trapOf_stop pid hsig, Prog.done_bind, hf]
    exact hp
  cases stop with
  | signal sig =>
    apply Wp.bind
    apply (wp_of_local hallowed ⟨owner, mapOf, th, hsees, rfl⟩
      (wp_trapOf_signal (.recorded hrun) hat)).mono
    rintro ⟨result, p, status⟩ k' ⟨l, ⟨owner', mapOf', th', hsees', rfl⟩, hresult, htrap, hat'⟩
    cases htrap
    have hpassing : (Stop.signal sig).Passing := .inr trivial
    rw [hf]
    exact wp_settled hallowed hsees' (wp_handleSignal hresult he hrun' hpassing hat')
  | attached =>
    exact htrap nofun rfl (wp_settled hallowed hsees
      (wp_handleSignal .stop he hrun' (.inl rfl) hat))
  | group sig =>
    have hpassing : (Stop.group sig).Passing := .inr trivial
    exact htrap nofun rfl (wp_settled hallowed hsees (wp_handleSignal .stop he hrun' hpassing hat))
  | seccomp =>
    obtain ⟨call, hcall, htraced⟩ := hfits
    exact htrap nofun rfl (wp_settled hallowed hsees
      (wp_syscallEntry he (.seccomp hstatus hcall htraced hrun')))
  | entry => exact hfits.elim
  | exit => exact hfits.elim
  | clone child => exact htrap nofun rfl (wp_handleClone hallowed hfits (hannounces child rfl))
  | fork child => exact htrap nofun rfl (wp_handleFork hallowed hfits (hannounces child rfl))
  | vfork child =>
    exact htrap nofun rfl (wp_settled hallowed hsees (wp_handleError (.recorded hrun) hat))
  | exec =>
    obtain ⟨call, hcall, hexecs⟩ := hfits
    apply htrap nofun rfl
    have hsees' : Sees initial
      { t with maps := t.maps.modify i fun e => { e with map := e.map.clear } } i pid owner
        (Function.update mapOf th.process e.map.clear) th k := hsees.setMap rfl rfl
    obtain ⟨e', he', hmap'⟩ := hsees'.map_eq
    rw [Function.update_self] at hmap'
    exact wp_settled hallowed hsees'
      (wp_syscallEntry he' (.replaced hstatus hcall hexecs hrun' hmap'))

theorem wp_handleDeath (hallowed : ∀ k m, allowed k m → k.Orderly m)
    (hf : ∀ result status, f (result, pid, status) =
    handleTrap .seccomp (t.noteExit status) i pid result)
    (hsees : Sees initial t i pid owner mapOf th k) (hreaped : th.status = .reaped)
    (hmediated : Mediated initial (k.past th.process))
    (hserved : k.killed th.process = false → Run Serves initial (k.past th.process)
    (mapOf th.process)) (death : Death) :
    WpAmong initial allowed (trapOf pid death.waitStatus >>= f)
      (Rounds initial) k := by
  cases death with
  | exited code =>
    rw [trapOf_exited, Prog.done_bind, hf]
    obtain ⟨e, he, hmap⟩ := hsees.map_eq
    apply wp_settled hallowed hsees
    apply wp_of_noteExit
    apply wp_exitThread hreaped hmediated
    exact fun hkilled => ⟨e, he, hmap ▸ hserved hkilled⟩
  | killed sig =>
    rw [trapOf_killed, Prog.done_bind, hf]
    have hparked : (k.view th).Parked initial :=
      ⟨hmediated, by simp [Tracees.view, hreaped, Status.Parked]⟩
    exact hsees.quiet hparked

theorem Abreast.see {status : Status} (h : Abreast initial t none k owner mapOf)
    (hth : k.threads pid = some th) (hknown : owner pid ≠ none)
    (hgone : th.status.Gone → status.Gone) :
    ∃ i, Sees initial t i pid owner mapOf { th with status } (k.setStatus pid th status) := by
  obtain ⟨n, hn⟩ := Option.ne_none_iff_exists'.mp hknown
  obtain ⟨th', hth', rfl, -⟩ := h.known pid n hn
  obtain rfl := Option.some.inj (hth.symm.trans hth')
  obtain ⟨l, -, -, -, hfind, -⟩ := h.table.find hn
  have hfocus : Abreast initial t (some pid) k owner mapOf := by
    constructor
    · constructor
      · exact h.toSound
      · exact h.table
      · intro q m hq
        obtain ⟨th', hth', hm, hcalm⟩ := h.known q m hq
        exact ⟨th', hth', hm, fun _ => hcalm nofun⟩
      · exact h.unknown
      · exact h.pending
      · intro p hp
        cases hp
        exact hknown
      · intro q m hq hkilled _
        exact h.served q m hq hkilled nofun
      · intro m _
        exact h.mediated m nofun
    · intro q th' stop regs pkru child _
      exact h.births q th' stop regs pkru child nofun
  refine ⟨l.length, ?_, hfind, hn, Tracees.setStatus_self ..⟩
  have hput : Abreast initial t (some pid) (k.put pid th ⟨status, k.past th.process, false⟩)
      owner mapOf :=
    hfocus.put hth fun hg => ⟨hgone hg, rfl⟩
  rwa [Tracees.put_eq_setStatus rfl] at hput

/-! ### The next stop -/

theorem Abreast.rest (h : Abreast initial t none k owner mapOf) (hth : k.threads pid = some th)
    (hunknown : owner pid = none) (hstatus : th.status = .stopped .attached regs pkru false) :
    Abreast initial { t with pending := t.pending ++ [pid] } none
      (k.setStatus pid th (.stopped .attached regs pkru true)) owner mapOf := by
  obtain ⟨hnodup, hpending⟩ := h.pending
  have hresting := h.unknown pid th hth hunknown
  rw [hstatus] at hresting
  have hnew : pid ∉ t.pending := fun hmem => absurd (hresting.2.mpr hmem) nofun
  have hgone : ¬ th.status.Gone := by
    rw [hstatus]
    exact id
  have hadded : Accounted initial { t with pending := t.pending ++ [pid] } none
      (k.setStatus pid th (.stopped .attached regs pkru true)) owner mapOf := by
    constructor
    · exact h.toSound.step hth (absurd · hgone) rfl rfl
    · exact h.table
    · intro q n hq
      have hqp : q ≠ pid := by
        rintro rfl
        exact absurd (hunknown.symm.trans hq) nofun
      obtain ⟨th', hth', hn, hcalm⟩ := h.known q n hq
      exact ⟨th', (Tracees.setStatus_of_ne hqp).trans hth', hn, hcalm⟩
    · intro q th' hq hnone
      obtain ⟨rfl, rfl⟩ | ⟨hqp, hq⟩ := Tracees.setStatus_some hq
      · exact ⟨rfl, by simp⟩
      · have hiff : q ∈ t.pending ++ [pid] ↔ q ∈ t.pending := by simp [hqp]
        rw [hiff]
        exact h.unknown q th' hq hnone
    · constructor
      · rw [List.nodup_append_comm]
        exact List.nodup_cons.mpr ⟨hnew, hnodup⟩
      · intro q hq
        by_cases hqp : q = pid
        · subst hqp
          exact ⟨hunknown, by simp [Tracees.setStatus_self]⟩
        · rw [Tracees.setStatus_of_ne hqp]
          exact hpending q (by simpa [hqp] using hq)
    · exact h.focused
    · exact h.served
    · exact h.mediated
  refine ⟨hadded, ?_⟩
  intro q th' stop regs' pkru' child hq hth' hstatus' hchild
  have hqp : q ≠ pid := by
    rintro rfl
    obtain rfl := Option.some.inj ((Tracees.setStatus_self ..).symm.trans hth')
    exact nomatch hstatus'
  obtain ⟨hunknown', thc, hbirth⟩ := h.births q th' stop regs' pkru' child hq
    ((Tracees.setStatus_of_ne hqp).symm.trans hth') hstatus' hchild
  exact ⟨hunknown', hbirth.setStatus hth (absurd · hgone) (fun _ => trivial) fun _ =>
    ⟨trivial, nofun⟩⟩

inductive Waited (k : Tracees) : Option (Pid × Nat) → Tracees → Prop where
  | nobody : (∀ pid th, k.threads pid = some th → th.status = .reaped) → Waited k none k
  | stopped {pid : Pid} {th : Thread} {stop : Stop} {regs : Regs} {pkru : UInt32} :
    k.threads pid = some th →
      th.status = .stopped stop regs pkru false →
      Waited k (some (pid, stop.waitStatus)) (k.setStatus pid th (.stopped stop regs pkru true))
  | died {pid : Pid} {th : Thread} {death : Death} : k.threads pid = some th →
    th.status = .dead death →
      Waited k (some (pid, death.waitStatus)) (k.setStatus pid th .reaped)

omit [IntervalTree T Nat State] in
theorem waited_of_answers {a : Option (Pid × Nat)} (h : k.Answers (.waitpid none) a k') :
    Waited k a k' := by
  obtain ⟨pid, th, hth, hreaped, hans⟩ | ⟨hall, ⟨l, hans⟩, rfl⟩ := h
  · simp only [Tracees.AnswersFor, hth] at hans
    obtain ⟨l, hl, rfl⟩ := hans
    cases hstatus : th.status with
    | running _ =>
      simp only [Local.Answers, Tracees.view, hstatus] at hl
    | calling _ _ _ =>
      simp only [Local.Answers, Tracees.view, hstatus] at hl
    | stopped stop regs pkru seen =>
      cases seen with
      | true => simp only [Local.Answers, Tracees.view, hstatus] at hl
      | false =>
        simp only [Local.Answers, Tracees.view, hstatus] at hl
        obtain ⟨rfl, rfl⟩ := hl
        rw [Tracees.put_eq_setStatus rfl]
        exact .stopped hth hstatus
    | dead death =>
      simp only [Local.Answers, Tracees.view, hstatus] at hl
      obtain ⟨rfl, rfl⟩ := hl
      rw [Tracees.put_eq_setStatus rfl]
      exact .died hth hstatus
    | reaped => exact absurd hstatus hreaped
  · obtain ⟨rfl, -⟩ := hans
    exact .nobody hall

def dispatch (t : Tracking T) (trap : WaitTrapResult × Pid × Option Nat) : Tracing (RoundEnd T) :=
  match findMemoryMap (t.noteExit trap.2.2).maps trap.2.1 with
  | none =>
    if trap.1 ≠ .syscall ∧ trap.1 ≠ .stop then
      returnWith false (t.noteExit trap.2.2)
    else
      goOn { t.noteExit trap.2.2 with pending := (t.noteExit trap.2.2).pending ++ [trap.2.1] }
  | some i => handleTrap .seccomp (t.noteExit trap.2.2) i trap.2.1 trap.1

theorem next_eq (t : Tracking T) : next .seccomp t = waitpid none >>= fun
    | none => dispatch t (.error, -1, none)
    | some (pid, stat) => trapOf pid stat >>= dispatch t := by
  apply congrArg (Prog.ask (Request.waitpid none))
  funext a
  cases a <;> rfl

theorem dispatch_none (t : Tracking T) (result : WaitTrapResult)
    (h : findMemoryMap t.maps pid = some i) :
    dispatch t (result, pid, none) = handleTrap .seccomp t i pid result := by
  unfold dispatch
  simp only [Tracking.noteExit, Option.getD_none, h]

theorem dispatch_known (t : Tracking T) (result : WaitTrapResult) (status : Option Nat)
    (h : findMemoryMap t.maps pid = some i) :
    dispatch t (result, pid, status) = handleTrap .seccomp (t.noteExit status) i pid result := by
  unfold dispatch
  simp only [Tracking.noteExit, h]

theorem wp_dispatch_unknown {result : WaitTrapResult} {status : Option Nat}
    (hfind : findMemoryMap t.maps pid = none) (hresult : result ≠ .syscall ∧ result ≠ .stop)
    (h : Quiet initial k) :
    WpAmong initial allowed (dispatch t (result, pid, status))
      (Rounds initial) k := by
  unfold dispatch
  simp only [Tracking.noteExit, hfind, if_pos hresult]
  exact h

theorem Abreast.wp_unknown (h : Abreast initial t none k owner mapOf) (hunknown : owner a.1 = none)
    (hwaited : Waited k (some a) k') :
    WpAmong initial allowed (trapOf a.1 a.2 >>= dispatch t)
      (Rounds initial) k' := by
  have hfind := h.table.find_none hunknown
  cases hwaited with
  | @stopped pid th stop regs pkru hth hstatus =>
    have hresting := h.unknown pid th hth hunknown
    rw [hstatus] at hresting
    obtain ⟨rfl, -⟩ := hresting
    have hsig : ∀ sig, Stop.attached ≠ .signal sig := nofun
    rw [trapOf_stop pid hsig, Prog.done_bind]
    unfold dispatch
    simp only [Tracking.noteExit, Option.getD_none, hfind, Stop.trap]
    exact ⟨owner, mapOf, h.rest hth hunknown hstatus⟩
  | @died pid th death hth hstatus =>
    have haccounted : Accounted initial t none (k.setStatus pid th .reaped) owner mapOf := by
      apply h.change hth rfl (fun _ _ => rfl) rfl
      · exact fun _ => trivial
      · exact fun hknown => absurd hunknown hknown
      · exact fun _ => trivial
    cases death with
    | exited code =>
      rw [trapOf_exited, Prog.done_bind]
      exact wp_dispatch_unknown hfind ⟨nofun, nofun⟩ haccounted.quiet
    | killed sig =>
      rw [trapOf_killed, Prog.done_bind]
      exact wp_dispatch_unknown hfind ⟨nofun, nofun⟩ haccounted.quiet

theorem Abreast.wp_known (hallowed : ∀ k m, allowed k m → k.Orderly m)
    (h : Abreast initial t none k owner mapOf) (hknown : owner a.1 ≠ none)
    (hwaited : Waited k (some a) k') :
    WpAmong initial allowed (trapOf a.1 a.2 >>= dispatch t)
      (Rounds initial) k' := by
  obtain ⟨n, hn⟩ := Option.ne_none_iff_exists'.mp hknown
  obtain ⟨th₀, hth₀, rfl, hcalm⟩ := h.known a.1 n hn
  have hserved := h.served a.1 _ hn
  cases hwaited with
  | @stopped pid th stop regs pkru hth hstatus =>
    obtain rfl := Option.some.inj (hth.symm.trans hth₀)
    have hgone : ¬ th.status.Gone := by
      rw [hstatus]
      exact id
    have hkilled : k.killed th.process = false := by
      rw [Bool.eq_false_iff]
      exact fun hkilled => hgone (h.doomed pid th hth hkilled)
    have hcalm := hcalm nofun
    rw [hstatus] at hcalm
    obtain ⟨-, hfits⟩ := hcalm
    obtain ⟨i, hsees⟩ := h.see hth hknown (absurd · hgone)
    apply wp_handleStop hallowed (fun result => dispatch_none t result hsees.entry) hsees rfl hfits
      (hserved hkilled nofun)
    intro child hchild
    obtain ⟨hunknown, thc, hbirth⟩ := h.births pid th stop regs pkru child nofun hth hstatus hchild
    exact ⟨hunknown, hbirth.setStatus hth (absurd · hgone) (fun _ => trivial) fun _ =>
      ⟨trivial, nofun⟩⟩
  | @died pid th death hth hstatus =>
    obtain rfl := Option.some.inj (hth.symm.trans hth₀)
    have hgone : th.status.Gone → Status.reaped.Gone := fun _ => trivial
    obtain ⟨i, hsees⟩ := h.see hth hknown hgone
    apply wp_handleDeath hallowed (fun result status => dispatch_known t result status hsees.entry)
      hsees rfl (h.mediated_of_none th.process)
    exact fun hkilled => hserved hkilled nofun

theorem Abreast.wp_next (hallowed : ∀ k m, allowed k m → k.Orderly m)
    (h : Abreast initial t none k owner mapOf) :
    WpAmong initial allowed (next .seccomp t)
      (Rounds initial) k := by
  rw [next_eq, waitpid_bind]
  apply Wp.ask_of_stable (Invariant initial (.next t)) _ _ _ ⟨owner, mapOf, h⟩
  · rintro k k' hk ⟨m, hm, hmove⟩
    exact hk.move (hallowed k m hm) hmove
  · exact fun k hk => hk.safe
  · rintro k a k' ⟨owner, mapOf, htraced⟩ hans
    have hwaited : Waited k a k' := waited_of_answers hans
    cases a with
    | none =>
      obtain rfl : k' = k := by
        cases hwaited
        rfl
      have hunknown : owner (-1) = none := by
        apply htraced.owner_of_none
        rw [Option.eq_none_iff_forall_ne_some]
        exact fun th hth => absurd (htraced.positive (-1) th hth) (by decide)
      exact wp_dispatch_unknown (htraced.table.find_none hunknown) ⟨nofun, nofun⟩
        htraced.toAccounted.quiet
    | some a =>
      by_cases hunknown : owner a.1 = none
      · exact htraced.wp_unknown hunknown hwaited
      · exact htraced.wp_known hallowed hunknown hwaited

end Next

end Ia2.Tracer
