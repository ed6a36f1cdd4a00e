import Ia2.Tracer.Interleaving

/-!
# The thread that the tracer deals with

While the tracer deals with a thread, everything that the rules for one thread say about it also
holds among the others (`wp_of_local`). A round of the loop that started from a thread that has
stopped ends with the table of processes in agreement with the threads again, or with the loop
(`wp_settled`).
-/

namespace Ia2.Tracer

open Relation (ReflTransGen)

variable {T : Type} [IntervalTree T Nat State]

structure Sees (initial : MemoryMap T) (t : Tracking T) (i : Nat) (pid : Pid)
    (owner : Pid → Option Nat) (mapOf : Nat → MemoryMap T) (th : Thread) (k : Tracees) : Prop where
  traced : Abreast initial t (some pid) k owner mapOf
  entry : findMemoryMap t.maps pid = some i
  known : owner pid = some th.process
  thread : k.threads pid = some th

def View (initial : MemoryMap T) (t : Tracking T) (i : Nat) (pid : Pid) (k : Tracees)
    (l : Local) : Prop :=
  ∃ owner mapOf th, Sees initial t i pid owner mapOf th k ∧ k.view th = l

structure Tracees.Safe (initial : MemoryMap T) (k : Tracees) : Prop where
  mediated : ∀ n, Mediated initial (k.past n)
  allowed : ∀ pid th call pkru traced, k.threads pid = some th →
    th.status = .calling call pkru traced → call.syscall.traced = true →
    ∃ map event, Run Serves initial (k.past th.process) map ∧ Allows map call pkru event

section Focus

variable {initial : MemoryMap T} {t t' : Tracking T} {i : Nat} {pid : Pid}
  {owner : Pid → Option Nat} {mapOf : Nat → MemoryMap T}
  {th : Thread} {k k' : Tracees} {l : Local}

/-! ### One thread among the others -/

section

variable (h : Sees initial t i pid owner mapOf th k)

include h

theorem Sees.map_eq :
    ∃ e, t.maps[i]? = some e ∧ e.map = mapOf th.process := by
  obtain ⟨l, e, r, hmaps, hfind, hmap, -⟩ := h.traced.table.find h.known
  obtain rfl := Option.some.inj (h.entry.symm.trans hfind)
  exact ⟨e, by simp [hmaps], hmap⟩

theorem Sees.apart {n : Nat} (hn : n ≠ th.process) (p : Pid) (hp : some pid = some p) :
    owner p ≠ some n := by
  cases hp
  exact fun howner => hn (Option.some.inj (howner.symm.trans h.known))

theorem Sees.mediated (hmediated : Mediated initial (k.past th.process)) (n : Nat) :
    Mediated initial (k.past n) := by
  by_cases hn : n = th.process
  · exact hn ▸ hmediated
  · exact h.traced.mediated n (h.apart hn)

omit h in
theorem Accounted.safe_of_focus (h : Accounted initial t (some pid) k owner mapOf)
    (hth : k.threads pid = some th) (hsafe : (k.view th).Safe initial) : k.Safe initial where
  mediated n := by
    by_cases hn : owner pid = some n
    · obtain rfl := Option.some.inj ((h.owner_eq hth).symm.trans hn)
      exact hsafe.mediated
    · apply h.mediated n
      rintro p hp
      cases hp
      exact hn
  allowed q th' call pkru traced hq hstatus hcall := by
    by_cases hqp : q = pid
    · subst hqp
      obtain rfl := Option.some.inj (hth.symm.trans hq)
      exact hsafe.allowed call pkru traced hstatus
    · obtain ⟨-, -, hcalm⟩ := h.calling hq hstatus
      obtain ⟨-, hother⟩ := hcalm fun heq => hqp (Option.some.inj heq).symm
      exact absurd (hcall.symm.trans hother) nofun

variable {m : Move} {allowed : Tracees → Move → Prop} {map : MemoryMap T} {c : Control T}

theorem Sees.move (hheld : (k.view th).Held) (hmediated : Mediated initial (k.past th.process))
    (horderly : k.Orderly m) (hmove : k.Moves m k') :
    ∃ th', Sees initial t i pid owner mapOf th' k' ∧ th'.process = th.process ∧
      ReflTransGen Local.Moves (k.view th) (k'.view th') := by
  have hholds : Holds (some pid) k := by
    intro p th' hp hth'
    cases hp
    obtain rfl := Option.some.inj (h.thread.symm.trans hth')
    exact hheld
  obtain ⟨htraced, hfollows⟩ := h.traced.move hholds (h.mediated hmediated) horderly hmove
  obtain ⟨th', hth', hprocess, hmoves⟩ := hfollows pid rfl th h.thread
  exact ⟨th', ⟨htraced, h.entry, hprocess ▸ h.known, hth'⟩, hprocess, hmoves⟩

theorem Sees.answers {op : Request} {a : op.Answer} (htarget : op.target = some pid)
    (hans : k.Answers op a k') :
    ∃ l, (k.view th).Answers pid op a l ∧ Sees initial t i pid owner mapOf
    { th with status := l.status } k' ∧
      k'.view { th with status := l.status } = l ∧
      (l.past = k.past th.process → k' = k.setStatus pid th l.status) := by
  rw [Tracees.Answers, htarget] at hans
  simp only [Tracees.AnswersFor, h.thread] at hans
  obtain ⟨l, hl, rfl⟩ := hans
  refine ⟨l, hl, ⟨?_, h.entry, h.known, ?_⟩, Tracees.view_put hl.frame.1,
    fun hpast => Tracees.put_eq_setStatus hpast⟩
  · exact h.traced.put h.thread hl.frame.2
  · exact Tracees.setStatus_self ..

end

abbrev WpAmong (initial : MemoryMap T) (allowed : Tracees → Move → Prop) {α : Type} :
    Tracing α → (α → Tracees → Prop) → Tracees → Prop :=
  Wp (Tracees.world allowed) fun _ k => k.Safe initial

theorem wp_of_local {α : Type} {p : Tracing α} {post : α → Local → Prop}
    (hallowed : ∀ k m, allowed k m → k.Orderly m) (hview : View initial t i pid k l)
    (h : WpFor initial pid p post l) :
    WpAmong initial allowed p
      (fun a k => ∃ l, View initial t i pid k l ∧ post a l) k := by
  apply Wp.lift _ _ _ hview h
  · rintro op k l ⟨owner, mapOf, th, hsees, rfl⟩ hready
    exact hsees.traced.safe_of_focus hsees.thread hready.safe
  · rintro op k l k' ⟨owner, mapOf, th, hsees, rfl⟩ hready ⟨m, hm, hmove⟩
    obtain ⟨th', hsees', -, hmoves⟩ :=
      hsees.move hready.held hready.safe.mediated (hallowed k m hm) hmove
    exact ⟨_, hmoves, owner, mapOf, th', hsees', rfl⟩
  · rintro op k l a k' ⟨owner, mapOf, th, hsees, rfl⟩ hready hans
    obtain ⟨l', hl', hsees', hview', -⟩ := hsees.answers hready.target hans
    exact ⟨l', hl', owner, mapOf, _, hsees', hview'⟩

/-! ### How a round ends -/

omit [IntervalTree T Nat State] in
theorem findMemoryMap_of_pids_eq {M : Type} {maps maps' : List (MemoryMapForProcess M)}
    (h : maps'.map (·.pids) = maps.map (·.pids)) (p : Pid) :
    findMemoryMap maps' p = findMemoryMap maps p := by
  have hpids : ∀ maps : List (MemoryMapForProcess M),
      findMemoryMap maps p = (maps.map (·.pids)).findIdx? fun pids => pids.any fun q => q == p := by
    intro maps
    rw [List.findIdx?_map]
    rfl
  rw [hpids, hpids, h]

omit [IntervalTree T Nat State] in
theorem Tracking.setMap_pids (t : Tracking T) (i : Nat) (map : MemoryMap T) :
    (t.setMap i map).maps.map (·.pids) = t.maps.map (·.pids) := by
  apply List.ext_getElem?
  intro j
  rw [Tracking.setMap, List.getElem?_map, List.getElem?_map, List.getElem?_modify]
  by_cases hj : i = j
  · simp [hj, Function.comp_def]
  · simp [hj]

theorem Accounted.setMap (h : Accounted initial t (some pid) k owner mapOf)
    (hknown : owner pid = some th.process) (hentry : findMemoryMap t.maps pid = some i)
    (hmaps : t'.maps = (t.setMap i map).maps) (hpending : t'.pending = t.pending) :
    Accounted initial t' (some pid) k owner (Function.update mapOf th.process map) := by
  constructor
  · exact h.toSound
  · rw [hmaps]
    exact h.table.setMap hknown hentry map
  · exact h.known
  · rw [hpending]
    exact h.unknown
  · rw [hpending]
    exact h.pending
  · exact h.focused
  · intro q n hq hkilled helse
    have hn : n ≠ th.process := by
      rintro rfl
      exact helse pid rfl hknown
    rw [Function.update_of_ne hn]
    exact h.served q n hq hkilled helse
  · exact h.mediated

section

variable (h : Sees initial t i pid owner mapOf th k)

include h

theorem Sees.setMap (hmaps : t'.maps = (t.setMap i map).maps) (hpending : t'.pending = t.pending) :
    Sees initial t' i pid owner (Function.update mapOf th.process map) th k where
  traced := ⟨h.traced.toAccounted.setMap h.known h.entry hmaps hpending, h.traced.births⟩
  entry := by
    rw [hmaps, findMemoryMap_of_pids_eq (t.setMap_pids i map)]
    exact h.entry
  known := h.known
  thread := h.thread

theorem Sees.release (hreleased : th.status.Released)
    (hrun : Run Serves initial (k.past th.process) (mapOf th.process)) :
    Abreast initial t none k owner mapOf := by
  constructor
  · constructor
    · exact h.traced.toSound
    · exact h.traced.table
    · intro q n hq
      obtain ⟨th', hth', hn, hcalm⟩ := h.traced.known q n hq
      refine ⟨th', hth', hn, fun _ => ?_⟩
      by_cases hqp : q = pid
      · subst hqp
        obtain rfl := Option.some.inj (h.thread.symm.trans hth')
        exact hreleased.calm
      · exact hcalm fun heq => hqp (Option.some.inj heq).symm
    · exact h.traced.unknown
    · exact h.traced.pending
    · exact nofun
    · intro q n hq hkilled _
      by_cases hn : n = th.process
      · exact hn ▸ hrun
      · exact h.traced.served q n hq hkilled (h.apart hn)
    · intro n _
      exact h.mediated (.recorded hrun) n
  · intro q th' stop regs pkru child _ hth' hstatus hchild
    by_cases hqp : q = pid
    · subst hqp
      obtain rfl := Option.some.inj (h.thread.symm.trans hth')
      rw [hstatus] at hreleased
      obtain ⟨-, rfl, -⟩ := hreleased
      exact nomatch hchild
    · exact h.traced.births q th' stop regs pkru child (fun heq => hqp (Option.some.inj heq).symm)
        hth' hstatus hchild

theorem Sees.exit (hexit : handleThreadExit t.maps pid = (.continue_, t'.maps))
    (hpending : t'.pending = t.pending) (hreaped : th.status = .reaped)
    (hmediated : Mediated initial (k.past th.process))
    (hserved : k.killed th.process = false → Run Serves initial (k.past th.process)
    (mapOf th.process)) :
    Abreast initial t' none k (Function.update owner pid none) mapOf := by
  obtain ⟨maps', hexit', htable⟩ := h.traced.table.exit h.known
  obtain rfl : t'.maps = maps' := congrArg Prod.snd (hexit.symm.trans hexit')
  have hold : ∀ {q n}, Function.update owner pid none q = some n → q ≠ pid ∧ owner q = some n := by
    intro q n hq
    by_cases hqp : q = pid
    · subst hqp
      exact absurd ((Function.update_self ..).symm.trans hq) nofun
    · exact ⟨hqp, (Function.update_of_ne hqp ..).symm.trans hq⟩
  have hnone : ∀ {q}, owner q = none → Function.update owner pid none q = none := by
    intro q hq
    by_cases hqp : q = pid
    · subst hqp
      exact Function.update_self ..
    · exact (Function.update_of_ne hqp ..).trans hq
  constructor
  · constructor
    · exact h.traced.toSound
    · exact htable
    · intro q n hq
      obtain ⟨hqp, hq⟩ := hold hq
      obtain ⟨th', hth', hn, hcalm⟩ := h.traced.known q n hq
      exact ⟨th', hth', hn, fun _ => hcalm fun heq => hqp (Option.some.inj heq).symm⟩
    · intro q th' hq hunknown
      by_cases hqp : q = pid
      · subst hqp
        obtain rfl := Option.some.inj (h.thread.symm.trans hq)
        rw [hreaped]
        trivial
      · rw [hpending]
        exact h.traced.unknown q th' hq ((Function.update_of_ne hqp ..).symm.trans hunknown)
    · rw [hpending]
      obtain ⟨hnodup, hpend⟩ := h.traced.pending
      exact ⟨hnodup, fun q hq => ⟨hnone (hpend q hq).1, (hpend q hq).2⟩⟩
    · exact nofun
    · intro q n hq hkilled _
      obtain ⟨hqp, hq⟩ := hold hq
      by_cases hn : n = th.process
      · subst hn
        exact hserved hkilled
      · exact h.traced.served q n hq hkilled (h.apart hn)
    · intro n _
      exact h.mediated hmediated n
  · intro q th' stop regs pkru child _ hth' hstatus hchild
    have hqp : q ≠ pid := by
      rintro rfl
      obtain rfl := Option.some.inj (h.thread.symm.trans hth')
      exact absurd (hreaped.symm.trans hstatus) nofun
    obtain ⟨hunknown, hbirth⟩ := h.traced.births q th' stop regs pkru child
      (fun heq => hqp (Option.some.inj heq).symm) hth' hstatus hchild
    exact ⟨hnone hunknown, hbirth⟩

def Invariant (initial : MemoryMap T) : Control T → Tracees → Prop
  | .next t, k => ∃ owner mapOf, Abreast initial t none k owner mapOf
  | .syscallExit t i pid event, k =>
    ∃ owner mapOf th, Sees initial t i pid owner mapOf th k ∧
      ExitReady initial (mapOf th.process) event (k.view th)

def Quiet (initial : MemoryMap T) (k : Tracees) : Prop :=
  ∃ (t : Tracking T) (focus : Option Pid) (owner : Pid → Option Nat) (mapOf : Nat → MemoryMap T),
    Accounted initial t focus k owner mapOf ∧
    ∀ p th, focus = some p → k.threads p = some th → (k.view th).Parked initial

/-- How rounds end. -/
abbrev Rounds (initial : MemoryMap T) : RoundEnd T → Tracees → Prop :=
  Loop.RoundEnds (Invariant initial) fun _ => Quiet initial

theorem Sees.quiet (hparked : (k.view th).Parked initial) : Quiet initial k := by
  refine ⟨t, some pid, owner, mapOf, h.traced.toAccounted, fun p th' hp hth' => ?_⟩
  cases hp
  obtain rfl := Option.some.inj (h.thread.symm.trans hth')
  exact hparked

end

theorem Accounted.quiet (h : Accounted initial t none k owner mapOf) : Quiet initial k :=
  ⟨t, none, owner, mapOf, h, fun _ _ hp => nomatch hp⟩

theorem Settled.rounds {r : RoundEnd T} (h : Settled initial t i pid r l)
    (hview : View initial t i pid k l) : Rounds initial r k := by
  obtain ⟨owner, mapOf, th, hsees, rfl⟩ := hview
  cases h with
  | @next t' map _ hmaps hpending hreleased hrun =>
    have hset := hsees.setMap hmaps hpending
    refine ⟨owner, _, hset.release hreleased ?_⟩
    rw [Function.update_self]
    exact hrun
  | exited hexit hpending hreaped hmediated hserved =>
    refine ⟨_, mapOf, hsees.exit hexit hpending hreaped hmediated fun hkilled => ?_⟩
    obtain ⟨e, he, hrun⟩ := hserved hkilled
    obtain ⟨e', he', hmap⟩ := hsees.map_eq
    obtain rfl := Option.some.inj (he.symm.trans he')
    exact hmap ▸ hrun
  | syscallExit hmaps hpending hready =>
    refine ⟨owner, _, th, hsees.setMap hmaps hpending, ?_⟩
    rw [Function.update_self]
    exact hready
  | ended hparked => exact hsees.quiet hparked

theorem wp_settled {p : Tracing (RoundEnd T)} (hallowed : ∀ k m, allowed k m → k.Orderly m)
    (hsees : Sees initial t i pid owner mapOf th k)
    (h : WpFor initial pid p (Settled initial t i pid) (k.view th)) :
    WpAmong initial allowed p (Rounds initial) k := by
  apply (wp_of_local hallowed ⟨owner, mapOf, th, hsees, rfl⟩ h).mono
  rintro r k ⟨l, hview, hsettled⟩
  exact hsettled.rounds hview

/-! ### What survives the moves of the threads -/

variable {event : Event}

theorem ExitReady.move {l' : Local} (h : ExitReady initial map event l) (hmove : l.Moves l') :
    ExitReady initial map event l' := by
  have hkilled : ∀ {stop regs pkru map'}, l.status = .stopped stop regs pkru true →
    Run Serves initial l.past map' →
      ExitReady initial map event l' :=
    fun hstatus hrun => .lost ((Local.killed_of_stopped hstatus rfl hmove).lost (.recorded hrun))
  cases h with
  | permitted hstatus _ _ hrun _ _ => exact hkilled hstatus hrun
  | spawned _ _ hstatus hrun _ => exact hkilled hstatus hrun
  | replaced hstatus hrun _ _ => exact hkilled hstatus hrun
  | initFinished hstatus hrun => exact hkilled hstatus hrun
  | lost hlost => exact .lost (hlost.move hmove)

theorem ExitReady.parked (h : ExitReady initial map event l) :
    l.Parked initial := by
  have hstopped : ∀ {stop regs pkru map'}, l.status = .stopped stop regs pkru true →
      Run Serves initial l.past map' → l.Parked initial := by
    intro stop regs pkru map' hstatus hrun
    exact ⟨.recorded hrun, by simp [hstatus, Status.Parked]⟩
  cases h with
  | permitted hstatus _ _ hrun _ _ => exact hstopped hstatus hrun
  | spawned _ _ hstatus hrun _ => exact hstopped hstatus hrun
  | replaced hstatus hrun _ _ => exact hstopped hstatus hrun
  | initFinished hstatus hrun => exact hstopped hstatus hrun
  | lost hlost => exact hlost.parked

theorem Accounted.mediated_of_none (h : Accounted initial t none k owner mapOf) (n : Nat) :
    Mediated initial (k.past n) :=
  h.mediated n nofun

theorem Accounted.safe (h : Accounted initial t none k owner mapOf) : k.Safe initial where
  mediated := h.mediated_of_none
  allowed q th call pkru traced hq hstatus hcall := by
    obtain ⟨-, -, hcalm⟩ := h.calling hq hstatus
    obtain ⟨-, hother⟩ := hcalm nofun
    exact absurd (hcall.symm.trans hother) nofun

theorem Quiet.safe (h : Quiet initial k) : k.Safe initial := by
  obtain ⟨t, focus, owner, mapOf, htraced, hparked⟩ := h
  cases focus with
  | none => exact htraced.safe
  | some pid =>
    obtain ⟨n, hn⟩ := Option.ne_none_iff_exists'.mp (htraced.focused pid rfl)
    obtain ⟨th, hth, -⟩ := htraced.known pid n hn
    exact htraced.safe_of_focus hth (hparked pid th rfl hth).safe

theorem Quiet.move (h : Quiet initial k) (horderly : k.Orderly m) (hmove : k.Moves m k') :
    Quiet initial k' := by
  have hmediated := h.safe.mediated
  obtain ⟨t, focus, owner, mapOf, htraced, hparked⟩ := h
  have hholds : Holds focus k := fun p th hp hth => (hparked p th hp hth).held
  obtain ⟨htraced', hfollows⟩ := htraced.move hholds hmediated horderly hmove
  refine ⟨t, focus, owner, mapOf, htraced', fun p th' hp hth' => ?_⟩
  obtain ⟨n, hn⟩ := Option.ne_none_iff_exists'.mp (htraced.focused p hp)
  obtain ⟨th, hth, -⟩ := htraced.known p n hn
  obtain ⟨th'', hth'', -, hmoves⟩ := hfollows p hp th hth
  obtain rfl := Option.some.inj (hth''.symm.trans hth')
  exact Local.of_moves (fun l l' hl hm => hl.move hm) hmoves (hparked p th hp hth)

theorem Invariant.move (h : Invariant initial c k) (horderly : k.Orderly m) (hmove : k.Moves m k') :
    Invariant initial c k' := by
  cases c with
  | next t =>
    obtain ⟨owner, mapOf, htraced⟩ := h
    have hholds : Holds none k := fun p th hp => nomatch hp
    obtain ⟨htraced', -⟩ := htraced.move hholds htraced.mediated_of_none horderly hmove
    exact ⟨owner, mapOf, htraced'⟩
  | syscallExit t i pid event =>
    obtain ⟨owner, mapOf, th, hsees, hready⟩ := h
    obtain ⟨th', hsees', hprocess, hmoves⟩ :=
      hsees.move hready.parked.held hready.parked.mediated horderly hmove
    refine ⟨owner, mapOf, th', hsees', ?_⟩
    rw [hprocess]
    exact Local.of_moves (fun l l' hl hm => hl.move hm) hmoves hready

theorem Invariant.safe (h : Invariant initial c k) : k.Safe initial := by
  cases c with
  | next t =>
    obtain ⟨owner, mapOf, htraced⟩ := h
    exact htraced.safe
  | syscallExit t i pid event =>
    obtain ⟨owner, mapOf, th, hsees, hready⟩ := h
    exact hsees.traced.safe_of_focus hsees.thread hready.parked.safe

end Focus

end Ia2.Tracer
