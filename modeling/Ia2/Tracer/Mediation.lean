import Ia2.Tracer.Refinement
import Ia2.Tracer.Rounds

/-!
# What the tracer guarantees

The tracer's loop with the threads that it traces, from a program that has just been started.
Whatever the threads do and whenever they do it, no call of the seccomp filter's `TRACE` list is run
that the tracer has not allowed, and the tracer decides about each call with a map that records all
calls of the process before it. Between two rounds the map of each process records the calls that it
has executed, one after the other, as if there were no other threads.

This is under the condition `Tracees.Orderly` on new threads, `exec` and signals.
-/

namespace Ia2.Tracer

variable {T : Type} [IntervalTree T Nat State]

/-- The program that the tracer has started: one thread, which runs. -/
structure Starts (pid : Pid) (k : Tracees) : Prop where
  thread : ∃ th, k.threads pid = some th ∧ th.status = .running false ∧ th.group = pid
  only : ∀ q th, k.threads q = some th → q = pid
  positive : 0 < pid
  past : ∀ n, k.past n = []
  killed : ∀ n, k.killed n = false

def startTracking (initial : MemoryMap T) (pid : Pid) : Tracking T :=
  ⟨[forProcessNew initial pid], [], 0⟩

/-- What the loop and the threads can reach. -/
abbrev TracerReaches (initial : MemoryMap T) (pid : Pid) (k : Tracees) :
    Loop.Config Request Request.Answer (Control T) Ending Tracees → Prop :=
  Loop.Reaches (Tracees.world Tracees.Orderly) (trackMemoryMap .seccomp)
    (.next (startTracking initial pid)) k

section Loop

variable {initial : MemoryMap T} {pid : Pid} {k k' : Tracees}
  {c : Loop.Config Request Request.Answer (Control T) Ending Tracees}

variable {k₀ : Tracees} {p : Tracing (RoundEnd T)} {control : Control T} {call : UserRegs}
  {pkru : UInt32} {retval : UInt64}

theorem TracerReaches.after_move {m : Move} (h : TracerReaches initial pid k₀ ⟨p, k⟩)
    (horderly : k.Orderly m) (hmove : k.Moves m k') :
    TracerReaches initial pid k₀ ⟨p, k'⟩ :=
  .tail h (.move ⟨m, horderly, hmove⟩)

theorem TracerReaches.after_answer {p' : Tracing (RoundEnd T)} {op : Request} {a : op.Answer}
    {next : op.Answer → Tracing (RoundEnd T)} (h : TracerReaches initial pid k₀ ⟨p, k⟩)
    (hans : k.Answers op a k') (hp : p = .ask op next) (hnext : next a = p') :
    TracerReaches initial pid k₀ ⟨p', k'⟩ := by
  subst hp hnext
  exact .tail h (.answer hans)

theorem TracerReaches.after_round (h : TracerReaches initial pid k₀ ⟨.done (.inl control), k⟩) :
    TracerReaches initial pid k₀ ⟨trackMemoryMap .seccomp control, k⟩ :=
  .tail h .again

theorem Starts.abreast (h : Starts pid k) :
    ∃ owner mapOf, Abreast initial (startTracking initial pid) none k owner mapOf := by
  obtain ⟨th, hth, hstatus, hgroup⟩ := h.thread
  have honly : ∀ {q th'}, k.threads q = some th' → q = pid ∧ th' = th := by
    intro q th' hq
    obtain rfl := h.only q th' hq
    exact ⟨rfl, Option.some.inj (hq.symm.trans hth)⟩
  refine ⟨fun p => if p = pid then some th.process else none, fun _ => initial, ⟨?_, ?_⟩⟩
  · constructor
    · refine ⟨fun q th' hq => (honly hq).1 ▸ h.positive, fun q th' _ hkilled => ?_, ?_, ?_⟩
      · rw [h.killed] at hkilled
        exact nomatch hkilled
      · intro q th' hq
        obtain ⟨-, rfl⟩ := honly hq
        rw [hgroup, hth]
        exact nofun
      · intro q q' th₁ th₂ hq hq'
        rw [(honly hq).2, (honly hq').2]
        exact iff_of_true rfl rfl
    · exact tabulates_first initial pid th.process
    · intro q n hq
      by_cases hqp : q = pid
      · subst hqp
        rw [if_pos rfl] at hq
        refine ⟨th, hth, Option.some.inj hq, fun _ => ?_⟩
        rw [hstatus]
        rfl
      · rw [if_neg hqp] at hq
        exact nomatch hq
    · intro q th' hq hnone
      rw [if_pos (honly hq).1] at hnone
      exact nomatch hnone
    · exact ⟨List.nodup_nil, fun q hq => nomatch hq⟩
    · exact fun p hp => nomatch hp
    · intro q n _ _ _
      rw [h.past n]
      exact .nil initial
    · intro n _
      rw [h.past n]
      exact .recorded (.nil initial)
  · intro q th' stop regs pkru child _ hq hstopped _
    obtain ⟨-, rfl⟩ := honly hq
    exact absurd (hstatus.symm.trans hstopped) nofun

theorem Invariant.wp_round (h : Invariant initial control k) :
    Wp (Tracees.world Tracees.Orderly) (fun _ k => k.Safe initial) (trackMemoryMap .seccomp control)
      (Rounds initial) k := by
  cases control with
  | next t =>
    obtain ⟨owner, mapOf, habreast⟩ := h
    exact habreast.wp_next fun _ _ horderly => horderly
  | syscallExit t i pid event =>
    obtain ⟨owner, mapOf, th, hsees, hready⟩ := h
    exact wp_settled (fun _ _ horderly => horderly) hsees (wp_syscallExit hsees.map_eq hready)

theorem TracerReaches.wp (hstart : Starts pid k) (hreach : TracerReaches initial pid k c) :
    Wp (Tracees.world Tracees.Orderly) (fun _ k => k.Safe initial) c.rest (Rounds initial)
      c.world := by
  apply Loop.invariant _ _ _ hstart.abreast hreach
  · rintro control k k' hk ⟨m, horderly, hmove⟩
    exact hk.move horderly hmove
  · rintro ending k k' hk ⟨m, horderly, hmove⟩
    exact hk.move horderly hmove
  · exact fun control k hk => hk.wp_round

theorem TracerReaches.safe (hstart : Starts pid k) (hreach : TracerReaches initial pid k c) :
    c.world.Safe initial := by
  apply Loop.always _ _ _ (hreach.wp hstart)
  · exact fun _ _ hsafe => hsafe
  · exact fun _ _ hinv => hinv.safe
  · exact fun _ _ hquiet => hquiet.safe

theorem Serves.allows {map map' : MemoryMap T} (h : Serves map (.call call pkru retval) map') :
    ∃ event, Allows map call pkru event := by
  cases h with
  | finishInit hallows _ _ => exact ⟨_, hallows⟩
  | record hallows _ _ => exact ⟨_, hallows⟩

theorem Mediated.allows {before after : List Entry}
    (h : Mediated initial (before ++ .call call pkru retval :: after)) :
    ∃ map event, Run Serves initial before map ∧ Allows map call pkru event := by
  have hrecorded : ∀ {after map},
    Run Serves initial (before ++ .call call pkru retval :: after) map →
      ∃ map event, Run Serves initial before map ∧ Allows map call pkru event := by
    intro after map hrun
    obtain ⟨map₁, hbefore, hrest⟩ := hrun.split
    cases hrest with
    | cons hserves _ =>
      obtain ⟨event, hallows⟩ := hserves.allows
      exact ⟨map₁, event, hbefore, hallows⟩
  generalize hpast : before ++ .call call pkru retval :: after = past at h
  cases h with
  | recorded hrun => exact hrecorded (hpast ▸ hrun)
  | @running past map call' pkru' event retval' hrun hallows =>
    obtain rfl | ⟨after', last, rfl⟩ := List.eq_nil_or_concat after
    · obtain ⟨rfl, hlast⟩ := List.append_inj' hpast rfl
      cases hlast
      exact ⟨map, event, hrun, hallows⟩
    · rw [List.concat_eq_append, ← List.cons_append, ← List.append_assoc] at hpast
      obtain ⟨rfl, -⟩ := List.append_inj' hpast rfl
      exact hrecorded hrun

end Loop

/-! ### The kernel's side -/

/-- What the entry of a call or an `exec` does to the memory map of the process. -/
def Executes (space : KernelMap) : Entry → KernelMap → Prop
  | .call call _ retval, space' => KernelStep space call retval space'
  | .exec, _ => True

/-! ### A program with one thread -/

def oneThread (status : Status) (past : List Entry) : Tracees where
  threads := Function.update (fun _ => none) 7 (some ⟨0, 7, none, status⟩)
  past := Function.update (fun _ => []) 0 past
  killed _ := false

section OneThread

variable {status status' : Status} {past past' : List Entry}

theorem oneThread_some {q : Pid} {th : Thread} (h : (oneThread status past).threads q = some th) :
    q = 7 ∧ th = ⟨0, 7, none, status⟩ := by
  by_cases hq : q = 7
  · subst hq
    have hself : (oneThread status past).threads 7 = some ⟨0, 7, none, status⟩ := rfl
    exact ⟨rfl, Option.some.inj (h.symm.trans hself)⟩
  · simp [oneThread, Function.update_of_ne hq] at h

theorem oneThread_starts : Starts 7 (oneThread (.running false) []) where
  thread := ⟨_, rfl, rfl, rfl⟩
  only _ _ hq := (oneThread_some hq).1
  positive := by decide
  past n := by
    by_cases hn : n = 0 <;> simp [oneThread, hn]
  killed _ := rfl

theorem oneThread_put (status' : Status) (past' : List Entry) (killed : Bool) :
    (oneThread status past).put 7 ⟨0, 7, none, status⟩ ⟨status', past', killed⟩ =
      oneThread status' past' := by
  simp only [Tracees.put, Tracees.setStatus, oneThread, Function.update_idem]

theorem oneThread_answers {op : Request} {a : op.Answer} (htarget : op.target = some 7)
    (h : Local.Answers 7 ⟨status, past, false⟩ op a ⟨status', past', false⟩) :
    (oneThread status past).Answers op a (oneThread status' past') := by
  unfold Tracees.Answers
  rw [htarget]
  exact ⟨⟨status', past', false⟩, h, (oneThread_put status' past' false).symm⟩

variable {pkru : UInt32}

theorem oneThread_waits {stop : Stop} {regs : Regs} :
    (oneThread (.stopped stop regs pkru false) past).Answers (.waitpid none)
      (some (7, stop.waitStatus)) (oneThread (.stopped stop regs pkru true) past) := by
  refine .inl ⟨7, _, rfl, nofun, ⟨.stopped stop regs pkru true, past, false⟩, ⟨rfl, rfl⟩, ?_⟩
  exact (oneThread_put _ past false).symm

theorem oneThread_calls (call : UserRegs) (pkru : UInt32) (htraced : call.syscall.traced = true) :
    (oneThread (.running false) past).Moves (.call 7 call pkru)
      (oneThread (.stopped .seccomp ⟨some call, ENOSYS⟩ pkru false) past) := by
  refine ⟨_, false, rfl, rfl, ?_⟩
  rw [if_neg Bool.false_ne_true, Status.enter, if_pos htraced]
  simp only [Tracees.setStatus, oneThread, Function.update_idem]

theorem oneThread_runs {call : UserRegs} {retval : UInt64} (htraced : call.syscall.traced = true)
    (hcompletes : Completes call retval) :
    (oneThread (.calling call pkru true) past).Moves (.run 7 retval)
      (oneThread (.stopped .exit ⟨some call, retval⟩ pkru false)
        (past ++ [.call call pkru retval])) := by
  refine ⟨_, call, pkru, true, rfl, rfl, hcompletes, ?_⟩
  have hran : ran call pkru retval past = past ++ [.call call pkru retval] := if_pos htraced
  rw [← hran]
  exact (oneThread_put _ _ false).symm

end OneThread

/-- Compartment 1 maps a page. -/
def firstMmap : UserRegs := ⟨.mmap, 0, 0x1000, 3, 0x22, 0⟩

def firstPage : KernelMap := fun p =>
  if (⟨0x9000, 0x1000⟩ : Range).Meets p then some ⟨3, 0⟩ else none

def firstMap : MemoryMap (SortedIntervals Nat State) :=
  ⟨⟨[⟨0x9000, 0xA000, ⟨1, false, false, 3⟩⟩], by decide⟩, false⟩

theorem firstMmap_round : TracerReaches (T := SortedIntervals Nat State) MemoryMap.new 7
    (oneThread (.running false) [])
    ⟨.done (.inl (.next ⟨[⟨firstMap, [7]⟩], [], 0⟩)),
      oneThread (.running false) [.call firstMmap 0xFFFFFFF0 0x9000]⟩ := by
  let atEntry (seen : Bool) : Tracees :=
    oneThread (.stopped .seccomp ⟨some firstMmap, ENOSYS⟩ 0xFFFFFFF0 seen) []
  let atExit (seen : Bool) : Tracees :=
    oneThread (.stopped .exit ⟨some firstMmap, 0x9000⟩ 0xFFFFFFF0 seen)
      [.call firstMmap 0xFFFFFFF0 0x9000]
  have hcompletes : Completes firstMmap 0x9000 := ⟨nofun, nofun, fun _ => by decide⟩
  have hwait : (atEntry false).Answers (.waitpid none) (some (7, Stop.seccomp.waitStatus))
      (atEntry true) := oneThread_waits
  have hregs : (atEntry true).Answers (.getRegs 7) (some ⟨some firstMmap, ENOSYS⟩) (atEntry true) :=
    oneThread_answers rfl ⟨rfl, rfl⟩
  have hpkru : (atEntry true).Answers (.getInferiorPkru 7) (some 0xFFFFFFF0) (atEntry true) :=
    oneThread_answers rfl ⟨.inr rfl, rfl⟩
  have hrun : (atEntry true).Answers (.resume .syscall 7 0) true
      (oneThread (.calling firstMmap 0xFFFFFFF0 true) []) := oneThread_answers rfl ⟨rfl, rfl⟩
  have hwait' : (atExit false).Answers (.waitpid (some 7)) (some (7, Stop.exit.waitStatus))
      (atExit true) := oneThread_answers rfl ⟨rfl, rfl⟩
  have hregs' : (atExit true).Answers (.getRegs 7) (some ⟨some firstMmap, 0x9000⟩) (atExit true) :=
    oneThread_answers rfl ⟨rfl, rfl⟩
  have hcont : (atExit true).Answers (.resume .cont 7 0) true
      (oneThread (.running false) [.call firstMmap 0xFFFFFFF0 0x9000]) :=
    oneThread_answers rfl ⟨rfl, rfl⟩
  have hstart : TracerReaches (T := SortedIntervals Nat State) MemoryMap.new 7
      (oneThread (.running false) [])
      ⟨trackMemoryMap .seccomp (.next (startTracking MemoryMap.new 7)),
        oneThread (.running false) []⟩ := .refl
  have hcalled := hstart.after_move (m := .call 7 firstMmap 0xFFFFFFF0) trivial
    (oneThread_calls firstMmap 0xFFFFFFF0 rfl)
  have hread := ((hcalled.after_answer hwait rfl rfl).after_answer hregs rfl rfl).after_answer
    hpkru rfl rfl
  have hran := (hread.after_round.after_answer hrun rfl rfl).after_move (m := .run 7 0x9000) trivial
    (oneThread_runs rfl hcompletes)
  exact ((hran.after_answer hwait' rfl rfl).after_answer hregs' rfl rfl).after_answer hcont rfl rfl

/-! ### Every call is decided about -/

/-- No interleaving runs a call of the `TRACE` list that the tracer's map, with all the calls of the
process before it recorded, does not allow. -/
theorem executed_calls_allowed (initial : MemoryMap T) (pid : Pid) (k : Tracees)
    (c : Loop.Config Request Request.Answer (Control T) Ending Tracees) (hstart : Starts pid k)
    (hreach : TracerReaches initial pid k c)
    (n : Nat) (before after : List Entry) (call : UserRegs) (pkru : UInt32) (retval : UInt64)
    (hpast : c.world.past n = before ++ .call call pkru retval :: after) :
    ∃ map event, Run Serves initial before map ∧ Allows map call pkru event := by
  have hmediated := (hreach.safe hstart).mediated n
  rw [hpast] at hmediated
  exact hmediated.allows

theorem executed_calls_allowed_mmap :
    ∃ c, TracerReaches (T := SortedIntervals Nat State) MemoryMap.new 7
      (oneThread (.running false) []) c ∧
      c.world.past 0 = [.call firstMmap 0xFFFFFFF0 0x9000] ∧
      ∃ map event, Run Serves (MemoryMap.new : MemoryMap (SortedIntervals Nat State)) [] map ∧
        Allows map firstMmap 0xFFFFFFF0 event :=
  ⟨_, firstMmap_round, rfl,
    executed_calls_allowed _ 7 _ _ oneThread_starts firstMmap_round 0 [] [] _ _ _ rfl⟩

/-! ### One process at a time -/

section Heads

variable {initial map map' : MemoryMap T} {space space' : KernelMap} {entry : Entry}

theorem Serves.tracedStep (h : Serves map entry map') (hexecutes : Executes space entry space') :
    (⟨map', space'⟩ : Traced T) = ⟨map, space⟩ ∨ ∃ action,
      TracedStep ⟨map, space⟩ action ⟨map', space'⟩ := by
  cases h with
  | @finishInit call pkru event retval hallows hmarks hfails =>
    have hsame : space' = space := by
      rw [Executes, KernelStep, if_pos hfails] at hexecutes
      exact hexecutes
    have hinit : map.initFinished = false := by simpa [hmarks] using hallows.permitted
    have hmark : map.markInitFinished = ({ map with initFinished := true }, true) := by
      simp [MemoryMap.markInitFinished, hinit]
    exact .inr ⟨.finishInit, hmark, hsame⟩
  | @record _ call pkru event retval hallows hmarks hfinish =>
    by_cases hfails : 2 ^ 63 ≤ retval.toNat
    · rw [Executes, KernelStep, if_pos hfails] at hexecutes
      rw [finishSyscall_failed hfails] at hfinish
      cases hfinish
      rw [hexecutes]
      exact .inl rfl
    · have hkernel : KernelStep space call retval space' := hexecutes
      rw [Executes, KernelStep, if_neg hfails] at hexecutes
      have hpermitted : map.isOpPermitted event = .ok true := by
        have := hallows.permitted
        rw [hmarks, if_neg Bool.false_ne_true] at this
        exact this.2
      refine .inr ⟨.syscall ⟨call, pkeyForPkru pkru, .seccomp, retval, pkeyForPkru_lt hallows.valid⟩
        event, ?_, hkernel⟩
      exact ⟨hallows.interpreted, hpermitted, Nat.not_le.mp hfails, hexecutes.1, hfinish⟩
  | exec => exact .inr ⟨.execStop, rfl, trivial⟩

theorem tracedRun_of_serves {past : List Entry} (h : Run Serves map past map')
    (hexecutes : Run Executes space past space') :
    ∃ actions, Run TracedStep (⟨map, space⟩ : Traced T) actions ⟨map', space'⟩ := by
  induction h generalizing space with
  | nil map =>
    cases hexecutes
    exact ⟨[], .nil _⟩
  | cons hserves _ ih =>
    cases hexecutes with
    | cons hfirst hrest =>
      obtain ⟨actions, hrun⟩ := ih hrest
      obtain heq | ⟨action, hstep⟩ := hserves.tracedStep hfirst
      · exact ⟨actions, heq ▸ hrun⟩
      · exact ⟨action :: actions, .cons hstep hrun⟩

/-- Between two rounds the map that the tracer finds for a thread records what its process has
executed, unless the process has been killed. If these calls have changed the memory map of the
process as the kernel's do and nothing else has, the two are in a state that is reached by one
traced call after the other. -/
theorem loop_refines_processes (initial : MemoryMap T) (pid : Pid) (k : Tracees)
    (hstart : Starts pid k) (t : Tracking T) (k' : Tracees)
    (hreach : TracerReaches initial pid k ⟨.done (.inl (.next t)), k'⟩) (q : Pid) (i : Nat)
    (hfind : findMemoryMap t.maps q = some i) :
    ∃ th e, k'.threads q = some th ∧ t.maps[i]? = some e ∧ (k'.killed th.process = false →
      Run Serves initial (k'.past th.process) e.map ∧
      ∀ space space', Run Executes space (k'.past th.process) space' →
        ∃ actions, Run TracedStep ⟨initial, space⟩ actions ⟨e.map, space'⟩) := by
  obtain ⟨owner, mapOf, habreast⟩ : Invariant initial (.next t) k' := hreach.wp hstart
  cases howner : owner q with
  | none => exact absurd (hfind.symm.trans (habreast.table.find_none howner)) nofun
  | some n =>
    obtain ⟨th, hth, rfl, -⟩ := habreast.known q n howner
    obtain ⟨l, e, r, hmaps, hfind', hmap, -⟩ := habreast.table.find howner
    obtain rfl := Option.some.inj (hfind.symm.trans hfind')
    refine ⟨th, e, hth, by simp [hmaps], fun hkilled => ?_⟩
    have hserved := habreast.served q _ howner hkilled nofun
    rw [hmap]
    exact ⟨hserved, fun space space' hexecutes => tracedRun_of_serves hserved hexecutes⟩

theorem loop_refines_processes_mmap :
    ∃ e : MemoryMapForProcess (MemoryMap (SortedIntervals Nat State)),
    [(⟨firstMap, [7]⟩ : MemoryMapForProcess (MemoryMap (SortedIntervals Nat State)))][0]? = some e ∧
      Run Serves MemoryMap.new [.call firstMmap 0xFFFFFFF0 0x9000] e.map ∧
      ∃ actions, Run TracedStep ⟨MemoryMap.new, fun _ => none⟩ actions ⟨e.map, firstPage⟩ := by
  obtain ⟨th, e, hth, he, hrun⟩ :=
    loop_refines_processes _ 7 _ oneThread_starts _ _ firstMmap_round 7 0 rfl
  obtain rfl : (⟨0, 7, none, .running false⟩ : Thread) = th := Option.some.inj hth
  obtain ⟨hserved, hrefines⟩ := hrun rfl
  refine ⟨e, he, hserved, hrefines _ _ (.cons ?_ (.nil _))⟩
  rw [Executes, KernelStep, if_neg (by decide)]
  exact ⟨by decide, fun _ _ _ => rfl, rfl⟩

/-- Between two rounds the tracer has lost no stop: each thread that has stopped will still be
reported to it, or is a new thread that rests in its list. No thread is in the middle of a call of
the `TRACE` list. -/
theorem no_stop_lost (initial : MemoryMap T) (pid : Pid) (k : Tracees) (hstart : Starts pid k)
    (t : Tracking T) (k' : Tracees)
    (hreach : TracerReaches initial pid k ⟨.done (.inl (.next t)), k'⟩) (q : Pid) (th : Thread)
    (hth : k'.threads q = some th) :
    (∀ stop regs pkru, th.status = .stopped stop regs pkru true → stop = .attached ∧ q ∈ t.pending ∧
      findMemoryMap t.maps q = none) ∧
      ∀ call pkru traced, th.status = .calling call pkru traced → call.syscall.traced = false := by
  obtain ⟨owner, mapOf, habreast⟩ : Invariant initial (.next t) k' := hreach.wp hstart
  constructor
  · intro stop regs pkru hstatus
    cases howner : owner q with
    | none =>
      have hresting := habreast.unknown q th hth howner
      rw [hstatus] at hresting
      obtain ⟨hstop, hpending⟩ := hresting
      exact ⟨hstop, hpending.mp rfl, habreast.table.find_none howner⟩
    | some n =>
      obtain ⟨th', hth', -, hcalm⟩ := habreast.known q n howner
      obtain rfl := Option.some.inj (hth.symm.trans hth')
      have hcalm := hcalm nofun
      rw [hstatus] at hcalm
      exact nomatch hcalm.1
  · intro call pkru traced hstatus
    obtain ⟨-, -, hcalm⟩ := habreast.calling hth hstatus
    exact (hcalm nofun).2

/-- What `pthread_create` asks `clone` for. -/
def newThreadCall : UserRegs := ⟨.clone, 0x3d0f00, 0, 0, 0, 0⟩

/-- A program whose thread has created another one, which has been waited for. -/
def newThread : Tracees where
  threads := Function.update (Function.update (fun _ => none)
      7 (some ⟨0, 7, none, .stopped (.clone 8) ⟨some newThreadCall, ENOSYS⟩ 0 false⟩))
    8 (some ⟨0, 7, some 7, .stopped .attached ⟨some newThreadCall, 0⟩ 0 true⟩)
  past := Function.update (fun _ => []) 0 []
  killed _ := false

theorem newThread_rests : TracerReaches (T := SortedIntervals Nat State) MemoryMap.new 7
    (oneThread (.running false) [])
    ⟨.done (.inl (.next ⟨[⟨MemoryMap.new, [7]⟩], [8], 0⟩)), newThread⟩ := by
  let args : CloneArgs := ⟨0x3d0f00, 0⟩
  have hplain : args.Plain := ⟨by decide, by decide, by decide⟩
  have hvm : args.vm = true := by decide
  have hevent : args.event 8 = some (.clone 8) := by decide
  have hattaches : args.attaches = true := by decide
  let created : Tracees := ((oneThread (.calling newThreadCall 0 false) []).setStatus 7
    ⟨0, 7, none, .calling newThreadCall 0 false⟩
    (.stopped (.clone 8) ⟨some newThreadCall, ENOSYS⟩ 0 false)).addChild 7 8 0 7 newThreadCall 0
  have hcall : (oneThread (.running false) []).Moves (.call 7 newThreadCall 0)
      (oneThread (.calling newThreadCall 0 false) []) := by
    refine ⟨_, false, rfl, rfl, ?_⟩
    simp only [Tracees.setStatus, oneThread, Function.update_idem]
    rfl
  have hunused : (oneThread (.calling newThreadCall 0 false) []).Unused 8 := by
    intro q th hq hid
    obtain ⟨rfl, rfl⟩ := oneThread_some hq
    exact absurd hid (by decide)
  have hclone : (oneThread (.calling newThreadCall 0 false) []).Moves (.spawn 7 8 0 args)
      created := by
    refine ⟨_, newThreadCall, 0, false, rfl, rfl, trivial, ⟨fun _ => hvm, fun _ => by decide⟩,
      hunused, by decide, ?_, ?_⟩
    · rw [if_pos hvm]
    · simp only [Tracees.spawn, hevent, hvm, hplain.2.1, hattaches, if_true, created]
  have horderly : (oneThread (.calling newThreadCall 0 false) []).Orderly (.spawn 7 8 0 args) :=
    ⟨hplain, rfl, fun hnot => absurd (hvm.symm.trans hnot) (by decide)⟩
  have hwait : created.Answers (.waitpid none) (some (8, Stop.attached.waitStatus)) newThread := by
    refine .inl ⟨8, _, rfl, Status.noConfusion,
      ⟨.stopped .attached ⟨some newThreadCall, 0⟩ 0 true, [], false⟩, ⟨rfl, rfl⟩, ?_⟩
    simp only [created, newThread, Tracees.put, Tracees.addChild, Tracees.setStatus, oneThread,
      Function.update_idem]
  have hstart : TracerReaches (T := SortedIntervals Nat State) MemoryMap.new 7
      (oneThread (.running false) [])
      ⟨trackMemoryMap .seccomp (.next (startTracking MemoryMap.new 7)),
        oneThread (.running false) []⟩ := .refl
  have hcreated := (hstart.after_move (m := .call 7 newThreadCall 0) trivial hcall).after_move
    horderly hclone
  exact hcreated.after_answer hwait rfl rfl

theorem no_stop_lost_newThread : ∃ th, newThread.threads 8 = some th ∧
    th.status = .stopped .attached ⟨some newThreadCall, 0⟩ 0 true ∧ (8 : Pid) ∈ ([8] : List Pid) :=
  ⟨_, rfl, rfl,
    ((no_stop_lost _ 7 _ oneThread_starts _ _ newThread_rests 8 _ rfl).1 _ _ _ rfl).2.1⟩

end Heads

end Ia2.Tracer
