import Ia2.Library.Runs
import Ia2.Runtime.ViolationQueue
import Ia2.X86.Machine

/-!
# Permissive mode

In permissive mode an access that the protection keys forbid does not end the program. The handler
of the `SIGSEGV` logs it and lets the thread run the instruction with all keys allowed and the trap
flag set; the handler of the `SIGTRAP` that follows takes both back. The handler is that of the
source, over the parts of the signal frame that it reads and writes. The processor is any one that
runs an instruction that faults in the same way whatever PKRU allows.

A program in permissive mode does what it does without protection keys (`simulates_run`,
`follows_step`), and every instruction that breaks a key's protection is logged once.
-/

namespace Ia2.PermissiveMode

open ViolationQueue

def SIGTRAP : Nat := 5
def SIGSEGV : Nat := 11
def SEGV_PKUERR : Nat := 4

def XFEATURE_PKRU : UInt64 := 9
def XFEATURE_MASK_PKRU : UInt64 := (1 : UInt64) <<< XFEATURE_PKRU
def trapBit : UInt64 := 0x100

structure Siginfo where
  siCode : Nat
  siAddr : UInt64

structure Ucontext where
  rip : UInt64
  rsp : UInt64
  rbp : UInt64
  eflags : UInt64
  xfeatures : UInt64
  pkru : UInt32

inductive Failure where
  | abort | segv | queueFull
deriving DecidableEq, Repr

def permissiveModeHandler (sig : Nat) (info : Option Siginfo) (uctxt : Ucontext)
    (load : UInt64 → Option UInt64) (localAddr : UInt64) (oldPkru : UInt32) (q : Queue) :
    Except Failure (Ucontext × UInt32 × Queue) :=
  let handlingPkuerr := if sig = SIGSEGV then info.filter (·.siCode = SEGV_PKUERR) else none
  let handlingTrap := sig = SIGTRAP
  -- PKRU is restored from the frame whether or not the processor had it in use
  let xfeatures := uctxt.xfeatures ||| XFEATURE_MASK_PKRU
  match handlingPkuerr with
  | some info =>
    match load info.siAddr with
    | none => .error .segv
    | some val =>
      match pushQueue q ⟨info.siAddr, val, uctxt.rip, uctxt.rsp, uctxt.rbp, uctxt.pkru, localAddr⟩
        with
      | none => .error .queueFull
      | some q =>
        .ok ({ uctxt with xfeatures, eflags := uctxt.eflags ||| trapBit, pkru := 0 }, uctxt.pkru, q)
  | none =>
    if handlingTrap
      then .ok ({ uctxt with xfeatures, eflags := uctxt.eflags &&& ~~~trapBit, pkru := oldPkru },
      oldPkru, q)
    else .error .abort

/-! ### The way to the handler -/

def permissiveModeTrampoline : List X86.Instr := [
  .movq .rcx .r10,
  .movq .rdx .r11,
  .movq .rax .r12,
  .xorl .rcx,
  .xorl .rdx,
  .xorl .rax,
  .wrpkru,
  .movq .r10 .rcx,
  .movq .r11 .rdx,
  .movq .r12 .rax]

theorem trampoline_runs (env : X86.Env) (s : X86.State) :
    StraightLine.Runs (X86.exec env) (fun i s => ¬ i.Faults s ∧ X86.accesses env i s = [])
      permissiveModeTrampoline s
      fun s' => s'.pkru = 0 ∧ s'.mem = s.mem ∧ ∀ r, r ≠ .r10 → r ≠ .r11 → r ≠ .r12 →
        s'.regs r = s.regs r := by
  constructor
  · simp [permissiveModeTrampoline, StraightLine.Along, X86.Instr.Faults, X86.accesses, X86.exec]
  · refine ⟨?_, ?_, ?_⟩
    · simp [permissiveModeTrampoline, StraightLine.run, X86.exec]
    · simp [permissiveModeTrampoline, StraightLine.run, X86.exec]
    · intro r h10 h11 h12
      cases r <;> simp_all [permissiveModeTrampoline, StraightLine.run, X86.exec]

/-! ### The machine -/

/-- A processor whose threads have registers `L` and share a memory `M`. The trap flag is kept apart
from the registers. -/
structure Processor (L M : Type) where
  rip : L → UInt64
  rsp : L → UInt64
  rbp : L → UInt64
  eflags : L → UInt64
  setEflags : L → UInt64 → L
  /-- The address of an access of the next instruction that PKRU forbids. -/
  fault : L → UInt32 → Option UInt64
  /-- Run the next instruction, without a check of keys; nothing if it fails for another reason. -/
  exec : L → M → UInt32 → Option (L × M × UInt32)
  load : M → UInt64 → Option UInt64
  setEflags_eflags : ∀ l, setEflags l (eflags l) = l
  eflags_trapBit : ∀ l, eflags l &&& ~~~trapBit = eflags l
  fault_zero : ∀ l, fault l 0 = none
  /-- An instruction that accesses memory with a key neither writes PKRU nor depends on it. -/
  exec_pkru : ∀ {l m pkru l' m' pkru'}, (fault l pkru).isSome →
    exec l m pkru = some (l', m', pkru') → pkru' = pkru
  exec_zero : ∀ {l m pkru}, (fault l pkru).isSome → exec l m 0 = (exec l m pkru).map fun r =>
    (r.1, r.2.1, 0)

/-- A thread: its registers, PKRU and the trap flag, the handler's variable, and whether an
instruction was run with the trap flag whose `SIGTRAP` has not been handled. -/
structure Thread (L : Type) where
  regs : L
  pkru : UInt32
  trap : Bool
  trapped : Bool
  oldPkru : UInt32

structure Machine (L M : Type) where
  threads : Nat → Thread L
  memory : M
  queue : Queue

variable {L M : Type} (cpu : Processor L M)

namespace Processor

def frame (th : Thread L) (xfeatures : UInt64) : Ucontext where
  rip := cpu.rip th.regs
  rsp := cpu.rsp th.regs
  rbp := cpu.rbp th.regs
  eflags := if th.trap then cpu.eflags th.regs ||| trapBit else cpu.eflags th.regs
  xfeatures
  pkru := th.pkru

def sigreturn (th : Thread L) (uctxt : Ucontext) (oldPkru : UInt32) : Thread L where
  regs := cpu.setEflags th.regs (uctxt.eflags &&& ~~~trapBit)
  pkru := if uctxt.xfeatures &&& XFEATURE_MASK_PKRU ≠ 0 then uctxt.pkru else 0
  trap := uctxt.eflags &&& trapBit ≠ 0
  trapped := false
  oldPkru

end Processor

/-- What a step of the machine does. -/
inductive Label where
  | violated (tid : Nat) (err : MpkErr)
  | executed (tid : Nat)
  | restored (tid : Nat)
  | popped (err : Option MpkErr)

/-- The machine in permissive mode. Threads take turns in any order, also between an instruction and
its `SIGTRAP`, and the logging thread takes entries off the queue at any time. -/
inductive Step : Machine L M → Label → Machine L M → Prop
  | fault {s : Machine L M} {tid : Nat} {addr xfeatures localAddr : UInt64} {uctxt : Ucontext}
    {oldPkru : UInt32} {q : Queue} {val : UInt64}
    (htrapped : (s.threads tid).trapped = false)
      (hfault : cpu.fault (s.threads tid).regs (s.threads tid).pkru = some addr)
    (hload : cpu.load s.memory addr = some val)
    (hhandler : permissiveModeHandler SIGSEGV (some ⟨SEGV_PKUERR, addr⟩)
      (cpu.frame (s.threads tid) xfeatures) (cpu.load s.memory) localAddr
      (s.threads tid).oldPkru s.queue = .ok (uctxt, oldPkru, q)) :
    Step s (.violated tid ⟨addr, val, cpu.rip (s.threads tid).regs, cpu.rsp (s.threads tid).regs,
      cpu.rbp (s.threads tid).regs,
        (s.threads tid).pkru, localAddr⟩)
      ⟨Function.update s.threads tid (cpu.sigreturn (s.threads tid) uctxt oldPkru), s.memory, q⟩
  | exec {s : Machine L M} {tid : Nat} {regs : L} {memory : M} {pkru : UInt32}
    (htrapped : (s.threads tid).trapped = false)
    (hfault : cpu.fault (s.threads tid).regs (s.threads tid).pkru = none)
    (hexec : cpu.exec (s.threads tid).regs s.memory (s.threads tid).pkru =
      some (regs, memory, pkru)) :
    Step s (.executed tid) ⟨Function.update s.threads tid
      { s.threads tid with regs, pkru, trapped := (s.threads tid).trap }, memory, s.queue⟩
  | trap {s : Machine L M} {tid : Nat} {xfeatures localAddr : UInt64} {info : Option Siginfo}
    {uctxt : Ucontext} {oldPkru : UInt32} {q : Queue}
    (htrapped : (s.threads tid).trapped = true)
    (hhandler : permissiveModeHandler SIGTRAP info (cpu.frame (s.threads tid) xfeatures)
      (cpu.load s.memory) localAddr
      (s.threads tid).oldPkru s.queue = .ok (uctxt, oldPkru, q)) :
    Step s (.restored tid) ⟨Function.update s.threads tid
      (cpu.sigreturn (s.threads tid) uctxt oldPkru), s.memory, q⟩
  | pop {s : Machine L M} : Step s (.popped (popQueue s.queue).1)
    { s with queue := (popQueue s.queue).2 }

/-! ### The machine without protection keys -/

/-- What the log says of an access that PKRU forbids. -/
structure Violation where
  addr : UInt64
  pc : UInt64
  sp : UInt64
  fp : UInt64
  pkru : UInt32
deriving DecidableEq, Repr

structure Unprotected (L M : Type) where
  threads : Nat → L × UInt32
  memory : M

/-- The access that the thread's next instruction would be stopped for. -/
def Processor.violation (th : L × UInt32) : Option Violation :=
  (cpu.fault th.1 th.2).map fun addr => ⟨addr, cpu.rip th.1, cpu.rsp th.1, cpu.rbp th.1, th.2⟩

/-- A thread runs an instruction; the label says which thread, and what would have stopped it. -/
inductive UnprotectedStep : Unprotected L M → Nat × Option Violation → Unprotected L M → Prop
  | exec {s : Unprotected L M} {tid : Nat} {regs : L} {memory : M} {pkru : UInt32}
    (hexec : cpu.exec (s.threads tid).1 s.memory (s.threads tid).2 = some (regs, memory, pkru)) :
    UnprotectedStep s (tid, cpu.violation (s.threads tid))
    ⟨Function.update s.threads tid (regs, pkru), memory⟩

/-! ### Bits of the frame -/

section Bits

theorem or_and_self (x b : UInt64) : (x ||| b) &&& b = b := by
  apply UInt64.toBitVec_inj.mp
  ext i
  simp only [UInt64.toBitVec_and, UInt64.toBitVec_or, BitVec.getElem_and, BitVec.getElem_or]
  cases x.toBitVec[i] <;> cases b.toBitVec[i] <;> rfl

theorem or_and_not (x b : UInt64) : (x ||| b) &&& ~~~b = x &&& ~~~b := by
  apply UInt64.toBitVec_inj.mp
  ext i
  simp only [UInt64.toBitVec_and, UInt64.toBitVec_or, UInt64.toBitVec_not, BitVec.getElem_and,
    BitVec.getElem_or, BitVec.getElem_not]
  cases x.toBitVec[i] <;> cases b.toBitVec[i] <;> rfl

theorem and_not_and (x b : UInt64) : x &&& ~~~b &&& b = 0 := by
  rw [UInt64.and_assoc, UInt64.not_and_self, UInt64.and_zero]

end Bits

/-! ### What the handler does -/

section Handler

variable {cpu} {th : Thread L} {uctxt uctxt' : Ucontext} {load : UInt64 → Option UInt64}
  {addr val xfeatures localAddr : UInt64}
  {oldPkru oldPkru' : UInt32} {q q' : Queue}

theorem filter_pkuerr (addr : UInt64) :
    (some ⟨SEGV_PKUERR, addr⟩ : Option Siginfo).filter (·.siCode = SEGV_PKUERR) =
      some ⟨SEGV_PKUERR, addr⟩ := rfl

theorem handler_pkuerr (hload : load addr = some val)
    (hpush : pushQueue q ⟨addr, val, uctxt.rip, uctxt.rsp, uctxt.rbp, uctxt.pkru, localAddr⟩ =
      some q') :
    permissiveModeHandler SIGSEGV (some ⟨SEGV_PKUERR, addr⟩) uctxt load localAddr oldPkru q =
      .ok ({ uctxt with
          xfeatures := uctxt.xfeatures ||| XFEATURE_MASK_PKRU
          eflags := uctxt.eflags ||| trapBit
          pkru := 0 }, uctxt.pkru, q') := by
  simp only [permissiveModeHandler, if_true, filter_pkuerr, hload, hpush]

theorem handler_pkuerr_push (hload : load addr = some val)
    (h : permissiveModeHandler SIGSEGV (some ⟨SEGV_PKUERR, addr⟩) uctxt load localAddr oldPkru q =
      .ok (uctxt', oldPkru', q')) :
    pushQueue q ⟨addr, val, uctxt.rip, uctxt.rsp, uctxt.rbp, uctxt.pkru, localAddr⟩ = some q' := by
  cases hpush : pushQueue q ⟨addr, val, uctxt.rip, uctxt.rsp, uctxt.rbp, uctxt.pkru, localAddr⟩ with
  | none =>
    simp only [permissiveModeHandler, if_true, filter_pkuerr, hload, hpush] at h
    cases h
  | some q₁ =>
    rw [handler_pkuerr hload hpush] at h
    cases h
    rfl

variable {info : Option Siginfo}

theorem handler_trap :
    permissiveModeHandler SIGTRAP info uctxt load localAddr oldPkru q =
      .ok ({ uctxt with
          xfeatures := uctxt.xfeatures ||| XFEATURE_MASK_PKRU
          eflags := uctxt.eflags &&& ~~~trapBit
          pkru := oldPkru }, oldPkru, q) := by
  simp [permissiveModeHandler, SIGTRAP, SIGSEGV]

theorem frame_eflags (cpu : Processor L M) (th : Thread L) (xfeatures : UInt64) :
    (cpu.frame th xfeatures).eflags &&& ~~~trapBit = cpu.eflags th.regs := by
  cases htrap : th.trap with
  | false => simp only [Processor.frame, htrap, Bool.false_eq_true, if_false, cpu.eflags_trapBit]
  | true => simp only [Processor.frame, htrap, if_true, or_and_not, cpu.eflags_trapBit]

theorem sigreturn_pkuerr (hload : load addr = some val)
    (h : permissiveModeHandler SIGSEGV (some ⟨SEGV_PKUERR, addr⟩) (cpu.frame th xfeatures) load
      localAddr oldPkru q = .ok (uctxt, oldPkru', q')) :
    cpu.sigreturn th uctxt oldPkru' = ⟨th.regs, 0, true, false, th.pkru⟩ := by
  rw [handler_pkuerr hload (handler_pkuerr_push hload h)] at h
  cases h
  have hused : XFEATURE_MASK_PKRU ≠ 0 := by decide
  have htrap : trapBit ≠ 0 := by decide
  simp [Processor.sigreturn, or_and_self, or_and_not, frame_eflags, cpu.setEflags_eflags,
    hused, htrap]
  rfl

theorem sigreturn_trap (h : permissiveModeHandler SIGTRAP info (cpu.frame th xfeatures) load
    localAddr oldPkru q = .ok (uctxt, oldPkru', q')) :
    cpu.sigreturn th uctxt oldPkru' = ⟨th.regs, oldPkru, false, false, oldPkru⟩ ∧ q' = q := by
  rw [handler_trap] at h
  cases h
  have hused : XFEATURE_MASK_PKRU ≠ 0 := by decide
  constructor
  · have hclear : cpu.eflags th.regs &&& trapBit = 0 := by rw [← cpu.eflags_trapBit, and_not_and]
    simp [Processor.sigreturn, or_and_self, frame_eflags, cpu.eflags_trapBit, cpu.setEflags_eflags,
      hclear, hused]
  · rfl

end Handler

/-! ### Every step is no step or one step of the unprotected machine -/

/-- The thread as it is without protection keys: while an instruction is run with all keys allowed,
the handler's variable stands for PKRU. -/
def Thread.unprotected (th : Thread L) :
    L × UInt32 := (th.regs, if th.trap then th.oldPkru else th.pkru)

def Machine.unprotected (s : Machine L M) : Unprotected L M :=
  ⟨fun tid => (s.threads tid).unprotected, s.memory⟩

structure Thread.Consistent (th : Thread L) : Prop where
  trapped : th.trapped = true → th.trap = true
  pkru : th.trap = true → th.pkru = 0
  fault : th.trap = true → th.trapped = false → (cpu.fault th.regs th.oldPkru).isSome

def Machine.Consistent (s : Machine L M) : Prop := ∀ tid, (s.threads tid).Consistent cpu

/-- The violation that has been logged and whose instruction has not been run. -/
def Machine.inFlight (s : Machine L M) (tid : Nat) : List Violation :=
  if (s.threads tid).trap && !(s.threads tid).trapped
    then (cpu.violation (s.threads tid).unprotected).toList else []

def violationOf (err : MpkErr) : Violation := ⟨err.addr, err.pc, err.sp, err.fp, err.pkru⟩

/-- The violations of a thread that a step logs. -/
def Label.logged (tid : Nat) : Label → List Violation
  | .violated tid' err => if tid' = tid then [violationOf err] else []
  | _ => []

/-- The violation that an instruction of the thread commits. -/
def committed (tid : Nat) (step : Nat × Option Violation) : List Violation :=
  if step.1 = tid then step.2.toList else []

section Simulation

variable {cpu} {s s' : Machine L M} {label : Label} {tid : Nat}
variable {th : Thread L}

theorem Machine.Consistent.update (h : s.Consistent cpu) (hth : th.Consistent cpu) (memory : M)
    (q : Queue) :
    (⟨Function.update s.threads tid th, memory, q⟩ : Machine L M).Consistent cpu := by
  intro tid'
  by_cases htid : tid' = tid
  · subst htid
    simpa using hth
  · simpa [Function.update_of_ne htid] using h tid'

theorem unprotected_update (s : Machine L M) (th : Thread L) (memory : M) (q : Queue) :
    (⟨Function.update s.threads tid th, memory, q⟩ : Machine L M).unprotected =
      ⟨Function.update s.unprotected.threads tid th.unprotected, memory⟩ := by
  simp only [Machine.unprotected, Unprotected.mk.injEq, and_true]
  funext tid'
  by_cases htid : tid' = tid
  · subst htid
    simp
  · simp [Function.update_of_ne htid]

theorem unprotected_update_eq (q : Queue) (hsame : th.unprotected = s.unprotected.threads tid) :
    (⟨Function.update s.threads tid th, s.memory, q⟩ : Machine L M).unprotected =
      s.unprotected := by
  rw [unprotected_update, hsame, Function.update_eq_self]
  rfl

theorem inFlight_update {memory : M} {q : Queue} {logged : Nat → List Violation}
    (committed : Nat → List Violation) (hlogged : ∀ tid' ≠ tid, logged tid' = [])
    (hcommitted : ∀ tid' ≠ tid, committed tid' = [])
    (hself : s.inFlight cpu tid ++ logged tid = committed tid ++ if th.trap && !th.trapped
    then (cpu.violation th.unprotected).toList else []) (tid' : Nat) :
    s.inFlight cpu tid' ++ logged tid' =
      committed tid' ++ (⟨Function.update s.threads tid th, memory, q⟩ : Machine L M).inFlight
        cpu tid' := by
  by_cases htid : tid' = tid
  · subst htid
    simpa only [Machine.inFlight, Function.update_self] using hself
  · simp only [Machine.inFlight, Function.update_of_ne htid, hlogged tid' htid,
      hcommitted tid' htid, List.append_nil, List.nil_append]

theorem Thread.consistent_of_untrapped (htrap : th.trap = false) (htrapped : th.trapped = false) :
    th.Consistent cpu where
  trapped h := absurd (htrapped.symm.trans h) Bool.false_ne_true
  pkru h := absurd (htrap.symm.trans h) Bool.false_ne_true
  fault h := absurd (htrap.symm.trans h) Bool.false_ne_true

theorem Thread.Consistent.trap_of_fault {addr : UInt64} (h : th.Consistent cpu)
    (hfault : cpu.fault th.regs th.pkru = some addr) :
    th.trap = false := by
  apply Bool.eq_false_iff.mpr
  intro htrap
  rw [h.pkru htrap, cpu.fault_zero] at hfault
  cases hfault

/-- The step is none of the unprotected machine or one, which commits the violation in flight. -/
def Simulates (cpu : Processor L M) (s : Machine L M) (label : Label) (s' : Machine L M) : Prop :=
  (s'.unprotected = s.unprotected ∧ ∀ tid,
    s.inFlight cpu tid ++ label.logged tid = s'.inFlight cpu tid) ∨
    ∃ step, UnprotectedStep cpu s.unprotected step s'.unprotected ∧
      ∀ tid, s.inFlight cpu tid ++ label.logged tid = committed tid step ++ s'.inFlight cpu tid

theorem simulates_exec {memory : M} (hexec : cpu.exec (s.unprotected.threads tid).1 s.memory
    (s.unprotected.threads tid).2 = some (th.unprotected.1, memory, th.unprotected.2))
    (hflight : s.inFlight cpu tid = (cpu.violation (s.unprotected.threads tid)).toList)
    (hdone : (th.trap && !th.trapped) = false) :
    Simulates cpu s (.executed tid) ⟨Function.update s.threads tid th, memory, s.queue⟩ := by
  refine .inr ⟨(tid, cpu.violation (s.unprotected.threads tid)), ?_, ?_⟩
  · rw [unprotected_update]
    exact .exec hexec
  · apply inFlight_update fun tid' =>
      committed tid' (tid, cpu.violation (s.unprotected.threads tid))
    · exact fun _ _ => rfl
    · exact fun tid' htid => if_neg htid.symm
    · simp [hflight, hdone, Label.logged, committed]

theorem Step.simulates (hstep : Step cpu s label s') (h : s.Consistent cpu) :
    s'.Consistent cpu ∧ Simulates cpu s label s' := by
  cases hstep with
  | @fault tid addr xfeatures localAddr uctxt oldPkru q val htrapped hfault hload hhandler =>
    have htrap := (h tid).trap_of_fault hfault
    rw [sigreturn_pkuerr hload hhandler]
    refine ⟨h.update ⟨fun _ => rfl, fun _ => rfl, fun _ _ => by rw [hfault]; rfl⟩ _ _,
      .inl ⟨?_, ?_⟩⟩
    · apply unprotected_update_eq
      simp [Machine.unprotected, Thread.unprotected, htrap]
    · apply inFlight_update fun _ => []
      · exact fun tid' htid => if_neg htid.symm
      · exact fun _ _ => rfl
      · simp [Machine.inFlight, htrap, Label.logged, violationOf, Processor.violation,
          Thread.unprotected, hfault]
  | @exec tid regs memory pkru htrapped hfault hexec =>
    cases htrap : (s.threads tid).trap with
    | false =>
      constructor
      · apply h.update
        exact Thread.consistent_of_untrapped htrap rfl
      apply simulates_exec
      · simpa [Machine.unprotected, Thread.unprotected, htrap] using hexec
      · simp [Machine.inFlight, Machine.unprotected, Thread.unprotected, Processor.violation, htrap,
          hfault]
      · simp [htrap]
    | true =>
      have hfaults := (h tid).fault htrap htrapped
      -- the instruction was run with all keys allowed; without keys it does the same and keeps PKRU
      rw [(h tid).pkru htrap, cpu.exec_zero hfaults] at hexec
      obtain ⟨⟨regs', memory', pkru'⟩, hexec', heq⟩ := Option.map_eq_some_iff.mp hexec
      cases heq
      obtain rfl := cpu.exec_pkru hfaults hexec'
      constructor
      · apply h.update
        exact ⟨fun _ => htrap, fun _ => rfl, fun _ h => absurd h.symm Bool.false_ne_true⟩
      apply simulates_exec
      · simpa [Machine.unprotected, Thread.unprotected, htrap] using hexec'
      · simp [Machine.inFlight, Machine.unprotected, htrap, htrapped]
      · simp
  | @trap tid xfeatures localAddr info uctxt oldPkru q htrapped hhandler =>
    have htrap := (h tid).trapped htrapped
    obtain ⟨hreturn, rfl⟩ := sigreturn_trap hhandler
    rw [hreturn]
    refine ⟨h.update (Thread.consistent_of_untrapped rfl rfl) _ _, .inl ⟨?_, ?_⟩⟩
    · apply unprotected_update_eq
      simp [Machine.unprotected, Thread.unprotected, htrap]
    · apply inFlight_update fun _ => []
      · exact fun _ _ => rfl
      · exact fun _ _ => rfl
      · simp [Machine.inFlight, htrapped, Label.logged]
  | pop => exact ⟨h, .inl ⟨rfl, fun _ => List.append_nil _⟩⟩

theorem simulates_run {labels : List Label} (hrun : Run (Step cpu) s labels s')
    (h : s.Consistent cpu) :
    s'.Consistent cpu ∧ ∃ steps, Run (UnprotectedStep cpu) s.unprotected steps s'.unprotected ∧
      ∀ tid, s.inFlight cpu tid ++ labels.flatMap (Label.logged tid) =
        steps.flatMap (committed tid) ++ s'.inFlight cpu tid := by
  induction hrun with
  | nil s => exact ⟨h, [], .nil _, fun tid => List.append_nil _⟩
  | @cons s s₁ s' label labels hstep _ ih =>
    obtain ⟨h₁, hfirst⟩ := hstep.simulates h
    obtain ⟨h', steps, hsteps, hlog⟩ := ih h₁
    obtain ⟨hsame, hlog₁⟩ | ⟨step, hstep', hlog₁⟩ := hfirst
    · refine ⟨h', steps, hsame ▸ hsteps, fun tid => ?_⟩
      rw [List.flatMap_cons, ← List.append_assoc, hlog₁, hlog]
    · refine ⟨h', step :: steps, .cons hstep' hsteps, fun tid => ?_⟩
      rw [List.flatMap_cons, ← List.append_assoc, hlog₁, List.append_assoc, hlog, List.flatMap_cons,
        List.append_assoc]

end Simulation

/-! ### The machine can do all that the unprotected machine can -/

section Follow

variable {cpu} {s s' : Machine L M} {tid : Nat}
variable {err : MpkErr} {q : Queue} {u : Unprotected L M}

theorem pushQueue_popQueue (h : pushQueue q err = none) (err' : MpkErr) :
    ∃ q', pushQueue (popQueue q).2 err' = some q' := by
  have hfull : wrap q.push + 1 = q.pop := by
    by_contra hne
    simp [pushQueue, hne] at h
  have hne : q.push ≠ wrap q.pop ∧ wrap q.push + 1 ≠ wrap q.pop + 1 := by
    unfold wrap QUEUE_SIZE at hfull ⊢
    by_cases hpush : q.push = 8192
    · rw [if_pos hpush] at hfull ⊢
      rw [if_neg (by omega)]
      omega
    · rw [if_neg hpush] at hfull ⊢
      by_cases hpop : q.pop = 8192
      · rw [if_pos hpop]
        omega
      · rw [if_neg hpop]
        omega
  simp only [popQueue, if_neg hne.1, pushQueue, if_neg hne.2]
  exact ⟨_, rfl⟩

theorem exists_room (cpu : Processor L M) (s : Machine L M) (err : MpkErr) :
    ∃ labels q q', Run (Step cpu) s labels { s with queue := q } ∧ pushQueue q err = some q' := by
  cases hpush : pushQueue s.queue err with
  | some q' => exact ⟨[], s.queue, q', .nil s, hpush⟩
  | none =>
    obtain ⟨q', hpush'⟩ := pushQueue_popQueue hpush err
    exact ⟨_, _, q', .cons .pop (.nil _), hpush'⟩

theorem step_fault {addr val localAddr : UInt64} (htrapped : (s.threads tid).trapped = false)
    (hfault : cpu.fault (s.threads tid).regs (s.threads tid).pkru = some addr)
    (hload : cpu.load s.memory addr = some val)
    (herr : err = ⟨addr, val, cpu.rip (s.threads tid).regs, cpu.rsp (s.threads tid).regs,
    cpu.rbp (s.threads tid).regs, (s.threads tid).pkru, localAddr⟩)
    (hpush : pushQueue s.queue err = some q) :
    Step cpu s (.violated tid err)
      ⟨Function.update s.threads tid ⟨(s.threads tid).regs, 0, true, false, (s.threads tid).pkru⟩,
        s.memory, q⟩ := by
  subst herr
  have hhandler : permissiveModeHandler SIGSEGV (some ⟨SEGV_PKUERR, addr⟩)
    (cpu.frame (s.threads tid) 0) (cpu.load s.memory) localAddr
      (s.threads tid).oldPkru s.queue = .ok (_, _, q) := handler_pkuerr hload hpush
  rw [← sigreturn_pkuerr hload hhandler]
  exact .fault htrapped hfault hload hhandler

theorem step_restore (htrapped : (s.threads tid).trapped = true) :
    Step cpu s (.restored tid)
      ⟨Function.update s.threads tid ⟨(s.threads tid).regs, (s.threads tid).oldPkru, false, false,
        (s.threads tid).oldPkru⟩, s.memory, s.queue⟩ := by
  have hhandler : permissiveModeHandler SIGTRAP none (cpu.frame (s.threads tid) 0)
    (cpu.load s.memory) 0 (s.threads tid).oldPkru s.queue =
      .ok (_, _, _) := handler_trap
  rw [← (sigreturn_trap hhandler).1]
  exact .trap htrapped hhandler

variable {regs : L} {memory : M} {pkru : UInt32}

theorem follows_stepping (h : s.Consistent cpu) (htrap : (s.threads tid).trap = true)
    (htrapped : (s.threads tid).trapped = false)
    (hexec : cpu.exec (s.unprotected.threads tid).1 s.memory (s.unprotected.threads tid).2 =
    some (regs, memory, pkru)) :
    ∃ label s', Step cpu s label s' ∧ s'.unprotected =
      ⟨Function.update s.unprotected.threads tid (regs, pkru), memory⟩ := by
  have hfaults := (h tid).fault htrap htrapped
  have hthread : s.unprotected.threads tid = ((s.threads tid).regs, (s.threads tid).oldPkru) := by
    simp [Machine.unprotected, Thread.unprotected, htrap]
  rw [hthread] at hexec
  obtain rfl := cpu.exec_pkru hfaults hexec
  have hexec' : cpu.exec (s.threads tid).regs s.memory (s.threads tid).pkru =
      some (regs, memory, 0) := by
    rw [(h tid).pkru htrap, cpu.exec_zero hfaults, hexec]
    rfl
  refine ⟨_, _, .exec htrapped (by rw [(h tid).pkru htrap, cpu.fault_zero]) hexec', ?_⟩
  rw [unprotected_update]
  simp [Thread.unprotected, htrap]

section

variable (h : s.Consistent cpu)
  (hload : ∀ l m pkru addr, cpu.fault l pkru = some addr → (cpu.load m addr).isSome)

include h hload

theorem follows_running (htrap : (s.threads tid).trap = false)
    (hexec : cpu.exec (s.unprotected.threads tid).1 s.memory (s.unprotected.threads tid).2 =
    some (regs, memory, pkru)) :
    ∃ labels s', Run (Step cpu) s labels s' ∧
      s'.unprotected = ⟨Function.update s.unprotected.threads tid (regs, pkru), memory⟩ := by
  have htrapped : (s.threads tid).trapped = false := by
    apply Bool.eq_false_iff.mpr
    exact fun htrapped => absurd (htrap.symm.trans ((h tid).trapped htrapped)) Bool.false_ne_true
  have hthread : s.unprotected.threads tid = ((s.threads tid).regs, (s.threads tid).pkru) := by
    simp [Machine.unprotected, Thread.unprotected, htrap]
  cases hfault : cpu.fault (s.threads tid).regs (s.threads tid).pkru with
  | none =>
    rw [hthread] at hexec
    refine ⟨_, _, .cons (.exec htrapped hfault hexec) (.nil _), ?_⟩
    rw [unprotected_update]
    simp [Thread.unprotected, htrap]
  | some addr =>
    obtain ⟨val, hval⟩ := Option.isSome_iff_exists.mp (hload _ s.memory _ _ hfault)
    obtain ⟨labels, q, q', hpops, hpush⟩ :=
      exists_room cpu s ⟨addr, val, cpu.rip (s.threads tid).regs, cpu.rsp (s.threads tid).regs,
      cpu.rbp (s.threads tid).regs, (s.threads tid).pkru, 0⟩
    have hstep := step_fault (s := { s with queue := q }) htrapped hfault hval rfl hpush
    have h₁ := (hstep.simulates h).1
    have hsame :
      (⟨Function.update s.threads tid ⟨(s.threads tid).regs, 0, true, false, (s.threads tid).pkru⟩,
      s.memory, q'⟩ :
        Machine L M).unprotected = s.unprotected := unprotected_update_eq q' hthread.symm
    rw [← hsame] at hexec ⊢
    obtain ⟨label', s', hstep', hs'⟩ := follows_stepping h₁ (by simp) (by simp) hexec
    exact ⟨_, s', (hpops.snoc hstep).snoc hstep', hs'⟩

theorem follows_step {step : Nat × Option Violation}
    (hstep : UnprotectedStep cpu s.unprotected step u) :
    ∃ labels s', Run (Step cpu) s labels s' ∧ s'.unprotected = u := by
  cases hstep with
  | @exec tid regs memory pkru hexec =>
    cases htrap : (s.threads tid).trap with
    | false => exact follows_running h hload htrap hexec
    | true =>
      cases htrapped : (s.threads tid).trapped with
      | false =>
        obtain ⟨label, s', hstep, hs'⟩ := follows_stepping h htrap htrapped hexec
        exact ⟨_, s', .cons hstep (.nil _), hs'⟩
      | true =>
        have hstep : Step cpu s (.restored tid) _ := step_restore htrapped
        have h₁ := (hstep.simulates h).1
        have hsame :
          (⟨Function.update s.threads tid ⟨(s.threads tid).regs, (s.threads tid).oldPkru, false,
          false, (s.threads tid).oldPkru⟩,
            s.memory, s.queue⟩ : Machine L M).unprotected = s.unprotected := by
          apply unprotected_update_eq
          simp [Machine.unprotected, Thread.unprotected, htrap]
        rw [← hsame] at hexec ⊢
        obtain ⟨labels, s', hrun, hs'⟩ := follows_running h₁ hload (by simp) hexec
        exact ⟨_, s', .cons hstep hrun, hs'⟩

theorem follows_run {steps : List (Nat × Option Violation)} {u' : Unprotected L M}
    (hrun : Run (UnprotectedStep cpu) u steps u') (hu : s.unprotected = u) :
    ∃ labels s', Run (Step cpu) s labels s' ∧ s'.unprotected = u' := by
  induction hrun generalizing s with
  | nil u => exact ⟨[], s, .nil s, hu⟩
  | cons hstep _ ih =>
    subst hu
    obtain ⟨labels, s₁, hfirst, hs₁⟩ := follows_step h hload hstep
    obtain ⟨labels', s', hrest, hs'⟩ := ih (simulates_run hfirst h).1 hs₁
    exact ⟨labels ++ labels', s', hfirst.append hrest, hs'⟩

end

end Follow

/-! ### The log -/

def Label.op? : Label → Option Op
  | .violated _ err => some (.push err)
  | .popped _ => some .pop
  | _ => none

def Label.violation? : Label → Option MpkErr
  | .violated _ err => some err
  | _ => none

def Label.popped? : Label → Option MpkErr
  | .popped err => err
  | _ => none

section Log

def poppedErrs (history : List Event) : List MpkErr :=
  history.filterMap fun
    | .popped e => some e
    | _ => none

theorem poppedErrs_pending {history : List Event} (h : FifoHistory history) :
    (poppedErrs history).length = pops history ∧
      poppedErrs history ++ (pending history).map Prod.snd = (pushes history).map Prod.snd := by
  induction history using List.reverseRecOn with
  | nil => exact ⟨rfl, rfl⟩
  | append_singleton history event ih =>
    obtain ⟨hhistory, hfits⟩ := History.fitting_snoc.mp h
    obtain ⟨hlength, hentries⟩ := ih hhistory
    have hle : pops history ≤ (pushes history).length := by
      have := congrArg List.length hentries
      simp only [List.length_append, List.length_map, hlength] at this
      omega
    cases event with
    | pushed slot e =>
      have hpopped : poppedErrs (history ++ [.pushed slot e]) = poppedErrs history := by
        simp [poppedErrs]
      have hpending : pending (history ++ [.pushed slot e]) = pending history ++ [(slot, e)] := by
        simp only [pending, pushes_pushed, pops_pushed, List.drop_append_of_le_length hle]
      rw [hpopped, hpending, pops_pushed, pushes_pushed, List.map_append, List.map_append,
        ← List.append_assoc, hentries]
      exact ⟨hlength, rfl⟩
    | full e =>
      have hpopped : poppedErrs (history ++ [.full e]) = poppedErrs history := by simp [poppedErrs]
      rw [hpopped, pending, pops_full, pushes_full]
      exact ⟨hlength, hentries⟩
    | popped e =>
      have hpopped : poppedErrs (history ++ [.popped e]) = poppedErrs history ++ [e] := by
        simp [poppedErrs]
      have hpending : (pending history).map Prod.snd =
          e :: (pending (history ++ [.popped e])).map Prod.snd := by
        have hhead : ((pending history).map Prod.snd).head? = some e := by
          rw [List.head?_map]; exact hfits
        have htail : ((pending history).map Prod.snd).tail =
            (pending (history ++ [.popped e])).map Prod.snd := by
          rw [← List.map_tail, pending, pending, pushes_popped, pops_popped, List.tail_drop]
        obtain ⟨rest, hrest⟩ := List.head?_eq_some_iff.mp hhead
        rw [← htail, hrest, List.tail_cons]
      rw [hpopped, pops_popped, pushes_popped, List.append_assoc, List.singleton_append, ← hpending]
      exact ⟨by simp [hlength], hentries⟩
    | empty =>
      have hpopped : poppedErrs (history ++ [.empty]) = poppedErrs history := by simp [poppedErrs]
      rw [hpopped, pending, pops_empty, pushes_empty]
      exact ⟨hlength, hentries⟩

variable {ops : List Op} {q : Queue}

theorem run_push {q' : Queue} {err : MpkErr} (h : (run ops).2 = some q)
    (hpush : pushQueue q err = some q') :
    (run (ops ++ [.push err])).2 = some q' ∧
      (pushes (run (ops ++ [.push err])).1).map Prod.snd =
        (pushes (run ops).1).map Prod.snd ++ [err] ∧
      poppedErrs (run (ops ++ [.push err])).1 = poppedErrs (run ops).1 ++ [] := by
  rw [run_snoc, step_some h]
  simp [Op.exec, hpush, poppedErrs]

theorem run_pop (h : (run ops).2 = some q) :
    (run (ops ++ [.pop])).2 = some (popQueue q).2 ∧
      (pushes (run (ops ++ [.pop])).1).map Prod.snd = (pushes (run ops).1).map Prod.snd ++ [] ∧
      poppedErrs (run (ops ++ [.pop])).1 = poppedErrs (run ops).1 ++ (popQueue q).1.toList := by
  rw [run_snoc, step_some h]
  cases hpop : popQueue q with
  | mk popped q' =>
    cases popped with
    | none => simp [Op.exec, hpop, poppedErrs]
    | some e => simp [Op.exec, hpop, poppedErrs]

variable {cpu} {s s' : Machine L M} {label : Label} {labels : List Label}

theorem Step.queue (hstep : Step cpu s label s') (h : (run ops).2 = some s.queue) :
    (run (ops ++ label.op?.toList)).2 = some s'.queue ∧
      (pushes (run (ops ++ label.op?.toList)).1).map Prod.snd = (pushes (run ops).1).map Prod.snd ++
        label.violation?.toList ∧
      poppedErrs (run (ops ++ label.op?.toList)).1 = poppedErrs (run ops).1 ++
        label.popped?.toList := by
  have hsame : (run (ops ++ [])).2 = some s.queue ∧ (pushes (run (ops ++ [])).1).map Prod.snd =
    (pushes (run ops).1).map Prod.snd ++ [] ∧
      poppedErrs (run (ops ++ [])).1 = poppedErrs (run ops).1 ++ [] := by
    rw [List.append_nil, List.append_nil, List.append_nil]
    exact ⟨h, rfl, rfl⟩
  cases hstep with
  | fault htrapped hfault hload hhandler => exact run_push h (handler_pkuerr_push hload hhandler)
  | exec htrapped hfault hexec => exact hsame
  | trap htrapped hhandler =>
    obtain ⟨-, rfl⟩ := sigreturn_trap hhandler
    exact hsame
  | pop => exact run_pop h

theorem queue_run (hrun : Run (Step cpu) s labels s') (h : (run ops).2 = some s.queue) :
    (run (ops ++ labels.filterMap Label.op?)).2 = some s'.queue ∧
      (pushes (run (ops ++ labels.filterMap Label.op?)).1).map Prod.snd =
        (pushes (run ops).1).map Prod.snd ++ labels.filterMap Label.violation? ∧
      poppedErrs (run (ops ++ labels.filterMap Label.op?)).1 = poppedErrs (run ops).1 ++
        labels.filterMap Label.popped? := by
  induction hrun generalizing ops with
  | nil s => simpa using h
  | @cons s s₁ s' label labels hstep _ ih =>
    have hcons : ∀ {A : Type} (f : Label → Option A),
        (label :: labels).filterMap f = (f label).toList ++ labels.filterMap f := by
      intro A f
      cases hf : f label <;> simp [hf]
    obtain ⟨hqueue, hpushes, hpopped⟩ := hstep.queue h
    obtain ⟨hqueue', hpushes', hpopped'⟩ := ih hqueue
    rw [hcons, hcons, hcons, ← List.append_assoc, ← List.append_assoc, ← List.append_assoc,
      ← hpushes, ← hpopped]
    exact ⟨hqueue', hpushes', hpopped'⟩

theorem log_of_fifo (hrun : Run (Step cpu) s labels s') (hqueue : s.queue = zeroed)
    (hfifo : IsFifo (labels.filterMap Label.op?)) :
    ∃ rounds errs q, flushQueue rounds s'.queue = some (errs, q) ∧
      labels.filterMap Label.popped? ++ errs = labels.filterMap Label.violation? := by
  obtain ⟨hend, hpushes, hpopped⟩ :=
    queue_run hrun (show (run []).2 = some s.queue from congrArg some hqueue.symm)
  rw [List.nil_append] at hend hpushes hpopped
  obtain ⟨rounds, q, hflush⟩ := hfifo.flush _ hend
  refine ⟨rounds, _, q, hflush, ?_⟩
  have hentries := (poppedErrs_pending hfifo.history).2
  rw [hpushes, hpopped] at hentries
  exact hentries

theorem length_pushes_step_le (state : List Event × Option Queue) (op : Op) :
    (pushes state.1).length ≤ (pushes (ViolationQueue.step state op).1).length := by
  cases hq : state.2 with
  | none => simp only [step_none hq, Nat.le_refl]
  | some q =>
    rw [step_some hq, pushes, pushes, List.filterMap_append, List.length_append]
    exact Nat.le_add_right _ _

theorem safeRun_of_few (h : (pushes (run ops).1).length < QUEUE_SIZE) :
    SafeRun ops ∧ ∀ q, (run ops).2 = some q → q.push ≠ QUEUE_SIZE := by
  have hindex : ∀ {ops : List Op} {q : Queue}, SafeRun ops →
    (pushes (run ops).1).length < QUEUE_SIZE → (run ops).2 = some q →
      q.push ≠ QUEUE_SIZE := by
    intro ops q hsafe hfew hq
    rw [(hsafe.fifo.2 q hq).push, ne_eq, indexAfter_eq_size]
    intro ⟨hpos, hmod⟩
    rw [Nat.mod_eq_of_lt hfew] at hmod
    omega
  have hsafe : SafeRun ops := by
    induction ops using List.reverseRecOn with
    | nil => exact History.fitting_nil _
    | append_singleton ops op ih =>
      have hfew : (pushes (run ops).1).length < QUEUE_SIZE := by
        rw [run_snoc] at h
        exact Nat.lt_of_le_of_lt (length_pushes_step_le (run ops) op) h
      refine History.fitting_snoc.mpr ⟨ih hfew, fun q hq => ?_⟩
      have hpush := hindex (ih hfew) hfew hq
      cases op with
      | push e => exact fun hbad => hpush hbad.1
      | pop => exact fun hbad => hpush hbad.1
  exact ⟨hsafe, fun q hq => hindex hsafe h hq⟩

end Log

/-! ### What permissive mode promises -/

section Promises

/-- A processor whose second instruction accesses a protected address. -/
def counter : Processor UInt64 Unit where
  rip l := l
  rsp _ := 0
  rbp _ := 0
  eflags _ := 0
  setEflags l _ := l
  fault l pkru := if l = 1 ∧ pkru ≠ 0 then some 0x1000 else none
  exec l m pkru := some (l + 1, m, pkru)
  load _ _ := some 0
  setEflags_eflags _ := rfl
  eflags_trapBit _ := by decide
  fault_zero l := by simp
  exec_pkru := by
    intro l m pkru l' m' pkru' _ hexec
    cases hexec
    rfl
  exec_zero _ := rfl

/-- All threads are at the second instruction, with the keys of compartment 1. -/
def secondInstruction :
    Machine UInt64 Unit := ⟨fun _ => ⟨1, 0xFFFFFFF0, false, false, 0⟩, (), zeroed⟩

def firstViolation : MpkErr := ⟨0x1000, 0, 1, 0, 0, 0xFFFFFFF0, 0x7000⟩

theorem counter_runs :
    ∃ s', Run (Step counter) secondInstruction
    [.violated 3 firstViolation, .executed 3, .restored 3] s' ∧
    s'.inFlight counter 3 = [] := by
  have hfault : Step counter secondInstruction (.violated 3 firstViolation) _ :=
    step_fault rfl rfl rfl rfl rfl
  exact ⟨_, .cons hfault (.cons (.exec rfl rfl rfl) (.cons (step_restore rfl) (.nil _))), rfl⟩

/-- Whatever the threads do, a program in permissive mode does what it does without protection keys,
and each thread's log has the violations that its instructions committed, each once and in order.
Only the violation of an instruction that is about to be run may be ahead of them. -/
theorem permissive_mode_transparent (cpu : Processor L M) (s s' : Machine L M) (labels : List Label)
    (hstart : ∀ tid, (s.threads tid).trap = false ∧ (s.threads tid).trapped = false)
    (hrun : Run (Step cpu) s labels s') :
    ∃ steps, Run (UnprotectedStep cpu) s.unprotected steps s'.unprotected ∧
      ∀ tid, labels.flatMap (Label.logged tid) = steps.flatMap (committed tid) ++
        s'.inFlight cpu tid := by
  have hconsistent : s.Consistent cpu := fun tid =>
    Thread.consistent_of_untrapped (hstart tid).1 (hstart tid).2
  obtain ⟨-, steps, hsteps, hlog⟩ := simulates_run hrun hconsistent
  refine ⟨steps, hsteps, fun tid => ?_⟩
  have hnone : s.inFlight cpu tid = [] := by simp [Machine.inFlight, (hstart tid).1]
  have := hlog tid
  rwa [hnone, List.nil_append] at this

theorem permissive_mode_transparent_counter :
    ∃ s' steps, Run (UnprotectedStep counter) secondInstruction.unprotected steps s' ∧
    steps.flatMap (committed 3) = [⟨0x1000, 1, 0, 0, 0xFFFFFFF0⟩] := by
  obtain ⟨s', hrun, hflight⟩ := counter_runs
  obtain ⟨steps, hsteps, hlog⟩ :=
    permissive_mode_transparent counter _ s' _ (fun _ => ⟨rfl, rfl⟩) hrun
  refine ⟨_, steps, hsteps, ?_⟩
  have := hlog 3
  rw [hflight, List.append_nil] at this
  exact this.symm

/-- No behaviour of the program is lost in permissive mode, as long as the eight bytes at each
forbidden address can be read. -/
theorem permissive_mode_complete (cpu : Processor L M) (s : Machine L M)
    (hstart : ∀ tid, (s.threads tid).trap = false ∧ (s.threads tid).trapped = false)
    (hload : ∀ l m pkru addr, cpu.fault l pkru = some addr → (cpu.load m addr).isSome)
    (steps : List (Nat × Option Violation)) (u : Unprotected L M)
    (hrun : Run (UnprotectedStep cpu) s.unprotected steps u) :
    ∃ labels s', Run (Step cpu) s labels s' ∧ s'.unprotected = u := by
  have hconsistent : s.Consistent cpu := fun tid =>
    Thread.consistent_of_untrapped (hstart tid).1 (hstart tid).2
  exact follows_run hconsistent hload hrun rfl

theorem permissive_mode_complete_counter :
    ∃ labels s', Run (Step counter) secondInstruction labels s' ∧
    s'.unprotected = ⟨Function.update secondInstruction.unprotected.threads 3 (2, 0xFFFFFFF0),
      ()⟩ :=
  permissive_mode_complete counter secondInstruction (fun _ => ⟨rfl, rfl⟩) (fun _ _ _ _ _ => rfl) _
    _ (.cons (.exec rfl) (.nil _))

/-- A program with fewer violations than the queue has slots has them all in the log, in the order
of the handler's calls: those that the logging thread has taken off the queue and those that its
last flush finds there. -/
theorem permissive_log_complete (cpu : Processor L M) (s s' : Machine L M) (labels : List Label)
    (hqueue : s.queue = zeroed) (hrun : Run (Step cpu) s labels s')
    (hfew : (labels.filterMap Label.violation?).length < QUEUE_SIZE) :
    ∃ rounds errs q, flushQueue rounds s'.queue = some (errs, q) ∧
      labels.filterMap Label.popped? ++ errs = labels.filterMap Label.violation? := by
  obtain ⟨-, hpushes, -⟩ := queue_run hrun (show (run []).2 = some s.queue
    from congrArg some hqueue.symm)
  have hcount : (pushes (run (labels.filterMap Label.op?)).1).length < QUEUE_SIZE := by
    have := congrArg List.length hpushes
    rw [List.length_map] at this
    rw [← List.nil_append (labels.filterMap Label.op?), this]
    exact hfew
  obtain ⟨hsafe, hend⟩ := safeRun_of_few hcount
  exact log_of_fifo hrun hqueue ⟨hsafe.fifo.1, fun q hq => (hsafe.fifo.2 q hq).flush (hend q hq)⟩

theorem permissive_log_complete_counter : ∃ s' rounds errs q, Run (Step counter) secondInstruction
    [.violated 3 firstViolation, .executed 3, .restored 3] s' ∧ flushQueue rounds s'.queue =
      some (errs, q) ∧ [] ++ errs = [firstViolation] := by
  obtain ⟨s', hrun, -⟩ := counter_runs
  obtain ⟨rounds, errs, q, hflush, herrs⟩ :=
    permissive_log_complete counter _ s' _ rfl hrun (by decide)
  exact ⟨s', rounds, errs, q, hrun, hflush, herrs⟩

end Promises

end Ia2.PermissiveMode
