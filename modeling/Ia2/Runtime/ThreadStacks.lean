import Ia2.Library.Leases
import Ia2.Library.Runs
import Ia2.Rewriter.GenCallAsm
import Mathlib.Data.List.Nodup
import Mathlib.Order.Interval.Set.Basic

/-!
# The stacks of the threads

Every thread has a stack for each compartment. The main thread gets the stacks of the compartments
that `ia2_main` registered; every other thread those of all compartments of the program. They are
unmapped when the thread ends. Threads start and end at any time, and the allocations of one are
interleaved with those of the others.

Of the memory of the process only the protection keys of its pages are kept. `mmap` takes pages that
are not mapped; which ones is up to the kernel. A fault on a thread-local variable under the PKRU of
the moment ends the process and is no step here.
-/

namespace Ia2.ThreadStacks

open Rewriter Set

def PAGE_SIZE : Nat := 4096
def STACK_SIZE : Nat := 4 * 1024 * 1024
def IA2_MAX_COMPARTMENTS : Nat := 16

/-- The protection key of each page that is mapped. -/
abbrev Pages := Nat → Option Nat

/-- The pages of the stack at a base address. -/
def stackPages (base : Nat) :
    Set Nat := Ico (base / PAGE_SIZE) (base / PAGE_SIZE + STACK_SIZE / PAGE_SIZE)

/-- Map the pages of a stack with a key, or unmap them. -/
def Pages.set (pages : Pages) (base : Nat) (key : Option Nat) : Pages := fun page =>
  if base / PAGE_SIZE ≤ page ∧ page < base / PAGE_SIZE + STACK_SIZE / PAGE_SIZE then key
    else pages page

structure Pages.Free (pages : Pages) (base : Nat) : Prop where
  aligned : base % PAGE_SIZE = 0
  positive : base ≠ 0
  unmapped : ∀ page ∈ stackPages base, pages page = none

structure ThreadLocals where
  threadStacks : Nat → Nat
  stackptr : Nat → Nat

def ThreadLocals.zeroed : ThreadLocals := ⟨fun _ => 0, fun _ => 0⟩

inductive Failure where
  | mmap | mprotect | stackNotNull | setspecific | reinitStack | noStackptr
deriving DecidableEq, Repr

structure Answers where
  mmap : Option Nat
  mprotect : Bool
  setspecific : Bool

def allocateStack (i : Nat) (answers : Answers) (pages : Pages) (locals : ThreadLocals) :
    Except Failure (Nat × Pages × ThreadLocals) :=
  match answers.mmap with
  | none => .error .mmap
  | some stack =>
    if i ≠ 0 ∧ answers.mprotect = false then .error .mprotect
    else if locals.threadStacks i ≠ 0 then .error .stackNotNull
    else if answers.setspecific = false then .error .setspecific
    -- a mapping that no key was set on has key 0
    else .ok (stack + STACK_SIZE - 8, pages.set stack (some i),
      { locals with threadStacks := Function.update locals.threadStacks i stack })

def ThreadLocals.setStackptr (locals : ThreadLocals) (i stack : Nat) : ThreadLocals :=
  { locals with stackptr := Function.update locals.stackptr i stack }

def allocateStack0 (answers : Answers) (pages : Pages) (locals : ThreadLocals) :
  Except Failure (Pages × ThreadLocals) := do
  let (stack, pages, locals) ← allocateStack 0 answers pages locals
  return (pages, locals.setStackptr 0 stack)

def stackptrForTag (n : Nat) (tag : BitVec 32) :
    Option Nat := (List.range (n + 1)).reverse.find? fun compartment => tag == pkruOf compartment

def stackptrForCompartment (n compartment : Nat) : Option Nat :=
  stackptrForTag n (pkruOf compartment)

def setupCompartmentStack (n compartment : Nat) (answers : Answers) (pages : Pages)
  (locals : ThreadLocals) : Except Failure (Pages × ThreadLocals) := do
  let (initialSp, pages, locals) ← allocateStack compartment answers pages locals
  match stackptrForCompartment n compartment with
  | none => .error .noStackptr
  | some cell => return (pages, locals.setStackptr cell initialSp)

def allocateCompartmentStackAndSetupTls (i : Nat) (answers : Answers) (pages : Pages)
    (locals : ThreadLocals) :
    Except Failure (Pages × ThreadLocals) := do
  let (stack, pages, locals) ← allocateStack i answers pages locals
  if locals.stackptr i ≠ 0 then .error .reinitStack else return (pages, locals.setStackptr i stack)

def freeStack (i : Nat) (pages : Pages) (locals : ThreadLocals) : Pages :=
  if locals.threadStacks i = 0 then pages else pages.set (locals.threadStacks i) none

/-- A program: the compartments of `INIT_RUNTIME(n)` and those that `ia2_main` registers. -/
structure Config where
  n : Nat
  registered : Nat → Bool
  lt : n < IA2_MAX_COMPARTMENTS

variable (cfg : Config)

/-- The compartments in the order in which a thread allocates their stacks: `ia2_start` for the main
thread, `init_stacks_and_setup_tls` for the others. -/
def Config.order (isMain : Bool) : List Nat :=
  if isMain then 0 :: (List.range' 1 (IA2_MAX_COMPARTMENTS - 1)).filter cfg.registered
    else (List.range' 1 cfg.n).reverse ++ [0]

def Config.setUp (isMain : Bool) (i : Nat) :
    Answers → Pages → ThreadLocals → Except Failure (Pages × ThreadLocals) :=
  if i = 0 then allocateStack0 else if isMain then setupCompartmentStack cfg.n i
    else allocateCompartmentStackAndSetupTls i

/-! ### Threads -/

inductive Phase where
  | starting (isMain : Bool) (todo : List Nat)
  | running
  | ending (todo : List Nat)
deriving DecidableEq, Repr

structure Thread where
  locals : ThreadLocals
  phase : Phase

structure Process where
  pages : Pages
  threads : Nat → Option Thread

def Process.set (p : Process) (pages : Pages) (tid : Nat) (th : Option Thread) : Process :=
  ⟨pages, Function.update p.threads tid th⟩

@[ext] structure Stack where
  tid : Nat
  compartment : Nat
  base : Nat
deriving DecidableEq, Repr

def Thread.Has (th : Thread) (i base : Nat) : Prop :=
  base ≠ 0 ∧ th.locals.threadStacks i = base ∧ ∀ todo, th.phase = .ending todo → i ∈ todo

def Process.held (p : Process) :
    Set Stack := {s | ∃ th, p.threads s.tid = some th ∧ th.Has s.compartment s.base}

inductive Label where
  | create (tid : Nat)
  | allocate (tid i base : Nat)
  | enter (tid : Nat)
  | work
  | exit (tid : Nat)
  | free (tid i : Nat)
  | gone (tid : Nat)

/-- The steps of the threads. The program changes stack pointers of threads that run, and mappings
other than the stacks. -/
inductive Step : Process → Label → Process → Prop
  | create {p : Process} {tid : Nat} (hnew : p.threads tid = none) :
    Step p (.create tid) (p.set p.pages tid (some ⟨.zeroed, .starting false (cfg.order false)⟩))
  | allocate {p : Process} {tid i base : Nat} {isMain : Bool} {todo : List Nat}
    {locals locals' : ThreadLocals} {pages : Pages}
    (hthread : p.threads tid = some ⟨locals, .starting isMain (i :: todo)⟩)
      (hfree : p.pages.Free base)
    (hsetUp : cfg.setUp isMain i ⟨some base, true, true⟩ p.pages locals = .ok (pages, locals')) :
    Step p (.allocate tid i base) (p.set pages tid (some ⟨locals', .starting isMain todo⟩))
  | enter {p : Process} {tid : Nat} {isMain : Bool} {locals : ThreadLocals}
    (hthread : p.threads tid = some ⟨locals, .starting isMain []⟩) :
    Step p (.enter tid) (p.set p.pages tid (some ⟨locals, .running⟩))
  | work {p p' : Process} (hpages : ∀ s ∈ p.held, ∀ page ∈ stackPages s.base,
    p'.pages page = p.pages page)
    (hthreads : ∀ tid, p'.threads tid = p.threads tid ∨ ∃ locals stackptr,
      p.threads tid = some ⟨locals, .running⟩ ∧
      p'.threads tid = some ⟨{ locals with stackptr }, .running⟩) :
    Step p .work p'
  | exit {p : Process} {tid : Nat} {locals : ThreadLocals}
    (hthread : p.threads tid = some ⟨locals, .running⟩) :
    Step p (.exit tid)
    (p.set p.pages tid (some ⟨locals, .ending (List.range IA2_MAX_COMPARTMENTS)⟩))
  | free {p : Process} {tid i : Nat} {todo : List Nat} {locals : ThreadLocals}
    (hthread : p.threads tid = some ⟨locals, .ending (i :: todo)⟩) :
    Step p (.free tid i) (p.set (freeStack i p.pages locals) tid (some ⟨locals, .ending todo⟩))
  | gone {p : Process} {tid : Nat} {locals : ThreadLocals}
    (hthread : p.threads tid = some ⟨locals, .ending []⟩) :
    Step p (.gone tid) (p.set p.pages tid none)

/-- The process when `ia2_start` begins: the main thread alone, whatever is mapped. -/
def Config.start (pages : Pages) (tid : Nat) : Process :=
  ⟨pages, Function.update (fun _ => none) tid (some ⟨.zeroed, .starting true (cfg.order true)⟩)⟩

/-! ### Single calls -/

section Calls

variable {cfg} {pages : Pages} {locals : ThreadLocals} {base i n page : Nat} {isMain : Bool}
  {key : Option Nat}

theorem Pages.set_of_mem (h : page ∈ stackPages base) : pages.set base key page = key := if_pos h

theorem Pages.set_of_notMem (h : page ∉ stackPages base) :
    pages.set base key page = pages page := if_neg h

theorem pkruOf_inj :
    ∀ i < IA2_MAX_COMPARTMENTS, ∀ j < IA2_MAX_COMPARTMENTS, pkruOf i = pkruOf j → i = j := by decide

theorem stackptrForCompartment_eq (hn : n < IA2_MAX_COMPARTMENTS) (hi : i < IA2_MAX_COMPARTMENTS) :
    stackptrForCompartment n i = if i ≤ n then some i else none := by
  have hmatch : ∀ j ∈ (List.range (n + 1)).reverse, (pkruOf i == pkruOf j) = true → j = i := by
    intro j hj heq
    rw [List.mem_reverse, List.mem_range] at hj
    exact (pkruOf_inj i hi j (by omega) (beq_iff_eq.mp heq)).symm
  cases hfound : stackptrForCompartment n i with
  | none =>
    have hall := List.find?_eq_none.mp hfound i
    have hgt : ¬ i ≤ n := fun hle => hall (by simp; omega) (beq_self_eq_true _)
    rw [if_neg hgt]
  | some j =>
    have hmem := List.mem_of_find?_eq_some hfound
    have htag : (pkruOf i == pkruOf j) = true :=
      List.find?_some (p := fun j => pkruOf i == pkruOf j) hfound
    have heq := hmatch j hmem htag
    rw [heq, List.mem_reverse, List.mem_range] at hmem
    rw [heq, if_pos (by omega)]

theorem allocateStack_eq (i base : Nat) (pages : Pages) (locals : ThreadLocals) :
    allocateStack i ⟨some base, true, true⟩ pages locals = if locals.threadStacks i ≠ 0
    then .error .stackNotNull else
      .ok (base + STACK_SIZE - 8, pages.set base (some i),
          { locals with threadStacks := Function.update locals.threadStacks i base }) := by
  simp [allocateStack]

def ThreadLocals.withStack (locals : ThreadLocals) (i base : Nat) : ThreadLocals :=
  ⟨Function.update locals.threadStacks i base,
    Function.update locals.stackptr i (base + STACK_SIZE - 8)⟩

@[simp] theorem ThreadLocals.threadStacks_withStack_self :
    (locals.withStack i base).threadStacks i = base := Function.update_self ..

@[simp] theorem ThreadLocals.stackptr_withStack_self :
    (locals.withStack i base).stackptr i = base + STACK_SIZE - 8 := Function.update_self ..

variable {j : Nat}

theorem ThreadLocals.threadStacks_withStack_of_ne (h : j ≠ i) :
    (locals.withStack i base).threadStacks j = locals.threadStacks j :=
  Function.update_of_ne h ..

theorem ThreadLocals.stackptr_withStack_of_ne (h : j ≠ i) :
    (locals.withStack i base).stackptr j = locals.stackptr j :=
  Function.update_of_ne h ..

/-- What the runtime itself asks before it stores a stack pointer. -/
def Config.Accepts (cfg : Config) (isMain : Bool) (i : Nat) (locals : ThreadLocals) : Prop :=
  if isMain then i ≤ cfg.n else i = 0 ∨ locals.stackptr i = 0

theorem Config.setUp_eq_ok_iff (hi : i < IA2_MAX_COMPARTMENTS) {r : Pages × ThreadLocals} :
    cfg.setUp isMain i ⟨some base, true, true⟩ pages locals = .ok r ↔
      locals.threadStacks i = 0 ∧ cfg.Accepts isMain i locals ∧
        (pages.set base (some i), locals.withStack i base) = r := by
  by_cases hnull : locals.threadStacks i = 0
  · by_cases hzero : i = 0
    · subst hzero
      simp [setUp, Accepts, allocateStack0, allocateStack_eq, hnull, ThreadLocals.setStackptr,
        ThreadLocals.withStack, bind, Except.bind, pure,
        Except.pure]
    · cases isMain with
      | true =>
        by_cases hle : i ≤ cfg.n <;>
          simp [setUp, Accepts, hzero, setupCompartmentStack, allocateStack_eq, hnull,
            stackptrForCompartment_eq cfg.lt hi, hle,
            ThreadLocals.setStackptr, ThreadLocals.withStack, bind, Except.bind, pure, Except.pure]
      | false =>
        by_cases hptr : locals.stackptr i = 0 <;>
          simp [setUp, Accepts, hzero, allocateCompartmentStackAndSetupTls, allocateStack_eq, hnull,
            hptr, ThreadLocals.setStackptr,
            ThreadLocals.withStack, bind, Except.bind, pure, Except.pure]
  · by_cases hzero : i = 0 <;> cases isMain <;>
      simp_all [setUp, allocateStack0, setupCompartmentStack, allocateCompartmentStackAndSetupTls,
        allocateStack_eq, bind, Except.bind]

theorem Config.lt_of_mem_order (h : i ∈ cfg.order isMain) : i < IA2_MAX_COMPARTMENTS := by
  have hn := cfg.lt
  cases isMain <;> simp [order, IA2_MAX_COMPARTMENTS] at h hn ⊢ <;> omega

theorem Config.nodup_order : (cfg.order isMain).Nodup := by
  cases isMain with
  | true =>
    apply List.nodup_cons.mpr
    exact ⟨by simp, List.Nodup.filter _ (List.nodup_range' ..)⟩
  | false =>
    apply List.Nodup.append (List.nodup_reverse.mpr (List.nodup_range' ..)) (List.nodup_singleton 0)
    simp

end Calls

/-! ### A thread -/

structure Starting (isMain : Bool) (todo : List Nat) (locals : ThreadLocals) : Prop where
  suffix : todo <:+ cfg.order isMain
  null : ∀ i, i ∈ todo ∨ i ∉ cfg.order isMain → locals.threadStacks i = 0 ∧ locals.stackptr i = 0
  done : ∀ i ∈ cfg.order isMain, i ∉ todo → locals.threadStacks i ≠ 0 ∧
    locals.stackptr i = locals.threadStacks i + STACK_SIZE - 8

structure Thread.Ok (th : Thread) : Prop where
  aligned : ∀ i, th.locals.threadStacks i % PAGE_SIZE = 0
  lt : ∀ i, th.locals.threadStacks i ≠ 0 → i < IA2_MAX_COMPARTMENTS
  starting : ∀ isMain todo, th.phase = .starting isMain todo → Starting cfg isMain todo th.locals
  ending : ∀ todo, th.phase = .ending todo → todo.Nodup

variable {cfg} {locals : ThreadLocals} {isMain : Bool} {todo : List Nat} {i base tid : Nat}
  {p p' : Process} {a : Label} {th : Thread}

theorem Starting.lt (h : Starting cfg isMain (i :: todo) locals) : i < IA2_MAX_COMPARTMENTS :=
  cfg.lt_of_mem_order (h.suffix.mem List.mem_cons_self)

variable {pages : Pages} {s : Stack} {x : Option Thread} {P : Thread → Prop}

theorem Starting.setUp_eq {pages' : Pages} {locals' : ThreadLocals}
    (h : Starting cfg isMain (i :: todo) locals)
    (hsetUp : cfg.setUp isMain i ⟨some base, true, true⟩ pages locals = .ok (pages', locals')) :
    pages.set base (some i) = pages' ∧ locals.withStack i base = locals' :=
  Prod.mk.inj ((cfg.setUp_eq_ok_iff h.lt).mp hsetUp).2.2

theorem starting_zeroed (cfg : Config) (isMain : Bool) :
    Starting cfg isMain (cfg.order isMain) .zeroed :=
  ⟨List.suffix_rfl, fun _ _ => ⟨rfl, rfl⟩, fun _ hi hout => absurd hi hout⟩

theorem Starting.step (h : Starting cfg isMain (i :: todo) locals) (hbase : base ≠ 0) :
    Starting cfg isMain todo (locals.withStack i base) := by
  have hnotMem : i ∉ todo := (List.nodup_cons.mp (h.suffix.sublist.nodup cfg.nodup_order)).1
  apply Starting.mk
  · exact (List.suffix_cons i todo).trans h.suffix
  · intro j hj
    have hne : j ≠ i := by
      rintro rfl
      exact hj.elim hnotMem fun hout => hout (h.suffix.mem List.mem_cons_self)
    rw [ThreadLocals.threadStacks_withStack_of_ne hne, ThreadLocals.stackptr_withStack_of_ne hne]
    exact h.null j (hj.imp_left (List.mem_cons_of_mem i))
  · intro j hj hout
    by_cases hne : j = i
    · subst hne
      rw [ThreadLocals.threadStacks_withStack_self, ThreadLocals.stackptr_withStack_self]
      exact ⟨hbase, rfl⟩
    · rw [ThreadLocals.threadStacks_withStack_of_ne hne, ThreadLocals.stackptr_withStack_of_ne hne]
      exact h.done j hj (List.not_mem_cons_of_ne_of_not_mem hne hout)

theorem Thread.ok_zeroed (cfg : Config) (isMain : Bool) :
    Thread.Ok cfg ⟨.zeroed, .starting isMain (cfg.order isMain)⟩ := by
  apply Thread.Ok.mk
  · exact fun _ => rfl
  · exact fun _ hne => absurd rfl hne
  · intro isMain' todo hphase
    cases hphase
    exact starting_zeroed cfg _
  · intro todo hphase
    cases hphase

theorem Thread.Ok.allocate (h : Thread.Ok cfg ⟨locals, .starting isMain (i :: todo)⟩)
    (hbase : base ≠ 0) (haligned : base % PAGE_SIZE = 0) :
    Thread.Ok cfg ⟨locals.withStack i base, .starting isMain todo⟩ := by
  have hstarting := h.starting isMain _ rfl
  apply Thread.Ok.mk
  · intro j
    by_cases hne : j = i
    · subst hne
      simpa using haligned
    · simpa [ThreadLocals.threadStacks_withStack_of_ne hne] using h.aligned j
  · intro j hj
    by_cases hne : j = i
    · exact hne ▸ hstarting.lt
    · exact h.lt j (by simpa [ThreadLocals.threadStacks_withStack_of_ne hne] using hj)
  · intro isMain' todo' hphase
    cases hphase
    exact hstarting.step hbase
  · intro todo' hphase
    cases hphase

theorem Thread.Ok.later (h : th.Ok cfg) {phase : Phase}
    (hstacks : locals.threadStacks = th.locals.threadStacks)
    (hphase : ∀ isMain todo, phase ≠ .starting isMain todo)
    (hending : ∀ todo, phase = .ending todo → todo.Nodup) :
    Thread.Ok cfg ⟨locals, phase⟩ := by
  apply Thread.Ok.mk
  · exact fun i => hstacks ▸ h.aligned i
  · exact fun i hi => h.lt i (hstacks ▸ hi)
  · exact fun isMain todo heq => absurd heq (hphase isMain todo)
  · exact hending

/-! ### What a step does to the stacks that are held -/

def Label.effect : Label → Set Stack → Set Stack
  | .allocate tid i base, held => insert ⟨tid, i, base⟩ held
  | .free tid i, held => {s ∈ held | ¬ (s.tid = tid ∧ s.compartment = i)}
  | _, held => held

@[simp] theorem threads_set_self (p : Process) (pages : Pages) (tid : Nat) (x : Option Thread) :
    (p.set pages tid x).threads tid = x :=
  Function.update_self ..

theorem mem_held_set :
    s ∈ (p.set pages tid x).held ↔ if s.tid = tid then ∃ th,
      x = some th ∧ th.Has s.compartment s.base else s ∈ p.held := by
  by_cases htid : s.tid = tid <;> simp [Process.held, Process.set, htid]

theorem mem_held_of_eq (hthread : p.threads tid = some th) (htid : s.tid = tid) :
    s ∈ p.held ↔ th.Has s.compartment s.base := by
  simp [Process.held, htid, hthread]

theorem held_set_same {th' : Thread} (hthread : p.threads tid = some th)
    (hsame : ∀ i base, th'.Has i base ↔ th.Has i base) :
    (p.set pages tid (some th')).held = p.held := by
  ext s
  rw [mem_held_set]
  split_ifs with htid
  · rw [mem_held_of_eq hthread htid]
    simp [hsame]
  · exact Iff.rfl

theorem held_set_empty (hbefore : ∀ s ∈ p.held, s.tid ≠ tid)
    (hafter : ∀ th, x = some th → ∀ i base, ¬ th.Has i base) :
    (p.set pages tid x).held = p.held := by
  ext s
  rw [mem_held_set]
  split_ifs with htid
  · apply iff_of_false
    · intro ⟨th, hx, hhas⟩
      exact hafter th hx _ _ hhas
    · exact fun hs => hbefore s hs htid
  · exact Iff.rfl

theorem Thread.has_withStack (h : Starting cfg isMain (i :: todo) locals) (hbase : base ≠ 0)
    (j base' : Nat) :
    Thread.Has ⟨locals.withStack i base, .starting isMain todo⟩ j base' ↔
      j = i ∧ base' = base ∨ Thread.Has ⟨locals, .starting isMain (i :: todo)⟩ j base' := by
  have hnull := (h.null i (.inl List.mem_cons_self)).1
  by_cases hj : j = i
  · subst hj
    simp only [Has, ThreadLocals.threadStacks_withStack_self, hnull, reduceCtorEq]
    grind
  · simp [Has, ThreadLocals.threadStacks_withStack_of_ne hj, hj]

theorem Thread.has_exiting (h : Thread.Ok cfg ⟨locals, .running⟩) (i base : Nat) :
    Thread.Has ⟨locals, .ending (List.range IA2_MAX_COMPARTMENTS)⟩ i base ↔
      Thread.Has ⟨locals, .running⟩ i base := by
  have hlt := h.lt i
  simp only [Has, Phase.ending.injEq, forall_eq', List.mem_range, reduceCtorEq]
  grind

theorem Thread.has_freed (hnodup : (i :: todo).Nodup) (j base : Nat) :
    Thread.Has ⟨locals, .ending todo⟩ j base ↔
      Thread.Has ⟨locals, .ending (i :: todo)⟩ j base ∧ j ≠ i := by
  have hnotMem := (List.nodup_cons.mp hnodup).1
  simp only [Has, Phase.ending.injEq, forall_eq', List.mem_cons]
  grind

theorem tid_ne_of_held (hthread : p.threads tid = some ⟨locals, .ending []⟩) (hs : s ∈ p.held) :
    s.tid ≠ tid := by
  intro htid
  have hhas := (mem_held_of_eq hthread htid).mp hs
  exact absurd (hhas.2.2 [] rfl) List.not_mem_nil

theorem held_step (hok : ∀ tid th, p.threads tid = some th → th.Ok cfg) (h : Step cfg p a p') :
    p'.held = a.effect p.held := by
  cases h with
  | create hnew =>
    apply held_set_empty
    · intro s ⟨th, hth, _⟩ htid
      rw [htid, hnew] at hth
      cases hth
    · intro th hth i base hhas
      cases hth
      exact hhas.1 hhas.2.1.symm
  | @allocate tid i base isMain todo locals locals' pages hthread hfree hsetUp =>
    have hstarting := (hok _ _ hthread).starting _ _ rfl
    obtain ⟨rfl, rfl⟩ := hstarting.setUp_eq hsetUp
    ext s
    rw [mem_held_set]
    simp only [Label.effect, mem_insert_iff, Stack.ext_iff]
    split_ifs with htid
    · simp [mem_held_of_eq hthread htid, Thread.has_withStack hstarting hfree.positive, htid]
    · simp [htid]
  | enter hthread => exact held_set_same hthread fun i base => by simp [Thread.Has]
  | work hpages hthreads =>
    ext s
    obtain hsame | ⟨locals, stackptr, hbefore, hafter⟩ := hthreads s.tid
    · simp only [Label.effect, Process.held, mem_ofPred_eq, hsame]
    · simp only [Label.effect, Process.held, mem_ofPred_eq, hbefore, hafter, Option.some.injEq,
        exists_eq_left', Thread.Has]
  | exit hthread => exact held_set_same hthread (Thread.has_exiting (hok _ _ hthread))
  | @free tid i todo locals hthread =>
    have hnodup := (hok _ _ hthread).ending _ rfl
    ext s
    rw [mem_held_set]
    simp only [Label.effect, mem_ofPred_eq]
    split_ifs with htid
    · simp [mem_held_of_eq hthread htid, Thread.has_freed hnodup, htid]
    · simp [htid]
  | gone hthread =>
    apply held_set_empty
    · exact fun s => tid_ne_of_held hthread
    · intro th hth
      cases hth

/-! ### Runs -/

structure Inv (cfg : Config) (p : Process) : Prop where
  threads : ∀ tid th, p.threads tid = some th → th.Ok cfg
  leases : Leases.Sound (fun s : Stack => stackPages s.base) Stack.compartment p.pages p.held

theorem inv_start (cfg : Config) (pages : Pages) (tid : Nat) : Inv cfg (cfg.start pages tid) := by
  have hthread : ∀ tid' th, (cfg.start pages tid).threads tid' = some th →
      th = ⟨.zeroed, .starting true (cfg.order true)⟩ := by
    intro tid' th hth
    by_cases htid : tid' = tid <;> simp_all [Config.start]
  apply Inv.mk
  · intro tid' th hth
    rw [hthread tid' th hth]
    exact Thread.ok_zeroed cfg true
  · have hheld : (cfg.start pages tid).held = ∅ := by
      apply eq_empty_of_forall_notMem
      intro s ⟨th, hth, hbase, hstack, _⟩
      rw [hthread _ th hth] at hstack
      exact hbase hstack.symm
    rw [hheld]
    exact Leases.sound_empty

theorem forall_threads_set (h : ∀ tid th, p.threads tid = some th → P th)
    (hx : ∀ th, x = some th → P th) :
    ∀ tid' th, (p.set pages tid x).threads tid' = some th → P th :=
  (Function.forall_update_iff p.threads (p := fun _ y => ∀ th, y = some th → P th)).mpr
    ⟨hx, fun tid' _ => h tid'⟩

theorem forall_threads_set_some (h : ∀ tid th, p.threads tid = some th → P th) (hth : P th) :
    ∀ tid' th', (p.set pages tid (some th)).threads tid' = some th' → P th' :=
  forall_threads_set h fun _ heq => Option.some.inj heq ▸ hth

theorem Inv.threads_step (h : Inv cfg p) (hstep : Step cfg p a p') :
    ∀ tid th, p'.threads tid = some th → th.Ok cfg := by
  cases hstep with
  | create hnew => exact forall_threads_set_some h.threads (Thread.ok_zeroed cfg false)
  | allocate hthread hfree hsetUp =>
    have hok := h.threads _ _ hthread
    obtain ⟨-, rfl⟩ := (hok.starting _ _ rfl).setUp_eq hsetUp
    exact forall_threads_set_some h.threads (hok.allocate hfree.positive hfree.aligned)
  | enter hthread =>
    exact forall_threads_set_some h.threads ((h.threads _ _ hthread).later rfl (by simp) (by simp))
  | work hpages hthreads =>
    intro tid th hth
    obtain hsame | ⟨locals, stackptr, hbefore, hafter⟩ := hthreads tid
    · exact h.threads tid th (hsame ▸ hth)
    · rw [hafter] at hth
      cases hth
      exact (h.threads tid _ hbefore).later rfl (by simp) (by simp)
  | exit hthread =>
    exact forall_threads_set_some h.threads
      ((h.threads _ _ hthread).later rfl (by simp) (by simp [List.nodup_range]))
  | free hthread =>
    have hok := h.threads _ _ hthread
    have hnodup := (List.nodup_cons.mp (hok.ending _ rfl)).2
    exact forall_threads_set_some h.threads (hok.later rfl (by simp) fun _ heq =>
      Phase.ending.inj heq ▸ hnodup)
  | gone hthread =>
    apply forall_threads_set h.threads
    intro th heq
    cases heq

theorem Inv.leases_step (h : Inv cfg p) (hstep : Step cfg p a p') :
    Leases.Sound (fun s : Stack => stackPages s.base) Stack.compartment p'.pages p'.held := by
  have hheld := held_step h.threads hstep
  cases hstep with
  | @allocate tid i base isMain todo locals locals' pages hthread hfree hsetUp =>
    obtain ⟨rfl, -⟩ := ((h.threads _ _ hthread).starting _ _ rfl).setUp_eq hsetUp
    rw [hheld]
    exact h.leases.grant (l := ⟨tid, i, base⟩) hfree.unmapped (fun _ => Pages.set_of_mem)
      (fun _ => Pages.set_of_notMem)
  | @free tid i todo locals hthread =>
    have hsub : (Label.free tid i).effect p.held ⊆ p.held := fun s hs => hs.1
    rw [hheld]
    by_cases hnull : locals.threadStacks i = 0
    · apply h.leases.keep hsub
      intro s _ page _
      simp [Process.set, freeStack, hnull]
    · have hmem : ⟨tid, i, locals.threadStacks i⟩ ∈ p.held :=
        (mem_held_of_eq hthread rfl).mpr ⟨hnull, rfl, fun todo htodo => by
          cases htodo; exact List.mem_cons_self⟩
      apply h.leases.release hmem hsub
      · exact fun hs => hs.2 ⟨rfl, rfl⟩
      · intro page hpage
        simp only [Process.set, freeStack, if_neg hnull]
        exact Pages.set_of_notMem hpage
  | work hpages hthreads =>
    rw [hheld]
    exact h.leases.keep subset_rfl hpages
  | create hnew => exact h.leases.keep hheld.subset fun _ _ _ _ => rfl
  | enter hthread => exact h.leases.keep hheld.subset fun _ _ _ _ => rfl
  | exit hthread => exact h.leases.keep hheld.subset fun _ _ _ _ => rfl
  | gone hthread => exact h.leases.keep hheld.subset fun _ _ _ _ => rfl

theorem inv_run {labels : List Label} (hrun : Run (Step cfg) (cfg.start pages tid) labels p) :
    Inv cfg p :=
  hrun.preserves (fun _ _ _ h hstep => ⟨h.threads_step hstep, h.leases_step hstep⟩)
    (inv_start cfg pages tid)

theorem step_allocate (hok : Inv cfg p)
    (hthread : p.threads tid = some ⟨locals, .starting isMain (i :: todo)⟩)
    (hfree : p.pages.Free base) (haccepts : cfg.Accepts isMain i locals) :
    Step cfg p (.allocate tid i base)
      (p.set (p.pages.set base (some i)) tid
        (some ⟨locals.withStack i base, .starting isMain todo⟩)) := by
  have hstarting := (hok.threads _ _ hthread).starting _ _ rfl
  have hnull := (hstarting.null i (.inl List.mem_cons_self)).1
  exact .allocate hthread hfree ((cfg.setUp_eq_ok_iff hstarting.lt).mpr ⟨hnull, haccepts, rfl⟩)

theorem run_threadStacksDestructor (cfg : Config)
    (hthread : p.threads tid = some ⟨locals, .ending todo⟩) :
    ∃ p', Run (Step cfg) p (todo.map (.free tid)) p' ∧
      p'.threads tid = some ⟨locals, .ending []⟩ := by
  induction todo generalizing p with
  | nil => exact ⟨p, .nil p, hthread⟩
  | cons i todo ih =>
    have hstep : Step cfg p (.free tid i)
      (p.set (freeStack i p.pages locals) tid (some ⟨locals, .ending todo⟩)) := .free hthread
    obtain ⟨p', hrun, hend⟩ := ih (threads_set_self p _ tid _)
    exact ⟨p', .cons hstep hrun, hend⟩

/-- However threads start and end, no two stacks of the process share a page, and every page of a
stack carries the key of its compartment. -/
theorem live_stacks_apart {pages : Pages} {labels : List Label}
    (hrun : Run (Step cfg) (cfg.start pages tid) labels p) :
    (∀ s ∈ p.held, s.compartment < IA2_MAX_COMPARTMENTS ∧ s.base % PAGE_SIZE = 0 ∧
      ∀ page ∈ stackPages s.base, p.pages page = some s.compartment) ∧
    p.held.PairwiseDisjoint fun s => stackPages s.base := by
  have hinv := inv_run hrun
  apply And.intro
  · intro s hs
    obtain ⟨th, hth, hbase, hstack, _⟩ := hs
    have hok := hinv.threads _ th hth
    have haligned := hok.aligned s.compartment
    rw [hstack] at haligned
    exact ⟨hok.lt _ (hstack ▸ hbase), haligned, hinv.leases.tagged s ⟨th, hth, hbase, hstack, ‹_›⟩⟩
  · exact hinv.leases.apart

/-- A program with one protected compartment. -/
def oneCompartment : Config := ⟨1, (· == 1), by decide⟩

def mainLocals : ThreadLocals := (ThreadLocals.zeroed.withStack 0 0x400000).withStack 1 0x800000

theorem exists_started :
    ∃ p, Run (Step oneCompartment) (oneCompartment.start (fun _ => none) 0)
    [.allocate 0 0 0x400000, .allocate 0 1 0x800000] p ∧
    p.threads 0 = some ⟨mainLocals, .starting true []⟩ := by
  have hfirst : Step oneCompartment (oneCompartment.start (fun _ => none) 0)
      (.allocate 0 0 0x400000) _ :=
    step_allocate (inv_start ..) rfl ⟨rfl, by decide, fun _ _ => rfl⟩ (Nat.zero_le _)
  have hinv := inv_run (.cons hfirst (.nil _))
  have hunmapped : ∀ page ∈ stackPages 0x800000,
      Pages.set (fun _ => none) 0x400000 (some 0) page = none := by
    intro page hpage
    apply Pages.set_of_notMem
    simp only [stackPages, PAGE_SIZE, STACK_SIZE, mem_Ico] at hpage ⊢
    omega
  have hsecond : Step oneCompartment _ (.allocate 0 1 0x800000) _ :=
    step_allocate hinv rfl ⟨rfl, by decide, hunmapped⟩ (Nat.le_refl 1)
  exact ⟨_, .cons hfirst (.cons hsecond (.nil _)), rfl⟩

theorem held_of_mainLocals (hthread : p.threads 0 = some ⟨mainLocals, .starting true []⟩) :
    ⟨0, 1, 0x800000⟩ ∈ p.held :=
  (mem_held_of_eq hthread rfl).mpr ⟨by decide, rfl, fun todo htodo => by cases htodo⟩

theorem live_stacks_apart_started :
    ∃ p : Process, ⟨0, 1, 0x800000⟩ ∈ p.held ∧
    (∀ page ∈ stackPages 0x800000, p.pages page = some 1) ∧
    p.held.PairwiseDisjoint fun s => stackPages s.base := by
  obtain ⟨p, hrun, hthread⟩ := exists_started
  have hheld := held_of_mainLocals hthread
  obtain ⟨hstacks, hapart⟩ := live_stacks_apart hrun
  exact ⟨p, hheld, (hstacks _ hheld).2.2, hapart⟩

/-- The runtime never refuses a stack to a thread that starts (no assertion fails and no stack
pointer is found to be set), and a thread that has all its stacks has each stack pointer at the top
of the stack, 8 bytes off a multiple of 16. -/
theorem thread_start_succeeds {pages : Pages} {labels : List Label}
    (hrun : Run (Step cfg) (cfg.start pages tid) labels p)
    (hregistered : ∀ i < IA2_MAX_COMPARTMENTS, cfg.registered i = true → i ≤ cfg.n) {tid' : Nat}
    (hthread : p.threads tid' = some ⟨locals, .starting isMain todo⟩) :
    (∀ i rest base, todo = i :: rest → ∃ r, cfg.setUp isMain i ⟨some base, true, true⟩ p.pages
      locals = .ok r) ∧
    (todo = [] → ∀ i ∈ cfg.order isMain, ∃ base,
      ⟨tid', i, base⟩ ∈ p.held ∧ locals.stackptr i = base + STACK_SIZE - 8 ∧
      locals.stackptr i % 16 = 8) := by
  have hok := (inv_run hrun).threads _ _ hthread
  have hstarting := hok.starting _ _ rfl
  apply And.intro
  · intro i rest base htodo
    subst htodo
    obtain ⟨hnull, hptr⟩ := hstarting.null i (.inl List.mem_cons_self)
    have hmem := hstarting.suffix.mem List.mem_cons_self
    refine ⟨_, (cfg.setUp_eq_ok_iff hstarting.lt).mpr ⟨hnull, ?_, rfl⟩⟩
    cases isMain with
    | true =>
      obtain rfl | hmem := List.mem_cons.mp hmem
      · exact Nat.zero_le _
      · exact hregistered i hstarting.lt (List.mem_filter.mp hmem).2
    | false => exact .inr hptr
  · intro htodo i hi
    subst htodo
    obtain ⟨hbase, hptr⟩ := hstarting.done i hi List.not_mem_nil
    have haligned := hok.aligned i
    refine ⟨_, (mem_held_of_eq hthread rfl).mpr ⟨hbase, rfl, fun todo htodo => by cases htodo⟩,
      hptr, ?_⟩
    simp only [PAGE_SIZE, STACK_SIZE] at haligned hptr ⊢
    omega

theorem thread_start_succeeds_started :
    ∃ p : Process, p.threads 0 = some ⟨mainLocals, .starting true []⟩ ∧
    ∀ i ∈ oneCompartment.order true, ∃ base, ⟨0, i, base⟩ ∈ p.held ∧
      mainLocals.stackptr i = base + STACK_SIZE - 8 ∧
      mainLocals.stackptr i % 16 = 8 := by
  obtain ⟨p, hrun, hthread⟩ := exists_started
  exact ⟨p, hthread, (thread_start_succeeds hrun (by decide) hthread).2 rfl⟩

theorem unmapped_of_free (hs : s ∈ p.held) (hstep : Step cfg p (.free s.tid s.compartment) p') :
    ∀ page ∈ stackPages s.base, p'.pages page = none := by
  cases hstep with
  | free hthread =>
    obtain ⟨hbase, hstack, _⟩ := (mem_held_of_eq hthread rfl).mp hs
    intro page hpage
    simp only at hstack
    simp only [Process.set, freeStack, hstack, if_neg hbase]
    exact Pages.set_of_mem hpage

theorem not_gone_of_held (hs : s ∈ p.held) : ¬ Step cfg p (.gone s.tid) p' := by
  intro hstep
  cases hstep with
  | gone hthread => exact tid_ne_of_held hthread hs rfl

/-- No stack is leaked: when a thread is gone, each stack that it held was unmapped by its
destructor before. -/
theorem no_stack_leaked {pages : Pages} {labels later : List Label} {q : Process} {s : Stack}
    (hrun : Run (Step cfg) (cfg.start pages tid) labels p) (hs : s ∈ p.held)
    (hlater : Run (Step cfg) p later q) (hgone : .gone s.tid ∈ later) :
    ∃ mid rest p₁ p₂, later = mid ++ .free s.tid s.compartment :: rest ∧ Run (Step cfg) p mid p₁ ∧
      s ∈ p₁.held ∧
      Step cfg p₁ (.free s.tid s.compartment) p₂ ∧
        (∀ page ∈ stackPages s.base, p₂.pages page = none) ∧ Run (Step cfg) p₂ rest q := by
  have hinv := inv_run hrun
  clear hrun
  induction hlater with
  | nil p => cases hgone
  | @cons p p' q a later hstep hrest ih =>
    by_cases hfree : a = .free s.tid s.compartment
    · subst hfree
      exact ⟨[], later, p, p', rfl, .nil p, hs, hstep, unmapped_of_free hs hstep, hrest⟩
    · -- no other step takes the stack from the thread
      have hs' : s ∈ p'.held := by
        rw [held_step hinv.threads hstep]
        cases a with
        | allocate tid i base => exact mem_insert_of_mem _ hs
        | free tid i => exact ⟨hs, fun heq => hfree (heq.1 ▸ heq.2 ▸ rfl)⟩
        | _ => exact hs
      have hgone' : Label.gone s.tid ∈ later := by
        obtain heq | hmem := List.mem_cons.mp hgone
        · exact absurd (heq ▸ hstep) (not_gone_of_held hs)
        · exact hmem
      obtain ⟨mid, rest, p₁, p₂, heq, hmid, h⟩ :=
        ih hs' hgone' ⟨hinv.threads_step hstep, hinv.leases_step hstep⟩
      exact ⟨a :: mid, rest, p₁, p₂, heq ▸ rfl, .cons hstep hmid, h⟩

theorem no_stack_leaked_main :
    ∃ p q later, Run (Step oneCompartment) p later q ∧ ⟨0, 1, 0x800000⟩ ∈ p.held ∧
    Label.gone 0 ∈ later ∧
    Label.free 0 1 ∈ later := by
  obtain ⟨p, hrun, hthread⟩ := exists_started
  have hheld := held_of_mainLocals hthread
  have henter : Step oneCompartment p (.enter 0) (p.set p.pages 0 (some ⟨mainLocals, .running⟩)) :=
    .enter hthread
  have hexit : Step oneCompartment (p.set p.pages 0 (some ⟨mainLocals, .running⟩)) (.exit 0) _ :=
    .exit (threads_set_self ..)
  obtain ⟨q, hfrees, hend⟩ := run_threadStacksDestructor oneCompartment
    (threads_set_self (p.set p.pages 0 (some ⟨mainLocals, .running⟩)) p.pages 0
    (some ⟨mainLocals, .ending (List.range IA2_MAX_COMPARTMENTS)⟩))
  have hlater := Run.cons henter (.cons hexit (hfrees.snoc (.gone hend)))
  have hgone : Label.gone 0 ∈ Label.enter 0 :: .exit 0 ::
    ((List.range IA2_MAX_COMPARTMENTS).map (.free 0) ++ [.gone 0]) := by simp
  obtain ⟨mid, rest, _, _, heq, _⟩ := no_stack_leaked hrun hheld hlater hgone
  exact ⟨p, _, _, hlater, hheld, hgone, heq ▸ by simp⟩

end Ia2.ThreadStacks
