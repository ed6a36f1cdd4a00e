import Ia2.Tracer.Effects

/-!
# What the policy guarantees

Three properties of the policy. A compartment's memory is not taken away by a call of another
compartment, except by the two calls whose target the policy does not look at: a `mremap` to a fixed
address and a `pkey_mprotect` of memory that was not protected yet. Once recorded, ownership is
stable over every run: only the owner's own calls, or an `exec`, end it. Memory that was made
read-only after init stays so until it is given up.
-/

namespace Ia2.Tracer

open MemoryMap

variable {T : Type} [IntervalTree T Nat State]

/-- The pages whose mapping the kernel replaces, removes or re-tags if the system call succeeds. -/
def Event.Affects (event : Event) (p : Nat) : Prop :=
  match event with
  | .mmap info => hasFlag info.flags MAP_FIXED = true ∧ info.range.Meets p
  | .munmap info => info.range.Meets p
  | .mremap info =>
    info.oldRange.Meets p ∨ (hasFlag info.flags MREMAP_FIXED = true ∧ info.newRange.Meets p)
  | .pkeyMprotect info => info.range.Meets p
  | _ => False

def SparesOthers (map : MemoryMap T) (pkey : UInt8) (r : Range) : Prop :=
  r.len = 0 ∨ map.allOverlappingRegions r (fun region =>
    decide (region.state.ownerPkey = pkey) || decide (region.state.ownerPkey = 0)) = .ok true

/-- The targets that the policy leaves unchecked spare the other compartments. -/
def Event.TargetSparesOthers (map : MemoryMap T) (event : Event) : Prop :=
  match event with
  | .mremap info =>
    hasFlag info.flags MREMAP_FIXED = true → SparesOthers map info.pkey info.newRange
  | .pkeyMprotect info => SparesOthers map info.pkey info.range
  | _ => True

variable {map map' : MemoryMap T} {pkey : UInt8} {r : Range} {p : Nat}

theorem sparesOthers_iff (hwf : map.Wf) (hfits : r.Fits) (haligned : r.start % 4096 = 0) :
    SparesOthers map pkey r ↔
      ∀ p state, r.Meets p → map.page p = some state → state.ownerPkey = pkey ∨
        state.ownerPkey = 0 := by
  unfold SparesOthers
  rcases Nat.eq_zero_or_pos r.len with hzero | hlen
  · simp [hzero, Range.not_meets_of_len_zero hzero haligned]
  · obtain ⟨b, hb, hall⟩ := allOverlappingRegions_eq hwf hfits hlen fun state =>
      decide (state.ownerPkey = pkey) || decide (state.ownerPkey = 0)
    have hpos : r.len ≠ 0 := by omega
    simpa [hb, hpos] using hall

/-- What the policy lets through spares the memory of other compartments exactly when the targets
that it leaves unchecked do. -/
theorem isOpPermitted_spares_others_iff {map : MemoryMap T} (hreach : Reachable map)
    {regs : UserRegs} {pkey : UInt8} {mode : TraceMode} {event : Event} {retval : UInt64}
    (hevent : interpretSyscall regs pkey mode = some event)
    (hpermitted : map.isOpPermitted event = .ok true) (haccept : Accepts regs retval) :
    (∀ p state, event.Affects p → map.page p = some state → state.ownerPkey = pkey ∨
      state.ownerPkey = 0) ↔
      event.TargetSparesOthers map := by
  have hown : ∀ {p state}, event.Covers p → map.page p = some state → state.ownerPkey = pkey :=
    fun hp hstate =>
    owner_of_permitted hreach.wf hevent hpermitted haccept hp hstate
  unfold interpretSyscall at hevent
  unfold Accepts at haccept
  cases hcall : regs.syscall <;> simp only [hcall, Option.some.injEq] at hevent haccept
  case mmap =>
    subst hevent
    exact ⟨fun _ => trivial, fun _ p state hp hstate => .inl (hown hp hstate)⟩
  case munmap =>
    subst hevent
    exact ⟨fun _ => trivial, fun _ p state hp hstate => .inl (hown hp hstate)⟩
  case mremap =>
    obtain ⟨hlen, haligned, hfits, -, -, hat, -⟩ := haccept
    subst hevent
    simp only [Event.Affects, Event.TargetSparesOthers]
    by_cases hfixed : hasFlag regs.arg3.toUInt32 MREMAP_FIXED = true
    · obtain ⟨rfl, -⟩ := hat hfixed
      simp only [hfixed, if_true, true_and, true_implies]
      rw [sparesOthers_iff hreach.wf (r := ⟨regs.arg4.toNat, regs.arg2.toNat⟩) hfits haligned]
      refine ⟨fun h p state hp => h p state (.inr hp), fun h p state hp hstate => ?_⟩
      rcases hp with hold | hnew
      · exact .inl (hown hold hstate)
      · exact h p state hnew hstate
    · refine ⟨fun _ hfixed' => absurd hfixed' hfixed, fun _ p state hp hstate => ?_⟩
      rcases hp with hold | hnew
      · exact .inl (hown hold hstate)
      · exact absurd hnew.1 hfixed
  case pkeyMprotect =>
    subst hevent
    exact (sparesOthers_iff hreach.wf haccept.2.1 haccept.1).symm
  case other =>
    simp only [Option.ite_none_left_eq_some, Option.some.injEq] at hevent
    obtain ⟨-, rfl⟩ := hevent
    exact ⟨fun _ => trivial, fun _ _ _ hp => hp.elim⟩
  all_goals
    subst hevent
    exact ⟨fun _ => trivial, fun _ _ _ hp => hp.elim⟩

/-- A page of compartment 2 and a page of compartment 1, both mapped after init. -/
def twoOwners : MemoryMap (SortedIntervals Nat State) :=
  ⟨⟨[⟨0x7000, 0x8000, ⟨2, false, false, 3⟩⟩, ⟨0x9000, 0xA000, ⟨1, false, false, 3⟩⟩], by decide⟩,
    true⟩

theorem twoOwners_reachable : Reachable twoOwners := by
  have hinit : MapStep (MemoryMap.new : MemoryMap (SortedIntervals Nat State)) .finishInit
      ⟨⟨[], List.Pairwise.nil⟩, true⟩ := rfl
  have hfirst : MapStep (⟨⟨[], List.Pairwise.nil⟩, true⟩ : MemoryMap (SortedIntervals Nat State))
      (.syscall ⟨⟨.mmap, 0, 0x1000, 3, 0x22, 0⟩, 2, .seccomp, 0x7000, by decide⟩
        (.mmap ⟨⟨0, 0x1000⟩, 3, 0x22, 0, 2⟩))
      ⟨⟨[⟨0x7000, 0x8000, ⟨2, false, false, 3⟩⟩], by decide⟩, true⟩ :=
    ⟨by decide, rfl, by decide, by decide, rfl⟩
  have hsecond : MapStep (⟨⟨[⟨0x7000, 0x8000, ⟨2, false, false, 3⟩⟩], by decide⟩, true⟩ :
        MemoryMap (SortedIntervals Nat State))
      (.syscall ⟨⟨.mmap, 0, 0x1000, 3, 0x22, 0⟩, 1, .seccomp, 0x9000, by decide⟩
        (.mmap ⟨⟨0, 0x1000⟩, 3, 0x22, 0, 1⟩))
      twoOwners :=
    ⟨by decide, rfl, by decide, by decide, rfl⟩
  exact .step (.step (.step .new hinit) hfirst) hsecond

/-- Compartment 1 may move its page onto that of compartment 2, and may tag the page of compartment
2 with its own key. -/
theorem isOpPermitted_takes_page :
    Reachable twoOwners ∧ twoOwners.initFinished = true ∧
      (∃ state, twoOwners.page 7 = some state ∧ state.ownerPkey = 2) ∧
      (∃ event, interpretSyscall ⟨.mremap, 0x9000, 0x1000, 0x1000, 3, 0x7000⟩ 1 .seccomp =
        some event ∧
        twoOwners.isOpPermitted event = .ok true ∧
          Accepts ⟨.mremap, 0x9000, 0x1000, 0x1000, 3, 0x7000⟩ 0x7000 ∧
        event.Affects 7) ∧
      ∃ event, interpretSyscall ⟨.pkeyMprotect, 0x7000, 0x1000, 3, 1, 0⟩ 1 .seccomp = some event ∧
        twoOwners.isOpPermitted event = .ok true ∧
          Accepts ⟨.pkeyMprotect, 0x7000, 0x1000, 3, 1, 0⟩ 0 ∧
        event.Affects 7 :=
  ⟨twoOwners_reachable, rfl, ⟨_, rfl, rfl⟩, ⟨_, rfl, rfl, by decide, .inr (by decide)⟩,
    ⟨_, rfl, rfl, by decide, And.intro (by decide) (by decide)⟩⟩

theorem isOpPermitted_spares_others_own_page :
    (Event.pkeyMprotect ⟨⟨0x9000, 0x1000⟩, 3, 1, 1⟩).TargetSparesOthers twoOwners ∧
    ∀ p state, (Event.pkeyMprotect ⟨⟨0x9000, 0x1000⟩, 3, 1, 1⟩).Affects p →
      twoOwners.page p = some state →
      state.ownerPkey = 1 ∨ state.ownerPkey = 0 := by
  have hevent : interpretSyscall ⟨.pkeyMprotect, 0x9000, 0x1000, 3, 1, 0⟩ 1 .seccomp =
      some (.pkeyMprotect ⟨⟨0x9000, 0x1000⟩, 3, 1, 1⟩) := by decide
  have haccept : Accepts ⟨.pkeyMprotect, 0x9000, 0x1000, 3, 1, 0⟩ 0 := by decide
  have hspares : (Event.pkeyMprotect ⟨⟨0x9000, 0x1000⟩, 3, 1, 1⟩).TargetSparesOthers twoOwners :=
    .inr rfl
  exact ⟨hspares, (isOpPermitted_spares_others_iff twoOwners_reachable hevent rfl haccept).mpr
    hspares⟩

/-! ### Ownership is stable -/

/-- The actions that end the ownership of a page: its owner gives it up, or the process execs. -/
def Releases (pkey : UInt8) (p : Nat) (action : Action) : Prop :=
  match action with
  | .syscall call event => (call.pkey = pkey ∧ event.Covers p) ∨ event = .exec
  | .finishInit => False
  | .execStop => True

/-- A page is recorded as owned by a compartment, and as protected if `protect` says so. -/
def OwnedBy (pkey : UInt8) (protect : Bool) (p : Nat) (map : MemoryMap T) : Prop :=
  ∃ state, map.page p = some state ∧ state.ownerPkey = pkey ∧
    (protect = true → state.pkeyMprotected = true)

structure Stable (pkey : UInt8) (protect : Bool) (p : Nat) (map : MemoryMap T) : Prop where
  wf : map.Wf
  init : map.initFinished = true
  owned : OwnedBy pkey protect p map

variable {protect : Bool} {prot : UInt32}

theorem Stable.recorded (hpkey : pkey ≠ 0) {call : Call} {event : Event}
    (h : Stable pkey protect p map) (hkept : ¬ Releases pkey p (.syscall call event))
    (hstep : Recorded map call event map') :
    Stable pkey protect p map' := by
  obtain ⟨hwf, hinit, state, hstate, howner, hprot⟩ := h
  have hcovers : ¬ event.Covers p := fun hp =>
    hkept
      (.inl
      ⟨(owner_of_permitted hwf hstep.interpreted hstep.permitted hstep.accepted hp
      hstate).symm.trans howner, hp⟩)
  obtain ⟨hinit', state', hstate', hkeep⟩ := hstep.kept hwf hstate hcovers fun hexec =>
    hkept (.inr hexec)
  refine ⟨(hstep.tracks hwf).1, hinit'.trans hinit, state', hstate', ?_⟩
  cases hkeep with
  | same => exact ⟨howner, hprot⟩
  | reprotected => exact ⟨howner, hprot⟩
  | tagged =>
    refine ⟨?_, fun _ => pkeyMprotectState_pkeyMprotected _ _ _⟩
    -- the page has an owner and init is finished, so neither reason to set a new owner applies
    rw [pkeyMprotectState_ownerPkey, if_neg (by simp [hinit, howner, hpkey]), howner]

theorem Stable.step (hpkey : pkey ≠ 0) (map : MemoryMap T) (action : Action) (map' : MemoryMap T)
    (h : Stable pkey protect p map) (hkept : ¬ Releases pkey p action)
    (hstep : MapStep map action map') :
    Stable pkey protect p map' := by
  cases action with
  | syscall call event => exact h.recorded hpkey hkept hstep
  | finishInit => simp [MapStep, markInitFinished, h.init] at hstep
  | execStop => exact absurd trivial hkept

/-- From any state in which init is finished, a page that a compartment other than 0 owns stays
mapped, owned and, if it was, protected over every run in which its owner does not give it up and
the process does not exec. -/
theorem owner_stable {map map' : MemoryMap T} (hwf : map.Wf) (hinit : map.initFinished = true)
    {p : Nat} {state : State} (hstate : map.page p = some state) (hpkey : state.ownerPkey ≠ 0)
    {actions : List Action} (hrun : Run MapStep map actions map')
    (hkept : ∀ action ∈ actions, ¬ Releases state.ownerPkey p action) :
    OwnedBy state.ownerPkey state.pkeyMprotected p map' :=
  (Run.invariant_of_labels (Stable.step hpkey) hrun ⟨hwf, hinit, state, hstate, rfl, id⟩
    hkept).owned

/-- Compartment 1 unmaps its page while compartment 2 tags its own; the page of compartment 2 stays
its own. -/
theorem owner_stable_twoOwners :
    OwnedBy 2 false 7 (⟨⟨[⟨0x7000, 0x8000, ⟨2, true, false, 3⟩⟩], by decide⟩, true⟩ :
      MemoryMap (SortedIntervals Nat State)) := by
  have hunmap : MapStep twoOwners
      (.syscall ⟨⟨.munmap, 0x9000, 0x1000, 0, 0, 0⟩, 1, .seccomp, 0, by decide⟩
        (.munmap ⟨⟨0x9000, 0x1000⟩, 1⟩))
      ⟨⟨[⟨0x7000, 0x8000, ⟨2, false, false, 3⟩⟩], by decide⟩, true⟩ :=
    ⟨by decide, rfl, by decide, by decide, rfl⟩
  have htag : MapStep (⟨⟨[⟨0x7000, 0x8000, ⟨2, false, false, 3⟩⟩], by decide⟩, true⟩ :
        MemoryMap (SortedIntervals Nat State))
      (.syscall ⟨⟨.pkeyMprotect, 0x7000, 0x1000, 1, 2, 0⟩, 2, .seccomp, 0, by decide⟩
        (.pkeyMprotect ⟨⟨0x7000, 0x1000⟩, 1, 2, 2⟩))
      ⟨⟨[⟨0x7000, 0x8000, ⟨2, true, false, 3⟩⟩], by decide⟩, true⟩ :=
    ⟨by decide, rfl, by decide, by decide, rfl⟩
  have hstate : twoOwners.page 7 = some ⟨2, false, false, 3⟩ := rfl
  refine owner_stable twoOwners_reachable.wf rfl hstate (by decide)
    (.cons hunmap (.cons htag (.nil _))) ?_
  simp [Releases, Event.Covers]

/-! ### Read-only memory stays read-only -/

/-- The actions that end the life of a mapping at a page: the page is given up, or the process
execs. -/
def Unlocks (p : Nat) (action : Action) : Prop :=
  match action with
  | .syscall _ event => event.Covers p ∨ event = .exec
  | .finishInit => False
  | .execStop => True

/-- The action is an `mprotect` that asks for the protection that stands for no or several
protections. -/
def AsksIndeterminate (action : Action) : Prop :=
  match action with
  | .syscall _ (.mprotect info) => info.prot = PROT_INDETERMINATE
  | _ => False

/-- A page is recorded as protected by `mprotect`, with the given protection. -/
def Locked (prot : UInt32) (p : Nat) (map : MemoryMap T) : Prop :=
  ∃ state, map.page p = some state ∧ state.mprotected = true ∧ state.prot = prot

structure ReadOnly (prot : UInt32) (p : Nat) (map : MemoryMap T) : Prop where
  wf : map.Wf
  init : map.initFinished = true
  locked : Locked prot p map

theorem prot_of_mprotect_permitted (hwf : map.Wf) (hinit : map.initFinished = true)
    {info : MprotectInfo} (hfits : info.range.Fits) (hlen : 0 < info.range.len)
    (hpermitted : map.isOpPermitted (.mprotect info) = .ok true)
    (hasked : info.prot ≠ PROT_INDETERMINATE) {state : State} (hp : info.range.Meets p)
    (hstate : map.page p = some state) (hmprotected : state.mprotected = true)
    (hreadOnly : hasFlag state.prot PROT_WRITE = false) : info.prot = state.prot := by
  obtain ⟨b, hb, hall⟩ := allOverlappingRegions_eq hwf hfits hlen fun state =>
    decide (false = state.mprotected)
  have hb : map.allOverlappingRegionsMprotected info.range false = .ok b := hb
  have hprotected : b = false := by
    cases b with
    | false => rfl
    | true => simpa [hmprotected] using hall.mp rfl p state hp hstate
  simp only [isOpPermitted, hb, hprotected, hinit, bind, Except.bind, Bool.false_eq_true,
    Bool.not_true, if_false]
    at hpermitted
  cases hget : map.regionGetProt info.range with
  | error abort => simp [hget] at hpermitted
  | ok prot =>
    have hcommon : prot ≠ PROT_INDETERMINATE → state.prot = prot := fun hdet =>
      (regionGetProt_eq hwf hfits hlen hget hdet).2 p state hp hstate
    simp only [hget] at hpermitted
    by_cases hwritable : prot ≠ PROT_INDETERMINATE ∧ hasFlag prot PROT_WRITE = true
    · rw [hcommon hwritable.1, hwritable.2] at hreadOnly
      exact absurd hreadOnly (by simp)
    · rw [if_neg hwritable] at hpermitted
      have hsame : prot = info.prot := of_decide_eq_true (Except.ok.inj hpermitted)
      rw [← hsame] at hasked
      rw [hcommon hasked, hsame]

theorem ReadOnly.step (hreadOnly : hasFlag prot PROT_WRITE = false) (map : MemoryMap T)
    (action : Action) (map' : MemoryMap T) (h : ReadOnly prot p map)
    (hkept : ¬ (Unlocks p action ∨ AsksIndeterminate action)) (hstep : MapStep map action map') :
    ReadOnly prot p map' := by
  obtain ⟨hwf, hinit, state, hstate, hmprotected, hprot⟩ := h
  cases action with
  | finishInit => simp [MapStep, markInitFinished, hinit] at hstep
  | execStop => exact absurd (.inl trivial) hkept
  | syscall call event =>
    have hstep : Recorded map call event map' := hstep
    obtain ⟨hinit', state', hstate', hkeep⟩ :=
      hstep.kept hwf hstate (fun hp => hkept (.inl (.inl hp)))
      fun hexec => hkept (.inl (.inr hexec))
    refine ⟨(hstep.tracks hwf).1, hinit'.trans hinit, state', hstate', ?_⟩
    cases hkeep with
    | same => exact ⟨hmprotected, hprot⟩
    | @reprotected info hevent hfits hlen hp =>
      have hpermitted := hstep.permitted
      subst hevent
      have hsame := prot_of_mprotect_permitted hwf hinit hfits hlen hpermitted
        (fun hasked => hkept (.inr hasked)) hp
        hstate hmprotected (hprot ▸ hreadOnly)
      exact ⟨rfl, hsame.trans hprot⟩
    | tagged =>
      rw [pkeyMprotectState_prot, pkeyMprotectState_mprotected]
      exact ⟨hmprotected, hprot⟩

theorem mprotectRegion_false (h : map.mprotectRegion r prot = .ok (map', false)) :
    map' = map := by
  unfold mprotectRegion at h
  cases hholes : map.containsHoles r with
  | error abort => simp [hholes, bind, Except.bind] at h
  | ok holes =>
    cases holes with
    | true => simpa [hholes, bind, Except.bind, pure, Except.pure, eq_comm] using h
    | false =>
      simp only [hholes, bind, Except.bind, pure, Except.pure, Bool.false_eq_true, if_false] at h
      cases hsplit : map.splitOutRegion r with
      | error abort => simp [hsplit] at h
      | ok split =>
        cases hadd : split.1.addBack (mprotectState prot) split.2 with
        | error abort => simp [hsplit, hadd] at h
        | ok map₁ => simp [hsplit, hadd] at h

/-- From any state in which init is finished, a page that was made read-only by `mprotect` keeps its
protection over every run that does not give the page up, and the next `mprotect`, whatever its
range and its result, does not change it either. The kernel never lets an `mprotect` with the
indeterminate protection succeed. -/
theorem readOnly_locked {map map' : MemoryMap T} (hwf : map.Wf) (hinit : map.initFinished = true)
    {p : Nat} {state : State} (hstate : map.page p = some state)
    (hmprotected : state.mprotected = true) (hreadOnly : hasFlag state.prot PROT_WRITE = false)
    {actions : List Action} (hrun : Run MapStep map actions map')
    (hasked : ∀ action ∈ actions, ¬ AsksIndeterminate action)
    (hkept : ∀ action ∈ actions, ¬ Unlocks p action) :
    Locked state.prot p map' ∧
      ∀ (call : Call) (info : MprotectInfo) (map'' : MemoryMap T) (updated : Bool),
        interpretSyscall call.regs call.pkey call.mode = some (.mprotect info) →
          info.prot ≠ PROT_INDETERMINATE →
        map'.isOpPermitted (.mprotect info) = .ok true →
        (call.retval.toNat < 2 ^ 63 → Accepts call.regs call.retval) →
        map'.finishSyscall (.mprotect info) call.retval = .ok (map'', updated) →
          Locked state.prot p map'' := by
  have hlocked : ReadOnly state.prot p map' :=
    Run.invariant_of_labels (ReadOnly.step hreadOnly) hrun
    ⟨hwf, hinit, state, hstate, hmprotected, rfl⟩ fun action haction hbad => by
      rcases hbad with hunlocks | hindeterminate
      · exact hkept action haction hunlocks
      · exact hasked action haction hindeterminate
  refine ⟨hlocked.locked, fun call info map'' updated hevent hdet hpermitted haccept hfinish => ?_⟩
  by_cases hfailed : 2 ^ 63 ≤ call.retval.toNat
  · simp only [finishSyscall, updateEventWithResult, if_pos hfailed] at hfinish
    obtain ⟨rfl, -⟩ := Prod.mk.inj (Except.ok.inj hfinish)
    exact hlocked.locked
  · cases updated with
    | true =>
      have hrecorded : Recorded map' call (.mprotect info) map'' :=
        ⟨hevent, hpermitted, by omega, haccept (by omega), hfinish⟩
      have hquiet : ¬ (Unlocks p (.syscall call (.mprotect info)) ∨
          AsksIndeterminate (.syscall call (.mprotect info))) := by
        simp [Unlocks, AsksIndeterminate, Event.Covers, hdet]
      exact (hlocked.step hreadOnly _ (.syscall call (.mprotect info)) _ hquiet hrecorded).locked
    | false =>
      simp only [finishSyscall, updateEventWithResult, hfailed, if_false] at hfinish
      rw [mprotectRegion_false hfinish]
      exact hlocked.locked

/-- The page of compartment 2 is made read-only; it stays so when compartment 1 makes its own page
read-only. -/
theorem readOnly_locked_twoOwners :
    Locked 1 7
      (⟨⟨[⟨0x7000, 0x8000, ⟨2, false, true, 1⟩⟩, ⟨0x9000, 0xA000, ⟨1, false, true, 1⟩⟩], by decide⟩,
      true⟩ :
      MemoryMap (SortedIntervals Nat State)) := by
  have hfirst : MapStep twoOwners
      (.syscall ⟨⟨.mprotect, 0x7000, 0x1000, 1, 0, 0⟩, 2, .seccomp, 0, by decide⟩
        (.mprotect ⟨⟨0x7000, 0x1000⟩, 1, 2⟩))
      ⟨⟨[⟨0x7000, 0x8000, ⟨2, false, true, 1⟩⟩, ⟨0x9000, 0xA000, ⟨1, false, false, 3⟩⟩], by decide⟩,
          true⟩ :=
    ⟨by decide, rfl, by decide, by decide, rfl⟩
  have hsecond :
    MapStep (⟨⟨[⟨0x7000, 0x8000, ⟨2, false, true, 1⟩⟩, ⟨0x9000, 0xA000, ⟨1, false, false, 3⟩⟩],
        by decide⟩, true⟩ : MemoryMap (SortedIntervals Nat State))
      (.syscall ⟨⟨.mprotect, 0x9000, 0x1000, 1, 0, 0⟩, 1, .seccomp, 0, by decide⟩
        (.mprotect ⟨⟨0x9000, 0x1000⟩, 1, 1⟩))
      ⟨⟨[⟨0x7000, 0x8000, ⟨2, false, true, 1⟩⟩, ⟨0x9000, 0xA000, ⟨1, false, true, 1⟩⟩], by decide⟩,
          true⟩ :=
    ⟨by decide, rfl, by decide, by decide, rfl⟩
  have hwf := hfirst.wf twoOwners_reachable.wf
  have hstate :
    (⟨⟨[⟨0x7000, 0x8000, ⟨2, false, true, 1⟩⟩, ⟨0x9000, 0xA000, ⟨1, false, false, 3⟩⟩], by decide⟩,
    true⟩ :
      MemoryMap (SortedIntervals Nat State)).page 7 = some ⟨2, false, true, 1⟩ := rfl
  refine (readOnly_locked hwf rfl hstate rfl (by decide) (.cons hsecond (.nil _)) ?_ ?_).1
  · simp [AsksIndeterminate, PROT_INDETERMINATE]
  · simp [Unlocks, Event.Covers]

end Ia2.Tracer
