import Ia2.Tracer.Effects

/-!
# The tracked map against the kernel's

A process and its tracer as one system: the kernel's map changes with each call that succeeds, and
the tracer's map with it. The tracked map has the same pages as the kernel's after every call that
the tracer can follow, and `CanFollow` says which ones those are. Protections and keys agree as long
as no `pkey_mprotect` asks for something that the tracer does not record: a new protection, or the
key -1.
-/

namespace Ia2.Tracer

open MemoryMap

variable {T : Type} [IntervalTree T Nat State]

/-! ### One page under a recorded call -/

inductive PageStep (map : MemoryMap T) (k : KernelMap) (call : Call) (event : Event) (p : Nat) :
    Option State → Option Mapping → Prop where
  | kept : PageStep map k call event p (map.page p) (k p)
  | unmapped : PageStep map k call event p none none
  | fresh (owner : UInt8) (prot : UInt32) : owner < 16 →
      PageStep map k call event p (some ⟨owner, false, false, prot⟩) (some ⟨prot, 0⟩)
  | moved {q : Nat} {state : State} {m : Mapping} : map.page q = some state → k q = some m →
      PageStep map k call event p (some ⟨call.pkey, false, false, state.prot⟩) (some m)
  | reprotected (prot : UInt32) :
      PageStep map k call event p ((map.page p).map (mprotectState prot))
      ((k p).map (Mapping.setProt prot))
  | tagged {info : PkeyMprotectInfo} {state : State} {pkeyArg : UInt32} :
    event = .pkeyMprotect info →
      info.range.Meets p → map.page p = some state → (k p).isSome →
      mayPkeyMprotect map.initFinished info.newOwnerPkey ⟨info.range, state⟩ = true →
      (pkeyArg = 0xFFFFFFFF ∨ pkeyArg < 16) → info.newOwnerPkey = pkeyArg.toUInt8 →
      PageStep map k call event p
      (some (pkeyMprotectState map.initFinished info.newOwnerPkey state))
        ((k p).map (Mapping.setPkey info.prot pkeyArg))
  | execed (m : Option Mapping) : event = .exec → PageStep map k call event p none m

variable {call : Call} {k k' : KernelMap} {map map' : MemoryMap T}
variable {event : Event}

theorem Recorded.pageStep (hwf : map.Wf) (hstep : Recorded map call event map')
    (htakes : Takes k call.regs call.retval k') (p : Nat) :
    PageStep map k call event p (map'.page p) (k' p) := by
  have htracks := (hstep.tracks hwf).2
  have hevent := hstep.interpreted
  have haccept := hstep.accepted
  unfold Tracks at htracks
  unfold Takes at htakes
  unfold interpretSyscall at hevent
  unfold Accepts at haccept
  cases hcall : call.regs.syscall <;> simp only [hcall, Option.some.injEq]
    at hevent haccept htracks htakes
  case mmap =>
    rw [htracks.2.2, htakes.2]
    by_cases hp : (call.regs.mapped call.retval).Meets p
    · simp only [if_pos hp]
      refine .fresh _ _ ?_
      unfold mmapOwner
      split
      · decide
      · exact call.pkey_lt
    · simp only [if_neg hp]
      exact .kept
  case munmap =>
    rw [htracks.2, htakes]
    by_cases hp : call.regs.range.Meets p
    · simp only [if_pos hp]
      exact .unmapped
    · simp only [if_neg hp]
      exact .kept
  case mremap =>
    obtain ⟨-, -, -, prot, -, ⟨q, state, hq, hstate⟩, hprot, hpage⟩ := htracks
    obtain ⟨m, -, hmapped, -, rfl⟩ := htakes
    rw [hpage]
    by_cases hnew : (call.regs.moved call.retval).Meets p
    · simp only [if_pos hnew, ← hprot q state hq hstate]
      exact .moved hstate (hmapped q hq)
    · by_cases hold : call.regs.range.Meets p ∧ hasFlag call.regs.flags MREMAP_DONTUNMAP = false
      · simp only [if_neg hnew, if_pos hold]
        exact .unmapped
      · simp only [if_neg hnew, if_neg hold]
        exact .kept
  case mprotect =>
    rw [htracks.2.2.2, htakes.2]
    by_cases hp : call.regs.range.Meets p
    · simp only [if_pos hp]
      exact .reprotected _
    · simp only [if_neg hp]
      exact .kept
  case pkeyMprotect =>
    obtain ⟨-, hlen, hmay, hpage⟩ := htracks
    rw [hpage, htakes.2]
    by_cases hp : call.regs.range.Meets p
    · obtain ⟨state, hstate, hok⟩ := hmay p hp
      simp only [if_pos hp, hstate, Option.map_some]
      subst hevent
      refine .tagged rfl hp hstate (htakes.1 p hp) hok (haccept.2.2 hlen) ?_
      simp [UserRegs.pkeyArg]
    · simp only [if_neg hp]
      exact .kept
  case execve =>
    rw [htracks, page_clear]
    exact .execed _ hevent.symm
  case execveat =>
    rw [htracks, page_clear]
    exact .execed _ hevent.symm
  all_goals
    rw [htracks, htakes]
    exact .kept

/-! ### The set of mapped pages -/

/-- The two maps have the same set of mapped pages. -/
def SamePages (map : MemoryMap T) (k : KernelMap) : Prop := ∀ p, (map.page p).isSome = (k p).isSome

/-- The calls whose effect the tracer can record. -/
def CanFollow (map : MemoryMap T) (event : Event) : Prop :=
  match event with
  | .mremap info =>
    0 < info.oldRange.len ∧
      (∃ prot, prot ≠ PROT_INDETERMINATE ∧
        ∀ p state, info.oldRange.Meets p → map.page p = some state → state.prot = prot) ∧
      (hasFlag info.flags MREMAP_FIXED = true → ∀ p, info.newRange.Meets p → map.page p = none)
  | .mprotect info => 0 < info.range.len
  | .pkeyMprotect info =>
    0 < info.range.len ∧ ∀ p state, info.range.Meets p → map.page p = some state →
      mayPkeyMprotect map.initFinished info.newOwnerPkey ⟨info.range, state⟩ = true
  | .exec => False
  | _ => True

section SamePages

variable {map map' : MemoryMap T} {k k' : KernelMap} (hsame : SamePages map k)
include hsame

variable {p : Nat}

theorem SamePages.none_iff : map.page p = none ↔ k p = none := by
  have := hsame p
  cases hpage : map.page p <;> cases hk : k p <;> simp_all

theorem SamePages.exists_state (hmapped : (k p).isSome) :
    ∃ state, map.page p = some state := by
  rw [← hsame p] at hmapped
  exact Option.isSome_iff_exists.mp hmapped

theorem SamePages.recorded (hwf : map.Wf) (hstep : Recorded map call event map')
    (htakes : Takes k call.regs call.retval k') (hexec : event ≠ .exec) : SamePages map' k' := by
  intro p
  have hp := hsame p
  have hpage := hstep.pageStep hwf htakes p
  generalize map'.page p = state, k' p = m at hpage ⊢
  cases hpage with
  | kept => exact hp
  | unmapped | fresh | moved => rfl
  | reprotected => simpa using hp
  | tagged _ _ _ hsome => simpa using hsome.symm
  | execed _ hevent => exact absurd hevent hexec

theorem SamePages.follows (hwf : map.Wf)
    (hevent : interpretSyscall call.regs call.pkey call.mode = some event)
    (hsucceeds : call.retval.toNat < 2 ^ 63) (haccept : Accepts call.regs call.retval)
    (htakes : Takes k call.regs call.retval k') (hfollow : CanFollow map event) :
    ∃ map', map.finishSyscall event call.retval = .ok (map', true) := by
  simp only [finishSyscall, updateEventWithResult, if_neg (Nat.not_le.mpr hsucceeds)]
  unfold Takes at htakes
  unfold interpretSyscall at hevent
  unfold Accepts at haccept
  cases hcall : call.regs.syscall <;> simp only [hcall, Option.some.injEq] at hevent haccept htakes
  case mmap =>
    obtain ⟨hlen, -, hfits, -⟩ := haccept
    obtain ⟨hfree, -⟩ := htakes
    subst hevent
    exact updateMemoryMap_mmap_of_free hwf hfits hlen fun hfixed p hp =>
      hsame.none_iff.mpr (hfree hfixed p hp)
  case munmap =>
    obtain ⟨map', hunmap, -⟩ := unmapRegion_eq hwf haccept.2.2 haccept.1
    subst hevent
    simp only [UserRegs.range] at hunmap
    exact ⟨map', by simp [updateMemoryMap, hunmap, bind, Except.bind, pure, Except.pure]⟩
  case mremap =>
    obtain ⟨hlen, haligned, hfits, holdAligned, holdFits, hat, -⟩ := haccept
    obtain ⟨m, -, hmapped, hfree, -⟩ := htakes
    subst hevent
    obtain ⟨holdLen, ⟨prot, hdet, hprot⟩, hfixedFree⟩ := hfollow
    have hsome : ∃ p state, call.regs.range.Meets p ∧ map.page p = some state := by
      have hfirst : call.regs.range.Meets (call.regs.range.start / 4096) :=
        Range.meets_start holdLen
      obtain ⟨state, hstate⟩ := hsame.exists_state (Option.isSome_of_eq_some (hmapped _ hfirst))
      exact ⟨_, state, hfirst, hstate⟩
    have hnew : ∀ p, (call.regs.moved call.retval).Meets p →
        map.page p = none ∨ (call.regs.range.Meets p ∧ hasFlag call.regs.flags MREMAP_DONTUNMAP =
          false) := by
      intro p hp
      cases hfixed : hasFlag call.regs.flags MREMAP_FIXED with
      | true =>
        rw [(hat hfixed).1] at hp
        rw [UserRegs.flags] at hfixed
        exact .inl (hfixedFree hfixed p (by simpa [hfixed, UserRegs.moved] using hp))
      | false => exact (hfree hfixed p hp).imp hsame.none_iff.mpr id
    exact updateMemoryMap_mremap_of_free hwf holdFits holdLen hfits hlen hdet hsome hprot hnew
  case mprotect =>
    subst hevent
    rcases mprotectRegion_eq hwf haccept.2 hfollow call.regs.prot
      with ⟨⟨p, hp, hnone⟩, -⟩ | ⟨-, map', hupd, -⟩
    · have := htakes.1 p hp
      simp [hsame.none_iff.mp hnone] at this
    · exact ⟨map', hupd⟩
  case pkeyMprotect =>
    subst hevent
    obtain ⟨hlen, hmay⟩ := hfollow
    rcases pkeyMprotectRegion_eq hwf haccept.2.1 hlen call.regs.arg3.toUInt8 with
      ⟨⟨p, hp, hrefused⟩, -⟩ | ⟨-, map', hupd, -⟩
    · obtain ⟨state, hstate⟩ := hsame.exists_state (htakes.1 p hp)
      have := (hrefused state hstate).symm.trans (hmay p state hp hstate)
      simp at this
    · exact ⟨map', hupd⟩
  case execve =>
    subst hevent
    exact hfollow.elim
  case execveat =>
    subst hevent
    exact hfollow.elim
  case other =>
    simp only [Option.ite_none_left_eq_some, Option.some.injEq] at hevent
    obtain ⟨-, rfl⟩ := hevent
    exact ⟨map, rfl⟩
  all_goals
    subst hevent
    exact ⟨map, rfl⟩

end SamePages

theorem Recorded.canFollow (hwf : map.Wf) (hstep : Recorded map call event map')
    (htakes : Takes k call.regs call.retval k') (hsame' : SamePages map' k') :
    CanFollow map event := by
  have htracks := (hstep.tracks hwf).2
  have hevent := hstep.interpreted
  have haccept := hstep.accepted
  unfold Tracks at htracks
  unfold Takes at htakes
  unfold interpretSyscall at hevent
  unfold Accepts at haccept
  cases hcall : call.regs.syscall <;> simp only [hcall, Option.some.injEq]
    at hevent haccept htracks htakes
  case mremap =>
    obtain ⟨-, holdLen, hfree, prot, hdet, -, hprot, -⟩ := htracks
    obtain ⟨-, haligned, -, holdAligned, -, hat, -⟩ := haccept
    subst hevent
    refine ⟨holdLen, ⟨prot, hdet, hprot⟩, fun hfixed p hp => ?_⟩
    obtain ⟨hretval, hapart⟩ := hat hfixed
    have hmoved : (call.regs.moved call.retval).Meets p := by
      simpa [hfixed, UserRegs.moved, hretval] using hp
    exact (hfree p hmoved).resolve_right fun hold =>
      hapart.not_meets holdAligned haligned hold.1 hmoved
  case mprotect =>
    subst hevent
    exact htracks.2.1
  case pkeyMprotect =>
    obtain ⟨-, hlen, hmay, -⟩ := htracks
    subst hevent
    refine ⟨hlen, fun p state hp hstate => ?_⟩
    obtain ⟨state', hstate', hok⟩ := hmay p hp
    obtain rfl : state' = state := Option.some.inj (hstate'.symm.trans hstate)
    exact hok
  case execve =>
    obtain ⟨p, hp⟩ := htakes
    simp [← hsame' p, htracks] at hp
  case execveat =>
    obtain ⟨p, hp⟩ := htakes
    simp [← hsame' p, htracks] at hp
  case other =>
    simp only [Option.ite_none_left_eq_some, Option.some.injEq] at hevent
    obtain ⟨-, rfl⟩ := hevent
    trivial
  all_goals
    subst hevent
    trivial


/-- A process and what its tracer knows of it. -/
structure Traced (T : Type) where
  map : MemoryMap T
  kernel : KernelMap

/-- One step of the system: the kernel carries out what the tracer records. -/
def TracedStep (s : Traced T) (action : Action) (s' : Traced T) : Prop :=
  MapStep s.map action s'.map ∧
    match action with
    | .syscall call _ => KernelStep s.kernel call.regs call.retval s'.kernel
    | .finishInit => s'.kernel = s.kernel
    | .execStop => True

/-- Every tracked page has its real protection. -/
def ProtsAgree (s : Traced T) : Prop :=
  ∀ p state, s.map.page p = some state → ∃ m, s.kernel p = some m ∧ m.prot = state.prot

/-- Every tracked owner is a key, and the real one of every page that is recorded as protected. -/
def KeysAgree (s : Traced T) : Prop :=
  ∀ p state, s.map.page p = some state → state.ownerPkey < 16 ∧
    (state.pkeyMprotected = true → ∃ m, s.kernel p = some m ∧ m.pkey = state.ownerPkey)

/-- A `pkey_mprotect` asks for the protection that the pages it touches are recorded with. -/
def KeepsProt (s : Traced T) (action : Action) : Prop :=
  match action with
  | .syscall _ (.pkeyMprotect info) =>
    ∀ p state, info.range.Meets p → s.map.page p = some state → state.prot = info.prot
  | _ => True

/-- A `pkey_mprotect` names a key; -1 arrives as 255 in the event. -/
def NamesKey (_ : Traced T) (action : Action) : Prop :=
  match action with
  | .syscall _ (.pkeyMprotect info) => info.newOwnerPkey ≠ 255
  | _ => True

theorem pkeyMprotectState_owner_of_may {initFinished : Bool} {pkey : UInt8} {region : MemRegion}
    (h : mayPkeyMprotect initFinished pkey region = true) :
    (pkeyMprotectState initFinished pkey region.state).ownerPkey = pkey := by
  rw [pkeyMprotectState_ownerPkey]
  unfold mayPkeyMprotect at h
  cases initFinished with
  | false => simp
  | true =>
    by_cases hother : region.state.ownerPkey ≠ pkey ∧ region.state.ownerPkey ≠ 0
    · simp [hother] at h
    · by_cases hzero : region.state.ownerPkey = 0
      · simp [hzero]
      · simpa [hzero] using hother

section Agree

variable {s s' : Traced T} (hwf : s.map.Wf) {call : Call} {event : Event}
  (hstep : Recorded s.map call event s'.map)
    (htakes : Takes s.kernel call.regs call.retval s'.kernel)
include hwf hstep htakes

theorem ProtsAgree.recorded (h : ProtsAgree s) (hkeeps : KeepsProt s (.syscall call event)) :
    ProtsAgree s' := by
  intro p
  have hpage := hstep.pageStep hwf htakes p
  generalize s'.map.page p = after, s'.kernel p = mapping at hpage ⊢
  cases hpage with
  | kept => exact h p
  | unmapped => simp
  | fresh owner prot => simp
  | @moved q old m hold hm =>
    obtain ⟨m', hm', hprot⟩ := h q old hold
    obtain rfl : m' = m := Option.some.inj (hm'.symm.trans hm)
    simpa using hprot
  | reprotected prot =>
    intro state hstate
    obtain ⟨old, hold, rfl⟩ := Option.map_eq_some_iff.mp hstate
    obtain ⟨m, hm, -⟩ := h p old hold
    exact ⟨_, by rw [hm]; rfl, rfl⟩
  | @tagged info old pkeyArg hevent hmeets hold _ _ _ _ =>
    subst hevent
    intro state hstate
    obtain rfl := Option.some.inj hstate
    obtain ⟨m, hm, -⟩ := h p old hold
    refine ⟨_, by rw [hm]; rfl, ?_⟩
    rw [pkeyMprotectState_prot, hkeeps p old hmeets hold]
    rfl
  | execed => simp

theorem KeysAgree.recorded (h : KeysAgree s) (hnames : NamesKey s (.syscall call event)) :
    KeysAgree s' := by
  intro p
  have hpage := hstep.pageStep hwf htakes p
  generalize s'.map.page p = after, s'.kernel p = mapping at hpage ⊢
  cases hpage with
  | kept => exact h p
  | unmapped => simp
  | fresh owner prot howner => simpa using howner
  | moved => simpa using call.pkey_lt
  | reprotected prot =>
    intro state hstate
    obtain ⟨old, hold, rfl⟩ := Option.map_eq_some_iff.mp hstate
    refine ⟨(h p old hold).1, fun hprotected => ?_⟩
    obtain ⟨m, hm, hpkey⟩ := (h p old hold).2 hprotected
    exact ⟨m.setProt prot, by rw [hm]; rfl, hpkey⟩
  | @tagged info old pkeyArg hevent hmeets hold hsome hmay hkey hnew =>
    subst hevent
    intro state hstate
    obtain rfl := Option.some.inj hstate
    have hreal : pkeyArg ≠ 0xFFFFFFFF := fun hminus => hnames (by rw [hnew, hminus]; rfl)
    have hlt : info.newOwnerPkey < 16 := by
      rw [hnew, UInt8.lt_iff_toNat_lt, UInt32.toNat_toUInt8]
      exact lt_of_le_of_lt (Nat.mod_le _ _) (UInt32.lt_iff_toNat_lt.mp (hkey.resolve_left hreal))
    rw [pkeyMprotectState_owner_of_may hmay]
    refine ⟨hlt, fun _ => ?_⟩
    obtain ⟨m, hm⟩ := Option.isSome_iff_exists.mp hsome
    exact ⟨_, by rw [hm]; rfl, by rw [Mapping.setPkey, if_neg hreal, hnew]⟩
  | execed => simp

end Agree

theorem TracedStep.keeps {agree : Traced T → Prop} {ok : Traced T → Action → Prop}
    (hrecorded : ∀ {s s' : Traced T} {call event}, s.map.Wf → Recorded s.map call event s'.map →
      Takes s.kernel call.regs call.retval s'.kernel → agree s → ok s
      (.syscall call event) → agree s')
    (hpages : ∀ {s s' : Traced T}, s.kernel = s'.kernel → (∀ p, s'.map.page p = s.map.page p) →
      agree s → agree s')
    (hempty : ∀ {s : Traced T}, (∀ p, s.map.page p = none) → agree s) (s : Traced T)
    (action : Action) (s' : Traced T)
    (h : s.map.Wf ∧ agree s) (hok : ok s action) (hstep : TracedStep s action s') :
    s'.map.Wf ∧ agree s' := by
  obtain ⟨hwf, hagree⟩ := h
  obtain ⟨hmap, hkernel⟩ := hstep
  refine ⟨hmap.wf hwf, ?_⟩
  cases action with
  | syscall call event =>
    have hsucceeds : ¬ 2 ^ 63 ≤ call.retval.toNat := Nat.not_le.mpr hmap.succeeded
    simp only [KernelStep, if_neg hsucceeds] at hkernel
    exact hrecorded hwf hmap hkernel.2 hagree hok
  | finishInit =>
    have hmarked : s.map.markInitFinished.1 = s'.map := congrArg Prod.fst hmap
    exact hpages (Eq.symm hkernel) (fun p => by rw [← hmarked, page_markInitFinished]) hagree
  | execStop => exact hempty fun p => by rw [show s'.map = s.map.clear from hmap, page_clear]

/-- A process with one page, mapped readable and writable before init is finished. -/
def onePage : Traced (SortedIntervals Nat State) where
  map := ⟨⟨[⟨0x9000, 0xA000, ⟨0, false, false, 3⟩⟩], by decide⟩, false⟩
  kernel p := if p = 9 then some ⟨3, 0⟩ else none

theorem onePage_wf : onePage.map.Wf := by
  have hadd : (MemoryMap.new : MemoryMap (SortedIntervals Nat State)).addFreshRegion
    ⟨0x9000, 0x1000⟩ 0 3 =
      .ok (onePage.map, true) := rfl
  exact (addFreshRegion_true Wf.new (by decide) (by decide) hadd).1

theorem onePage_page {p : Nat} {state : State} (h : onePage.map.page p = some state) :
    p = 9 ∧ state = ⟨0, false, false, 3⟩ := by
  obtain ⟨e, he, hc, rfl⟩ := (page_eq_some onePage_wf).mp h
  obtain rfl : e = ⟨0x9000, 0xA000, ⟨0, false, false, 3⟩⟩ := List.mem_singleton.mp he
  refine ⟨?_, rfl⟩
  unfold LabelledInterval.Contains at hc
  dsimp only at hc
  omega

/-- The process after a `pkey_mprotect` of its page. -/
def onePageTagged (prot key : UInt32) : Traced (SortedIntervals Nat State) where
  map := ⟨⟨[⟨0x9000, 0xA000, ⟨key.toUInt8, true, false, 3⟩⟩], by simp⟩, false⟩
  kernel p := if (⟨0x9000, 0x1000⟩ : Range).Meets p
    then (onePage.kernel p).map (Mapping.setPkey prot key)
    else onePage.kernel p

theorem onePage_kernelStep {regs : UserRegs} (hcall : regs.syscall = .pkeyMprotect)
    (hrange : regs.range = ⟨0x9000, 0x1000⟩) (haccept : Accepts regs 0) :
    KernelStep onePage.kernel regs 0 (onePageTagged regs.prot regs.pkeyArg).kernel := by
  rw [KernelStep, if_neg (by decide)]
  simp only [Takes, hcall, hrange]
  refine ⟨haccept, fun p hp => ?_, rfl⟩
  obtain rfl : p = 9 := by
    unfold Range.Meets at hp
    dsimp only at hp
    omega
  rfl

theorem onePage_tag_readOnly : TracedStep onePage
    (.syscall ⟨⟨.pkeyMprotect, 0x9000, 0x1000, 1, 1, 0⟩, 1, .seccomp, 0, by decide⟩
      (.pkeyMprotect ⟨⟨0x9000, 0x1000⟩, 1, 1, 1⟩))
    (onePageTagged 1 1) :=
  ⟨⟨by decide, rfl, by decide, by decide, rfl⟩, onePage_kernelStep rfl (by decide) (by decide)⟩

theorem onePage_protsAgree : ProtsAgree onePage := by
  intro p state hstate
  obtain ⟨rfl, rfl⟩ := onePage_page hstate
  exact ⟨⟨3, 0⟩, rfl, rfl⟩

/-- Keys agree over every run whose `pkey_mprotect` calls name a key. -/
theorem keysAgree_run {s s' : Traced T} (hwf : s.map.Wf) (hagree : KeysAgree s)
    {actions : List Action} (hrun : Run (Run.Guarded NamesKey TracedStep) s actions s') :
    KeysAgree s' := by
  refine (Run.invariant (TracedStep.keeps ?_ ?_ ?_) hrun ⟨hwf, hagree⟩).2
  · exact fun hwf hstep htakes h hok => h.recorded hwf hstep htakes hok
  · intro s s' hkernel hpages h p state hstate
    rw [hpages] at hstate
    exact hkernel ▸ h p state hstate
  · intro s hnone p state hstate
    simp [hnone] at hstate

theorem onePage_keysAgree : KeysAgree onePage := by
  intro p state hstate
  obtain ⟨rfl, rfl⟩ := onePage_page hstate
  exact ⟨by decide, by simp⟩

theorem pkeyMprotect_minus_one_recorded :
    onePage.map.Wf ∧ KeysAgree onePage ∧
      TracedStep onePage
        (.syscall ⟨⟨.pkeyMprotect, 0x9000, 0x1000, 1, 0xFFFFFFFFFFFFFFFF, 0⟩, 0, .seccomp,
          0, by decide⟩
          (.pkeyMprotect ⟨⟨0x9000, 0x1000⟩, 1, 255, 0⟩))
        (onePageTagged 1 0xFFFFFFFF) ∧
      ¬ KeysAgree (onePageTagged 1 0xFFFFFFFF) := by
  refine ⟨onePage_wf, onePage_keysAgree, ⟨⟨by decide, rfl, by decide, by decide, rfl⟩, ?_⟩,
    fun hagree => ?_⟩
  · exact onePage_kernelStep rfl (by decide) (by decide)
  · exact absurd (hagree 9 ⟨255, true, false, 3⟩ rfl).1 (by decide)

theorem keysAgree_run_onePage : KeysAgree (onePageTagged 1 1) :=
  keysAgree_run onePage_wf onePage_keysAgree
    (.cons ⟨by simp [NamesKey], onePage_tag_readOnly⟩ (.nil _))

end Ia2.Tracer
