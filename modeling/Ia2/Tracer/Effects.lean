import Ia2.Tracer.Kernel
import Ia2.Tracer.Pages

/-!
# What a recorded call does to the pages

`Tracks` says for each system call what the tracer makes of it once it is permitted, has succeeded
and is recorded; `Recorded.tracks` is the one place where the update of the map is taken apart.
`owner_of_permitted` is its counterpart for the policy: the pages that a call gives up belong to the
compartment that issued it.
-/

namespace Ia2.Tracer

open MemoryMap

variable {T : Type} [IntervalTree T Nat State]

def mmapOwner (flags : UInt32) (pkey : UInt8) : UInt8 := if hasFlag flags MAP_STACK then 0 else pkey

def Tracks (map : MemoryMap T) (regs : UserRegs) (pkey : UInt8) (retval : UInt64)
    (map' : MemoryMap T) : Prop :=
  match regs.syscall with
  | .mmap =>
    map'.initFinished = map.initFinished ∧
      (hasFlag regs.flags MAP_FIXED = false → ∀ p, (regs.mapped retval).Meets p →
        map.page p = none) ∧
      ∀ p, map'.page p =
        if (regs.mapped retval).Meets p
        then some ⟨mmapOwner regs.flags pkey, false, false, regs.prot⟩ else map.page p
  | .munmap =>
    map'.initFinished = map.initFinished ∧ ∀ p, map'.page p = if regs.range.Meets p then none
      else map.page p
  | .mremap =>
    map'.initFinished = map.initFinished ∧ 0 < regs.range.len ∧
      (∀ p, (regs.moved retval).Meets p →
        map.page p = none ∨ (regs.range.Meets p ∧ hasFlag regs.flags MREMAP_DONTUNMAP = false)) ∧
      ∃ prot, prot ≠ PROT_INDETERMINATE ∧
      (∃ p state, regs.range.Meets p ∧ map.page p = some state) ∧
        (∀ p state, regs.range.Meets p → map.page p = some state → state.prot = prot) ∧
        ∀ p, map'.page p =
          if (regs.moved retval).Meets p then some ⟨pkey, false, false, prot⟩
          else if regs.range.Meets p ∧ hasFlag regs.flags MREMAP_DONTUNMAP = false then none
          else map.page p
  | .mprotect =>
    map'.initFinished = map.initFinished ∧ 0 < regs.range.len ∧
      (∀ p, regs.range.Meets p → (map.page p).isSome) ∧
      ∀ p, map'.page p =
        if regs.range.Meets p then (map.page p).map (mprotectState regs.prot) else map.page p
  | .pkeyMprotect =>
    map'.initFinished = map.initFinished ∧ 0 < regs.range.len ∧
      (∀ p, regs.range.Meets p → ∃ state, map.page p = some state ∧
        mayPkeyMprotect map.initFinished regs.arg3.toUInt8 ⟨regs.range, state⟩ = true) ∧
      ∀ p, map'.page p =
        if regs.range.Meets p then (map.page p).map
        (pkeyMprotectState map.initFinished regs.arg3.toUInt8)
        else map.page p
  | .execve | .execveat => map' = map.clear
  | _ => map' = map

/-! ### The update taken apart -/

section Update

variable {map map' : MemoryMap T} (hwf : map.Wf)
include hwf

variable {pkey : UInt8} {r : Range}
variable {prot : UInt32} {new old : Range} {info : MremapInfo}

theorem addFreshRegion_true (hfits : r.Fits) (hlen : 0 < r.len)
    (h : map.addFreshRegion r pkey prot = .ok (map', true)) :
    map'.Wf ∧ map'.initFinished = map.initFinished ∧ (∀ p, r.Meets p → map.page p = none) ∧
      ∀ p, map'.page p = if r.Meets p then some ⟨pkey, false, false, prot⟩ else map.page p := by
  unfold addFreshRegion at h
  rcases addRegion_eq hwf hfits hlen ⟨pkey, false, false, prot⟩
    with ⟨-, hadd⟩ | ⟨hfree, map₁, hadd, hwf', hinit, hpage⟩
  · simp [hadd] at h
  · obtain rfl : map₁ = map' := by simpa [hadd] using h
    exact ⟨hwf', hinit, hfree, hpage⟩

theorem addFreshRegion_wf (hfits : r.Fits) {added : Bool}
    (h : map.addFreshRegion r pkey prot = .ok (map', added)) : map'.Wf := by
  rcases Nat.eq_zero_or_pos r.len with hzero | hlen
  · simp only [addFreshRegion, addRegion, hzero, if_true, pure, Except.pure, Except.ok.injEq,
      Prod.mk.injEq] at h
    exact h.1 ▸ hwf
  · cases added with
    | true => exact (addFreshRegion_true hwf hfits hlen h).1
    | false =>
      unfold addFreshRegion at h
      rcases addRegion_eq hwf hfits hlen ⟨pkey, false, false, prot⟩
        with ⟨-, hadd⟩ | ⟨-, map₁, hadd, -⟩
      · obtain rfl : map = map' := by simpa [hadd] using h
        exact hwf
      · simp [hadd] at h

theorem unmap_addFresh_true (holdFits : old.Fits) (holdLen : 0 < old.len) (hnewFits : new.Fits)
    (hnewLen : 0 < new.len)
    (h : (do let map₁ ← map.unmapRegion old; map₁.addFreshRegion new pkey prot) =
    .ok (map', true)) :
    map'.Wf ∧ map'.initFinished = map.initFinished ∧
      (∀ p, new.Meets p → map.page p = none ∨ old.Meets p) ∧
      ∀ p, map'.page p =
        if new.Meets p then some ⟨pkey, false, false, prot⟩ else if old.Meets p then none
          else map.page p := by
  obtain ⟨map₁, hunmap, hwf₁, hinit₁, hpage₁⟩ := unmapRegion_eq hwf holdFits holdLen
  simp only [hunmap, bind, Except.bind] at h
  obtain ⟨hwf', hinit, hfree, hpage⟩ := addFreshRegion_true hwf₁ hnewFits hnewLen h
  refine ⟨hwf', hinit.trans hinit₁, fun p hp => ?_, fun p => by rw [hpage, hpage₁]⟩
  have hfreeAt := hfree p hp
  rw [hpage₁] at hfreeAt
  by_cases hold : old.Meets p
  · exact .inr hold
  · exact .inl (by rwa [if_neg hold] at hfreeAt)

theorem addFreshRegion_of_free (hfits : r.Fits) (hlen : 0 < r.len) (pkey : UInt8) (prot : UInt32)
    (hfree : ∀ p, r.Meets p → map.page p = none) :
    ∃ map', map.addFreshRegion r pkey prot = .ok (map', true) := by
  rcases addRegion_eq hwf hfits hlen ⟨pkey, false, false, prot⟩
    with ⟨⟨p, hp, hsome⟩, -⟩ | ⟨-, map', hadd, -⟩
  · simp [hfree p hp] at hsome
  · exact ⟨map', hadd⟩

theorem unmap_addFresh_of_free (holdFits : old.Fits) (holdLen : 0 < old.len) (hnewFits : new.Fits)
    (hnewLen : 0 < new.len) (pkey : UInt8) (prot : UInt32)
    (hfree : ∀ p, new.Meets p → map.page p = none ∨ old.Meets p) :
    ∃ map', (do let map₁ ← map.unmapRegion old; map₁.addFreshRegion new pkey prot) =
      .ok (map', true) := by
  obtain ⟨map₁, hunmap, hwf₁, -, hpage₁⟩ := unmapRegion_eq hwf holdFits holdLen
  simp only [hunmap, bind, Except.bind]
  refine addFreshRegion_of_free hwf₁ hnewFits hnewLen pkey prot fun p hp => ?_
  rw [hpage₁]
  rcases hfree p hp with hnone | hold
  · split
    · rfl
    · exact hnone
  · exact if_pos hold

theorem mremap_point_ne_true (hlen : info.oldRange.len = 0)
    (hstart : info.oldRange.start + 0xFFF < 2 ^ 64) (haligned : info.oldRange.start % 4096 = 0)
    (hunmap : hasFlag info.flags MREMAP_DONTUNMAP = false) :
    map.updateMemoryMap (.mremap info) ≠ .ok (map', true) := by
  intro h
  obtain ⟨es, hes, hsub⟩ := overlapping_point map (r := info.oldRange) (by omega) hlen
  cases es with
  | nil =>
    simp [updateMemoryMap, regionGetProt, hes, agreeing, Outcome.unwrap, bind, Except.bind] at h
  | cons e es =>
    obtain ⟨abort, hsplit⟩ := splitOutRegion_point hwf hstart haligned hlen hes hsub (by simp)
    cases hprot : map.regionGetProt info.oldRange with
    | error abort' => simp [updateMemoryMap, hprot, bind, Except.bind] at h
    | ok prot =>
      by_cases hdet : prot = PROT_INDETERMINATE <;>
        simp [updateMemoryMap, hprot, hdet, hunmap, unmapRegion, hsplit, bind, Except.bind,
          throw, throwThe,
          MonadExceptOf.throw] at h

theorem updateMemoryMap_mremap_true (haligned : info.oldRange.start % 4096 = 0)
    (holdFits : info.oldRange.Fits) (hnewFits : info.newRange.Fits)
    (hnewLen : 0 < info.newRange.len)
    (hkept : hasFlag info.flags MREMAP_DONTUNMAP = true → info.oldRange.len = info.newRange.len)
    (h : map.updateMemoryMap (.mremap info) = .ok (map', true)) :
    map'.Wf ∧ map'.initFinished = map.initFinished ∧ 0 < info.oldRange.len ∧
      (∀ p, info.newRange.Meets p →
        map.page p = none ∨ (info.oldRange.Meets p ∧ hasFlag info.flags MREMAP_DONTUNMAP = false)) ∧
      ∃ prot, prot ≠ PROT_INDETERMINATE ∧
        (∃ p state, info.oldRange.Meets p ∧ map.page p = some state) ∧
        (∀ p state, info.oldRange.Meets p → map.page p = some state → state.prot = prot) ∧
        ∀ p, map'.page p =
          if info.newRange.Meets p then some ⟨info.pkey, false, false, prot⟩
          else if info.oldRange.Meets p ∧ hasFlag info.flags MREMAP_DONTUNMAP = false then none
          else map.page p := by
  have holdLen : 0 < info.oldRange.len := by
    refine Nat.pos_of_ne_zero fun hzero => ?_
    cases hunmap : hasFlag info.flags MREMAP_DONTUNMAP with
    | true => have := hkept hunmap; omega
    | false =>
      exact mremap_point_ne_true hwf hzero (by unfold Range.Fits at holdFits; omega)
        haligned hunmap h
  simp only [updateMemoryMap] at h
  cases hget : map.regionGetProt info.oldRange with
  | error abort => simp [hget, bind, Except.bind] at h
  | ok prot =>
    simp only [hget, bind, Except.bind] at h
    by_cases hdet : prot = PROT_INDETERMINATE
    · simp [hdet, throw, throwThe, MonadExceptOf.throw] at h
    obtain ⟨hsome, hprot⟩ := regionGetProt_eq hwf holdFits holdLen hget hdet
    simp only [hdet, if_false] at h
    cases hunmap : hasFlag info.flags MREMAP_DONTUNMAP with
    | true =>
      simp only [hunmap, if_true] at h
      obtain ⟨hwf', hinit, hfree, hpage⟩ := addFreshRegion_true hwf hnewFits hnewLen h
      exact ⟨hwf', hinit, holdLen, fun p hp => .inl (hfree p hp), prot, hdet, hsome, hprot,
        fun p => by simp [hpage]⟩
    | false =>
      simp only [hunmap, Bool.false_eq_true, if_false] at h
      obtain ⟨hwf', hinit, hfree, hpage⟩ :=
        unmap_addFresh_true hwf holdFits holdLen hnewFits hnewLen h
      exact ⟨hwf', hinit, holdLen, fun p hp => by simpa using hfree p hp, prot, hdet, hsome, hprot,
        fun p => by simp [hpage]⟩

theorem updateMemoryMap_mmap_true {info : MmapInfo} (hfits : info.range.Fits)
    (hlen : 0 < info.range.len) (h : map.updateMemoryMap (.mmap info) = .ok (map', true)) :
    map'.Wf ∧ map'.initFinished = map.initFinished ∧
      (hasFlag info.flags MAP_FIXED = false → ∀ p, info.range.Meets p → map.page p = none) ∧
      ∀ p, map'.page p = if info.range.Meets p
        then some ⟨mmapOwner info.flags info.pkey, false, false, info.prot⟩ else map.page p := by
  simp only [updateMemoryMap] at h
  cases hfixed : hasFlag info.flags MAP_FIXED with
  | true =>
    simp only [hfixed, if_true] at h
    obtain ⟨hwf', hinit, -, hpage⟩ := unmap_addFresh_true hwf hfits hlen hfits hlen h
    refine ⟨hwf', hinit, by simp, fun p => ?_⟩
    rw [hpage]
    by_cases hp : info.range.Meets p
    · rw [if_pos hp, if_pos hp]; rfl
    · rw [if_neg hp, if_neg hp, if_neg hp]
  | false =>
    simp only [hfixed, Bool.false_eq_true, if_false] at h
    obtain ⟨hwf', hinit, hfree, hpage⟩ := addFreshRegion_true hwf hfits hlen h
    exact ⟨hwf', hinit, fun _ => hfree, hpage⟩

theorem mprotectRegion_true (haligned : r.start % 4096 = 0) (hfits : r.Fits)
    (h : map.mprotectRegion r prot = .ok (map', true)) :
    map'.Wf ∧ map'.initFinished = map.initFinished ∧ 0 < r.len ∧
      (∀ p, r.Meets p → (map.page p).isSome) ∧
      ∀ p, map'.page p = if r.Meets p then (map.page p).map (mprotectState prot)
        else map.page p := by
  have hlen : 0 < r.len := Nat.pos_of_ne_zero fun hzero =>
    mprotectRegion_point hwf (by unfold Range.Fits at hfits; omega) haligned hzero _ _ h
  rcases mprotectRegion_eq hwf hfits hlen prot
    with ⟨-, hupd⟩ | ⟨hmapped, map₁, hupd, hwf', hinit, hpage⟩
  · cases hupd.symm.trans h
  · obtain rfl : map₁ = map' := by simpa using hupd.symm.trans h
    exact ⟨hwf', hinit, hlen, hmapped, hpage⟩

theorem pkeyMprotectRegion_true (haligned : r.start % 4096 = 0) (hfits : r.Fits)
    (h : map.pkeyMprotectRegion r pkey = .ok (map', true)) :
    map'.Wf ∧ map'.initFinished = map.initFinished ∧ 0 < r.len ∧
      (∀ p, r.Meets p → ∃ state, map.page p = some state ∧
        mayPkeyMprotect map.initFinished pkey ⟨r, state⟩ = true) ∧
      ∀ p, map'.page p = if r.Meets p
        then (map.page p).map (pkeyMprotectState map.initFinished pkey) else map.page p := by
  have hlen : 0 < r.len := Nat.pos_of_ne_zero fun hzero =>
    pkeyMprotectRegion_point hwf (by unfold Range.Fits at hfits; omega) haligned hzero _ _ h
  rcases pkeyMprotectRegion_eq hwf hfits hlen pkey
    with ⟨-, hupd⟩ | ⟨hmay, map₁, hupd, hwf', hinit, hpage⟩
  · cases hupd.symm.trans h
  · obtain rfl : map₁ = map' := by simpa using hupd.symm.trans h
    exact ⟨hwf', hinit, hlen, hmay, hpage⟩

theorem updateMemoryMap_mmap_of_free {info : MmapInfo} (hfits : info.range.Fits)
    (hlen : 0 < info.range.len)
    (hfree : hasFlag info.flags MAP_FIXED = false → ∀ p, info.range.Meets p → map.page p = none) :
    ∃ map', map.updateMemoryMap (.mmap info) = .ok (map', true) := by
  simp only [updateMemoryMap]
  cases hfixed : hasFlag info.flags MAP_FIXED with
  | true =>
    simp only [if_true]
    exact unmap_addFresh_of_free hwf hfits hlen hfits hlen _ _ fun p hp => .inr hp
  | false =>
    simp only [Bool.false_eq_true, if_false]
    exact addFreshRegion_of_free hwf hfits hlen _ _ (hfree hfixed)

theorem updateMemoryMap_mremap_of_free (holdFits : info.oldRange.Fits)
    (holdLen : 0 < info.oldRange.len) (hnewFits : info.newRange.Fits)
    (hnewLen : 0 < info.newRange.len) (hdet : prot ≠ PROT_INDETERMINATE)
    (hsome : ∃ p state, info.oldRange.Meets p ∧ map.page p = some state)
    (hprot : ∀ p state, info.oldRange.Meets p → map.page p = some state → state.prot = prot)
    (hfree : ∀ p, info.newRange.Meets p → map.page p = none ∨
    (info.oldRange.Meets p ∧ hasFlag info.flags MREMAP_DONTUNMAP = false)) :
    ∃ map', map.updateMemoryMap (.mremap info) = .ok (map', true) := by
  have hget := regionGetProt_of_uniform hwf holdFits holdLen hsome hprot
  simp only [updateMemoryMap, hget, bind, Except.bind, hdet, if_false]
  cases hunmap : hasFlag info.flags MREMAP_DONTUNMAP with
  | true =>
    simp only [hunmap, Bool.true_eq_false, and_false, or_false] at hfree
    simp only [if_true]
    exact addFreshRegion_of_free hwf hnewFits hnewLen _ _ hfree
  | false =>
    simp only [Bool.false_eq_true, if_false]
    exact unmap_addFresh_of_free hwf holdFits holdLen hnewFits hnewLen _ _ fun p hp =>
      (hfree p hp).imp id And.left

end Update

variable {call : Call} {map map' : MemoryMap T} {p : Nat} {pkey : UInt8} {state : State}
variable {event : Event}

theorem Recorded.tracks (hwf : map.Wf) (h : Recorded map call event map') :
    map'.Wf ∧ Tracks map call.regs call.pkey call.retval map' := by
  obtain ⟨hevent, -, hretval, haccept, hupdate⟩ := h
  have hsucceeds : ¬ 2 ^ 63 ≤ call.retval.toNat := by omega
  simp only [finishSyscall, updateEventWithResult, if_neg hsucceeds] at hupdate
  unfold interpretSyscall at hevent
  unfold Accepts at haccept
  unfold Tracks
  cases hcall : call.regs.syscall with
  | mmap =>
    simp only [hcall, Option.some.injEq] at hevent haccept
    obtain ⟨hlen, -, hfits, -⟩ := haccept
    subst hevent
    exact updateMemoryMap_mmap_true hwf hfits hlen hupdate
  | munmap =>
    simp only [hcall, Option.some.injEq] at hevent haccept
    obtain ⟨hlen, -, hfits⟩ := haccept
    subst hevent
    obtain ⟨map₁, hunmap, hwf', hinit, hpage⟩ := unmapRegion_eq hwf hfits hlen
    simp only [updateMemoryMap, UserRegs.range] at hupdate hunmap
    obtain rfl : map₁ = map' := by
      simpa [hunmap, bind, Except.bind, pure, Except.pure] using hupdate
    exact ⟨hwf', hinit, hpage⟩
  | mremap =>
    simp only [hcall, Option.some.injEq] at hevent haccept
    obtain ⟨hlen, -, hfits, haligned, holdFits, -, hkept⟩ := haccept
    subst hevent
    exact updateMemoryMap_mremap_true hwf haligned holdFits hfits hlen hkept hupdate
  | mprotect =>
    simp only [hcall, Option.some.injEq] at hevent haccept
    obtain ⟨haligned, hfits⟩ := haccept
    subst hevent
    exact mprotectRegion_true hwf haligned hfits hupdate
  | pkeyMprotect =>
    simp only [hcall, Option.some.injEq] at hevent haccept
    obtain ⟨haligned, hfits, -⟩ := haccept
    subst hevent
    exact pkeyMprotectRegion_true hwf haligned hfits hupdate
  | execve | execveat =>
    simp only [hcall, Option.some.injEq] at hevent
    subst hevent
    obtain rfl : map.clear = map' := by simpa [updateMemoryMap, pure, Except.pure] using hupdate
    exact ⟨Wf.clear map, rfl⟩
  | madvise | wait4 | clone | clone3 | exit =>
    simp only [hcall, Option.some.injEq] at hevent
    subst hevent
    obtain rfl : map = map' := by simpa [updateMemoryMap, pure, Except.pure] using hupdate
    exact ⟨hwf, rfl⟩
  | other =>
    simp only [hcall, Option.ite_none_left_eq_some, Option.some.injEq] at hevent
    obtain ⟨-, rfl⟩ := hevent
    obtain rfl : map = map' := by simpa [updateMemoryMap, pure, Except.pure] using hupdate
    exact ⟨hwf, rfl⟩

theorem MapStep.wf {action : Action} (hwf : map.Wf) (h : MapStep map action map') :
    map'.Wf := by
  cases action with
  | syscall call event => exact (Recorded.tracks hwf h).1
  | finishInit =>
    have hmap : map.markInitFinished.1 = map' := congrArg Prod.fst h
    exact hmap ▸ hwf.markInitFinished
  | execStop => exact h ▸ Wf.clear map

theorem Reachable.wf (h : Reachable map) : map.Wf := by
  induction h with
  | new => exact Wf.new
  | load _ hfits hadd ih => exact addFreshRegion_wf ih hfits hadd
  | step _ hstep ih => exact hstep.wf ih

/-! ### The policy taken apart -/

/-- The pages that an event gives up: those that a fixed mapping replaces, and those that are
unmapped or moved. -/
def Event.Covers (event : Event) (p : Nat) : Prop :=
  match event with
  | .mmap info => hasFlag info.flags MAP_FIXED = true ∧ info.range.Meets p
  | .munmap info => info.range.Meets p
  | .mremap info => info.oldRange.Meets p
  | _ => False

theorem havePkey_owner (hwf : map.Wf) {r : Range} (hfits : r.Fits) (hlen : 0 < r.len)
    (h : map.allOverlappingRegionsHavePkey r pkey = .ok true) (hp : r.Meets p)
    (hstate : map.page p = some state) :
    state.ownerPkey = pkey := by
  obtain ⟨b, hb, hall⟩ := allOverlappingRegions_eq hwf hfits hlen fun state =>
    decide (pkey = state.ownerPkey)
  obtain rfl : b = true := by
    have := hb.symm.trans h
    simpa using this
  exact (of_decide_eq_true (hall.mp rfl p state hp hstate)).symm

theorem owner_of_permitted (hwf : map.Wf) {regs : UserRegs} {mode : TraceMode} {retval : UInt64}
    (hevent : interpretSyscall regs pkey mode = some event)
    (hpermitted : map.isOpPermitted event = .ok true) (haccept : Accepts regs retval)
    (hp : event.Covers p) (hstate : map.page p = some state) :
    state.ownerPkey = pkey := by
  unfold interpretSyscall at hevent
  unfold Accepts at haccept
  cases hcall : regs.syscall <;> simp only [hcall, Option.some.injEq] at hevent haccept
  case mmap =>
    obtain ⟨hlen, -, hfits, hat⟩ := haccept
    subst hevent
    obtain ⟨hfixed, hp⟩ := hp
    have hrange : regs.mapped retval = regs.range := by
      rw [UserRegs.mapped, hat hfixed, UserRegs.range]
    rw [hrange] at hlen hfits
    simp only [isOpPermitted, hfixed, Bool.not_true, Bool.false_eq_true, if_false] at hpermitted
    exact havePkey_owner hwf hfits hlen hpermitted hp hstate
  case munmap =>
    subst hevent
    exact havePkey_owner hwf haccept.2.2 haccept.1 hpermitted hp hstate
  case mremap =>
    obtain ⟨-, -, -, haligned, hfits, -⟩ := haccept
    subst hevent
    -- a range of length zero at a page boundary touches no page
    have hlen : 0 < regs.range.len := by
      simp only [Event.Covers, Range.Meets] at hp
      simp only [UserRegs.range] at haligned ⊢
      omega
    exact havePkey_owner hwf hfits hlen hpermitted hp hstate
  case other =>
    simp only [Option.ite_none_left_eq_some, Option.some.injEq] at hevent
    obtain ⟨-, rfl⟩ := hevent
    exact hp.elim
  all_goals
    subst hevent
    exact hp.elim

inductive Kept (map : MemoryMap T) (event : Event) (p : Nat) (state : State) : State → Prop where
  | same : Kept map event p state state
  | reprotected {info : MprotectInfo} : event = .mprotect info → info.range.Fits →
    0 < info.range.len →
      info.range.Meets p → Kept map event p state (mprotectState info.prot state)
  | tagged {info : PkeyMprotectInfo} : event = .pkeyMprotect info →
      Kept map event p state (pkeyMprotectState map.initFinished info.newOwnerPkey state)

theorem Recorded.kept (hwf : map.Wf) (h : Recorded map call event map')
    (hstate : map.page p = some state) (hcovers : ¬ event.Covers p) (hexec : event ≠ .exec) :
    map'.initFinished = map.initFinished ∧ ∃ state',
      map'.page p = some state' ∧ Kept map event p state state' := by
  have htracks := (h.tracks hwf).2
  have hevent := h.interpreted
  have haccept := h.accepted
  unfold Tracks at htracks
  unfold interpretSyscall at hevent
  unfold Accepts at haccept
  cases hcall : call.regs.syscall <;> simp only [hcall, Option.some.injEq] at hevent haccept htracks
  case mmap =>
    obtain ⟨hinit, hfree, hpage⟩ := htracks
    subst hevent
    have hout : ¬ (call.regs.mapped call.retval).Meets p := fun hp => by
      cases hfixed : hasFlag call.regs.flags MAP_FIXED with
      | true =>
        refine hcovers ⟨hfixed, ?_⟩
        rwa [UserRegs.mapped, haccept.2.2.2 hfixed] at hp
      | false => simp [hfree hfixed p hp] at hstate
    exact ⟨hinit, state, by rw [hpage, if_neg hout, hstate], .same⟩
  case munmap =>
    obtain ⟨hinit, hpage⟩ := htracks
    subst hevent
    have hout : ¬ call.regs.range.Meets p := hcovers
    exact ⟨hinit, state, by rw [hpage, if_neg hout, hstate], .same⟩
  case mremap =>
    obtain ⟨hinit, -, hfree, prot, -, -, -, hpage⟩ := htracks
    subst hevent
    have hout : ¬ (call.regs.moved call.retval).Meets p := fun hp => by
      rcases hfree p hp with hnone | hold
      · simp [hnone] at hstate
      · exact hcovers hold.1
    have hkeep : ¬ (call.regs.range.Meets p ∧ hasFlag call.regs.flags MREMAP_DONTUNMAP = false) :=
      fun hp => hcovers hp.1
    exact ⟨hinit, state, by rw [hpage, if_neg hout, if_neg hkeep, hstate], .same⟩
  case mprotect =>
    obtain ⟨hinit, hlen, -, hpage⟩ := htracks
    refine ⟨hinit, ?_⟩
    by_cases hp : call.regs.range.Meets p
    · exact ⟨_, by rw [hpage, if_pos hp, hstate]; rfl, .reprotected hevent.symm haccept.2 hlen hp⟩
    · exact ⟨state, by rw [hpage, if_neg hp, hstate], .same⟩
  case pkeyMprotect =>
    obtain ⟨hinit, -, -, hpage⟩ := htracks
    refine ⟨hinit, ?_⟩
    by_cases hp : call.regs.range.Meets p
    · exact ⟨_, by rw [hpage, if_pos hp, hstate]; rfl, .tagged hevent.symm⟩
    · exact ⟨state, by rw [hpage, if_neg hp, hstate], .same⟩
  case execve => exact absurd hevent.symm hexec
  case execveat => exact absurd hevent.symm hexec
  all_goals
    subst htracks
    exact ⟨rfl, state, hstate, .same⟩

end Ia2.Tracer
