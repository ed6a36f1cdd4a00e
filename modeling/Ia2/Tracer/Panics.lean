import Ia2.Tracer.Policy

/-!
# When the tracer panics

The tracer evaluates its policy on the raw arguments of a system call, before the kernel has checked
them. An inverted range makes the tree panic, so does a range that the rounding to pages inverts,
and `mremap` of memory that the tracer does not know unwraps a protection that is not there. This
module says exactly which calls make the tracer panic, for every map that it can reach.
-/

namespace Ia2.Tracer

open MemoryMap IntervalTree

/-- The computation ends in a Rust panic. -/
def Panics {α : Type} (o : Outcome α) : Prop := o = .error .panic

section Outcomes

variable {α β : Type}

@[simp] theorem not_panics_ok (a : α) : ¬ Panics (.ok a : Outcome α) := nofun

@[simp] theorem not_panics_pure (a : α) : ¬ Panics (pure a : Outcome α) := nofun

@[simp] theorem panics_throw (abort : Abort) : Panics (throw abort : Outcome α) ↔ abort = .panic :=
  ⟨fun h => Except.error.inj h, fun h => congrArg Except.error h⟩

theorem panics_bind (x : Outcome α) (f : α → Outcome β) :
    Panics (x >>= f) ↔ Panics x ∨ ∃ a, x = .ok a ∧ Panics (f a) := by
  unfold Panics
  cases x <;> simp [bind, Except.bind]

theorem panics_unwrap (a : Option α) : Panics (Outcome.unwrap a) ↔ a = none := by
  unfold Panics
  cases a <;> simp [Outcome.unwrap]

end Outcomes

variable {T : Type} [IntervalTree T Nat State]

/-! ### The policy -/

/-- The ranges that the policy looks up are not inverted. -/
def Event.QueryOk : Event → Prop
  | .mmap info => hasFlag info.flags MAP_FIXED = true → ¬ info.range.Inverted
  | .munmap info => ¬ info.range.Inverted
  | .mremap info => ¬ info.oldRange.Inverted
  | .madvise info => ¬ info.range.Inverted
  | .mprotect info => ¬ info.range.Inverted
  | .pkeyMprotect info => ¬ info.range.Inverted
  | .clone | .exec | .exit | .none => True

section Queries

variable {map : MemoryMap T} (h : map.Wf)
include h

theorem overlapping_ok {r : Range} (hr : ¬ r.Inverted) :
    ∃ es, map.overlapping r = .ok es ∧ es.Sublist (entries map.regions) := by
  unfold overlapping
  rcases Nat.lt_or_eq_of_le (not_lt.mp hr) with hlt | heq
  · rw [range_eq_meeting h.apart hlt]
    exact ⟨_, rfl, meeting_sublist _ _ _⟩
  · obtain ⟨es, hes, hsub⟩ := range_point map.regions r.start
    rw [← heq, hes]
    exact ⟨es, rfl, hsub⟩

theorem panics_overlapping (r : Range) : Panics (map.overlapping r) ↔ r.Inverted := by
  by_cases hr : r.Inverted
  · simp only [hr, iff_true]
    exact congrArg Outcome.unwrap (range_inverted map.regions hr)
  · obtain ⟨es, hes, -⟩ := overlapping_ok h hr
    simp [hes, hr]

theorem panics_allOverlappingRegions (r : Range) (check : MemRegion → Bool) :
    Panics (map.allOverlappingRegions r check) ↔ r.Inverted := by
  unfold allOverlappingRegions
  rw [panics_bind, panics_overlapping h]
  simp

theorem panics_regionGetProt (r : Range) :
    Panics (map.regionGetProt r) ↔ r.Inverted ∨ map.overlapping r = .ok [] := by
  unfold regionGetProt
  rw [panics_bind, panics_overlapping h]
  refine or_congr_right ⟨?_, fun hnil => ⟨[], hnil, rfl⟩⟩
  rintro ⟨es, hes, hpanics⟩
  cases es with
  | nil => exact hes
  | cons e es =>
    simp only [List.map_cons, agreeing, agreeing_some] at hpanics
    split at hpanics
    · simp [panics_unwrap] at hpanics
    · simp at hpanics

theorem panics_isOpPermitted (event : Event) :
    Panics (map.isOpPermitted event) ↔ ¬ event.QueryOk := by
  cases event with
  | mmap info =>
    cases hfixed : hasFlag info.flags MAP_FIXED <;>
      simp [isOpPermitted, Event.QueryOk, hfixed, allOverlappingRegionsHavePkey,
        panics_allOverlappingRegions h]
  | mprotect info =>
    simp only [isOpPermitted, Event.QueryOk, panics_bind, allOverlappingRegionsMprotected,
      panics_allOverlappingRegions h, not_not, or_iff_left_iff_imp]
    rintro ⟨b, hb, hpanics⟩
    cases b with
    | true => simp at hpanics
    | false =>
      cases hinit : map.initFinished with
      | false => simp [hinit] at hpanics
      | true =>
        simp only [hinit, Bool.false_eq_true, Bool.not_true, if_false, panics_bind,
          panics_regionGetProt h] at hpanics
        rcases hpanics with (hinverted | hnil) | ⟨prot, -, hpanics⟩
        · exact hinverted
        · simp [allOverlappingRegions, hnil, bind, Except.bind, pure, Except.pure] at hb
        · split at hpanics <;> simp at hpanics
  | pkeyMprotect info =>
    simp only [isOpPermitted, Event.QueryOk, panics_bind, allOverlappingRegionsPkeyMprotected,
      panics_allOverlappingRegions h, not_not, or_iff_left_iff_imp]
    rintro ⟨b, -, hpanics⟩
    split at hpanics <;> simp at hpanics
  | munmap info | mremap info | madvise info =>
    simp [isOpPermitted, Event.QueryOk, allOverlappingRegionsHavePkey,
      panics_allOverlappingRegions h]
  | clone | exec | exit | none => simp [isOpPermitted, Event.QueryOk]

end Queries

/-! ### The update -/

def AddOk (r : Range) : Prop := r.len = 0 ∨ ¬ r.roundTo4k.Inverted

def SplitOk (map : MemoryMap T) (r : Range) : Prop :=
  r.roundTo4k.start < r.roundTo4k.endAddr ∨ map.overlapping r.roundTo4k = .ok []

/-- What an update needs of the event and the map. -/
def Event.UpdateOk (map : MemoryMap T) : Event → Prop
  | .mmap info => if hasFlag info.flags MAP_FIXED then SplitOk map info.range else AddOk info.range
  | .munmap info => SplitOk map info.range
  | .mremap info =>
    -- some region of the old range is known, and if they agree on a protection it is moved
    map.overlapping info.oldRange ≠ .ok [] ∧
      ∀ prot, map.regionGetProt info.oldRange = .ok prot → prot ≠ PROT_INDETERMINATE →
        (hasFlag info.flags MREMAP_DONTUNMAP = true ∨ SplitOk map info.oldRange) ∧
        AddOk info.newRange
  | .mprotect info =>
    ¬ (⟨info.range.start, 1⟩ : Range).Inverted ∧
      (map.containsHoles info.range = .ok false → SplitOk map info.range)
  | .pkeyMprotect info =>
    ¬ (⟨info.range.start, 1⟩ : Range).Inverted ∧
      (map.containsHoles info.range = .ok false →
        map.allOverlappingRegions info.range (mayPkeyMprotect map.initFinished info.newOwnerPkey) =
        .ok true →
        SplitOk map info.range)
  | .madvise _ | .clone | .exec | .exit | .none => True

section Updates

variable {map : MemoryMap T} (h : map.Wf)
include h

theorem panics_addRegion (r : Range) (state : State) :
    Panics (map.addRegion r state) ↔ ¬ AddOk r := by
  unfold addRegion AddOk
  by_cases hlen : r.len = 0
  · simp [hlen]
  · simp only [hlen, if_false, panics_bind, panics_overlapping h, false_or, not_not,
      or_iff_left_iff_imp]
    rintro ⟨es, hes, hpanics⟩
    cases es with
    | nil => simp [panics_bind, hes] at hpanics
    | cons e es => simp at hpanics

variable {r : Range}

theorem panics_splitOutRegion (hr : ¬ SplitOk map r) :
    Panics (map.splitOutRegion r) := by
  unfold SplitOk at hr
  push Not at hr
  obtain ⟨hle, hne⟩ := hr
  rcases Nat.lt_or_eq_of_le hle with hlt | heq
  · have hpanics := (panics_overlapping h r.roundTo4k).mpr hlt
    unfold Panics at hpanics ⊢
    simp only [splitOutRegion, hpanics, bind, Except.bind]
  · obtain ⟨es, hes, hsub⟩ := overlapping_ok h (r := r.roundTo4k) (not_lt.mpr heq.ge)
    cases es with
    | nil => exact absurd hes hne
    | cons e es => exact splitOutRegion_empty h heq.symm hes hsub

theorem SplitOk.addBack (hr : SplitOk map r) (update : State → State) :
    ∃ map₁ pieces map', map.splitOutRegion r = .ok (map₁, pieces) ∧ map₁.Wf ∧
      map₁.initFinished = map.initFinished ∧ map₁.addBack update pieces = .ok map' := by
  rcases hr with hlt | hnil
  · obtain ⟨map₁, pieces, hsplit, hwf, -⟩ := splitOutRegion_rounds h hlt
    obtain ⟨map₂, pieces₂, map', hsplit₂, hinit, hadd, -⟩ := splitOut_addBack_rounds update h hlt
    obtain ⟨rfl, rfl⟩ := Prod.mk.inj (Except.ok.inj (hsplit₂.symm.trans hsplit))
    exact ⟨map₂, pieces₂, map', hsplit, hwf, hinit, hadd⟩
  · refine ⟨map, [], map, ?_, h, rfl, rfl⟩
    simp [splitOutRegion, hnil, removeAll, Outcome.unwrap, List.reduceOption, bind, Except.bind,
      pure, Except.pure]

theorem SplitOk.addOk (hr : SplitOk map r) : AddOk r := by
  refine .inr ?_
  rcases hr with hlt | hnil
  · exact not_lt.mpr hlt.le
  · rw [← panics_overlapping h, hnil]
    simp

theorem panics_unmap_addFresh (old new : Range) (pkey : UInt8) (prot : UInt32) :
    Panics (do let map₁ ← map.unmapRegion old; map₁.addFreshRegion new pkey prot) ↔
      ¬ (SplitOk map old ∧ AddOk new) := by
  by_cases hold : SplitOk map old
  · obtain ⟨map₁, pieces, -, hsplit, hwf, -⟩ := hold.addBack h id
    have hunmap : map.unmapRegion old = .ok map₁ := by
      rw [unmapRegion, hsplit]
      rfl
    simp [panics_bind, hunmap, hold, addFreshRegion, panics_addRegion hwf]
  · have hpanics := panics_splitOutRegion h hold
    simp [panics_bind, unmapRegion, hpanics, hold]

theorem containsHoles_ok (hr : ¬ r.Inverted) (hpoint : ¬ (⟨r.start, 1⟩ : Range).Inverted) :
    ¬ Panics (map.containsHoles r) := by
  obtain ⟨es, hes, -⟩ := overlapping_ok h hr
  obtain ⟨first, hfirst, -⟩ := overlapping_ok h hpoint
  simp only [containsHoles, findRegionContainingAddr, findOverlappingRegion, hes, hfirst, bind,
    Except.bind, pure,
    Except.pure]
  repeat' split
  all_goals simp

theorem panics_containsHoles (hr : ¬ r.Inverted) :
    Panics (map.containsHoles r) ↔ (⟨r.start, 1⟩ : Range).Inverted := by
  by_cases hpoint : (⟨r.start, 1⟩ : Range).Inverted
  · simp only [hpoint, iff_true]
    have hpanics := (panics_overlapping h ⟨r.start, 1⟩).mpr hpoint
    unfold Panics at hpanics ⊢
    simp only [containsHoles, findRegionContainingAddr, findOverlappingRegion, hpanics, bind,
      Except.bind]
  · simp only [hpoint, iff_false]
    exact containsHoles_ok h hr hpoint

theorem panics_mprotectRegion (hr : ¬ r.Inverted) (prot : UInt32) :
    Panics (map.mprotectRegion r prot) ↔
      ¬ (¬ (⟨r.start, 1⟩ : Range).Inverted ∧
        (map.containsHoles r = .ok false → SplitOk map r)) := by
  unfold mprotectRegion
  rw [panics_bind, panics_containsHoles h hr, not_and_or, not_not]
  refine or_congr_right ?_
  push Not
  constructor
  · rintro ⟨holes, hholes, hpanics⟩
    cases holes with
    | true => simp at hpanics
    | false =>
      refine ⟨hholes, fun hsplit => ?_⟩
      obtain ⟨map₁, pieces, map', hout, -, -, hadd⟩ := hsplit.addBack h (mprotectState prot)
      simp [hout, hadd, bind, Except.bind] at hpanics
  · rintro ⟨hholes, hsplit⟩
    refine ⟨false, hholes, ?_⟩
    simp [panics_bind, panics_splitOutRegion h hsplit]

theorem panics_pkeyMprotectRegion (hr : ¬ r.Inverted) (pkey : UInt8) :
    Panics (map.pkeyMprotectRegion r pkey) ↔
      ¬ (¬ (⟨r.start, 1⟩ : Range).Inverted ∧ (map.containsHoles r = .ok false →
        map.allOverlappingRegions r (mayPkeyMprotect map.initFinished pkey) = .ok true →
          SplitOk map r)) := by
  unfold pkeyMprotectRegion
  rw [panics_bind, panics_containsHoles h hr, not_and_or, not_not]
  refine or_congr_right ?_
  push Not
  constructor
  · rintro ⟨holes, hholes, hpanics⟩
    cases holes with
    | true => simp at hpanics
    | false =>
      simp only [Bool.false_eq_true, if_false, panics_bind, panics_allOverlappingRegions h, hr,
        false_or] at hpanics
      obtain ⟨may, hmay, hpanics⟩ := hpanics
      cases may with
      | false => simp at hpanics
      | true =>
        refine ⟨hholes, hmay, fun hsplit => ?_⟩
        obtain ⟨map₁, pieces, map', hout, -, hinit, hadd⟩ :=
          hsplit.addBack h (pkeyMprotectState map.initFinished pkey)
        simp [hout, hinit, hadd, bind, Except.bind] at hpanics
  · rintro ⟨hholes, hmay, hsplit⟩
    refine ⟨false, hholes, ?_⟩
    simp [panics_bind, hmay, panics_splitOutRegion h hsplit]

theorem panics_mremap (info : MremapInfo) (hr : ¬ info.oldRange.Inverted) :
    Panics (map.updateMemoryMap (.mremap info)) ↔ ¬ (Event.mremap info).UpdateOk map := by
  simp only [updateMemoryMap, Event.UpdateOk]
  rw [panics_bind, panics_regionGetProt h, not_and_or, not_not]
  refine or_congr (or_iff_right hr) ?_
  push Not
  refine exists_congr fun prot => and_congr_right fun _ => ?_
  by_cases hdet : prot = PROT_INDETERMINATE
  · simp [hdet, panics_bind]
  · cases hunmap : hasFlag info.flags MREMAP_DONTUNMAP with
    | true => simp [hdet, addFreshRegion, panics_addRegion h]
    | false =>
      have hmove := panics_unmap_addFresh h info.oldRange info.newRange info.pkey prot
      simpa [hdet] using hmove

theorem panics_mmap (info : MmapInfo) :
    Panics (map.updateMemoryMap (.mmap info)) ↔ ¬ (Event.mmap info).UpdateOk map := by
  cases hfixed : hasFlag info.flags MAP_FIXED with
  | true =>
    have hsplit : SplitOk map info.range ∧ AddOk info.range ↔ SplitOk map info.range :=
      and_iff_left_of_imp fun hr => hr.addOk h
    simp only [updateMemoryMap, Event.UpdateOk, hfixed, if_true]
    rw [panics_unmap_addFresh h, hsplit]
  | false => simp [updateMemoryMap, Event.UpdateOk, hfixed, addFreshRegion, panics_addRegion h]

theorem panics_munmap (info : MunmapInfo) :
    Panics (map.updateMemoryMap (.munmap info)) ↔ ¬ (Event.munmap info).UpdateOk map := by
  simp only [updateMemoryMap, Event.UpdateOk, unmapRegion]
  by_cases hsplit : SplitOk map info.range
  · obtain ⟨map₁, pieces, -, hout, -⟩ := hsplit.addBack h id
    simp [hsplit, hout, bind, Except.bind, pure, Except.pure]
  · have hpanics : map.splitOutRegion info.range = .error .panic := panics_splitOutRegion h hsplit
    simp [Panics, hsplit, hpanics, bind, Except.bind]

end Updates

/-- For every map that the tracer can reach and every event, with whatever addresses and lengths:
handling the event, and recording it if it is permitted and the call succeeds, panics exactly when a
range that the policy looks up is inverted or the update does not get what it needs. -/
theorem tracer_never_panics_iff {map : MemoryMap T} (hreach : Reachable map) {event event' : Event}
    {retval : UInt64} (hresult : updateEventWithResult retval event = some event') :
    (¬ Panics (map.isOpPermitted event) ∧
      (map.isOpPermitted event = .ok true → ¬ Panics (map.updateMemoryMap event'))) ↔
    event.QueryOk ∧ (map.isOpPermitted event = .ok true → event'.UpdateOk map) := by
  have h := hreach.wf
  rw [panics_isOpPermitted h, not_not]
  refine and_congr_right fun hquery => imp_congr_right fun _ => ?_
  rw [not_iff_comm]
  have hsome := (Option.ite_none_left_eq_some.mp hresult).2
  cases event with
  | mmap info =>
    obtain rfl := Option.some.inj hsome
    exact (panics_mmap h _).symm
  | mremap info =>
    have hold : ¬ info.oldRange.Inverted := hquery
    obtain rfl := Option.some.inj hsome
    exact (panics_mremap h { info with newRange.start := retval.toNat } hold).symm
  | mprotect info =>
    have hrange : ¬ info.range.Inverted := hquery
    obtain rfl := Option.some.inj hsome
    exact (panics_mprotectRegion h hrange info.prot).symm
  | pkeyMprotect info =>
    have hrange : ¬ info.range.Inverted := hquery
    obtain rfl := Option.some.inj hsome
    exact (panics_pkeyMprotectRegion h hrange info.newOwnerPkey).symm
  | munmap info =>
    obtain rfl := Option.some.inj hsome
    exact (panics_munmap h info).symm
  | madvise | clone | exec | exit | none =>
    obtain rfl := Option.some.inj hsome
    simp [Event.UpdateOk, updateMemoryMap]

theorem tracer_panics :
    Reachable (MemoryMap.new : MemoryMap (SortedIntervals Nat State)) ∧
      Panics ((MemoryMap.new : MemoryMap (SortedIntervals Nat State)).isOpPermitted
        (.munmap ⟨⟨0x1000, 0xFFFFFFFFFFFFFFFF⟩, 1⟩)) ∧
      (MemoryMap.new : MemoryMap (SortedIntervals Nat State)).isOpPermitted
        (.mremap ⟨⟨0x1000, 0x1000⟩, ⟨0x1000, 0x2000⟩, 1, 1⟩) = .ok true ∧
      Panics ((MemoryMap.new : MemoryMap (SortedIntervals Nat State)).finishSyscall
        (.mremap ⟨⟨0x1000, 0x1000⟩, ⟨0x1000, 0x2000⟩, 1, 1⟩) 0x5000) :=
  ⟨.new, rfl, rfl, rfl⟩

/-- Unmapping a page of one's own does not. -/
theorem tracer_never_panics_munmap :
    ¬ Panics (twoOwners.updateMemoryMap (.munmap ⟨⟨0x7000, 0x1000⟩, 2⟩)) := by
  have hresult : updateEventWithResult 0 (.munmap ⟨⟨0x7000, 0x1000⟩, 2⟩) =
    some (.munmap ⟨⟨0x7000, 0x1000⟩, 2⟩) := rfl
  have hquery : (Event.munmap ⟨⟨0x7000, 0x1000⟩, 2⟩).QueryOk := by
    unfold Event.QueryOk
    decide
  exact ((tracer_never_panics_iff twoOwners_reachable hresult).mpr
    ⟨hquery, fun _ => .inl (by decide)⟩).2 rfl

end Ia2.Tracer
