import Ia2.Tracer.Pages

/-!
# The memory map refines a page map

What the memory map means to its callers: a partial map from pages to states, which each operation
looks up and updates page by page. `MapOp` collects the operations, `MapOp.run` is the code and
`MapOp.spec` what it stands for. Over every sequence of operations the code returns what the page
map says, does to the pages what the page map does, and never panics.
-/

namespace Ia2.Tracer

structure PageMap where
  page : Nat → Option State
  initFinished : Bool

namespace PageMap

def empty : PageMap := ⟨fun _ => none, false⟩

def Free (m : PageMap) (r : Range) : Prop := ∀ p, r.Meets p → m.page p = none

def Mapped (m : PageMap) (r : Range) (check : State → Prop) : Prop :=
  ∀ p, r.Meets p → ∃ state, m.page p = some state ∧ check state

/-- Replace what is known of each page that the range touches. -/
def update (m : PageMap) (r : Range) (f : Option State → Option State) : PageMap :=
  { m with page := fun p => if r.Meets p then f (m.page p) else m.page p }

end PageMap

/-- The operations of the memory map. -/
inductive MapOp where
  | addRegion (range : Range) (state : State)
  | unmapRegion (range : Range)
  | mprotectRegion (range : Range) (prot : UInt32)
  | pkeyMprotectRegion (range : Range) (pkey : UInt8)
  | clear
  | markInitFinished

namespace MapOp

/-- The range of the operation, if it has one, is not empty and does not wrap. -/
def Proper : MapOp → Prop
  | .addRegion r _ | .unmapRegion r | .mprotectRegion r _ | .pkeyMprotectRegion r _ =>
    0 < r.len ∧ r.Fits
  | .clear | .markInitFinished => True

instance (op : MapOp) : Decidable op.Proper := by
  cases op <;> unfold Proper <;> infer_instance

section Run

variable {T : Type} [IntervalTree T Nat State]

/-- The operation as the code carries it out, with the result that it returns. -/
def run (map : MemoryMap T) : MapOp → Outcome (MemoryMap T × Bool)
  | .addRegion r state => map.addRegion r state
  | .unmapRegion r => do return (← map.unmapRegion r, true)
  | .mprotectRegion r prot => map.mprotectRegion r prot
  | .pkeyMprotectRegion r pkey => map.pkeyMprotectRegion r pkey
  | .clear => return (map.clear, true)
  | .markInitFinished => return map.markInitFinished

end Run

open Classical in
/-- The operation on a page map. `pkey_mprotect` sets the owner of a page that has none, or of any
page before init has finished; afterwards it refuses pages of other owners and pages that it has
protected before. -/
noncomputable def spec (m : PageMap) : MapOp → PageMap × Bool
  | .addRegion r state => if m.Free r then (m.update r fun _ => some state, true) else (m, false)
  | .unmapRegion r => (m.update r fun _ => none, true)
  | .mprotectRegion r prot =>
    if m.Mapped r fun _ => True then
      (m.update r (Option.map fun state => { state with mprotected := true, prot := prot }), true)
    else (m, false)
  | .pkeyMprotectRegion r pkey =>
    if m.Mapped r fun state => m.initFinished = true →
        (state.ownerPkey = 0 ∨ state.ownerPkey = pkey) ∧ state.pkeyMprotected = false then
      (m.update r (Option.map fun state =>
        { state with
          pkeyMprotected := true
          ownerPkey := if state.ownerPkey = 0 ∨ m.initFinished = false then pkey
            else state.ownerPkey }), true)
    else (m, false)
  | .clear => (.empty, true)
  | .markInitFinished =>
    if m.initFinished = true then (m, false) else ({ m with initFinished := true }, true)

end MapOp

namespace MemoryMap

open IntervalTree

variable {T : Type} [IntervalTree T Nat State]

/-- The page map that a memory map stands for. -/
def view (map : MemoryMap T) : PageMap := ⟨map.page, map.initFinished⟩

/-- The maps that the operations build from a new one. -/
inductive Built : MemoryMap T → Prop where
  | new : Built new
  | step {map map' : MemoryMap T} {op : MapOp} {result : Bool} : Built map → op.Proper →
      op.run map = .ok (map', result) → Built map'

theorem view_new : (new : MemoryMap T).view = .empty :=
  congrArg (PageMap.mk · false) (funext fun _ => lookup_empty _)

variable {map : MemoryMap T}

theorem view_eq {map' : MemoryMap T} {r : Range} (f : Option State → Option State)
    (hinit : map'.initFinished = map.initFinished)
    (hpage : ∀ p, map'.page p = if r.Meets p then f (map.page p) else map.page p) :
    map'.view = map.view.update r f := by
  unfold view PageMap.update
  rw [hinit, funext hpage]

theorem mayPkeyMprotect_iff (initFinished : Bool) (pkey : UInt8) (r : Range) (state : State) :
    mayPkeyMprotect initFinished pkey ⟨r, state⟩ = true ↔
      (initFinished = true → (state.ownerPkey = 0 ∨ state.ownerPkey = pkey) ∧
        state.pkeyMprotected = false) := by
  unfold mayPkeyMprotect
  cases initFinished <;> cases state.pkeyMprotected <;> grind

theorem Wf.run (h : map.Wf) {op : MapOp} (hop : op.Proper) :
    ∃ map' result, op.run map = .ok (map', result) ∧ map'.Wf ∧
      op.spec map.view = (map'.view, result) ∧
      (result = false → map' = map) := by
  cases op with
  | addRegion r state =>
    rcases addRegion_eq h hop.2 hop.1 state with ⟨⟨p, hp, hsome⟩, hadd⟩ |
      ⟨hfree, map', hadd, hwf, hinit, hpage⟩
    · have hnot : ¬ map.view.Free r := fun hfree => by
        rw [show map.page p = none from hfree p hp] at hsome
        exact absurd hsome (by simp)
      exact ⟨map, false, hadd, h, if_neg hnot, fun _ => rfl⟩
    · refine ⟨map', true, hadd, hwf, ?_, nofun⟩
      rw [view_eq (fun _ => some state) hinit hpage]
      exact if_pos hfree
  | unmapRegion r =>
    obtain ⟨map', hunmap, hwf, hinit, hpage⟩ := unmapRegion_eq h hop.2 hop.1
    refine ⟨map', true, ?_, hwf, ?_, nofun⟩
    · simp only [MapOp.run, hunmap, bind, Except.bind, pure, Except.pure]
    · rw [view_eq (fun _ => none) hinit hpage]
      rfl
  | mprotectRegion r prot =>
    rcases mprotectRegion_eq h hop.2 hop.1 prot
      with ⟨⟨p, hp, hnone⟩, hupd⟩ | ⟨hmapped, map', hupd, hwf, hinit, hpage⟩
    · have hnot : ¬ map.view.Mapped r fun _ => True := fun hmapped => by
        obtain ⟨state, hstate, -⟩ := hmapped p hp
        exact absurd (hnone.symm.trans hstate) (by simp)
      exact ⟨map, false, hupd, h, if_neg hnot, fun _ => rfl⟩
    · have hall : map.view.Mapped r fun _ => True := fun p hp => by
        obtain ⟨state, hstate⟩ := Option.isSome_iff_exists.mp (hmapped p hp)
        exact ⟨state, hstate, trivial⟩
      refine ⟨map', true, hupd, hwf, ?_, nofun⟩
      rw [view_eq _ hinit hpage]
      exact if_pos hall
  | pkeyMprotectRegion r pkey =>
    have hupdate : pkeyMprotectState map.initFinished pkey = fun state =>
        { state with
          pkeyMprotected := true
          ownerPkey := if state.ownerPkey = 0 ∨ map.initFinished = false then pkey
              else state.ownerPkey } := by
      funext state
      simp only [pkeyMprotectState]
      split <;> rfl
    rcases pkeyMprotectRegion_eq h hop.2 hop.1 pkey
      with ⟨⟨p, hp, hno⟩, hupd⟩ | ⟨hmay, map', hupd, hwf, hinit, hpage⟩
    · refine ⟨map, false, hupd, h, if_neg fun hall => ?_, fun _ => rfl⟩
      obtain ⟨state, hstate, hcheck⟩ := hall p hp
      have hmay := (mayPkeyMprotect_iff map.initFinished pkey r state).mpr hcheck
      exact absurd (hmay.symm.trans (hno state hstate)) (by simp)
    · refine ⟨map', true, hupd, hwf, ?_, nofun⟩
      rw [view_eq _ hinit hpage, hupdate]
      refine if_pos fun p hp => ?_
      obtain ⟨state, hstate, hcheck⟩ := hmay p hp
      exact ⟨state, hstate, (mayPkeyMprotect_iff _ _ r _).mp hcheck⟩
  | clear =>
    refine ⟨map.clear, true, rfl, Wf.clear map, ?_, nofun⟩
    exact congrArg (·, true) view_new.symm
  | markInitFinished =>
    refine ⟨map.markInitFinished.1, map.markInitFinished.2, rfl, h.markInitFinished, ?_, ?_⟩
    all_goals
      unfold MemoryMap.markInitFinished
      cases hinit : map.initFinished <;> simp [MapOp.spec, view, hinit]
    rfl

theorem Built.wf (h : Built map) : map.Wf := by
  induction h with
  | new => exact Wf.new
  | step _ hop hrun ih =>
    obtain ⟨map₁, result, hrun₁, hwf, -⟩ := ih.run hop
    obtain ⟨rfl, -⟩ := Prod.mk.inj (Except.ok.inj (hrun₁.symm.trans hrun))
    exact hwf

/-- Every map that the operations build has nonempty, page-aligned regions that are apart, and the
next operation returns, with the result and the pages that the page map gives it; a failed one
leaves the map as it was. -/
theorem memoryMap_refines_pageMap {map : MemoryMap T} (h : Built map) :
    ((∀ e ∈ entries map.regions, e.lo < e.hi ∧ e.lo % 4096 = 0 ∧ e.hi % 4096 = 0) ∧
      (entries map.regions).Pairwise fun a b => a.hi ≤ b.lo) ∧
    ∀ op : MapOp, op.Proper → ∃ map' result, op.run map = .ok (map', result) ∧
      op.spec map.view = (map'.view, result) ∧ (result = false → map' = map) := by
  have hwf := h.wf
  refine ⟨⟨fun e he => ⟨hwf.apart.nonempty e he, hwf.aligned e he⟩, hwf.apart.ordered⟩,
    fun op hop => ?_⟩
  obtain ⟨map', result, hrun, -, hspec, hfail⟩ := hwf.run hop
  exact ⟨map', result, hrun, hspec, hfail⟩

theorem memoryMap_refines_pageMap_two_pages :
    ∃ (map map' : MemoryMap (SortedIntervals Nat State)) (result : Bool), Built map ∧
      (MapOp.pkeyMprotectRegion ⟨0x1000, 1⟩ 2).run map = .ok (map', result) ∧
      (MapOp.pkeyMprotectRegion ⟨0x1000, 1⟩ 2).spec map.view = (map'.view, result) := by
  have hadd : (MapOp.addRegion ⟨0x1000, 0x1001⟩ ⟨0, false, false, 3⟩).run
      (new : MemoryMap (SortedIntervals Nat State)) =
        .ok (⟨⟨[⟨0x1000, 0x3000, ⟨0, false, false, 3⟩⟩], by decide⟩, false⟩, true) := rfl
  have hfinish : MapOp.markInitFinished.run
      (⟨⟨[⟨0x1000, 0x3000, ⟨0, false, false, 3⟩⟩], by decide⟩, false⟩ :
        MemoryMap (SortedIntervals Nat State)) =
        .ok (⟨⟨[⟨0x1000, 0x3000, ⟨0, false, false, 3⟩⟩], by decide⟩, true⟩, true) := rfl
  have hbuilt := Built.step (Built.step Built.new (by decide) hadd) (by decide) hfinish
  obtain ⟨map', result, hrun, hspec, -⟩ :=
    (memoryMap_refines_pageMap hbuilt).2 (.pkeyMprotectRegion ⟨0x1000, 1⟩ 2) (by decide)
  exact ⟨_, map', result, hbuilt, hrun, hspec⟩

end MemoryMap

end Ia2.Tracer
