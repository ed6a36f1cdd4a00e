import Ia2.Tracer.MemoryMap

/-!
# The memory map as a map from pages to states

What the memory map is for: it says of each 4 KiB page whether it is mapped and in which state.
`page` reads that off the regions, `Wf` is the invariant of the regions (page-aligned, nonempty,
apart), and each operation of the map has one theorem here that says what it does to the pages. The
policy and the tracer reach the map only through these theorems.
-/

namespace Ia2.Tracer

namespace MemoryMap

open IntervalTree LabelledInterval

variable {T : Type} [IntervalTree T Nat State]

/-- The regions are nonempty, page-aligned, below the top of the address space, and apart. -/
structure Wf (map : MemoryMap T) : Prop where
  apart : Apart (entries map.regions)
  aligned : ∀ e ∈ entries map.regions, e.lo % 4096 = 0 ∧ e.hi % 4096 = 0
  bounded : ∀ e ∈ entries map.regions, e.hi < 2 ^ 64

/-- The state of page `p`, if it is mapped. -/
def page (map : MemoryMap T) (p : Nat) : Option State := lookup map.regions (4096 * p)

theorem Wf.new : (new : MemoryMap T).Wf :=
  ⟨by rw [MemoryMap.new, entries_empty]; exact Apart.nil, by simp [MemoryMap.new, entries_empty],
    by simp [MemoryMap.new, entries_empty]⟩

theorem Wf.clear (map : MemoryMap T) : map.clear.Wf := Wf.new

@[simp] theorem page_clear (map : MemoryMap T) (p : Nat) : map.clear.page p = none := lookup_empty _

variable {map : MemoryMap T} {e : LabelledInterval Nat State} {r : Range}
  {es : List (LabelledInterval Nat State)}

theorem Wf.markInitFinished (h : map.Wf) : map.markInitFinished.1.Wf := by
  unfold MemoryMap.markInitFinished
  split
  · exact h
  · exact ⟨h.apart, h.aligned, h.bounded⟩

@[simp] theorem page_markInitFinished (map : MemoryMap T) (p : Nat) :
    map.markInitFinished.1.page p = map.page p := by
  unfold MemoryMap.markInitFinished
  split <;> rfl

theorem contains_page_iff (h : e.lo % 4096 = 0 ∧ e.hi % 4096 = 0) (x : Nat) :
    e.Contains (4096 * (x / 4096)) ↔ e.Contains x := by
  unfold Contains
  omega

theorem lookup_eq_page (h : map.Wf) (x : Nat) :
    lookup map.regions x = map.page (x / 4096) := by
  unfold page
  cases hlook : lookup map.regions (4096 * (x / 4096)) with
  | none =>
    refine lookup_eq_none.mpr fun e he hx => ?_
    exact lookup_eq_none.mp hlook e he ((contains_page_iff (h.aligned e he) x).mpr hx)
  | some v =>
    obtain ⟨e, he, hx, rfl⟩ := (lookup_eq_some h.apart).mp hlook
    exact lookup_of_mem h.apart he ((contains_page_iff (h.aligned e he) x).mp hx)

theorem page_eq_some (h : map.Wf) {p : Nat} {state : State} :
    map.page p = some state ↔ ∃ e ∈ entries map.regions, e.Contains (4096 * p) ∧ e.val = state :=
  lookup_eq_some h.apart

/-! ### Queries -/

theorem overlapping_eq (h : map.Wf) (hfits : r.Fits) (hlen : 0 < r.len) :
    map.overlapping r = .ok (meeting map.regions r.start (r.start + r.len)) := by
  unfold overlapping
  rw [Range.endAddr_eq hfits, range_eq_meeting h.apart (by omega)]
  rfl

theorem meets_iff_page (hne : e.lo < e.hi) (h : e.lo % 4096 = 0 ∧ e.hi % 4096 = 0)
    (hlen : 0 < r.len) :
    e.Meets r.start (r.start + r.len) ↔ ∃ p, r.Meets p ∧ e.Contains (4096 * p) := by
  constructor
  · intro hm
    refine ⟨max e.lo r.start / 4096, ?_, ?_⟩ <;> unfold LabelledInterval.Meets at hm
    · unfold Range.Meets
      omega
    · unfold Contains
      omega
  · rintro ⟨p, hp, hc⟩
    unfold Range.Meets at hp
    unfold Contains at hc
    unfold LabelledInterval.Meets
    omega

theorem allOverlappingRegions_eq (h : map.Wf) (hfits : r.Fits) (hlen : 0 < r.len)
    (check : State → Bool) :
    ∃ b, map.allOverlappingRegions r (fun region => check region.state) = .ok b ∧
      (b = true ↔ ∀ p state, r.Meets p → map.page p = some state → check state = true) := by
  refine ⟨_, by rw [allOverlappingRegions, overlapping_eq h hfits hlen]; rfl, ?_⟩
  simp only [List.all_eq_true, mem_meeting, regionOf]
  constructor
  · intro hall p state hp hpage
    obtain ⟨e, he, hc, rfl⟩ := (page_eq_some h).mp hpage
    exact hall e ⟨he, (meets_iff_page (h.apart.nonempty e he) (h.aligned e he) hlen).mpr
      ⟨p, hp, hc⟩⟩
  · rintro hall e ⟨he, hm⟩
    obtain ⟨p, hp, hc⟩ := (meets_iff_page (h.apart.nonempty e he) (h.aligned e he) hlen).mp hm
    exact hall p e.val hp ((page_eq_some h).mpr ⟨e, he, hc, rfl⟩)

theorem agreeing_some {α : Type} [DecidableEq α] (field : State → α) (value : α)
    (regions : List MemRegion) :
    agreeing field (some value) regions =
      (regions.all fun region => decide (value = field region.state), some value) := by
  induction regions with
  | nil => rfl
  | cons region rest ih =>
    simp only [agreeing, ih, List.all_cons]
    split <;> simp_all

variable {prot : UInt32}

theorem regionGetProt_eq (h : map.Wf) (hfits : r.Fits) (hlen : 0 < r.len)
    (hget : map.regionGetProt r = .ok prot) (hdet : prot ≠ PROT_INDETERMINATE) :
    (∃ p state, r.Meets p ∧ map.page p = some state) ∧
      ∀ p state, r.Meets p → map.page p = some state → state.prot = prot := by
  unfold regionGetProt at hget
  rw [overlapping_eq h hfits hlen] at hget
  cases hmeet : meeting map.regions r.start (r.start + r.len) with
  | nil =>
    rw [hmeet] at hget
    exact absurd hget (by simp [agreeing, Outcome.unwrap, bind, Except.bind])
  | cons first rest =>
    have hfirst : first ∈ entries map.regions ∧ first.Meets r.start (r.start + r.len) :=
      mem_meeting.mp (by rw [hmeet]; exact List.mem_cons_self)
    rw [hmeet] at hget
    simp only [List.map_cons, agreeing, agreeing_some, bind, Except.bind] at hget
    split at hget
    · rename_i hall
      have hprot : first.val.prot = prot := by simpa [Outcome.unwrap, regionOf] using hget
      refine ⟨?_, fun p state hp hpage => ?_⟩
      · obtain ⟨p, hp, hc⟩ :=
          (meets_iff_page (h.apart.nonempty _ hfirst.1) (h.aligned _ hfirst.1) hlen).mp hfirst.2
        exact ⟨p, _, hp, (page_eq_some h).mpr ⟨first, hfirst.1, hc, rfl⟩⟩
      · obtain ⟨e, he, hc, rfl⟩ := (page_eq_some h).mp hpage
        have hmem : e ∈ first :: rest := by
          rw [← hmeet]
          exact mem_meeting.mpr
            ⟨he, (meets_iff_page (h.apart.nonempty e he) (h.aligned e he) hlen).mpr ⟨p, hp, hc⟩⟩
        rcases List.mem_cons.mp hmem with rfl | hmem
        · exact hprot
        · have hsame := of_decide_eq_true
            (List.all_eq_true.mp hall (regionOf e) (List.mem_map.mpr ⟨e, hmem, rfl⟩))
          exact hsame.symm.trans hprot
    · exact absurd (Except.ok.inj hget).symm hdet

theorem regionGetProt_of_uniform (h : map.Wf) (hfits : r.Fits) (hlen : 0 < r.len)
    (hsome : ∃ p state, r.Meets p ∧ map.page p = some state)
    (hall : ∀ p state, r.Meets p → map.page p = some state → state.prot = prot) :
    map.regionGetProt r = .ok prot := by
  have hprot : ∀ e ∈ meeting map.regions r.start (r.start + r.len), e.val.prot = prot :=
    fun e hmem => by
    obtain ⟨he, hm⟩ := mem_meeting.mp hmem
    obtain ⟨p, hp, hc⟩ := (meets_iff_page (h.apart.nonempty e he) (h.aligned e he) hlen).mp hm
    exact hall p e.val hp ((page_eq_some h).mpr ⟨e, he, hc, rfl⟩)
  unfold regionGetProt
  rw [overlapping_eq h hfits hlen]
  cases hmeet : meeting map.regions r.start (r.start + r.len) with
  | nil =>
    obtain ⟨p, state, hp, hpage⟩ := hsome
    obtain ⟨e, he, hc, -⟩ := (page_eq_some h).mp hpage
    have hmem : e ∈ meeting map.regions r.start (r.start + r.len) :=
      mem_meeting.mpr ⟨he, (meets_iff_page (h.apart.nonempty e he) (h.aligned e he) hlen).mpr
        ⟨p, hp, hc⟩⟩
    simp [hmeet] at hmem
  | cons first rest =>
    rw [hmeet] at hprot
    have hrest : (rest.map regionOf).all (fun region => decide (prot = region.state.prot)) =
        true := by
      simp only [List.all_map, List.all_eq_true, Function.comp_apply, decide_eq_true_eq]
      exact fun e he => (hprot e (List.mem_cons_of_mem _ he)).symm
    have hvalue : (regionOf first).state.prot = prot := hprot first List.mem_cons_self
    simp only [List.map_cons, agreeing, agreeing_some, bind, Except.bind, hvalue, hrest, if_true,
      Outcome.unwrap]

/-! ### Holes -/

theorem endAddr_regionOf (hlt : e.lo < e.hi) (hbound : e.hi < 2 ^ 64) :
    (regionOf e).range.endAddr = e.hi := by
  simp only [regionOf, Range.endAddr, wrappingSub]
  omega

theorem contiguous_spec (hapart : Apart es) (hbound : ∀ e ∈ es, e.hi < 2 ^ 64) (last : Nat)
    (habove : ∀ e ∈ es, last ≤ e.lo) :
    (∃ stop, contiguous (some last) (es.map regionOf) = (true, some stop) ∧ last ≤ stop ∧
      (∀ x, last ≤ x → x < stop → ∃ e ∈ es, e.Contains x) ∧ ∀ e ∈ es, e.hi ≤ stop) ∨
    (∃ gap stop, contiguous (some last) (es.map regionOf) = (false, stop) ∧
      (∀ e ∈ es, ¬ e.Contains gap) ∧ last ≤ gap ∧
      ∃ e ∈ es, gap < e.lo) := by
  induction es generalizing last with
  | nil => exact .inl ⟨last, rfl, le_rfl, fun x h1 h2 => by omega, by simp⟩
  | cons a es ih =>
    have halt := hapart.nonempty a (by simp)
    have hal := habove a (by simp)
    have hafter := (List.pairwise_cons.mp hapart.ordered).1
    have hend := endAddr_regionOf halt (hbound a (by simp))
    simp only [List.map_cons, contiguous, hend]
    by_cases hstart : (regionOf a).range.start = last
    · have hlo : a.lo = last := hstart
      rw [if_neg (not_not.mpr hstart)]
      rcases ih hapart.tail (fun e he => hbound e (by simp [he])) a.hi hafter with
        ⟨stop, hrun, hle, hcover, hmax⟩ | ⟨gap, stop, hrun, hfree, hle, e, he, hlt⟩
      · refine .inl ⟨stop, hrun, by omega, fun x h1 h2 => ?_, List.forall_mem_cons.mpr ⟨hle, hmax⟩⟩
        by_cases hx : x < a.hi
        · exact ⟨a, by simp, by unfold Contains; omega⟩
        · obtain ⟨e, he, hc⟩ := hcover x (by omega) h2
          exact ⟨e, by simp [he], hc⟩
      · refine .inr ⟨gap, stop, hrun, List.forall_mem_cons.mpr ⟨?_, hfree⟩, by omega, e, by
        simp [he], hlt⟩
        unfold Contains
        omega
    · have hlo : a.lo ≠ last := hstart
      rw [if_pos hstart]
      refine .inr ⟨last, _, rfl, List.forall_mem_cons.mpr ⟨?_, fun e he => ?_⟩, le_rfl, a, by
        simp, by omega⟩
      · unfold Contains
        omega
      · have := hafter e he
        unfold Contains
        omega

theorem contiguous_none (a : LabelledInterval Nat State) (es : List (LabelledInterval Nat State)) :
    contiguous none ((a :: es).map regionOf) = contiguous (some a.lo) ((a :: es).map regionOf) := by
  simp [contiguous, regionOf]

theorem containsHoles_eq (h : map.Wf) (hfits : r.Fits) (hlen : 0 < r.len) :
    ∃ b, map.containsHoles r = .ok b ∧ (b = false ↔ ∀ p, r.Meets p → (map.page p).isSome) := by
  have hpoint : (⟨r.start, 1⟩ : Range).Fits := by unfold Range.Fits at *; dsimp only; omega
  have hmapped : (∀ p, r.Meets p → (map.page p).isSome) ↔
      ∀ x, r.start ≤ x → x < r.start + r.len → ∃ e ∈ meeting map.regions r.start (r.start + r.len),
      e.Contains x := by
    simp only [Range.forall_meets_iff hlen, ← lookup_eq_page h]
    exact forall_congr' fun x => forall₂_congr fun hlo hhi => isSome_lookup_iff h.apart hlo hhi
  simp only [containsHoles, findRegionContainingAddr, findOverlappingRegion,
    overlapping_eq h hpoint Nat.one_pos,
    overlapping_eq h hfits hlen, hmapped, bind, Except.bind, pure, Except.pure]
  cases hfirst : meeting map.regions r.start (r.start + 1) with
  | nil =>
    refine ⟨true, by simp, ?_⟩
    simp only [Bool.true_eq_false, false_iff]
    intro hall
    obtain ⟨e, he, hc⟩ := hall r.start le_rfl (by omega)
    have : e ∈ meeting map.regions r.start (r.start + 1) :=
      mem_meeting.mpr ⟨(mem_meeting.mp he).1, hc.meets le_rfl (by omega)⟩
    simp [hfirst] at this
  | cons o os =>
    obtain ⟨ho, hom⟩ := mem_meeting.mp (show o ∈ meeting map.regions r.start (r.start + 1) by
      simp [hfirst])
    have hoc : o.Contains r.start := by unfold LabelledInterval.Meets at hom; unfold Contains; omega
    have hmem : o ∈ meeting map.regions r.start (r.start + r.len) :=
      mem_meeting.mpr ⟨ho, hoc.meets le_rfl (by omega)⟩
    have hapart := h.apart.sublist (meeting_sublist map.regions r.start (r.start + r.len))
    cases hall : meeting map.regions r.start (r.start + r.len) with
    | nil => simp [hall] at hmem
    | cons a es =>
      rw [hall] at hapart hmem
      have hin : ∀ e ∈ a :: es, e ∈ entries map.regions ∧ e.Meets r.start (r.start + r.len) :=
        fun e he => mem_meeting.mp (hall ▸ he)
      obtain ⟨hlo, hhi⟩ : a.Contains r.start :=
        hapart.head_contains hmem hoc (hin a List.mem_cons_self).2
      have habove : ∀ e ∈ a :: es, a.lo ≤ e.lo := List.forall_mem_cons.mpr
        ⟨le_rfl, fun e he => (hapart.nonempty a List.mem_cons_self).le.trans
          ((List.pairwise_cons.mp hapart.ordered).1 e he)⟩
      simp only [List.head?_cons, contiguous_none, Range.endAddr_eq hfits]
      rcases contiguous_spec hapart (fun e he => h.bounded e (hin e he).1) a.lo habove with
        ⟨stop, hrun, -, hcover, hmax⟩ | ⟨gap, stop, hrun, hfree, hle, e, he, hlt⟩
      · rw [hrun]
        refine ⟨decide (stop < r.start + r.len), by simp, ?_⟩
        rw [decide_eq_false_iff_not]
        constructor
        · intro hstop x h1 h2
          exact hcover x (hlo.trans h1) (by omega)
        · intro hsome hstop
          obtain ⟨e, he, hc⟩ := hsome stop (hhi.le.trans (hmax a List.mem_cons_self)) hstop
          exact absurd hc.2 (not_lt.mpr (hmax e he))
      · rw [hrun]
        refine ⟨true, by simp, ?_⟩
        simp only [Bool.true_eq_false, false_iff]
        intro hsome
        -- the gap is behind the first region, which holds the start of the range
        have hbehind : a.hi ≤ gap := not_lt.mp fun hgap => hfree a List.mem_cons_self ⟨hle, hgap⟩
        obtain ⟨c, hc, hcg⟩ := hsome gap (hhi.le.trans hbehind) (hlt.trans (hin e he).2.1)
        exact hfree c hc hcg

/-! ### Adding a region -/

theorem addRegion_eq (h : map.Wf) (hfits : r.Fits) (hlen : 0 < r.len) (state : State) :
    ((∃ p, r.Meets p ∧ (map.page p).isSome) ∧ map.addRegion r state = .ok (map, false)) ∨
    ((∀ p, r.Meets p → map.page p = none) ∧ ∃ map',
      map.addRegion r state = .ok (map', true) ∧ map'.Wf ∧
      map'.initFinished = map.initFinished ∧
      ∀ p, map'.page p = if r.Meets p then some state else map.page p) := by
  have hlt := Range.roundTo4k_lt hfits hlen
  have hoverlap : map.overlapping r.roundTo4k =
      .ok (meeting map.regions r.roundTo4k.start r.roundTo4k.endAddr) := by
    unfold overlapping
    rw [range_eq_meeting h.apart hlt]
    rfl
  have hpage : ∀ {e : LabelledInterval Nat State}, e ∈ entries map.regions →
      (e.Meets r.roundTo4k.start r.roundTo4k.endAddr ↔ ∃ p, r.Meets p ∧ e.Contains (4096 * p)) := by
    intro e he
    have hne := h.apart.nonempty e he
    have hal := h.aligned e he
    simp only [Range.meets_iff_roundTo4k hfits, Range.roundTo4k_start,
      Range.roundTo4k_endAddr hfits] at hlt ⊢
    constructor
    · intro hm
      unfold LabelledInterval.Meets at hm
      refine ⟨max e.lo (r.start / 4096 * 4096) / 4096, ?_, ?_⟩
      · omega
      · unfold Contains
        omega
    · rintro ⟨p, hp, hc⟩
      exact hc.meets hp.1 hp.2
  unfold addRegion
  simp only [Nat.ne_of_gt hlen, if_false, hoverlap, bind, Except.bind, pure, Except.pure]
  cases hmeet : meeting map.regions r.roundTo4k.start r.roundTo4k.endAddr with
  | cons e es =>
    obtain ⟨he, hm⟩ := mem_meeting.mp (show e ∈ meeting map.regions _ _ by
      rw [hmeet]; exact List.mem_cons_self)
    obtain ⟨p, hp, hc⟩ := (hpage he).mp hm
    refine .inl ⟨⟨p, hp, ?_⟩, by simp⟩
    rw [(page_eq_some h).mpr ⟨e, he, hc, rfl⟩]
    rfl
  | nil =>
    have hfree : ∀ e ∈ entries map.regions, ¬ e.Meets r.roundTo4k.start r.roundTo4k.endAddr := by
      intro e he hm
      have : e ∈ meeting map.regions _ _ := mem_meeting.mpr ⟨he, hm⟩
      simp [hmeet] at this
    have hmem := mem_insert map.regions r.roundTo4k.start r.roundTo4k.endAddr state
      (ne_lo_of_not_meets h.apart hlt hfree)
    refine .inr ⟨fun p hp => ?_, _, rfl, ⟨insert_apart h.apart hlt state hfree, ?_, ?_⟩, rfl,
      fun p => ?_⟩
    · exact lookup_eq_none.mpr fun e he hc => hfree e he ((hpage he).mpr ⟨p, hp, hc⟩)
    · intro e he
      rcases (hmem e).mp he with rfl | he
      · simp only [Range.roundTo4k_start, Range.roundTo4k_endAddr hfits]
        omega
      · exact h.aligned e he
    · intro e he
      rcases (hmem e).mp he with rfl | he
      · exact Nat.mod_lt _ (by omega)
      · exact h.bounded e he
    · simp only [page, lookup_insert h.apart hlt state hfree, Range.meets_iff_roundTo4k hfits]

/-! ### Taking a range out -/

theorem fromBounds_endAddr {start stop : Nat} (hlt : start < stop) (hbound : stop < 2 ^ 64) :
    Range.fromBounds start stop = some ⟨start, stop - start⟩ ∧
      (⟨start, stop - start⟩ : Range).endAddr = stop := by
  refine ⟨if_pos hlt, ?_⟩
  simp only [Range.endAddr]
  omega

theorem remainder_eq (hne : e.lo < e.hi) (hbound : e.hi < 2 ^ 64) (hlt : r.start < r.endAddr)
    (hm : e.Meets r.start r.endAddr) :
    remainder r e = .ok (outside r.start r.endAddr e) := by
  unfold LabelledInterval.Meets at hm
  obtain ⟨hself, hselfEnd⟩ := fromBounds_endAddr hne hbound
  have hord : max e.lo r.start < min e.hi r.endAddr := by omega
  obtain ⟨hcommon, hcommonEnd⟩ := fromBounds_endAddr hord (by omega)
  unfold remainder
  simp only [hself, Outcome.unwrap, bind, Except.bind, Range.subtract, Range.overlap, hselfEnd,
    hcommon, hcommonEnd]
  have hbefore : Range.fromBounds e.lo (max e.lo r.start) =
      if e.lo < r.start then some ⟨e.lo, r.start - e.lo⟩ else none := by
    by_cases hb : e.lo < r.start
    · rw [max_eq_right hb.le, if_pos hb]
      exact if_pos hb
    · rw [max_eq_left (not_lt.mp hb), if_neg hb]
      exact if_neg (lt_irrefl _)
  have hafter : Range.fromBounds (min e.hi r.endAddr) e.hi =
      if r.endAddr < e.hi then some ⟨r.endAddr, e.hi - r.endAddr⟩ else none := by
    by_cases ha : r.endAddr < e.hi
    · rw [min_eq_right ha.le, if_pos ha]
      exact if_pos ha
    · rw [min_eq_left (not_lt.mp ha), if_neg ha]
      exact if_neg (lt_irrefl _)
  rw [hbefore, hafter]
  unfold outside
  have hstart : r.start < 2 ^ 64 := by omega
  split_ifs with hb ha ha
  · simp [pure, Except.pure, (fromBounds_endAddr hb hstart).2, (fromBounds_endAddr ha hbound).2]
  · simp [pure, Except.pure, (fromBounds_endAddr hb hstart).2]
  · simp [pure, Except.pure, (fromBounds_endAddr ha hbound).2]
  · simp [pure, Except.pure]

theorem common_eq (hne : e.lo < e.hi) (hlt : r.start < r.endAddr) (hm : e.Meets r.start r.endAddr) :
    common r e = .ok (some ⟨⟨max e.lo r.start, min e.hi r.endAddr - max e.lo r.start⟩, e.val⟩) := by
  unfold LabelledInterval.Meets at hm
  have hord : max e.lo r.start < min e.hi r.endAddr := by omega
  simp only [common, ne_eq, hord.ne, not_false_eq_true, if_true, Range.fromBounds, hord,
    Outcome.unwrap, bind,
    Except.bind, pure, Except.pure]

def pieceOf (lo hi : Nat) (e : LabelledInterval Nat State) : MemRegion :=
  ⟨⟨max e.lo lo, min e.hi hi - max e.lo lo⟩, e.val⟩

theorem pieceOf_meets (hal : e.lo % 4096 = 0 ∧ e.hi % 4096 = 0) {lo hi : Nat} (hlo : lo % 4096 = 0)
    (hhi : hi % 4096 = 0) (p : Nat) :
    (pieceOf lo hi e).range.Meets p ↔ e.Contains (4096 * p) ∧ lo ≤ 4096 * p ∧ 4096 * p < hi := by
  unfold Range.Meets Contains pieceOf
  dsimp only
  omega

theorem foldlM_remainder (hparts : ∀ e ∈ es, remainder r e = .ok (outside r.start r.endAddr e))
    (t : T) :
    es.foldlM (fun t e => do return insertAll t (← remainder r e)) t =
      (.ok (insertAll t (es.flatMap (outside r.start r.endAddr))) : Outcome T) := by
  induction es generalizing t with
  | nil => rfl
  | cons e es ih =>
    simp only [List.foldlM_cons, hparts e (by simp), bind, Except.bind, pure, Except.pure]
    rw [show insertAll t ((e :: es).flatMap (outside r.start r.endAddr)) =
      insertAll (insertAll t (outside r.start r.endAddr e))
      (es.flatMap (outside r.start r.endAddr)) by
        simp [insertAll, List.foldl_append]]
    exact ih (fun e he => hparts e (by simp [he])) _

theorem mapM_common (hpieces : ∀ e ∈ es, common r e = .ok (some (pieceOf r.start r.endAddr e))) :
    es.mapM (common r) = (.ok (es.map fun e => some (pieceOf r.start r.endAddr e)) :
      Outcome _) := by
  induction es with
  | nil => rfl
  | cons e es ih =>
    rw [List.mapM_cons, hpieces e (by simp), ih fun e he => hpieces e (by simp [he])]
    rfl

section Cut

variable {map : MemoryMap T} (h : map.Wf) {lo hi : Nat} (hlo : lo % 4096 = 0) (hhi : hi % 4096 = 0)
include h hlo hhi

theorem Wf.takeOut (hlt : lo < hi) (hbound : hi < 2 ^ 64) {regions : T}
    (hapart : Apart (entries regions))
    (hmem : ∀ e, e ∈ entries regions ↔
    (∃ o ∈ entries map.regions, o.Meets lo hi ∧ e ∈ outside lo hi o) ∨
      (e ∈ entries map.regions ∧ ¬ e.Meets lo hi)) :
    ({ map with regions } : MemoryMap T).Wf := by
  refine ⟨hapart, fun e he => ?_, fun e he => ?_⟩
  · rcases (hmem e).mp he with ⟨o, ho, -, heo⟩ | ⟨he, -⟩
    · have := h.aligned o ho
      rcases mem_outside.mp heo with ⟨-, rfl⟩ | ⟨-, rfl⟩
      · exact ⟨this.1, hlo⟩
      · exact ⟨hhi, this.2⟩
    · exact h.aligned e he
  · rcases (hmem e).mp he with ⟨o, ho, -, heo⟩ | ⟨he, -⟩
    · rcases mem_outside.mp heo with ⟨-, rfl⟩ | ⟨-, rfl⟩
      · exact hlt.trans hbound
      · exact h.bounded o ho
    · exact h.bounded e he

theorem pieces_whole (hlt : lo < hi) :
    ∀ piece ∈ (meeting map.regions lo hi).map (pieceOf lo hi), piece.range.Whole := by
  intro piece hpiece
  obtain ⟨e, he, rfl⟩ := List.mem_map.mp hpiece
  obtain ⟨he, hm⟩ := mem_meeting.mp he
  have hne := h.apart.nonempty e he
  have hbound := h.bounded e he
  have haligned := h.aligned e he
  unfold LabelledInterval.Meets at hm
  unfold pieceOf
  constructor
  · dsimp only
    omega
  · dsimp only
    omega
  · dsimp only
    omega
  · unfold Range.Fits
    dsimp only
    omega

theorem pieces_apart :
    ((meeting map.regions lo hi).map (pieceOf lo hi)).Pairwise fun a b =>
      ∀ p, a.range.Meets p → ¬ b.range.Meets p := by
  rw [List.pairwise_map]
  refine (h.apart.ordered.sublist (meeting_sublist _ _ _)).imp_of_mem
    fun {a b} ha hb hord p hpa hpb => ?_
  rw [pieceOf_meets (h.aligned a (mem_meeting.mp ha).1) hlo hhi] at hpa
  rw [pieceOf_meets (h.aligned b (mem_meeting.mp hb).1) hlo hhi] at hpb
  have h1 := hpa.1
  have h2 := hpb.1
  unfold Contains at h1 h2
  omega

theorem exists_piece_iff (p : Nat) (state : State) :
    (∃ piece ∈ (meeting map.regions lo hi).map (pieceOf lo hi),
      piece.range.Meets p ∧ piece.state = state) ↔
      (lo ≤ 4096 * p ∧ 4096 * p < hi) ∧ map.page p = some state := by
  simp only [List.mem_map]
  constructor
  · rintro ⟨_, ⟨e, he, rfl⟩, hp, rfl⟩
    have hein := (mem_meeting.mp he).1
    rw [pieceOf_meets (h.aligned e hein) hlo hhi] at hp
    exact ⟨hp.2, (page_eq_some h).mpr ⟨e, hein, hp.1, rfl⟩⟩
  · rintro ⟨hp, hpage⟩
    obtain ⟨e, he, hc, rfl⟩ := (page_eq_some h).mp hpage
    exact ⟨_, ⟨e, mem_meeting.mpr ⟨he, hc.meets hp.1 hp.2⟩, rfl⟩,
      (pieceOf_meets (h.aligned e he) hlo hhi p).mpr ⟨hc, hp⟩, rfl⟩

end Cut

theorem splitOutRegion_rounds (h : map.Wf) (hlt : r.roundTo4k.start < r.roundTo4k.endAddr) :
    ∃ map' pieces, map.splitOutRegion r = .ok (map', pieces) ∧ map'.Wf ∧
      map'.initFinished = map.initFinished ∧
      (∀ p, map'.page p = if r.Rounds p then none else map.page p) ∧
      (∀ piece ∈ pieces, piece.range.Whole) ∧
      (pieces.Pairwise fun a b => ∀ p, a.range.Meets p → ¬ b.range.Meets p) ∧
      ∀ p state, (∃ piece ∈ pieces, piece.range.Meets p ∧ piece.state = state) ↔
        r.Rounds p ∧ map.page p = some state := by
  obtain ⟨hlo, hhi⟩ := r.roundTo4k_aligned
  have hhiBound : r.roundTo4k.endAddr < 2 ^ 64 := Nat.mod_lt _ (by omega)
  generalize hcut : r.roundTo4k = cut at *
  have hrounds : ∀ p, r.Rounds p ↔ cut.start ≤ 4096 * p ∧ 4096 * p < cut.endAddr := fun p => by
    rw [Range.Rounds, hcut]
  obtain ⟨removed, hremove, hapart, hmem, hlook⟩ := takeOut_spec h.apart hlt
  have hmeeting : ∀ e ∈ meeting map.regions cut.start cut.endAddr,
      e.lo < e.hi ∧ e.hi < 2 ^ 64 ∧ e.Meets cut.start cut.endAddr :=
    fun e he => by
      obtain ⟨he, hm⟩ := mem_meeting.mp he
      exact ⟨h.apart.nonempty e he, h.bounded e he, hm⟩
  have hrest := foldlM_remainder (fun e he =>
    remainder_eq (hmeeting e he).1 (hmeeting e he).2.1 hlt (hmeeting e he).2.2) removed
  have hpieces := mapM_common (r := cut) fun e he =>
    common_eq (hmeeting e he).1 hlt (hmeeting e he).2.2
  have hoverlap : map.overlapping cut = .ok (meeting map.regions cut.start cut.endAddr) := by
    unfold overlapping
    rw [range_eq_meeting h.apart hlt]
    rfl
  refine ⟨{ map with
        regions := insertAll removed ((meeting map.regions cut.start cut.endAddr).flatMap
          (outside cut.start cut.endAddr)) },
    (meeting map.regions cut.start cut.endAddr).map (pieceOf cut.start cut.endAddr), ?_,
    h.takeOut hlo hhi hlt hhiBound hapart hmem, rfl, fun p => ?_, pieces_whole h hlo hhi hlt,
    pieces_apart h hlo hhi, fun p state => ?_⟩
  · simp only [splitOutRegion, hcut, hoverlap, hremove, Outcome.unwrap, bind, Except.bind]
      at hrest ⊢
    rw [hrest]
    simp only [hpieces]
    simp [pure, Except.pure, List.reduceOption, List.filterMap_map]
  · simp only [page, hlook, hrounds]
  · rw [hrounds, exists_piece_iff h hlo hhi]

theorem splitOutRegion_eq (h : map.Wf) (hfits : r.Fits) (hlen : 0 < r.len) :
    ∃ map' pieces, map.splitOutRegion r = .ok (map', pieces) ∧ map'.Wf ∧
      map'.initFinished = map.initFinished ∧
      ∀ p, map'.page p = if r.Meets p then none else map.page p := by
  obtain ⟨map', pieces, hsplit, hwf, hinit, hpage, -⟩ :=
    splitOutRegion_rounds h (Range.roundTo4k_lt hfits hlen)
  exact ⟨map', pieces, hsplit, hwf, hinit, fun p => by
    simp only [hpage, Range.rounds_iff_meets hfits]⟩

theorem unmapRegion_eq (h : map.Wf) (hfits : r.Fits) (hlen : 0 < r.len) :
    ∃ map', map.unmapRegion r = .ok map' ∧ map'.Wf ∧ map'.initFinished = map.initFinished ∧
      ∀ p, map'.page p = if r.Meets p then none else map.page p := by
  obtain ⟨map', pieces, hsplit, hwf, hinit, hpage⟩ := splitOutRegion_eq h hfits hlen
  exact ⟨map', by rw [unmapRegion, hsplit]; rfl, hwf, hinit, hpage⟩

/-! ### Updating a range in place -/

theorem addBack_eq (update : State → State) {pieces : List MemRegion} (h : map.Wf)
    (hwhole : ∀ piece ∈ pieces, piece.range.Whole)
    (hsep : pieces.Pairwise fun a b => ∀ p, a.range.Meets p → ¬ b.range.Meets p)
    (hfree : ∀ piece ∈ pieces, ∀ p, piece.range.Meets p → map.page p = none) :
    ∃ map', addBack update map pieces = .ok map' ∧ map'.Wf ∧ map'.initFinished = map.initFinished ∧
      (∀ piece ∈ pieces, ∀ p, piece.range.Meets p → map'.page p = some (update piece.state)) ∧
      ∀ p, (∀ piece ∈ pieces, ¬ piece.range.Meets p) → map'.page p = map.page p := by
  induction pieces generalizing map with
  | nil => exact ⟨map, rfl, h, rfl, by simp, fun p _ => rfl⟩
  | cons a pieces ih =>
    obtain ⟨hafter, hsep⟩ := List.pairwise_cons.mp hsep
    have hawhole := hwhole a (by simp)
    rcases addRegion_eq h hawhole.fits hawhole.pos (update a.state)
      with ⟨⟨p, hp, hsome⟩, -⟩ | ⟨-, map₁, hadd, hwf₁, hinit₁, hpage₁⟩
    · simp [hfree a (by simp) p hp] at hsome
    · obtain ⟨map', hrest, hwf', hinit', hin, hout⟩ :=
        ih hwf₁ (fun b hb => hwhole b (by simp [hb])) hsep
        fun b hb p hp => by
          rw [hpage₁, if_neg fun hap => hafter b hb p hap hp]
          exact hfree b (by simp [hb]) p hp
      refine ⟨map', ?_, hwf', hinit'.trans hinit₁, ?_, fun p hp => ?_⟩
      · rw [addBack, List.foldlM_cons, hadd]
        exact hrest
      · intro b hb p hp
        rcases List.mem_cons.mp hb with rfl | hb
        · rw [hout p fun c hc => hafter c hc p hp, hpage₁, if_pos hp]
        · exact hin b hb p hp
      · rw [hout p fun c hc => hp c (by simp [hc]), hpage₁, if_neg (hp a (by simp))]

theorem splitOut_addBack_rounds (update : State → State) (h : map.Wf)
    (hlt : r.roundTo4k.start < r.roundTo4k.endAddr) :
    ∃ map₁ pieces map', map.splitOutRegion r = .ok (map₁, pieces) ∧
      map₁.initFinished = map.initFinished ∧
      map₁.addBack update pieces = .ok map' ∧ map'.Wf ∧ map'.initFinished = map.initFinished ∧
      ∀ p, map'.page p = if r.Rounds p then (map.page p).map update else map.page p := by
  obtain ⟨map₁, pieces, hsplit, hwf₁, hinit₁, hpage₁, hpieces, hsep, hcover⟩ :=
    splitOutRegion_rounds h hlt
  obtain ⟨map', hadd, hwf', hinit', hin, hout⟩ :=
    addBack_eq update hwf₁ hpieces hsep fun piece hpiece p hp => by
    rw [hpage₁, if_pos ((hcover p piece.state).mp ⟨piece, hpiece, hp, rfl⟩).1]
  refine ⟨map₁, pieces, map', hsplit, hinit₁, hadd, hwf', hinit'.trans hinit₁, fun p => ?_⟩
  cases hold : map.page p with
  | none =>
    rw [hout p fun piece hpiece hp => by
      have := ((hcover p piece.state).mp ⟨piece, hpiece, hp, rfl⟩).2
      simp [hold] at this, hpage₁, hold]
    simp
  | some state =>
    by_cases hp : r.Rounds p
    · obtain ⟨piece, hpiece, hmeets, rfl⟩ := (hcover p state).mpr ⟨hp, hold⟩
      rw [hin piece hpiece p hmeets, if_pos hp]
      rfl
    · rw [hout p fun piece hpiece hmeets =>
        hp ((hcover p piece.state).mp ⟨piece, hpiece, hmeets, rfl⟩).1, hpage₁,
        if_neg hp, if_neg hp, hold]

theorem splitOut_addBack_eq (update : State → State) (h : map.Wf) (hfits : r.Fits)
    (hlen : 0 < r.len) :
    ∃ map₁ pieces map', map.splitOutRegion r = .ok (map₁, pieces) ∧
      map₁.initFinished = map.initFinished ∧
      map₁.addBack update pieces = .ok map' ∧ map'.Wf ∧ map'.initFinished = map.initFinished ∧
      ∀ p, map'.page p = if r.Meets p then (map.page p).map update else map.page p := by
  obtain ⟨map₁, pieces, map', hsplit, hinit₁, hadd, hwf, hinit, hpage⟩ :=
    splitOut_addBack_rounds update h (Range.roundTo4k_lt hfits hlen)
  exact ⟨map₁, pieces, map', hsplit, hinit₁, hadd, hwf, hinit, fun p => by
    simp only [hpage, Range.rounds_iff_meets hfits]⟩

/-- `splitOutRegion` takes the pages of the rounded range out of the map, in pieces of whole pages
that are apart and have the states of their pages, and adding the pieces in their order succeeds and
restores every page. -/
theorem splitOut_readd {map : MemoryMap T} (h : map.Wf) {r : Range} (hfits : r.Fits)
    (hlen : 0 < r.len) :
    ∃ map₁ pieces map₂, map.splitOutRegion r = .ok (map₁, pieces) ∧
      (∀ p, map₁.page p = if r.Rounds p then none else map.page p) ∧
      (∀ piece ∈ pieces, piece.range.Whole) ∧ (pieces.Pairwise fun a b => a.range.Apart b.range) ∧
      (∀ p state, (∃ piece ∈ pieces, piece.range.Meets p ∧ piece.state = state) ↔
        r.Rounds p ∧ map.page p = some state) ∧
      map₁.addBack id pieces = .ok map₂ ∧ ∀ p, map₂.page p = map.page p := by
  have hlt := Range.roundTo4k_lt hfits hlen
  obtain ⟨map₁, pieces, hsplit, -, -, hpage₁, hwhole, hsep, hcover⟩ := splitOutRegion_rounds h hlt
  obtain ⟨_, _, map₂, hsplit', -, hadd, -, -, hpage₂⟩ := splitOut_addBack_rounds id h hlt
  obtain ⟨rfl, rfl⟩ := Prod.mk.inj (Except.ok.inj (hsplit.symm.trans hsplit'))
  have hapart : pieces.Pairwise fun a b => a.range.Apart b.range :=
    hsep.imp_of_mem fun ha hb hab => (hwhole _ ha).apart (hwhole _ hb) hab
  refine ⟨map₁, pieces, map₂, hsplit, hpage₁, hwhole, hapart, hcover, hadd, fun p => ?_⟩
  rw [hpage₂, Option.map_id, id, ite_self]

/-- A map with three regions and a gap before the third. -/
def threeRegions : MemoryMap (SortedIntervals Nat State) :=
  ⟨⟨[⟨0x1000, 0x4000, ⟨1, false, false, 3⟩⟩, ⟨0x4000, 0x5000, ⟨2, false, false, 3⟩⟩,
    ⟨0x6000, 0x9000, ⟨3, false, false, 3⟩⟩], by decide⟩, false⟩

/-- The pieces of a range that starts inside the first of the regions and ends inside the third. -/
theorem splitOut_readd_threeRegions :
    ∃ map₁ pieces map₂, threeRegions.splitOutRegion ⟨0x2001, 0x5000⟩ = .ok (map₁, pieces) ∧
    pieces = [⟨⟨0x2000, 0x2000⟩, ⟨1, false, false, 3⟩⟩, ⟨⟨0x4000, 0x1000⟩, ⟨2, false, false, 3⟩⟩,
      ⟨⟨0x6000, 0x2000⟩, ⟨3, false, false, 3⟩⟩] ∧
    map₁.addBack id pieces = .ok map₂ ∧ ∀ p, map₂.page p = threeRegions.page p := by
  have hwf : threeRegions.Wf := ⟨⟨by decide, by decide⟩, by decide, by decide⟩
  obtain ⟨map₁, pieces, map₂, hsplit, -, -, -, -, hadd, hpage⟩ :=
    splitOut_readd hwf (r := ⟨0x2001, 0x5000⟩) (by decide) (by decide)
  have hrun : (threeRegions.splitOutRegion ⟨0x2001, 0x5000⟩).map Prod.snd =
    .ok [⟨⟨0x2000, 0x2000⟩, ⟨1, false, false, 3⟩⟩,
      ⟨⟨0x4000, 0x1000⟩, ⟨2, false, false, 3⟩⟩, ⟨⟨0x6000, 0x2000⟩, ⟨3, false, false, 3⟩⟩] := by
        decide +kernel
  rw [hsplit] at hrun
  exact ⟨map₁, pieces, map₂, hsplit, Except.ok.inj hrun, hadd, hpage⟩

theorem mprotectRegion_eq (h : map.Wf) (hfits : r.Fits) (hlen : 0 < r.len) (prot : UInt32) :
    ((∃ p, r.Meets p ∧ map.page p = none) ∧ map.mprotectRegion r prot = .ok (map, false)) ∨
    ((∀ p, r.Meets p → (map.page p).isSome) ∧ ∃ map',
      map.mprotectRegion r prot = .ok (map', true) ∧ map'.Wf ∧
      map'.initFinished = map.initFinished ∧
      ∀ p, map'.page p = if r.Meets p then (map.page p).map (mprotectState prot)
        else map.page p) := by
  obtain ⟨holes, hholes, hmapped⟩ := containsHoles_eq h hfits hlen
  cases holes with
  | true =>
    refine .inl ⟨?_, by rw [mprotectRegion, hholes]; rfl⟩
    simpa using mt hmapped.mpr (by simp)
  | false =>
    obtain ⟨map₁, pieces, map', hsplit, -, hadd, hwf', hinit', hpage⟩ :=
      splitOut_addBack_eq (mprotectState prot) h hfits hlen
    refine .inr ⟨hmapped.mp rfl, map', ?_, hwf', hinit', hpage⟩
    simp only [mprotectRegion, hholes, hsplit, hadd, bind, Except.bind, pure, Except.pure,
      Bool.false_eq_true, if_false]

theorem pkeyMprotectRegion_eq (h : map.Wf) (hfits : r.Fits) (hlen : 0 < r.len) (pkey : UInt8) :
    ((∃ p, r.Meets p ∧ ∀ state, map.page p = some state →
        mayPkeyMprotect map.initFinished pkey ⟨r, state⟩ = false) ∧
      map.pkeyMprotectRegion r pkey = .ok (map, false)) ∨
    ((∀ p, r.Meets p → ∃ state, map.page p = some state ∧
        mayPkeyMprotect map.initFinished pkey ⟨r, state⟩ = true) ∧
      ∃ map', map.pkeyMprotectRegion r pkey = .ok (map', true) ∧ map'.Wf ∧
        map'.initFinished = map.initFinished ∧
      ∀ p, map'.page p =
        if r.Meets p then (map.page p).map (pkeyMprotectState map.initFinished pkey)
          else map.page p) := by
  obtain ⟨holes, hholes, hmapped⟩ := containsHoles_eq h hfits hlen
  obtain ⟨may, hmay, hall⟩ := allOverlappingRegions_eq h hfits hlen fun state =>
    mayPkeyMprotect map.initFinished pkey ⟨r, state⟩
  have hmay : map.allOverlappingRegions r (mayPkeyMprotect map.initFinished pkey) = .ok may := hmay
  cases holes with
  | true =>
    refine .inl ⟨?_, by rw [pkeyMprotectRegion, hholes]; rfl⟩
    have hnone : ∃ p, r.Meets p ∧ map.page p = none := by simpa using mt hmapped.mpr (by simp)
    obtain ⟨p, hp, hpage⟩ := hnone
    exact ⟨p, hp, fun state hstate => by simp [hpage] at hstate⟩
  | false =>
    cases may with
    | false =>
      refine .inl ⟨?_, by simp only [pkeyMprotectRegion, hholes, hmay, bind, Except.bind]; rfl⟩
      have hnot := mt hall.mpr (by simp)
      push Not at hnot
      obtain ⟨p, state, hp, hpage, hno⟩ := hnot
      refine ⟨p, hp, fun state' hstate' => ?_⟩
      obtain rfl : state = state' := Option.some.inj (hpage.symm.trans hstate')
      simpa using hno
    | true =>
      obtain ⟨map₁, pieces, map', hsplit, hinit₁, hadd, hwf', hinit', hpage⟩ :=
        splitOut_addBack_eq (pkeyMprotectState map.initFinished pkey) h hfits hlen
      refine .inr ⟨fun p hp => ?_, map', ?_, hwf', hinit', hpage⟩
      · obtain ⟨state, hstate⟩ := Option.isSome_iff_exists.mp (hmapped.mp rfl p hp)
        exact ⟨state, hstate, hall.mp rfl p state hp hstate⟩
      · simp only [pkeyMprotectRegion, hholes, hmay, hsplit, hinit₁, hadd, bind, Except.bind, pure,
          Except.pure,
          Bool.false_eq_true, if_false, Bool.not_true]

theorem pkeyMprotectState_ownerPkey (initFinished : Bool) (pkey : UInt8) (state : State) :
    (pkeyMprotectState initFinished pkey state).ownerPkey =
      if state.ownerPkey = 0 ∨ initFinished = false then pkey else state.ownerPkey := by
  simp only [pkeyMprotectState]
  split <;> rfl

theorem pkeyMprotectState_pkeyMprotected (initFinished : Bool) (pkey : UInt8) (state : State) :
    (pkeyMprotectState initFinished pkey state).pkeyMprotected = true := by
  simp only [pkeyMprotectState]
  split <;> rfl

theorem pkeyMprotectState_prot (initFinished : Bool) (pkey : UInt8) (state : State) :
    (pkeyMprotectState initFinished pkey state).prot = state.prot := by
  simp only [pkeyMprotectState]
  split <;> rfl

theorem pkeyMprotectState_mprotected (initFinished : Bool) (pkey : UInt8) (state : State) :
    (pkeyMprotectState initFinished pkey state).mprotected = state.mprotected := by
  simp only [pkeyMprotectState]
  split <;> rfl

/-! ### Ranges of length zero

The kernel takes a zero-length `mprotect` or `pkey_mprotect` as a no-op; here the tree's answer to
the empty query decides. Whatever it is, the map is not updated. -/

theorem overlapping_point (map : MemoryMap T) (hstart : r.start < 2 ^ 64) (hlen : r.len = 0) :
    ∃ es, map.overlapping r = .ok es ∧ es.Sublist (entries map.regions) := by
  obtain ⟨es, hrange, hsub⟩ := range_point map.regions r.start
  refine ⟨es, ?_, hsub⟩
  unfold overlapping
  rw [show r.endAddr = r.start by unfold Range.endAddr; omega, hrange]
  rfl

theorem splitOutRegion_empty (h : map.Wf) (hempty : r.roundTo4k.start = r.roundTo4k.endAddr)
    (hes : map.overlapping r.roundTo4k = .ok (e :: es))
    (hsub : (e :: es).Sublist (entries map.regions)) :
    map.splitOutRegion r = .error .panic := by
  obtain ⟨removed, hremove, -⟩ := removeAll_spec h.apart hsub
  have hlt := h.apart.nonempty e (hsub.subset (by simp))
  have hparts : remainder r.roundTo4k e = .error .panic := by
    have hnone : (⟨e.lo, e.hi - e.lo⟩ : Range).overlap r.roundTo4k = none := by
      refine if_neg ?_
      rw [← hempty]
      dsimp only
      omega
    simp only [remainder, Range.fromBounds, hlt, if_true, Outcome.unwrap, bind, Except.bind,
      Range.subtract, hnone]
    rfl
  simp only [splitOutRegion, hes, hremove, Outcome.unwrap, List.foldlM_cons, hparts, bind,
    Except.bind]

section

variable (h : map.Wf) (hstart : r.start + 0xFFF < 2 ^ 64) (haligned : r.start % 4096 = 0)
  (hlen : r.len = 0)

include h hstart haligned hlen

theorem splitOutRegion_point (hes : map.overlapping r = .ok es)
    (hsub : es.Sublist (entries map.regions)) (hne : es ≠ []) :
    ∃ abort, map.splitOutRegion r = .error abort := by
  have hround : r.roundTo4k = r := by
    obtain ⟨start, len⟩ := r
    simp only [Range.roundTo4k, clearLow12, wrappingSub, Range.mk.injEq] at *
    omega
  have hempty : r.roundTo4k.start = r.roundTo4k.endAddr := by
    rw [hround, Range.endAddr]
    omega
  cases es with
  | nil => exact absurd rfl hne
  | cons e es => exact ⟨.panic, splitOutRegion_empty h hempty (hround.symm ▸ hes) hsub⟩

theorem splitOutRegion_of_not_containsHoles (hholes : map.containsHoles r = .ok false) :
    ∃ abort, map.splitOutRegion r = .error abort := by
  obtain ⟨es, hes, hsub⟩ := overlapping_point map (r := r) (by omega) hlen
  refine splitOutRegion_point h hstart haligned hlen hes hsub fun hnil => ?_
  subst hnil
  unfold containsHoles at hholes
  cases hfirst : map.findRegionContainingAddr r.start with
  | error a => simp [hfirst, bind, Except.bind] at hholes
  | ok first =>
    cases first <;> simp [hfirst, hes, contiguous, bind, Except.bind, pure, Except.pure] at hholes

theorem mprotectRegion_point (prot : UInt32) (map' : MemoryMap T) :
    map.mprotectRegion r prot ≠ .ok (map', true) := by
  intro hok
  unfold mprotectRegion at hok
  cases hholes : map.containsHoles r with
  | error a => simp [hholes, bind, Except.bind] at hok
  | ok holes =>
    cases holes with
    | true => simp [hholes, bind, Except.bind, pure, Except.pure] at hok
    | false =>
      obtain ⟨abort, hsplit⟩ := splitOutRegion_of_not_containsHoles h hstart haligned hlen hholes
      simp [hholes, hsplit, bind, Except.bind] at hok

theorem pkeyMprotectRegion_point (pkey : UInt8) (map' : MemoryMap T) :
    map.pkeyMprotectRegion r pkey ≠ .ok (map', true) := by
  intro hok
  unfold pkeyMprotectRegion at hok
  cases hholes : map.containsHoles r with
  | error a => simp [hholes, bind, Except.bind] at hok
  | ok holes =>
    cases holes with
    | true => simp [hholes, bind, Except.bind, pure, Except.pure] at hok
    | false =>
      obtain ⟨abort, hsplit⟩ := splitOutRegion_of_not_containsHoles h hstart haligned hlen hholes
      cases hmay : map.allOverlappingRegions r (mayPkeyMprotect map.initFinished pkey) with
      | error a => simp [hholes, hmay, bind, Except.bind] at hok
      | ok may =>
        cases may <;> simp [hholes, hmay, hsplit, bind, Except.bind, pure, Except.pure] at hok

end

end MemoryMap

end Ia2.Tracer
