import Ia2.Runtime.ExtraLibraries
import Mathlib.Data.List.Induction
import Mathlib.Data.List.Infix

/-!
# Protecting the segments of a compartment

`protect_pages` is called for each loaded object. In an object that belongs to the compartment it
protects the pages of the writable segments, except for the ranges that all compartments share: the
shared sections of the compartment and the object's `RELRO` segment.

Within a segment it looks for one region at a time that no shared range overlaps. A pass over the
shared ranges, in whatever order they are, moves the start of the region behind a range that it lies
in and the end of the region before a range that starts further on. After the pass every range lies
before the region or behind it, also a range that was looked at while the region was larger, because
the start only moves up and the end only moves down. The region may be empty then, but in that case
the start has moved.
-/

namespace Ia2.Runtime

def PT_GNU_RELRO : UInt32 := 0x6474e552

def PF_X : UInt32 := 1
def PF_W : UInt32 := 2
def PF_R : UInt32 := 4

def PROT_READ : UInt32 := 1
def PROT_WRITE : UInt32 := 2
def PROT_EXEC : UInt32 := 4
def PROT_MTE : UInt32 := 0x20

def IA2_MAX_NUM_SHARED_SECTION_COUNT : Nat := 4
def MAX_NUM_PHDRS : Nat := 20

inductive ProtectAbort where
  | startNotPageAligned (addr : UInt64)
  | endNotPageAligned (addr : UInt64)
  | assertFailed
  | unreadable (addr : UInt64)
  | mprotectFailed
deriving DecidableEq, Repr

structure AddressRange where
  start : UInt64
  stop : UInt64
deriving DecidableEq, Repr

/-- What the runtime is built for. -/
structure Config where
  aarch64 : Bool := false
  libcCompartment : Bool := false
deriving DecidableEq, Repr

/-- The process around the runtime: the addresses that can be read, and what `ia2_mprotect_with_tag`
returns. -/
structure Process where
  readable : UInt64 → Bool
  mprotectErr : TagCall → Int32

/-! ### Shared ranges -/

def sectionRanges : Nat → List IA2SharedSection → Except ProtectAbort (List AddressRange)
  | n + 1, sec :: rest => do
    if sec.start = 0 ∨ sec.stop = 0 then
      return []
    if sec.start &&& ~~~0xFFF ≠ sec.start then
      throw (.startNotPageAligned sec.start)
    if (sec.stop + 0xFFF) &&& ~~~0xFFF ≠ sec.stop then
      throw (.endNotPageAligned sec.stop)
    return ⟨sec.start, sec.stop⟩ :: (← sectionRanges n rest)
  | _, _ => return []

def pageRange (info : DlPhdrInfo) (phdr : Phdr) : AddressRange :=
  ⟨(info.dlpiAddr + phdr.pVaddr) &&& ~~~0xFFF,
    (info.dlpiAddr + phdr.pVaddr + phdr.pMemsz + 0xFFF) &&& ~~~0xFFF⟩

def relroRange (info : DlPhdrInfo) : Option AddressRange :=
  (info.dlpiPhdr.find? fun phdr => phdr.pType = PT_GNU_RELRO).map (pageRange info)

def sharedRanges (info : DlPhdrInfo) (args : PhdrSearchArgs) :
  Except ProtectAbort (List AddressRange) := do
  let sections ← sectionRanges IA2_MAX_NUM_SHARED_SECTION_COUNT (args.sharedSections.getD [])
  return sections ++ (relroRange info).toList

/-! ### Regions of a segment -/

def adjustRegion (region shared : AddressRange) : AddressRange :=
  let start := if shared.start ≤ region.start ∧ region.start < shared.stop then shared.stop
    else region.start
  let curEnd := if start < shared.start ∧ shared.start < region.stop then shared.start
    else region.stop
  ⟨start, curEnd⟩

def firstRegion (shared : List AddressRange) (start segEnd : UInt64) : AddressRange :=
  shared.foldl adjustRegion ⟨start, segEnd⟩

def AddressRange.Covers (range : AddressRange) (x : Nat) :
    Prop := range.start.toNat ≤ x ∧ x < range.stop.toNat

instance decidableCovers (range : AddressRange) (x : Nat) : Decidable (range.Covers x) :=
  inferInstanceAs (Decidable (_ ∧ _))

structure Unshared (shared : List AddressRange) (start segEnd : UInt64)
    (region : AddressRange) : Prop where
  start_le : start.toNat ≤ region.start.toNat
  stop_le : region.stop.toNat ≤ segEnd.toNat
  moved : region.start.toNat = start.toNat → start.toNat < region.stop.toNat
  skipped : ∀ x, start.toNat ≤ x → x < region.start.toNat → ∃ range ∈ shared, range.Covers x
  apart : ∀ range ∈ shared, range.stop.toNat ≤ region.start.toNat ∨
    region.stop.toNat ≤ range.start.toNat

theorem adjustRegion_cases (region shared : AddressRange) :
    (shared.Covers region.start.toNat ∧ adjustRegion region shared = ⟨shared.stop, region.stop⟩) ∨
    (region.start.toNat < shared.start.toNat ∧ shared.start.toNat < region.stop.toNat ∧
      adjustRegion region shared = ⟨region.start, shared.start⟩) ∨
    (shared.stop.toNat ≤ region.start.toNat ∨ region.stop.toNat ≤ shared.start.toNat) ∧
      adjustRegion region shared = region := by
  simp only [adjustRegion, AddressRange.Covers, UInt64.le_iff_toNat_le, UInt64.lt_iff_toNat_lt]
  by_cases hover : shared.start.toNat ≤ region.start.toNat ∧ region.start.toNat < shared.stop.toNat
  · exact .inl ⟨hover, by rw [if_pos hover, if_neg (by omega)]⟩
  rw [if_neg hover]
  by_cases hinside : region.start.toNat < shared.start.toNat ∧
    shared.start.toNat < region.stop.toNat
  · exact .inr (.inl ⟨hinside.1, hinside.2, by rw [if_pos hinside]⟩)
  · exact .inr (.inr ⟨by omega, by rw [if_neg hinside]⟩)

variable {region : AddressRange} {segEnd start : UInt64} {shared : List AddressRange}

theorem Unshared.adjust (h : Unshared shared start segEnd region) (range : AddressRange) :
    Unshared (shared ++ [range]) start segEnd (adjustRegion region range) := by
  obtain ⟨hstart, hstop, hmoved, hskipped, hapart⟩ := h
  have hearlier : ∀ x, start.toNat ≤ x → x < region.start.toNat → ∃ range' ∈ shared ++ [range],
      range'.Covers x := by
    intro x hlo hhi
    obtain ⟨range', hrange', hcovers⟩ := hskipped x hlo hhi
    exact ⟨range', List.mem_append_left _ hrange', hcovers⟩
  have hsplit : ∀ {p : AddressRange → Prop}, (∀ range' ∈ shared, p range') → p range →
      ∀ range' ∈ shared ++ [range], p range' := by
    intro p hshared hrange range' hmem
    rcases List.mem_append.mp hmem with hmem | hmem
    · exact hshared range' hmem
    · exact List.mem_singleton.mp hmem ▸ hrange
  rcases adjustRegion_cases region range with ⟨hcovers, heq⟩ | ⟨hlo, hhi, heq⟩ | ⟨hclear, heq⟩ <;>
    rw [heq]
  · -- the start moves up, over bytes of the range
    obtain ⟨hlo, hhi⟩ := hcovers
    constructor
    case start_le => dsimp only; omega
    case stop_le => exact hstop
    case moved => dsimp only; omega
    case skipped =>
      intro x hx hxstop
      by_cases hbefore : x < region.start.toNat
      · exact hearlier x hx hbefore
      · exact ⟨range, by simp, by omega, hxstop⟩
    case apart =>
      refine hsplit (fun range' hmem => ?_) (.inl (Nat.le_refl _))
      have := hapart range' hmem
      dsimp only
      omega
  · -- the end moves down
    constructor
    case start_le => exact hstart
    case stop_le => dsimp only; omega
    case moved => dsimp only; omega
    case skipped => exact hearlier
    case apart =>
      refine hsplit (fun range' hmem => ?_) (.inr (Nat.le_refl _))
      have := hapart range' hmem
      dsimp only
      omega
  · exact ⟨hstart, hstop, hmoved, hearlier, hsplit hapart hclear⟩

theorem firstRegion_unshared (shared : List AddressRange) (h : start < segEnd) :
    Unshared shared start segEnd (firstRegion shared start segEnd) := by
  induction shared using List.reverseRecOn with
  | nil =>
    constructor
    case start_le => exact Nat.le_refl _
    case stop_le => exact Nat.le_refl _
    case moved => exact fun _ => UInt64.lt_iff_toNat_lt.mp h
    case skipped => exact fun x hlo hhi => absurd hhi (Nat.not_lt.mpr hlo)
    case apart => simp
  | append_singleton shared range ih =>
    rw [firstRegion, List.foldl_append, List.foldl_cons, List.foldl_nil, ← firstRegion]
    exact ih.adjust range

theorem Unshared.split (h : Unshared shared start segEnd region) (x : Nat) :
    (start.toNat ≤ x ∧ x < segEnd.toNat ∧ ∀ range ∈ shared, ¬ range.Covers x) ↔
      region.start.toNat ≤ x ∧ x < region.stop.toNat ∨
        (region.start.toNat ≤ x ∧ region.stop.toNat ≤ x) ∧ x < segEnd.toNat ∧ ∀ range ∈ shared,
          ¬ range.Covers x := by
  obtain ⟨hstart, hstop, -, hskipped, hapart⟩ := h
  constructor
  · rintro ⟨hlo, hhi, hclear⟩
    have hbehind : region.start.toNat ≤ x := by
      by_contra hbefore
      obtain ⟨range, hrange, hcovers⟩ := hskipped x hlo (Nat.lt_of_not_le hbefore)
      exact hclear range hrange hcovers
    rcases Nat.lt_or_ge x region.stop.toNat with hinside | houtside
    · exact .inl ⟨hbehind, hinside⟩
    · exact .inr ⟨⟨hbehind, houtside⟩, hhi, hclear⟩
  · rintro (⟨hlo, hhi⟩ | ⟨⟨hlo, -⟩, hhi, hclear⟩)
    · refine ⟨by omega, by omega, fun range hrange hcovers => ?_⟩
      have := hapart range hrange
      have := hcovers.1
      have := hcovers.2
      omega
    · exact ⟨by omega, hhi, hclear⟩

/-! ### The loop over the regions -/

def segmentFlagsToAccessFlags (cfg : Config) (flags : UInt32) : UInt32 :=
  (if cfg.aarch64 then PROT_MTE else 0) |||
    (if flags &&& PF_X ≠ 0 then PROT_EXEC else 0) |||
    (if flags &&& PF_W ≠ 0 then PROT_WRITE else 0) |||
    (if flags &&& PF_R ≠ 0 then PROT_READ else 0)

/-- The addresses that are read before a call, one on each page. -/
def probes (call : TagCall) : List UInt64 :=
  (List.range ((call.len.toNat + 4095) / 4096)).map fun i => call.addr + UInt64.ofNat (4096 * i)

/-- Probing the pages of a region and protecting them. -/
def protectRegion (proc : Process) (call : TagCall) : Except ProtectAbort TagCall :=
  match (probes call).find? (fun addr => !proc.readable addr) with
  | some addr => throw (.unreadable addr)
  | none => if proc.mprotectErr call ≠ 0 then throw .mprotectFailed else return call

def protectLoop (proc : Process) (accessFlags : UInt32) (pkey : Int32) (shared : List AddressRange)
    (segEnd start : UInt64) :
    Except ProtectAbort (List TagCall) :=
  if start < segEnd then
    let region := firstRegion shared start segEnd
    if region.start < region.stop then do
      let call ← protectRegion proc ⟨region.start, region.stop - region.start, accessFlags, pkey⟩
      return call :: (← protectLoop proc accessFlags pkey shared segEnd region.stop)
    else protectLoop proc accessFlags pkey shared segEnd region.start
  else return []
termination_by segEnd.toNat - start.toNat
decreasing_by
  all_goals
    rename_i hstart hregion
    have hunshared := firstRegion_unshared shared hstart
    have hle := hunshared.start_le
    have hmoved := hunshared.moved
    rw [UInt64.lt_iff_toNat_lt] at hstart hregion
    simp only [region] at hregion ⊢
    omega

def protectSegment (proc : Process) (cfg : Config) (shared : List AddressRange) (info : DlPhdrInfo)
    (pkey : Int32) (phdr : Phdr) :
    Except ProtectAbort (List TagCall) :=
  if phdr.pType ≠ PT_LOAD then return []
  else if phdr.pFlags &&& PF_W = 0 then return []
  else
    let pages := pageRange info phdr
    protectLoop proc (segmentFlagsToAccessFlags cfg phdr.pFlags) pkey shared pages.stop pages.start

/-- Whether the object is the loader or the C library, while compartment 1 is being set up. -/
def isSyslib (info : DlPhdrInfo) (pkey : Int32) : Bool :=
  let libname := basename info.dlpiName
  let isLdso := libname = "ld-linux-x86-64.so.2" ∨ libname = "ld-linux-aarch64.so.1"
  let isLibc := "libc.so".toList <:+: libname.toList
  decide ((isLdso ∨ isLibc) ∧ pkey = 1)

/-- The calls that `protect_pages` makes for an object, if it does not skip the object. -/
def protectPages (proc : Process) (cfg : Config) (info : DlPhdrInfo) (args : PhdrSearchArgs) :
    Except ProtectAbort (PhdrSearchArgs × Option (List TagCall)) := do
  let extra := inExtraLibraries info args.extraLibraries
  let syslib := cfg.libcCompartment && isSyslib info args.pkey
  if !inLoadedSegment info args.address && !extra && !syslib then
    return (args, none)
  let args := if extra then { args with foundLibraryCount := args.foundLibraryCount + 1 } else args
  let shared ← sharedRanges info args
  if MAX_NUM_PHDRS < info.dlpiPhdr.length then
    throw .assertFailed
  let calls ← info.dlpiPhdr.mapM (protectSegment proc cfg shared info args.pkey)
  return (args, some calls.flatten)

/-! ### What is protected -/

theorem protects_cons (call : TagCall) (calls : List TagCall) (x : Nat) :
    Protects (call :: calls) x ↔ call.addr.toNat ≤ x ∧ x < call.addr.toNat + call.len.toNat ∨
      Protects calls x := by
  simp only [Protects, List.mem_cons, exists_eq_or_imp]

section Loop

variable (proc : Process) (accessFlags : UInt32) (pkey : Int32) (shared : List AddressRange)

theorem protectLoop_spec (segEnd start : UInt64) :
    ∃ calls, protectLoop proc accessFlags pkey shared segEnd start =
      calls.mapM (protectRegion proc) ∧
      (∀ call ∈ calls, start.toNat ≤ call.addr.toNat ∧ call.prot = accessFlags ∧ call.tag = pkey) ∧
      calls.Pairwise (fun call next => call.addr.toNat + call.len.toNat ≤ next.addr.toNat) ∧
      ∀ x, Protects calls x ↔ start.toNat ≤ x ∧ x < segEnd.toNat ∧ ∀ range ∈ shared,
        ¬ range.Covers x := by
  induction start using protectLoop.induct shared segEnd with
  | case1 start h region hregion ih =>
    have hunshared : Unshared shared start segEnd region := firstRegion_unshared shared h
    obtain ⟨calls, heq, hcalls, hascending, hprotects⟩ := ih
    have hstart := hunshared.start_le
    have hlen := UInt64.toNat_sub_of_le _ _ (UInt64.le_of_lt hregion)
    have hlt := UInt64.lt_iff_toNat_lt.mp hregion
    refine ⟨⟨region.start, region.stop - region.start, accessFlags, pkey⟩ :: calls, ?_, ?_, ?_,
      fun x => ?_⟩
    · rw [protectLoop, if_pos h, List.mapM_cons, ← heq]
      exact if_pos hregion
    · rw [List.forall_mem_cons]
      refine ⟨⟨hstart, rfl, rfl⟩, fun call hcall => ⟨?_, (hcalls call hcall).2⟩⟩
      have := (hcalls call hcall).1
      omega
    · refine .cons (fun call hcall => ?_) hascending
      have := (hcalls call hcall).1
      dsimp only
      omega
    · have hbehind : region.start.toNat ≤ x ∧ region.stop.toNat ≤ x ↔
        region.stop.toNat ≤ x := by omega
      rw [protects_cons, hunshared.split, hprotects, hbehind]
      dsimp only
      rw [hlen, Nat.add_sub_cancel' (Nat.le_of_lt hlt)]
  | case2 start h region hregion ih =>
    have hunshared : Unshared shared start segEnd region := firstRegion_unshared shared h
    obtain ⟨calls, heq, hcalls, hascending, hprotects⟩ := ih
    have hstart := hunshared.start_le
    have hle := UInt64.lt_iff_toNat_lt.not.mp hregion
    refine ⟨calls, ?_, fun call hcall => ⟨?_, (hcalls call hcall).2⟩, hascending, fun x => ?_⟩
    · rw [protectLoop, if_pos h]
      exact (if_neg hregion).trans heq
    · have := (hcalls call hcall).1
      omega
    · have hinside : ¬ (region.start.toNat ≤ x ∧ x < region.stop.toNat) := by omega
      have hbehind : region.start.toNat ≤ x ∧ region.stop.toNat ≤ x ↔
        region.start.toNat ≤ x := by omega
      rw [hunshared.split, hprotects, hbehind, or_iff_right hinside]
  | case3 start h =>
    refine ⟨[], ?_, by simp, .nil, fun x => ?_⟩
    · rw [protectLoop, if_neg h, List.mapM_nil]
    · rw [UInt64.lt_iff_toNat_lt] at h
      simp only [Protects, List.not_mem_nil, false_and, exists_false, false_iff]
      omega

end Loop

variable {proc : Process}

theorem protectRegion_ok {call : TagCall}
    (h : (∀ addr ∈ probes call, proc.readable addr = true) ∧ proc.mprotectErr call = 0) :
    protectRegion proc call = .ok call := by
  have hnone : (probes call).find? (fun addr => !proc.readable addr) = none :=
    List.find?_eq_none.mpr fun addr haddr => by simp [h.1 addr haddr]
  rw [protectRegion, hnone]
  exact if_neg (not_not.mpr h.2)

theorem mapM_protectRegion {calls : List TagCall}
    (h : ∀ call ∈ calls, (∀ addr ∈ probes call, proc.readable addr = true) ∧
    proc.mprotectErr call = 0) :
    calls.mapM (protectRegion proc) = .ok calls := by
  induction calls with
  | nil => rfl
  | cons call calls ih =>
    obtain ⟨hcall, hcalls⟩ := List.forall_mem_cons.mp h
    rw [List.mapM_cons, protectRegion_ok hcall, ih hcalls]
    rfl

/-- The pages of a writable segment are protected, except for those that are shared: no page is
missed, and none is protected twice. The calls are given with the result that making them one after
the other has, since a call that fails ends the program; all of them are made if their pages can be
read and none fails. -/
theorem protectSegment_exact (proc : Process) (cfg : Config) (shared : List AddressRange)
    (info : DlPhdrInfo) (pkey : Int32) (phdr : Phdr) (hload : phdr.pType = PT_LOAD)
    (hwritable : phdr.pFlags &&& PF_W ≠ 0)
    (hfits : (info.dlpiAddr + phdr.pVaddr).toNat + phdr.pMemsz.toNat + 0xFFF < 2 ^ 64) :
    ∃ calls, protectSegment proc cfg shared info pkey phdr = calls.mapM (protectRegion proc) ∧
      ((∀ call ∈ calls,
          (∀ addr ∈ probes call, proc.readable addr = true) ∧ proc.mprotectErr call = 0) →
        protectSegment proc cfg shared info pkey phdr = .ok calls) ∧
      (∀ call ∈ calls, call.prot = segmentFlagsToAccessFlags cfg phdr.pFlags ∧ call.tag = pkey) ∧
      calls.Pairwise (fun call next => call.addr.toNat + call.len.toNat ≤ next.addr.toNat) ∧
      ∀ x, Protects calls x ↔
        (info.dlpiAddr + phdr.pVaddr).toNat / 4096 * 4096 ≤ x ∧
          x < ((info.dlpiAddr + phdr.pVaddr).toNat + phdr.pMemsz.toNat + 0xFFF) / 4096 * 4096 ∧
          ∀ range ∈ shared, ¬ range.Covers x := by
  obtain ⟨calls, heq, hcalls, hascending, hprotects⟩ :=
    protectLoop_spec proc (segmentFlagsToAccessFlags cfg phdr.pFlags) pkey shared
    (pageRange info phdr).stop (pageRange info phdr).start
  have hstart : (pageRange info phdr).start.toNat =
    (info.dlpiAddr + phdr.pVaddr).toNat / 4096 * 4096 := toNat_clear_low12 _
  have hstop : (pageRange info phdr).stop.toNat =
      ((info.dlpiAddr + phdr.pVaddr).toNat + phdr.pMemsz.toNat + 0xFFF) / 4096 * 4096 := by
    rw [pageRange, toNat_clear_low12, UInt64.toNat_add, UInt64.toNat_add _ phdr.pMemsz,
      show (0xFFF : UInt64).toNat = 0xFFF from rfl]
    omega
  have hsegment : protectSegment proc cfg shared info pkey phdr =
      calls.mapM (protectRegion proc) := by
    rw [protectSegment, if_neg (not_not.mpr hload), if_neg hwritable, heq]
  refine ⟨calls, hsegment, ?_, fun call hcall => (hcalls call hcall).2, hascending, ?_⟩
  · intro hsucceeds
    rw [hsegment, mapM_protectRegion hsucceeds]
  · rw [← hstart, ← hstop]
    exact hprotects

/-- A process in which every page can be read and every call succeeds. -/
def obliging : Process where
  readable _ := true
  mprotectErr _ := 0

/-- A data segment of four pages, of which the middle two are shared by ranges that overlap. -/
theorem protectSegment_exact_overlapping :
    ∃ calls, protectSegment obliging {} [⟨0x12000, 0x13000⟩, ⟨0x11000, 0x13000⟩]
        ⟨0x10000, "libdata.so", [], 0⟩ 2 ⟨PT_LOAD, 0x123, 0x2f00, PF_R ||| PF_W⟩ = .ok calls ∧
      Protects calls 0x10000 ∧ ¬ Protects calls 0x11000 ∧ ¬ Protects calls 0x12fff ∧
      Protects calls 0x13fff ∧ ¬ Protects calls 0x14000 := by
  obtain ⟨calls, -, hok, -, -, hprotects⟩ := protectSegment_exact obliging {}
    [⟨0x12000, 0x13000⟩, ⟨0x11000, 0x13000⟩] ⟨0x10000, "libdata.so", [], 0⟩ 2
    ⟨PT_LOAD, 0x123, 0x2f00, PF_R ||| PF_W⟩ rfl (by decide) (by decide)
  exact ⟨calls, hok fun _ _ => ⟨fun _ _ => rfl, rfl⟩, by simp only [hprotects]; decide⟩

end Ia2.Runtime
