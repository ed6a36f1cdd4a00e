import Mathlib.Data.List.Basic
import Mathlib.Tactic.Common

/-!
# Rewriting a dynamic table

`ia2_setup_destructors` goes through the dynamic table of its object, saves what it finds under
`DT_FINI`, `DT_FINI_ARRAY` and `DT_FINI_ARRAYSZ` in `finalizers`, and puts other values there.

The table is read-only, so the page of an entry is made writable before the entry is changed, and
one page at a time. The pages of `finalizers` are writable throughout. The test whether the page of
an entry is already the writable one is the wrong way around: an entry behind that page is taken to
be on it, so the store to it faults, while for an entry on it the page is locked and opened again.
What was made writable is read-only again at the end.
-/

namespace Ia2.Destructors

def DT_NULL : UInt64 := 0
def DT_FINI : UInt64 := 13
def DT_FINI_ARRAY : UInt64 := 26
def DT_FINI_ARRAYSZ : UInt64 := 28

def PAGE_SIZE : Nat := 4096

structure Dyn where
  dTag : UInt64
  dVal : UInt64
deriving DecidableEq, Repr

/-- What `ia2_setup_destructors` uses of a loaded object: the addresses of the ELF header, of the
gate to the destructor, of the pointer to that gate, of `finalizers` and of the dynamic table.
`writable` says of each page, by its address, whether it can be written before the rewriting. -/
structure Image where
  ehdrStart : UInt64
  wrapDestructor : UInt64
  destructorPtr : UInt64
  finalizers : Nat
  dynamic : Nat
  table : List Dyn
  writable : Nat → Bool
  /-- Nothing is on the page of the null pointer. -/
  mapped : PAGE_SIZE ≤ dynamic

/-! ### Rewriting the table -/

structure FinalizerInfo where
  finiOffset : UInt64 := 0
  finiArrayOffset : UInt64 := 0
  finiArraySize : UInt64 := 0
deriving DecidableEq, Repr

def roundDown (addr : Nat) : Nat := addr / PAGE_SIZE * PAGE_SIZE

def storable (writable : Nat → Bool) (addr : Nat) :
    Bool := writable (roundDown addr) && writable (roundDown (addr + 7))

def protect (writable : Nat → Bool) (base size : Nat) (write : Bool) : Nat → Bool := fun page =>
  if base ≤ page ∧ page < base + size then write else writable page

namespace Image

variable (img : Image)

def finalizersRegion : Nat := roundDown img.finalizers

def finalizersRegionSize : Nat := roundDown (img.finalizers + 24 + PAGE_SIZE) - img.finalizersRegion

def valueAddr (i : Nat) : Nat := img.dynamic + 16 * i + 8

def isFini (tag : UInt64) : Bool := tag = DT_FINI ∨ tag = DT_FINI_ARRAY ∨ tag = DT_FINI_ARRAYSZ

def saveOffset (tag : UInt64) : Nat := if tag = DT_FINI then 0 else if tag = DT_FINI_ARRAY
    then 8 else 16

def save (info : FinalizerInfo) (dyn : Dyn) : FinalizerInfo :=
  if dyn.dTag = DT_FINI then { info with finiOffset := dyn.dVal }
  else if dyn.dTag = DT_FINI_ARRAY then { info with finiArrayOffset := dyn.dVal }
  else if dyn.dTag = DT_FINI_ARRAYSZ then { info with finiArraySize := dyn.dVal }
  else info

def replace (dyn : Dyn) : Dyn :=
  if dyn.dTag = DT_FINI then { dyn with dVal := img.wrapDestructor - img.ehdrStart }
  else if dyn.dTag = DT_FINI_ARRAY then { dyn with dVal := img.destructorPtr - img.ehdrStart }
  else if dyn.dTag = DT_FINI_ARRAYSZ then { dyn with dVal := 1 }
  else dyn

end Image

structure SetupState where
  rewriteBase : Option Nat
  writable : Nat → Bool
  finalizers : FinalizerInfo

namespace Image

variable (img : Image)

def openPage (i : Nat) (st : SetupState) : Option SetupState :=
  let addr := img.valueAddr i
  let next := img.dynamic + 16 * (i + 1)
  let inFinalizersMapping := img.finalizersRegion ≤ addr ∧
    next ≤ img.finalizersRegion + img.finalizersRegionSize
  let inDynamicMapping := ∃ base ∈ st.rewriteBase, base + PAGE_SIZE ≤ addr
  if ¬ inFinalizersMapping ∧ ¬ inDynamicMapping then
    let writable := match st.rewriteBase with
      | some base => protect st.writable base PAGE_SIZE false
      | none => st.writable
    if next - roundDown addr ≤ PAGE_SIZE then
      some
        { st with
            rewriteBase := some (roundDown addr)
            writable := protect writable (roundDown addr) PAGE_SIZE true }
    else none
  else some st

def rewriteEntry (i : Nat) (dyn : Dyn) (st : SetupState) : Option (Dyn × SetupState) :=
  if isFini dyn.dTag then do
    let st ← img.openPage i st
    if storable st.writable (img.finalizers + saveOffset dyn.dTag) ∧
      storable st.writable (img.valueAddr i) then
      some (img.replace dyn, { st with finalizers := save st.finalizers dyn })
    else none
  else some (dyn, st)

def rewriteEntries : Nat → List Dyn → SetupState → Option (List Dyn × SetupState)
  | _, [], st => some ([], st)
  | i, dyn :: rest, st => do
    let (dyn, st) ← img.rewriteEntry i dyn st
    let (rest, st) ← rewriteEntries (i + 1) rest st
    return (dyn :: rest, st)

def rewriteTable : Option (List Dyn × SetupState) :=
  let writable := protect img.writable img.finalizersRegion img.finalizersRegionSize true
  img.rewriteEntries 0 img.table { rewriteBase := none, writable, finalizers := {} }

def relock (st : SetupState) : Nat → Bool :=
  let writable := match st.rewriteBase with
    | some base => protect st.writable base PAGE_SIZE false
    | none => st.writable
  protect writable img.finalizersRegion img.finalizersRegionSize false

def setupDestructors : Option (List Dyn × FinalizerInfo) := do
  let (table, st) ← img.rewriteTable
  return (table, st.finalizers)

/-- The pages that are writable when `ia2_setup_destructors` returns. -/
def pagesAfter : Option (Nat → Bool) := do
  let (_, st) ← img.rewriteTable
  return img.relock st

/-! ### Pages

The pages that the loop has made writable are those of `finalizers` and the page of the first entry
elsewhere. -/

def InRegion (page : Nat) :
    Prop := img.finalizersRegion ≤ page ∧ page < img.finalizersRegion + img.finalizersRegionSize

instance decidableInRegion (page : Nat) : Decidable (img.InRegion page) :=
  inferInstanceAs (Decidable (_ ∧ _))

/-- The value of each entry that is rewritten is on one page, from the `i`th entry on. -/
def Within : Nat → List Dyn → Prop
  | _, [] => True
  | i, dyn :: rest =>
    (isFini dyn.dTag → img.valueAddr i + 8 ≤ roundDown (img.valueAddr i) + PAGE_SIZE) ∧
      Within (i + 1) rest

/-- The pages of the entries that are rewritten, outside those of `finalizers`. -/
def finiPages : Nat → List Dyn → List Nat
  | _, [] => []
  | i, dyn :: rest =>
    if isFini dyn.dTag ∧ ¬ img.InRegion (roundDown (img.valueAddr i))
      then roundDown (img.valueAddr i) :: finiPages (i + 1) rest
    else finiPages (i + 1) rest

/-- Every entry that is rewritten is on the page of the first one or on one that can be written
anyway. -/
def Faultless : Prop :=
  ∀ page ∈ img.finiPages 0 img.table, some page = (img.finiPages 0 img.table).head? ∨
    img.writable page = true

def openPages (rewriteBase : Option Nat) : Nat → Bool := fun page =>
  img.InRegion page ∨ (∃ base ∈ rewriteBase, base ≤ page ∧ page < base + PAGE_SIZE) ∨
    img.writable page = true

structure Ready (i : Nat) (st : SetupState) : Prop where
  writable : st.writable = img.openPages st.rewriteBase
  base : ∀ base ∈ st.rewriteBase, base ≤ img.valueAddr i ∧ base % PAGE_SIZE = 0

theorem ready_start : img.Ready 0
    { rewriteBase := none
      writable := protect img.writable img.finalizersRegion img.finalizersRegionSize true
      finalizers := {} } := by
  refine ⟨?_, by simp⟩
  funext page
  by_cases hin : img.finalizersRegion ≤ page ∧
    page < img.finalizersRegion + img.finalizersRegionSize
  · simp [protect, openPages, InRegion, hin]
  · simp [protect, openPages, InRegion, hin]

variable {img}

theorem Ready.next {i : Nat} {st : SetupState} (h : img.Ready i st) : img.Ready (i + 1) st := by
  refine ⟨h.writable, fun base hbase => ⟨?_, (h.base base hbase).2⟩⟩
  have hle := (h.base base hbase).1
  simp only [valueAddr] at hle ⊢
  omega

theorem inRegion_finalizers {addr : Nat} (hlo : img.finalizers ≤ addr)
    (hhi : addr < img.finalizers + 24) :
    img.InRegion (roundDown addr) := by
  simp only [InRegion, finalizersRegionSize, finalizersRegion, roundDown, PAGE_SIZE]
  omega

theorem saveOffset_le (tag : UInt64) : saveOffset tag ≤ 16 := by
  simp only [saveOffset]
  split_ifs <;> omega

variable {i : Nat} {st : SetupState} {dyn : Dyn}

theorem inFinalizersMapping_iff
    (hwithin : img.valueAddr i + 8 ≤ roundDown (img.valueAddr i) + PAGE_SIZE) :
    (img.finalizersRegion ≤ img.valueAddr i ∧ img.dynamic + 16 * (i + 1) ≤
      img.finalizersRegion + img.finalizersRegionSize) ↔
      img.InRegion (roundDown (img.valueAddr i)) := by
  simp only [InRegion, finalizersRegionSize, finalizersRegion, roundDown, PAGE_SIZE, valueAddr]
    at hwithin ⊢
  omega

variable {base page : Nat}

theorem openPages_some (h : ¬ (base ≤ page ∧ page < base + PAGE_SIZE)) :
    img.openPages (some base) page = img.openPages none page := by
  simp [openPages, h]

theorem protect_openPages {writable : Nat → Bool}
    (h : ∀ page, ¬ (base ≤ page ∧ page < base + PAGE_SIZE) →
    writable page = img.openPages none page) :
    protect writable base PAGE_SIZE true = img.openPages (some base) := by
  funext page
  by_cases hin : base ≤ page ∧ page < base + PAGE_SIZE
  · simp [protect, openPages, hin]
  · rw [protect, if_neg hin, h page hin, openPages_some hin]

theorem Ready.openPage (h : img.Ready i st)
    (hwithin : img.valueAddr i + 8 ≤ roundDown (img.valueAddr i) + PAGE_SIZE) :
    ∃ st', img.openPage i st = some st' ∧ img.Ready i st' ∧ st'.finalizers = st.finalizers ∧
      st'.rewriteBase =
        if img.InRegion (roundDown (img.valueAddr i)) then st.rewriteBase
          else st.rewriteBase.or (some (roundDown (img.valueAddr i))) := by
  have hassert : img.dynamic + 16 * (i + 1) - roundDown (img.valueAddr i) ≤ PAGE_SIZE := by
    simp only [roundDown, PAGE_SIZE, valueAddr] at hwithin ⊢
    omega
  have hpage : roundDown (img.valueAddr i) ≤ img.valueAddr i ∧
      roundDown (img.valueAddr i) % PAGE_SIZE = 0 := by
    simp only [roundDown, PAGE_SIZE]
    omega
  by_cases hin : img.InRegion (roundDown (img.valueAddr i))
  · refine ⟨st, ?_, h, rfl, by rw [if_pos hin]⟩
    simp only [Image.openPage, inFinalizersMapping_iff hwithin, hin]
    simp
  · rw [if_neg hin]
    obtain ⟨rewriteBase, writable, finalizers⟩ := st
    obtain ⟨hwritable, hbases⟩ := h
    simp only at hwritable hbases ⊢
    subst hwritable
    simp only [Image.openPage, inFinalizersMapping_iff hwithin, hin, not_false_eq_true, true_and,
      if_pos hassert]
    cases rewriteBase with
    | none =>
      refine ⟨⟨some (roundDown (img.valueAddr i)),
        img.openPages (some (roundDown (img.valueAddr i))), finalizers⟩, ?_,
        ⟨rfl, by simpa using hpage⟩, rfl, rfl⟩
      have hfirst : protect (img.openPages none) (roundDown (img.valueAddr i)) PAGE_SIZE true =
          img.openPages (some (roundDown (img.valueAddr i))) := protect_openPages fun _ _ => rfl
      simp [hfirst]
    | some base =>
      obtain ⟨hle, hmod⟩ := hbases base rfl
      refine ⟨⟨some base, img.openPages (some base), finalizers⟩, ?_,
        ⟨rfl, by simpa using ⟨hle, hmod⟩⟩, rfl, rfl⟩
      by_cases hsame : roundDown (img.valueAddr i) = base
      · have hnot : ¬ base + PAGE_SIZE ≤ img.valueAddr i := by
          simp only [roundDown, PAGE_SIZE] at hsame ⊢
          omega
        have hagain : protect (protect (img.openPages (some base)) base PAGE_SIZE false) base
            PAGE_SIZE true = img.openPages (some base) :=
          protect_openPages fun page hout => by rw [protect, if_neg hout, openPages_some hout]
        simp [hnot, hsame, hagain]
      · have hlater : base + PAGE_SIZE ≤ img.valueAddr i := by
          simp only [roundDown, PAGE_SIZE] at hsame hmod ⊢
          omega
        simp [hlater]

/-! ### The loop -/

theorem Ready.rewriteEntry (h : img.Ready i st) (hfini : isFini dyn.dTag = true)
    (hwithin : img.valueAddr i + 8 ≤ roundDown (img.valueAddr i) + PAGE_SIZE) :
    ∃ st', img.Ready (i + 1) st' ∧ st'.finalizers = save st.finalizers dyn ∧
      st'.rewriteBase = (if img.InRegion (roundDown (img.valueAddr i)) then st.rewriteBase
        else st.rewriteBase.or (some (roundDown (img.valueAddr i)))) ∧
      img.rewriteEntry i dyn st =
        if img.InRegion (roundDown (img.valueAddr i)) ∨
          some (roundDown (img.valueAddr i)) = st'.rewriteBase ∨
          img.writable (roundDown (img.valueAddr i)) = true then some (img.replace dyn, st')
            else none := by
  obtain ⟨st₁, hopen, hready, hsaved, hbase⟩ := h.openPage hwithin
  refine ⟨{ st₁ with finalizers := save st₁.finalizers dyn },
    ⟨hready.next.writable, hready.next.base⟩, by rw [hsaved], hbase, ?_⟩
  have hsave : storable st₁.writable (img.finalizers + saveOffset dyn.dTag) = true := by
    have hle := saveOffset_le dyn.dTag
    have hfirst : img.InRegion (roundDown (img.finalizers + saveOffset dyn.dTag)) :=
      inRegion_finalizers (by omega) (by omega)
    have hlast : img.InRegion (roundDown (img.finalizers + saveOffset dyn.dTag + 7)) :=
      inRegion_finalizers (by omega) (by omega)
    simp [storable, hready.writable, openPages, hfirst, hlast]
  have hvalue : storable st₁.writable (img.valueAddr i) =
      st₁.writable (roundDown (img.valueAddr i)) := by
    have hlast : roundDown (img.valueAddr i + 7) = roundDown (img.valueAddr i) := by
      simp only [roundDown, PAGE_SIZE] at hwithin ⊢
      omega
    rw [storable, hlast, Bool.and_self]
  have hpage : st₁.writable (roundDown (img.valueAddr i)) = true ↔
    img.InRegion (roundDown (img.valueAddr i)) ∨
      some (roundDown (img.valueAddr i)) = st₁.rewriteBase ∨
      img.writable (roundDown (img.valueAddr i)) = true := by
    rw [hready.writable, openPages, decide_eq_true_iff]
    refine or_congr_right (or_congr_left ⟨?_, ?_⟩)
    · rintro ⟨base, hmem, hle, hlt⟩
      have hmod := (hready.base base hmem).2
      have heq : roundDown (img.valueAddr i) = base := by
        simp only [roundDown, PAGE_SIZE] at hle hlt hmod ⊢
        omega
      rw [heq]
      exact hmem.symm
    · intro hmem
      exact ⟨_, hmem.symm, Nat.le_refl _, Nat.lt_add_of_pos_right (Nat.succ_pos _)⟩
  simp only [Image.rewriteEntry, hfini, if_true, hopen, Option.bind_eq_bind, Option.bind_some,
    hsave, true_and, hvalue, hpage]

/-- The open page once the first of the pages has been opened. -/
def firstPage (rewriteBase : Option Nat) (pages : List Nat) : Option Nat :=
  rewriteBase.or pages.head?

def Covered (img : Image) (rewriteBase : Option Nat) (pages : List Nat) : Prop :=
  ∀ page ∈ pages, some page = firstPage rewriteBase pages ∨ img.writable page = true

theorem covered_finiPages_cons (hfini : isFini dyn.dTag = true) (rest : List Dyn)
    {rewriteBase rewriteBase' : Option Nat}
    (hbase : rewriteBase' = if img.InRegion (roundDown (img.valueAddr i)) then rewriteBase
    else rewriteBase.or (some (roundDown (img.valueAddr i)))) :
    img.Covered rewriteBase (img.finiPages i (dyn :: rest)) ↔
      (img.InRegion (roundDown (img.valueAddr i)) ∨ some (roundDown (img.valueAddr i)) =
        rewriteBase' ∨ img.writable (roundDown (img.valueAddr i)) = true) ∧
        img.Covered rewriteBase' (img.finiPages (i + 1) rest) := by
  by_cases hin : img.InRegion (roundDown (img.valueAddr i))
  · simp [Covered, finiPages, hin, hbase]
  · have hfirst : firstPage rewriteBase (img.finiPages i (dyn :: rest)) = rewriteBase' := by
      simp [firstPage, finiPages, hfini, hin, hbase]
    have hopen : firstPage rewriteBase' (img.finiPages (i + 1) rest) = rewriteBase' := by
      rw [hbase, if_neg hin, firstPage]
      cases rewriteBase <;> rfl
    rw [Covered, Covered, hfirst, hopen]
    simp [finiPages, hfini, hin]

theorem Ready.rewriteEntries (h : img.Ready i st) {table : List Dyn}
    (hwithin : img.Within i table) :
    (img.Covered st.rewriteBase (img.finiPages i table) →
      ∃ st', img.rewriteEntries i table st = some (table.map img.replace, st') ∧
        st'.finalizers = table.foldl save st.finalizers ∧
        st'.writable = img.openPages st'.rewriteBase) ∧
    (¬ img.Covered st.rewriteBase (img.finiPages i table) →
      img.rewriteEntries i table st = none) := by
  induction table generalizing i st with
  | nil => simp [Covered, finiPages, Image.rewriteEntries, h.writable]
  | cons dyn rest ih =>
    by_cases hfini : isFini dyn.dTag = true
    case neg =>
      have hreplace : img.replace dyn = dyn := by simp_all [isFini, replace]
      have hsave : save st.finalizers dyn = st.finalizers := by simp_all [isFini, save]
      have hpages : img.finiPages i (dyn :: rest) = img.finiPages (i + 1) rest := by
        simp [finiPages, hfini]
      obtain ⟨hgood, hbad⟩ := ih h.next hwithin.2
      simp only [Image.rewriteEntries, Image.rewriteEntry, hfini, hpages, Bool.false_eq_true,
        if_false, Option.bind_eq_bind,
        Option.bind_some, List.map_cons, List.foldl_cons, hreplace, hsave]
      refine ⟨fun hok => ?_, fun hnot => by rw [hbad hnot]; rfl⟩
      obtain ⟨st', hrun, hsaved⟩ := hgood hok
      exact ⟨st', by rw [hrun]; rfl, hsaved⟩
    case pos =>
      obtain ⟨st₁, hready, hsaved, hbase, hrun⟩ := h.rewriteEntry hfini (hwithin.1 hfini)
      obtain ⟨hgood, hbad⟩ := ih hready hwithin.2
      rw [covered_finiPages_cons hfini rest hbase]
      simp only [Image.rewriteEntries, hrun, List.map_cons, List.foldl_cons, ← hsaved]
      constructor
      · rintro ⟨hpage, hrest⟩
        obtain ⟨st', hrun', hsaved'⟩ := hgood hrest
        exact ⟨st', by simp [hpage, hrun'], hsaved'⟩
      · intro hnot
        split
        case isTrue hpage => simp [hbad fun hrest => hnot ⟨hpage, hrest⟩]
        case isFalse => rfl

theorem rewriteTable_of_faultless (hwithin : img.Within 0 img.table) (h : img.Faultless) :
    ∃ st, img.rewriteTable = some (img.table.map img.replace, st) ∧
      st.finalizers = img.table.foldl save {} ∧
      st.writable = img.openPages st.rewriteBase :=
  (img.ready_start.rewriteEntries hwithin).1 h

theorem rewriteTable_of_not_faultless (hwithin : img.Within 0 img.table) (h : ¬ img.Faultless) :
    img.rewriteTable = none :=
  (img.ready_start.rewriteEntries hwithin).2 h

theorem protect_false (writable : Nat → Bool) (base size page : Nat) :
    protect writable base size false page = true ↔
      ¬ (base ≤ page ∧ page < base + size) ∧ writable page = true := by
  by_cases hin : base ≤ page ∧ page < base + size <;> simp [protect, hin]

theorem relock_of_openPages (hwritable : st.writable = img.openPages st.rewriteBase)
    (h : img.relock st page = true) : img.writable page = true := by
  rw [relock, protect_false] at h
  obtain ⟨hregion, hopen⟩ := h
  rw [hwritable] at hopen
  cases hbase : st.rewriteBase with
  | none => simpa [hbase, openPages, InRegion, hregion] using hopen
  | some base =>
    simp only [hbase, protect_false] at hopen
    obtain ⟨hpage, hopen⟩ := hopen
    simpa [openPages, InRegion, hregion, hpage] using hopen

end Image

/-- With all pages read-only at first, every store goes to a page that was made writable, and all
pages are read-only in the end, exactly if the entries that are rewritten are on one page, those in
the pages of `finalizers` apart. -/
theorem stores_open_iff (img : Image) (hreadonly : ∀ page, img.writable page = false)
    (hwithin : img.Within 0 img.table) :
    (∃ pages, img.pagesAfter = some pages ∧ ∀ page, pages page = false) ↔
      ∀ page ∈ img.finiPages 0 img.table, some page = (img.finiPages 0 img.table).head? := by
  have hfaultless : (∀ page ∈ img.finiPages 0 img.table,
      some page = (img.finiPages 0 img.table).head?) ↔ img.Faultless := by
    simp only [Image.Faultless, hreadonly, Bool.false_eq_true, or_false]
  rw [hfaultless]
  constructor
  · rintro ⟨pages, hpages, -⟩
    by_contra hfault
    rw [Image.pagesAfter, Image.rewriteTable_of_not_faultless hwithin hfault] at hpages
    cases hpages
  · intro h
    obtain ⟨st, hrun, -, hwritable⟩ := Image.rewriteTable_of_faultless hwithin h
    refine ⟨img.relock st, by rw [Image.pagesAfter, hrun]; rfl,
      fun page => Bool.eq_false_iff.mpr fun hopen => ?_⟩
    exact absurd (Image.relock_of_openPages hwritable hopen) (Bool.eq_false_iff.mp (hreadonly page))

/-- An object with a table of three entries at `dynamic`, with everything read-only. -/
def tableAt (dynamic : Nat) (mapped : PAGE_SIZE ≤ dynamic) : Image where
  ehdrStart := 0x10000
  wrapDestructor := 0x11000
  destructorPtr := 0x13000
  finalizers := 0x12000
  dynamic := dynamic
  table := [⟨DT_FINI, 0x800⟩, ⟨DT_FINI_ARRAY, 0x5000⟩, ⟨DT_FINI_ARRAYSZ, 8⟩]
  writable _ := false
  mapped := mapped

theorem stores_open_iff_one_page :
    ∃ pages, (tableAt 0x14000 (by decide)).pagesAfter = some pages ∧ ∀ page, pages page = false :=
  (stores_open_iff (tableAt 0x14000 (by decide)) (fun _ => rfl)
    (by simp [Image.Within, tableAt, Image.valueAddr, roundDown, PAGE_SIZE])).mpr
    (by decide)

/-- The table crosses a page after its first entry: the store to the second one faults. -/
theorem stores_closed_page :
    (tableAt 0x14ff0 (by decide)).Within 0 (tableAt 0x14ff0 (by decide)).table ∧
      (tableAt 0x14ff0 (by decide)).pagesAfter = none := by
  refine ⟨by simp [Image.Within, tableAt, Image.valueAddr, roundDown, PAGE_SIZE], rfl⟩

end Ia2.Destructors
