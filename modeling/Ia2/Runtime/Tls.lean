import Mathlib.Algebra.Group.Nat.Defs
import Mathlib.Data.List.Basic
import Mathlib.Tactic.Common

/-!
# Protecting thread-local storage

Each compartment's TLS block is padded by one page before it is loaded (`patch_tls` of pad-tls) and
then protected, in whole pages, with the compartment's key (`protect_tls_pages` of the runtime).
Neighbouring blocks share pages, and `ia2_stackptr_0` lies in one of them although every compartment
has to reach it. The padding is what keeps the pages of different blocks apart: rounding a block's
start down reaches only the padding of the block below.
-/

namespace Ia2.Runtime

def PT_LOAD : UInt32 := 1
def PT_TLS : UInt32 := 7

/-- The fields of a program header that pad-tls and the runtime use. -/
structure Phdr where
  pType : UInt32
  pVaddr : UInt64
  pMemsz : UInt64
  pFlags : UInt32
deriving DecidableEq, Repr

/-! ### Padding a TLS segment -/

def ELFMAG : List UInt8 := [0x7f, 0x45, 0x4c, 0x46]
def EM_X86_64 : UInt16 := 62
def EM_AARCH64 : UInt16 := 183

structure Elf where
  eIdent : List UInt8
  eMachine : UInt16
  phdrs : List Phdr
deriving DecidableEq, Repr

inductive PatchResult where
  | success
  | badMagic
  | wrongArch
  | noTls
deriving DecidableEq, Repr

def patchPhdrs (delta : UInt64) : List Phdr → Option (List Phdr × UInt64)
  | [] => none
  | phdr :: rest =>
    if phdr.pType = PT_TLS then
      some ({ phdr with pMemsz := phdr.pMemsz + delta } :: rest, phdr.pMemsz + delta)
    else (patchPhdrs delta rest).map fun (rest, size) => (phdr :: rest, size)

def patchTls (elf : Elf) (delta : UInt64) : PatchResult × Elf × Option UInt64 :=
  if elf.eIdent.take 4 ≠ ELFMAG then (.badMagic, elf, none)
  else if elf.eMachine ≠ EM_X86_64 ∧ elf.eMachine ≠ EM_AARCH64 then (.wrongArch, elf, none)
  else match patchPhdrs delta elf.phdrs with
    | some (phdrs, size) => (.success, { elf with phdrs }, some size)
    | none => (.noTls, elf, none)

def delta : UInt64 := 4096

/-! ### Protecting the TLS segment of a compartment -/

/-- A loaded object, as `dl_iterate_phdr` presents it. -/
structure DlPhdrInfo where
  dlpiAddr : UInt64
  dlpiName : String
  dlpiPhdr : List Phdr
  dlpiTlsData : UInt64
deriving DecidableEq, Repr

structure IA2SharedSection where
  start : UInt64
  stop : UInt64
deriving DecidableEq, Repr

structure PhdrSearchArgs where
  pkey : Int32
  address : UInt64
  extraLibraries : Option String := none
  foundLibraryCount : Nat := 0
  sharedSections : Option (List IA2SharedSection) := none
deriving DecidableEq, Repr

/-- A call of `ia2_mprotect_with_tag`. -/
structure TagCall where
  addr : UInt64
  len : UInt64
  prot : UInt32
  tag : Int32
deriving DecidableEq, Repr

inductive TlsAbort where
  | notPadded (libname : String)
  | notPageAligned (addr : UInt64)
  | assertFailed
  | mprotectFailed
deriving DecidableEq, Repr

def PROT_READ_WRITE : UInt32 := 3

def inLoadedSegment (info : DlPhdrInfo) (address : UInt64) : Bool :=
  info.dlpiPhdr.any fun phdr =>
    decide (phdr.pType = PT_LOAD) &&
      (decide (info.dlpiAddr + phdr.pVaddr ≤ address) &&
        decide (address ≤ info.dlpiAddr + phdr.pVaddr + phdr.pMemsz))

/-- The part of a path after its last slash. -/
def basename (path : String) : String := String.ofList ((path.toList.splitOn '/').getLastD [])

section Protect

variable (mprotectErr : TagCall → Int32)

def mprotectWithTag (call : TagCall) : Except TlsAbort (List TagCall) :=
  if mprotectErr call ≠ 0 then throw .mprotectFailed else return [call]

def protectTlsSegment (untrustedStackptrAddr : UInt64) (info : DlPhdrInfo) (pkey : Int32)
    (phdr : Phdr) :
    Except TlsAbort (List TagCall) := do
  let start := info.dlpiTlsData
  let startRoundDown := start &&& ~~~0xFFF
  let startMovedBy := start &&& 0xFFF
  -- the size is a page more than what has to be protected, so truncating it here rounds up
  let lenRoundUp := (phdr.pMemsz + startMovedBy) &&& ~~~0xFFF
  let stop := startRoundDown + lenRoundUp
  if lenRoundUp = 0 then
    let libname := basename info.dlpiName
    throw (.notPadded (if libname = "" then "main" else libname))
  if untrustedStackptrAddr &&& 0xFFF ≠ 0 then
    throw (.notPageAligned untrustedStackptrAddr)
  if start ≤ untrustedStackptrAddr ∧ untrustedStackptrAddr < stop then
    if pkey ≠ 1 then
      throw .assertFailed
    let before ←
      if startRoundDown < untrustedStackptrAddr then
        mprotectWithTag mprotectErr ⟨startRoundDown, untrustedStackptrAddr - startRoundDown,
          PROT_READ_WRITE, pkey⟩
      else pure []
    let afterStart := untrustedStackptrAddr + 0x1000
    let afterLen := stop - afterStart
    let after ←
      if 0 < afterLen then mprotectWithTag mprotectErr ⟨afterStart, afterLen, PROT_READ_WRITE, pkey⟩
        else pure []
    return before ++ after
  else
    mprotectWithTag mprotectErr ⟨startRoundDown, lenRoundUp, PROT_READ_WRITE, pkey⟩

def protectTlsPages (untrustedStackptrAddr : UInt64) (info : DlPhdrInfo) (args : PhdrSearchArgs) :
    Except TlsAbort (List TagCall) :=
  if !inLoadedSegment info args.address then return []
  else info.dlpiPhdr.foldlM (fun calls phdr => do
    if phdr.pType ≠ PT_TLS then
      return calls
    return calls ++ (← protectTlsSegment mprotectErr untrustedStackptrAddr info args.pkey phdr)) []

end Protect

/-! ### Pages as numbers -/

theorem toNat_and_low12 (x : UInt64) : (x &&& 0xFFF).toNat = x.toNat % 4096 :=
  Nat.and_two_pow_sub_one_eq_mod x.toNat 12

theorem toNat_clear_low12 (x : UInt64) : (x &&& ~~~0xFFF).toNat = x.toNat / 4096 * 4096 := by
  have hdisjoint : (x.toBitVec &&& ~~~0xFFF#64) &&& (x.toBitVec &&& 0xFFF#64) = 0#64 := by
    ext i
    simp only [BitVec.getElem_and, BitVec.getElem_not]
    cases x.toBitVec[i] <;> cases (0xFFF#64)[i] <;> simp
  have hjoin : (x.toBitVec &&& ~~~0xFFF#64) ||| (x.toBitVec &&& 0xFFF#64) = x.toBitVec := by
    ext i
    simp only [BitVec.getElem_or, BitVec.getElem_and, BitVec.getElem_not]
    cases x.toBitVec[i] <;> cases (0xFFF#64)[i] <;> simp
  have hsum : (x &&& ~~~0xFFF).toNat + (x &&& 0xFFF).toNat = x.toNat := by
    have := BitVec.toNat_add_of_and_eq_zero hdisjoint
    rw [BitVec.add_eq_or_of_and_eq_zero _ _ hdisjoint, hjoin] at this
    exact this.symm
  rw [toNat_and_low12] at hsum
  omega

theorem toNat_lenRoundUp {start len : UInt64} (hfits : start.toNat + len.toNat < 2 ^ 64) :
    ((len + (start &&& 0xFFF)) &&& ~~~0xFFF).toNat =
      (len.toNat + start.toNat % 4096) / 4096 * 4096 := by
  rw [toNat_clear_low12, UInt64.toNat_add, toNat_and_low12]
  omega

theorem toNat_roundedEnd {start len : UInt64} (hfits : start.toNat + len.toNat < 2 ^ 64) :
    ((start &&& ~~~0xFFF) + ((len + (start &&& 0xFFF)) &&& ~~~0xFFF)).toNat =
      (start.toNat + len.toNat) / 4096 * 4096 := by
  rw [UInt64.toNat_add, toNat_clear_low12, toNat_lenRoundUp hfits]
  omega

/-- Some call protects the byte at `x`. -/
def Protects (calls : List TagCall) (x : Nat) : Prop :=
  ∃ call ∈ calls, call.addr.toNat ≤ x ∧ x < call.addr.toNat + call.len.toNat

section Segment

variable {mprotectErr : TagCall → Int32} (hmprotect : ∀ call, mprotectErr call = 0)
include hmprotect

theorem mprotectWithTag_eq (call : TagCall) : mprotectWithTag mprotectErr call = .ok [call] :=
  if_neg (not_not.mpr (hmprotect call))

theorem protectTlsSegment_spec {untrusted : UInt64} (haligned : untrusted.toNat % 4096 = 0)
    (info : DlPhdrInfo) {pkey : Int32} (phdr : Phdr) (hpadded : 4096 ≤ phdr.pMemsz.toNat)
    (hfits : info.dlpiTlsData.toNat + phdr.pMemsz.toNat < 2 ^ 64)
    (howner : info.dlpiTlsData.toNat ≤ untrusted.toNat →
      untrusted.toNat < info.dlpiTlsData.toNat + phdr.pMemsz.toNat → pkey = 1) :
    ∃ calls, protectTlsSegment mprotectErr untrusted info pkey phdr = .ok calls ∧
      (∀ x, Protects calls x ↔
        info.dlpiTlsData.toNat / 4096 * 4096 ≤ x ∧
          x < (info.dlpiTlsData.toNat + phdr.pMemsz.toNat) / 4096 * 4096 ∧
          ¬ (info.dlpiTlsData.toNat ≤ untrusted.toNat ∧ untrusted.toNat ≤ x ∧
            x < untrusted.toNat + 4096)) ∧
      ∀ call ∈ calls,
        call.addr.toNat + call.len.toNat ≤ (info.dlpiTlsData.toNat + phdr.pMemsz.toNat) /
          4096 * 4096 := by
  have hlen := toNat_lenRoundUp hfits
  have hstop := toNat_roundedEnd hfits
  have hdown := toNat_clear_low12 info.dlpiTlsData
  have hnonzero : (phdr.pMemsz + (info.dlpiTlsData &&& 0xFFF)) &&& ~~~0xFFF ≠ 0 := fun hzero => by
    rw [hzero] at hlen
    have : (0 : UInt64).toNat = 0 := rfl
    omega
  have hpage : untrusted &&& 0xFFF = 0 := by
    rw [← UInt64.toNat_inj, toNat_and_low12]
    exact haligned
  unfold protectTlsSegment
  dsimp only
  rw [if_neg hnonzero]
  generalize (info.dlpiTlsData &&& ~~~0xFFF) +
    ((phdr.pMemsz + (info.dlpiTlsData &&& 0xFFF)) &&& ~~~0xFFF) = stop
    at hstop ⊢
  generalize (phdr.pMemsz + (info.dlpiTlsData &&& 0xFFF)) &&& ~~~0xFFF = lenRoundUp at hlen ⊢
  generalize info.dlpiTlsData &&& ~~~0xFFF = startRoundDown at hdown ⊢
  simp only [hpage, ne_eq, not_true, if_false, pure_bind, mprotectWithTag_eq hmprotect,
    UInt64.le_iff_toNat_le,
    UInt64.lt_iff_toNat_lt]
  by_cases hin : info.dlpiTlsData.toNat ≤ untrusted.toNat ∧ untrusted.toNat < stop.toNat
  -- both ends are page-aligned, so the whole page of the untrusted stack pointer lies below the end
  ·
    have hafter : (untrusted + 0x1000).toNat = untrusted.toNat + 4096 := by
      rw [UInt64.toNat_add, show (0x1000 : UInt64).toNat = 4096 from rfl]
      omega
    have hafterLen : (stop - (untrusted + 0x1000)).toNat =
        stop.toNat - (untrusted.toNat + 4096) := by
      rw [UInt64.toNat_sub_of_le _ _ (UInt64.le_iff_toNat_le.mpr (by omega)), hafter]
    have hbeforeLen : (untrusted - startRoundDown).toNat = untrusted.toNat - startRoundDown.toNat :=
      UInt64.toNat_sub_of_le _ _ (UInt64.le_iff_toNat_le.mpr (by omega))
    rw [if_pos hin, if_neg (not_not.mpr (howner hin.1 (by omega)))]
    have hzero : UInt64.toNat 0 = 0 := rfl
    rw [hafterLen, hzero]
    split_ifs with hbefore habove habove
    all_goals
      refine ⟨_, rfl, fun x => ?_, ?_⟩
      · simp only [Protects, List.nil_append, List.append_nil, List.cons_append, List.mem_cons,
          List.not_mem_nil,
          or_false, exists_eq_or_imp, exists_eq_left, hafter, hafterLen, hbeforeLen, false_and,
          exists_false, false_iff]
        omega
      · simp only [List.nil_append, List.append_nil, List.cons_append, List.mem_cons,
          List.not_mem_nil, or_false,
          forall_eq_or_imp, forall_eq, hafter, hafterLen, hbeforeLen, false_imp_iff, implies_true]
        try omega
  · rw [if_neg hin]
    refine ⟨_, rfl, fun x => ?_, ?_⟩
    · simp only [Protects, List.mem_singleton, exists_eq_left]
      omega
    · simp only [List.mem_singleton, forall_eq]
      omega

end Segment

/-! ### Blocks -/

def Phdr.isTls (phdr : Phdr) : Bool := decide (phdr.pType = PT_TLS)

/-- The TLS block of an object that was padded by pad-tls, as it is loaded for a compartment.
`header` is the object's only TLS header before the padding. -/
structure Block where
  elf : Elf
  header : Phdr
  dlpiAddr : UInt64
  dlpiName : String
  tlsData : UInt64
  args : PhdrSearchArgs
  magic : elf.eIdent.take 4 = ELFMAG
  machine : elf.eMachine = EM_X86_64 ∨ elf.eMachine = EM_AARCH64
  tls : elf.phdrs.filter Phdr.isTls = [header]
  fits : tlsData.toNat + (header.pMemsz.toNat + 4096) < 2 ^ 64
  loaded : inLoadedSegment ⟨dlpiAddr, dlpiName, (patchTls elf delta).2.1.phdrs, tlsData⟩
    args.address = true

namespace Block

variable (b : Block)

/-- The object as it is loaded, with the padded headers. -/
def info : DlPhdrInfo := ⟨b.dlpiAddr, b.dlpiName, (patchTls b.elf delta).2.1.phdrs, b.tlsData⟩

/-- Where the block starts. -/
def start : Nat := b.tlsData.toNat

/-- Where the data of the block ends: `start + u`. -/
def dataEnd : Nat := b.start + b.header.pMemsz.toNat

/-- Where the block ends: `start + m`. -/
def stop : Nat := b.start + (b.header.pMemsz.toNat + 4096)

theorem patchPhdrs_tls {header : Phdr} {phdrs : List Phdr} (h : phdrs.filter Phdr.isTls = [header])
    (d : UInt64) :
    ∃ padded, patchPhdrs d phdrs = some (padded, header.pMemsz + d) ∧
      padded.filter Phdr.isTls = [{ header with pMemsz := header.pMemsz + d }] := by
  induction phdrs with
  | nil => simp at h
  | cons phdr rest ih =>
    by_cases htls : phdr.pType = PT_TLS
    · rw [List.filter_cons_of_pos (by simpa [Phdr.isTls] using htls)] at h
      obtain ⟨rfl, hrest⟩ := List.cons.inj h
      refine ⟨_, if_pos htls, ?_⟩
      rw [List.filter_cons_of_pos (by simpa [Phdr.isTls] using htls), hrest]
    · rw [List.filter_cons_of_neg (by simpa [Phdr.isTls] using htls)] at h
      obtain ⟨padded, hpadded, hfilter⟩ := ih h
      refine ⟨phdr :: padded, by rw [patchPhdrs, if_neg htls, hpadded]; rfl, ?_⟩
      rw [List.filter_cons_of_neg (by simpa [Phdr.isTls] using htls), hfilter]

theorem info_tls :
    b.info.dlpiPhdr.filter Phdr.isTls = [{ b.header with pMemsz := b.header.pMemsz + delta }] := by
  obtain ⟨padded, hpadded, hfilter⟩ := patchPhdrs_tls b.tls delta
  have hmachine : ¬ (b.elf.eMachine ≠ EM_X86_64 ∧ b.elf.eMachine ≠ EM_AARCH64) := by
    rcases b.machine with h | h <;> simp [h]
  unfold info patchTls
  rw [if_neg (not_not.mpr b.magic), if_neg hmachine, hpadded]
  exact hfilter

theorem padded_size : (b.header.pMemsz + delta).toNat = b.header.pMemsz.toNat + 4096 := by
  have hfits := b.fits
  rw [UInt64.toNat_add, show delta.toNat = 4096 from rfl]
  omega

theorem protectTlsPages_eq (mprotectErr : TagCall → Int32) (untrusted : UInt64) :
    protectTlsPages mprotectErr untrusted b.info b.args =
      protectTlsSegment mprotectErr untrusted b.info b.args.pkey
        { b.header with pMemsz := b.header.pMemsz + delta } := by
  have hloaded : inLoadedSegment b.info b.args.address = true := b.loaded
  have hskip : (fun (calls : List TagCall) (phdr : Phdr) => (do
      if phdr.pType ≠ PT_TLS then
        return calls
      return calls ++ (← protectTlsSegment mprotectErr untrusted b.info b.args.pkey phdr) :
        Except TlsAbort (List TagCall))) =
      fun calls phdr => if phdr.isTls then
        (do return calls ++ (← protectTlsSegment mprotectErr untrusted b.info b.args.pkey phdr))
            else pure calls := by
    funext calls phdr
    by_cases htls : phdr.pType = PT_TLS <;> simp [Phdr.isTls, htls]
  unfold protectTlsPages
  rw [hloaded, hskip, ← List.foldlM_filter, b.info_tls]
  simp

variable {b}

theorem protectTlsPages_spec {mprotectErr : TagCall → Int32}
    (hmprotect : ∀ call, mprotectErr call = 0) {untrusted : UInt64}
    (haligned : untrusted.toNat % 4096 = 0)
    (howner : b.start ≤ untrusted.toNat → untrusted.toNat < b.stop → b.args.pkey = 1) :
    ∃ calls, protectTlsPages mprotectErr untrusted b.info b.args = .ok calls ∧
      (∀ x, Protects calls x ↔ b.start / 4096 * 4096 ≤ x ∧ x < b.stop / 4096 * 4096 ∧
        ¬ (b.start ≤ untrusted.toNat ∧ untrusted.toNat ≤ x ∧ x < untrusted.toNat + 4096)) ∧
      ∀ call ∈ calls, call.addr.toNat + call.len.toNat ≤ b.stop := by
  have hfits := b.fits
  have hsize := b.padded_size
  have hpkey : b.info.dlpiTlsData.toNat ≤ untrusted.toNat →
      untrusted.toNat < b.info.dlpiTlsData.toNat + (b.header.pMemsz + delta).toNat →
      b.args.pkey = 1 := by
    rw [hsize]
    exact howner
  obtain ⟨calls, hcalls, hprotects, hbound⟩ := protectTlsSegment_spec hmprotect haligned b.info
    { b.header with pMemsz := b.header.pMemsz + delta } (by dsimp only; omega)
      (by dsimp only [info]; omega) hpkey
  simp only [hsize] at hprotects hbound
  refine ⟨calls, (b.protectTlsPages_eq _ _).trans hcalls, hprotects, fun call hcall => ?_⟩
  have := hbound call hcall
  change _ ≤ b.stop / 4096 * 4096 at this
  omega

end Block

/-- For every family of TLS blocks that are apart and every page-aligned address of the untrusted
stack pointer, which lies in a block of compartment 1 if in any: protecting the blocks succeeds; a
block's data is protected by the block's own calls, except for the page of the untrusted stack
pointer if that lies in the data; no block's calls touch the data of another block or a page that
another block protects; the untrusted page is protected by no block if it lies in some block's data;
and every call ends within its block. -/
theorem tls_blocks_separated {ι : Type} (block : ι → Block)
    (happart : ∀ i j, i ≠ j → (block i).stop ≤ (block j).start ∨ (block j).stop ≤ (block i).start)
    {untrusted : UInt64} (haligned : untrusted.toNat % 4096 = 0)
    (howner : ∀ i, (block i).start ≤ untrusted.toNat → untrusted.toNat < (block i).stop →
      (block i).args.pkey = 1)
    {mprotectErr : TagCall → Int32} (hmprotect : ∀ call, mprotectErr call = 0) :
    ∃ calls : ι → List TagCall,
      (∀ i, protectTlsPages mprotectErr untrusted (block i).info (block i).args = .ok (calls i)) ∧
      (∀ i x, (block i).start ≤ x → x < (block i).dataEnd → (Protects (calls i) x ↔
        ¬ (((block i).start ≤ untrusted.toNat ∧ untrusted.toNat < (block i).dataEnd) ∧
          untrusted.toNat ≤ x ∧ x < untrusted.toNat + 4096))) ∧
      (∀ i j, i ≠ j → ∀ x, (block j).start ≤ x → x < (block j).dataEnd → ¬ Protects (calls i) x) ∧
      (∀ i j, i ≠ j → ∀ x, Protects (calls i) x → ¬ Protects (calls j) x) ∧
      (∀ k, (block k).start ≤ untrusted.toNat → untrusted.toNat + 4096 ≤ (block k).dataEnd →
        ∀ i x, untrusted.toNat ≤ x → x < untrusted.toNat + 4096 → ¬ Protects (calls i) x) ∧
      ∀ i, ∀ call ∈ calls i, call.addr.toNat + call.len.toNat ≤ (block i).stop := by
  choose calls hcalls hprotects hbound using fun i =>
    (block i).protectTlsPages_spec hmprotect haligned (howner i)
  have hpadded : ∀ i, (block i).stop = (block i).dataEnd + 4096 := fun i => by
    simp only [Block.stop, Block.dataEnd]
    omega
  have hdata : ∀ i j, i ≠ j → ∀ x, (block j).start ≤ x → x < (block j).dataEnd →
      ¬ Protects (calls i) x := by
    intro i j hij x hlo hhi
    have := happart i j hij
    have := hpadded j
    rw [hprotects]
    omega
  refine ⟨calls, hcalls, fun i x hlo hhi => ?_, hdata, fun i j hij x hi hj => ?_,
    fun k hlo hhi i x hx hx' hp => ?_,
    hbound⟩
  · have := hpadded i
    rw [hprotects]
    omega
  · have := happart i j hij
    rw [hprotects] at hi hj
    omega
  · by_cases hik : i = k
    · subst hik
      rw [hprotects] at hp
      omega
    · exact hdata i k hik x (by omega) (by omega) hp

def smallBlock (tlsData memsz : UInt64) (pkey : Int32)
    (hfits : tlsData.toNat + (memsz.toNat + 4096) < 2 ^ 64) :
    Block where
  elf := ⟨ELFMAG, EM_X86_64, [⟨PT_LOAD, 0, 0x1000, 5⟩, ⟨PT_TLS, 0x2000, memsz, 4⟩]⟩
  header := ⟨PT_TLS, 0x2000, memsz, 4⟩
  dlpiAddr := 0
  dlpiName := "libsmall.so"
  tlsData := tlsData
  args := { pkey, address := 0 }
  magic := rfl
  machine := .inl rfl
  tls := by simp [Phdr.isTls, PT_LOAD, PT_TLS]
  fits := hfits
  loaded := by simp [inLoadedSegment, patchTls, patchPhdrs, ELFMAG, EM_X86_64, PT_LOAD, PT_TLS]

/-- Two neighbouring blocks, of compartments 1 and 2, with the untrusted stack pointer in the data
of the first one: its page is protected by neither, and no page by both. -/
theorem tls_blocks_separated_neighbours :
    ∃ calls : Bool → List TagCall, (∀ i, ¬ Protects (calls i) 0x7F0000001008) ∧
      Protects (calls true) 0x7F0000000800 ∧
      ∀ x, Protects (calls true) x → ¬ Protects (calls false) x := by
  let block : Bool → Block := fun
    | true => smallBlock 0x7F0000000800 0x2800 1 (by decide)
    | false => smallBlock 0x7F0000004100 0x100 2 (by decide)
  have happart : ∀ i j, i ≠ j → (block i).stop ≤ (block j).start ∨
    (block j).stop ≤ (block i).start := by decide
  have howner : ∀ i, (block i).start ≤ (0x7F0000001000 : UInt64).toNat →
      (0x7F0000001000 : UInt64).toNat < (block i).stop → (block i).args.pkey = 1 := by decide
  obtain ⟨calls, -, hown, -, hapart, hpage, -⟩ :=
    tls_blocks_separated block happart (by decide) howner
      (fun _ => rfl : ∀ _ : TagCall, (0 : Int32) = 0)
  exact ⟨calls, fun i => hpage true (by decide) (by decide) i _ (by decide) (by decide),
    (hown true _ (by decide) (by decide)).mpr (by decide), hapart true false (by decide)⟩

end Ia2.Runtime
