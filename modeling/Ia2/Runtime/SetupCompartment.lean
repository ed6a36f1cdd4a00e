import Ia2.Runtime.ProtectPages
import Mathlib.Data.List.Perm.Subperm

/-!
# Setting up a compartment

`ia2_setup_compartment` looks up an address in the library of a compartment and walks over all
loaded objects twice, to protect the segments and then the thread-local storage of those that belong
to the compartment. Between the walks it compares how many extra libraries it found with how many
are listed.

The walks take an object for the one that holds the address also if one of its segments ends there,
so an object that ends where the library begins is protected with it. The counts can agree although
a listed library is missing, if another entry is the start of two names.
-/

namespace Ia2.Runtime

variable {α : Type} {cfg : Config} {proc : Process} {objects : List DlPhdrInfo} {untrusted : UInt64}

theorem bind_eq_ok {ε β : Type} {x : Except ε α} {f : α → Except ε β} {b : β} :
    x >>= f = .ok b ↔ ∃ a, x = .ok a ∧ f a = .ok b := by
  cases x <;> simp [bind, Except.bind]

/-! ### Walking over the objects -/

abbrev Protected := List (DlPhdrInfo × List TagCall)

section Walk

variable {ε : Type} (callback : DlPhdrInfo → PhdrSearchArgs →
  Except ε (PhdrSearchArgs × Option (List TagCall)))

/-- `dl_iterate_phdr` with a callback that always asks for the next object. -/
def dlIteratePhdr : List DlPhdrInfo → PhdrSearchArgs → Except ε (PhdrSearchArgs × Protected)
  | [], args => return (args, [])
  | info :: objects, args => do
    let (args, calls) ← callback info args
    let (args, found) ← dlIteratePhdr objects args
    return (args, (calls.map fun calls => (info, calls)).toList ++ found)

theorem dlIteratePhdr_spec {args : PhdrSearchArgs} (selected counted : DlPhdrInfo → Bool)
    (hstep : ∀ info n args' calls, callback info { args with foundLibraryCount := n } =
    .ok (args', calls) → calls.isSome = selected info ∧
    args' = { args with foundLibraryCount := n + (counted info).toNat }) {n : Nat}
    {args' : PhdrSearchArgs} {found : Protected}
    (h : dlIteratePhdr callback objects { args with foundLibraryCount := n } = .ok (args', found)) :
    found.map Prod.fst = objects.filter selected ∧
    args' = { args with foundLibraryCount := n + objects.countP counted } := by
  induction objects generalizing n args' found with
  | nil =>
    cases h
    exact ⟨rfl, rfl⟩
  | cons info objects ih =>
    obtain ⟨⟨args₁, calls⟩, hcall, hwalk⟩ := bind_eq_ok.mp h
    obtain ⟨⟨args₂, rest⟩, hrest, heq⟩ := bind_eq_ok.mp hwalk
    obtain ⟨hcalls, rfl⟩ := hstep info n args₁ calls hcall
    obtain ⟨hfound, rfl⟩ := ih hrest
    cases heq
    constructor
    · rw [List.map_append, hfound, List.filter_cons, ← hcalls]
      cases calls <;> rfl
    · rw [List.countP_cons, Nat.add_assoc, Nat.add_comm (Bool.toNat _)]
      cases counted info <;> rfl

end Walk

/-! ### The two callbacks -/

def selectsPages (cfg : Config) (args : PhdrSearchArgs) (info : DlPhdrInfo) : Bool :=
  inLoadedSegment info args.address || inExtraLibraries info args.extraLibraries ||
    (cfg.libcCompartment && isSyslib info args.pkey)

variable {args args' : PhdrSearchArgs} {calls : Option (List TagCall)} {info : DlPhdrInfo}

theorem protectPages_ok (h : protectPages proc cfg info args = .ok (args', calls)) :
    calls.isSome = selectsPages cfg args info ∧
      args' =
        { args with
            foundLibraryCount :=
              args.foundLibraryCount + (inExtraLibraries info args.extraLibraries).toNat } := by
  rw [protectPages] at h
  dsimp only at h
  rw [selectsPages]
  generalize inLoadedSegment info args.address = inLoaded at h ⊢
  generalize (cfg.libcCompartment && isSyslib info args.pkey) = syslib at h ⊢
  generalize inExtraLibraries info args.extraLibraries = extra at h ⊢
  by_cases hskip : (!inLoaded && !extra && !syslib) = true
  · rw [if_pos hskip] at h
    cases h
    revert hskip
    cases inLoaded <;> cases extra <;> cases syslib <;> simp
  · rw [if_neg hskip] at h
    obtain ⟨shared, -, hchecked⟩ := bind_eq_ok.mp h
    by_cases hphdrs : MAX_NUM_PHDRS < info.dlpiPhdr.length
    · rw [if_pos hphdrs] at hchecked
      cases hchecked
    · rw [if_neg hphdrs] at hchecked
      obtain ⟨made, -, heq⟩ := bind_eq_ok.mp hchecked
      cases heq
      constructor
      · revert hskip
        cases inLoaded <;> cases extra <;> cases syslib <;> simp
      · cases extra <;> rfl

theorem protectPages_walk {pages : Protected}
    (h : dlIteratePhdr (protectPages proc cfg) objects args = .ok (args', pages)) :
    pages.map Prod.fst = objects.filter (selectsPages cfg args) ∧
      args' =
        { args with
            foundLibraryCount :=
              args.foundLibraryCount +
                objects.countP (inExtraLibraries · args.extraLibraries) } :=
  dlIteratePhdr_spec _ (selectsPages cfg args) (inExtraLibraries · args.extraLibraries)
    (fun _ _ _ _ => protectPages_ok) h

/-- `protect_tls_pages` as a callback: the calls for the object, if it is not skipped. -/
def protectTlsCallback (proc : Process) (untrustedStackptrAddr : UInt64) (info : DlPhdrInfo)
    (args : PhdrSearchArgs) :
    Except TlsAbort (PhdrSearchArgs × Option (List TagCall)) := do
  let calls ← protectTlsPages proc.mprotectErr untrustedStackptrAddr info args
  return (args, if inLoadedSegment info args.address then some calls else none)

theorem protectTlsCallback_ok (h : protectTlsCallback proc untrusted info args =
    .ok (args', calls)) :
    calls.isSome = inLoadedSegment info args.address ∧ args' = args := by
  obtain ⟨made, -, heq⟩ := bind_eq_ok.mp h
  cases heq
  constructor
  · cases inLoadedSegment info args.address <;> rfl
  · rfl

theorem protectTlsCallback_walk {tls : Protected}
    (h : dlIteratePhdr (protectTlsCallback proc untrusted) objects args = .ok (args', tls)) :
    tls.map Prod.fst = objects.filter (inLoadedSegment · args.address) :=
  (dlIteratePhdr_spec _ (inLoadedSegment · args.address) (fun _ => false)
    (fun _ _ _ _ => protectTlsCallback_ok) h).1

/-! ### The object that holds an address -/

def segmentStart (info : DlPhdrInfo) (phdr : Phdr) : Nat := (info.dlpiAddr + phdr.pVaddr).toNat

def segmentEnd (info : DlPhdrInfo) (phdr : Phdr) : Nat := segmentStart info phdr + phdr.pMemsz.toNat

/-- The byte at `x` belongs to a loaded segment of the object. -/
def Holds (info : DlPhdrInfo) (x : Nat) : Prop :=
  ∃ phdr ∈ info.dlpiPhdr, phdr.pType = PT_LOAD ∧ segmentStart info phdr ≤ x ∧
    x < segmentEnd info phdr

/-- A loaded segment of the object ends before the byte at `x`. -/
def EndsAt (info : DlPhdrInfo) (x : Nat) :
    Prop := ∃ phdr ∈ info.dlpiPhdr, phdr.pType = PT_LOAD ∧ segmentEnd info phdr = x

theorem inLoadedSegment_iff (info : DlPhdrInfo) (address : UInt64) :
    inLoadedSegment info address = true ↔
      ∃ phdr ∈ info.dlpiPhdr, phdr.pType = PT_LOAD ∧ segmentStart info phdr ≤ address.toNat ∧
        address.toNat ≤ segmentEnd info phdr ∧
        segmentEnd info phdr < 2 ^ 64 := by
  simp only [inLoadedSegment, List.any_eq_true, Bool.and_eq_true, decide_eq_true_eq]
  refine exists_congr fun phdr => and_congr_right fun _ => and_congr_right fun _ => ?_
  rw [UInt64.le_iff_toNat_le, UInt64.le_iff_toNat_le, UInt64.toNat_add _ phdr.pMemsz, segmentEnd,
    segmentStart]
  have := (info.dlpiAddr + phdr.pVaddr).toNat_lt
  have := phdr.pMemsz.toNat_lt
  omega

theorem inLoadedSegment_apart {address : UInt64} (h : ¬ Holds info address.toNat) :
    inLoadedSegment info address = true ↔ EndsAt info address.toNat := by
  rw [inLoadedSegment_iff]
  refine exists_congr fun phdr => and_congr_right fun hphdr => and_congr_right fun hload => ?_
  have hout : ¬ (segmentStart info phdr ≤ address.toNat ∧ address.toNat < segmentEnd info phdr) :=
    fun hin => h ⟨phdr, hphdr, hload, hin⟩
  have := address.toNat_lt
  have : segmentStart info phdr ≤ segmentEnd info phdr := Nat.le_add_right _ _
  omega

theorem filter_eq_singleton_iff {p : α → Bool} {before after : List α} {a : α} :
    (before ++ a :: after).filter p = [a] ↔ p a = true ∧ ∀ b ∈ before ++ after, p b = false := by
  constructor
  · intro h
    have ha : p a = true := (List.mem_filter.mp (h ▸ List.mem_singleton_self a)).2
    have hlen := congrArg List.length h
    rw [List.filter_append, List.filter_cons_of_pos ha, List.length_append, List.length_cons,
      List.length_singleton] at hlen
    refine ⟨ha, fun b hb => ?_⟩
    have hnil : (before ++ after).filter p = [] := by
      rw [← List.length_eq_zero_iff, List.filter_append, List.length_append]
      omega
    exact Bool.eq_false_iff.mpr (List.filter_eq_nil_iff.mp hnil b hb)
  · rintro ⟨ha, hothers⟩
    have hnil : (before ++ after).filter p = [] := List.filter_eq_nil_iff.mpr fun b hb =>
      Bool.eq_false_iff.mp (hothers b hb)
    rw [List.filter_append, List.append_eq_nil_iff] at hnil
    rw [List.filter_append, List.filter_cons_of_pos ha, hnil.1, hnil.2, List.nil_append]

section OneObject

variable {proc : Process} {cfg : Config} {untrusted : UInt64} {before after : List DlPhdrInfo}
  {info : DlPhdrInfo}
  {args pagesArgs tlsArgs : PhdrSearchArgs} {pages tls : Protected}

/-- Both walks protect the object that holds the address, and no other, exactly if no other object
ends at the address and no other is a system library that goes with the compartment. The segment of
the object that holds the address has to end below 2^64, as segments do. -/
theorem walks_protect_one_iff (hextra : args.extraLibraries = none)
    (hapart : (before ++ info :: after).Pairwise fun info other => ∀ x,
      ¬ (Holds info x ∧ Holds other x)) (hholds : Holds info args.address.toNat)
    (hpages : dlIteratePhdr (protectPages proc cfg) (before ++ info :: after) args =
      .ok (pagesArgs, pages))
    (htls : dlIteratePhdr (protectTlsCallback proc untrusted) (before ++ info :: after) args =
      .ok (tlsArgs, tls)) :
    (pages.map Prod.fst = [info] ∧ tls.map Prod.fst = [info]) ↔
      (∃ phdr ∈ info.dlpiPhdr, phdr.pType = PT_LOAD ∧ segmentStart info phdr ≤ args.address.toNat ∧
        args.address.toNat ≤ segmentEnd info phdr ∧ segmentEnd info phdr < 2 ^ 64) ∧
      ∀ other ∈ before ++ after, ¬ EndsAt other args.address.toNat ∧
        ¬ (cfg.libcCompartment = true ∧ isSyslib other args.pkey = true) := by
  rw [(protectPages_walk hpages).1, protectTlsCallback_walk htls, filter_eq_singleton_iff,
    filter_eq_singleton_iff, ← inLoadedSegment_iff]
  have hextras : ∀ other, inExtraLibraries other args.extraLibraries = false := fun other => by
    rw [hextra]; rfl
  have hothers : ∀ other ∈ before ++ after,
      (inLoadedSegment other args.address = true ↔ EndsAt other args.address.toNat) := by
    intro other hother
    have hmiddle := (List.pairwise_middle fun {x y} (h : ∀ a, ¬ (Holds x a ∧ Holds y a)) a hboth =>
      h a hboth.symm).mp hapart
    exact inLoadedSegment_apart fun hin => (List.pairwise_cons.mp hmiddle).1 other hother _
      ⟨hholds, hin⟩
  have hselects : ∀ other, selectsPages cfg args other = true ↔
      inLoadedSegment other args.address = true ∨
      (cfg.libcCompartment = true ∧ isSyslib other args.pkey = true) := by
    intro other
    simp only [selectsPages, hextras, Bool.or_false, Bool.or_eq_true, Bool.and_eq_true]
  simp only [← Bool.not_eq_true, hselects, not_or]
  constructor
  · rintro ⟨⟨-, hunselected⟩, hin, -⟩
    exact ⟨hin, fun other hother =>
      ⟨(hothers other hother).not.mp (hunselected other hother).1, (hunselected other hother).2⟩⟩
  · rintro ⟨hin, hclear⟩
    have hunloaded : ∀ other ∈ before ++ after, ¬ inLoadedSegment other args.address = true :=
      fun other hother =>
      (hothers other hother).not.mpr (hclear other hother).1
    exact ⟨⟨.inl hin, fun other hother => ⟨hunloaded other hother, (hclear other hother).2⟩⟩,
      hin, hunloaded⟩

end OneObject

/-- An object with one writable page. -/
def onePage (base : UInt64) (name : String) :
    DlPhdrInfo := ⟨base, name, [⟨PT_LOAD, 0, 0x1000, PF_R ||| PF_W⟩], 0⟩

theorem holds_onePage (base : UInt64) (name : String) (x : Nat) :
    Holds (onePage base name) x ↔ base.toNat ≤ x ∧ x < base.toNat + 0x1000 := by
  simp [Holds, onePage, segmentStart, segmentEnd]

theorem onePage_apart {base base' : UInt64} (h : base.toNat + 0x1000 ≤ base'.toNat)
    (name name' : String) :
    [onePage base name, onePage base' name'].Pairwise fun info other =>
      ∀ x, ¬ (Holds info x ∧ Holds other x) := by
  rw [List.pairwise_pair]
  intro x
  rw [holds_onePage, holds_onePage]
  omega

theorem walks_protect_one_iff_distant :
    ∃ pages tls,
      dlIteratePhdr (protectPages obliging {})
        [onePage 0x10000 "liba.so", onePage 0x12000 "libb.so"] ⟨2, 0x12000, none, 0, none⟩ =
        .ok (⟨2, 0x12000, none, 0, none⟩, pages) ∧
      dlIteratePhdr (protectTlsCallback obliging 0x20000)
        [onePage 0x10000 "liba.so", onePage 0x12000 "libb.so"] ⟨2, 0x12000, none, 0, none⟩ =
        .ok (⟨2, 0x12000, none, 0, none⟩, tls) ∧
      pages.map Prod.fst = [onePage 0x12000 "libb.so"] ∧
        tls.map Prod.fst = [onePage 0x12000 "libb.so"] := by
  have hpages : dlIteratePhdr (protectPages obliging {})
    ([onePage 0x10000 "liba.so"] ++ onePage 0x12000 "libb.so" :: [])
      ⟨2, 0x12000, none, 0, none⟩ =
        .ok (⟨2, 0x12000, none, 0, none⟩,
          [(onePage 0x12000 "libb.so", [⟨0x12000, 0x1000, 3, 2⟩])]) := by
    decide +kernel
  have htls : dlIteratePhdr (protectTlsCallback obliging 0x20000)
    ([onePage 0x10000 "liba.so"] ++ onePage 0x12000 "libb.so" :: [])
      ⟨2, 0x12000, none, 0, none⟩ = .ok (⟨2, 0x12000, none, 0, none⟩,
          [(onePage 0x12000 "libb.so", [])]) := by
    decide +kernel
  refine ⟨_, _, hpages, htls,
    (walks_protect_one_iff rfl (onePage_apart (by decide) _ _) ?_ hpages htls).mpr ⟨?_, ?_⟩⟩
  · rw [holds_onePage]
    decide
  · exact ⟨_, List.mem_singleton_self _, rfl, by decide⟩
  · simp [EndsAt, onePage, segmentStart, segmentEnd]

/-- The data of a library that ends where the library of the compartment begins is protected, too.
-/
theorem walks_protect_neighbour :
    [onePage 0x10000 "liba.so", onePage 0x11000 "libb.so"].Pairwise
      (fun info other => ∀ x, ¬ (Holds info x ∧ Holds other x)) ∧
      Holds (onePage 0x11000 "libb.so") 0x11000 ∧
      dlIteratePhdr (protectPages obliging {})
        [onePage 0x10000 "liba.so", onePage 0x11000 "libb.so"] ⟨2, 0x11000, none, 0, none⟩ =
        .ok (⟨2, 0x11000, none, 0, none⟩,
          [(onePage 0x10000 "liba.so", [⟨0x10000, 0x1000, 3, 2⟩]),
            (onePage 0x11000 "libb.so", [⟨0x11000, 0x1000, 3, 2⟩])]) := by
  refine ⟨onePage_apart (by decide) _ _, ?_, by decide +kernel⟩
  rw [holds_onePage]
  decide

/-! ### The extra libraries of a compartment -/

def RTLD_DEFAULT : UInt64 := 0

structure Host extends Process where
  dlopen : String → Option UInt64
  dlsym : UInt64 → String → UInt64
  setupCompartmentAddr : UInt64
  untrustedStackptrAddr : UInt64
  allocateStack : Int32 → Option UInt64
  objects : List DlPhdrInfo

inductive SetupStop where
  | dlopenFailed
  | dlsymFailed
  | oneSharedBound
  | librariesMissing
  | stackFailed
  | pages (abort : ProtectAbort)
  | tls (abort : TlsAbort)
deriving DecidableEq, Repr

def countLoop (curPos : List Char) : Nat :=
  let found := curPos.dropWhile (· ≠ ';')
  if found = [] then 1 else 1 + countLoop (found.drop 1)
termination_by curPos.length
decreasing_by
  have hsuffix := (List.dropWhile_suffix (· ≠ ';') (l := curPos)).length_le
  have hpos : 0 < found.length := List.length_pos_iff.mpr ‹_›
  simp only [found] at hpos ⊢
  rw [List.length_drop]
  omega

def extraLibraryCount (extraLibraries : Option String) : Nat :=
  match extraLibraries with
  | none => 0
  | some extra => countLoop extra.toList

def lookupDso (host : Host) (dso : String) : Except SetupStop (UInt64 × UInt64) :=
  if dso = "main" then return (RTLD_DEFAULT, host.setupCompartmentAddr)
  else match host.dlopen dso with
    | none => throw .dlopenFailed
    | some handle =>
      let dsoAddr := host.dlsym handle "ia2_get_tag"
      if dsoAddr = 0 then throw .dlsymFailed else return (handle, dsoAddr)

/-- What `ia2_setup_compartment` searches for. The stack that it allocates before does not matter
for the search. -/
def searchArgs (host : Host) (dso : String) (compartment : Int32) (extraLibraries : Option String) :
    Except SetupStop PhdrSearchArgs := do
  let (handle, dsoAddr) ← lookupDso host dso
  let dsoSharedStart := host.dlsym handle "__start_ia2_shared_data"
  let dsoSharedStop := host.dlsym handle "__stop_ia2_shared_data"
  if (dsoSharedStart == 0) != (dsoSharedStop == 0) then
    throw .oneSharedBound
  if compartment ≠ 0 ∧ host.allocateStack compartment = none then
    throw .stackFailed
  return ⟨compartment, dsoAddr, extraLibraries, 0, some [⟨dsoSharedStart, dsoSharedStop⟩, ⟨0, 0⟩]⟩

/-- `ia2_setup_compartment` up to and including its check that all extra libraries were found. -/
def setupPages (host : Host) (cfg : Config) (dso : String) (compartment : Int32)
    (extraLibraries : Option String) :
    Except SetupStop (PhdrSearchArgs × Protected) := do
  let args ← searchArgs host dso compartment extraLibraries
  let (args, pages) ← (dlIteratePhdr (protectPages host.toProcess cfg) host.objects args).mapError
    .pages
  if extraLibraryCount args.extraLibraries ≠ args.foundLibraryCount then
    throw .librariesMissing
  return (args, pages)

def setupCompartment (host : Host) (cfg : Config) (dso : String) (compartment : Int32)
    (extraLibraries : Option String) :
    Except SetupStop (Protected × Protected) := do
  let (args, pages) ← setupPages host cfg dso compartment extraLibraries
  let (_, tls) ← (dlIteratePhdr (protectTlsCallback host.toProcess host.untrustedStackptrAddr)
    host.objects args).mapError .tls
  return (pages, tls)

theorem countLoop_eq (extra : List Char) : countLoop extra = (entries extra).length := by
  induction extra using Separated.entry_induction ';' with
  | last entry hentry =>
    have hdrop := Separated.dropWhile_entry hentry (.inl (rfl : [] = []))
    rw [List.append_nil] at hdrop
    rw [countLoop, entries_last hentry]
    exact if_pos hdrop
  | next entry rest hentry ih =>
    have hdrop := Separated.dropWhile_entry hentry (.inr (rfl : (';' :: rest).head? = some ';'))
    replace ih : countLoop rest = _ := ih
    rw [countLoop, entries_next hentry, List.length_cons, ← ih, Nat.add_comm, hdrop]
    exact if_neg (List.cons_ne_nil _ _)

section Found

variable {host : Host} {cfg : Config} {dso : String} {compartment : Int32} {args : PhdrSearchArgs}
  {pages : Protected}

variable {extraLibraries : Option String}

theorem searchArgs_ok (h : searchArgs host dso compartment extraLibraries = .ok args) :
    args.extraLibraries = extraLibraries ∧ args.foundLibraryCount = 0 := by
  obtain ⟨⟨handle, dsoAddr⟩, -, hchecks⟩ := bind_eq_ok.mp h
  dsimp only at hchecks
  split at hchecks
  · cases hchecks
  split at hchecks
  · cases hchecks
  cases hchecks
  exact ⟨rfl, rfl⟩

theorem setupPages_eq_ok_iff (hargs : searchArgs host dso compartment extraLibraries = .ok args)
    (hwalk : dlIteratePhdr (protectPages host.toProcess cfg) host.objects args =
    .ok (args', pages)) :
    (∃ r, setupPages host cfg dso compartment extraLibraries = .ok r) ↔
      host.objects.countP (inExtraLibraries · extraLibraries) =
        extraLibraryCount extraLibraries := by
  obtain ⟨rfl, hzero⟩ := searchArgs_ok hargs
  obtain ⟨-, rfl⟩ := protectPages_walk hwalk
  simp only [setupPages, hargs, hwalk, Except.mapError, bind, Except.bind, hzero, Nat.zero_add]
  by_cases hcount : extraLibraryCount args.extraLibraries =
      host.objects.countP (inExtraLibraries · args.extraLibraries)
  · simp [hcount, pure, Except.pure]
  · simp [hcount, Ne.symm hcount, throw, throwThe, MonadExceptOf.throw]

/-- An object whose name starts with the entry, and which `protect_pages` does not skip. -/
def HasLibrary (cfg : Config) (args : PhdrSearchArgs) (objects : List DlPhdrInfo)
    (entry : List Char) : Prop :=
  ∃ info ∈ objects, entry <+: (basename info.dlpiName).toList ∧ selectsPages cfg args info = true

theorem hasLibrary_of_prefix {extra : String} (hextra : args.extraLibraries = some extra)
    {entry : List Char} (hentry : entry ∈ entries extra.toList) (hne : entry ≠ [])
    (hinfo : info ∈ objects) (hstarts : entry <+: (basename info.dlpiName).toList)
    (hsep : ';' ∉ (basename info.dlpiName).toList) : HasLibrary cfg args objects entry := by
  have hname : (basename info.dlpiName).toList.length ≠ 0 := by
    have hpos := List.length_pos_iff.mpr hne
    have hle := hstarts.length_le
    omega
  have haccepted : inExtraLibraries info args.extraLibraries = true := by
    rw [hextra, inExtraLibraries]
    simp only [if_neg hname]
    exact (entriesLoop_iff hsep _).mpr (.inl ⟨entry, hentry, hne, .inl hstarts⟩)
  exact ⟨info, hinfo, hstarts, by rw [selectsPages, haccepted, Bool.or_true, Bool.true_or]⟩

end Found

/-- A program without shared data in which these objects are loaded. -/
def hostWith (objects : List DlPhdrInfo) : Host where
  toProcess := obliging
  dlopen _ := none
  dlsym _ _ := 0
  setupCompartmentAddr := 0x400000
  untrustedStackptrAddr := 0x10000
  allocateStack _ := some 0x700000
  objects := objects

def threeLibraries : List DlPhdrInfo :=
  [libraryNamed "/lib/libb.so.2", libraryNamed "/lib/libc.so.6", libraryNamed "/lib/liba.so"]

end Ia2.Runtime
