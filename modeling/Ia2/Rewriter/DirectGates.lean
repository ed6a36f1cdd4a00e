import Ia2.Rewriter.GateTargets
import Mathlib.Data.List.Sort
import Mathlib.Data.String.Basic

/-!
# The direct gates and their linker arguments

The calls that a compartment makes into another one are redirected by the linker. For every gate the
rewriter writes a `--wrap` argument for the compartment that calls, and if several compartments call
a function it also tells `objcopy` to rename the function's symbol in each of them. The functions
move between the tables in between: from those with one caller to those with several, and back under
new names.

As long as no function has the name of a renamed symbol, this gives one gate for each function and
each compartment that declares it without a definition. The gates for the destructors of the
compartments are written afterwards, without a look at those that are there.
-/

namespace Ia2.SourceRewriter

/-- What the pass over the declarations leaves behind. It stores the signature of a function
whenever it records a declaration or a definition. -/
structure FnDecl (S : Type) where
  units : List TranslationUnit
  signatures : Table FnName S
  signed : ∀ fn, (signatures fn).isSome ↔ ∃ unit ∈ units, fn ∈ unit.declared ∨ fn ∈ unit.defined

def FnDecl.IsFunction {S : Type} (decl : FnDecl S) (fn : FnName) : Prop :=
  ∃ unit ∈ decl.units, fn ∈ unit.declared ∨ fn ∈ unit.defined

/-! ### The files of the compartments -/

abbrev Files := Nat → List String

def Files.empty : Files := fun _ => []

def Files.write (files : Files) (pkey : Nat) (line : String) : Files :=
  Function.update files pkey (files pkey ++ [line])

theorem Files.write_apply (files : Files) (pkey : Nat) (line : String) (c : Nat) :
    files.write pkey line c = files c ++ if pkey = c then [line] else [] := by
  by_cases hc : pkey = c
  · subst hc
    rw [write, Function.update_self, if_pos rfl]
  · rw [write, Function.update_of_ne (Ne.symm hc), if_neg hc, List.append_nil]

/-! ### The functions with several callers -/

structure Expansion (S : Type) where
  wrappers : Wrappers
  signatures : Table FnName S
  objcopy : Files

def redefineSym (fn : FnName) (caller : Nat) : String := fn ++ " " ++ renamed fn caller ++ "\n"

section Defs

variable {S : Type}

def renameFor (fn : FnName) (sig : S) (target : Nat) (e : Expansion S) (caller : Nat) :
    Expansion S :=
  if caller = target then e
  else
    { wrappers := addRenamed fn target e.wrappers caller
      signatures := e.signatures.insert (renamed fn caller) sig
      objcopy := e.objcopy.write caller (redefineSym fn caller) }

def expandFn (w : Callers) (e : Expansion S) (fn : FnName) : Except String (Expansion S) :=
  match w.multi fn with
  | none => .ok e
  | some callers =>
    match e.signatures fn with
    | none => .error ("ABI signature not known for function " ++ fn ++ "\n")
    | some sig =>
      match e.wrappers.pkeys fn with
      | none => .error ("pkey not known for function " ++ fn ++ "\n")
      | some target => .ok (callers.foldl (renameFor fn sig target) e)

/-- The maps of the source are ordered by name. -/
def sortedFns (units : List TranslationUnit) : List FnName := (fnNames units).insertionSort (· ≤ ·)

def sortedSymbols (num : Nat) (units : List TranslationUnit) : List FnName :=
  (symbols num units).insertionSort (· ≤ ·)

def expandFns (w : Callers) (decl : FnDecl S) : Except String (Expansion S) :=
  (sortedFns decl.units).foldlM (expandFn w)
    ⟨⟨w.direct, fnPkeys decl.units, .empty⟩, decl.signatures, .empty⟩

/-! ### The gates -/

structure DirectGate (S : Type) where
  symbol : FnName
  targetFn : FnName
  callerPkey : Nat
  targetPkey : Nat
  signature : S

def DirectGate.wrapperName (g : DirectGate S) : String := "__wrap_" ++ g.symbol

def DirectGate.toGate (g : DirectGate S) :
    Gate := .direct g.symbol g.targetFn g.callerPkey g.targetPkey

@[ext] structure Emitted (S : Type) where
  gates : List (DirectGate S)
  ld : Files

def wrapArg (symbol : FnName) : String := "--wrap=" ++ symbol ++ "\n"

def Emitted.add (out : Emitted S) (g : DirectGate S) (pkey : Nat) : Emitted S :=
  { gates := out.gates ++ [g], ld := out.ld.write pkey (wrapArg g.symbol) }

/-- A function without a key is taken to be in its caller's compartment. -/
def emitGate (e : Expansion S) (out : Emitted S) (symbol : FnName) : Except String (Emitted S) :=
  match e.wrappers.direct symbol with
  | none => .ok out
  | some caller =>
    match e.signatures symbol with
    | none => .error ("C ABI signature for function " ++ symbol ++ " not found by FnDecl pass\n")
    | some sig =>
      match e.wrappers.pkeys symbol with
      | none => .ok out
      | some target =>
        if caller = target then .ok out
        else .ok (out.add ⟨symbol, (e.wrappers.targets symbol).getD symbol, caller, target,
          sig⟩ caller)

def directGates (decl : FnDecl S) : Except String (Expansion S × Emitted S) := do
  let num ← numPkeys decl.units
  let e ← expandFns (collectCallers num decl.units) decl
  let out ← (sortedSymbols num decl.units).foldlM (emitGate e) ⟨[], .empty⟩
  return (e, out)

def destructorName (pkey : Nat) : FnName := "ia2_compartment_destructor_" ++ toString pkey

/-- The destructors are called from compartment 0, and each is wrapped in its own compartment. -/
def emitDestructor (signatures : Table FnName S) (out : Emitted S) (pkey : Nat) :
    Except String (Emitted S) :=
  match signatures (destructorName pkey) with
  | none => .error ("Could not find ia2_compartment_destructor_" ++ toString pkey ++
      "\nMake sure to #include ia2_compartment_init.inc for this compartment\n")
  | some sig => .ok (out.add ⟨destructorName pkey, destructorName pkey, 0, pkey, sig⟩ pkey)

def emitDestructors (num : Nat) (signatures : Table FnName S) (out : Emitted S) :
    Except String (Emitted S) :=
  (List.range' 1 (num - 1)).foldlM (emitDestructor signatures) out

/-- All direct gates that `main` writes. -/
def mainGates (decl : FnDecl S) : Except String (Expansion S × Emitted S) := do
  let num ← numPkeys decl.units
  let (e, out) ← directGates decl
  let final ← emitDestructors num e.signatures out
  return (e, final)

end Defs

variable {fn symbol : FnName} {units : List TranslationUnit} {caller pkey : Nat}

theorem mem_sortedFns :
    fn ∈ sortedFns units ↔ fn ∈ fnNames units := List.mem_insertionSort _

theorem mem_sortedSymbols {num : Nat} :
    symbol ∈ sortedSymbols num units ↔ symbol ∈ symbols num units := List.mem_insertionSort _

theorem nodup_sortedSymbols (num : Nat) (units : List TranslationUnit) :
    (sortedSymbols num units).Nodup :=
  (List.perm_insertionSort _ _).nodup_iff.mpr (List.nodup_dedup _)

/-! ### The tables after the loop over the functions with several callers -/

structure Signed {S : Type} (signatures : Table FnName S) (e : Expansion S) : Prop where
  eq : ∀ symbol, e.signatures symbol = (signatures symbol).or
    ((e.wrappers.targets symbol).bind signatures)
  target : ∀ symbol fn, e.wrappers.targets symbol = some fn → ∃ sig, signatures fn = some sig

section Expand

variable {S : Type} {signatures : Table FnName S} {e : Expansion S} {fn : FnName} {sig : S}
  {target : Nat}

theorem Signed.apply_eq (h : Signed signatures e) (hsig : signatures fn = some sig) :
    e.signatures fn = some sig := by
  rw [h.eq, hsig, Option.some_or]

theorem renameFor_wrappers (caller : Nat) :
    (renameFor fn sig target e caller).wrappers = addRenamed fn target e.wrappers caller := by
  by_cases heq : caller = target
  · rw [renameFor, addRenamed, if_pos heq, if_pos heq]
  · rw [renameFor, if_neg heq]

theorem Signed.renameFor (h : Signed signatures e) (hsig : signatures fn = some sig)
    (caller : Nat) : Signed signatures (renameFor fn sig target e caller) := by
  by_cases heq : caller = target
  · rwa [SourceRewriter.renameFor, if_pos heq]
  have hsignatures : (SourceRewriter.renameFor fn sig target e caller).signatures =
      e.signatures.insert (renamed fn caller) sig := by
    rw [SourceRewriter.renameFor, if_neg heq]
  have htargets : (SourceRewriter.renameFor fn sig target e caller).wrappers.targets =
      e.wrappers.targets.insert (renamed fn caller) fn := by
    rw [renameFor_wrappers, addRenamed, if_neg heq]
  constructor
  · intro symbol
    rw [hsignatures, htargets]
    by_cases hsymbol : symbol = renamed fn caller
    · subst hsymbol
      rw [Table.insert_self, Table.insert_self, h.eq]
      -- a symbol that already has a target also has that target's signature, and both insertions
      -- keep what is there
      cases hold : e.wrappers.targets (renamed fn caller) with
      | none => rw [Option.bind_none, Option.or_none, Option.none_or, Option.bind_some, hsig]
      | some fn' =>
        obtain ⟨sig', hsig'⟩ := h.target _ _ hold
        rw [Option.some_or, Option.bind_some, hsig', Option.or_assoc, Option.some_or]
    · rw [Table.insert_of_ne hsymbol, Table.insert_of_ne hsymbol]
      exact h.eq symbol
  · intro symbol fn' htarget
    rw [htargets] at htarget
    by_cases hsymbol : symbol = renamed fn caller
    · subst hsymbol
      rw [Table.insert_self] at htarget
      rcases Option.or_eq_some_iff.mp htarget with hold | ⟨-, hnew⟩
      · exact h.target _ _ hold
      · cases hnew
        exact ⟨sig, hsig⟩
    · rw [Table.insert_of_ne hsymbol] at htarget
      exact h.target symbol fn' htarget

theorem Signed.foldl (h : Signed signatures e) (hsig : signatures fn = some sig)
    (callers : List Nat) :
    Signed signatures (callers.foldl (SourceRewriter.renameFor fn sig target) e) := by
  induction callers generalizing e with
  | nil => exact h
  | cons caller callers ih => exact ih (h.renameFor hsig caller)

theorem foldl_renameFor_wrappers (callers : List Nat) :
    (callers.foldl (renameFor fn sig target) e).wrappers =
      callers.foldl (addRenamed fn target) e.wrappers := by
  induction callers generalizing e with
  | nil => rfl
  | cons caller callers ih => rw [List.foldl_cons, List.foldl_cons, ih, renameFor_wrappers]

theorem foldl_renameFor_objcopy {callers : List Nat} (hnodup : callers.Nodup)
    (hne : ∀ caller ∈ callers, caller ≠ target) (c : Nat) :
    (callers.foldl (renameFor fn sig target) e).objcopy c = e.objcopy c ++ if c ∈ callers
      then [redefineSym fn c] else [] := by
  induction callers generalizing e with
  | nil => simp
  | cons caller callers ih =>
    obtain ⟨hhead, hcallers⟩ := List.nodup_cons.mp hnodup
    have hstep : (renameFor fn sig target e caller).objcopy c = e.objcopy c ++ if caller = c
        then [redefineSym fn caller] else [] := by
      rw [renameFor, if_neg (hne caller List.mem_cons_self)]
      exact Files.write_apply _ _ _ c
    rw [List.foldl_cons, ih hcallers fun caller' hcaller' =>
      hne caller' (List.mem_cons_of_mem _ hcaller'), hstep, List.append_assoc]
    by_cases hc : caller = c
    · subst hc
      simp [hhead]
    · simp [hc, Ne.symm hc]

end Expand

def renamedFns (calls : FnName → List Nat) (names : List FnName) (c : Nat) : List FnName :=
  names.filter fun fn => 2 ≤ (calls fn).length ∧ c ∈ calls fn

structure Filed {S : Type} (calls : FnName → List Nat) (signatures : Table FnName S)
    (names : List FnName) (e : Expansion S) : Prop where
  signed : Signed signatures e
  objcopy : ∀ c, e.objcopy c = (renamedFns calls names c).map (redefineSym · c)

section Loop

variable {S : Type} {calls : FnName → List Nat} {w : Callers} {pkeys : Table FnName Nat}
  {signatures : Table FnName S}

variable {done : Set (FnName × Nat)} {e : Expansion S} {names : List FnName}

theorem Renamable.expandFn (hr : Renamable calls pkeys) (hw : ∀ fn, w.entry fn = entryOf (calls fn))
    (hnodup : ∀ fn, (calls fn).Nodup)
    (hsigned : ∀ pair ∈ renamings calls, ∃ sig, signatures pair.1 = some sig)
    (h : Expanded w.direct pkeys done e.wrappers) (hfiled : Filed calls signatures names e)
    (fn : FnName) :
    ∃ e', SourceRewriter.expandFn w e fn = .ok e' ∧
      SourceRewriter.expandMulticaller w e.wrappers fn = .ok e'.wrappers ∧
      Filed calls signatures (names ++ [fn]) e' := by
  have hmulti : w.multi fn = if 2 ≤ (calls fn).length then some (calls fn).reverse else none := by
    rw [← entryOf_snd, ← hw]
    rfl
  by_cases hlen : 2 ≤ (calls fn).length
  · rw [if_pos hlen] at hmulti
    obtain ⟨caller, hcaller⟩ := List.exists_mem_of_length_pos (show 0 < (calls fn).length by omega)
    obtain ⟨target, htarget⟩ := hr.known (fn, caller) ⟨hlen, hcaller⟩
    obtain ⟨sig, hsig⟩ := hsigned (fn, caller) ⟨hlen, hcaller⟩
    have hne : ∀ caller ∈ (calls fn).reverse, caller ≠ target := by
      intro caller hcaller heq
      subst heq
      exact hr.other (fn, caller) ⟨hlen, List.mem_reverse.mp hcaller⟩ htarget
    refine ⟨(calls fn).reverse.foldl (renameFor fn sig target) e, ?_, ?_, ?_, ?_⟩
    · simp only [SourceRewriter.expandFn, hmulti, hfiled.signed.apply_eq hsig, h.pkeys_eq htarget]
    · simp only [SourceRewriter.expandMulticaller, hmulti, h.pkeys_eq htarget,
        foldl_renameFor_wrappers]
    · exact hfiled.signed.foldl hsig _
    · intro c
      rw [foldl_renameFor_objcopy (List.nodup_reverse.mpr (hnodup fn)) hne, hfiled.objcopy,
        renamedFns, renamedFns, List.filter_append, List.map_append]
      by_cases hc : c ∈ calls fn
      · simp [hc, hlen]
      · simp [hc]
  · rw [if_neg hlen] at hmulti
    refine ⟨e, ?_, ?_, hfiled.signed, ?_⟩
    · simp only [SourceRewriter.expandFn, hmulti]
    · simp only [SourceRewriter.expandMulticaller, hmulti]
    · intro c
      rw [hfiled.objcopy, renamedFns, renamedFns, List.filter_append]
      simp [hlen]

theorem Renamable.foldlM_expandFn (hr : Renamable calls pkeys)
    (hw : ∀ fn, w.entry fn = entryOf (calls fn)) (hnodup : ∀ fn, (calls fn).Nodup)
    (hsigned : ∀ pair ∈ renamings calls, ∃ sig, signatures pair.1 = some sig) (rest : List FnName)
    (hdone : done ⊆ renamings calls) (h : Expanded w.direct pkeys done e.wrappers)
    (hfiled : Filed calls signatures names e) :
    ∃ e', rest.foldlM (SourceRewriter.expandFn w) e = .ok e' ∧
      rest.foldlM (SourceRewriter.expandMulticaller w) e.wrappers = .ok e'.wrappers ∧
      Filed calls signatures (names ++ rest) e' := by
  induction rest generalizing done names e with
  | nil => exact ⟨e, rfl, rfl, by rwa [List.append_nil]⟩
  | cons fn rest ih =>
    obtain ⟨e₁, he₁, ht₁, hfiled₁⟩ := hr.expandFn hw hnodup hsigned h hfiled fn
    obtain ⟨t, ht, hexpanded⟩ := hr.expandMulticaller hw hdone h fn
    cases ht₁.symm.trans ht
    have hsub : done ∪ {pair ∈ renamings calls | pair.1 = fn} ⊆ renamings calls :=
      Set.union_subset hdone fun pair hpair => hpair.1
    obtain ⟨e₂, he₂, ht₂, hfiled₂⟩ := ih hsub hexpanded hfiled₁
    refine ⟨e₂, ?_, ?_, ?_⟩
    · rw [List.foldlM_cons, he₁]
      exact he₂
    · rw [List.foldlM_cons, ht₁]
      exact ht₂
    · rwa [List.append_assoc, List.singleton_append] at hfiled₂

end Loop

/-! ### The loop over the wrappers -/

section Emit

variable {S : Type} {e : Expansion S} {out : Emitted S} {symbol : FnName}

def gateOf (e : Expansion S) (symbol : FnName) : Option (DirectGate S) :=
  match e.wrappers.direct symbol, e.signatures symbol, e.wrappers.pkeys symbol with
  | some caller, some sig, some target =>
    if caller = target then none
      else some ⟨symbol, (e.wrappers.targets symbol).getD symbol, caller, target, sig⟩
  | _, _, _ => none

theorem gateOf_eq_some {g : DirectGate S} :
    gateOf e symbol = some g ↔ symbol = g.symbol ∧ directGate e.wrappers g.symbol = some g.toGate ∧
      e.signatures g.symbol = some g.signature := by
  constructor
  · intro h
    unfold gateOf at h
    split at h
    case h_1 caller sig target hcaller hsig htarget =>
      split at h
      case isTrue => cases h
      case isFalse hne =>
        cases h
        exact ⟨rfl, directGate_eq_some.mpr ⟨caller, target, hcaller, htarget, hne, rfl⟩, hsig⟩
    case h_2 => cases h
  · rintro ⟨rfl, hgate, hsig⟩
    obtain ⟨caller, target, hcaller, htarget, hne, heq⟩ := directGate_eq_some.mp hgate
    obtain ⟨-, hfn, rfl, rfl⟩ := Gate.direct.inj heq
    simp only [gateOf, hcaller, hsig, htarget, if_neg hne, ← hfn]

def wrapArgs (gates : List (DirectGate S)) (c : Nat) : List String :=
  (gates.filter (·.callerPkey = c)).map fun g => wrapArg g.symbol

def Emitted.Linked (out : Emitted S) : Prop := ∀ c, out.ld c = wrapArgs out.gates c

theorem Emitted.Linked.add (h : out.Linked) (g : DirectGate S) :
    (out.add g g.callerPkey).Linked := by
  intro c
  have hld : (out.add g g.callerPkey).ld c = out.ld c ++ if g.callerPkey = c then [wrapArg g.symbol]
    else [] := Files.write_apply _ _ _ c
  rw [hld, h, wrapArgs, wrapArgs, Emitted.add, List.filter_append, List.map_append]
  by_cases hc : g.callerPkey = c
  · simp [hc]
  · simp [hc]

theorem emitGate_ok (hsigned : ∀ caller, e.wrappers.direct symbol = some caller → ∃ sig,
    e.signatures symbol = some sig) (h : out.Linked) :
    ∃ out', emitGate e out symbol = .ok out' ∧ out'.gates = out.gates ++ (gateOf e symbol).toList ∧
      out'.Linked := by
  cases hcaller : e.wrappers.direct symbol with
  | none => exact ⟨out, by simp only [emitGate, hcaller], by simp [gateOf, hcaller], h⟩
  | some caller =>
    obtain ⟨sig, hsig⟩ := hsigned caller hcaller
    cases htarget : e.wrappers.pkeys symbol with
    | none =>
      exact ⟨out, by simp only [emitGate, hcaller, hsig, htarget], by simp [gateOf, htarget], h⟩
    | some target =>
      by_cases heq : caller = target
      · exact ⟨out, by simp only [emitGate, hcaller, hsig, htarget, if_pos heq], by
        simp [gateOf, hcaller, hsig, htarget, heq], h⟩
      · refine ⟨_, by simp only [emitGate, hcaller, hsig, htarget, if_neg heq], ?_,
          h.add ⟨symbol, (e.wrappers.targets symbol).getD symbol, caller, target, sig⟩⟩
        simp [gateOf, hcaller, hsig, htarget, heq, Emitted.add]

theorem foldlM_emitGate (hsigned : ∀ symbol caller, e.wrappers.direct symbol = some caller → ∃ sig,
    e.signatures symbol = some sig) (symbols : List FnName) (h : out.Linked) :
    ∃ out', symbols.foldlM (emitGate e) out = .ok out' ∧
      out'.gates = out.gates ++ symbols.filterMap (gateOf e) ∧ out'.Linked := by
  induction symbols generalizing out with
  | nil => exact ⟨out, rfl, by simp, h⟩
  | cons symbol symbols ih =>
    obtain ⟨out₁, hout₁, hgates₁, hlinked₁⟩ := emitGate_ok (hsigned symbol) h
    obtain ⟨out₂, hout₂, hgates₂, hlinked₂⟩ := ih hlinked₁
    refine ⟨out₂, ?_, ?_, hlinked₂⟩
    · rw [List.foldlM_cons, hout₁]
      exact hout₂
    · rw [hgates₂, hgates₁, List.append_assoc]
      cases hgate : gateOf e symbol with
      | none => simp [hgate]
      | some g => simp [hgate]

theorem nodup_symbols_filterMap {symbols : List FnName} (h : symbols.Nodup) :
    ((symbols.filterMap (gateOf e)).map (·.symbol)).Nodup := by
  rw [List.map_filterMap]
  apply h.filterMap
  intro symbol symbol' name hname hname'
  obtain ⟨g, hg, rfl⟩ := Option.map_eq_some_iff.mp hname
  obtain ⟨g', hg', heq⟩ := Option.map_eq_some_iff.mp hname'
  rw [(gateOf_eq_some.mp hg).1, (gateOf_eq_some.mp hg').1, heq]

def destructorGate (signatures : Table FnName S) (pkey : Nat) : Option (DirectGate S) :=
  (signatures (destructorName pkey)).map fun sig =>
    ⟨destructorName pkey, destructorName pkey, 0, pkey, sig⟩

variable {pkeys : List Nat}

theorem foldlM_emitDestructor_eq_ok_iff {signatures : Table FnName S} {final : Emitted S} :
    pkeys.foldlM (emitDestructor signatures) out = .ok final ↔
      (∀ pkey ∈ pkeys, (signatures (destructorName pkey)).isSome) ∧
      final.gates = out.gates ++ pkeys.filterMap (destructorGate signatures) ∧
      final.ld = pkeys.foldl (fun ld pkey => ld.write pkey (wrapArg (destructorName pkey)))
        out.ld := by
  induction pkeys generalizing out with
  | nil =>
    have hok : pure out = (Except.ok final : Except String (Emitted S)) ↔ out = final :=
      ⟨Except.ok.inj, congrArg Except.ok⟩
    rw [List.foldlM_nil, List.filterMap_nil, List.append_nil, List.foldl_nil, ← Emitted.ext_iff,
      hok, eq_comm]
    simp
  | cons pkey pkeys ih =>
    rw [List.foldlM_cons]
    cases hsig : signatures (destructorName pkey) with
    | none => simp [emitDestructor, hsig, bind, Except.bind]
    | some sig =>
      have hstep : emitDestructor signatures out pkey =
          .ok (out.add ⟨destructorName pkey, destructorName pkey, 0, pkey, sig⟩ pkey) := by
        simp only [emitDestructor, hsig]
      simp [hstep, bind, Except.bind, ih, hsig, destructorGate, Emitted.add]

theorem foldl_write_destructors (hnodup : pkeys.Nodup) (ld : Files) (c : Nat) :
    pkeys.foldl (fun ld pkey => ld.write pkey (wrapArg (destructorName pkey))) ld c =
      ld c ++ if c ∈ pkeys then [wrapArg (destructorName c)] else [] := by
  induction pkeys generalizing ld with
  | nil => simp
  | cons pkey pkeys ih =>
    obtain ⟨hhead, hpkeys⟩ := List.nodup_cons.mp hnodup
    rw [List.foldl_cons, ih hpkeys, Files.write_apply, List.append_assoc]
    by_cases hc : pkey = c
    · subst hc
      simp [hhead]
    · simp [hc, Ne.symm hc]

end Emit

/-! ### The gates by function and caller -/

def symbolFor (calls : FnName → List Nat) (fn : FnName) (caller : Nat) : FnName :=
  if 2 ≤ (calls fn).length then renamed fn caller else fn

section Fresh

variable {calls : FnName → List Nat} {symbol fn : FnName} {caller : Nat}

theorem wraps_iff_mem (hfresh : ∀ pair ∈ renamings calls, calls (renamed pair.1 pair.2) = []) :
    Wraps calls symbol fn caller ↔ caller ∈ calls fn ∧ symbol = symbolFor calls fn caller := by
  constructor
  · intro h
    cases h with
    | sole hcalls _ => simp [hcalls, symbolFor]
    | clash hpair hcalls =>
      rw [hfresh _ hpair] at hcalls
      cases hcalls
    | renamed hpair _ => exact ⟨hpair.2, (if_pos hpair.1).symm⟩
  · rintro ⟨hcaller, rfl⟩
    by_cases hlen : 2 ≤ (calls fn).length
    · rw [symbolFor, if_pos hlen]
      refine .renamed ⟨hlen, hcaller⟩ fun other hother => ?_
      rw [hfresh (fn, caller) ⟨hlen, hcaller⟩] at hother
      cases hother
    · have hone : (calls fn).length = 1 := by
        have := List.length_pos_of_mem hcaller
        omega
      obtain ⟨other, hcalls⟩ := List.length_eq_one_iff.mp hone
      rw [hcalls, List.mem_singleton] at hcaller
      subst hcaller
      rw [symbolFor, if_neg hlen]
      refine .sole hcalls fun pair hpair heq => ?_
      have hnone := hfresh pair hpair
      rw [heq, hcalls] at hnone
      cases hnone

theorem or_symbolFor {V : Type} {m : Table FnName V}
    (hfresh : ∀ pair ∈ renamings calls, m (renamed pair.1 pair.2) = none)
    (hcaller : caller ∈ calls fn) :
    (m (symbolFor calls fn caller)).or (m fn) = m fn := by
  by_cases hlen : 2 ≤ (calls fn).length
  · rw [symbolFor, if_pos hlen, hfresh (fn, caller) ⟨hlen, hcaller⟩, Option.none_or]
  · rw [symbolFor, if_neg hlen, Option.or_self]

end Fresh

theorem Wraps.exists_caller {calls : FnName → List Nat} (h : Wraps calls symbol fn caller) :
    ∃ c, c ∈ calls fn := by
  cases h with
  | sole hcalls _ => exact ⟨caller, hcalls ▸ List.mem_singleton_self caller⟩
  | clash hpair _ => exact ⟨_, hpair.2⟩
  | renamed hpair _ => exact ⟨caller, hpair.2⟩

theorem Signed.apply_getD {S : Type} {signatures : Table FnName S} {e : Expansion S}
    (h : Signed signatures e) (symbol : FnName) :
    e.signatures symbol = (signatures symbol).or
      (signatures ((e.wrappers.targets symbol).getD symbol)) := by
  rw [h.eq]
  cases e.wrappers.targets symbol with
  | none => rw [Option.bind_none, Option.or_none, Option.getD_none, Option.or_self]
  | some fn => rfl

section Decl

variable {S : Type} {decl : FnDecl S} {num : Nat}

theorem FnDecl.isFunction_of_mem_callers (h : caller ∈ callers num decl.units fn) :
    decl.IsFunction fn := by
  obtain ⟨unit, hunit, -, hfn⟩ := mem_declaredFns.mp (mem_undefinedFns.mp (mem_callers.mp h).2).1
  exact ⟨unit, hunit, .inl hfn⟩

theorem FnDecl.exists_signature (h : decl.IsFunction fn) :
    ∃ sig, decl.signatures fn = some sig :=
  Option.isSome_iff_exists.mp ((decl.signed fn).mpr h)

theorem FnDecl.signatures_eq_none (h : ¬ decl.IsFunction fn) :
    decl.signatures fn = none := by
  rw [← Option.not_isSome_iff_eq_none]
  exact fun hsome => h ((decl.signed fn).mp hsome)

theorem FnDecl.fnPkeys_eq_none (h : ¬ decl.IsFunction fn) :
    fnPkeys decl.units fn = none :=
  Table.collect_eq_none fun unit hunit hfn => h ⟨unit, hunit, .inr hfn⟩

theorem FnDecl.callers_eq_nil (h : ¬ decl.IsFunction fn) :
    callers num decl.units fn = [] := by
  rw [List.eq_nil_iff_forall_not_mem]
  exact fun caller hcaller => h (isFunction_of_mem_callers hcaller)

theorem fnPkeys_ne (h : fn ∈ undefinedFns units caller) : fnPkeys units fn ≠ some caller := by
  intro hpkey
  obtain ⟨unit, hunit, hfn, hkey⟩ := Table.exists_of_collect hpkey
  exact (mem_undefinedFns.mp h).2 (mem_definedFns.mpr ⟨unit, hunit, hkey, hfn⟩)

theorem FnDecl.renamable (decl : FnDecl S) (hnum : numPkeys decl.units = .ok num)
    (hknown : ∀ fn, 2 ≤ (callers num decl.units fn).length → ∃ pkey,
      fnPkeys decl.units fn = some pkey) :
    Renamable (callers num decl.units) (fnPkeys decl.units) where
  bound _ hpair := (mem_callers.mp hpair.2).1.trans_le (numPkeys_ok hnum).1
  known pair hpair := hknown pair.1 hpair.1
  other _ hpair := fnPkeys_ne (mem_callers.mp hpair.2).2

theorem FnDecl.directGates_ok (decl : FnDecl S) (hnum : numPkeys decl.units = .ok num)
    (hknown : ∀ fn, 2 ≤ (callers num decl.units fn).length → ∃ pkey,
      fnPkeys decl.units fn = some pkey) :
    ∃ e out, directGates decl = .ok (e, out) ∧
      Expanded (collectCallers num decl.units).direct (fnPkeys decl.units)
        (renamings (callers num decl.units)) e.wrappers ∧
      Filed (callers num decl.units) decl.signatures (sortedFns decl.units) e ∧
      out.gates = (sortedSymbols num decl.units).filterMap (gateOf e) ∧ out.Linked := by
  have hr := decl.renamable hnum hknown
  have hw := collectCallers_entry num decl.units
  have hinit : Filed (callers num decl.units) decl.signatures []
      ⟨⟨(collectCallers num decl.units).direct, fnPkeys decl.units, .empty⟩, decl.signatures,
      .empty⟩ := by
    refine ⟨⟨fun symbol => ?_, fun symbol fn htarget => ?_⟩, fun c => rfl⟩
    · exact (Option.or_none ..).symm
    · cases htarget
  obtain ⟨e, he, ht, hfiled⟩ := hr.foldlM_expandFn hw (fun fn => List.nodup_range.filter _)
    (fun pair hpair => FnDecl.exists_signature (FnDecl.isFunction_of_mem_callers hpair.2))
    (sortedFns decl.units) (Set.empty_subset _) (expanded_empty _ _) hinit
  obtain ⟨t, ht', hexpanded⟩ :=
    hr.foldlM hw (sortedFns decl.units) (Set.empty_subset _) (expanded_empty _ _)
  cases ht.symm.trans ht'
  have hall : ∅ ∪ {pair ∈ renamings (callers num decl.units) | pair.1 ∈ sortedFns decl.units} =
      renamings (callers num decl.units) := by
    ext pair
    simp only [Set.empty_union, Set.mem_ofPred_eq, and_iff_left_iff_imp]
    exact fun hpair => mem_sortedFns.mpr (mem_fnNames (mem_callers.mp hpair.2).2)
  rw [hall] at hexpanded
  have hsigned : ∀ symbol caller, e.wrappers.direct symbol = some caller → ∃ sig,
      e.signatures symbol = some sig := by
    intro symbol caller hcaller
    obtain ⟨other, hother⟩ := ((wraps_iff hw hexpanded).mpr ⟨hcaller, rfl⟩).exists_caller
    obtain ⟨sig, hsig⟩ := FnDecl.exists_signature (FnDecl.isFunction_of_mem_callers hother)
    rw [hfiled.signed.apply_getD, hsig, Option.or_some]
    exact ⟨_, rfl⟩
  have hempty : Emitted.Linked (⟨[], .empty⟩ : Emitted S) := fun c => rfl
  obtain ⟨out, hout, hgates, hlinked⟩ :=
    foldlM_emitGate hsigned (sortedSymbols num decl.units) hempty
  refine ⟨e, out, ?_, hexpanded, hfiled, hgates, hlinked⟩
  have he' : expandFns (collectCallers num decl.units) decl = .ok e := he
  simp only [directGates, hnum, he', hout, bind, Except.bind, pure, Except.pure]

theorem FnDecl.mem_gates {e : Expansion S}
    (hnames : ∀ fn fn' n, decl.IsFunction fn → decl.IsFunction fn' → fn ≠ renamed fn' n)
    (hexpanded : Expanded (collectCallers num decl.units).direct (fnPkeys decl.units)
    (renamings (callers num decl.units)) e.wrappers) (hsigned : Signed decl.signatures e)
    (g : DirectGate S) :
    g ∈ (sortedSymbols num decl.units).filterMap (gateOf e) ↔
      g.callerPkey < num ∧ g.targetFn ∈ undefinedFns decl.units g.callerPkey ∧
      fnPkeys decl.units g.targetFn = some g.targetPkey ∧ decl.signatures g.targetFn =
        some g.signature ∧
      g.symbol = symbolFor (callers num decl.units) g.targetFn g.callerPkey := by
  have hw := collectCallers_entry num decl.units
  have hfresh : ∀ pair ∈ renamings (callers num decl.units),
      ¬ decl.IsFunction (renamed pair.1 pair.2) :=
    fun pair hpair hfn => hnames _ pair.1 pair.2 hfn (isFunction_of_mem_callers hpair.2) rfl
  have hwraps := @wraps_iff_mem (callers num decl.units) g.symbol g.targetFn g.callerPkey
    fun pair hpair => callers_eq_nil (hfresh pair hpair)
  have hpkeys := @or_symbolFor (callers num decl.units) g.targetFn g.callerPkey _
    (fnPkeys decl.units) fun pair hpair => fnPkeys_eq_none (hfresh pair hpair)
  have hsigs := @or_symbolFor (callers num decl.units) g.targetFn g.callerPkey _ decl.signatures
    fun pair hpair => signatures_eq_none (hfresh pair hpair)
  rw [List.mem_filterMap]
  constructor
  · rintro ⟨symbol, -, hgate⟩
    obtain ⟨-, hdirect, hsig⟩ := gateOf_eq_some.mp hgate
    obtain ⟨caller, target, hcaller, htarget, -, heq⟩ := directGate_eq_some.mp hdirect
    obtain ⟨-, hfn, rfl, rfl⟩ := Gate.direct.inj heq
    have hwrap := (wraps_iff hw hexpanded).mpr ⟨hcaller, hfn.symm⟩
    obtain ⟨hmem, hsymbol⟩ := hwraps.mp hwrap
    rw [hwrap.pkeys_eq hexpanded, hsymbol, hpkeys hmem] at htarget
    rw [hsigned.apply_getD, ← hfn, hsymbol, hsigs hmem] at hsig
    obtain ⟨hlt, hundefined⟩ := mem_callers.mp hmem
    exact ⟨hlt, hundefined, htarget, hsig, hsymbol⟩
  · rintro ⟨hlt, hundefined, htarget, hsig, hsymbol⟩
    have hmem := mem_callers.mpr ⟨hlt, hundefined⟩
    have hwrap := hwraps.mpr ⟨hmem, hsymbol⟩
    obtain ⟨hcaller, hfn⟩ := (wraps_iff hw hexpanded).mp hwrap
    have hne : g.callerPkey ≠ g.targetPkey := fun heq => fnPkeys_ne hundefined (heq ▸ htarget)
    refine ⟨g.symbol, mem_sortedSymbols.mpr (mem_symbols hwrap),
      gateOf_eq_some.mpr ⟨rfl,
      directGate_eq_some.mpr ⟨g.callerPkey, g.targetPkey, hcaller, ?_, hne, ?_⟩, ?_⟩⟩
    · rw [hwrap.pkeys_eq hexpanded, hsymbol, hpkeys hmem, htarget]
    · rw [hfn]
      rfl
    · rw [hsigned.apply_getD, hfn, hsymbol, hsigs hmem, hsig]

theorem nodup_wrapperNames {gates : List (DirectGate S)} (h : (gates.map (·.symbol)).Nodup) :
    (gates.map DirectGate.wrapperName).Nodup := by
  have hinj : Function.Injective fun symbol : FnName => "__wrap_" ++ symbol := by
    intro symbol symbol' heq
    have hlist := congrArg String.toList heq
    simp only [String.toList_append] at hlist
    exact String.toList_inj.mp (List.append_cancel_left hlist)
  have hmap := h.map hinj
  rwa [List.map_map] at hmap

end Decl

/-! ### The destructors -/

theorem toList_destructorName (pkey : Nat) : (destructorName pkey).toList =
    "ia2_compartment_destructor".toList ++ '_' :: (toString pkey).toList := by
  have hsep : "ia2_compartment_destructor_" = "ia2_compartment_destructor" ++ "_" := by
    decide +kernel
  have hunderscore : "_".toList = ['_'] := by decide
  have hname : destructorName pkey = "ia2_compartment_destructor" ++ "_" ++ toString pkey :=
    congrArg (· ++ toString pkey) hsep
  rw [hname, String.toList_append, String.toList_append, hunderscore, List.append_assoc,
    List.singleton_append]

theorem destructorName_inj {pkey' : Nat} (hpkey : pkey < maxPkeys) (hpkey' : pkey' < maxPkeys)
    (h : destructorName pkey = destructorName pkey') : pkey = pkey' := by
  have hlist := congrArg String.toList h
  rw [toList_destructorName, toList_destructorName] at hlist
  exact digits_inj pkey hpkey pkey' hpkey' (List.cons.inj (List.append_cancel_left hlist)).2

theorem destructorName_ne_renamed (hpkey : pkey < maxPkeys) (hcaller : caller < maxPkeys)
    (fn : FnName) : renamed fn caller ≠ destructorName pkey := by
  intro h
  have hlist := congrArg String.toList h
  rw [toList_renamed, toList_destructorName] at hlist
  have hdigits : (toString caller).toList = (toString pkey).toList := by
    have hrev := congrArg (fun l => l.reverse.takeWhile (· ≠ '_')) hlist
    simp only [takeWhile_reverse_append (digits_ne_underscore caller hcaller),
      takeWhile_reverse_append (digits_ne_underscore pkey hpkey)] at hrev
    exact List.reverse_inj.mp hrev
  rw [hdigits] at hlist
  have hlast := congrArg List.getLast? (List.append_cancel_right hlist)
  simp at hlast

section Main

variable {S : Type} {decl : FnDecl S} {num : Nat} {e : Expansion S} {out : Emitted S}

def FnDecl.Crosses (decl : FnDecl S) (num : Nat) (fn : FnName) (c : Nat) : Prop :=
  c < num ∧ fn ∈ undefinedFns decl.units c ∧ (fnPkeys decl.units fn).isSome

instance (fn : FnName) (c : Nat) : Decidable (decl.Crosses num fn c) :=
  inferInstanceAs (Decidable (_ ∧ _ ∧ _))

/-- What the bookkeeping is for. Besides the gates of the calls there are those of the destructors,
and a compartment wraps its own destructor. -/
structure FnDecl.Exact (decl : FnDecl S) (num : Nat) (e : Expansion S)
    (final : Emitted S) : Prop where
  one : ∀ fn c, decl.Crosses num fn c →
    ∃ g, final.gates.filter (fun g => g.targetFn = fn ∧ g.callerPkey = c) = [g] ∧
      fnPkeys decl.units fn = some g.targetPkey ∧ decl.signatures fn = some g.signature ∧
      g.symbol = symbolFor (callers num decl.units) fn c
  only : ∀ g ∈ final.gates, decl.Crosses num g.targetFn g.callerPkey ∨
    ∃ pkey, 1 ≤ pkey ∧ pkey < num ∧ g.symbol = destructorName pkey ∧
      g.targetFn = destructorName pkey ∧ g.callerPkey = 0 ∧ g.targetPkey = pkey
  names : (final.gates.map DirectGate.wrapperName).Nodup
  ld : ∀ c, final.ld c =
    wrapArgs (final.gates.filter fun g => decl.Crosses num g.targetFn g.callerPkey) c ++
      if 1 ≤ c ∧ c < num then [wrapArg (destructorName c)] else []
  objcopy : ∀ c, e.objcopy c =
    (renamedFns (callers num decl.units) (sortedFns decl.units) c).map (redefineSym · c)

structure FnDecl.Spec (decl : FnDecl S) (num : Nat) (e : Expansion S) (out : Emitted S) : Prop where
  mem : ∀ g, g ∈ out.gates ↔ g.callerPkey < num ∧
    g.targetFn ∈ undefinedFns decl.units g.callerPkey ∧
    fnPkeys decl.units g.targetFn = some g.targetPkey ∧
    decl.signatures g.targetFn = some g.signature ∧
    g.symbol = symbolFor (callers num decl.units) g.targetFn g.callerPkey
  pairs : (out.gates.map fun g => (g.targetFn, g.callerPkey)).Nodup
  symbols : (out.gates.map (·.symbol)).Nodup
  linked : out.Linked
  objcopy : ∀ c, e.objcopy c =
    (renamedFns (callers num decl.units) (sortedFns decl.units) c).map (redefineSym · c)
  signatures : ∀ pkey < maxPkeys,
    e.signatures (destructorName pkey) = decl.signatures (destructorName pkey)

theorem FnDecl.directGates_spec (decl : FnDecl S) (hnum : numPkeys decl.units = .ok num)
    (hknown : ∀ fn, 2 ≤ (callers num decl.units fn).length → ∃ pkey,
      fnPkeys decl.units fn = some pkey)
    (hnames : ∀ fn fn' n, decl.IsFunction fn → decl.IsFunction fn' → fn ≠ renamed fn' n) :
    ∃ e out, directGates decl = .ok (e, out) ∧ decl.Spec num e out := by
  obtain ⟨e, out, hout, hexpanded, hfiled, hgates, hlinked⟩ := decl.directGates_ok hnum hknown
  have hmem : ∀ g, g ∈ out.gates ↔ _ :=
    fun g => hgates ▸ FnDecl.mem_gates hnames hexpanded hfiled.signed g
  have hsymbols : (out.gates.map (·.symbol)).Nodup := by
    rw [hgates]
    exact nodup_symbols_filterMap (nodup_sortedSymbols _ _)
  have hr := decl.renamable hnum hknown
  refine ⟨e, out, hout, hmem, ?_, hsymbols, hlinked, hfiled.objcopy, ?_⟩
  · -- the symbol of a gate is a function of the pair
    have hpair : out.gates.map (·.symbol) =
        (out.gates.map fun g => (g.targetFn, g.callerPkey)).map fun pair =>
          symbolFor (callers num decl.units) pair.1 pair.2 := by
      rw [List.map_map]
      exact List.map_congr_left fun g hg => ((hmem g).mp hg).2.2.2.2
    rw [hpair] at hsymbols
    exact List.Nodup.of_map _ hsymbols
  · intro pkey hpkey
    have hmiss := (hexpanded.miss (destructorName pkey) fun pair hpair =>
      destructorName_ne_renamed hpkey (hr.bound pair hpair) pair.1).1
    rw [hfiled.signed.eq, hmiss, Option.bind_none, Option.or_none]

variable {g : DirectGate S}

theorem FnDecl.Spec.crosses (h : decl.Spec num e out) (hg : g ∈ out.gates) :
    decl.Crosses num g.targetFn g.callerPkey := by
  obtain ⟨hlt, hundefined, hkey, -, -⟩ := (h.mem g).mp hg
  exact ⟨hlt, hundefined, by rw [hkey]; rfl⟩

theorem FnDecl.Spec.exists_gate (h : decl.Spec num e out) {c : Nat}
    (hcrosses : decl.Crosses num fn c) : ∃ g ∈ out.gates, g.targetFn = fn ∧ g.callerPkey = c ∧
      fnPkeys decl.units fn = some g.targetPkey ∧ decl.signatures fn = some g.signature ∧
      g.symbol = symbolFor (callers num decl.units) fn c := by
  obtain ⟨hlt, hundefined, hkey⟩ := hcrosses
  obtain ⟨target, htarget⟩ := Option.isSome_iff_exists.mp hkey
  obtain ⟨sig, hsig⟩ :=
    FnDecl.exists_signature (FnDecl.isFunction_of_mem_callers (mem_callers.mpr ⟨hlt, hundefined⟩))
  exact ⟨⟨symbolFor (callers num decl.units) fn c, fn, c, target, sig⟩,
    (h.mem _).mpr ⟨hlt, hundefined, htarget, hsig, rfl⟩, rfl, rfl, htarget, hsig, rfl⟩

theorem FnDecl.Spec.filter_eq (h : decl.Spec num e out) (hg : g ∈ out.gates) :
    out.gates.filter (fun g' => g'.targetFn = g.targetFn ∧ g'.callerPkey = g.callerPkey) = [g] := by
  have hinj := List.inj_on_of_nodup_map h.pairs
  have hnodup : out.gates.Nodup := List.Nodup.of_map _ h.pairs
  have hmem : ∀ g' ∈ out.gates, decide (g'.targetFn = g.targetFn ∧ g'.callerPkey = g.callerPkey) =
      true → g' = g := by
    intro g' hg' heq
    obtain ⟨hfn, hcaller⟩ := of_decide_eq_true heq
    exact hinj hg' hg (Prod.ext hfn hcaller)
  apply List.perm_singleton.mp
  rw [List.perm_ext_iff_of_nodup (hnodup.filter _) (List.nodup_singleton g)]
  intro g'
  rw [List.mem_filter, List.mem_singleton]
  constructor
  · exact fun hg' => hmem g' hg'.1 hg'.2
  · rintro rfl
    exact ⟨hg, by simp⟩

/-- A destructor that is called only by two or more compartments other than 0, or by none. -/
def FnDecl.Apart (decl : FnDecl S) (num pkey : Nat) : Prop :=
  (fnPkeys decl.units (destructorName pkey)).isSome →
    callers num decl.units (destructorName pkey) = [] ∨
      2 ≤ (callers num decl.units (destructorName pkey)).length ∧
        0 ∉ callers num decl.units (destructorName pkey)

theorem FnDecl.Apart.not_crosses (h : decl.Apart num pkey) :
    ¬ decl.Crosses num (destructorName pkey) 0 := by
  intro hcrosses
  have hmem := mem_callers.mpr ⟨hcrosses.1, hcrosses.2.1⟩
  rcases h hcrosses.2.2 with hnone | hmany
  · rw [hnone] at hmem
    cases hmem
  · exact hmany.2 hmem

theorem FnDecl.Apart.symbol_ne (hnum : num ≤ maxPkeys) (hpkey : pkey < num)
    (h : decl.Apart num pkey) (hspec : decl.Spec num e out) (hg : g ∈ out.gates) :
    g.symbol ≠ destructorName pkey := by
  intro heq
  obtain ⟨hlt, hundefined, hkey⟩ := hspec.crosses hg
  have hmem := mem_callers.mpr ⟨hlt, hundefined⟩
  rw [((hspec.mem g).mp hg).2.2.2.2, symbolFor] at heq
  split_ifs at heq with hlen
  · exact destructorName_ne_renamed (hpkey.trans_le hnum) (hlt.trans_le hnum) _ heq
  · rw [heq] at hkey hmem hlen
    rcases h hkey with hnone | hmany
    · rw [hnone] at hmem
      cases hmem
    · exact hlen hmany.1

theorem mem_destructorGates {signatures : Table FnName S} :
    g ∈ (List.range' 1 (num - 1)).filterMap (destructorGate signatures) ↔
      ∃ pkey, 1 ≤ pkey ∧ pkey < num ∧ signatures (destructorName pkey) = some g.signature ∧
        g = ⟨destructorName pkey, destructorName pkey, 0, pkey, g.signature⟩ := by
  simp only [List.mem_filterMap, List.mem_range'_1, destructorGate, Option.map_eq_some_iff]
  constructor
  · rintro ⟨pkey, hpkey, sig, hsig, rfl⟩
    exact ⟨pkey, hpkey.1, by omega, hsig, rfl⟩
  · rintro ⟨pkey, hle, hlt, hsig, hg⟩
    exact ⟨pkey, ⟨hle, by omega⟩, g.signature, hsig, hg.symm⟩

theorem nodup_destructorGates (hnum : num ≤ maxPkeys) (signatures : Table FnName S) :
    (((List.range' 1 (num - 1)).filterMap (destructorGate signatures)).map (·.symbol)).Nodup := by
  rw [List.map_filterMap]
  have hname : ∀ pkey name, (destructorGate signatures pkey).map (·.symbol) = some name →
      name = destructorName pkey := by
    intro pkey name h
    simp only [destructorGate, Option.map_map, Option.map_eq_some_iff] at h
    obtain ⟨sig, -, rfl⟩ := h
    rfl
  have hrange : ((List.range' 1 (num - 1)).filterMap fun pkey =>
      (destructorGate signatures pkey).map (·.symbol)).Nodup := by
    rw [List.nodup_iff_pairwise_ne, List.pairwise_filterMap]
    apply List.Pairwise.imp_of_mem _ (List.nodup_range' : (List.range' 1 (num - 1)).Nodup)
    intro pkey pkey' hpkey hpkey' hne name hsome name' hsome' heq
    rw [List.mem_range'_1] at hpkey hpkey'
    apply hne
    apply destructorName_inj (by omega) (by omega)
    rw [← hname pkey name hsome, ← hname pkey' name' hsome', heq]
  exact hrange

variable {final : Emitted S}

theorem FnDecl.Spec.exact (hnum : num ≤ maxPkeys) (h : decl.Spec num e out)
    (hapart : ∀ pkey, 1 ≤ pkey → pkey < num → decl.Apart num pkey)
    (hgates : final.gates = out.gates ++ (List.range' 1 (num - 1)).filterMap
    (destructorGate e.signatures))
    (hld : ∀ c, final.ld c = out.ld c ++ if 1 ≤ c ∧ c < num then [wrapArg (destructorName c)]
    else []) : decl.Exact num e final := by
  have hcross : ∀ g ∈ (List.range' 1 (num - 1)).filterMap (destructorGate e.signatures),
      ¬ decl.Crosses num g.targetFn g.callerPkey := by
    intro g hg
    obtain ⟨pkey, hle, hlt, -, heq⟩ := mem_destructorGates.mp hg
    rw [heq]
    exact (hapart pkey hle hlt).not_crosses
  constructor
  case one =>
    intro fn c hcrosses
    obtain ⟨g, hg, rfl, rfl, hrest⟩ := h.exists_gate hcrosses
    refine ⟨g, ?_, hrest⟩
    have hnone : ((List.range' 1 (num - 1)).filterMap (destructorGate e.signatures)).filter
        (fun g' => g'.targetFn = g.targetFn ∧ g'.callerPkey = g.callerPkey) = [] := by
      rw [List.filter_eq_nil_iff]
      intro g' hg' heq
      obtain ⟨hfn, hcaller⟩ := of_decide_eq_true heq
      exact hcross g' hg' (hfn ▸ hcaller ▸ hcrosses)
    rw [hgates, List.filter_append, h.filter_eq hg, hnone, List.append_nil]
  case only =>
    intro g hg
    rw [hgates, List.mem_append] at hg
    rcases hg with hg | hg
    · exact .inl (h.crosses hg)
    · obtain ⟨pkey, hle, hlt, -, heq⟩ := mem_destructorGates.mp hg
      rw [heq]
      exact .inr ⟨pkey, hle, hlt, rfl, rfl, rfl, rfl⟩
  case names =>
    apply nodup_wrapperNames
    rw [hgates, List.map_append]
    apply h.symbols.append (nodup_destructorGates hnum e.signatures)
    intro symbol hsymbol hsymbol'
    obtain ⟨g, hg, rfl⟩ := List.mem_map.mp hsymbol
    obtain ⟨g', hg', heq⟩ := List.mem_map.mp hsymbol'
    obtain ⟨pkey, hle, hlt, -, hg'⟩ := mem_destructorGates.mp hg'
    rw [hg'] at heq
    exact (hapart pkey hle hlt).symbol_ne hnum hlt h hg heq.symm
  case ld =>
    intro c
    have hkept : final.gates.filter (fun g => decl.Crosses num g.targetFn g.callerPkey) =
        out.gates := by
      rw [hgates, List.filter_append, List.filter_eq_self.mpr, List.filter_eq_nil_iff.mpr,
        List.append_nil]
      · exact fun g hg => by simpa using hcross g hg
      · exact fun g hg => by simpa using h.crosses hg
    rw [hld, h.linked, hkept]
  case objcopy => exact h.objcopy

theorem FnDecl.Exact.apart (hexact : decl.Exact num e final) (h : decl.Spec num e out)
    (hgates : final.gates = out.gates ++ (List.range' 1 (num - 1)).filterMap
    (destructorGate e.signatures)) (hpkey : 1 ≤ pkey ∧ pkey < num) {sig : S}
    (hsig : e.signatures (destructorName pkey) = some sig) : decl.Apart num pkey := by
  intro hkey
  by_contra hnot
  rw [not_or, not_and_or, not_not] at hnot
  obtain ⟨hsome, hcase⟩ := hnot
  have hdestructor : ⟨destructorName pkey, destructorName pkey, 0, pkey, sig⟩ ∈
      (List.range' 1 (num - 1)).filterMap (destructorGate e.signatures) :=
    mem_destructorGates.mpr ⟨pkey, hpkey.1, hpkey.2, hsig, rfl⟩
  rcases hcase with hlen | hzero
  · -- one caller: its gate and the destructor's have one name
    have hone : (callers num decl.units (destructorName pkey)).length = 1 := by
      have := List.length_pos_iff.mpr hsome
      omega
    obtain ⟨c, hc⟩ := List.length_eq_one_iff.mp hone
    obtain ⟨hlt, hundefined⟩ := mem_callers.mp (hc ▸ List.mem_singleton_self c)
    obtain ⟨g, hg, -, -, -, -, hsymbol⟩ := h.exists_gate ⟨hlt, hundefined, hkey⟩
    rw [symbolFor, if_neg hlen] at hsymbol
    have hnames := hexact.names
    rw [hgates, List.map_append] at hnames
    apply (List.nodup_append.mp hnames).2.2 _ (List.mem_map_of_mem hg) _
      (List.mem_map_of_mem hdestructor)
    simp only [DirectGate.wrapperName, hsymbol]
  · -- compartment 0 calls the destructor: it has two gates to it
    obtain ⟨hlt, hundefined⟩ := mem_callers.mp hzero
    have hcrosses : decl.Crosses num (destructorName pkey) 0 := ⟨hlt, hundefined, hkey⟩
    obtain ⟨g, hg, hfn, hcaller, -⟩ := h.exists_gate hcrosses
    obtain ⟨g', hfilter, -⟩ := hexact.one _ _ hcrosses
    rw [hgates, List.filter_append] at hfilter
    have hlength := congrArg List.length hfilter
    have hfirst : 0 < (out.gates.filter fun g =>
        g.targetFn = destructorName pkey ∧ g.callerPkey = 0).length :=
      List.length_pos_of_mem (List.mem_filter.mpr ⟨hg, by simp [hfn, hcaller]⟩)
    have hsecond : 0 < (((List.range' 1 (num - 1)).filterMap (destructorGate e.signatures)).filter
        fun g => g.targetFn = destructorName pkey ∧ g.callerPkey = 0).length :=
      List.length_pos_of_mem (List.mem_filter.mpr ⟨hdestructor, by simp⟩)
    rw [List.length_append, List.length_singleton] at hlength
    omega

end Main

/-- Suppose that the functions with several callers have keys and that no function has the name of a
renamed symbol. Then `main` ends and its bookkeeping is exact if and only if every compartment from
1 on has its destructor, and each destructor with a key is called from no compartment, or from two
or more compartments other than 0. -/
theorem mainGates_exact_iff {S : Type} (decl : FnDecl S) {num : Nat}
    (hnum : numPkeys decl.units = .ok num)
    (hknown : ∀ fn, 2 ≤ (callers num decl.units fn).length → ∃ pkey,
      fnPkeys decl.units fn = some pkey)
    (hnames : ∀ fn fn' n, decl.IsFunction fn → decl.IsFunction fn' → fn ≠ renamed fn' n) :
    (∃ e final, mainGates decl = .ok (e, final) ∧ decl.Exact num e final) ↔
      ∀ pkey, 1 ≤ pkey → pkey < num → decl.IsFunction (destructorName pkey) ∧
        decl.Apart num pkey := by
  obtain ⟨e, out, hout, hspec⟩ := decl.directGates_spec hnum hknown hnames
  have hmax := (numPkeys_ok hnum).1
  have hmain : ∀ e' final, mainGates decl = .ok (e', final) ↔
      e' = e ∧ emitDestructors num e.signatures out = .ok final := by
    intro e' final
    cases hfinal : emitDestructors num e.signatures out with
    | error message => simp [mainGates, hnum, hout, hfinal, bind, Except.bind]
    | ok final' =>
      simp [mainGates, hnum, hout, hfinal, bind, Except.bind, pure, Except.pure, eq_comm]
  have hsigs : ∀ pkey, pkey < num →
      ((e.signatures (destructorName pkey)).isSome ↔ decl.IsFunction (destructorName pkey)) := by
    intro pkey hpkey
    rw [hspec.signatures pkey (hpkey.trans_le hmax)]
    exact decl.signed _
  constructor
  · rintro ⟨e', final, hok, hexact⟩ pkey hle hlt
    obtain ⟨rfl, hfinal⟩ := (hmain e' final).mp hok
    obtain ⟨hsome, hgates, -⟩ := foldlM_emitDestructor_eq_ok_iff.mp hfinal
    have hpkey := hsome pkey (List.mem_range'_1.mpr ⟨hle, by omega⟩)
    obtain ⟨sig, hsig⟩ := Option.isSome_iff_exists.mp hpkey
    exact ⟨(hsigs pkey hlt).mp hpkey, hexact.apart hspec hgates ⟨hle, hlt⟩ hsig⟩
  · intro hall
    obtain ⟨final, hfinal⟩ : ∃ final, emitDestructors num e.signatures out = .ok final := by
      refine ⟨⟨_, _⟩, foldlM_emitDestructor_eq_ok_iff.mpr ⟨?_, rfl, rfl⟩⟩
      intro pkey hpkey
      obtain ⟨hle, hlt⟩ := List.mem_range'_1.mp hpkey
      exact (hsigs pkey (by omega)).mpr (hall pkey hle (by omega)).1
    obtain ⟨-, hgates, hld⟩ := foldlM_emitDestructor_eq_ok_iff.mp hfinal
    refine ⟨e, final, (hmain e final).mpr ⟨rfl, hfinal⟩,
      hspec.exact hmax (fun pkey hle hlt => (hall pkey hle hlt).2) hgates ?_⟩
    intro c
    rw [hld, foldl_write_destructors List.nodup_range']
    congr 1
    apply if_congr _ rfl rfl
    rw [List.mem_range'_1]
    omega

def callingUnit (pkey : Nat) (external static declared : List FnName)
    (hstatic : ∀ fn ∈ static, fn ∉ external) : TranslationUnit where
  pkey := pkey
  external := external
  static := static
  declared := declared
  takesExternal := []
  takesStatic := []
  linkage fn hfn := ⟨hstatic fn hfn, List.not_mem_nil⟩
  takesStatic_static := List.forall_mem_nil _

theorem infix_renamed (fn : FnName) (n : Nat) : "_from_".toList <:+: (renamed fn n).toList :=
  ⟨fn.toList, (toString n).toList, by rw [renamed, String.toList_append, String.toList_append]⟩

/-- Two compartments call `f` in the third, the first also calls `g` in the second and a function
that no unit defines. -/
def twoCallers : FnDecl String where
  units := [
    callingUnit 0 [] [] ["f", "g", "h"] (List.forall_mem_nil _),
    callingUnit 1 ["g", destructorName 1] [] ["f", "g"] (List.forall_mem_nil _),
    callingUnit 2 ["f", destructorName 2] [] ["f"] (List.forall_mem_nil _)]
  signatures fn :=
    if fn ∈ ["f", "g", "h", destructorName 1, destructorName 2] then some "void (void)" else none
  signed fn := by
    simp [TranslationUnit.defined, callingUnit]
    tauto

theorem isFunction_twoCallers (h : twoCallers.IsFunction fn) :
    fn ∈ ["f", "g", "h", destructorName 1, destructorName 2] := by
  have hsome := (twoCallers.signed fn).mpr h
  by_contra hnot
  rw [show twoCallers.signatures fn = none from if_neg hnot] at hsome
  cases hsome

theorem mainGates_exact_iff_twoCallers :
    ∃ e final, mainGates twoCallers = .ok (e, final) ∧ twoCallers.Exact 3 e final := by
  have hknown : ∀ fn, 2 ≤ (callers 3 twoCallers.units fn).length →
      ∃ pkey, fnPkeys twoCallers.units fn = some pkey := by
    intro fn hlen
    obtain ⟨caller, hcaller⟩ :=
      List.exists_mem_of_length_pos (show 0 < (callers 3 twoCallers.units fn).length by omega)
    have hfn := isFunction_twoCallers (FnDecl.isFunction_of_mem_callers hcaller)
    simp only [List.mem_cons, List.not_mem_nil, or_false] at hfn
    rcases hfn with rfl | rfl | rfl | rfl | rfl
    · exact ⟨2, by decide +kernel⟩
    · exact ⟨1, by decide +kernel⟩
    · exact absurd hlen (by decide +kernel)
    · exact absurd hlen (by decide +kernel)
    · exact absurd hlen (by decide +kernel)
  have hnames : ∀ fn fn' n, twoCallers.IsFunction fn → twoCallers.IsFunction fn' →
      fn ≠ renamed fn' n := by
    intro fn fn' n hfn _ heq
    have hinfix := infix_renamed fn' n
    rw [← heq] at hinfix
    have hnot : ∀ name ∈ ["f", "g", "h", destructorName 1, destructorName 2],
        ¬ "_from_".toList <:+: name.toList := by decide +kernel
    exact hnot fn (isFunction_twoCallers hfn) hinfix
  apply (@mainGates_exact_iff String twoCallers 3 rfl hknown hnames).mpr
  intro pkey hle hlt
  have hcase : pkey = 1 ∨ pkey = 2 := by omega
  rcases hcase with rfl | rfl
  · exact ⟨(twoCallers.signed _).mp (by decide +kernel), fun _ => .inl (by decide +kernel)⟩
  · exact ⟨(twoCallers.signed _).mp (by decide +kernel), fun _ => .inl (by decide +kernel)⟩

/-- Compartment 0 declares the destructor of compartment 1. -/
def declaredDestructor : FnDecl String where
  units := [callingUnit 0 [] [] [destructorName 1] (List.forall_mem_nil _),
    callingUnit 1 [destructorName 1] [] [] (List.forall_mem_nil _)]
  signatures fn := if fn = destructorName 1 then some "void (void)" else none
  signed fn := by simp [TranslationUnit.defined, callingUnit]

/-- Both loops write a gate for the destructor, under one name. -/
theorem declaredDestructor_not_exact :
    ∃ e final, mainGates declaredDestructor = .ok (e, final) ∧
      final.gates.map DirectGate.wrapperName =
        ["__wrap_ia2_compartment_destructor_1", "__wrap_ia2_compartment_destructor_1"] ∧
      final.gates.map (fun g => (g.targetFn, g.callerPkey, g.targetPkey)) =
        [(destructorName 1, 0, 1), (destructorName 1, 0, 1)] ∧
      ¬ declaredDestructor.Exact 2 e final := by
  refine ⟨_, _, rfl, ?_, ?_, ?_⟩
  · decide +kernel
  · decide +kernel
  · intro hexact
    exact absurd hexact.names (by decide +kernel)

end Ia2.SourceRewriter
