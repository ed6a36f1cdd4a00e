import Ia2.Rewriter.SourceRewriter

/-!
# The compartments that gates target

A gate should enter the compartment that defines the function behind it. The rewriter looks the key
up under the function's name, where every definition of that name has left its mark and the last one
processed counts. So the gates are right in every order of the units exactly if the definitions that
share a name, static or external, agree on the key wherever a gate comes from it. Renamed symbols
are names too, and a function that has the name of a renamed symbol takes part in the lookup.
-/

namespace Ia2.SourceRewriter

/-! ### Renamed symbols are different from each other -/

theorem takeWhile_reverse_append {α : Type} [DecidableEq α] {x : α} {s : List α} (hs : x ∉ s)
    (a : List α) : (a ++ x :: s).reverse.takeWhile (· ≠ x) = s.reverse := by
  have hpos : ∀ y ∈ s.reverse, decide (y ≠ x) = true := by
    intro y hy
    simp only [ne_eq, decide_not, Bool.not_eq_eq_eq_not, Bool.not_true, decide_eq_false_iff_not]
    rintro rfl
    exact hs (List.mem_reverse.mp hy)
  rw [List.reverse_append, List.reverse_cons, List.append_assoc, List.takeWhile_append_of_pos hpos]
  simp

theorem toList_renamed (fn : FnName) (caller : Nat) :
    (renamed fn caller).toList = fn.toList ++ "_from".toList ++
    '_' :: (toString caller).toList := by
  have hsep : "_from_".toList = "_from".toList ++ ['_'] := by decide
  simp only [renamed, String.toList_append, hsep, List.append_assoc, List.singleton_append]

theorem digits_ne_underscore : ∀ caller < maxPkeys, '_' ∉ (toString caller).toList := by decide

theorem digits_inj : ∀ caller < maxPkeys, ∀ caller' < maxPkeys,
    (toString caller).toList = (toString caller').toList → caller = caller' := by decide

variable {caller : Nat} {pkeys : Table FnName Nat}

theorem renamed_inj {fn fn' : FnName} {caller' : Nat} (hcaller : caller < maxPkeys)
    (hcaller' : caller' < maxPkeys) (h : renamed fn caller = renamed fn' caller') :
    fn = fn' ∧ caller = caller' := by
  have hlist := congrArg String.toList h
  rw [toList_renamed, toList_renamed] at hlist
  have hdigits : (toString caller).toList = (toString caller').toList := by
    have hrev := congrArg (fun l => l.reverse.takeWhile (· ≠ '_')) hlist
    simp only [takeWhile_reverse_append (digits_ne_underscore caller hcaller),
      takeWhile_reverse_append (digits_ne_underscore caller' hcaller')] at hrev
    exact List.reverse_inj.mp hrev
  rw [hdigits] at hlist
  constructor
  · exact String.toList_inj.mp (List.append_cancel_right (List.append_cancel_right hlist))
  · exact digits_inj caller hcaller caller' hcaller' hdigits

/-! ### The tables after the symbols have been renamed -/

def renamings (calls : FnName → List Nat) : Set (FnName × Nat) :=
  {pair | 2 ≤ (calls pair.1).length ∧ pair.2 ∈ calls pair.1}

structure Expanded (direct pkeys : Table FnName Nat) (done : Set (FnName × Nat))
    (t : Wrappers) : Prop where
  hit : ∀ fn caller, (fn, caller) ∈ done → t.targets (renamed fn caller) = some fn ∧
    t.direct (renamed fn caller) = (direct (renamed fn caller)).or (some caller) ∧
    t.pkeys (renamed fn caller) = (pkeys (renamed fn caller)).or (pkeys fn)
  miss : ∀ symbol, (∀ pair ∈ done, renamed pair.1 pair.2 ≠ symbol) →
    t.targets symbol = none ∧ t.direct symbol = direct symbol ∧ t.pkeys symbol = pkeys symbol

section Expand

variable {direct pkeys : Table FnName Nat} {done : Set (FnName × Nat)} {t : Wrappers} {fn : FnName}
  {target : Nat}

theorem expanded_empty (direct pkeys : Table FnName Nat) :
    Expanded direct pkeys ∅ ⟨direct, pkeys, .empty⟩ :=
  ⟨fun _ _ hpair => hpair.elim, fun _ _ => ⟨rfl, rfl, rfl⟩⟩

theorem Expanded.pkeys_eq (h : Expanded direct pkeys done t) {symbol : FnName}
    (hsymbol : pkeys symbol = some target) : t.pkeys symbol = some target := by
  by_cases hhit : ∃ pair ∈ done, renamed pair.1 pair.2 = symbol
  · obtain ⟨pair, hpair, rfl⟩ := hhit
    rw [(h.hit pair.1 pair.2 hpair).2.2, hsymbol, Option.some_or]
  · rw [(h.miss symbol fun pair hpair heq => hhit ⟨pair, hpair, heq⟩).2.2, hsymbol]

theorem Expanded.addRenamed_of_mem (h : Expanded direct pkeys done t)
    (htarget : pkeys fn = some target) (hmem : (fn, caller) ∈ done) :
    addRenamed fn target t caller = t := by
  obtain ⟨htargets, hdirect, hpkeys⟩ := h.hit fn caller hmem
  rw [htarget, Option.or_some] at hpkeys
  rw [Option.or_some] at hdirect
  unfold addRenamed
  split
  · rfl
  · rw [Table.insert_of_some htargets, Table.insert_of_some hdirect, Table.insert_of_some hpkeys]

theorem Expanded.addRenamed (h : Expanded direct pkeys done t)
    (hbound : ∀ pair ∈ done, pair.2 < maxPkeys) (htarget : pkeys fn = some target)
    (hcaller : caller < maxPkeys) (hne : caller ≠ target) :
    Expanded direct pkeys (insert (fn, caller) done) (addRenamed fn target t caller) := by
  by_cases hmem : (fn, caller) ∈ done
  · rwa [h.addRenamed_of_mem htarget hmem, Set.insert_eq_of_mem hmem]
  have hfresh : ∀ pair ∈ done, renamed pair.1 pair.2 ≠ renamed fn caller := by
    intro pair hpair heq
    obtain ⟨rfl, rfl⟩ := renamed_inj (hbound pair hpair) hcaller heq
    exact hmem hpair
  have hunfold : SourceRewriter.addRenamed fn target t caller =
      ⟨t.direct.insert (renamed fn caller) caller, t.pkeys.insert (renamed fn caller) target,
        t.targets.insert (renamed fn caller) fn⟩ := if_neg hne
  rw [hunfold]
  constructor
  · intro fn' caller' hpair
    rcases Set.mem_insert_iff.mp hpair with heq | hpair
    · obtain ⟨rfl, rfl⟩ := Prod.mk.inj heq
      obtain ⟨htargets, hdirect, hpkeys⟩ := h.miss _ hfresh
      simp [htargets, hdirect, hpkeys, htarget]
    · have hother := hfresh _ hpair
      simp only [Table.insert_of_ne hother]
      exact h.hit fn' caller' hpair
  · intro symbol hsymbol
    have hother : symbol ≠ renamed fn caller := (hsymbol (fn, caller) (Set.mem_insert _ _)).symm
    simp only [Table.insert_of_ne hother]
    exact h.miss symbol fun pair hpair => hsymbol pair (Set.mem_insert_of_mem _ hpair)

theorem Expanded.foldl (h : Expanded direct pkeys done t)
    (hbound : ∀ pair ∈ done, pair.2 < maxPkeys) (htarget : pkeys fn = some target)
    {calls : List Nat} (hcalls : ∀ caller ∈ calls, caller < maxPkeys ∧ caller ≠ target) :
    Expanded direct pkeys (done ∪ {pair | pair.1 = fn ∧ pair.2 ∈ calls})
      (calls.foldl (SourceRewriter.addRenamed fn target) t) := by
  induction calls generalizing done t with
  | nil => simpa using h
  | cons caller calls ih =>
    obtain ⟨hcaller, hne⟩ := hcalls caller List.mem_cons_self
    have hstep := h.addRenamed hbound htarget hcaller hne
    have hbound' : ∀ pair ∈ insert (fn, caller) done, pair.2 < maxPkeys := by
      rintro pair (rfl | hpair)
      · exact hcaller
      · exact hbound pair hpair
    have hset : done ∪ {pair | pair.1 = fn ∧ pair.2 ∈ caller :: calls} = insert (fn, caller) done ∪
        {pair | pair.1 = fn ∧ pair.2 ∈ calls} := by
      ext ⟨fn', caller'⟩
      simp only [Set.mem_union, Set.mem_ofPred_eq, Set.mem_insert_iff, Prod.mk.injEq, List.mem_cons]
      tauto
    rw [hset]
    exact ih hstep hbound' fun caller' hcaller' => hcalls caller' (List.mem_cons_of_mem _ hcaller')

end Expand

theorem entryOf_fst {calls : List Nat} :
    (entryOf calls).1 = some caller ↔ calls = [caller] := by
  match calls with
  | [] => simp [entryOf]
  | [other] => simp [entryOf]
  | first :: second :: rest => simp [entryOf]

theorem entryOf_snd (calls : List Nat) :
    (entryOf calls).2 = if 2 ≤ calls.length then some calls.reverse else none := by
  match calls with
  | [] => rfl
  | [other] => rfl
  | first :: second :: rest => simp [entryOf]

section Loop

variable {calls : FnName → List Nat} {w : Callers} {pkeys : Table FnName Nat}

structure Renamable (calls : FnName → List Nat) (pkeys : Table FnName Nat) : Prop where
  bound : ∀ pair ∈ renamings calls, pair.2 < maxPkeys
  known : ∀ pair ∈ renamings calls, ∃ target, pkeys pair.1 = some target
  other : ∀ pair ∈ renamings calls, pkeys pair.1 ≠ some pair.2

variable {done : Set (FnName × Nat)} {t : Wrappers}

theorem Renamable.expandMulticaller (hr : Renamable calls pkeys)
    (hw : ∀ fn, w.entry fn = entryOf (calls fn)) (hdone : done ⊆ renamings calls)
    (h : Expanded w.direct pkeys done t) (fn : FnName) :
    ∃ t', expandMulticaller w t fn = .ok t' ∧
      Expanded w.direct pkeys (done ∪ {pair ∈ renamings calls | pair.1 = fn}) t' := by
  have hmulti : w.multi fn = if 2 ≤ (calls fn).length then some (calls fn).reverse else none := by
    rw [← entryOf_snd, ← hw]
    rfl
  by_cases hlen : 2 ≤ (calls fn).length
  · rw [if_pos hlen] at hmulti
    have hmem : ∀ caller ∈ (calls fn).reverse, (fn, caller) ∈ renamings calls :=
      fun caller hcaller => ⟨hlen, List.mem_reverse.mp hcaller⟩
    obtain ⟨target, htarget⟩ : ∃ target, pkeys fn = some target := by
      obtain ⟨caller, hcaller⟩ :=
        List.exists_mem_of_length_pos (show 0 < (calls fn).length by omega)
      exact hr.known (fn, caller) ⟨hlen, hcaller⟩
    have hcalls : ∀ caller ∈ (calls fn).reverse, caller < maxPkeys ∧ caller ≠ target := by
      intro caller hcaller
      refine ⟨hr.bound _ (hmem caller hcaller), ?_⟩
      rintro rfl
      exact hr.other _ (hmem caller hcaller) htarget
    have hset : {pair | pair.1 = fn ∧ pair.2 ∈ (calls fn).reverse} =
        {pair ∈ renamings calls | pair.1 = fn} := by
      ext ⟨fn', caller⟩
      constructor
      · rintro ⟨rfl, hcaller⟩
        exact ⟨hmem caller hcaller, rfl⟩
      · rintro ⟨hpair, rfl⟩
        exact ⟨rfl, List.mem_reverse.mpr hpair.2⟩
    refine ⟨(calls fn).reverse.foldl (addRenamed fn target) t, ?_, ?_⟩
    · simp only [SourceRewriter.expandMulticaller, hmulti, h.pkeys_eq htarget]
    · rw [← hset]
      exact h.foldl (fun pair hpair => hr.bound pair (hdone hpair)) htarget hcalls
  · rw [if_neg hlen] at hmulti
    have hset : {pair ∈ renamings calls | pair.1 = fn} = ∅ := by
      rw [Set.eq_empty_iff_forall_notMem]
      rintro pair ⟨⟨hpair, -⟩, rfl⟩
      exact hlen hpair
    refine ⟨t, ?_, ?_⟩
    · simp only [SourceRewriter.expandMulticaller, hmulti]
    · rwa [hset, Set.union_empty]

theorem Renamable.foldlM (hr : Renamable calls pkeys) (hw : ∀ fn, w.entry fn = entryOf (calls fn))
    (names : List FnName) (hdone : done ⊆ renamings calls) (h : Expanded w.direct pkeys done t) :
    ∃ t', names.foldlM (SourceRewriter.expandMulticaller w) t = .ok t' ∧
      Expanded w.direct pkeys (done ∪ {pair ∈ renamings calls | pair.1 ∈ names}) t' := by
  induction names generalizing done t with
  | nil => exact ⟨t, rfl, by simpa using h⟩
  | cons fn names ih =>
    obtain ⟨t₁, ht₁, hexpanded₁⟩ := hr.expandMulticaller hw hdone h fn
    have hsub : done ∪ {pair ∈ renamings calls | pair.1 = fn} ⊆ renamings calls :=
      Set.union_subset hdone fun pair hpair => hpair.1
    obtain ⟨t₂, ht₂, hexpanded₂⟩ := ih hsub hexpanded₁
    refine ⟨t₂, ?_, ?_⟩
    · rw [List.foldlM_cons, ht₁]
      exact ht₂
    · have hset : done ∪ {pair ∈ renamings calls | pair.1 ∈ fn :: names} =
          done ∪ {pair ∈ renamings calls | pair.1 = fn} ∪
          {pair ∈ renamings calls | pair.1 ∈ names} := by
        ext pair
        simp only [Set.mem_union, Set.mem_ofPred_eq, List.mem_cons]
        tauto
      rwa [hset]

end Loop

theorem Renamable.expandMulticallers {num : Nat} {units : List TranslationUnit}
    (hr : Renamable (callers num units) (fnPkeys units)) :
    ∃ t, expandMulticallers units (collectCallers num units) = .ok t ∧
      Expanded (collectCallers num units).direct (fnPkeys units)
        (renamings (callers num units)) t := by
  obtain ⟨t, ht, hexpanded⟩ := hr.foldlM (collectCallers_entry num units) (fnNames units)
    (Set.empty_subset _) (expanded_empty _ _)
  have hall : ∅ ∪ {pair ∈ renamings (callers num units) | pair.1 ∈ fnNames units} =
      renamings (callers num units) := by
    rw [Set.empty_union]
    refine Set.Subset.antisymm (fun pair hpair => hpair.1) fun pair hpair => ⟨hpair, ?_⟩
    exact mem_fnNames (mem_callers.mp hpair.2).2
  rw [hall] at hexpanded
  exact ⟨t, ht, hexpanded⟩

/-! ### Which wrapper calls which function -/

inductive Wraps (calls : FnName → List Nat) : FnName → FnName → Nat → Prop
  | sole {fn : FnName} {caller : Nat} : calls fn = [caller] →
    (∀ pair ∈ renamings calls, renamed pair.1 pair.2 ≠ fn) → Wraps calls fn fn caller
  | clash {fn : FnName} {caller caller' : Nat} : (fn, caller') ∈ renamings calls →
    calls (renamed fn caller') = [caller] → Wraps calls (renamed fn caller') fn caller
  | renamed {fn : FnName} {caller : Nat} : (fn, caller) ∈ renamings calls →
    (∀ other, calls (renamed fn caller) ≠ [other]) → Wraps calls (renamed fn caller) fn caller

section Wraps

variable {calls : FnName → List Nat} {w : Callers} {pkeys : Table FnName Nat} {t : Wrappers}
  {symbol fn : FnName} {caller : Nat}

theorem Callers.direct_eq (hw : w.entry fn = entryOf (calls fn)) :
    w.direct fn = some caller ↔ calls fn = [caller] := by
  rw [← entryOf_fst, ← hw]
  rfl

theorem wraps_iff (hw : ∀ fn, w.entry fn = entryOf (calls fn))
    (h : Expanded w.direct pkeys (renamings calls) t) :
    Wraps calls symbol fn caller ↔ t.direct symbol = some caller ∧
      (t.targets symbol).getD symbol = fn := by
  constructor
  · intro hwraps
    cases hwraps with
    | sole hcalls hmiss =>
      obtain ⟨htargets, hdirect, -⟩ := h.miss symbol hmiss
      rw [hdirect, htargets]
      exact ⟨(Callers.direct_eq (hw symbol)).mpr hcalls, rfl⟩
    | clash hpair hcalls =>
      obtain ⟨htargets, hdirect, -⟩ := h.hit _ _ hpair
      rw [hdirect, htargets, (Callers.direct_eq (hw _)).mpr hcalls]
      exact ⟨rfl, rfl⟩
    | renamed hpair hnone =>
      obtain ⟨htargets, hdirect, -⟩ := h.hit _ _ hpair
      have hdirect₀ : w.direct (SourceRewriter.renamed fn caller) = none := by
        rw [Option.eq_none_iff_forall_ne_some]
        exact fun other hother => hnone other ((Callers.direct_eq (hw _)).mp hother)
      rw [hdirect, htargets, hdirect₀]
      exact ⟨rfl, rfl⟩
  · rintro ⟨hcaller, hfn⟩
    by_cases hhit : ∃ pair ∈ renamings calls, renamed pair.1 pair.2 = symbol
    · obtain ⟨⟨fn', caller'⟩, hpair, rfl⟩ := hhit
      obtain ⟨htargets, hdirect, -⟩ := h.hit fn' caller' hpair
      rw [htargets] at hfn
      cases hfn
      cases hdirect₀ : w.direct (renamed fn' caller') with
      | some other =>
        rw [hdirect, hdirect₀] at hcaller
        cases hcaller
        exact .clash hpair ((Callers.direct_eq (hw _)).mp hdirect₀)
      | none =>
        rw [hdirect, hdirect₀] at hcaller
        cases hcaller
        refine .renamed hpair fun other hother => ?_
        rw [(Callers.direct_eq (hw _)).mpr hother] at hdirect₀
        cases hdirect₀
    · have hmiss : ∀ pair ∈ renamings calls, renamed pair.1 pair.2 ≠ symbol :=
        fun pair hpair heq => hhit ⟨pair, hpair, heq⟩
      obtain ⟨htargets, hdirect, -⟩ := h.miss symbol hmiss
      rw [htargets] at hfn
      cases hfn
      rw [hdirect] at hcaller
      exact .sole ((Callers.direct_eq (hw _)).mp hcaller) hmiss

theorem Wraps.pkeys_eq (hwraps : Wraps calls symbol fn caller)
    (h : Expanded w.direct pkeys (renamings calls) t) :
    t.pkeys symbol = (pkeys symbol).or (pkeys fn) := by
  cases hwraps with
  | sole _ hmiss => rw [(h.miss symbol hmiss).2.2, Option.or_self]
  | clash hpair _ => exact (h.hit _ _ hpair).2.2
  | renamed hpair _ => exact (h.hit _ _ hpair).2.2

variable {gate : Gate}

theorem directGate_eq_some :
    directGate t symbol = some gate ↔ ∃ caller target, t.direct symbol = some caller ∧
    t.pkeys symbol = some target ∧ caller ≠ target ∧
      gate = .direct symbol ((t.targets symbol).getD symbol) caller target := by
  constructor
  · intro h
    unfold directGate at h
    split at h
    case h_1 caller target hcaller htarget =>
      split at h
      case isTrue => cases h
      case isFalse hne => exact ⟨caller, target, hcaller, htarget, hne, (Option.some.inj h).symm⟩
    case h_2 => cases h
  · rintro ⟨caller, target, hcaller, htarget, hne, rfl⟩
    simp only [directGate, hcaller, htarget, if_neg hne]

theorem mem_directGates (hw : ∀ fn, w.entry fn = entryOf (calls fn))
    (h : Expanded w.direct pkeys (renamings calls) t) {symbols : List FnName}
    (hsymbols : ∀ symbol fn caller, Wraps calls symbol fn caller → symbol ∈ symbols) :
    gate ∈ symbols.filterMap (directGate t) ↔ ∃ symbol fn caller target,
      Wraps calls symbol fn caller ∧
      (pkeys symbol).or (pkeys fn) = some target ∧ caller ≠ target ∧
        gate = .direct symbol fn caller target := by
  rw [List.mem_filterMap]
  constructor
  · rintro ⟨symbol, -, hsymbol⟩
    obtain ⟨caller, target, hcaller, htarget, hne, rfl⟩ := directGate_eq_some.mp hsymbol
    have hwraps := (wraps_iff hw h).mpr ⟨hcaller, rfl⟩
    exact ⟨symbol, _, caller, target, hwraps, (hwraps.pkeys_eq h).symm.trans htarget, hne, rfl⟩
  · rintro ⟨symbol, fn, caller, target, hwraps, htarget, hne, rfl⟩
    obtain ⟨hcaller, rfl⟩ := (wraps_iff hw h).mp hwraps
    exact ⟨symbol, hsymbols _ _ _ hwraps,
      directGate_eq_some.mpr ⟨caller, target, hcaller, (hwraps.pkeys_eq h).trans htarget, hne, rfl⟩⟩

end Wraps

variable {gate : Gate}

theorem mem_pointerGates {fns : List FnName} :
    gate ∈ fns.filterMap (pointerGate pkeys) ↔ ∃ fn ∈ fns,
      (pkeys fn).getD 0 ≠ 0 ∧ .pointer fn ((pkeys fn).getD 0) = gate := by
  simp only [List.mem_filterMap, pointerGate, Option.ite_none_right_eq_some, Option.some.injEq]

theorem mem_staticGates {entries : List (TranslationUnit × FnName)} :
    gate ∈ entries.filterMap (staticGate pkeys) ↔
      ∃ entry ∈ entries, (pkeys entry.2).getD 0 ≠ 0 ∧
        .pointerToStatic entry.1 entry.2 ((pkeys entry.2).getD 0) = gate := by
  simp only [List.mem_filterMap, staticGate, Option.ite_none_right_eq_some, Option.some.injEq]

/-! ### Projects -/

/-- Translation units in which every externally visible function has one definition. -/
structure Project where
  units : List TranslationUnit
  one_definition : units.Pairwise fun unit other => ∀ fn ∈ unit.external, fn ∉ other.external
  has_definition : ∀ unit ∈ units, ∀ fn ∈ unit.declared, fn ∉ unit.static → ∃ owner ∈ units,
    fn ∈ owner.external

def Project.Owns (P : Project) (fn : FnName) (pkey : Nat) : Prop :=
  ∀ unit ∈ P.units, fn ∈ unit.external → pkey = unit.pkey

def Gate.Right (P : Project) : Gate → Prop
  | .direct _ fn _ target => P.Owns fn target
  | .pointer fn target => P.Owns fn target
  | .pointerToStatic unit _ target => target = unit.pkey

/-- Every gate is right, in whatever order the units are processed. -/
def Project.TargetsRight (P : Project) : Prop :=
  ∀ order, order.Perm P.units → ∀ gates, generateGates order = .ok gates → ∀ gate ∈ gates,
    gate.Right P

def keyName (units : List TranslationUnit) (symbol fn : FnName) : FnName :=
  if ∃ unit ∈ units, symbol ∈ unit.defined then symbol else fn

/-- Wherever a gate comes from a name, the definitions of this name agree on the key, up to those
that would give no gate. -/
structure Project.Agreed (P : Project) (num : Nat) : Prop where
  direct : ∀ symbol fn caller, Wraps (callers num P.units) symbol fn caller →
    ∀ unit ∈ P.units, keyName P.units symbol fn ∈ unit.defined → unit.pkey = caller ∨
    P.Owns fn unit.pkey
  pointer : ∀ fn ∈ addrTakenFns P.units, ∀ unit ∈ P.units, fn ∈ unit.defined → unit.pkey = 0 ∨
    P.Owns fn unit.pkey
  static : ∀ entry ∈ internalAddrTakenFns P.units, ∀ unit ∈ P.units, entry.2 ∈ unit.defined →
    unit.pkey = 0 ∨ unit.pkey = entry.1.pkey

section Project

variable {P : Project} {num : Nat} {order : List TranslationUnit}
variable {fn : FnName} {units : List TranslationUnit} {gates : List Gate}

section

variable (h : order.Perm P.units)

include h

theorem mem_addrTakenFns_perm :
    fn ∈ addrTakenFns order ↔ fn ∈ addrTakenFns P.units := by
  simp only [addrTakenFns, List.mem_dedup, List.mem_flatMap, List.mem_filter, h.mem_iff]

theorem mem_internalAddrTakenFns_perm {entry : TranslationUnit × FnName} :
    entry ∈ internalAddrTakenFns order ↔ entry ∈ internalAddrTakenFns P.units := by
  simp only [internalAddrTakenFns, List.mem_flatMap, List.mem_filter, h.mem_iff]

variable {unit : TranslationUnit}

theorem fnPkeys_isSome (hunit : unit ∈ P.units) (hfn : fn ∈ unit.defined) :
    ∃ pkey, fnPkeys order fn = some pkey :=
  Table.collect_isSome (h.mem_iff.mpr hunit) hfn

theorem exists_of_fnPkeys {pkey : Nat} (hfn : fnPkeys order fn = some pkey) :
    ∃ unit ∈ P.units, fn ∈ unit.defined ∧ unit.pkey = pkey := by
  obtain ⟨unit, hunit, hrest⟩ := Table.exists_of_collect hfn
  exact ⟨unit, h.mem_iff.mp hunit, hrest⟩

theorem fnPkeys_keyName (symbol fn : FnName) :
    (fnPkeys order symbol).or (fnPkeys order fn) = fnPkeys order (keyName P.units symbol fn) := by
  by_cases hdefined : ∃ unit ∈ P.units, symbol ∈ unit.defined
  · obtain ⟨unit, hunit, hsymbol⟩ := id hdefined
    obtain ⟨pkey, hpkey⟩ := fnPkeys_isSome h hunit hsymbol
    rw [keyName, if_pos hdefined, hpkey, Option.some_or]
  · have hnone : fnPkeys order symbol = none :=
      Table.collect_eq_none fun unit hunit hsymbol => hdefined ⟨unit, h.mem_iff.mp hunit, hsymbol⟩
    rw [keyName, if_neg hdefined, hnone, Option.none_or]

theorem renamable (hnum : numPkeys P.units = .ok num) :
    Renamable (callers num P.units) (fnPkeys order) where
  bound pair hpair := (mem_callers.mp hpair.2).1.trans_le (numPkeys_ok hnum).1
  known pair hpair := by
    obtain ⟨hdeclared, hdefined⟩ := mem_undefinedFns.mp (mem_callers.mp hpair.2).2
    obtain ⟨unit, hunit, hpkey, hfn⟩ := mem_declaredFns.mp hdeclared
    have hstatic : pair.1 ∉ unit.static := fun hmem =>
      hdefined (mem_definedFns.mpr ⟨unit, hunit, hpkey, List.mem_append_right _ hmem⟩)
    obtain ⟨owner, howner, hexternal⟩ := P.has_definition unit hunit pair.1 hfn hstatic
    exact fnPkeys_isSome h howner (List.mem_append_left _ hexternal)
  other pair hpair hpkey := by
    obtain ⟨unit, hunit, hfn, hkey⟩ := exists_of_fnPkeys h hpkey
    exact (mem_undefinedFns.mp (mem_callers.mp hpair.2).2).2
      (mem_definedFns.mpr ⟨unit, hunit, hkey, hfn⟩)

omit h in
theorem mem_symbols {symbol : FnName} (h : Wraps (callers num units) symbol fn caller) :
    symbol ∈ symbols num units := by
  have hname : ∀ {fn caller}, caller ∈ callers num units fn → fn ∈ fnNames units :=
    fun hcaller => mem_fnNames (mem_callers.mp hcaller).2
  rw [symbols, List.mem_dedup, List.mem_append]
  cases h with
  | sole hcalls _ => exact .inl (hname (hcalls ▸ List.mem_singleton_self caller))
  | clash _ hcalls => exact .inl (hname (hcalls ▸ List.mem_singleton_self caller))
  | renamed hpair _ =>
    exact .inr (List.mem_flatMap.mpr ⟨fn, hname hpair.2,
      List.mem_map_of_mem (List.mem_range.mpr (mem_callers.mp hpair.2).1)⟩)

omit h in
theorem of_mem_internalAddrTakenFns (h : (unit, fn) ∈ internalAddrTakenFns units) :
    unit ∈ units ∧ fn ∈ unit.static := by
  obtain ⟨unit', hunit, hmap⟩ := List.mem_flatMap.mp h
  obtain ⟨fn', hfn, heq⟩ := List.mem_map.mp hmap
  cases heq
  exact ⟨List.mem_of_mem_filter hunit,
    unit.takesStatic_static fn (List.mem_of_mem_filter (List.mem_dedup.mp hfn))⟩

omit h in
theorem exists_numPkeys (h : generateGates units = .ok gates) :
    ∃ num, numPkeys units = .ok num := by
  cases hnum : numPkeys units with
  | ok num => exact ⟨num, rfl⟩
  | error e =>
    simp only [generateGates, hnum, bind, Except.bind] at h
    cases h

theorem collectCallers_entry_perm (fn : FnName) :
    (collectCallers num order).entry fn = entryOf (callers num P.units fn) := by
  rw [collectCallers_entry, callers_perm h]

theorem generateGates_ok (hnum : numPkeys P.units = .ok num) :
    ∃ t, Expanded (collectCallers num order).direct (fnPkeys order)
      (renamings (callers num P.units)) t ∧
      generateGates order = .ok ((symbols num order).filterMap (directGate t) ++
        (addrTakenFns order).filterMap (pointerGate t.pkeys) ++
        (internalAddrTakenFns order).filterMap (staticGate t.pkeys)) := by
  have hr := renamable h hnum
  rw [← callers_perm h] at hr ⊢
  obtain ⟨t, hexpand, hexpanded⟩ := hr.expandMulticallers
  refine ⟨t, hexpanded, ?_⟩
  simp only [generateGates, numPkeys_perm h, hnum, hexpand, bind, Except.bind, pure, Except.pure]

theorem mem_direct {t : Wrappers}
    (hexpanded : Expanded (collectCallers num order).direct (fnPkeys order)
    (renamings (callers num P.units)) t) :
    gate ∈ (symbols num order).filterMap (directGate t) ↔ ∃ symbol fn caller target,
    Wraps (callers num P.units) symbol fn caller ∧
      fnPkeys order (keyName P.units symbol fn) = some target ∧ caller ≠ target ∧
        gate = .direct symbol fn caller target := by
  have hsymbols : ∀ symbol fn caller, Wraps (callers num P.units) symbol fn caller →
      symbol ∈ symbols num order := by
    intro symbol fn caller hwraps
    rw [← callers_perm h] at hwraps
    exact mem_symbols hwraps
  simp only [mem_directGates (collectCallers_entry_perm h) hexpanded hsymbols, fnPkeys_keyName h]

end

theorem Project.Agreed.right (hagreed : P.Agreed num) (hnum : numPkeys P.units = .ok num)
    (h : order.Perm P.units) (hgates : generateGates order = .ok gates) :
    ∀ gate ∈ gates, gate.Right P := by
  intro gate hgate
  obtain ⟨t, hexpanded, hok⟩ := generateGates_ok h hnum
  cases hgates.symm.trans hok
  rw [List.mem_append, List.mem_append] at hgate
  rcases hgate with (hgate | hgate) | hgate
  · obtain ⟨symbol, fn, caller, target, hwraps, htarget, hne, rfl⟩ :=
      (mem_direct h hexpanded).mp hgate
    obtain ⟨unit, hunit, hdefined, rfl⟩ := exists_of_fnPkeys h htarget
    exact (hagreed.direct symbol fn caller hwraps unit hunit hdefined).resolve_left hne.symm
  · obtain ⟨fn, htaken, hne, rfl⟩ := mem_pointerGates.mp hgate
    intro owner howner hexternal
    obtain ⟨pkey, hpkey⟩ := fnPkeys_isSome h howner (List.mem_append_left _ hexternal)
    rw [hexpanded.pkeys_eq hpkey] at hne ⊢
    obtain ⟨unit, hunit, hdefined, rfl⟩ := exists_of_fnPkeys h hpkey
    exact (hagreed.pointer fn ((mem_addrTakenFns_perm h).mp htaken) unit hunit
      hdefined).resolve_left hne owner howner hexternal
  · obtain ⟨entry, htaken, hne, rfl⟩ := mem_staticGates.mp hgate
    rw [mem_internalAddrTakenFns_perm h] at htaken
    obtain ⟨hunit, hstatic⟩ := of_mem_internalAddrTakenFns htaken
    obtain ⟨pkey, hpkey⟩ := fnPkeys_isSome h hunit (List.mem_append_right _ hstatic)
    rw [hexpanded.pkeys_eq hpkey] at hne ⊢
    obtain ⟨other, hother, hdefined, rfl⟩ := exists_of_fnPkeys h hpkey
    exact (hagreed.static entry htaken other hother hdefined).resolve_left hne

theorem Project.TargetsRight.agreed (hright : P.TargetsRight) (hnum : numPkeys P.units = .ok num) :
    P.Agreed num where
  direct symbol fn caller hwraps unit hunit hdefined := by
    obtain ⟨order, h, hlast⟩ := Table.exists_perm_collect hunit hdefined
    obtain ⟨t, hexpanded, hok⟩ := generateGates_ok h hnum
    by_cases heq : unit.pkey = caller
    · exact .inl heq
    · have hgate := (mem_direct h hexpanded).mpr
        ⟨symbol, fn, caller, unit.pkey, hwraps, hlast, Ne.symm heq, rfl⟩
      exact .inr (hright order h _ hok _ (List.mem_append_left _ (List.mem_append_left _ hgate)))
  pointer fn htaken unit hunit hdefined := by
    obtain ⟨order, h, hlast⟩ := Table.exists_perm_collect hunit hdefined
    obtain ⟨t, hexpanded, hok⟩ := generateGates_ok h hnum
    by_cases heq : unit.pkey = 0
    · exact .inl heq
    · have hkey : (t.pkeys fn).getD 0 = unit.pkey :=
        congrArg (Option.getD · 0) (hexpanded.pkeys_eq hlast)
      have hgate := mem_pointerGates.mpr ⟨fn, (mem_addrTakenFns_perm h).mpr htaken, hkey ▸ heq, rfl⟩
      rw [← hkey]
      exact .inr (hright order h _ hok _ (List.mem_append_left _ (List.mem_append_right _ hgate)))
  static entry htaken unit hunit hdefined := by
    obtain ⟨order, h, hlast⟩ := Table.exists_perm_collect hunit hdefined
    obtain ⟨t, hexpanded, hok⟩ := generateGates_ok h hnum
    by_cases heq : unit.pkey = 0
    · exact .inl heq
    · have hkey : (t.pkeys entry.2).getD 0 = unit.pkey :=
        congrArg (Option.getD · 0) (hexpanded.pkeys_eq hlast)
      have hgate := mem_staticGates.mpr ⟨entry, (mem_internalAddrTakenFns_perm h).mpr htaken,
        hkey ▸ heq, rfl⟩
      rw [← hkey]
      exact .inr (hright order h _ hok _ (List.mem_append_right _ hgate))

end Project

/-- The first unit defines a function for the third, and the second has a static function of the
same name. -/
def sharedName : Project where
  units := [⟨1, ["f"], [], [], [], [], by decide, by decide⟩,
    ⟨2, [], ["f"], [], [], [], by decide, by decide⟩,
    ⟨3, [], [], ["f"], [], [], by decide, by decide⟩]
  one_definition := by decide
  has_definition := by decide

end Ia2.SourceRewriter
