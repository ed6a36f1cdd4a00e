import Ia2.Arm.Copies
import Ia2.Arm.Shift
import Mathlib.Logic.Function.Basic

/-!
# The moves of an indirect call site

`emit_copy_args` walks the two lists of locations in step and moves one location at a time.
`origins` follows the walk without a machine: for each register, the place from which its value has
come. The run of the moves agrees with it, whatever the two lists are.
-/

namespace Ia2.Arm

open StraightLine Set
open Rewriter (ArgLocation Slot)
open Rewriter.ArgLocation (register indirect)

/-! ### Places -/

inductive Place where
  | x (n : Fin 31)
  | q (i : VReg)
  | stack (offset : Nat)
  | copy (offset : Nat)
deriving DecidableEq, Repr

def ArgReg.place : ArgReg → Place
  | .x n => .x n
  | .q i => .q i

def Location.place (loc : Location) : Place :=
  if loc.isStack then .stack loc.stackOffset
  else
    match loc.reg with
    | some r => r.place
    | none => .stack loc.stackOffset

/-- The place eight bytes further on. -/
def Place.next : Place → Place
  | .stack offset => .stack (offset + 8)
  | p => p

def sources : List Location → List Location → List Place
  | [_, _], [src] => [src.place, src.place.next]
  | _, srcs => srcs.map Location.place

def ArgReg.bytes : ArgReg → Nat
  | .x _ => 8
  | .q _ => 16

/-- The first `n` bytes at a place in the state in which the gate is called. Copies are at offsets
from `v`. -/
def Place.value (v : BitVec 64) (s : State) (n : Nat) : Place → Nat
  | .x k => (s.regs (.x k)).toNat % 256 ^ n
  | .q i => (s.vregs i).toNat % 256 ^ n
  | .stack offset => s.mem.read (low s.sp + offset) n
  | .copy offset => (v + BitVec.ofNat 64 offset).toNat % 256 ^ n

/-! ### The walk -/

abbrev Origins := ArgReg → Place

def originStep (σ : Origins) (src dst : Location) : Origins :=
  if dst.isStack then σ
  else
    match dst.reg with
    | none => σ
    | some r =>
      if src.isStack then Function.update σ r (.stack src.stackOffset)
      else
        match src.reg with
        | none => σ
        | some r' => Function.update σ r (σ r')

def origins (σ : Origins) : List Location → List Location → Origins
  | src :: srcs, dst :: dsts => origins (originStep σ src dst) srcs dsts
  | _, _ => σ

theorem originStep_cases (σ : Origins) (src dst : Location) : originStep σ src dst = σ ∨
    ∃ r p, dst.reg = some r ∧ originStep σ src dst = Function.update σ r p ∧
      ((∃ offset, p = .stack offset) ∨ ∃ r', p = σ r') := by
  unfold originStep
  cases dst.isStack with
  | true => exact .inl rfl
  | false =>
    cases dst.reg with
    | none => exact .inl rfl
    | some r =>
      cases src.isStack with
      | true => exact .inr ⟨r, _, rfl, rfl, .inl ⟨_, rfl⟩⟩
      | false =>
        cases src.reg with
        | none => exact .inl rfl
        | some r' => exact .inr ⟨r, _, rfl, rfl, .inr ⟨r', rfl⟩⟩

variable {dsts srcs : List Location} {r : ArgReg} {n : Fin 31} {k : Nat} {p : Location × Nat}
  {ps : List (Location × Nat)} {env : Env}

theorem origins_of_notMem (h : ∀ dst ∈ dsts, dst.reg ≠ some r) (σ : Origins) :
    origins σ srcs dsts r = σ r := by
  induction srcs generalizing σ dsts with
  | nil => rfl
  | cons src srcs ih =>
    cases dsts with
    | nil => rfl
    | cons dst dsts =>
      rw [List.forall_mem_cons] at h
      rw [origins, ih h.2]
      rcases originStep_cases σ src dst with heq | ⟨r', p, hr', heq, -⟩
      · rw [heq]
      · rw [heq, Function.update_of_ne fun hr => h.1 (by rw [hr', hr])]

theorem origins_ne {p : Place} (hp : ∀ offset, p ≠ .stack offset) {σ : Origins} (h : ∀ r, σ r ≠ p)
    (srcs dsts : List Location) :
    ∀ r, origins σ srcs dsts r ≠ p := by
  induction srcs generalizing σ dsts with
  | nil => exact h
  | cons src srcs ih =>
    cases dsts with
    | nil => exact h
    | cons dst dsts =>
      refine ih (fun r => ?_) dsts
      rcases originStep_cases σ src dst with heq | ⟨r', p', -, heq, hp'⟩
      · rw [heq]
        exact h r
      · rw [heq, Function.update_apply]
        split
        · rcases hp' with ⟨offset, rfl⟩ | ⟨r'', rfl⟩
          · exact (hp offset).symm
          · exact h r''
        · exact h r

def Carried : ArgReg → Prop
  | .x n => n ∈ 9 :: intParamRegOrder
  | .q _ => True

theorem carried_ne (h : Carried (.x n)) : n ≠ 12 := by
  rintro rfl
  have hmem : (12 : Fin 31) ∈ 9 :: intParamRegOrder := h
  revert hmem
  decide

def IsParam : ArgReg → Prop
  | .x n => n ∈ intParamRegOrder
  | .q _ => True

theorem IsParam.carried (h : IsParam r) : Carried r := by
  cases r with
  | x n => exact List.mem_cons_of_mem _ h
  | q i => trivial

theorem isParam_intReg (h : intReg k = some r) : IsParam r := by
  obtain ⟨n, hn, rfl⟩ := Option.map_eq_some_iff.mp h
  exact List.mem_of_getElem? hn

theorem isParam_floatReg (h : floatReg k = some r) : IsParam r := by
  obtain ⟨n, -, rfl⟩ := Option.map_eq_some_iff.mp h
  trivial

theorem Shift.isParam {arg : ArgLocation} {locs : List Location} (h : Shift arg locs srcs) :
    (∀ loc ∈ locs, ∀ r, loc.reg = some r → IsParam r) ∧ ∀ src ∈ srcs, ∀ r, src.reg = some r →
      IsParam r := by
  have hint : ∀ (k : Nat) (r : ArgReg), intReg k = some r → IsParam r := fun _ _ => isParam_intReg
  have hfloat : ∀ (k : Nat) (r : ArgReg), floatReg k = some r → IsParam r :=
    fun _ _ => isParam_floatReg
  have hnone : ∀ r : ArgReg, none = some r → IsParam r := fun _ h => by cases h
  cases h <;> simp only [List.forall_mem_cons, List.not_mem_nil, false_implies, implies_true,
    and_true, half]
  case word => exact ⟨hint _, hint _⟩
  case spill => exact ⟨hint _, hnone⟩
  case unspill => exact ⟨hnone, hint _⟩
  case pair => exact ⟨⟨hint _, hint _⟩, hint _, hint _⟩
  case split => exact ⟨⟨hint _, hint _⟩, hnone⟩
  case vector => exact ⟨hfloat _, hfloat _⟩
  case stacked => exact ⟨hnone, hnone⟩

structure Walk (s : State) (v : BitVec 64) (m : ByteMemory) (σ : Origins) (t : State) : Prop where
  holds : ∀ r, Carried r → r.value t = (σ r).value v s r.bytes
  saved : t.regs (.x 12) = s.sp - BitVec.ofNat 64 savedBytes
  sp : t.sp = v
  mem : t.mem = m

section Walk

variable {env : Env} {s t : State} {v : BitVec 64} {m : ByteMemory} {σ : Origins} {top : Nat}

theorem Walk.set (h : Walk s v m σ t) (hn : Carried (.x n)) {u : BitVec 64} {p : Place}
    (hu : u.toNat = p.value v s 8) :
    Walk s v m (Function.update σ (.x n) p) (t.set (.x n) u) := by
  refine ⟨fun r hr => ?_, ?_, h.sp, h.mem⟩
  · cases r with
    | x k =>
      have hk := h.holds _ hr
      by_cases hkn : k = n
      · subst hkn
        simpa [ArgReg.value, ArgReg.bytes] using hu
      · simpa [ArgReg.value, hkn, Function.update_of_ne] using hk
    | q i => exact h.holds (.q i) trivial
  · have hne := carried_ne hn
    simpa [hne.symm] using h.saved

theorem Walk.setQ (h : Walk s v m σ t) {i : VReg} {u : BitVec 128} {p : Place}
    (hu : u.toNat = p.value v s 16) :
    Walk s v m (Function.update σ (.q i) p) (t.setQ i u) := by
  refine ⟨fun r hr => ?_, h.saved, h.sp, h.mem⟩
  cases r with
  | x k => exact h.holds (.x k) hr
  | q j =>
    have hj := h.holds (.q j) trivial
    by_cases hji : j = i
    · subst hji
      simpa [ArgReg.value, ArgReg.bytes] using hu
    · simpa [ArgReg.value, hji, Function.update_of_ne] using hj

theorem Walk.move (h : Walk s v m σ t) {r' : ArgReg} {i : Instr} (hr : Carried r) (hr' : Carried r')
    (hi : moveReg r r' = some i) :
    Walk s v m (Function.update σ r' (σ r)) (exec env i t) := by
  have hvalue := h.holds r hr
  cases r with
  | x n =>
    cases r' with
    | x k =>
      cases hi
      exact h.set hr' hvalue
    | q k => cases hi
  | q j => cases r' <;> cases hi

theorem Walk.load (h : Walk s v m σ t) (hr : Carried r) {offset : Nat} (hoffset : offset + 16 ≤ top)
    (htop : low s.sp + top ≤ 2 ^ 56) (hm : EqOn m s.mem (Ico (low s.sp) (low s.sp + top))) :
    Walk s v m (Function.update σ r (.stack offset))
      (exec env (loadReg (savedBytes + offset) r) t) := by
  have haddr : t.addr (.x 12) (savedBytes + offset) = low s.sp + offset := by
    have hsum : t.regs (.x 12) + BitVec.ofNat 64 (savedBytes + offset) =
        s.sp + BitVec.ofNat 64 offset := by
      rw [h.saved, BitVec.ofNat_add, ← BitVec.add_assoc, BitVec.sub_add_cancel]
    rw [State.addr, hsum, low_add (by omega)]
  have hread : ∀ n ≤ 16, t.mem.read (low s.sp + offset) n = s.mem.read (low s.sp + offset) n :=
    fun n hn => by
    rw [h.mem]
    exact ByteMemory.read_congr (hm.mono (Ico_subset_Ico (by omega) (by omega)))
  cases r with
  | x n =>
    refine h.set hr ?_
    rw [haddr, hread _ (by decide), BitVec.toNat_ofNat]
    exact Nat.mod_eq_of_lt (ByteMemory.read_lt _ _ 8)
  | q i =>
    refine h.setQ ?_
    rw [haddr, hread _ le_rfl, BitVec.toNat_ofNat]
    exact Nat.mod_eq_of_lt (ByteMemory.read_lt _ _ 16)

theorem Walk.moves (htop : low s.sp + top ≤ 2 ^ 56)
    (hm : EqOn m s.mem (Ico (low s.sp) (low s.sp + top))) {moves : List Instr}
    (hmoves : moveArgs srcs dsts = some moves)
    (hsrcs : ∀ src ∈ srcs, (∀ r, src.reg = some r → Carried r) ∧
    (src.isStack = true → src.stackOffset + 16 ≤ top))
    (hdsts : ∀ dst ∈ dsts, ∀ r, dst.reg = some r → Carried r) (h : Walk s v m σ t) :
    Walk s v m (origins σ srcs dsts) (run (exec env) moves t) := by
  induction srcs, dsts using moveArgs.induct generalizing σ t moves with
  | case1 srcs =>
    rw [moveArgs] at hmoves
    cases hmoves
    cases srcs <;> exact h
  | case2 dst dsts hstack ih =>
    rw [moveArgs, if_pos hstack] at hmoves
    rw [List.forall_mem_cons] at hdsts
    have hrest := ih hmoves hsrcs hdsts.2 h
    cases dsts <;> exact hrest
  | case3 dst dsts hstack =>
    rw [moveArgs, if_neg hstack] at hmoves
    cases hmoves
  | case4 src srcs dst dsts ih =>
    rw [List.forall_mem_cons] at hsrcs hdsts
    obtain ⟨is, his, moves', hmoves', rfl⟩ : ∃ is, moveArg src dst = some is ∧ ∃ moves',
      moveArgs srcs dsts = some moves' ∧
        is ++ moves' = moves := by
      simpa [moveArgs, Option.bind_eq_some_iff] using hmoves
    rw [run_append]
    refine ih hmoves' hsrcs.2 hdsts.2 ?_
    unfold moveArg at his
    unfold originStep
    cases hdst : dst.isStack with
    | true =>
      rw [if_pos hdst] at his
      cases his
      exact h
    | false =>
      rw [if_neg (by simp [hdst])] at his
      cases hr : dst.reg with
      | none =>
        rw [hr] at his
        cases his
        exact h
      | some r =>
        rw [hr] at his
        have hcarried := hdsts.1 r hr
        cases hsrc : src.isStack with
        | true =>
          simp only [hsrc, if_true] at his
          cases his
          exact h.load hcarried (hsrcs.1.2 hsrc) htop hm
        | false =>
          simp only [hsrc] at his
          cases hr' : src.reg with
          | none => simp [hr'] at his
          | some r' =>
            obtain ⟨i, hi, rfl⟩ : ∃ i, moveReg r' r = some i ∧ [i] = is := by
              simpa [hr', Option.bind_eq_some_iff] using his
            exact h.move (hsrcs.1.1 r' hr') hcarried hi

end Walk

theorem moveArg_isCall {src dst : Location} {is : List Instr} (h : moveArg src dst = some is) :
    ∀ i ∈ is, i.isCall = false := by
  have hload : ∀ offset r, (loadReg offset r).isCall = false := fun _ r => by cases r <;> rfl
  have hmove : ∀ r r' i, moveReg r r' = some i → i.isCall = false := by
    intro r r' i h
    cases r <;> cases r' <;> cases h
    rfl
  unfold moveArg at h
  split at h
  · cases h
    simp
  · split at h
    · cases h
      simp
    · split at h
      · cases h
        exact List.forall_mem_singleton.mpr (hload _ _)
      · obtain ⟨r', -, i, hi, rfl⟩ : ∃ r', _ ∧ ∃ i, moveReg r' _ = some i ∧ [i] = is := by
          simpa [Option.bind_eq_some_iff] using h
        exact List.forall_mem_singleton.mpr (hmove _ _ _ hi)

theorem moveArgs_isCall {moves : List Instr} (h : moveArgs srcs dsts = some moves) :
    ∀ i ∈ moves, i.isCall = false := by
  induction srcs, dsts using moveArgs.induct generalizing moves with
  | case1 srcs =>
    rw [moveArgs] at h
    cases h
    simp
  | case2 dst dsts hstack ih =>
    rw [moveArgs, if_pos hstack] at h
    exact ih h
  | case3 dst dsts hstack =>
    rw [moveArgs, if_neg hstack] at h
    cases h
  | case4 src srcs dst dsts ih =>
    obtain ⟨is, his, moves', hmoves', rfl⟩ : ∃ is, moveArg src dst = some is ∧ ∃ moves',
      moveArgs srcs dsts = some moves' ∧
        is ++ moves' = moves := by
      simpa [moveArgs, Option.bind_eq_some_iff] using h
    exact List.forall_mem_append.mpr ⟨moveArg_isCall his, ih hmoves'⟩

/-! ### Pointers to copies -/

def copyTo : List (Location × Nat) → Fin 31 → Option Nat
  | [], _ => none
  | p :: ps, n =>
    (copyTo ps n).or (if p.1.isStack = false ∧ p.1.reg = some (.x n) then some p.2 else none)

theorem exists_copyTo (hp : p ∈ ps) (hstack : p.1.isStack = false) (hreg : p.1.reg = some (.x n)) :
    ∃ offset, copyTo ps n = some offset := by
  induction ps with
  | nil => cases hp
  | cons q ps ih =>
    rw [copyTo]
    rcases List.mem_cons.mp hp with rfl | hp
    · rw [if_pos ⟨hstack, hreg⟩]
      cases copyTo ps n with
      | none => exact ⟨_, rfl⟩
      | some offset => exact ⟨_, rfl⟩
    · obtain ⟨offset, hoffset⟩ := ih hp
      exact ⟨offset, by rw [hoffset]; rfl⟩

theorem copyTo_eq_none (h : ∀ p ∈ ps, p.1.isStack = true) (n : Fin 31) : copyTo ps n = none := by
  induction ps with
  | nil => rfl
  | cons p ps ih =>
    rw [List.forall_mem_cons] at h
    rw [copyTo, ih h.2, if_neg (by simp [h.1])]
    rfl

def copyOrigins (ps : List (Location × Nat)) : Origins
  | .x n => match copyTo ps n with
    | some offset => .copy offset
    | none => .x n
  | .q i => .q i

theorem regs_copyIndirect (hn : n ∈ intParamRegOrder) (t : State) :
    (run (exec env) (emitCopyIndirect p.1 p.2) t).regs (.x n) =
      if p.1.isStack = false ∧ p.1.reg = some (.x n) then t.sp + BitVec.ofNat 64 p.2
        else t.regs (.x n) := by
  have hne := intParam_ne hn
  simp only [List.forall_mem_cons] at hne
  split
  case isTrue h =>
    rw [emitCopyIndirect, if_neg (by simp [h.1]), h.2]
    dsimp only
    rw [run_append, run_regs (memcpy_sets (by simp [hne.2.2.2.1]) _)]
    simp [run, exec]
  case isFalse h =>
    refine run_regs (copyIndirect_sets (by simp [hne.2.1, hne.2.2.1, hne.2.2.2.1])
      (fun hstack k hk => ?_) _) t
    rintro ⟨⟩
    exact h ⟨hstack, hk⟩

theorem regs_copyIndirects (ps : List (Location × Nat)) (hn : n ∈ intParamRegOrder) (t : State) :
    (run (exec env) (ps.flatMap fun (arg, offset) => emitCopyIndirect arg offset) t).regs (.x n) =
      match copyTo ps n with
      | some offset => t.sp + BitVec.ofNat 64 offset
      | none => t.regs (.x n) := by
  induction ps generalizing t with
  | nil => rfl
  | cons p ps ih =>
    have hsp : (run (exec env) (emitCopyIndirect p.1 p.2) t).sp = t.sp :=
      run_regs (copyIndirect_sets (by simp) (by simp) _) t
    rw [List.flatMap_cons, run_append, ih, hsp, regs_copyIndirect hn, copyTo]
    cases copyTo ps n with
    | some offset => rfl
    | none =>
      by_cases h : p.1.isStack = false ∧ p.1.reg = some (.x n)
      · simp only [if_pos h, Option.none_or]
      · simp only [if_neg h, Option.none_or]

/-! ### Values of locations -/

def locValue (s : State) (base : Nat) (loc : Location) : Nat :=
  if loc.isStack then s.mem.read (base + loc.stackOffset) loc.width
  else
    match loc.reg with
    | some r => r.value s % 256 ^ loc.width
    | none => 0

def argValue (s : State) (base : Nat) : List Location → Nat
  | [] => 0
  | loc :: locs => locValue s base loc + 256 ^ loc.width * argValue s base locs

section Values

variable {s c : State} {base : Nat}

theorem locValue_lt (s : State) (base : Nat) (loc : Location) :
    locValue s base loc < 256 ^ loc.width := by
  have hpos : 0 < 256 ^ loc.width := Nat.pow_pos (by decide)
  unfold locValue
  split
  · exact ByteMemory.read_lt _ _ _
  · split
    · exact Nat.mod_lt _ hpos
    · exact hpos

theorem argValue_singleton (s : State) (base : Nat) (loc : Location) :
    argValue s base [loc] = locValue s base loc := rfl

variable {loc : Location}

theorem locValue_stack (h : loc.isStack = true) (s : State) (base : Nat) :
    locValue s base loc = s.mem.read (base + loc.stackOffset) loc.width := if_pos h

theorem locValue_reg (h : loc.isStack = false) (hr : loc.reg = some r) (s : State) (base : Nat) :
    locValue s base loc = r.value s % 256 ^ loc.width := by
  rw [locValue, if_neg (by simp [h]), hr]

def Location.Placed (loc : Location) :
    Prop := loc.isStack = true ∨ loc.isStack = false ∧ ∃ r, loc.reg = some r

theorem locValue_place (h : loc.Placed) (v : BitVec 64) (s : State) :
    locValue s (low s.sp) loc = loc.place.value v s loc.width := by
  rcases h with hstack | ⟨hstack, r, hr⟩
  · rw [locValue_stack hstack, Location.place, if_pos hstack]
    rfl
  · rw [locValue_reg hstack hr, Location.place, if_neg (by simp [hstack]), hr]
    cases r <;> rfl

theorem add_mul_inj {a b c d n : Nat} (ha : a < n) (hc : c < n) :
    a + n * b = c + n * d ↔ a = c ∧ b = d := by
  refine ⟨fun h => ?_, fun ⟨h, h'⟩ => by rw [h, h']⟩
  have hmod := congrArg (· % n) h
  have hdiv := congrArg (· / n) h
  have hn : 0 < n := by omega
  simp only [Nat.add_mul_mod_self_left, Nat.mod_eq_of_lt ha, Nat.mod_eq_of_lt hc] at hmod
  simp only [Nat.add_mul_div_left _ _ hn, Nat.div_eq_of_lt ha, Nat.div_eq_of_lt hc, Nat.zero_add]
    at hdiv
  exact ⟨hmod, hdiv⟩

theorem argValue_single_iff {src : Location} (hsrc : src.Placed) (hwidth : loc.width = src.width)
    (v : BitVec 64) :
    argValue c base [loc] = argValue s (low s.sp) [src] ↔
      ∀ p ∈ [loc].zip (sources [loc] [src]), locValue c base p.1 = p.2.value v s p.1.width := by
  have hzip : [loc].zip (sources [loc] [src]) = [(loc, src.place)] := rfl
  rw [argValue_singleton, argValue_singleton, locValue_place hsrc v, ← hwidth, hzip,
    List.forall_mem_singleton]

theorem argValue_iff {arg : ArgLocation} {locs : List Location} (h : Shift arg locs srcs)
    (v : BitVec 64) :
    argValue c base locs = argValue s (low s.sp) srcs ↔
      ∀ p ∈ locs.zip (sources locs srcs), locValue c base p.1 = p.2.value v s p.1.width := by
  have hreg : ∀ {slot : ArgLocation} {k : Nat}, slot.isStack = false → k < 8 →
      (⟨slot, intReg k⟩ : Location).Placed := fun hslot hk =>
    have ⟨_, _, hr⟩ := intReg_lt hk
    .inr ⟨hslot, _, hr⟩
  have hhalf : ∀ {k : Nat}, k < 8 → (half k).Placed := hreg rfl
  have hwidth : ∀ k, (half k).width = 8 := fun _ => rfl
  cases h with
  | word hword hk =>
    refine argValue_single_iff ?_ (by rfl) v
    exact hreg hword.isStack (Nat.succ_lt_succ hk)
  | spill | stacked =>
    refine argValue_single_iff ?_ (by rfl) v
    exact .inl rfl
  | unspill hword =>
    refine argValue_single_iff ?_ (by rfl) v
    exact hreg hword.isStack (by decide)
  | vector hi =>
    obtain ⟨r, -, hr⟩ := floatReg_lt hi
    refine argValue_single_iff ?_ (by rfl) v
    exact .inr ⟨rfl, _, hr⟩
  | @pair k hk =>
    have hsources : sources [half k, half (k + 1)] [half (k + 1), half (k + 2)] =
      [(half (k + 1)).place, (half (k + 2)).place] := rfl
    simp only [argValue, hsources, List.zip_cons_cons, List.zip_nil_right, List.forall_mem_cons,
      List.not_mem_nil, false_implies,
      implies_true, and_true, Nat.mul_zero, Nat.add_zero,
      locValue_place (hhalf (by omega : k + 1 < 8)) v,
      locValue_place (hhalf (by omega : k + 2 < 8)) v, hwidth]
    exact add_mul_inj (locValue_lt _ _ _) (by
      rw [← hwidth (k + 1), ← locValue_place (hhalf (by omega))]; exact locValue_lt _ _ _)
  | @split o =>
    have hsources : sources [half 6, half 7] [⟨(register .integral 16).allocateStack o, none⟩] =
      [.stack o, .stack (o + 8)] := rfl
    have hread : locValue s (low s.sp) ⟨(register .integral 16).allocateStack o, none⟩ =
        s.mem.read (low s.sp + o) 8 + 256 ^ 8 * s.mem.read (low s.sp + (o + 8)) 8 := by
      rw [locValue_stack rfl, ← Nat.add_assoc]
      exact ByteMemory.read_add _ _ 8 8
    simp only [argValue, hsources, List.zip_cons_cons, List.zip_nil_right, List.forall_mem_cons,
      List.not_mem_nil, false_implies,
      implies_true, and_true, Nat.mul_zero, Nat.add_zero, hwidth, hread]
    exact add_mul_inj (locValue_lt _ _ _) (ByteMemory.read_lt _ _ _)

end Values

end Ia2.Arm
