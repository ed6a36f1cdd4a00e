import Ia2.Gate.Direct

/-!
# Protection keys

What PKRU permits while a gate runs. Every byte of memory carries a protection key; a gate may touch
a byte only while PKRU permits its key, runs its target under the target's PKRU value and everything
that belongs to the caller under the caller's.
-/

namespace Ia2.Gate

open X86 Rewriter StraightLine Set

def Permits (pkru : BitVec 32) (key : Nat) (write : Bool) : Prop :=
  pkru.getLsbD (2 * key) = false ∧ (write = true → pkru.getLsbD (2 * key + 1) = false)

instance (pkru : BitVec 32) (key : Nat) (write : Bool) : Decidable (Permits pkru key write) :=
  inferInstanceAs (Decidable (_ ∧ _))

theorem pkruOf_getLsbD : ∀ pkey < 16, ∀ key < 16, ∀ bit < 2,
    (pkruOf pkey).getLsbD (2 * key + bit) = decide (key ≠ 0 ∧ key ≠ pkey) := by
  decide +kernel

theorem mixedPkru_eq (pkey pkey' : Nat) : mixedPkru pkey pkey' = pkruOf pkey &&& pkruOf pkey' := by
  ext i hi
  simp only [mixedPkru, pkruOf, BitVec.getElem_not, BitVec.getElem_or, BitVec.getElem_and]
  cases (3#32 <<< (2 * pkey))[i] <;> cases (3#32 <<< (2 * pkey'))[i] <;> cases (3#32)[i] <;> rfl

variable {key pkey : Nat}

theorem permits_pkruOf_iff (hpkey : pkey < 16) (hkey : key < 16) (write : Bool) :
    Permits (pkruOf pkey) key write ↔ key = 0 ∨ key = pkey := by
  have hread := pkruOf_getLsbD pkey hpkey key hkey 0 (by decide)
  have hwrite := pkruOf_getLsbD pkey hpkey key hkey 1 (by decide)
  rw [Permits, hwrite, ← Nat.add_zero (2 * key), hread, decide_eq_false_iff_not]
  omega

theorem permits_mixedPkru_iff {pkey' : Nat} (hpkey : pkey < 16) (hpkey' : pkey' < 16)
    (hkey : key < 16) (write : Bool) :
    Permits (mixedPkru pkey pkey') key write ↔ key = 0 ∨ key = pkey ∨ key = pkey' := by
  have hbit : ∀ bit < 2, (mixedPkru pkey pkey').getLsbD (2 * key + bit) =
      decide (key ≠ 0 ∧ key ≠ pkey ∧ key ≠ pkey') := by
    intro bit hbit
    rw [mixedPkru_eq, BitVec.getLsbD_and, pkruOf_getLsbD pkey hpkey key hkey bit hbit,
      pkruOf_getLsbD pkey' hpkey' key hkey bit hbit,
      ← Bool.decide_and]
    exact decide_eq_decide.mpr (by omega)
  rw [Permits, hbit 1 (by decide), ← Nat.add_zero (2 * key), hbit 0 (by decide),
    decide_eq_false_iff_not]
  omega

structure Disciplined (w : Wrapper) (env : Env) (keyOf : Nat → Nat) (i : Instr)
    (t : State) : Prop where
  noFault : ¬ i.Faults t
  access : ∀ a ∈ accesses env i t, ∀ y ∈ a.bytes, Permits t.pkru (keyOf y) a.isWrite
  target : i = .call .target → t.pkru = pkruOf w.targetPkey
  helper : ∀ callee, isHelper callee = true → i = .call callee → t.pkru = pkruOf w.callerPkey
  ret : i = .ret → t.pkru = pkruOf w.callerPkey
  permits : ∀ key < 16, ∀ write, Permits t.pkru key write → key = 0 ∨ key = w.callerPkey ∨
    key = w.targetPkey

def BufferKeyed (w : Wrapper) (keyOf : Nat → Nat) (b : BitVec 64) : Prop :=
  ∀ y ∈ bufferArea w b, keyOf y = 0 ∨ keyOf y = w.callerPkey

structure Keyed (w : Wrapper) (env : Env) (s : State) (keyOf : Nat → Nat) : Prop where
  callerArea : ∀ y ∈ callerArea w s, keyOf y = w.callerPkey
  targetArea : ∀ y ∈ targetArea w env s, keyOf y = w.targetPkey
  callerCell : ∀ y ∈ cell env w.callerPkey, keyOf y = w.callerPkey
  targetCell : ∀ y ∈ cell env w.targetPkey, keyOf y = w.targetPkey
  buffer : BufferKeyed w keyOf (s.regs .rdi)

section Steps

variable {w : Wrapper} {target : TargetInfo} {env : Env} {keep : Set Nat} {keyOf : Nat → Nat}
  {s s₁ t : State} {i : Instr}

theorem permits_of_confined {R W : Set Nat} {pkru : BitVec 32} (h : Confined env R W i t)
    (hR : ∀ y ∈ R, Permits pkru (keyOf y) false) (hW : ∀ y ∈ W, Permits pkru (keyOf y) true) :
    ∀ a ∈ accesses env i t, ∀ y ∈ a.bytes, Permits pkru (keyOf y) a.isWrite := by
  intro a ha y hy
  have hmem := h a ha hy
  cases hwrite : a.isWrite with
  | true =>
    rw [hwrite, if_pos rfl] at hmem
    exact hW y hmem
  | false =>
    rw [hwrite, if_neg (by simp)] at hmem
    exact hR y hmem

theorem permits_pkrus (hcaller : w.callerPkey < 16) (htarget : w.targetPkey < 16)
    (h : t.pkru ∈ [pkruOf w.callerPkey, mixedPkru w.callerPkey w.targetPkey, pkruOf w.targetPkey])
    (hkey : key < 16) {write : Bool} (hpermits : Permits t.pkru key write) :
    key = 0 ∨ key = w.callerPkey ∨ key = w.targetPkey := by
  simp only [List.mem_cons, List.not_mem_nil, or_false] at h
  rcases h with h | h | h
  · rw [h, permits_pkruOf_iff hcaller hkey] at hpermits
    exact hpermits.imp_right .inl
  · rwa [h, permits_mixedPkru_iff hcaller htarget hkey] at hpermits
  · rw [h, permits_pkruOf_iff htarget hkey] at hpermits
    exact hpermits.imp_right .inr

theorem CallerStep.disciplined (hcaller : w.callerPkey < 16) (hok : GateOk w env s)
    (hkeyed : Keyed w env s keyOf)
    (h : CallerStep env (pkruOf w.callerPkey) (s.rsp.toNat - frameDepth) s.rsp.toNat
      (argsEnd w s) i t) :
    Disciplined w env keyOf i t := by
  have hroom := hok.callerRoom
  have hend := argsEnd_eq w s
  have hkey : ∀ write, ∀ y ∈ Ico (s.rsp.toNat - frameDepth) (argsEnd w s),
      Permits (pkruOf w.callerPkey) (keyOf y) write := by
    intro write y hy
    rw [hkeyed.callerArea y ⟨by have := hy.1; omega, hy.2⟩, permits_pkruOf_iff hcaller hcaller]
    exact .inr rfl
  refine ⟨h.noFault, ?_, fun hi => ?_, fun _ _ _ => h.pkru, fun _ => h.pkru,
    fun key hkey write hpermits => ?_⟩
  · rw [h.pkru]
    exact permits_of_confined h.conf (hkey false) fun y hy =>
      hkey true y ⟨hy.1, by have := hy.2; omega⟩
  · obtain ⟨callee, hhelper, hcallee⟩ := h.helper (by rw [hi]; rfl)
    rw [hi] at hcallee
    cases hcallee
    cases hhelper
  · rw [h.pkru, permits_pkruOf_iff hcaller hkey] at hpermits
    exact hpermits.imp_right .inl

section

variable (hcaller : w.callerPkey < 16) (htarget : w.targetPkey < 16) (hok : GateOk w env s)
  (hkeyed : Keyed w env s keyOf) (hrsp : s₁.rsp.toNat = s.rsp.toNat - entryDepth target)
  (hbuffer : BufferKeyed w keyOf (s₁.regs .rdi))

include hcaller htarget hok hkeyed hrsp hbuffer

theorem CrossStep.disciplined (h : CrossStep (crossing w env s s₁) i t) :
    Disciplined w env keyOf i t := by
  have hmixed : ∀ write, ∀ y, keyOf y = 0 ∨ keyOf y = w.callerPkey ∨ keyOf y = w.targetPkey →
      Permits (mixedPkru w.callerPkey w.targetPkey) (keyOf y) write := by
    intro write y hy
    rw [permits_mixedPkru_iff hcaller htarget (by omega)]
    exact hy
  have hcells : ∀ y ∈ (crossing w env s s₁).cells,
      keyOf y = w.callerPkey ∨ keyOf y = w.targetPkey := fun y hy =>
    hy.imp (hkeyed.callerCell y) (hkeyed.targetCell y)
  have hstack : ∀ y ∈ (crossing w env s s₁).callerStack, keyOf y = w.callerPkey := fun y hy =>
    hkeyed.callerArea y (crossing_callerStack_subset hok hrsp hy)
  have hscrub : (crossing w env s s₁).scrubStack ⊆ callerArea w s := by
    have hdepth := entryDepth_le target
    have hroom := hok.callerRoom
    have hend := argsEnd_eq w s
    refine Ico_subset_Ico ?_ ?_
    · change _ ≤ s₁.rsp.toNat - w.scrubDepth
      omega
    · change s₁.rsp.toNat ≤ argsEnd w s
      omega
  have hnoCall := h.noCall
  refine ⟨h.noFault, ?_, ?_, ?_, fun hi => absurd hi h.noRet,
    fun key hkey write => permits_pkrus hcaller htarget ?_ hkey⟩
  · rcases h.access with ⟨hnone, -⟩ | ⟨hpkru, hconf⟩
    · rw [crossing_env] at hnone
      rw [hnone]
      simp
    · rw [hpkru]
      refine permits_of_confined hconf ?_ ?_
      · rintro y ((hy | hy) | hy)
        · exact hmixed _ y (.inr (hcells y hy))
        · exact hmixed _ y (.inr (.inr (hkeyed.targetArea y hy)))
        · exact hmixed _ y (.inr (.inl (hstack y hy)))
      · rintro y (((hy | hy) | hy) | hy)
        · exact hmixed _ y (.inr (hcells y hy))
        · exact hmixed _ y (.inr (.inr (hkeyed.targetArea y hy)))
        · exact hmixed _ y (.inr (.inl (hkeyed.callerArea y (hscrub hy))))
        · exact hmixed _ y ((hbuffer y hy).imp_right .inl)
  · rintro rfl
    cases hnoCall
  · rintro callee hhelper rfl
    rw [isCall_of_isHelper hhelper] at hnoCall
    cases hnoCall
  · rcases h.access with ⟨-, hpkru⟩ | ⟨hpkru, -⟩
    · exact hpkru
    · rw [hpkru]
      simp

theorem GateStep.disciplined (h : GateStep w env s s₁ i t) :
    Disciplined w env keyOf i t := by
  cases h with
  | caller h => exact h.disciplined hcaller hok hkeyed
  | cross h => exact h.disciplined hcaller htarget hok hkeyed hrsp hbuffer
  | call hi hpkru hconf =>
    subst hi
    refine ⟨id, ?_, fun _ => hpkru, ?_, nofun, fun key hkey write hpermits => ?_⟩
    · rw [hpkru]
      refine permits_of_confined hconf (by simp) fun y hy => ?_
      rw [hkeyed.targetArea y hy, permits_pkruOf_iff htarget htarget]
      exact .inr rfl
    · rintro callee hhelper ⟨⟩
      cases hhelper
    · rw [hpkru, permits_pkruOf_iff htarget hkey] at hpermits
      exact hpermits.imp_right .inr

end

theorem GateRun.disciplined (hrun : GateRun w target env keep s) (hcaller : w.callerPkey < 16)
    (htarget : w.targetPkey < 16) (hok : GateOk w env s) (hkeyed : Keyed w env s keyOf)
    (hbuffer : BufferKeyed w keyOf ((entered w env s).regs .rdi)) :
    Along (exec env) (Disciplined w env keyOf) (gateCode w) s :=
  hrun.steps.mono fun _ _ _ h => h.disciplined hcaller htarget hok hkeyed hrun.entry.rsp hbuffer

end Steps

/-! ### Which gates keep to the keys -/

/-- A gate entered in state `s` keeps to the keys, whatever its functions do and wherever other keys
lie. -/
def KeepsKeys (w : Wrapper) (target : TargetInfo) (env : Env) (s : State) : Prop :=
  ∀ function keyOf, Obeys w target (calling env function) s →
    Keyed w (calling env function) s keyOf →
    ∃ prog, w.emitAsmWrapper = some prog ∧
      Along (exec (calling env function)) (Disciplined w (calling env function) keyOf) prog s

section Exact

variable {w : Wrapper} {target : TargetInfo} {env : Env} {keyOf : Nat → Nat} {s : State}
  {x : BitVec 64}

theorem keepsKeys_of (htarget : w.target = some target) (hkind : w.kind ≠ .indirectCallsite)
    (hsig : w.wrapperSig = none) (hcallerKey : w.callerPkey < 16) (htargetKey : w.targetPkey < 16)
    (hok : GateOk w env s) (hbuffer : BufferOk w env s (s.regs .rdi))
    (h : w.sizes.returnSize = 0 ∨ target.preConditions = 0) :
    KeepsKeys w target env s := by
  intro function keyOf hobeys hkeyed
  have hok' := hok.calling function
  refine ⟨gateCode w, emitAsmWrapper_eq hsig, ?_⟩
  suffices hresult : BufferOk w (calling env function) s
    ((entered w (calling env function) s).regs .rdi) ∧
      BufferKeyed w keyOf ((entered w (calling env function) s).regs .rdi) from
    (hobeys.gateRun htarget hkind hok' hresult.1).disciplined hcallerKey htargetKey hok'
      hkeyed hresult.2
  rcases h with hret | hpre
  · refine ⟨.of_returnSize hret _, fun y hy => ?_⟩
    rw [bufferArea_eq_empty hret] at hy
    cases hy
  · rw [(hobeys.entryState htarget hok').ints hpre .rdi (by decide)]
    exact ⟨hbuffer.calling function, hkeyed.buffer⟩

def straying (w : Wrapper) (env : Env) (s : State) (x : BitVec 64) : Callee → State → State
  | .preCondition _, c => (c.set .rsp (c.rsp + 8#64)).set .rdi x
  | .target, c =>
    { c.set .rsp (c.rsp + 8#64) with
        mem := c.mem.write (resultAddr w env s) 1 ((s.mem x.toNat).toNat + 1) }
  | _, c => c.set .rsp (c.rsp + 8#64)

theorem straying_mem (x : BitVec 64) (callee : Callee) (c : State) :
    EqOn (straying w env s x callee c).mem c.mem {resultAddr w env s}ᶜ := by
  cases callee with
  | target =>
    intro y hy
    refine ByteMemory.write_of_notMem fun hresult => hy ?_
    have := hresult.1
    have := hresult.2
    exact mem_singleton_iff.mpr (by omega)
  | _ => exact eqOn_refl _ _

theorem straying_obeys (hok : GateOk w env s) (hret : 0 < w.sizes.returnSize) (x : BitVec 64) :
    Obeys w target (calling env (straying w env s x)) s := by
  have hsaved : ∀ r ∈ calleeSaved, r ≠ .rsp ∧ r ≠ .rdi := by decide
  refine ⟨fun callee hcalls c _ => ?_, fun c _ =>
    ⟨rfl, ⟨fun r hr => if_neg (hsaved r hr).1, rfl, ?_⟩⟩⟩
  · cases callee with
    | target => cases hcalls
    | preCondition i =>
      refine ⟨rfl, ⟨fun r hr => ?_, rfl, eqOn_refl _ _⟩⟩
      exact (if_neg (hsaved r hr).2).trans (if_neg (hsaved r hr).1)
    | _ => exact ⟨rfl, ⟨fun r hr => if_neg (hsaved r hr).1, rfl, eqOn_refl _ _⟩⟩
  · intro y hy
    refine straying_mem x .target c fun hresult => ?_
    exact resultAddr_notMem_gateBytes target hok hret (mem_singleton_iff.mp hresult ▸ hy)

theorem straying_entered (htarget : w.target = some target) (hpre : 0 < target.preConditions)
    (x : BitVec 64) :
    (entered w (calling env (straying w env s x)) s).regs .rdi = x := by
  obtain ⟨prog, hprog⟩ := emitEntry_preCondition htarget (Nat.succ_pred_eq_of_pos hpre).symm
  rw [entered, hprog, run_append]
  rfl

variable {a : Nat}

theorem exists_keyed (hok : GateOk w env s) (hbuffer : BufferOk w env s (s.regs .rdi))
    (hcells : a ∉ cell env w.callerPkey ∪ cell env w.targetPkey)
    (hareas : a ∉ targetArea w env s ∪ callerArea w s) (ha : a ∉ bufferArea w (s.regs .rdi))
    (key : Nat) :
    ∃ keyOf, Keyed w env s keyOf ∧ keyOf a = key := by
  classical
  have hother : ∀ {A : Set Nat} {y : Nat}, a ∉ A → y ∈ A → y ≠ a := fun hA hy h => hA (h ▸ hy)
  rw [mem_union, not_or] at hcells hareas
  refine ⟨fun y => if y = a then key else if y ∈ targetArea w env s ∪ cell env w.targetPkey
    then w.targetPkey else w.callerPkey,
    ⟨fun y hy => ?_, fun y hy => ?_, fun y hy => ?_, fun y hy => ?_, fun y hy => .inr ?_⟩,
    if_pos rfl⟩
  · rw [if_neg (hother hareas.2 hy), if_neg]
    rintro (h | h)
    · exact disjoint_left.mp hok.areas h hy
    · exact disjoint_left.mp hok.cells_callerArea (.inr h) hy
  · rw [if_neg (hother hareas.1 hy), if_pos (.inl hy)]
  · rw [if_neg (hother hcells.1 hy), if_neg]
    rintro (h | h)
    · exact disjoint_left.mp hok.cells_targetArea (.inl hy) h
    · exact disjoint_left.mp hok.cells hy h
  · rw [if_neg (hother hcells.2 hy), if_pos (.inr hy)]
  · rw [if_neg (hother ha hy), if_neg]
    rintro (h | h)
    · exact disjoint_left.mp hbuffer.areas (.inl h) hy
    · exact disjoint_left.mp hbuffer.cells (.inr h) hy

theorem Disciplined.spares {i : Instr} {t : State} (h : Disciplined w env keyOf i t)
    (hkey : keyOf a < 16) (hthird : keyOf a ≠ 0 ∧ keyOf a ≠ w.callerPkey ∧ keyOf a ≠ w.targetPkey) :
    Confined env {a}ᶜ {a}ᶜ i t := by
  intro access haccess y hy
  rw [ite_self]
  rintro rfl
  have := h.permits (keyOf y) hkey _ (h.access access haccess y hy)
  omega

theorem not_keepsKeys (htarget : w.target = some target) (hkind : w.kind ≠ .indirectCallsite)
    (hsig : w.wrapperSig = none) (hcallerKey : w.callerPkey < 16) (htargetKey : w.targetPkey < 16)
    (hok : GateOk w env s) (hbuffer : BufferOk w env s (s.regs .rdi)) (hstray : BufferOk w env s x)
    (hx : x.toNat ∉ bufferArea w (s.regs .rdi)) (hret : 0 < w.sizes.returnSize)
    (hpre : 0 < target.preConditions) : ¬ KeepsKeys w target env s := by
  intro h
  have hxmem : x.toNat ∈ bufferArea w x := ⟨le_rfl, by omega⟩
  have hcells : x.toNat ∉ cell env w.callerPkey ∪ cell env w.targetPkey :=
    fun h => disjoint_left.mp hstray.cells h hxmem
  have hareas : x.toNat ∉ targetArea w env s ∪ callerArea w s :=
    fun h => disjoint_left.mp hstray.areas h hxmem
  obtain ⟨key, hkey, hthird⟩ : ∃ key < 16, key ≠ 0 ∧ key ≠ w.callerPkey ∧ key ≠ w.targetPkey :=
    (by decide : ∀ a < 16, ∀ b < 16, ∃ key < 16, key ≠ 0 ∧ key ≠ a ∧ key ≠ b) _ hcallerKey
      _ htargetKey
  obtain ⟨keyOf, hkeyed, rfl⟩ := exists_keyed (hok.calling (straying w env s x)) (hbuffer.calling _)
    hcells hareas hx key
  -- the run of the gate with the functions that stray
  have hobeys : Obeys w target (calling env (straying w env s x)) s := straying_obeys hok hret x
  have hrdi := @straying_entered w target env s htarget hpre x
  have hrun := hobeys.gateRun htarget hkind (hok.calling _) (by rw [hrdi]; exact hstray.calling _)
  -- its result is copied to `x`
  have hresult := hrun.back.result 0 hret
  simp only [crossing_w, crossing_tsp, crossing_buffer, hrdi, Nat.add_zero] at hresult
  have hwritten : (afterCall w (calling env (straying w env s x)) s).mem (resultAddr w env s) =
      BitVec.ofNat 8 ((s.mem x.toNat).toNat + 1) := by
    rw [afterCall, emitFnCall_eq htarget]
    exact ByteMemory.write_one_apply _ _ _
  -- but the byte at `x` is forbidden
  obtain ⟨prog, hprog, halong⟩ := h _ keyOf hobeys hkeyed
  rw [emitAsmWrapper_eq hsig, Option.some.injEq] at hprog
  subst hprog
  have hstart := ((along_append s).mp halong).1
  have hspared : (returned w (calling env (straying w env s x)) s).mem x.toNat = s.mem x.toNat := by
    rw [← run_returned]
    refine (hstart.invariant (J := fun t => t.mem x.toNat = s.mem x.toNat) rfl
      fun i t hi hstep ht => ?_).2
    obtain ⟨t', ht'⟩ := hrun.steps.exists_of_mem (List.mem_append_left _ hi)
    refine (exec_spares (hstep.spares hkey hthird)
      (fun callee c => straying_mem x callee c fun hresult => ?_)
      ht'.ne_callIndirect).trans ht
    rw [mem_singleton_iff] at hresult
    exact hareas (.inl (hresult ▸ resultAddr_mem_targetArea hok hret))
  have hbyte := hspared.symm.trans (hresult.trans hwritten)
  have hvalue := congrArg BitVec.toNat hbyte
  rw [BitVec.toNat_ofNat] at hvalue
  have := (s.mem x.toNat).isLt
  omega

/-- A gate keeps to the keys exactly when it returns nothing in memory or has no pre-conditions. -/
theorem keepsKeys_iff (htarget : w.target = some target) (hkind : w.kind ≠ .indirectCallsite)
    (hsig : w.wrapperSig = none) (hcallerKey : w.callerPkey < 16) (htargetKey : w.targetPkey < 16)
    (hok : GateOk w env s) (hbuffer : BufferOk w env s (s.regs .rdi)) (hstray : BufferOk w env s x)
    (hx : x.toNat ∉ bufferArea w (s.regs .rdi)) :
    KeepsKeys w target env s ↔ w.sizes.returnSize = 0 ∨ target.preConditions = 0 := by
  refine ⟨fun h => ?_, keepsKeys_of htarget hkind hsig hcallerKey htargetKey hok hbuffer⟩
  by_contra hbad
  exact not_keepsKeys htarget hkind hsig hcallerKey htargetKey hok hbuffer hstray hx (by omega)
    (by omega) h

end Exact

theorem structEntry_stray :
    (0x40000 : BitVec 64).toNat ∉ bufferArea structGate (structEntry.regs .rdi) :=
  fun h => absurd h.2 (by decide)

theorem keepsKeys_iff_struct :
    (Obeys stackGate { preConditions := 1 } structEnv structEntry ∧
      (∃ keyOf, Keyed stackGate structEnv structEntry keyOf) ∧
      KeepsKeys stackGate { preConditions := 1 } structEnv structEntry) ∧
    Obeys (withTarget structGate { postConditions := 1 }) { postConditions := 1 } structEnv
      structEntry ∧
    (∃ keyOf, Keyed (withTarget structGate { postConditions := 1 }) structEnv structEntry keyOf) ∧
    KeepsKeys (withTarget structGate { postConditions := 1 }) { postConditions := 1 } structEnv
      structEntry := by
  have hbuffer := @structGate_buffer (structEntry.regs .rdi) (by decide) (by decide)
  have hstray := @structGate_buffer 0x40000 (by decide) (by decide)
  have hmem : (0x40000 : BitVec 64).toNat ∈ bufferArea structGate 0x40000 := ⟨le_rfl, by decide⟩
  have hcells : (0x40000 : BitVec 64).toNat ∉ cell structEnv 1 ∪ cell structEnv 2 :=
    fun h => disjoint_left.mp hstray.cells h hmem
  have hareas : (0x40000 : BitVec 64).toNat ∉
      targetArea structGate structEnv structEntry ∪ callerArea structGate structEntry :=
    fun h => disjoint_left.mp hstray.areas h hmem
  have hnowhere : ∀ b : BitVec 64, BufferOk stackGate structEnv structEntry b := .of_returnSize rfl
  have hempty : ∀ b : BitVec 64, (0x40000 : BitVec 64).toNat ∉ bufferArea stackGate b := by
    intro b
    rw [bufferArea_eq_empty rfl]
    exact notMem_empty _
  have hbeyond : (0x40000 : BitVec 64).toNat ∉
      targetArea stackGate structEnv structEntry ∪ callerArea stackGate structEntry := by
    rintro (⟨-, hlt⟩ | ⟨-, hlt⟩)
    · rw [show stackGate.targetPkey = 2 from rfl, structEntry_stackptr] at hlt
      exact absurd hlt (by decide)
    · exact absurd hlt (by decide)
  constructor
  · refine ⟨structEnv_obeys _ _ _, ?_, ?_⟩
    · obtain ⟨keyOf, hkeyed, -⟩ :=
        exists_keyed stackGate_ok (hnowhere _) hcells hbeyond (hempty _) 3
      exact ⟨keyOf, hkeyed⟩
    · exact (keepsKeys_iff rfl (by decide) rfl (by decide) (by decide) stackGate_ok (hnowhere _)
        (hnowhere 0x40000) (hempty _)).mpr (.inl rfl)
  · refine ⟨structEnv_obeys _ _ _, ?_, ?_⟩
    · obtain ⟨keyOf, hkeyed, -⟩ := exists_keyed (structGate_ok.withTarget { postConditions := 1 })
        (hbuffer.withTarget _) hcells hareas structEntry_stray 3
      exact ⟨keyOf, hkeyed⟩
    · have hok := structGate_ok.withTarget { postConditions := 1 }
      exact (keepsKeys_iff rfl (by decide) rfl (by decide) (by decide) hok (hbuffer.withTarget _)
        (hstray.withTarget _) structEntry_stray).mpr (.inr rfl)

theorem struct_preCondition_breaks_keys :
    ¬ KeepsKeys (withTarget structGate { preConditions := 1 }) { preConditions := 1 } structEnv
      structEntry :=
  not_keepsKeys (x := 0x40000) rfl (by decide) rfl (by decide) (by decide)
    (structGate_ok.withTarget _)
    ((structGate_buffer (by decide) (by decide)).withTarget _)
      ((structGate_buffer (by decide) (by decide)).withTarget _)
    structEntry_stray (by decide) (by decide)

end Ia2.Gate
