import Ia2.Arm.Frames

/-!
# Scrubbing on AArch64

`emit_scrub_regs` saves registers on the stack, calls the function that zeroes the others, and takes
the saved ones back. As on x86-64 the proof follows the nesting: each pair of saved registers wraps
a push and a pop around code that returns with its stack pointer and the memory above it. Nothing
but that is used of the function that scrubs, so the results are about any function in its place,
and the gates then use them for the one that the runtime has.
-/

namespace Ia2.Arm

open StraightLine Set

variable {env : Env}

structure Restores (n : Nat) (s s' : State) : Prop where
  sp : s'.sp = s.sp
  vregs : s'.vregs = s.vregs
  mem : EqOn s'.mem s.mem (Ico (low s.sp - n) (low s.sp))ᶜ

def pairsBytes : List (Fin 31) → Nat
  | [] => 0
  | [_] => 16
  | _ :: _ :: rs => pairsBytes rs + 16

/-- The bytes of the saved registers. -/
def scrubBytes (locs : List Location) (isIndirect : Bool) :
    Nat := 16 * (regs128bit locs).length + pairsBytes (regs64bit locs isIndirect)

theorem low_sub_sixteen {v : BitVec 64} (h : 16 ≤ low v) : low (v - 16#64) = low v - 16 := low_sub h

/-! ### Any function that scrubs -/

/-- A function in the place of `__libia2_scrub_registers`. It may leave anything in the registers.
-/
structure Scrub where
  apply : State → State
  sp : ∀ s, (apply s).sp = s.sp
  mem : ∀ s, (apply s).mem = s.mem

/-- The machine with another function that scrubs. -/
def execWith (scrub : Scrub) (env : Env) : Instr → State → State
  | .bl .scrubRegisters, s => scrub.apply (s.set (.x 30) env.retAddr)
  | i, s => exec env i s

namespace Scrub

def zeroing : Scrub := ⟨scrubRegisters, fun _ => rfl, fun _ => rfl⟩

theorem execWith_zeroing (env : Env) : execWith zeroing env = exec env := by
  funext i s
  cases i
  case bl callee => cases callee <;> rfl
  all_goals rfl

def spared (scrub : Scrub) (env : Env) :
    Set ArgReg := {r | ∀ s, r.value (execWith scrub env (.bl .scrubRegisters) s) = r.value s}

end Scrub

variable {scrub : Scrub} {n : Nat} {kept kept' : Set ArgReg} {mid : List Instr}

structure Returns (n : Nat) (kept : Set ArgReg) (s s' : State) : Prop where
  sp : s'.sp = s.sp
  value : ∀ r ∈ kept, r.value s' = r.value s
  mem : EqOn s'.mem s.mem (Ico (low s.sp - n) (low s.sp))ᶜ

def Below (s : State) (i : Instr) (t : State) :
    Prop := stores i t ⊆ Iio (low s.sp) ∧ t.sp.toNat % 16 = s.sp.toNat % 16

def Nested (scrub : Scrub) (env : Env) (n : Nat) (kept : Set ArgReg) (prog : List Instr) : Prop :=
  ∀ s, n ≤ low s.sp → Runs (execWith scrub env) (Below s) prog s (Returns n kept s)

theorem Nested.mono {prog : List Instr} (h : Nested scrub env n kept prog) (hkept : kept' ⊆ kept) :
    Nested scrub env n kept' prog := by
  intro s hroom
  apply (h s hroom).mono fun _ _ _ hstep => hstep
  intro s' hback
  exact ⟨hback.sp, fun r hr => hback.value r (hkept hr), hback.mem⟩

theorem nested_call : Nested scrub env 0 (scrub.spared env) [.bl .scrubRegisters] := by
  intro s _
  apply Runs.cons ⟨empty_subset _, rfl⟩
  apply Runs.nil
  exact ⟨scrub.sp _, fun r hr => hr s, fun a _ => congrFun (scrub.mem _) a⟩

inductive Bracket : Instr → List Instr → List ArgReg → Prop where
  | single (r : Fin 31) : Bracket (.strPre (.x r)) [.ldr .x (.x r) .sp 0, .addImm .sp .sp 16] [.x r]
  | pair (r₁ r₂ : Fin 31) : Bracket (.stpPre (.x r₁) (.x r₂)) [.ldpPost (.x r₁) (.x r₂)]
    [.x r₁, .x r₂]
  | vector (i : VReg) : Bracket (.strQPre i) [.ldrQPost i] [.q i]

namespace Bracket

variable {push : Instr} {pops : List Instr} {saved : List ArgReg} (b : Bracket push pops saved)
include b

theorem execWith_push (s : State) : execWith scrub env push s = exec env push s := by
  cases b <;> rfl

theorem push_sp (s : State) : (exec env push s).sp = s.sp - 16#64 := by cases b <;> rfl

theorem push_value (s : State) (r : ArgReg) : r.value (exec env push s) = r.value s := by
  cases b <;> cases r <;> rfl

theorem stores_push (s : State) :
    stores push s ⊆ Ico (low (s.sp - 16#64)) (low (s.sp - 16#64) + 16) := by
  cases b with
  | single r => exact Ico_subset_Ico le_rfl (by omega)
  | pair r₁ r₂ => exact subset_rfl
  | vector i => exact subset_rfl

theorem push_eqOn (s : State) :
    EqOn (exec env push s).mem s.mem (Ico (low (s.sp - 16#64)) (low (s.sp - 16#64) + 16))ᶜ := by
  have hcall : push.isCall = false := by cases b <;> rfl
  exact (exec_eqOn env hcall s).mono (compl_subset_compl.mpr (b.stores_push s))

theorem runs_pops (scrub : Scrub) (env : Env) (s : State) :
    Runs (execWith scrub env) (fun i t => stores i t = ∅ ∧ t.sp = s.sp) pops s fun s' =>
      s'.sp = s.sp + 16#64 ∧ s'.mem = s.mem ∧ ∀ r ∉ saved, r.value s' = r.value s := by
  cases b with
  | single r =>
    apply Runs.cons ⟨rfl, rfl⟩
    apply Runs.cons ⟨rfl, rfl⟩
    apply Runs.nil
    refine ⟨rfl, rfl, fun r' hr' => ?_⟩
    cases r' with
    | x m => simp_all [ArgReg.value, execWith, exec]
    | q i => rfl
  | pair r₁ r₂ =>
    apply Runs.cons ⟨rfl, rfl⟩
    apply Runs.nil
    refine ⟨by simp [execWith, exec], rfl, fun r' hr' => ?_⟩
    cases r' with
    | x m => simp_all [ArgReg.value, execWith, exec]
    | q i => rfl
  | vector i =>
    apply Runs.cons ⟨rfl, rfl⟩
    apply Runs.nil
    refine ⟨rfl, rfl, fun r' hr' => ?_⟩
    cases r' with
    | x m => rfl
    | q j => simp_all [ArgReg.value, execWith, exec]

variable {s t : State}

theorem value_pops (hsp : t.sp = s.sp - 16#64)
    (hmem : EqOn t.mem (exec env push s).mem (Ico (low t.sp) (low t.sp + 16))) :
    ∀ r ∈ saved, r.value (run (execWith scrub env) pops t) = r.value s := by
  cases b with
  | single r =>
    have hload : t.load64 (low t.sp) = s.regs (.x r) := by
      rw [State.load64_congr (hmem.mono (Ico_subset_Ico le_rfl (by omega))),
        State.load64_write (by rw [hsp]; rfl)]
    have hzero : t.addr .sp 0 = low t.sp := congrArg low (BitVec.add_zero _)
    rw [List.forall_mem_singleton, ArgReg.value, ArgReg.value, ← hload, State.load64, ← hzero]
    simp [run, execWith, exec, Width.bytes]
  | pair r₁ r₂ =>
    have hload₁ : t.load64 (low t.sp) = s.regs (.x r₁) := by
      have hfirst : EqOn (exec env (.stpPre (.x r₁) (.x r₂)) s).mem
        (s.mem.write (low t.sp) 8 (s.regs (.x r₁)).toNat)
          (Ico (low t.sp) (low t.sp + 8)) := by
        rw [hsp]
        intro a ha
        apply ByteMemory.write_of_notMem
        intro ha'
        exact absurd ha.2 (not_lt.mpr ha'.1)
      rw [State.load64_congr (hmem.mono (Ico_subset_Ico le_rfl (by omega))),
        State.load64_congr (s := s.store (low t.sp) 8 (s.regs (.x r₁)).toNat) hfirst,
        State.load64_write rfl]
    have hload₂ : t.load64 (low t.sp + 8) = s.regs (.x r₂) := by
      rw [State.load64_congr (hmem.mono (Ico_subset_Ico (by omega) (by omega))),
        State.load64_write (by rw [hsp]; rfl)]
    intro r hr
    rcases List.mem_pair.mp hr with rfl | rfl
    · by_cases heq : r₁ = r₂
      · simp [run, execWith, exec, ArgReg.value, heq, hload₂]
      · simp [run, execWith, exec, ArgReg.value, heq, hload₁]
    · simp [run, execWith, exec, ArgReg.value, hload₂]
  | vector i =>
    have hread : t.mem.read (low t.sp) 16 = (s.vregs i).toNat := by
      rw [ByteMemory.read_congr hmem, hsp]
      exact ByteMemory.read_write _ _ (by exact (s.vregs i).isLt)
    rw [List.forall_mem_singleton]
    simp [run, execWith, exec, ArgReg.value, hread]

theorem returns (hroom : n + 16 ≤ low s.sp) (hback : Returns n kept (exec env push s) t) :
    Returns (n + 16) (kept ∪ {r | r ∈ saved}) s (run (execWith scrub env) pops t) := by
  have hlow : low (s.sp - 16#64) = low s.sp - 16 := low_sub_sixteen (by omega)
  obtain ⟨hsp, hvalue, hmem⟩ := hback
  rw [b.push_sp] at hsp hmem
  obtain ⟨-, hsp', hmem', hothers⟩ := b.runs_pops scrub env t
  have hsaved : EqOn t.mem (exec env push s).mem (Ico (low t.sp) (low t.sp + 16)) := by
    rw [hsp]
    apply hmem.mono
    intro a ha hlt
    exact absurd hlt.2 (not_lt.mpr ha.1)
  refine ⟨?_, fun r hr => ?_, fun a ha => ?_⟩
  · rw [hsp', hsp, BitVec.sub_add_cancel]
  · by_cases hr' : r ∈ saved
    · exact b.value_pops hsp hsaved r hr'
    · rw [hothers r hr', hvalue r (hr.resolve_right hr'), b.push_value]
  · simp only [mem_compl_iff, mem_Ico] at ha
    rw [hmem', hmem (by simp only [mem_compl_iff, mem_Ico]; omega),
      b.push_eqOn s (by simp only [mem_compl_iff, mem_Ico]; omega)]

end Bracket

theorem toNat_sub_sixteen_mod (v : BitVec 64) : (v - 16#64).toNat % 16 = v.toNat % 16 := by
  rw [BitVec.toNat_sub, BitVec.toNat_ofNat]
  omega

theorem Nested.bracket {push : Instr} {pops : List Instr} {saved : List ArgReg}
    (hmid : Nested scrub env n kept mid) (b : Bracket push pops saved) :
    Nested scrub env (n + 16) (kept ∪ {r | r ∈ saved}) (push :: mid ++ pops) := by
  intro s hroom
  have hlow : low (s.sp - 16#64) = low s.sp - 16 := low_sub_sixteen (by omega)
  have hsp : (exec env push s).sp = s.sp - 16#64 := b.push_sp s
  have hpush : Below s push s := by
    refine ⟨fun a ha => ?_, rfl⟩
    have hlt := (b.stores_push s ha).2
    rw [mem_Iio]
    omega
  rw [List.cons_append]
  apply Runs.cons hpush
  rw [b.execWith_push]
  apply Runs.append ((hmid (exec env push s) (by rw [hsp, hlow]; omega)).mono (fun i t _ ht => ?_)
    fun t ht => ht)
  · intro t hback
    refine ⟨(b.runs_pops scrub env t).1.mono fun i u _ hu => ⟨?_, ?_⟩, b.returns hroom hback⟩
    · rw [hu.1]
      exact empty_subset _
    · rw [hu.2, hback.sp, hsp, toNat_sub_sixteen_mod]
  · rw [Below, hsp, hlow, toNat_sub_sixteen_mod] at ht
    exact ⟨ht.1.trans (Iio_subset_Iio (Nat.sub_le _ _)), ht.2⟩

theorem nested_vectors (scrub : Scrub) (env : Env) (qs : List VReg) :
    Nested scrub env (16 * qs.length) (scrub.spared env ∪ {r | r ∈ qs.map .q})
      (qs.map .strQPre ++ [.bl .scrubRegisters] ++ qs.reverse.map .ldrQPost) := by
  induction qs with
  | nil => simpa using nested_call
  | cons q qs ih =>
    have hq := ih.bracket (.vector q)
    simp only [List.map_cons, List.reverse_cons, List.map_append, List.map_nil, List.cons_append,
      List.append_assoc, List.length_cons,
      Nat.mul_succ] at hq ⊢
    apply hq.mono
    rintro r (hr | hr)
    · exact .inl (.inl hr)
    · rcases List.mem_cons.mp hr with rfl | hr
      · exact .inr (List.mem_singleton_self _)
      · exact .inl (.inr hr)

theorem nested_pairs (rs : List (Fin 31)) (hmid : Nested scrub env n kept mid) :
    Nested scrub env (n + pairsBytes rs) (kept ∪ {r | r ∈ rs.map .x})
      (savePairs rs ++ mid ++ restorePairs rs) := by
  induction rs using savePairs.induct with
  | case1 => simpa [savePairs, restorePairs, pairsBytes] using hmid
  | case2 r => simpa [savePairs, restorePairs, pairsBytes] using hmid.bracket (.single r)
  | case3 r₁ r₂ rs ih =>
    have hpair := ih.bracket (.pair r₁ r₂)
    simp only [savePairs, restorePairs, pairsBytes, List.cons_append, List.append_assoc,
      ← Nat.add_assoc] at hpair ⊢
    apply hpair.mono
    rintro r (hr | hr)
    · exact .inl (.inl hr)
    · rcases List.mem_cons.mp hr with rfl | hr
      · exact .inr List.mem_cons_self
      · rcases List.mem_cons.mp hr with rfl | hr
        · exact .inr (List.mem_pair.mpr (.inr rfl))
        · exact .inl (.inr hr)

def savedRegs (locs : List Location) (isIndirect : Bool) : List ArgReg :=
  (regs128bit locs).map .q ++ (regs64bit locs isIndirect).map .x

theorem nested_scrubRegs (scrub : Scrub) (env : Env) (locs : List Location) (isIndirect : Bool) :
    Nested scrub env (scrubBytes locs isIndirect)
      (scrub.spared env ∪ {r | r ∈ savedRegs locs isIndirect})
      (emitScrubRegs locs isIndirect) := by
  have hpairs := nested_pairs (regs64bit locs isIndirect)
    (nested_vectors scrub env (regs128bit locs))
  have hcode : emitScrubRegs locs isIndirect = savePairs (regs64bit locs isIndirect) ++
      ((regs128bit locs).map .strQPre ++ [.bl .scrubRegisters] ++
        (regs128bit locs).reverse.map .ldrQPost) ++
        restorePairs (regs64bit locs isIndirect) := by
    simp only [emitScrubRegs, List.append_assoc]
  rw [hcode]
  apply hpairs.mono
  rintro r (hr | hr)
  · exact .inl (.inl hr)
  · rcases List.mem_append.mp hr with hq | hx
    · exact .inl (.inr hq)
    · exact .inr hx

theorem restores_scrubRegs {locs : List Location} {isIndirect : Bool} {s : State}
    (hroom : scrubBytes locs isIndirect ≤ low s.sp) :
    Restores (scrubBytes locs isIndirect) s (run (exec env) (emitScrubRegs locs isIndirect) s) ∧
      ∀ r ∈ regs64bit locs isIndirect, (run (exec env) (emitScrubRegs locs isIndirect) s).regs
        (.x r) = s.regs (.x r) := by
  obtain ⟨-, hsp, hvalue, hmem⟩ := nested_scrubRegs .zeroing env locs isIndirect s hroom
  rw [Scrub.execWith_zeroing] at hsp hvalue hmem
  refine ⟨⟨hsp, ?_, hmem⟩, fun r hr => ?_⟩
  · funext i
    exact BitVec.eq_of_toNat_eq (hvalue (.q i) (.inl fun _ => rfl))
  · exact BitVec.eq_of_toNat_eq
      (hvalue (.x r) (.inr (List.mem_append_right _ (List.mem_map_of_mem hr))))

theorem savePairs_isCall (rs : List (Fin 31)) :
    ∀ i ∈ savePairs rs ++ restorePairs rs, i.isCall = false := by
  induction rs using savePairs.induct with
  | case1 => simp [savePairs, restorePairs]
  | case2 r => simp [savePairs, restorePairs, Instr.isCall]
  | case3 r₁ r₂ rs ih =>
    rw [List.forall_mem_append] at ih
    simp only [savePairs, restorePairs, List.forall_mem_append, List.forall_mem_cons]
    exact ⟨⟨rfl, ih.1⟩, ih.2, rfl, by simp⟩

theorem scrubRegs_isCall (locs : List Location) (isIndirect : Bool) :
    ∀ i ∈ emitScrubRegs locs isIndirect, i.isCall = false := by
  have hpairs := savePairs_isCall (regs64bit locs isIndirect)
  rw [List.forall_mem_append] at hpairs
  simp only [emitScrubRegs, List.forall_mem_append]
  exact ⟨⟨⟨⟨hpairs.1, List.forall_mem_map.mpr fun _ _ => rfl⟩, List.forall_mem_singleton.mpr rfl⟩,
    List.forall_mem_map.mpr fun _ _ => rfl⟩, hpairs.2⟩

end Ia2.Arm
