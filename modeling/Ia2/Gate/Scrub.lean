import Ia2.Gate.Phases

/-!
# Scrubbing

`emit_scrub_regs` saves the registers that carry arguments or results on the stack, calls the
function that zeroes all others, and takes the saved ones back. The proof follows the nesting: the
innermost code is the call, and each saved register wraps a push and a pop around it.
-/

namespace Ia2.Rewriter

open X86

def ArgReg.bytes : ArgReg → Nat
  | .gpr _ => 8
  | .xmm _ => 16

def ArgReg.value (s : State) : ArgReg → Nat
  | .gpr r => (s.regs r).toNat
  | .xmm i => (s.xmm i).toNat

end Ia2.Rewriter

namespace Ia2.Gate

open X86 Rewriter StraightLine Set

variable {env : Env}
variable {r : ArgReg} {s : State}

theorem keeps_value {changed : List Reg} {s' : State} (h : Keeps changed s s')
    (hr : ∀ r' ∈ changed, r ≠ .gpr r') : r.value s' = r.value s := by
  cases r with
  | gpr r => exact congrArg BitVec.toNat (h.regs r fun hmem => hr r hmem rfl)
  | xmm i => exact congrArg BitVec.toNat (congrFun h.xmm i)

def pushReg : ArgReg → List Instr
  | .gpr r => [.pushq r]
  | .xmm i => [.subq 16 .rsp, .movdquStore i]

def popReg : ArgReg → List Instr
  | .gpr r => [.popq r]
  | .xmm i => [.movdquLoad i, .addq 16 .rsp]

theorem emitRegPush_eq (locs : List ArgLocation) :
    locs.flatMap emitRegPush = (locs.filterMap ArgLocation.reg).flatMap pushReg := by
  induction locs with
  | nil => rfl
  | cons loc locs ih =>
    rw [List.flatMap_cons, ih, List.filterMap_cons, emitRegPush]
    rcases loc.reg with _ | _ | _ <;> rfl

theorem emitRegPop_eq (locs : List ArgLocation) :
    locs.flatMap emitRegPop = (locs.filterMap ArgLocation.reg).flatMap popReg := by
  induction locs with
  | nil => rfl
  | cons loc locs ih =>
    rw [List.flatMap_cons, ih, List.filterMap_cons, emitRegPop]
    rcases loc.reg with _ | _ | _ <;> rfl

theorem runs_pushReg (r : ArgReg) (hroom : r.bytes ≤ s.rsp.toNat) :
    Runs (exec env) (Confined env ∅ (Ico (s.rsp.toNat - r.bytes) s.rsp.toNat))
      (pushReg r) s fun s' =>
      s'.rsp.toNat = s.rsp.toNat - r.bytes ∧ Keeps [.rsp] s s' ∧
        s'.mem.read (s.rsp.toNat - r.bytes) (r.bytes) = r.value s := by
  cases r with
  | gpr r =>
    have hrsp : (s.rsp - 8#64).toNat = s.rsp.toNat - 8 := toNat_sub_of_le hroom
    refine Runs.cons (confined_push _ rfl hroom subset_rfl)
      (Runs.nil ⟨hrsp, ⟨fun r hr => by simp_all [exec], rfl⟩, ?_⟩)
    change (s.mem.write (s.rsp - 8#64).toNat 8 (s.regs r).toNat).read (s.rsp.toNat - 8) 8 = _
    rw [hrsp]
    exact ByteMemory.read_write _ _ (s.regs r).isLt
  | xmm i =>
    have hrsp : (s.rsp - BitVec.ofNat 64 16).toNat = s.rsp.toNat - 16 := toNat_sub_of_le hroom
    refine Runs.cons (confined_of_nil rfl)
      (Runs.cons ?_ (Runs.nil ⟨hrsp, ⟨fun r hr => by simp_all [exec], rfl⟩, ?_⟩))
    · intro a ha
      obtain rfl := List.mem_singleton.mp ha
      change Ico (s.rsp - BitVec.ofNat 64 16).toNat ((s.rsp - BitVec.ofNat 64 16).toNat + 16) ⊆
        Ico (s.rsp.toNat - 16) s.rsp.toNat
      rw [hrsp]
      exact Ico_subset_Ico le_rfl (by have : 16 ≤ s.rsp.toNat := hroom; omega)
    · change (s.mem.write (s.rsp - BitVec.ofNat 64 16).toNat 16 (s.xmm i).toNat).read
        (s.rsp.toNat - 16) 16 = _
      rw [hrsp]
      exact ByteMemory.read_write _ _ (s.xmm i).isLt

theorem runs_popReg (hr : r ≠ .gpr .rsp) (hroom : s.rsp.toNat + r.bytes < 2 ^ 64) :
    Runs (exec env) (Confined env (Ico s.rsp.toNat (s.rsp.toNat + r.bytes)) ∅)
      (popReg r) s fun s' =>
      s'.rsp.toNat = s.rsp.toNat + r.bytes ∧
        r.value s' = s.mem.read s.rsp.toNat (r.bytes) ∧
        ∀ r', r' ≠ .gpr .rsp → r' ≠ r → r'.value s' = r'.value s := by
  cases r with
  | gpr r =>
    obtain ⟨hrsp, hkeep, hvalue⟩ := exec_popq env (r := r) (by simpa using hr) hroom
    refine Runs.cons (confined_pop _ rfl subset_rfl) (Runs.nil ⟨hrsp, ?_, fun r' hr' hne => ?_⟩)
    · change (exec env (.popq r) s).regs r = _ at hvalue
      change ((exec env (.popq r) s).regs r).toNat = _
      rw [hvalue]
      exact Nat.mod_eq_of_lt (ByteMemory.read_lt _ _ 8)
    · cases r' with
      | gpr r' => exact congrArg BitVec.toNat (hkeep.regs r' (by simp_all))
      | xmm i => exact congrArg BitVec.toNat (congrFun hkeep.xmm i)
  | xmm i =>
    have hrsp : (s.rsp + BitVec.ofNat 64 16).toNat = s.rsp.toNat + 16 := toNat_add_of_lt hroom
    refine Runs.cons ?_ (Runs.cons (confined_of_nil rfl)
      (Runs.nil ⟨hrsp, ?_, fun r' hr' hne => ?_⟩))
    · intro a ha
      obtain rfl := List.mem_singleton.mp ha
      exact subset_rfl
    · change (if i = i then BitVec.ofNat 128 (s.mem.read s.rsp.toNat 16) else s.xmm i).toNat = _
      rw [if_pos rfl]
      exact Nat.mod_eq_of_lt (ByteMemory.read_lt _ _ 16)
    · cases r' with
      | gpr r' => simp_all [exec, ArgReg.value]
      | xmm j => simp_all [exec, ArgReg.value]

def savedSize (rs : List ArgReg) : Nat := (rs.map ArgReg.bytes).sum

def scrubbed (rs : List ArgReg) (s : State) (r : ArgReg) : Nat :=
  if r ∈ rs ∨ r = .gpr .rbp then r.value s else 0

theorem runs_scrubCall (hroom : 8 ≤ s.rsp.toNat) :
    Runs (exec env) (Confined env ∅ (Ico (s.rsp.toNat - 8) s.rsp.toNat))
      [.call .scrubRegisters] s fun s' =>
      s'.rsp.toNat = s.rsp.toNat ∧ ∀ r, r ≠ .gpr .rsp → r.value s' = scrubbed [] s r := by
  refine Runs.cons (confined_push _ rfl hroom subset_rfl) (Runs.nil ⟨?_, fun r hr => ?_⟩)
  · change (s.rsp - 8#64 + 8#64).toNat = _
    rw [BitVec.sub_add_cancel]
  · cases r with
    | gpr r =>
      have hr' : r ≠ .rsp := by simpa using hr
      by_cases hrbp : r = .rbp <;>
        simp [exec, Env.call, scrubRegisters, ArgReg.value, scrubbed, hr', hrbp]
    | xmm i => simp [exec, Env.call, scrubRegisters, ArgReg.value, scrubbed]

def saving (rs : List ArgReg) (body : List Instr) : List Instr :=
  rs.flatMap pushReg ++ body ++ rs.reverse.flatMap popReg

theorem saving_cons (r : ArgReg) (rs : List ArgReg) (body : List Instr) :
    saving (r :: rs) body = pushReg r ++ (saving rs body ++ popReg r) := by
  simp [saving]

theorem saving_isLocal (rs : List ArgReg) :
    ∀ i ∈ saving rs [.call .scrubRegisters], i.isLocal = true := by
  have hpush : ∀ r, ∀ i ∈ pushReg r, i.isLocal = true := by
    rintro (r | r)
    · exact List.all_eq_true.mp rfl
    · exact List.all_eq_true.mp rfl
  have hpop : ∀ r, ∀ i ∈ popReg r, i.isLocal = true := by
    rintro (r | r)
    · exact List.all_eq_true.mp rfl
    · exact List.all_eq_true.mp rfl
  intro i hi
  simp only [saving, List.mem_append, List.mem_flatMap, List.mem_singleton] at hi
  rcases hi with (⟨r, -, hi⟩ | rfl) | ⟨r, -, hi⟩
  · exact hpush r i hi
  · rfl
  · exact hpop r i hi

theorem runs_saving {rs : List ArgReg} (hrs : .gpr .rsp ∉ rs)
    (hroom : savedSize rs + 8 ≤ s.rsp.toNat) :
    Runs (exec env) (Confined env (Ico (s.rsp.toNat - (savedSize rs + 8)) s.rsp.toNat)
      (Ico (s.rsp.toNat - (savedSize rs + 8)) s.rsp.toNat))
        (saving rs [.call .scrubRegisters]) s fun s' =>
      s'.rsp.toNat = s.rsp.toNat ∧ ∀ r, r ≠ .gpr .rsp → r.value s' = scrubbed rs s r := by
  induction rs generalizing s with
  | nil =>
    refine (runs_scrubCall hroom).mono (fun i s' _ h => h.mono (empty_subset _) ?_) fun s' h => h
    exact Ico_subset_Ico (by simp [savedSize]) le_rfl
  | cons r rs ih =>
    have hsize : savedSize (r :: rs) = r.bytes + savedSize rs := rfl
    have htop : s.rsp.toNat < 2 ^ 64 := s.rsp.isLt
    rw [List.mem_cons, not_or] at hrs
    rw [hsize] at hroom ⊢
    rw [saving_cons]
    refine ((runs_pushReg r (by omega)).mono
      (fun i s' _ h => h.mono (empty_subset _) (Ico_subset_Ico (by omega) le_rfl)) fun s' h =>
        h).append ?_
    rintro s₁ ⟨hrsp₁, hkeep, hsaved⟩
    have hinner := Confined.runs (ih hrs.2 (by omega : savedSize rs + 8 ≤ s₁.rsp.toNat)) fun i hi =>
      Instr.isPlain_of_isLocal (saving_isLocal rs i hi)
    rw [hrsp₁] at hinner
    refine (hinner.mono (fun i s' _ h => h.mono (Ico_subset_Ico (by omega) (by omega))
      (Ico_subset_Ico (by omega) (by omega))) fun s' h => h).append ?_
    rintro s₂ ⟨⟨hrsp₂, hscrubbed⟩, -, heq⟩
    have hbytes : s₂.mem.read s₂.rsp.toNat r.bytes = r.value s := by
      rw [hrsp₂, ← hsaved]
      refine ByteMemory.read_congr (heq.mono fun x hx => ?_)
      simp only [mem_Ico, mem_compl_iff] at hx ⊢
      omega
    refine (runs_popReg (Ne.symm hrs.1) (by omega)).mono
      (fun i s' _ h => h.mono (Ico_subset_Ico (by omega) (by omega)) (empty_subset _)) ?_
    rintro s₃ ⟨hrsp₃, hvalue, hothers⟩
    refine ⟨by omega, fun r' hr' => ?_⟩
    by_cases hsame : r' = r
    · subst hsame
      rw [hvalue, hbytes, scrubbed, if_pos (by simp)]
    · rw [hothers r' hr' hsame, hscrubbed r' hr']
      have hpushed : r'.value s₁ = r'.value s := keeps_value hkeep (by simpa using hr')
      simp only [scrubbed, List.mem_cons, hsame, false_or, hpushed]

def savedRegs (locs : List ArgLocation) (isIndirect : Bool) : List ArgReg :=
  (savedLocs locs).filterMap ArgLocation.reg ++ if isIndirect then [.gpr .r12] else []

theorem emitScrubRegs_eq {pkey : Nat} (hpkey : pkey ≠ 0) (locs : List ArgLocation)
    (isIndirect : Bool) :
    emitScrubRegs pkey locs isIndirect = saving (savedRegs locs isIndirect)
      [.call .scrubRegisters] := by
  rw [emitScrubRegs, if_pos hpkey, emitRegPush_eq, emitRegPop_eq, List.filterMap_reverse]
  cases isIndirect <;> simp [saving, savedRegs, pushReg, popReg]

theorem runs_scrubRegs {pkey : Nat} {locs : List ArgLocation} {isIndirect : Bool}
    (hrs : .gpr .rsp ∉ savedRegs locs isIndirect) {s : State}
    (hroom : savedSize (savedRegs locs isIndirect) + 8 ≤ s.rsp.toNat) :
    Runs (exec env)
      (Confined env (Ico (s.rsp.toNat - (savedSize (savedRegs locs isIndirect) + 8)) s.rsp.toNat)
      (Ico (s.rsp.toNat - (savedSize (savedRegs locs isIndirect) + 8)) s.rsp.toNat))
      (emitScrubRegs pkey locs isIndirect) s fun s' => s'.rsp.toNat = s.rsp.toNat ∧
        ∀ r, r ≠ .gpr .rsp → r.value s' = if pkey = 0 then r.value s
          else scrubbed (savedRegs locs isIndirect) s r := by
  by_cases hpkey : pkey = 0
  · rw [emitScrubRegs, if_neg (not_not.mpr hpkey)]
    exact Runs.nil ⟨rfl, fun r _ => by rw [if_pos hpkey]⟩
  · rw [emitScrubRegs_eq hpkey]
    simp only [if_neg hpkey]
    exact runs_saving hrs hroom

theorem emitScrubRegs_isLocal (pkey : Nat) (locs : List ArgLocation) (isIndirect : Bool) :
    ∀ i ∈ emitScrubRegs pkey locs isIndirect, i.isLocal = true := by
  by_cases hpkey : pkey = 0
  · simp [emitScrubRegs, hpkey]
  · rw [emitScrubRegs_eq hpkey]
    exact saving_isLocal _

end Ia2.Gate
