import Ia2.Rewriter.Locations
import Ia2.X86.Copy

/-!
# The phases of a call gate

One theorem for each part of the emitted code: which memory it touches, which registers it changes
and what it leaves in the others. Gates are put together from these.
-/

namespace Ia2.Gate

open X86 Rewriter StraightLine Set

variable {env : Env}

/-! ### PKRU -/

def Quiet (env : Env) (pkru pkru' : BitVec 32) (m : ByteMemory) (i : Instr) (s : State) : Prop :=
  accesses env i s = [] ∧ ¬ i.Faults s ∧ (s.pkru = pkru ∨ s.pkru = pkru') ∧ s.mem = m

theorem runs_keepingRegs {reg other : Reg}
    (hreg : reg = .rcx ∧ other = .rax ∨ reg = .rax ∧ other = .rcx) (pkru : BitVec 32) (s : State) :
    Runs (exec env) (Quiet env s.pkru pkru s.mem)
      (keepingRegs reg .rdx (writePkru pkru)) s fun s' =>
      s'.pkru = pkru ∧ s'.mem = s.mem ∧ Keeps [other, .r10, .r11] s s' := by
  rcases hreg with ⟨rfl, rfl⟩ | ⟨rfl, rfl⟩
  all_goals
    refine ⟨?_, ?_, rfl, ⟨fun r hr => ?_, rfl⟩⟩
    · simp [keepingRegs, writePkru, Along, Quiet, accesses, exec, Instr.Faults]
    · simp [keepingRegs, writePkru, run, exec]
    · simp only [List.mem_cons, List.not_mem_nil, or_false, not_or] at hr
      cases r <;> simp_all [keepingRegs, writePkru, run, exec]

theorem run_keepingRegs_rax (pkru : BitVec 32) (s : State) :
    (run (exec env) (keepingRegs .rcx .rdx (writePkru pkru)) s).regs .rax = pkru.setWidth 64 :=
  rfl

theorem runs_assertPkru (debug : Bool) (s : State) :
    Runs (exec env) (Quiet env s.pkru s.pkru s.mem) (assertPkru debug s.pkru) s fun s' =>
      s'.pkru = s.pkru ∧ s'.mem = s.mem ∧ Keeps [.rax, .r10, .r11] s s' := by
  unfold assertPkru
  cases debug with
  | false => exact Runs.nil ⟨rfl, rfl, Keeps.refl _ s⟩
  | true =>
    rw [if_pos rfl]
    refine ⟨?_, rfl, rfl, ⟨fun r hr => ?_, rfl⟩⟩
    · simp [Along, Quiet, accesses, exec, Instr.Faults]
    · simp only [List.mem_cons, List.not_mem_nil, or_false, not_or] at hr
      cases r <;> simp_all [run, exec]

/-! ### Stacks -/

/-- The bytes of the `ia2_stackptr` cell of a compartment. -/
def cell (env : Env) (pkey : Nat) : Set Nat :=
  Ico (env.fsBase + env.tpoff pkey).toNat ((env.fsBase + env.tpoff pkey).toNat + 8)

/-- The stack pointer that the cell of a compartment holds. -/
def stackptr (env : Env) (pkey : Nat) (s : State) : BitVec 64 :=
  s.load64 (env.fsBase + env.tpoff pkey).toNat

variable {s : State}

theorem stackptr_congr {pkey : Nat} {s' : State} (h : EqOn s'.mem s.mem (cell env pkey)) :
    stackptr env pkey s' = stackptr env pkey s :=
  State.load64_congr h

def LoadsCell (env : Env) (values : List (BitVec 64)) (i : Instr) (s : State) : Prop :=
  ∀ offset dst, i = .loadFs offset dst → s.load64 (s.fsAddr env offset) ∈ values

theorem emitSwitchStacks_isPlain (old new : Nat) :
    ∀ i ∈ emitSwitchStacks old new, i.isPlain = true := by
  exact List.all_eq_true.mp rfl

theorem runs_switchStacks {old new : Nat} (hdisj : Disjoint (cell env old) (cell env new)) :
    Runs (exec env) (fun i s' => Confined env (cell env new) (cell env old) i s' ∧
      LoadsCell env [stackptr env new s] i s')
      (emitSwitchStacks old new) s fun s' =>
      s'.rsp = stackptr env new s ∧ Keeps [.r11, .rsp] s s' ∧ stackptr env old s' = s.rsp := by
  let s₁ := exec env (.loadTpOff old .r11) s
  let s₂ := exec env (.storeFs .rsp .r11) s₁
  let s₃ := exec env (.loadTpOff new .r11) s₂
  let s₄ := exec env (.loadFs .r11 .rsp) s₃
  have hmem : s₃.mem = s.mem.write (env.fsBase + env.tpoff old).toNat 8 s.rsp.toNat := rfl
  have hnew : stackptr env new s₃ = stackptr env new s := by
    refine stackptr_congr fun x hx => ?_
    rw [hmem]
    exact ByteMemory.write_of_notMem fun hx' => disjoint_left.mp hdisj hx' hx
  have hsaved : stackptr env old s₂ = s.rsp := State.load64_store64 s₁ _ s.rsp
  refine Runs.cons ⟨confined_of_nil rfl, by simp [LoadsCell]⟩
    (Runs.cons ⟨?_, by simp [LoadsCell]⟩ (Runs.cons
    ⟨confined_of_nil rfl, by simp [LoadsCell]⟩
      (Runs.cons ⟨?_, ?_⟩ (Runs.nil ⟨hnew, ⟨fun r hr => ?_, rfl⟩, hsaved⟩))))
  · intro a ha
    obtain rfl := List.mem_singleton.mp ha
    exact subset_rfl
  · intro a ha
    obtain rfl := List.mem_singleton.mp ha
    exact subset_rfl
  · rintro offset dst ⟨⟩
    exact List.mem_singleton.mpr hnew
  · simp only [List.mem_cons, List.not_mem_nil, or_false, not_or] at hr
    simp [exec, hr]

theorem exec_subq_rsp {n : Nat} {s : State} (h : n ≤ s.rsp.toNat) :
    (exec env (.subq n .rsp) s).rsp.toNat = s.rsp.toNat - n ∧
      Keeps [.rsp] s (exec env (.subq n .rsp) s) :=
  ⟨toNat_sub_of_le h, ⟨fun r hr => by simp_all [exec], rfl⟩⟩

theorem exec_addq_rsp {n : Nat} {s : State} (h : s.rsp.toNat + n < 2 ^ 64) :
    (exec env (.addq n .rsp) s).rsp.toNat = s.rsp.toNat + n ∧
      Keeps [.rsp] s (exec env (.addq n .rsp) s) :=
  ⟨toNat_add_of_lt h, ⟨fun r hr => by simp_all [exec], rfl⟩⟩

theorem runs_returnSlot {n : Nat} (hroom : n + 8 ≤ s.rsp.toNat) :
    Runs (exec env) (Confined env ∅ (Ico (s.rsp.toNat - (n + 8)) s.rsp.toNat))
      [.subq n .rsp, .pushq .rdi, .movq .rsp .rdi, .addq 8 .rdi] s fun s' =>
      s'.rsp.toNat = s.rsp.toNat - (n + 8) ∧ Keeps [.rsp, .rdi] s s' ∧
        s'.regs .rdi = s.rsp - BitVec.ofNat 64 n ∧
        s'.load64 (s.rsp.toNat - (n + 8)) = s.regs .rdi := by
  let s₁ := exec env (.subq n .rsp) s
  have hrsp₁ : s₁.rsp.toNat = s.rsp.toNat - n := (exec_subq_rsp (by omega)).1
  have hrsp₂ : (s₁.push (s₁.regs .rdi)).rsp.toNat = s.rsp.toNat - (n + 8) := by
    rw [State.push_rsp (by omega)]
    omega
  have hslot : (s₁.push (s₁.regs .rdi)).load64 (s.rsp.toNat - (n + 8)) = s.regs .rdi := by
    rw [show s.rsp.toNat - (n + 8) = s₁.rsp.toNat - 8 by omega]
    exact State.push_load64 (by omega) _
  refine Runs.cons (confined_of_nil rfl)
    (Runs.cons ?_ (Runs.cons (confined_of_nil rfl) (Runs.cons (confined_of_nil rfl)
    (Runs.nil ⟨hrsp₂, ⟨fun r hr => ?_, rfl⟩, ?_, hslot⟩))))
  · exact confined_push (s := s₁) _ rfl (by omega) (Ico_subset_Ico (by omega) (by omega))
  · simp only [List.mem_cons, List.not_mem_nil, or_false, not_or] at hr
    simp [exec, hr]
  · change s.rsp - BitVec.ofNat 64 n - 8#64 + 8#64 = _
    rw [BitVec.sub_add_cancel]

theorem emitReturnSpace_isLocal (z : StackSizes) : ∀ i ∈ emitReturnSpace z, i.isLocal = true := by
  unfold emitReturnSpace
  split <;> split <;> exact List.all_eq_true.mp rfl

theorem runs_returnSpace {z : StackSizes} (halign : z.alignment = 0 ∨ z.alignment = 8) {s : State}
    (hroom : z.returnBytes + z.alignment ≤ s.rsp.toNat) :
    Runs (exec env) (Confined env ∅ (Ico (s.rsp.toNat - z.returnBytes) s.rsp.toNat))
      (emitReturnSpace z) s fun s' =>
      s'.rsp.toNat = s.rsp.toNat - (z.returnBytes + z.alignment) ∧ Keeps [.rsp, .rdi] s s' ∧
        s'.regs .rdi = (if 0 < z.returnSize
          then s.rsp - BitVec.ofNat 64 (z.returnSize + z.returnPadding) else s.regs .rdi) ∧
        (0 < z.returnSize → s'.load64 (s.rsp.toNat - z.returnBytes) = s.regs .rdi) := by
  unfold emitReturnSpace
  refine Runs.append (Q := fun s' => s'.rsp.toNat = s.rsp.toNat - z.returnBytes ∧
    Keeps [.rsp, .rdi] s s' ∧
    s'.regs .rdi = (if 0 < z.returnSize
      then s.rsp - BitVec.ofNat 64 (z.returnSize + z.returnPadding) else s.regs .rdi) ∧
    (0 < z.returnSize → s'.load64 (s.rsp.toNat - z.returnBytes) = s.regs .rdi)) ?_ ?_
  · by_cases hret : 0 < z.returnSize
    · have hbytes : z.returnBytes = z.returnSize + z.returnPadding + 8 := if_pos hret
      rw [if_pos hret, hbytes]
      refine (runs_returnSlot (by omega)).post ?_
      rintro s' ⟨hrsp, hkeep, hrdi, hslot⟩
      exact ⟨hrsp, hkeep, by rw [if_pos hret]; exact hrdi, fun _ => hslot⟩
    · have hbytes : z.returnBytes = 0 := if_neg hret
      rw [if_neg hret, hbytes]
      exact Runs.nil ⟨rfl, Keeps.refl _ s, by rw [if_neg hret], fun h => absurd h hret⟩
  · rintro s' ⟨hrsp, hkeep, hrdi, hslot⟩
    rcases halign with halign | halign
    · rw [if_neg (by simp [halign]), halign]
      exact Runs.nil ⟨hrsp, hkeep, hrdi, hslot⟩
    · rw [if_pos (by simp [halign]), halign]
      obtain ⟨hrsp', hkeep'⟩ := @exec_subq_rsp env 8 s' (by omega)
      have hregs : (exec env (.subq 8 .rsp) s').regs .rdi = s'.regs .rdi :=
        hkeep'.regs .rdi (by simp)
      refine Runs.cons (confined_of_nil rfl)
        (Runs.nil ⟨by omega, (hkeep.trans hkeep').mono (by simp), ?_, hslot⟩)
      rw [hregs, hrdi]

/-! ### Stack arguments -/

theorem emitCopyStackArgs_isPlain (z : StackSizes) (size pkey : Nat) :
    ∀ i ∈ emitCopyStackArgs z size pkey, i.isPlain = true := by
  unfold emitCopyStackArgs
  split
  · refine List.forall_mem_append.mpr ⟨?_, List.forall_mem_map.mpr fun _ _ => rfl⟩
    exact List.all_eq_true.mp rfl
  · simp

theorem run_copyStackArgs {z : StackSizes} (hz : z.argBytes = 8 * ((z.argSize + 7) / 8))
    (size pkey : Nat) {s : State} (hroom : z.argBytes ≤ s.rsp.toNat) :
    (run (exec env) (emitCopyStackArgs z size pkey) s).rsp.toNat = s.rsp.toNat - z.argBytes ∧
      Keeps [.rsp, .rax, .r12] s (run (exec env) (emitCopyStackArgs z size pkey) s) ∧
      (run (exec env) (emitCopyStackArgs z size pkey) s).pkru = s.pkru ∧
      EqOn (run (exec env) (emitCopyStackArgs z size pkey) s).mem s.mem
        (Ico (s.rsp.toNat - z.argBytes) s.rsp.toNat)ᶜ ∧
      (run (exec env) (emitCopyStackArgs z size pkey) s).regs .rax =
        if 0 < z.argSize then stackptr env pkey s else s.regs .rax := by
  unfold emitCopyStackArgs
  by_cases hargs : 0 < z.argSize
  · rw [if_pos hargs, if_pos hargs]
    let s₂ := exec env (.loadFs .r12 .rax) (exec env (.loadTpOff pkey .r12) s)
    have hkeep : Keeps [.rax, .r12] s s₂ :=
      ((keeps_set s .r12 _).trans (keeps_set _ .rax _)).mono (by decide)
    have hrsp : s₂.rsp = s.rsp := hkeep.regs .rsp (by simp)
    obtain ⟨hrsp', hkeep', hpkru, heq⟩ :=
      @run_pushqMems env ((List.range ((z.argSize + 7) / 8)).map fun k =>
      .pushqMem (z.argSize + z.argPadding + savedBytes + size - z.argSize - 8 * k) .rax)
      (List.forall_mem_map.mpr fun k _ => ⟨_, _, rfl⟩) s₂
        (by rw [hrsp, List.length_map, List.length_range]; omega)
    rw [List.length_map, List.length_range, hrsp, ← hz] at hrsp' heq
    exact ⟨hrsp', (hkeep.trans hkeep').mono (by simp), hpkru, heq, hkeep'.regs .rax (by simp)⟩
  · have hbytes : z.argBytes = 0 := by omega
    rw [if_neg hargs, if_neg hargs, hbytes]
    exact ⟨rfl, Keeps.refl _ s, rfl, eqOn_refl _ _, rfl⟩

theorem runs_copyStackArgs {z : StackSizes} (hz : z.argBytes = 8 * ((z.argSize + 7) / 8))
    {size pkey src : Nat} {s : State} (hroom : z.argBytes ≤ s.rsp.toNat)
    (hsize : z.argSize ≤ savedBytes + size)
    (hsrc : src + z.argSize = (stackptr env pkey s).toNat + savedBytes + 8 + size)
    (htop : src + z.argBytes ≤ 2 ^ 64)
    (hdisj : ∀ x ∈ Ico src (src + z.argBytes), x ∉ Ico (s.rsp.toNat - z.argBytes) s.rsp.toNat) :
    Runs (exec env) (fun i s' => Confined env (cell env pkey ∪ Ico src (src + z.argBytes))
        (Ico (s.rsp.toNat - z.argBytes) s.rsp.toNat) i s' ∧
          LoadsCell env [stackptr env pkey s] i s')
      (emitCopyStackArgs z size pkey) s fun s' =>
      s'.rsp.toNat = s.rsp.toNat - z.argBytes ∧ Keeps [.rsp, .rax, .r12] s s' ∧
        (0 < z.argSize → s'.regs .rax = stackptr env pkey s) ∧
        ∀ x < z.argBytes, s'.mem (s.rsp.toNat - z.argBytes + x) = s.mem (src + x) := by
  unfold emitCopyStackArgs
  by_cases hargs : 0 < z.argSize
  · rw [if_pos hargs]
    let s₂ := exec env (.loadFs .r12 .rax) (exec env (.loadTpOff pkey .r12) s)
    have hkeep : Keeps [.rax, .r12] s s₂ :=
      ((keeps_set s .r12 _).trans (keeps_set _ .rax _)).mono (by decide)
    have hrax : s₂.regs .rax = stackptr env pkey s := rfl
    have hrsp : s₂.rsp = s.rsp := hkeep.regs .rsp (by simp)
    have hbytes : z.argBytes = z.argSize + z.argPadding := rfl
    rw [hz] at hroom htop hdisj ⊢
    have hwords := @runs_pushWords env .rax (by simp) ((z.argSize + 7) / 8)
      (z.argSize + z.argPadding + savedBytes + size - z.argSize) src s₂
      (by rw [hrsp]; exact hroom) (by rw [hrax]; omega) (by rw [hrax]; omega) (by omega)
        (by rw [hrsp]; exact hdisj)
    rw [hrsp] at hwords
    have hquiet : ∀ i ∈ (List.range ((z.argSize + 7) / 8)).map (fun k =>
        Instr.pushqMem (z.argSize + z.argPadding + savedBytes + size - z.argSize - 8 * k) .rax),
        ∀ s', LoadsCell env [stackptr env pkey s] i s' := by
      intro i hi s' offset dst hload
      simp_all
    refine Runs.cons ⟨confined_of_nil rfl, by simp [LoadsCell]⟩ (Runs.cons ⟨?_, ?_⟩ (hwords.mono
      (fun i s' hi h => ⟨h.mono subset_union_right subset_rfl, hquiet i hi s'⟩) ?_))
    · intro a ha
      obtain rfl := List.mem_singleton.mp ha
      exact subset_union_left
    · rintro offset dst ⟨⟩
      exact List.mem_singleton_self _
    · rintro s' ⟨hrsp', hkeep', hcopy⟩
      have hrax' : s'.regs .rax = s₂.regs .rax := hkeep'.regs .rax (by simp)
      exact ⟨hrsp', (hkeep.trans hkeep').mono (by simp), fun _ => hrax'.trans hrax, hcopy⟩
  · have hbytes : z.argBytes = 0 := by omega
    rw [if_neg hargs, hbytes]
    exact Runs.nil ⟨rfl, Keeps.refl _ s, fun h => absurd h hargs, fun x hx => by omega⟩

/-! ### The way back -/

theorem emitFreeStackSpace_isLocal (n : Nat) : ∀ i ∈ emitFreeStackSpace n, i.isLocal = true := by
  unfold emitFreeStackSpace
  split
  · simp
  · exact List.forall_mem_singleton.mpr rfl

theorem runs_freeStackSpace {n : Nat} {R W : Set Nat} {s : State}
    (hroom : s.rsp.toNat + n < 2 ^ 64) :
    Runs (exec env) (Confined env R W) (emitFreeStackSpace n) s fun s' =>
      s'.rsp.toNat = s.rsp.toNat + n ∧ Keeps [.rsp] s s' := by
  unfold emitFreeStackSpace
  split
  · rename_i hn
    exact Runs.nil ⟨by omega, Keeps.refl _ s⟩
  · exact Runs.cons (confined_of_nil rfl) (Runs.nil (exec_addq_rsp hroom))

def memcpyChunks (n : Nat) : List (Width × Nat) :=
  (List.range (n / 8)).map (fun k => (.q, 8 * k)) ++
    ((if n / 8 * 8 + 4 ≤ n then [(.l, n / 8 * 8)] else []) ++
      ((if n / 4 * 4 + 2 ≤ n then [(.w, n / 4 * 4)] else []) ++ if n / 2 * 2 < n
        then [(.b, n / 2 * 2)] else []))

theorem pieces_memcpyChunks (n : Nat) : pieces (memcpyChunks n) = ByteMemory.wordPieces n := by
  simp only [pieces, memcpyChunks, ByteMemory.wordPieces, List.map_append, List.map_map,
    List.append_assoc]
  congr 1
  split <;> split <;> split <;> rfl

theorem memcpyChunks_chunks (n : Nat) : Chunks 0 n (memcpyChunks n) := by
  rw [chunks_iff_covers, pieces_memcpyChunks]
  exact ByteMemory.covers_wordPieces n

theorem emitMemcpy_eq (n : Nat) (dst src scratch : Reg) (srcOffset : Nat) :
    emitMemcpy n dst src scratch srcOffset = (memcpyChunks n).flatMap
      (copyChunk dst src scratch srcOffset) := by
  simp only [emitMemcpy, ByteMemory.rest_four, ByteMemory.rest_two, memcpyChunks,
    List.flatMap_append, List.flatMap_map, List.append_assoc]
  congr 1
  split <;> split <;> split <;> simp [copyChunk]

theorem emitCopyStackReturns_isLocal (z : StackSizes) :
    ∀ i ∈ emitCopyStackReturns z, i.isLocal = true := by
  have hcopy := @copyChunks_isLocal .rax .rsp .r10 0 (memcpyChunks z.returnSize)
  unfold emitCopyStackReturns
  split
  · rw [emitMemcpy_eq]
    intro i hi
    simp only [List.mem_append, List.mem_singleton] at hi
    rcases hi with (rfl | hi) | rfl
    · rfl
    · exact hcopy i hi
    · rfl
  · simp

theorem runs_copyStackReturns {z : StackSizes} {s : State} {b : BitVec 64}
    (hb : 0 < z.returnSize → s.load64 s.rsp.toNat = b)
    (hroom : s.rsp.toNat + z.returnBytes < 2 ^ 64) (htop : b.toNat + z.returnSize < 2 ^ 64)
    (hdisj : ∀ x ∈ Ico s.rsp.toNat (s.rsp.toNat + z.returnBytes),
    x ∉ Ico b.toNat (b.toNat + z.returnSize)) :
    Runs (exec env) (Confined env (Ico s.rsp.toNat (s.rsp.toNat + z.returnBytes))
      (Ico b.toNat (b.toNat + z.returnSize)))
      (emitCopyStackReturns z) s fun s' =>
      s'.rsp.toNat = s.rsp.toNat + z.returnBytes ∧ Keeps [.rsp, .rax, .r10] s s' ∧
        s'.regs .rax = (if 0 < z.returnSize then b else s.regs .rax) ∧
        ∀ x < z.returnSize, s'.mem (b.toNat + x) = s.mem (s.rsp.toNat + 8 + x) := by
  unfold emitCopyStackReturns
  by_cases hret : 0 < z.returnSize
  · have hbytes : z.returnBytes = z.returnSize + z.returnPadding + 8 := if_pos hret
    rw [if_pos hret, emitMemcpy_eq, List.append_assoc]
    let s₁ := exec env (.popq .rax) s
    obtain ⟨hrsp, hkeep, hrax⟩ := exec_popq env (r := .rax) (by simp) (s := s) (by omega)
    rw [hb hret] at hrax
    have hmemcpy := @runs_copyChunks env .rax .rsp .r10 (by simp) (by simp) 0 z.returnSize 0 _
      (memcpyChunks_chunks z.returnSize) s₁ b.toNat (s.rsp.toNat + 8) (congrArg BitVec.toNat hrax)
        (by rw [BitVec.add_zero, hrsp]) htop.le (by omega)
      (disjoint_left.mpr fun x hx hx' => hdisj x ⟨by have := hx.1; omega, by have := hx.2; omega⟩
        (by simpa using hx'))
    refine Runs.cons (confined_pop _ rfl (Ico_subset_Ico le_rfl (by omega)))
        ((hmemcpy.mono (fun i s' _ h =>
      h.mono (Ico_subset_Ico (by omega) (by omega)) (Ico_subset_Ico (by omega) le_rfl)) fun s' h =>
        h).append ?_)
    rintro s₂ ⟨hkeep₂, hcopy⟩
    have hrsp₂ : s₂.rsp.toNat = s.rsp.toNat + 8 :=
      (congrArg BitVec.toNat (hkeep₂.regs .rsp (by simp))).trans hrsp
    obtain ⟨hrsp₃, hkeep₃⟩ := @exec_addq_rsp env (z.returnSize + z.returnPadding) s₂ (by omega)
    have hrax₃ : (exec env (.addq (z.returnSize + z.returnPadding) .rsp) s₂).regs .rax = b := by
      rw [hkeep₃.regs .rax (by simp), hkeep₂.regs .rax (by simp), hrax]
    refine Runs.cons (confined_of_nil rfl)
      (Runs.nil ⟨by omega, ((hkeep.trans hkeep₂).trans hkeep₃).mono (by simp), ?_, ?_⟩)
    · rw [if_pos hret]
      exact hrax₃
    · exact fun x hx => hcopy x (by omega) hx
  · have hbytes : z.returnBytes = 0 := if_neg hret
    rw [if_neg hret, hbytes]
    exact Runs.nil ⟨rfl, Keeps.refl _ s, by rw [if_neg hret], fun x hx => by omega⟩

end Ia2.Gate
