import Ia2.Arm.Gate
import Ia2.Library.Pieces

/-!
# What the code of an AArch64 gate writes

The registers that an instruction sets and the bytes that it stores, and from them the same for the
pieces that gates are made of. Where a piece writes depends on its registers only, so it is the same
whatever is in memory.
-/

namespace Ia2.Arm

open StraightLine Set

variable {env : Env}

/-! ### Registers -/

def Instr.sets (r : Reg) : Instr → Bool
  | .mov dst _ | .add dst _ _ | .addImm dst _ _ | .subImm dst _ _ | .orrTag dst _ _ | .movz dst _ |
    .ldr _ dst _ _ | .mrsTpidr dst
  | .adrpGot dst _ | .ldrGot dst _ _ => decide (r = dst)
  | .stpPre _ _ | .strPre _ | .strQPre _ | .ldrQPost _ => decide (r = .sp)
  | .ldpPost r₁ r₂ => decide (r = r₁ ∨ r = r₂ ∨ r = .sp)
  | .bl _ | .blr _ => true
  | .str _ _ _ _ | .ldrQ _ _ _ | .ret => false

def Instr.setsQ : Instr → Bool
  | .ldrQ _ _ _ | .ldrQPost _ | .blr _ => true
  | .bl callee => decide (callee ≠ .scrubRegisters)
  | _ => false

variable {i : Instr} {r : Reg} {prog : List Instr}

theorem exec_regs (h : i.sets r = false) (s : State) :
    (exec env i s).regs r = s.regs r := by
  cases i
  case ldpPost r₁ r₂ =>
    simp only [Instr.sets, decide_eq_false_iff_not, not_or] at h
    simp [exec, h]
  case bl => cases h
  case blr => cases h
  all_goals
    first
    | rfl
    | simp only [Instr.sets, decide_eq_false_iff_not] at h
      simp [exec, h]

theorem exec_vregs (h : i.setsQ = false) (s : State) :
    (exec env i s).vregs = s.vregs := by
  cases i
  case bl callee =>
    obtain rfl : callee = .scrubRegisters := by simpa [Instr.setsQ] using h
    rfl
  case ldrQ => cases h
  case ldrQPost => cases h
  case blr => cases h
  all_goals rfl

theorem run_regs (h : ∀ i ∈ prog, i.sets r = false) (s : State) :
    (run (exec env) prog s).regs r = s.regs r := by
  induction prog generalizing s with
  | nil => rfl
  | cons i prog ih =>
    rw [List.forall_mem_cons] at h
    rw [run, ih h.2, exec_regs h.1]

theorem run_vregs (h : ∀ i ∈ prog, i.setsQ = false) (s : State) :
    (run (exec env) prog s).vregs = s.vregs := by
  induction prog generalizing s with
  | nil => rfl
  | cons i prog ih =>
    rw [List.forall_mem_cons] at h
    rw [run, ih h.2, exec_vregs h.1]

/-! ### Memory -/

/-- The bytes that a program writes, those of its calls apart. -/
def written (env : Env) : List Instr → State → Set Nat
  | [], _ => ∅
  | i :: prog, s => stores i s ∪ written env prog (exec env i s)

theorem written_append (prog prog' : List Instr) (s : State) :
    written env (prog ++ prog') s = written env prog s ∪
      written env prog' (run (exec env) prog s) := by
  induction prog generalizing s with
  | nil => exact (empty_union _).symm
  | cons i prog ih => rw [List.cons_append, written, ih, written, run, union_assoc]

theorem run_eqOn {prog : List Instr} (h : ∀ i ∈ prog, i.isCall = false) (s : State) :
    EqOn (run (exec env) prog s).mem s.mem (written env prog s)ᶜ := by
  induction prog generalizing s with
  | nil => exact eqOn_refl _ _
  | cons i prog ih =>
    rw [List.forall_mem_cons] at h
    rw [written, compl_union]
    exact fun a ha => (ih h.2 _ ha.2).trans (exec_eqOn env h.1 s ha.1)

theorem written_eq_empty (h : ∀ i ∈ prog, ∀ s, stores i s = ∅) (s : State) :
    written env prog s = ∅ := by
  induction prog generalizing s with
  | nil => rfl
  | cons i prog ih =>
    rw [List.forall_mem_cons] at h
    rw [written, h.1, ih h.2, empty_union]

theorem switchStacks_isCall (oldPkey newPkey : Nat) :
    ∀ i ∈ emitSwitchStacks oldPkey newPkey, i.isCall = false := by
  have hcell : ∀ pkey, ∀ i ∈ emitCellAddr pkey, i.isCall = false := by
    intro pkey
    unfold emitCellAddr
    split <;> simp [Instr.isCall]
  simp only [emitSwitchStacks, List.forall_mem_append, List.forall_mem_cons]
  exact ⟨⟨⟨⟨⟨rfl, by simp⟩, hcell _⟩, rfl, rfl, by simp⟩, hcell _⟩, rfl, rfl, by simp⟩

/-! ### Copies -/

section Memcpy

variable {dst src : Reg} {k : Fin 31} {srcOffset : Nat}

theorem Width.bytes_pos (width : Width) : 0 < width.bytes := by
  cases width <;> decide

variable {s : State} {n : Nat}

theorem addr_eq {base : Reg} {offset : Nat} (h : low (s.regs base) + offset < 2 ^ 56) :
    s.addr base offset = low (s.regs base) + offset :=
  low_add h

theorem exec_piece (hdst : dst ≠ .x k) (width : Width) (i j : Nat) (s : State) :
    (exec env (.str width (.x k) dst i) (exec env (.ldr width (.x k) src j) s)).mem =
      s.mem.write (s.addr dst i) width.bytes (s.mem.read (s.addr src j) width.bytes) := by
  have hvalue : (BitVec.ofNat 64 (s.mem.read (s.addr src j) width.bytes)).toNat =
      s.mem.read (s.addr src j) width.bytes := by
    have hlt := s.mem.read_lt (s.addr src j) width.bytes
    rw [BitVec.toNat_ofNat, Nat.mod_eq_of_lt]
    cases width <;> simp only [Width.bytes] at hlt ⊢ <;> omega
  have haddr : (exec env (.ldr width (.x k) src j) s).addr dst i = s.addr dst i := by
    simp [exec, State.addr, hdst]
  have hloaded : (exec env (.ldr width (.x k) src j) s).regs (.x k) =
    BitVec.ofNat 64 (s.mem.read (s.addr src j) width.bytes) := if_pos rfl
  rw [← hvalue, ← hloaded, ← haddr]
  rfl

theorem memcpyChunks_pieces (n : Nat) :
    (memcpyChunks n).map (fun p => (p.1.bytes, p.2)) = ByteMemory.wordPieces n := by
  simp only [memcpyChunks, ByteMemory.wordPieces, ByteMemory.rest_four, ByteMemory.rest_two,
    List.map_append, List.map_map]
  congr 1
  · congr 1
    · congr 1
      split <;> rfl
    · split <;> rfl
  · split <;> rfl

theorem mem_emitMemcpy (h : i ∈ emitMemcpy n dst src (.x k) srcOffset) :
    ∃ width j, i = .ldr width (.x k) src (j + srcOffset) ∨ i = .str width (.x k) dst j := by
  obtain ⟨⟨width, j⟩, -, hi⟩ := List.mem_flatMap.mp h
  simp only [List.mem_cons, List.not_mem_nil, or_false] at hi
  exact ⟨width, j, hi⟩

theorem memcpy_sets (hr : r ≠ .x k) (n : Nat) :
    ∀ i ∈ emitMemcpy n dst src (.x k) srcOffset, i.sets r = false := by
  intro i hi
  obtain ⟨width, j, rfl | rfl⟩ := mem_emitMemcpy hi
  · exact decide_eq_false hr
  · rfl

theorem memcpy_plain (n : Nat) :
    ∀ i ∈ emitMemcpy n dst src (.x k) srcOffset, i.setsQ = false ∧ i.isCall = false := by
  intro i hi
  obtain ⟨width, j, rfl | rfl⟩ := mem_emitMemcpy hi <;> exact ⟨rfl, rfl⟩

/-- A load and a store of `emit_memcpy`. -/
def copyChunk (dst src scratch : Reg) (srcOffset : Nat) (chunk : Width × Nat) : List Instr :=
  [.ldr chunk.1 scratch src (chunk.2 + srcOffset), .str chunk.1 scratch dst chunk.2]

theorem run_copyChunk_regs (chunk : Width × Nat) (s : State) :
    ∀ r ≠ Reg.x k, (run (exec env) (copyChunk dst src (.x k) srcOffset chunk) s).regs r =
      s.regs r := by
  intro r hr
  simp [copyChunk, run, exec, hr]

theorem written_chunks (hdst : dst ≠ .x k) {chunks : List (Width × Nat)} {a b : Nat}
    (hcovers : ByteMemory.Covers a b (chunks.map fun p => (p.1.bytes, p.2)))
    (htop : low (s.regs dst) + b ≤ 2 ^ 56) :
    written env (chunks.flatMap (copyChunk dst src (.x k) srcOffset)) s =
      Ico (low (s.regs dst) + a) (low (s.regs dst) + b) := by
  induction chunks generalizing a s with
  | nil =>
    cases hcovers
    exact (Ico_self _).symm
  | cons chunk chunks ih =>
    obtain ⟨width, i⟩ := chunk
    rw [List.map_cons] at hcovers
    cases hcovers with
    | cons hrest =>
      have hle := hrest.le
      have hpos := width.bytes_pos
      dsimp only at hrest hle
      have hsame := @run_copyChunk_regs env dst src k srcOffset (width, i) s dst hdst
      have hbase : (exec env (.ldr width (.x k) src (i + srcOffset)) s).regs dst = s.regs dst :=
        exec_regs (by simpa [Instr.sets] using hdst) s
      rw [List.flatMap_cons, written_append, ih hrest (by rw [hsame]; exact htop), hsame, copyChunk,
        written, written, written]
      simp only [stores, empty_union, union_empty]
      rw [addr_eq (by rw [hbase]; omega), hbase, Nat.add_assoc]
      exact Ico_union_Ico_eq_Ico (by omega) (by omega)

theorem runs_chunks (env : Env) (hdst : dst ≠ .x k) (hsrc : src ≠ .x k)
    {chunks : List (Width × Nat)} {a b c : Nat} {s : State}
    (hcovers : ByteMemory.Covers a b (chunks.map fun p => (p.1.bytes, p.2)))
    (hc : low (s.regs src + BitVec.ofNat 64 srcOffset) = c) (htop : low (s.regs dst) + b ≤ 2 ^ 56)
    (htop' : c + b ≤ 2 ^ 56) :
    Runs (exec env) (Confined (Ico (c + a) (c + b))
      (Ico (low (s.regs dst) + a) (low (s.regs dst) + b)))
      (chunks.flatMap (copyChunk dst src (.x k) srcOffset)) s fun s' =>
      s'.mem = ByteMemory.copyPieces (low (s.regs dst)) c
        (chunks.map fun p => (p.1.bytes, p.2)) s.mem := by
  induction chunks generalizing a s with
  | nil => exact Runs.nil rfl
  | cons chunk chunks ih =>
    obtain ⟨width, i⟩ := chunk
    rw [List.map_cons] at hcovers
    cases hcovers with
    | cons hrest =>
      have hle := hrest.le
      have hpos := width.bytes_pos
      dsimp only at hrest hle
      let s₁ := exec env (.ldr width (.x k) src (i + srcOffset)) s
      have hbase : s₁.regs dst = s.regs dst := exec_regs (by simpa [Instr.sets] using hdst) s
      have hsrcaddr : s.addr src (i + srcOffset) = c + i := by
        rw [State.addr, Nat.add_comm, BitVec.ofNat_add, ← BitVec.add_assoc, low_add (by omega), hc]
      have hdstaddr : s.addr dst i = low (s.regs dst) + i := addr_eq (by omega)
      have hdstaddr' : s₁.addr dst i = low (s.regs dst) + i := by
        rw [addr_eq (by rw [hbase]; omega), hbase]
      have hsame := @run_copyChunk_regs env dst src k srcOffset (width, i) s
      have hnext := @ih _ (run (exec env) (copyChunk dst src (.x k) srcOffset (width, i)) s) hrest
        (by rw [hsame src hsrc]; exact hc) (by rw [hsame dst hdst]; exact htop)
      rw [hsame dst hdst] at hnext
      rw [List.flatMap_cons, copyChunk, List.cons_append, List.cons_append, List.nil_append]
      dsimp only
      apply Runs.cons
      · refine ⟨?_, empty_subset _⟩
        rw [loads, hsrcaddr]
        exact Ico_subset_Ico le_rfl (by omega)
      apply Runs.cons
      · refine ⟨empty_subset _, ?_⟩
        change Ico (s₁.addr dst i) (s₁.addr dst i + width.bytes) ⊆ _
        rw [hdstaddr']
        exact Ico_subset_Ico le_rfl (by omega)
      apply hnext.mono
      · intro j t _ ht
        exact ⟨ht.1.trans (Ico_subset_Ico (by omega) le_rfl),
          ht.2.trans (Ico_subset_Ico (by omega) le_rfl)⟩
      · intro s' hs'
        rw [hs', List.map_cons, ByteMemory.copyPieces, ← hsrcaddr, ← hdstaddr]
        exact congrArg (ByteMemory.copyPieces _ _ _) (exec_piece hdst width i (i + srcOffset) s)

theorem covers_memcpyChunks (n : Nat) :
    ByteMemory.Covers 0 n ((memcpyChunks n).map fun p => (p.1.bytes, p.2)) := by
  rw [memcpyChunks_pieces]
  exact ByteMemory.covers_wordPieces n

theorem written_memcpy (hdst : dst ≠ .x k) (htop : low (s.regs dst) + n ≤ 2 ^ 56) :
    written env (emitMemcpy n dst src (.x k) srcOffset) s =
      Ico (low (s.regs dst)) (low (s.regs dst) + n) :=
  written_chunks hdst (covers_memcpyChunks n) htop

theorem mem_written_memcpy (hdst : dst ≠ .x k) {n : Nat} (hn : 0 < n) (s : State) :
    low (s.regs dst) ∈ written env (emitMemcpy n dst src (.x k) srcOffset) s := by
  have hcovers := covers_memcpyChunks n
  unfold emitMemcpy
  generalize memcpyChunks n = chunks at hcovers ⊢
  cases chunks with
  | nil =>
    cases hcovers
    omega
  | cons chunk chunks =>
    obtain ⟨width, i⟩ := chunk
    cases hcovers with
    | cons =>
      have hbase : (exec env (.ldr width (.x k) src (0 + srcOffset)) s).regs dst = s.regs dst :=
        exec_regs (by simpa [Instr.sets] using hdst) s
      have haddr : (exec env (.ldr width (.x k) src (0 + srcOffset)) s).addr dst 0 =
          low (s.regs dst) := by
        rw [State.addr, hbase]
        exact congrArg low (BitVec.add_zero _)
      have hpos := width.bytes_pos
      refine .inr (.inl ?_)
      change low (s.regs dst) ∈ Ico _ _
      rw [haddr]
      exact ⟨le_rfl, by omega⟩

theorem run_copyChunk_mem (hdst : dst ≠ .x k) (width : Width) (i : Nat) (s : State) :
    (run (exec env) (copyChunk dst src (.x k) srcOffset (width, i)) s).mem =
      s.mem.write (s.addr dst i) width.bytes
        (s.mem.read (s.addr src (i + srcOffset)) width.bytes) :=
  exec_piece hdst width i (i + srcOffset) s

theorem run_copyChunks_apply (hdst : dst ≠ .x k) {chunks : List (Width × Nat)} {a b : Nat}
    (hcovers : ByteMemory.Covers a b (chunks.map fun p => (p.1.bytes, p.2))) (ha : 0 < a)
    (hb : b ≤ 2 ^ 56) (s : State) :
    (run (exec env) (chunks.flatMap (copyChunk dst src (.x k) srcOffset)) s).mem
      (low (s.regs dst)) =
      s.mem (low (s.regs dst)) := by
  induction chunks generalizing a s with
  | nil => rfl
  | cons chunk chunks ih =>
    obtain ⟨width, i⟩ := chunk
    rw [List.map_cons] at hcovers
    cases hcovers with
    | cons hrest =>
      have hle := hrest.le
      dsimp only at hrest hle
      have hsame := @run_copyChunk_regs env dst src k srcOffset (width, i) s dst hdst
      have hnext :=
        ih hrest (by omega) (run (exec env) (copyChunk dst src (.x k) srcOffset (width, i)) s)
      rw [hsame] at hnext
      rw [List.flatMap_cons, run_append, hnext, run_copyChunk_mem hdst]
      refine ByteMemory.write_eqOn _ _ _ _ fun hmem => ?_
      -- the address is behind the first byte, or has wrapped around and ends before it
      have hlo := hmem.1
      have hhi := hmem.2
      simp only [State.addr, low, BitVec.toNat_add, BitVec.toNat_ofNat] at hlo hhi
      omega

theorem memcpy_first (hdst : dst ≠ .x k) {n : Nat} (hn : 0 < n) (hmax : n ≤ 2 ^ 56) (s : State) :
    (run (exec env) (emitMemcpy n dst src (.x k) srcOffset) s).mem (low (s.regs dst)) =
      s.mem (low (s.regs src + BitVec.ofNat 64 srcOffset)) := by
  have hcovers := covers_memcpyChunks n
  change (run (exec env) ((memcpyChunks n).flatMap (copyChunk dst src (.x k) srcOffset)) s).mem _ =
    _
  generalize memcpyChunks n = chunks at hcovers ⊢
  cases chunks with
  | nil =>
    cases hcovers
    omega
  | cons chunk chunks =>
    obtain ⟨width, i⟩ := chunk
    cases hcovers with
    | cons hrest =>
      have hpos := width.bytes_pos
      dsimp only at hrest
      have hsame := @run_copyChunk_regs env dst src k srcOffset (width, 0) s dst hdst
      have hnext := @run_copyChunks_apply env dst src k srcOffset hdst _ _ _ hrest (by omega) hmax
        (run (exec env) (copyChunk dst src (.x k) srcOffset (width, 0)) s)
      have hzero : s.addr dst 0 = low (s.regs dst) := congrArg low (BitVec.add_zero _)
      rw [hsame] at hnext
      rw [List.flatMap_cons, run_append, hnext, run_copyChunk_mem hdst, hzero, Nat.zero_add]
      exact ByteMemory.write_read_apply s.mem s.mem (low (s.regs dst)) _ hpos

theorem memcpy_apply (hdst : dst ≠ .x k) (hsrc : src ≠ .x k) {n : Nat} {s : State}
    (htop : low (s.regs dst) + n ≤ 2 ^ 56) (htop' : low (s.regs src) + srcOffset + n ≤ 2 ^ 56)
    (hdisj : Disjoint (Ico (low (s.regs src) + srcOffset) (low (s.regs src) + srcOffset + n))
    (Ico (low (s.regs dst)) (low (s.regs dst) + n))) {x : Nat} (hx : x < n) :
    (run (exec env) (emitMemcpy n dst src (.x k) srcOffset) s).mem (low (s.regs dst) + x) =
      s.mem (low (s.regs src) + srcOffset + x) := by
  have hmem := (runs_chunks env hdst hsrc (covers_memcpyChunks n) (low_add (by omega)) htop htop').2
  change (run (exec env) ((memcpyChunks n).flatMap (copyChunk dst src (.x k) srcOffset)) s).mem
    (low (s.regs dst) + x) = _
  rw [hmem]
  exact (covers_memcpyChunks n).copyPieces_apply hdisj (Nat.zero_le x) hx

end Memcpy

/-! ### The prologue -/

theorem written_saves {rs : List (Fin 31 × Nat)} {n : Nat} (hrs : ∀ p ∈ rs, p.2 < n) {s : State}
    (htop : low s.sp + n * 8 ≤ 2 ^ 56) :
    written env (rs.map fun (r, i) => .str .x (.x r) .sp (i * 8)) s ⊆
      Ico (low s.sp) (low s.sp + n * 8) := by
  induction rs generalizing s with
  | nil => exact empty_subset _
  | cons p rs ih =>
    rw [List.forall_mem_cons] at hrs
    have hlt := hrs.1
    rw [List.map_cons, written]
    refine union_subset ?_ (ih hrs.2 (s := exec env (.str .x (.x p.1) .sp (p.2 * 8)) s) htop)
    rw [stores, addr_eq (show low s.sp + p.2 * 8 < 2 ^ 56 by omega)]
    exact Ico_subset_Ico (Nat.le_add_right _ _) (by change low s.sp + p.2 * 8 + 8 ≤ _; omega)

structure Framed (s s' : State) : Prop where
  sp : s'.sp = s.sp - BitVec.ofNat 64 savedBytes
  regs : ∀ r ∉ [Reg.x 29, .sp], s'.regs r = s.regs r
  vregs : s'.vregs = s.vregs
  mem : EqOn s'.mem s.mem (Ico (low s.sp - savedBytes) (low s.sp))ᶜ

theorem framed_prologue {s : State} (hroom : savedBytes ≤ low s.sp) :
    Framed s (run (exec env) emitPrologue s) := by
  have hbytes : savedBytes = 96 := rfl
  set saves : List Instr := preservedRegisters.zipIdx.map fun (r, i) =>
    .str .x (.x r) .sp (i * 8) with hsaves
  set s₁ := run (exec env) [.stpPre (.x 29) (.x 30), .mov (.x 29) .sp,
    .subImm .sp .sp (preservedRegisters.length * 8)] s with hs₁
  have hrun : run (exec env) emitPrologue s = run (exec env) saves s₁ := by
    rw [emitPrologue, run_append]
  have hplain : ∀ i ∈ saves, ∀ r, i.sets r = false ∧ i.setsQ = false ∧ i.isCall = false := by
    rw [hsaves, List.forall_mem_map]
    exact fun _ _ _ => ⟨rfl, rfl, rfl⟩
  have hsp : s₁.sp = s.sp - BitVec.ofNat 64 savedBytes := by
    have hsum : s₁.sp = s.sp - 16#64 - 80#64 := rfl
    rw [hsum, BitVec.sub_sub]
    rfl
  have hlow : low s₁.sp = low s.sp - savedBytes := by rw [hsp, low_sub hroom]
  have hlow' : low (s.sp - 16#64) = low s.sp - 16 := low_sub (by omega)
  have hmem : EqOn s₁.mem s.mem (Ico (low s.sp - savedBytes) (low s.sp))ᶜ := by
    refine (exec_eqOn env (i := .stpPre (.x 29) (.x 30)) rfl s).mono (compl_subset_compl.mpr ?_)
    rw [stores, hlow']
    exact Ico_subset_Ico (by omega) (by omega)
  have hwritten : written env saves s₁ ⊆ Ico (low s.sp - savedBytes) (low s.sp) := by
    have hlt := low_lt s.sp
    refine (written_saves (n := 10) (by decide) (by omega)).trans ?_
    rw [hlow]
    exact Ico_subset_Ico le_rfl (by omega)
  rw [hrun]
  refine ⟨?_, fun r hr => ?_, ?_, ?_⟩
  · rw [State.sp, run_regs fun i hi => (hplain i hi _).1]
    exact hsp
  · simp only [List.mem_cons, List.not_mem_nil, or_false, not_or] at hr
    rw [run_regs fun i hi => (hplain i hi r).1, hs₁]
    simp [run, exec, hr]
  · rw [run_vregs fun i hi => (hplain i hi .sp).2.1]
    rfl
  · exact fun a ha => (run_eqOn (fun i hi => (hplain i hi .sp).2.2) s₁ fun h =>
      ha (hwritten h)).trans (hmem ha)

end Ia2.Arm
