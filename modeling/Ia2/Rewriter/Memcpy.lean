import Ia2.Arm.Frames
import Ia2.Gate.Phases

/-!
# The loops of `emit_memcpy`

The moves that copy memory come from a loop over eight bytes at a time and three tests for what is
left. Their index is an `int`, while the number of bytes is `unsigned`: beyond the sizes that the
index can count to it overflows, which C++ gives no meaning. The index and its sum with the offset
of the source are written as displacements, which an instruction can hold only in part. A copy is
exact exactly if the index does not overflow and every displacement can be encoded.
-/

namespace Ia2.Rewriter

def INT_MAX : Nat := 2 ^ 31 - 1

variable {W : Type}

/-- The loop over eight bytes at a time, from an index on: the indices that it moves at, and the one
after it. `none` is an overflow of the index. -/
def wordLoop (byteCount i : Nat) : Option (List Nat × Nat) :=
  if i + 8 ≤ INT_MAX then
    if i + 8 ≤ byteCount then (wordLoop byteCount (i + 8)).map fun (offsets, last) =>
      (i :: offsets, last)
    else some ([], i)
  else none
termination_by byteCount - i

def restMove (width : W) (size byteCount i : Nat) : Option (List (W × Nat) × Nat) :=
  if i + size ≤ INT_MAX then some (if i + size ≤ byteCount then ([(width, i)], i + size)
    else ([], i)) else none

/-- The moves of `emit_memcpy`, with the architecture's names for moves of eight, four, two bytes
and one. -/
def memcpyMoves (width₈ width₄ width₂ width₁ : W) (byteCount : Nat) : Option (List (W × Nat)) := do
  let (offsets, i) ← wordLoop byteCount 0
  let (four, i) ← restMove width₄ 4 byteCount i
  let (two, i) ← restMove width₂ 2 byteCount i
  return offsets.map (width₈, ·) ++ four ++ two ++ if i < byteCount then [(width₁, i)] else []

theorem wordLoop_eq {byteCount k : Nat} (h : 8 * k ≤ byteCount) :
    wordLoop byteCount (8 * k) =
      if byteCount / 8 * 8 + 8 ≤ INT_MAX then some
        ((List.range' k (byteCount / 8 - k)).map (8 * ·), byteCount / 8 * 8) else none := by
  induction hd : byteCount / 8 - k generalizing k with
  | zero =>
    have hk : byteCount / 8 * 8 = 8 * k := by omega
    rw [wordLoop, if_neg (by omega : ¬ 8 * k + 8 ≤ byteCount), hk]
    rfl
  | succ d ih =>
    have hnext : 8 * (k + 1) ≤ byteCount := by omega
    rw [wordLoop, if_pos (by omega : 8 * k + 8 ≤ byteCount), ← Nat.mul_succ, ih hnext (by omega)]
    by_cases hlast : byteCount / 8 * 8 + 8 ≤ INT_MAX
    · rw [if_pos hlast, if_pos hlast, if_pos (by omega), List.range'_succ]
      rfl
    · rw [if_neg hlast, if_neg hlast]
      split <;> rfl

theorem restMove_eq (width : W) {size byteCount i next : Nat} (hmax : i + size ≤ INT_MAX)
    (hnext : (if i + size ≤ byteCount then i + size else i) = next) :
    restMove width size byteCount i = some (if i + size ≤ byteCount then [(width, i)]
      else [], next) := by
  rw [restMove, if_pos hmax, ← hnext]
  split <;> rfl

def exactMoves (width₈ width₄ width₂ width₁ : W) (n : Nat) : List (W × Nat) :=
  (List.range (n / 8)).map (fun k => (width₈, 8 * k)) ++
    (if n / 8 * 8 + 4 ≤ n then [(width₄, n / 8 * 8)] else []) ++
    (if n / 4 * 4 + 2 ≤ n then [(width₂, n / 4 * 4)] else []) ++ if n / 2 * 2 < n
    then [(width₁, n / 2 * 2)] else []

theorem memcpyMoves_eq (width₈ width₄ width₂ width₁ : W) (n : Nat) :
    memcpyMoves width₈ width₄ width₂ width₁ n = if n < 2 ^ 31 - 8
      then some (exactMoves width₈ width₄ width₂ width₁ n) else none := by
  have hloop : wordLoop n 0 = _ := wordLoop_eq (k := 0) (Nat.zero_le n)
  have hmax : n / 8 * 8 + 8 ≤ INT_MAX ↔ n < 2 ^ 31 - 8 := by
    rw [INT_MAX]
    omega
  rw [memcpyMoves, hloop]
  by_cases h : n < 2 ^ 31 - 8
  · have hle := hmax.mpr h
    have hmoves₄ := restMove_eq width₄ (by omega) (ByteMemory.rest_four n)
    have hmoves₂ := restMove_eq width₂ (by omega) (ByteMemory.rest_two n)
    rw [if_pos hle, if_pos h, Nat.sub_zero, ← List.range_eq_range']
    simp only [Option.bind_eq_bind, Option.bind_some, hmoves₄, hmoves₂, Option.pure_def, exactMoves,
      List.map_map]
    rfl
  · rw [if_neg (mt hmax.mp h), if_neg h]
    rfl

variable {n : Nat} {width₁ width₂ width₄ width₈ : W}

theorem forall_mem_exactMoves {P : W → Nat → Prop} :
    (∀ move ∈ exactMoves width₈ width₄ width₂ width₁ n, P move.1 move.2) ↔
      (∀ k < n / 8, P width₈ (8 * k)) ∧ (4 ≤ n % 8 → P width₄ (n / 8 * 8)) ∧
        (2 ≤ n % 4 → P width₂ (n / 4 * 4)) ∧ (n % 2 = 1 → P width₁ (n / 2 * 2)) := by
  have hif : ∀ {p q : Prop} [Decidable p] (width : W) (i : Nat), (p ↔ q) →
      ((∀ move ∈ if p then [(width, i)] else [], P move.1 move.2) ↔ (q → P width i)) := by
    intro p q _ width i hpq
    split <;> simp_all
  have hfour : n / 8 * 8 + 4 ≤ n ↔ 4 ≤ n % 8 := by omega
  have htwo : n / 4 * 4 + 2 ≤ n ↔ 2 ≤ n % 4 := by omega
  have hone : n / 2 * 2 < n ↔ n % 2 = 1 := by omega
  simp only [exactMoves, List.forall_mem_append, List.forall_mem_map, List.mem_range,
    hif _ _ hfour, hif _ _ htwo, hif _ _ hone, and_assoc]

/-- Every displacement of a copy of `n` bytes, in the destination and in a source at `srcOffset`, is
one that a move of its size can hold. -/
structure DisplacementsFit (Fits : Nat → Nat → Prop) (n srcOffset : Nat) : Prop where
  words : ∀ k < n / 8, Fits 8 (8 * k) ∧ Fits 8 (8 * k + srcOffset)
  four : 4 ≤ n % 8 → Fits 4 (n / 8 * 8) ∧ Fits 4 (n / 8 * 8 + srcOffset)
  two : 2 ≤ n % 4 → Fits 2 (n / 4 * 4) ∧ Fits 2 (n / 4 * 4 + srcOffset)
  one : n % 2 = 1 → Fits 1 (n / 2 * 2) ∧ Fits 1 (n / 2 * 2 + srcOffset)

theorem displacementsFit_iff {Fits : Nat → Nat → Prop} (bytes : W → Nat) {srcOffset : Nat}
    (h₈ : bytes width₈ = 8) (h₄ : bytes width₄ = 4) (h₂ : bytes width₂ = 2)
    (h₁ : bytes width₁ = 1) :
    DisplacementsFit Fits n srcOffset ↔ ∀ move ∈ exactMoves width₈ width₄ width₂ width₁ n,
      Fits (bytes move.1) move.2 ∧ Fits (bytes move.1) (move.2 + srcOffset) := by
  rw [forall_mem_exactMoves (P := fun width i =>
    Fits (bytes width) i ∧ Fits (bytes width) (i + srcOffset)),
    h₈, h₄, h₂, h₁]
  exact ⟨fun h => ⟨h.words, h.four, h.two, h.one⟩, fun h => ⟨h.1, h.2.1, h.2.2.1, h.2.2.2⟩⟩

/-- Code copies `n` bytes from `c` to `d`, reads nothing else and writes nothing else. An
instruction is `Confined R W` if it reads within `R` and writes within `W`. -/
structure CopiesExactly {I S : Type} (exec : I → S → S) (mem : S → ByteMemory)
    (Confined : Set Nat → Set Nat → I → S → Prop) (code : List I) (d c n : Nat) (s : S) : Prop where
  confined : StraightLine.Along exec (Confined (Set.Ico c (c + n)) (Set.Ico d (d + n))) code s
  copied : ∀ x < n, mem (StraightLine.run exec code s) (d + x) = mem s (c + x)
  others : Set.EqOn (mem (StraightLine.run exec code s)) (mem s) (Set.Ico d (d + n))ᶜ

theorem disjoint_areas (hn : n < 2 ^ 32) :
    Disjoint (Set.Ico (2 ^ 32) (2 ^ 32 + n)) (Set.Ico 0 (0 + n)) := by
  apply Set.disjoint_left.mpr
  intro x hx hx'
  have hlo := hx.1
  have hhi := hx'.2
  omega

end Ia2.Rewriter

/-! ### Copies on x86-64 -/

namespace Ia2.X86

open Rewriter StraightLine Set

/-- `emit_memcpy` writes the parts of its scratch register as the register's name with `d`, `w` or
`b` after it, which names a register for `r8` to `r15` only. -/
def Reg.hasPart (r : Reg) (width : Width) : Bool :=
  width = .q || r ∈ [.r8, .r9, .r10, .r11, .r12, .r13, .r14, .r15]

/-- `emit_memcpy` for x86-64; `none` where its index overflows or a line is no instruction. -/
def memcpyCode (byteCount : Nat) (dst src scratch : Reg) (srcOffset : Nat) : Option (List Instr) :=
  do
  let moves ← memcpyMoves Width.q .l .w .b byteCount
  guard (∀ move ∈ moves, scratch.hasPart move.1 ∧ DispFits move.2 ∧ DispFits (move.2 + srcOffset))
  return moves.flatMap (copyChunk dst src scratch srcOffset)

structure CanCopy (scratch : Reg) (n srcOffset : Nat) : Prop where
  index : n < 2 ^ 31 - 8
  displacements : DisplacementsFit (fun _ => DispFits) n srcOffset
  parts : n % 8 = 0 ∨ scratch ∈ [.r8, .r9, .r10, .r11, .r12, .r13, .r14, .r15]

variable {n srcOffset : Nat} {scratch : Reg}

theorem hasParts_iff :
    (∀ move ∈ exactMoves Width.q .l .w .b n, scratch.hasPart move.1) ↔
      n % 8 = 0 ∨ scratch ∈ [.r8, .r9, .r10, .r11, .r12, .r13, .r14, .r15] := by
  rw [forall_mem_exactMoves (P := fun width _ => scratch.hasPart width)]
  by_cases hmem : scratch ∈ [.r8, .r9, .r10, .r11, .r12, .r13, .r14, .r15]
  · simp [Reg.hasPart, hmem]
  · simp [Reg.hasPart, hmem]
    omega

theorem memcpyCode_eq_some_iff {dst src : Reg} {code : List Instr} :
    memcpyCode n dst src scratch srcOffset = some code ↔
      CanCopy scratch n srcOffset ∧ emitMemcpy n dst src scratch srcOffset = code := by
  have hfit : DisplacementsFit (fun _ => DispFits) n srcOffset ↔
      ∀ move ∈ exactMoves Width.q .l .w .b n, DispFits move.2 ∧ DispFits (move.2 + srcOffset) :=
    displacementsFit_iff Width.bytes rfl rfl rfl rfl
  have hmoves : Gate.memcpyChunks n = exactMoves Width.q .l .w .b n := by
    rw [exactMoves, Gate.memcpyChunks, List.append_assoc, List.append_assoc]
  have hcan : CanCopy scratch n srcOffset ↔ n < 2 ^ 31 - 8 ∧ ∀ move ∈ exactMoves Width.q .l .w .b n,
      scratch.hasPart move.1 ∧ DispFits move.2 ∧ DispFits (move.2 + srcOffset) := by
    simp only [imp_and, forall_and] at hfit ⊢
    rw [← hfit, hasParts_iff]
    exact ⟨fun h => ⟨h.index, h.parts, h.displacements⟩, fun h => ⟨h.1, h.2.2, h.2.1⟩⟩
  rw [memcpyCode, memcpyMoves_eq, Gate.emitMemcpy_eq, hmoves, hcan]
  simp [Option.bind_eq_some_iff, and_assoc]

/-- There is code for every copy of so many bytes, from an offset on and through a scratch register,
between two areas that do not overlap, and it is exact. -/
def MemcpyExact (scratch : Reg) (n srcOffset : Nat) : Prop :=
  ∀ (env : Env) (dst src : Reg) (s : State) (d c : Nat), dst ≠ scratch → src ≠ scratch →
    (s.regs dst).toNat = d → (s.regs src + BitVec.ofNat 64 srcOffset).toNat = c → d + n ≤ 2 ^ 64 →
    c + n ≤ 2 ^ 64 → Disjoint (Ico c (c + n)) (Ico d (d + n)) →
      ∃ code, memcpyCode n dst src scratch srcOffset = some code ∧
        CopiesExactly (exec env) State.mem (Confined env) code d c n s

theorem memcpyExact_iff (hn : n < 2 ^ 32) :
    MemcpyExact scratch n srcOffset ↔ CanCopy scratch n srcOffset := by
  constructor
  · intro h
    -- any copy will do, so take one between the first four gigabytes and the second
    obtain ⟨dst, src, hdst, hsrc, hne⟩ : ∃ dst src : Reg,
        dst ≠ scratch ∧ src ≠ scratch ∧ src ≠ dst := by
      cases scratch
      case rdi => exact ⟨.rsi, .rdx, by decide, by decide, by decide⟩
      case rsi => exact ⟨.rdi, .rdx, by decide, by decide, by decide⟩
      all_goals exact ⟨.rdi, .rsi, by decide, by decide, by decide⟩
    let v := BitVec.ofNat 64 (2 ^ 32) - BitVec.ofNat 64 srcOffset
    let s : State := ⟨fun r => if r = dst then 0 else v, fun _ => 0, 0, fun _ => 0, 0⟩
    have hd : (s.regs dst).toNat = 0 := by
      rw [show s.regs dst = 0 from if_pos rfl]
      rfl
    have hc : (s.regs src + BitVec.ofNat 64 srcOffset).toNat = 2 ^ 32 := by
      rw [show s.regs src = v from if_neg hne, BitVec.sub_add_cancel]
      rfl
    obtain ⟨code, hcode, -⟩ :=
      h ⟨0, fun _ => 0, 0, fun _ s => s, fun _ s => s⟩ dst src s 0 (2 ^ 32) hdst
      hsrc hd hc (by omega) (by omega) (disjoint_areas hn)
    exact (memcpyCode_eq_some_iff.mp hcode).1
  · intro h env dst src s d c hdst hsrc hd hc hdtop hctop hdisj
    refine ⟨_, memcpyCode_eq_some_iff.mpr ⟨h, rfl⟩, ?_⟩
    rw [Gate.emitMemcpy_eq]
    have hchunks := Gate.memcpyChunks_chunks n
    obtain ⟨hconfined, -, hmem⟩ :=
      @runs_chunks env _ _ _ hdst hsrc _ _ srcOffset _ hchunks s d c hd hc hdtop hctop
    refine ⟨hconfined, fun x hx => ?_, ?_⟩
    · rw [hmem]
      exact (chunks_iff_covers.mp hchunks).copyPieces_apply hdisj (Nat.zero_le x) hx
    · rw [hmem]
      exact (chunks_iff_covers.mp hchunks).copyPieces_eqOn

end Ia2.X86

/-! ### Copies on AArch64 -/

namespace Ia2.Arm

open Rewriter StraightLine Set

/-- `emit_memcpy` for AArch64; `none` where its index overflows or a line is no instruction. -/
def memcpyCode (byteCount : Nat) (dst src scratch : Reg) (srcOffset : Nat) : Option (List Instr) :=
  do
  let moves ← memcpyMoves Width.x .w .h .b byteCount
  let code := moves.flatMap (copyChunk dst src scratch srcOffset)
  guard (code.all Instr.encodable)
  return code

structure CanCopy (n srcOffset : Nat) : Prop where
  index : n < 2 ^ 31 - 8
  displacements : DisplacementsFit OffsetFits n srcOffset

variable {dst src : Reg} {scratch : Fin 31} {srcOffset n : Nat}

theorem encodable_copyChunk (move : Width × Nat) :
    (copyChunk dst src (.x scratch) srcOffset move).all Instr.encodable ↔
      OffsetFits move.1.bytes move.2 ∧ OffsetFits move.1.bytes (move.2 + srcOffset) := by
  simp [copyChunk, Instr.encodable, and_comm]

theorem memcpyCode_eq_some_iff {code : List Instr} :
    memcpyCode n dst src (.x scratch) srcOffset = some code ↔
      CanCopy n srcOffset ∧ emitMemcpy n dst src (.x scratch) srcOffset = code := by
  have hfit : DisplacementsFit OffsetFits n srcOffset ↔ ∀ move ∈ exactMoves Width.x .w .h .b n,
      OffsetFits move.1.bytes move.2 ∧ OffsetFits move.1.bytes (move.2 + srcOffset) :=
    displacementsFit_iff Width.bytes rfl rfl rfl rfl
  have hmoves : exactMoves Width.x .w .h .b n = memcpyChunks n := by
    simp only [exactMoves, memcpyChunks, ByteMemory.rest_four, ByteMemory.rest_two]
  have hcan : CanCopy n srcOffset ↔ n < 2 ^ 31 - 8 ∧
      ((memcpyChunks n).flatMap (copyChunk dst src (.x scratch) srcOffset)).all
      Instr.encodable := by
    rw [List.all_flatMap, List.all_eq_true, ← hmoves]
    simp only [encodable_copyChunk]
    rw [← hfit]
    exact ⟨fun h => ⟨h.index, h.displacements⟩, fun h => ⟨h.1, h.2⟩⟩
  have hcode : emitMemcpy n dst src (.x scratch) srcOffset =
      (memcpyChunks n).flatMap (copyChunk dst src (.x scratch) srcOffset) := rfl
  rw [memcpyCode, memcpyMoves_eq, hmoves, hcan, hcode]
  simp [Option.bind_eq_some_iff, and_assoc]

/-- There is code for every copy of so many bytes, from an offset on, between two areas that do not
overlap, and it is exact. -/
def MemcpyExact (n srcOffset : Nat) : Prop :=
  ∀ (env : Env) (dst src : Reg) (scratch : Fin 31) (s : State) (d c : Nat), dst ≠ .x scratch →
    src ≠ .x scratch → low (s.regs dst) = d → low (s.regs src + BitVec.ofNat 64 srcOffset) = c →
    d + n ≤ 2 ^ 56 → c + n ≤ 2 ^ 56 → Disjoint (Ico c (c + n)) (Ico d (d + n)) →
      ∃ code, memcpyCode n dst src (.x scratch) srcOffset = some code ∧
        CopiesExactly (exec env) State.mem Confined code d c n s

theorem memcpyExact_iff (hn : n < 2 ^ 32) :
    MemcpyExact n srcOffset ↔ CanCopy n srcOffset := by
  constructor
  · intro h
    let v := BitVec.ofNat 64 (2 ^ 32) - BitVec.ofNat 64 srcOffset
    let s : State := ⟨fun r => if r = .x 0 then 0 else v, fun _ => 0, fun _ => 0, 0⟩
    have hc : low (s.regs (.x 1) + BitVec.ofNat 64 srcOffset) = 2 ^ 32 := by
      rw [show s.regs (.x 1) = v from rfl, BitVec.sub_add_cancel]
      rfl
    obtain ⟨code, hcode, -⟩ :=
      h ⟨0, fun _ => 0, fun _ => 0, fun v => v, 0, fun _ s => s, fun _ s => s⟩
      (.x 0) (.x 1) 9 s 0 (2 ^ 32) (by decide) (by decide) rfl hc (by omega) (by omega)
        (disjoint_areas hn)
    exact (memcpyCode_eq_some_iff.mp hcode).1
  · rintro h env dst src scratch s d c hdst hsrc rfl hc hdtop hctop hdisj
    refine ⟨_, memcpyCode_eq_some_iff.mpr ⟨h, rfl⟩, ?_⟩
    obtain ⟨hconfined, hmem⟩ := runs_chunks env hdst hsrc (covers_memcpyChunks n) hc hdtop hctop
    refine ⟨hconfined, fun x hx => ?_, ?_⟩
    · change (run (exec env) ((memcpyChunks n).flatMap (copyChunk dst src _ srcOffset)) s).mem _ = _
      rw [hmem]
      exact (covers_memcpyChunks n).copyPieces_apply hdisj (Nat.zero_le x) hx
    · change EqOn (run (exec env) ((memcpyChunks n).flatMap (copyChunk dst src _ srcOffset)) s).mem
        _ _
      rw [hmem]
      exact (covers_memcpyChunks n).copyPieces_eqOn

end Ia2.Arm

/-! ### Both architectures -/

namespace Ia2.Rewriter

/-- Copies are exact on both architectures exactly if the index does not overflow, every
displacement can be encoded on either of them, and the parts of the scratch register that are used
on x86-64 have the names that the code gives them. -/
theorem emitMemcpy_exact_iff (byteCount : UInt32) (srcOffset : UInt64) (scratch : X86.Reg) :
    X86.MemcpyExact scratch byteCount.toNat srcOffset.toNat ∧
        Arm.MemcpyExact byteCount.toNat srcOffset.toNat ↔
      byteCount.toNat < 2 ^ 31 - 8 ∧
        DisplacementsFit (fun _ => X86.DispFits) byteCount.toNat srcOffset.toNat ∧
        DisplacementsFit Arm.OffsetFits byteCount.toNat srcOffset.toNat ∧
        (byteCount.toNat % 8 = 0 ∨ scratch ∈ [.r8, .r9, .r10, .r11, .r12, .r13, .r14, .r15]) := by
  have hlt := byteCount.toNat_lt
  rw [X86.memcpyExact_iff hlt, Arm.memcpyExact_iff hlt]
  constructor
  · intro ⟨hx86, harm⟩
    exact ⟨hx86.index, hx86.displacements, harm.displacements, hx86.parts⟩
  · intro ⟨hindex, hx86, harm, hparts⟩
    exact ⟨⟨hindex, hx86, hparts⟩, hindex, harm⟩

/-- On AArch64 the last byte of 4097 cannot be addressed, nor can a word at offset 260; and the
index overflows for eight bytes more than two gigabytes. -/
theorem emitMemcpy_not_exact :
    Arm.memcpyCode 4097 (.x 13) (.x 12) (.x 9) 0 = none ∧
      ¬ Arm.MemcpyExact (4097 : UInt32).toNat 0 ∧
      ¬ Arm.MemcpyExact (8 : UInt32).toNat (260 : UInt64).toNat ∧
      memcpyMoves X86.Width.q .l .w .b (2 ^ 31 + 8) = none ∧
      memcpyMoves Arm.Width.x .w .h .b (2 ^ 31 + 8) = none ∧
      ¬ X86.MemcpyExact .r10 (2147483656 : UInt32).toNat 0 ∧
      ¬ Arm.MemcpyExact (2147483656 : UInt32).toNat 0 := by
  have hbyte : ¬ Arm.CanCopy 4097 0 := by
    intro h
    have := (h.displacements.one (by decide)).1
    revert this
    decide
  refine ⟨?_, ?_, ?_, ?_, ?_, ?_, ?_⟩
  · by_contra h
    obtain ⟨code, hcode⟩ := Option.ne_none_iff_exists'.mp h
    exact hbyte (Arm.memcpyCode_eq_some_iff.mp hcode).1
  · rw [Arm.memcpyExact_iff (by decide)]
    exact hbyte
  · rw [Arm.memcpyExact_iff (by decide)]
    intro h
    have := (h.displacements.words 0 (by decide)).2
    revert this
    decide
  · rw [memcpyMoves_eq, if_neg (by decide)]
  · rw [memcpyMoves_eq, if_neg (by decide)]
  · rw [X86.memcpyExact_iff (by decide)]
    exact fun h => absurd h.index (by decide)
  · rw [Arm.memcpyExact_iff (by decide)]
    exact fun h => absurd h.index (by decide)

end Ia2.Rewriter
