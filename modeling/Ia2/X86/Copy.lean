import Ia2.Library.Pieces
import Ia2.X86.Stack

/-!
# Copies

The two ways in which gates copy memory: words pushed from another stack, highest first, and moves
through a scratch register. Both give the copied bytes at the destination when it does not overlap
the source.
-/

namespace Ia2.X86

open StraightLine Set

variable {env : Env}

/-! ### Pushed words -/

theorem run_pushqMems {prog : List Instr}
    (hprog : ∀ i ∈ prog, ∃ offset base, i = .pushqMem offset base) {s : State}
    (hroom : 8 * prog.length ≤ s.rsp.toNat) :
    (run (exec env) prog s).rsp.toNat = s.rsp.toNat - 8 * prog.length ∧
      Keeps [.rsp] s (run (exec env) prog s) ∧
      (run (exec env) prog s).pkru = s.pkru ∧
      EqOn (run (exec env) prog s).mem s.mem
        (Ico (s.rsp.toNat - 8 * prog.length) s.rsp.toNat)ᶜ := by
  induction prog generalizing s with
  | nil => exact ⟨rfl, Keeps.refl _ s, rfl, eqOn_refl _ _⟩
  | cons i prog ih =>
    obtain ⟨⟨offset, base, rfl⟩, hrest⟩ := List.forall_mem_cons.mp hprog
    rw [List.length_cons] at hroom ⊢
    let v := s.load64 (s.addr offset base)
    have hrsp : (s.push v).rsp.toNat = s.rsp.toNat - 8 := State.push_rsp (by omega) v
    have hpush := State.push_eqOn (s := s) (by omega) v
    have hkeep : Keeps [.rsp] s (s.push v) := keeps_push s v
    obtain ⟨hrsp', hkeep', hpkru', heq'⟩ := ih hrest (s := s.push v) (by omega)
    refine ⟨?_, (hkeep.trans hkeep').mono (by simp), hpkru', fun a ha => ?_⟩
    · change (run (exec env) prog (s.push v)).rsp.toNat = _
      omega
    · have hlater : a ∉ Ico ((s.push v).rsp.toNat - 8 * prog.length) (s.push v).rsp.toNat :=
        fun h =>
        ha ⟨by have := h.1; omega, by have := h.2; omega⟩
      have hfirst : a ∉ Ico (s.rsp.toNat - 8) s.rsp.toNat :=
        fun h => ha ⟨by have := h.1; omega, h.2⟩
      exact (heq' hlater).trans (hpush hfirst)

theorem runs_pushWords {base : Reg} (hbase : base ≠ .rsp) {n offset src : Nat} {s : State}
    (hroom : 8 * n ≤ s.rsp.toNat) (hsrc : src + 8 * n = (s.regs base).toNat + offset + 8)
    (htop : (s.regs base).toNat + offset + 8 ≤ 2 ^ 64) (hoffset : 8 * n ≤ offset)
    (hdisj : ∀ x ∈ Ico src (src + 8 * n), x ∉ Ico (s.rsp.toNat - 8 * n) s.rsp.toNat) :
    Runs (exec env) (Confined env (Ico src (src + 8 * n)) (Ico (s.rsp.toNat - 8 * n) s.rsp.toNat))
      ((List.range n).map fun k => .pushqMem (offset - 8 * k) base) s fun s' =>
      s'.rsp.toNat = s.rsp.toNat - 8 * n ∧ Keeps [.rsp] s s' ∧
        ∀ x < 8 * n, s'.mem (s.rsp.toNat - 8 * n + x) = s.mem (src + x) := by
  induction n generalizing s offset with
  | zero => exact Runs.nil ⟨rfl, Keeps.refl _ s, fun x hx => by omega⟩
  | succ n ih =>
    have haddr : s.addr offset base = (s.regs base).toNat + offset := toNat_add_of_lt (by omega)
    let v := s.load64 (s.addr offset base)
    have hrsp : (s.push v).rsp.toNat = s.rsp.toNat - 8 := State.push_rsp (by omega) v
    have hpush := State.push_eqOn (s := s) (by omega) v
    have hkeep : Keeps [.rsp] s (s.push v) := keeps_push s v
    have hreg : (s.push v).regs base = s.regs base := hkeep.regs base (by simpa using hbase)
    have hfree : ∀ x ∈ Ico src (src + 8 * n),
        x ∉ Ico ((s.push v).rsp.toNat - 8 * n) (s.push v).rsp.toNat := by
      intro x hx
      have := hdisj x ⟨hx.1, by have := hx.2; omega⟩
      simp only [mem_Ico] at this ⊢
      omega
    have hrest := Confined.runs
      (@ih (offset - 8) (s.push v) (by omega) (by rw [hreg]; omega) (by rw [hreg]; omega)
      (by omega) hfree) (List.forall_mem_map.mpr fun _ _ => rfl)
    have hshift : (fun k => Instr.pushqMem (offset - 8 - 8 * k) base) =
        (fun k => Instr.pushqMem (offset - 8 * k) base) ∘ Nat.succ := by
      funext k
      simp only [Function.comp_apply]
      congr 1
      omega
    rw [hshift, hrsp] at hrest
    rw [List.range_succ_eq_map, List.map_cons, List.map_map]
    refine Runs.cons (confined_pushqMem (by omega) ?_ (Ico_subset_Ico (by omega) le_rfl)) ?_
    · rw [Nat.mul_zero, Nat.sub_zero, haddr]
      exact Ico_subset_Ico (by omega) (by omega)
    refine hrest.mono (fun i s' _ h => h.mono (Ico_subset_Ico le_rfl (by omega))
      (Ico_subset_Ico (by omega) (by omega)))
      fun s' h => ?_
    obtain ⟨⟨hrsp', hkeep', hcopy⟩, -, heq⟩ := h
    refine ⟨by omega, (hkeep.trans hkeep').mono (by simp), fun x hx => ?_⟩
    rcases Nat.lt_or_ge x (8 * n) with hlow | hhigh
    · -- a word pushed later; the first push is not in its source
      have hsource : (s.push v).mem (src + x) = s.mem (src + x) := hpush (by
        have := hdisj (src + x) ⟨by omega, by omega⟩
        simp only [mem_compl_iff, mem_Ico] at this ⊢
        omega)
      rw [show s.rsp.toNat - 8 * (n + 1) + x = s.rsp.toNat - 8 - 8 * n + x by
        omega, hcopy x hlow, hsource]
    · -- the word pushed first, which later pushes leave alone
      have hkept : s'.mem (s.rsp.toNat - 8 + (x - 8 * n)) =
          (s.push v).mem (s.rsp.toNat - 8 + (x - 8 * n)) :=
        heq (by simp only [mem_compl_iff, mem_Ico]; omega)
      rw [show s.rsp.toNat - 8 * (n + 1) + x = s.rsp.toNat - 8 + (x - 8 * n) by omega, hkept,
        State.push_mem,
        toNat_sub_of_le (by omega)]
      have hv : v.toNat = s.mem.read ((s.regs base).toNat + offset) 8 := by
        simp only [v, State.load64, haddr, BitVec.toNat_ofNat]
        exact Nat.mod_eq_of_lt (ByteMemory.read_lt _ _ 8)
      rw [hv, ByteMemory.write_read_apply _ _ _ _ (by omega : x - 8 * n < 8),
        show (s.regs base).toNat + offset + (x - 8 * n) = src + x by omega]

/-! ### Moves through a scratch register -/

def copyChunk (dst src scratch : Reg) (srcOffset : Nat) (chunk : Width × Nat) : List Instr :=
  [.load chunk.1 (chunk.2 + srcOffset) src scratch, .store chunk.1 scratch chunk.2 dst]

inductive Chunks : Nat → Nat → List (Width × Nat) → Prop where
  | nil (a : Nat) : Chunks a a []
  | cons {a b : Nat} {width : Width} {chunks : List (Width × Nat)} :
    Chunks (a + width.bytes) b chunks →
      Chunks a b ((width, a) :: chunks)

/-- The lengths and offsets of chunks. -/
def pieces (chunks : List (Width × Nat)) : List (Nat × Nat) :=
  chunks.map fun chunk => (chunk.1.bytes, chunk.2)

variable {a b offset : Nat} {chunks : List (Width × Nat)} {R W : Set Nat} {base dst src : Reg}
  {s : State}

theorem chunks_iff_covers :
    Chunks a b chunks ↔ ByteMemory.Covers a b (pieces chunks) := by
  constructor
  · intro h
    induction h with
    | nil a => exact .nil a
    | cons _ ih => exact .cons ih
  · intro h
    induction chunks generalizing a with
    | nil =>
      cases h
      exact .nil _
    | cons chunk chunks ih =>
      obtain ⟨width, i⟩ := chunk
      rw [pieces, List.map_cons] at h
      cases h with
      | cons hrest => exact .cons (ih hrest)

theorem Chunks.le (h : Chunks a b chunks) : a ≤ b := by
  induction h with
  | nil => exact le_rfl
  | cons _ ih => omega

theorem Width.merge_mod (width : Width) (old : BitVec 64) {v : Nat} (hv : v < 256 ^ width.bytes) :
    (width.merge old v).toNat % 256 ^ width.bytes = v := by
  have hold := old.isLt
  cases width <;> simp only [Width.merge, Width.bytes, BitVec.toNat_ofNat] at hv ⊢ <;> omega

variable {width : Width}

theorem confined_load (h : Ico (s.addr offset base) (s.addr offset base + width.bytes) ⊆ R) :
    Confined env R W (.load width offset base dst) s := by
  intro a ha
  obtain rfl := List.mem_singleton.mp ha
  exact h

theorem confined_store (h : Ico (s.addr offset base) (s.addr offset base + width.bytes) ⊆ W) :
    Confined env R W (.store width src offset base) s := by
  intro a ha
  obtain rfl := List.mem_singleton.mp ha
  exact h

theorem exec_copyChunk {scratch : Reg} (hdst : dst ≠ scratch) {i j : Nat} (s : State) :
    (exec env (.store width scratch i dst) (exec env (.load width j src scratch) s)).mem =
      s.mem.write (s.addr i dst) width.bytes (s.mem.read (s.addr j src) width.bytes) := by
  have haddr : (exec env (.load width j src scratch) s).addr i dst = s.addr i dst := by
    simp [exec, State.addr, hdst]
  have hvalue : ((exec env (.load width j src scratch) s).regs scratch).toNat % 256 ^ width.bytes =
      s.mem.read (s.addr j src) width.bytes := by
    simp only [exec, State.set_regs, if_true]
    exact Width.merge_mod width _ (ByteMemory.read_lt _ _ _)
  have hmem : (exec env (.load width j src scratch) s).mem = s.mem := rfl
  rw [← hvalue, ByteMemory.write_mod, ← haddr, ← hmem]
  rfl

theorem copyChunks_isLocal {dst src scratch : Reg} {srcOffset : Nat} (chunks : List (Width × Nat)) :
    ∀ i ∈ chunks.flatMap (copyChunk dst src scratch srcOffset), i.isLocal = true := by
  intro i hi
  obtain ⟨chunk, -, hi⟩ := List.mem_flatMap.mp hi
  simp only [copyChunk, List.mem_cons, List.not_mem_nil, or_false] at hi
  rcases hi with rfl | rfl <;> rfl

theorem run_copyChunks_apply {dst src scratch : Reg} (hdst : dst ≠ scratch) {a b srcOffset : Nat}
    {chunks : List (Width × Nat)} (h : Chunks a b chunks) (ha : 0 < a) (hb : b ≤ 2 ^ 64)
    (s : State) :
    (run (exec env) (chunks.flatMap (copyChunk dst src scratch srcOffset)) s).mem
      (s.regs dst).toNat = s.mem (s.regs dst).toNat ∧
      Keeps [scratch] s (run (exec env) (chunks.flatMap (copyChunk dst src scratch srcOffset))
        s) := by
  induction h generalizing s with
  | nil a => exact ⟨rfl, Keeps.refl _ s⟩
  | @cons a b width chunks hchunks ih =>
    have hle := hchunks.le
    let s₂ := exec env (.store width scratch a dst)
      (exec env (.load width (a + srcOffset) src scratch) s)
    have hkeep : Keeps [scratch] s s₂ := ⟨(keeps_set s scratch _).regs, rfl⟩
    have hreg : s₂.regs dst = s.regs dst := hkeep.regs dst (by simpa using hdst)
    have hbyte : s₂.mem (s.regs dst).toNat = s.mem (s.regs dst).toNat := by
      rw [show s₂.mem = _ from exec_copyChunk hdst s]
      refine ByteMemory.write_eqOn _ _ _ _ fun hmem => ?_
      -- the address is behind the first byte, or so far behind that it has wrapped around and ends
      -- before it
      have hlo := hmem.1
      have hhi := hmem.2
      have hlt := (s.regs dst).isLt
      rw [State.addr, BitVec.toNat_add, BitVec.toNat_ofNat] at hlo hhi
      omega
    obtain ⟨hrest, hkeep'⟩ := ih (by omega) hb s₂
    rw [hreg, hbyte] at hrest
    exact ⟨hrest, (hkeep.trans hkeep').mono (by simp)⟩

theorem run_copyChunks_first {dst src scratch : Reg} (hdst : dst ≠ scratch) {n : Nat}
    {chunks : List (Width × Nat)} (h : Chunks 0 n chunks) (hn : 0 < n) (hmax : n ≤ 2 ^ 64)
    (s : State) :
    (run (exec env) (chunks.flatMap (copyChunk dst src scratch 0)) s).mem (s.regs dst).toNat =
      s.mem (s.regs src).toNat ∧
      Keeps [scratch] s (run (exec env) (chunks.flatMap (copyChunk dst src scratch 0)) s) := by
  cases h with
  | nil => omega
  | @cons _ _ width chunks hchunks =>
    have hwidth : 0 < width.bytes := by cases width <;> decide
    let s₂ := exec env (.store width scratch 0 dst) (exec env (.load width (0 + 0) src scratch) s)
    have hkeep : Keeps [scratch] s s₂ := ⟨(keeps_set s scratch _).regs, rfl⟩
    have hreg : s₂.regs dst = s.regs dst := hkeep.regs dst (by simpa using hdst)
    have hmem : s₂.mem = s.mem.write (s.regs dst).toNat width.bytes
        (s.mem.read (s.regs src).toNat width.bytes) := by
      have haddr : ∀ r, s.addr 0 r = (s.regs r).toNat :=
        fun r => congrArg BitVec.toNat (BitVec.add_zero _)
      rw [← haddr, ← haddr]
      exact exec_copyChunk hdst s
    have hbyte := ByteMemory.write_read_apply s.mem s.mem (s.regs dst).toNat
      (s.regs src).toNat hwidth
    obtain ⟨hrest, hkeep'⟩ := @run_copyChunks_apply env dst src scratch hdst _ _ 0 chunks hchunks
      (by omega) hmax s₂
    rw [hreg, hmem] at hrest
    exact ⟨hrest.trans hbyte, (hkeep.trans hkeep').mono (by simp)⟩

theorem runs_chunks {dst src scratch : Reg} (hdst : dst ≠ scratch) (hsrc : src ≠ scratch)
    {a b srcOffset : Nat} {chunks : List (Width × Nat)} (h : Chunks a b chunks) {s : State}
    {d c : Nat} (hd : (s.regs dst).toNat = d)
    (hc : (s.regs src + BitVec.ofNat 64 srcOffset).toNat = c) (hdtop : d + b ≤ 2 ^ 64)
    (hctop : c + b ≤ 2 ^ 64) :
    Runs (exec env) (Confined env (Ico (c + a) (c + b)) (Ico (d + a) (d + b)))
      (chunks.flatMap (copyChunk dst src scratch srcOffset)) s fun s' =>
      Keeps [scratch] s s' ∧ s'.mem = ByteMemory.copyPieces d c (pieces chunks) s.mem := by
  induction h generalizing s with
  | nil a => exact Runs.nil ⟨Keeps.refl _ s, rfl⟩
  | @cons a b width chunks hchunks ih =>
    have hle := hchunks.le
    have hpos : 0 < width.bytes := by cases width <;> decide
    let s₁ := exec env (.load width (a + srcOffset) src scratch) s
    let s₂ := exec env (.store width scratch a dst) s₁
    have hdaddr : s.addr a dst = d + a := by rw [State.addr, toNat_add_of_lt (by omega), hd]
    have hcaddr : s.addr (a + srcOffset) src = c + a := by
      rw [State.addr, Nat.add_comm, BitVec.ofNat_add, ← BitVec.add_assoc,
        toNat_add_of_lt (by omega), hc]
    have hmem : s₂.mem = s.mem.write (d + a) width.bytes (s.mem.read (c + a) width.bytes) := by
      rw [← hdaddr, ← hcaddr]
      exact exec_copyChunk hdst s
    have hkeep : Keeps [scratch] s s₂ := ⟨(keeps_set s scratch _).regs, rfl⟩
    have hrest := @ih s₂ (by rw [hkeep.regs dst (by simpa using hdst), hd])
      (by rw [hkeep.regs src (by simpa using hsrc), hc]) hdtop hctop
    refine Runs.cons (confined_load ?_) (Runs.cons (confined_store ?_) ?_)
    · dsimp only
      rw [hcaddr]
      exact Ico_subset_Ico le_rfl (by omega)
    · have hsame : s₁.addr a dst = s.addr a dst := by simp [s₁, exec, State.addr, hdst]
      change Ico (s₁.addr a dst) (s₁.addr a dst + width.bytes) ⊆ _
      rw [hsame, hdaddr]
      exact Ico_subset_Ico le_rfl (by omega)
    apply hrest.mono
    · intro i s' _ hconfined
      exact hconfined.mono (Ico_subset_Ico (by omega) le_rfl) (Ico_subset_Ico (by omega) le_rfl)
    · rintro s' ⟨hkeep', hmem'⟩
      refine ⟨(hkeep.trans hkeep').mono (by simp), ?_⟩
      rw [hmem', hmem]
      rfl

theorem runs_copyChunks {dst src scratch : Reg} (hdst : dst ≠ scratch) (hsrc : src ≠ scratch)
    {a b srcOffset : Nat} {chunks : List (Width × Nat)} (h : Chunks a b chunks) {s : State}
    {d c : Nat} (hd : (s.regs dst).toNat = d)
    (hc : (s.regs src + BitVec.ofNat 64 srcOffset).toNat = c) (hdtop : d + b ≤ 2 ^ 64)
    (hctop : c + b ≤ 2 ^ 64) (hdisj : Disjoint (Ico (c + a) (c + b)) (Ico (d + a) (d + b))) :
    Runs (exec env) (Confined env (Ico (c + a) (c + b)) (Ico (d + a) (d + b)))
      (chunks.flatMap (copyChunk dst src scratch srcOffset)) s fun s' =>
      Keeps [scratch] s s' ∧ ∀ x, a ≤ x → x < b → s'.mem (d + x) = s.mem (c + x) := by
  apply (runs_chunks hdst hsrc h hd hc hdtop hctop).mono fun _ _ _ hstep => hstep
  rintro s' ⟨hkeep, hmem⟩
  refine ⟨hkeep, fun x hax hxb => ?_⟩
  rw [hmem]
  exact (chunks_iff_covers.mp h).copyPieces_apply hdisj hax hxb

end Ia2.X86
