import Ia2.Arm.Frames

/-!
# The arguments of an AArch64 gate on the target's stack

The code of `emit_copy_args` up to the moves of an indirect call site: the states between its
pieces, and what it writes.
-/

namespace Ia2.Arm

open StraightLine Set
open Rewriter (alignUp le_alignUp dvd_alignUp)

variable {env : Env}

/-! ### Room, the saved address and stack arguments -/

section Pieces

variable (sizes : StackSizes) (s : State)

theorem run_reserve :
    run (exec env) (emitReserve sizes) s = s.set .sp (s.sp - BitVec.ofNat 64 sizes.total) := by
  unfold emitReserve
  split
  · rfl
  case isFalse h =>
    obtain h : sizes.total = 0 := by omega
    rw [h, show s.sp - BitVec.ofNat 64 0 = s.sp from BitVec.sub_zero _, State.set_self]
    rfl

theorem written_reserve : written env (emitReserve sizes) s = ∅ := by
  unfold emitReserve
  split
  · exact union_empty _
  · rfl

theorem written_returnPointer (htop : 0 < sizes.returnSize →
    low s.sp + sizes.returnStart ≤ 2 ^ 56) :
    written env (emitReturnPointer sizes) s =
      if 0 < sizes.returnSize then Ico (low s.sp + sizes.savedPtrOffset)
        (low s.sp + sizes.returnStart) else ∅ := by
  have hstart : sizes.returnStart = sizes.savedPtrOffset + 8 := rfl
  unfold emitReturnPointer
  split
  case isTrue h =>
    have := htop h
    simp only [written, stores, addr_eq (show low s.sp + sizes.savedPtrOffset < 2 ^ 56 by omega),
      union_empty]
    rw [hstart, Nat.add_assoc]
    rfl
  · rfl

variable {r : Reg}

theorem returnPointer_sets (hr : r ≠ .x 8) :
    ∀ i ∈ emitReturnPointer sizes, i.sets r = false := by
  unfold emitReturnPointer
  split
  · exact List.forall_mem_cons.mpr ⟨rfl, List.forall_mem_singleton.mpr (decide_eq_false hr)⟩
  · simp

theorem written_copyStackArgs (wrapperArgSize : Nat) (htop : low s.sp + sizes.argSize ≤ 2 ^ 56) :
    written env (emitCopyStackArgs sizes wrapperArgSize) s =
      Ico (low s.sp) (low s.sp + sizes.argSize) := by
  unfold emitCopyStackArgs
  split
  · exact written_memcpy (by simp) htop
  case isFalse h =>
    rw [show sizes.argSize = 0 by omega]
    exact (Ico_self _).symm

theorem copyStackArgs_sets (wrapperArgSize : Nat) (hr : r ≠ .x 9) :
    ∀ i ∈ emitCopyStackArgs sizes wrapperArgSize, i.sets r = false := by
  unfold emitCopyStackArgs
  split
  · exact memcpy_sets hr _
  · simp

end Pieces

/-! ### Copies of indirect arguments -/

def Location.HasPointer (loc : Location) : Prop :=
  loc.isStack = true ∨ loc.isStack = false ∧ ∃ r ∈ intParamRegOrder, loc.reg = some (.x r)

def copyArea (b : Nat) (p : Location × Nat) : Set Nat := Ico (b + p.2) (b + p.2 + p.1.size)

def pointerArea (b : Nat) (p : Location × Nat) : Set Nat :=
  if p.1.isStack then Ico (b + p.1.stackOffset) (b + p.1.stackOffset + 8) else ∅

theorem intParam_ne {r : Fin 31} (hr : r ∈ intParamRegOrder) : ∀ n ∈ [8, 9, 10, 11, 12], r ≠ n := by
  revert r
  decide

theorem copyIndirect_sets {arg : Location} {r : Reg} (hr : r ∉ [Reg.x 9, .x 10, .x 11])
    (hreg : arg.isStack = false → ∀ n, arg.reg = some (.x n) → r ≠ .x n) (offset : Nat) :
    ∀ i ∈ emitCopyIndirect arg offset, i.sets r = false := by
  simp only [List.mem_cons, List.not_mem_nil, or_false, not_or] at hr
  have hcopy : ∀ dst, ∀ i ∈ emitMemcpy arg.size dst (.x 10) (.x 11) 0, i.sets r = false :=
    fun dst => memcpy_sets hr.2.2 _
  unfold emitCopyIndirect
  split
  · simp only [List.forall_mem_append, List.forall_mem_cons]
    exact ⟨⟨⟨decide_eq_false hr.2.1, decide_eq_false hr.1, by simp⟩, hcopy _⟩, rfl, by simp⟩
  case isFalse hstack =>
    split
    case h_1 n hn =>
      simp only [List.forall_mem_append, List.forall_mem_cons]
      exact ⟨⟨decide_eq_false hr.2.1, decide_eq_false (hreg (by simpa using hstack) n hn), by simp⟩,
        hcopy _⟩
    · simp

theorem copyIndirect_plain (arg : Location) (offset : Nat) :
    ∀ i ∈ emitCopyIndirect arg offset, i.setsQ = false ∧ i.isCall = false := by
  unfold emitCopyIndirect
  split
  · simp only [List.forall_mem_append, List.forall_mem_cons]
    exact ⟨⟨⟨⟨rfl, rfl⟩, ⟨rfl, rfl⟩, by simp⟩, memcpy_plain _⟩, ⟨rfl, rfl⟩, by simp⟩
  · split
    · simp only [List.forall_mem_append, List.forall_mem_cons]
      exact ⟨⟨⟨rfl, rfl⟩, ⟨rfl, rfl⟩, by simp⟩, memcpy_plain _⟩
    · simp

theorem written_copyIndirect {p : Location × Nat} {s : State} (hptr : p.1.HasPointer)
    (hsize : 0 < p.1.size) (htop : low s.sp + p.2 + p.1.size ≤ 2 ^ 56)
    (htop' : p.1.isStack = true → low s.sp + p.1.stackOffset + 8 ≤ 2 ^ 56) :
    written env (emitCopyIndirect p.1 p.2) s = copyArea (low s.sp) p ∪
      pointerArea (low s.sp) p := by
  have hdst : low (s.sp + BitVec.ofNat 64 p.2) = low s.sp + p.2 := low_add (by omega)
  unfold emitCopyIndirect
  rcases hptr with hstack | ⟨hstack, r, hr, hreg⟩
  · have hsp : ∀ i ∈ [Instr.ldr .x (.x 10) .sp p.1.stackOffset, .addImm (.x 9) .sp p.2] ++
      emitMemcpy p.1.size (.x 9) (.x 10) (.x 11) 0,
        i.sets .sp = false := List.forall_mem_append.mpr
        ⟨by simp [Instr.sets], memcpy_sets (by simp) _⟩
    have hslot : low s.sp + p.1.stackOffset < 2 ^ 56 := by
      have := htop' hstack
      omega
    rw [if_pos hstack, written_append, written_append,
      written_memcpy (by simp) (by simpa [run, exec, hdst] using htop)]
    simp only [written, stores, empty_union, union_empty]
    rw [addr_eq (by rw [run_regs hsp]; exact hslot), run_regs hsp, pointerArea, if_pos hstack]
    simp [run, exec, hdst, copyArea, Width.bytes]
  · have hne := intParam_ne hr
    rw [if_neg (by simp [hstack]), hreg]
    dsimp only
    rw [written_append, written_memcpy (by simp [hne 11 (by decide)])
      (by simpa [run, exec, hne 10 (by decide), hdst] using htop),
      pointerArea, if_neg (by simp [hstack])]
    simp [written, stores, run, exec, hdst, copyArea]

theorem written_copyIndirects {ps : List (Location × Nat)} {s : State}
    (hptr : ∀ p ∈ ps, p.1.HasPointer ∧ 0 < p.1.size)
    (htop : ∀ p ∈ ps, low s.sp + p.2 + p.1.size ≤ 2 ^ 56 ∧
    (p.1.isStack = true → low s.sp + p.1.stackOffset + 8 ≤ 2 ^ 56)) :
    written env (ps.flatMap fun (arg, offset) => emitCopyIndirect arg offset) s =
      {a | ∃ p ∈ ps, a ∈ copyArea (low s.sp) p ∪ pointerArea (low s.sp) p} := by
  induction ps generalizing s with
  | nil =>
    ext a
    simp [written]
  | cons p ps ih =>
    rw [List.forall_mem_cons] at hptr htop
    have hsp : (run (exec env) (emitCopyIndirect p.1 p.2) s).sp = s.sp :=
      run_regs (copyIndirect_sets (by simp) (by simp) _) s
    rw [List.flatMap_cons, written_append, written_copyIndirect hptr.1.1 hptr.1.2 htop.1.1 htop.1.2,
      ih hptr.2 (by rw [hsp]; exact htop.2), hsp]
    ext a
    simp [or_and_right, exists_or]

/-! ### Where the copies are -/

variable {args : List Location}

theorem mem_indirectCopies {offset : Nat} {p : Location × Nat}
    (h : p ∈ indirectCopies offset args) :
    p.1 ∈ args ∧ p.1.isIndirect = true ∧ offset ≤ p.2 ∧ (0 < p.1.align → p.1.align ∣ p.2) := by
  induction args generalizing offset with
  | nil => cases h
  | cons arg args ih =>
    unfold indirectCopies at h
    split at h
    case isTrue hind =>
      have hle := le_alignUp offset arg.align
      rcases List.mem_cons.mp h with rfl | h
      · exact ⟨List.mem_cons_self, hind, hle, dvd_alignUp offset⟩
      · obtain ⟨hmem, hind', hstart, hdvd⟩ := ih h
        exact ⟨List.mem_cons_of_mem _ hmem, hind', by omega, hdvd⟩
    case isFalse =>
      obtain ⟨hmem, hrest⟩ := ih h
      exact ⟨List.mem_cons_of_mem _ hmem, hrest⟩

theorem exists_mem_indirectCopies {loc : Location} (hloc : loc ∈ args) (h : loc.isIndirect = true)
    (offset : Nat) :
    ∃ o, (loc, o) ∈ indirectCopies offset args := by
  induction args generalizing offset with
  | nil => cases hloc
  | cons arg args ih =>
    unfold indirectCopies
    rcases List.mem_cons.mp hloc with rfl | hloc
    · rw [if_pos h]
      exact ⟨_, List.mem_cons_self⟩
    · split
      · obtain ⟨o, ho⟩ := ih hloc (alignUp offset arg.align + arg.size)
        exact ⟨o, List.mem_cons_of_mem _ ho⟩
      · exact ih hloc offset

theorem pairwise_indirectCopies (offset : Nat) (args : List Location) :
    (indirectCopies offset args).Pairwise fun p q => p.2 + p.1.size ≤ q.2 := by
  induction args generalizing offset with
  | nil => exact .nil
  | cons arg args ih =>
    unfold indirectCopies
    split
    · exact .cons (fun q hq => (mem_indirectCopies hq).2.2.1) (ih _)
    · exact ih _

section Wrapper

variable (w : Wrapper)

/-- The copies of the indirect arguments, with their offsets from the stack pointer. -/
def Wrapper.copies : List (Location × Nat) := indirectCopies w.sizes.indirectStart w.args

variable {w}

theorem mem_copies {p : Location × Nat} (h : p ∈ w.copies) :
    p.1.HasPointer ∧ 0 < p.1.size ∧ p.1.align ∣ p.2 ∧ w.sizes.indirectStart ≤ p.2 ∧
      (p.1.isStack = true → p.1.stackOffset + 8 ≤ w.sizes.argSize) := by
  obtain ⟨hmem, hind, hstart, hdvd⟩ := mem_indirectCopies h
  obtain ⟨hsize, halign, hreg | hstack⟩ := indirect_facts hmem hind
  · exact ⟨.inr hreg, hsize, hdvd halign, hstart, fun hstack => absurd hstack (by simp [hreg.1])⟩
  · exact ⟨.inl hstack.1, hsize, hdvd halign, hstart, fun _ => hstack.2⟩

end Wrapper

theorem copyIndirects_sets {w : Wrapper} {r : Reg} (hr : r ∉ [Reg.x 9, .x 10, .x 11])
    (hparam : ∀ n ∈ intParamRegOrder, r ≠ .x n) :
    ∀ i ∈ emitCopyIndirects w.sizes w.args, i.sets r = false := by
  intro i hi
  obtain ⟨p, hp, hi⟩ := List.mem_flatMap.mp hi
  refine copyIndirect_sets hr (fun hstack n hn => ?_) p.2 i hi
  rcases (mem_copies hp).1 with hstack' | ⟨-, m, hm, hreg⟩
  · simp [hstack] at hstack'
  · obtain rfl : m = n := by simpa [hreg] using hn
    exact hparam m hm

/-! ### The states between the pieces -/

section States

variable (w : Wrapper) (env : Env) (wrapperArgSize : Nat) (s : State)

def reserved : State := s.set .sp (s.sp - BitVec.ofNat 64 w.sizes.total)

@[irreducible] def addressSaved : State := run (exec env) (emitReturnPointer w.sizes) (reserved w s)

@[irreducible] def argsCopied :
    State := run (exec env) (emitCopyStackArgs w.sizes wrapperArgSize) (addressSaved w env s)

@[irreducible] def copied :
    State := run (exec env) (emitCopyIndirects w.sizes w.args) (argsCopied w env wrapperArgSize s)

theorem run_emitCopies :
    run (exec env) (emitCopies w.sizes w.args wrapperArgSize) s =
    copied w env wrapperArgSize s := by
  simp only [emitCopies, run_append, run_reserve, copied, argsCopied, addressSaved, reserved]

theorem written_emitCopies : written env (emitCopies w.sizes w.args wrapperArgSize) s =
    written env (emitReturnPointer w.sizes) (reserved w s) ∪
      written env (emitCopyStackArgs w.sizes wrapperArgSize) (addressSaved w env s) ∪
      written env (emitCopyIndirects w.sizes w.args) (argsCopied w env wrapperArgSize s) := by
  simp only [emitCopies, written_append, run_append, run_reserve, written_reserve, empty_union,
    argsCopied, addressSaved, reserved]

theorem addressSaved_sp : (addressSaved w env s).sp = s.sp - BitVec.ofNat 64 w.sizes.total := by
  rw [addressSaved, State.sp, run_regs (returnPointer_sets _ (by simp))]
  simp [reserved]

theorem argsCopied_sp :
    (argsCopied w env wrapperArgSize s).sp = s.sp - BitVec.ofNat 64 w.sizes.total := by
  rw [argsCopied, State.sp, run_regs (copyStackArgs_sets _ _ (by simp))]
  exact addressSaved_sp w env s

theorem copied_sp : (copied w env wrapperArgSize s).sp = s.sp - BitVec.ofNat 64 w.sizes.total := by
  rw [copied, State.sp, run_regs (copyIndirects_sets (by simp) (by simp))]
  exact argsCopied_sp w env wrapperArgSize s

theorem argsCopied_regs {r : Reg} (hr : r ∉ [Reg.sp, .x 8, .x 9]) :
    (argsCopied w env wrapperArgSize s).regs r = s.regs r := by
  simp only [List.mem_cons, List.not_mem_nil, or_false, not_or] at hr
  rw [argsCopied, run_regs (copyStackArgs_sets _ _ hr.2.2), addressSaved,
    run_regs (returnPointer_sets _ hr.2.1), reserved]
  exact if_neg hr.1

theorem copied_x8 : (copied w env wrapperArgSize s).regs (.x 8) =
    if 0 < w.sizes.returnSize then s.sp - BitVec.ofNat 64 w.sizes.total +
      BitVec.ofNat 64 w.sizes.returnStart else s.regs (.x 8) := by
  rw [copied, run_regs (copyIndirects_sets (by decide) (by decide)), argsCopied,
    run_regs (copyStackArgs_sets _ _ (by decide)),
    addressSaved, emitReturnPointer]
  split
  · simp [run, exec, reserved]
  · simp [run, reserved]

theorem copyStackArgs_plain :
    ∀ i ∈ emitCopyStackArgs w.sizes wrapperArgSize, i.setsQ = false ∧ i.isCall = false := by
  unfold emitCopyStackArgs
  split
  · exact memcpy_plain _
  · simp

theorem copyIndirects_plain :
    ∀ i ∈ emitCopyIndirects w.sizes w.args, i.setsQ = false ∧ i.isCall = false := by
  intro i hi
  obtain ⟨p, -, hi⟩ := List.mem_flatMap.mp hi
  exact copyIndirect_plain p.1 p.2 i hi

theorem emitCopies_plain :
    ∀ i ∈ emitCopies w.sizes w.args wrapperArgSize, i.setsQ = false ∧ i.isCall = false := by
  simp only [emitCopies, List.forall_mem_append]
  refine ⟨⟨⟨?_, ?_⟩, copyStackArgs_plain w wrapperArgSize⟩, copyIndirects_plain w⟩
  · unfold emitReserve
    split <;> simp [Instr.setsQ, Instr.isCall]
  · unfold emitReturnPointer
    split <;> simp [Instr.setsQ, Instr.isCall]

theorem copied_vregs : (copied w env wrapperArgSize s).vregs = s.vregs := by
  rw [← run_emitCopies]
  exact run_vregs (fun i hi => (emitCopies_plain w wrapperArgSize i hi).1) s

theorem copied_eqOn :
    EqOn (copied w env wrapperArgSize s).mem s.mem
    (written env (emitCopies w.sizes w.args wrapperArgSize) s)ᶜ := by
  rw [← run_emitCopies]
  exact run_eqOn (fun i hi => (emitCopies_plain w wrapperArgSize i hi).2) s

variable {w s} {b : Nat}

theorem low_reserved (hroom : low s.sp = b + w.sizes.total) :
    low (s.sp - BitVec.ofNat 64 w.sizes.total) = b := by
  rw [low_sub (by omega)]
  omega

theorem returnStart_le_total (hret : 0 < w.sizes.returnSize) :
    w.sizes.returnStart + w.sizes.returnSize + w.sizes.returnPadding + w.sizes.indirectBytes =
      w.sizes.total := by
  have htotal := w.total_eq
  have hstart : w.sizes.returnStart = w.sizes.argBytes + 8 := rfl
  rw [StackSizes.returnBytes, if_pos hret] at htotal
  omega

theorem argBytes_le_total :
    w.sizes.argSize ≤ w.sizes.argBytes ∧ w.sizes.argBytes ≤ w.sizes.total := by
  have htotal := w.total_eq
  exact ⟨Nat.le_add_right _ _, by omega⟩

theorem written_address (hroom : low s.sp = b + w.sizes.total) :
    written env (emitReturnPointer w.sizes) (reserved w s) =
    if 0 < w.sizes.returnSize then Ico (b + w.sizes.savedPtrOffset) (b + w.sizes.returnStart)
      else ∅ := by
  have hlt := low_lt s.sp
  have hsp : low (reserved w s).sp = b := low_reserved hroom
  rw [written_returnPointer _ _ fun hret => ?_, hsp]
  have := returnStart_le_total hret
  omega

theorem written_stackArgs (hroom : low s.sp = b + w.sizes.total) :
    written env (emitCopyStackArgs w.sizes wrapperArgSize) (addressSaved w env s) =
      Ico b (b + w.sizes.argSize) := by
  have hlt := low_lt s.sp
  have hargs := @argBytes_le_total w
  have hsp : low (addressSaved w env s).sp = b := by rw [addressSaved_sp, low_reserved hroom]
  rw [written_copyStackArgs _ _ _ (by rw [hsp]; omega), hsp]

theorem written_indirects (hroom : low s.sp = b + w.sizes.total)
    (htop : ∀ p ∈ w.copies, b + p.2 + p.1.size ≤ 2 ^ 56) :
    written env (emitCopyIndirects w.sizes w.args) (argsCopied w env wrapperArgSize s) =
      {a | ∃ p ∈ w.copies, a ∈ copyArea b p ∪ pointerArea b p} := by
  have hlt := low_lt s.sp
  have hargs := @argBytes_le_total w
  have hsp : low (argsCopied w env wrapperArgSize s).sp = b := by
    rw [argsCopied_sp, low_reserved hroom]
  have hps : ∀ p ∈ w.copies, p.1.HasPointer ∧ 0 < p.1.size :=
    fun p hp => ⟨(mem_copies hp).1, (mem_copies hp).2.1⟩
  have htop' : ∀ p ∈ w.copies, b + p.2 + p.1.size ≤ 2 ^ 56 ∧
      (p.1.isStack = true → b + p.1.stackOffset + 8 ≤ 2 ^ 56) :=
    fun p hp => ⟨htop p hp, fun hstack => by have := (mem_copies hp).2.2.2.2 hstack; omega⟩
  have hwritten := @written_copyIndirects env w.copies (argsCopied w env wrapperArgSize s) hps
    (by rw [hsp]; exact htop')
  rw [hsp] at hwritten
  exact hwritten

theorem written_copies (hroom : low s.sp = b + w.sizes.total)
    (htop : ∀ p ∈ w.copies, b + p.2 + p.1.size ≤ 2 ^ 56) :
    written env (emitCopies w.sizes w.args wrapperArgSize) s =
      (if 0 < w.sizes.returnSize then Ico (b + w.sizes.savedPtrOffset) (b + w.sizes.returnStart)
        else ∅) ∪
        Ico b (b + w.sizes.argSize) ∪ {a | ∃ p ∈ w.copies, a ∈ copyArea b p ∪ pointerArea b p} := by
  rw [written_emitCopies, written_address env hroom, written_stackArgs env _ hroom,
    written_indirects env _ hroom htop]

theorem written_subset_of_le {e : Nat} (hroom : low s.sp = b + w.sizes.total)
    (htotal : w.sizes.total ≤ e) (hfit : ∀ p ∈ w.copies, p.2 + p.1.size ≤ e)
    (htop : b + e ≤ 2 ^ 56) :
    written env (emitCopies w.sizes w.args wrapperArgSize) s ⊆ Ico b (b + e) := by
  have hargs := @argBytes_le_total w
  rw [written_copies env wrapperArgSize hroom fun p hp => by have := hfit p hp; omega]
  rintro a ((ha | ha) | ⟨p, hp, ha | ha⟩)
  · split at ha
    case isTrue hret =>
      have htotal := returnStart_le_total hret
      exact ⟨by have := ha.1; omega, by have := ha.2; omega⟩
    · cases ha
  · exact ⟨ha.1, by have := ha.2; omega⟩
  · have := hfit p hp
    exact ⟨by have := ha.1; omega, by have := ha.2; omega⟩
  · unfold pointerArea at ha
    split at ha
    case isTrue hstack =>
      have := (mem_copies hp).2.2.2.2 hstack
      exact ⟨by have := ha.1; omega, by have := ha.2; omega⟩
    · cases ha

theorem written_subset (hroom : low s.sp = b + w.sizes.total)
    (hfit : ∀ p ∈ w.copies, p.2 + p.1.size ≤ w.sizes.total) :
    written env (emitCopies w.sizes w.args wrapperArgSize) s ⊆ Ico b (b + w.sizes.total) :=
  written_subset_of_le env wrapperArgSize hroom le_rfl hfit (hroom ▸ (low_lt _).le)

theorem copied_address (hret : 0 < w.sizes.returnSize) (hroom : low s.sp = b + w.sizes.total)
    (htop : ∀ p ∈ w.copies, b + p.2 + p.1.size ≤ 2 ^ 56) :
    (copied w env wrapperArgSize s).load64 (b + w.sizes.savedPtrOffset) = s.regs (.x 8) := by
  have hlt := low_lt s.sp
  have htotal := returnStart_le_total hret
  have hoffset : w.sizes.savedPtrOffset = w.sizes.argSize + w.sizes.argPadding := rfl
  have hstart : w.sizes.returnStart = w.sizes.savedPtrOffset + 8 := rfl
  have hstart' : w.sizes.indirectStart = w.sizes.returnStart + w.sizes.returnSize +
    w.sizes.returnPadding := rfl
  have hsaved : (addressSaved w env s).mem = s.mem.write (b + w.sizes.savedPtrOffset) 8
      (s.regs (.x 8)).toNat := by
    have hsp : low (reserved w s).sp = b := low_reserved hroom
    have haddr : (reserved w s).addr .sp w.sizes.savedPtrOffset = b + w.sizes.savedPtrOffset := by
      rw [addr_eq (by rw [hsp]; omega), hsp]
    rw [addressSaved, emitReturnPointer, if_pos hret, ← haddr]
    rfl
  have hstack : EqOn (argsCopied w env wrapperArgSize s).mem (addressSaved w env s).mem
      (Ico (b + w.sizes.savedPtrOffset) (b + w.sizes.savedPtrOffset + 8)) := by
    rw [argsCopied]
    refine (run_eqOn (fun i hi => (copyStackArgs_plain w wrapperArgSize i hi).2) _).mono ?_
    rw [written_stackArgs env _ hroom]
    exact fun a ha ha' => by have := ha.1; have := ha'.2; omega
  have hindirect : EqOn (copied w env wrapperArgSize s).mem (argsCopied w env wrapperArgSize s).mem
      (Ico (b + w.sizes.savedPtrOffset) (b + w.sizes.savedPtrOffset + 8)) := by
    rw [copied]
    refine (run_eqOn (fun i hi => (copyIndirects_plain w i hi).2) _).mono ?_
    rw [written_indirects env _ hroom htop]
    rintro a ha ⟨p, hp, ha' | ha'⟩
    · have := (mem_copies hp).2.2.2.1
      have := ha.2
      have := ha'.1
      omega
    · unfold pointerArea at ha'
      split at ha'
      case isTrue hptr =>
        have := (mem_copies hp).2.2.2.2 hptr
        have := ha.1
        have := ha'.2
        omega
      · cases ha'
  rw [State.load64_congr hindirect, State.load64_congr hstack, State.load64_write hsaved]

end States

theorem Ico_disjoint_of_le {a b c d : Nat} (h : b ≤ c) : Disjoint (Ico a b) (Ico c d) :=
  Ico_disjoint_Ico.mpr ((min_le_left b d).trans (h.trans (le_max_right a c)))

end Ia2.Arm
