import Ia2.Arm.Site

/-!
# The stack arguments of an indirect call site on AArch64

What the gate has on the target's stack at the call: the stack arguments, which come from the end of
the caller's, and the copies of indirect arguments with the pointers to them.
-/

namespace Ia2.Arm

open StraightLine Set
open Rewriter (ArgLocation Slot)
open Rewriter.ArgLocation (register indirect)

variable {env : Env}

/-! ### Copies through pointers on the stack -/

def touched (b : Nat) (p : Location × Nat) : Set Nat := copyArea b p ∪ pointerArea b p

section Copies

variable {b : Nat} {t : State}

structure CopyStep (b : Nat) (p : Location × Nat) (t t' : State) : Prop where
  sp : t'.sp = t.sp
  mem : EqOn t'.mem t.mem (touched b p)ᶜ
  pointer : t'.load64 (b + p.1.stackOffset) = t.sp + BitVec.ofNat 64 p.2
  bytes : ∀ q, t.load64 (b + p.1.stackOffset) = q → low q + p.1.size ≤ 2 ^ 56 →
    Disjoint (Ico (low q) (low q + p.1.size)) (copyArea b p) → ∀ i < p.1.size,
    t'.mem (b + p.2 + i) = t.mem (low q + i)

theorem copyStep {p : Location × Nat} (hlow : low t.sp = b) (hstack : p.1.isStack = true)
    (hsize : 0 < p.1.size) (htop : b + p.2 + p.1.size ≤ 2 ^ 56)
    (htop' : b + p.1.stackOffset + 8 ≤ 2 ^ 56) (hown : Disjoint (copyArea b p) (pointerArea b p)) :
    CopyStep b p t (run (exec env) (emitCopyIndirect p.1 p.2) t) := by
  have hplain : ∀ i ∈ emitCopyIndirect p.1 p.2, i.isCall = false :=
    fun i hi => (copyIndirect_plain p.1 p.2 i hi).2
  have hwritten := @written_copyIndirect env p t (.inl hstack) hsize (hlow.symm ▸ htop) fun _ =>
    hlow.symm ▸ htop'
  have hmem := @run_eqOn env _ hplain t
  rw [hwritten, hlow] at hmem
  have hsp : (run (exec env) (emitCopyIndirect p.1 p.2) t).sp = t.sp :=
    run_regs (copyIndirect_sets (by simp) (by simp [hstack]) _) t
  -- the state before the copy, and the one before the pointer is stored
  let t₁ := (t.set (.x 10) (t.load64 (b + p.1.stackOffset))).set (.x 9) (t.sp + BitVec.ofNat 64 p.2)
  let t₂ := run (exec env) (emitMemcpy p.1.size (.x 9) (.x 10) (.x 11) 0) t₁
  have haddr : t.addr .sp p.1.stackOffset = b + p.1.stackOffset := by
    rw [← hlow]
    exact addr_eq (by rw [hlow]; omega)
  have hload : run (exec env) [.ldr .x (.x 10) .sp p.1.stackOffset, .addImm (.x 9) .sp p.2]
      t = t₁ := by
    simp only [run, exec, haddr, State.set_regs]
    rfl
  have hsp₂ : t₂.sp = t.sp := run_regs (memcpy_sets (by simp) _) t₁
  have hx9 : t₂.regs (.x 9) = t.sp + BitVec.ofNat 64 p.2 := run_regs (memcpy_sets (by simp) _) t₁
  have haddr₂ : t₂.addr .sp p.1.stackOffset = b + p.1.stackOffset := by
    rw [State.addr, show t₂.regs .sp = t.sp from hsp₂, ← haddr]
    rfl
  have hrun : run (exec env) (emitCopyIndirect p.1 p.2) t =
      t₂.store (b + p.1.stackOffset) 8 (t.sp + BitVec.ofNat 64 p.2).toNat := by
    rw [emitCopyIndirect, if_pos hstack, run_append, run_append, hload]
    simp only [run, exec, haddr₂, hx9, Width.bytes, t₂]
  refine ⟨hsp, hmem, ?_, fun q hq hqtop hdisj i hi => ?_⟩
  · rw [hrun]
    exact State.load64_write rfl
  · have hlow₁ : low (t₁.regs (.x 9)) = b + p.2 := by
      rw [← hlow]
      exact low_add (by omega)
    have hsrc : t₁.regs (.x 10) = q := hq
    have hnot : b + p.2 + i ∉ Ico (b + p.1.stackOffset) (b + p.1.stackOffset + 8) := by
      have hcopy : b + p.2 + i ∈ copyArea b p := ⟨by omega, by omega⟩
      have hout := disjoint_left.mp hown hcopy
      rwa [pointerArea, if_pos hstack] at hout
    have hcopied := @memcpy_apply env (.x 9) (.x 10) 11 0 (by decide) (by decide) p.1.size t₁
      (by rw [hlow₁]; omega)
      (by rw [hsrc]; omega) (by rw [hlow₁, hsrc]; exact hdisj) i hi
    rw [hrun, State.store_mem, ByteMemory.write_of_notMem hnot, ← hlow₁]
    rw [hsrc] at hcopied
    exact hcopied

theorem copies_run {ps : List (Location × Nat)} (hlow : low t.sp = b)
    (hstack : ∀ p ∈ ps, p.1.isStack = true ∧ 0 < p.1.size)
    (htop : ∀ p ∈ ps, b + p.2 + p.1.size ≤ 2 ^ 56 ∧ b + p.1.stackOffset + 8 ≤ 2 ^ 56)
    (hown : ∀ p ∈ ps, Disjoint (copyArea b p) (pointerArea b p))
    (hpair : ps.Pairwise fun p q => Disjoint (touched b p) (touched b q)) :
    ∀ p ∈ ps,
      (run (exec env) (ps.flatMap fun (arg, offset) => emitCopyIndirect arg offset) t).load64
        (b + p.1.stackOffset) =
        t.sp + BitVec.ofNat 64 p.2 ∧
      ∀ q, t.load64 (b + p.1.stackOffset) = q → low q + p.1.size ≤ 2 ^ 56 →
        Disjoint (Ico (low q) (low q + p.1.size)) {a | ∃ p' ∈ ps, a ∈ touched b p'} →
          ∀ i < p.1.size,
          (run (exec env) (ps.flatMap fun (arg, offset) => emitCopyIndirect arg offset) t).mem
            (b + p.2 + i) = t.mem (low q + i) := by
  induction ps generalizing t with
  | nil => exact fun _ h => absurd h List.not_mem_nil
  | cons p ps ih =>
    rw [List.forall_mem_cons] at hstack htop hown
    rw [List.pairwise_cons] at hpair
    have hstep := @copyStep env b t p hlow hstack.1.1 hstack.1.2 htop.1.1 htop.1.2 hown.1
    set t₁ := run (exec env) (emitCopyIndirect p.1 p.2) t
    have hlow₁ : low t₁.sp = b := by rw [hstep.sp, hlow]
    have hrest := ih hlow₁ hstack.2 htop.2 hown.2 hpair.2
    have hwritten := @written_copyIndirects env ps t₁
      (fun p' hp' => ⟨.inl (hstack.2 p' hp').1, (hstack.2 p' hp').2⟩)
      (fun p' hp' => by rw [hlow₁]; exact ⟨(htop.2 p' hp').1, fun _ => (htop.2 p' hp').2⟩)
    have hkept : EqOn (run (exec env) (ps.flatMap fun (arg, offset) => emitCopyIndirect arg offset)
        t₁).mem t₁.mem (touched b p) := by
      have hplain : ∀ i ∈ ps.flatMap (fun (arg, offset) => emitCopyIndirect arg offset),
        i.isCall = false := fun i hi => by
        obtain ⟨p', -, hi⟩ := List.mem_flatMap.mp hi
        exact (copyIndirect_plain _ _ i hi).2
      intro a ha
      refine @run_eqOn env _ hplain t₁ a fun hin => ?_
      rw [hwritten, hlow₁] at hin
      obtain ⟨p', hp', hin⟩ := hin
      exact disjoint_left.mp (hpair.1 p' hp') ha hin
    rw [List.flatMap_cons]
    simp only [run_append]
    refine List.forall_mem_cons.mpr ⟨⟨?_, fun q hq hqtop hdisj i hi => ?_⟩,
      fun p' hp' => ⟨?_, fun q hq hqtop hdisj i hi => ?_⟩⟩
    · rw [← hstep.pointer]
      refine State.load64_congr (hkept.mono fun a ha => .inr ?_)
      rwa [pointerArea, if_pos hstack.1.1]
    · rw [hkept (.inl ⟨by omega, by omega⟩)]
      have hsub : copyArea b p ⊆ {a | ∃ p' ∈ p :: ps, a ∈ touched b p'} :=
        fun a ha => ⟨p, List.mem_cons_self, .inl ha⟩
      exact hstep.bytes q hq hqtop (hdisj.mono_right hsub) i hi
    · rw [(hrest p' hp').1, hstep.sp]
    · -- the pointer and what it refers to are still there after the first copy
      have hslot : t₁.load64 (b + p'.1.stackOffset) = q := by
        rw [← hq]
        refine State.load64_congr fun a ha => hstep.mem fun hin => ?_
        exact disjoint_left.mp (hpair.1 p' hp') hin
          (.inr (by rwa [pointerArea, if_pos (hstack.2 p' hp').1]))
      have hsub : {a | ∃ p'' ∈ ps, a ∈ touched b p''} ⊆
          {a | ∃ p'' ∈ p :: ps, a ∈ touched b p''} := by
        rintro a ⟨p'', hp'', ha⟩
        exact ⟨p'', List.mem_cons_of_mem _ hp'', ha⟩
      rw [(hrest p' hp').2 q hslot hqtop (hdisj.mono_right hsub) i hi]
      exact hstep.mem fun hin => disjoint_left.mp hdisj ⟨by omega, by omega⟩
        ⟨p, List.mem_cons_self, hin⟩

end Copies

/-! ### Where the pointers are -/

section Slots

variable {w : Wrapper}

theorem pairwise_copies_of_args {R : Location → Location → Prop} {args : List Location}
    (h : args.Pairwise R) (offset : Nat) :
    (indirectCopies offset args).Pairwise fun p q => R p.1 q.1 := by
  induction args generalizing offset with
  | nil => exact .nil
  | cons arg args ih =>
    rw [List.pairwise_cons] at h
    rw [indirectCopies]
    split
    · exact List.pairwise_cons.mpr ⟨fun q hq => h.1 q.1 (mem_indirectCopies hq).1, ih h.2 _⟩
    · exact ih h.2 _

theorem args_eq_siteLocs (w : Wrapper) : w.args = (initialParams w.sig.ret).args ++ siteLocs w :=
  siteGroups_locs w.sig

theorem siteLocs_pairwise (w : Wrapper) : (siteLocs w).Pairwise Location.Before := by
  rw [siteLocs, siteGroups, flatMap_locs]
  exact pairwise_paramGroups w.sig.args_slots _

variable {loc : Location}

theorem initialParams_isStack {ret : List ArgLocation} (h : loc ∈ (initialParams ret).args) :
    loc.isStack = false := by
  rcases initialParams_cases ret with heq | heq <;> rw [heq] at h
  · rw [List.mem_singleton.mp h]
    rfl
  · cases h

theorem args_pairwise (w : Wrapper) : w.args.Pairwise Location.Before := by
  rw [args_eq_siteLocs, List.pairwise_append]
  refine ⟨List.pairwise_of_forall_mem_list fun loc hloc _ _ hstack => ?_, siteLocs_pairwise w,
    fun loc hloc _ _ hstack => ?_⟩ <;>
  · rw [initialParams_isStack hloc] at hstack
    cases hstack

theorem width_of_isIndirect (h : loc.isIndirect = true) : loc.width = 8 := if_pos h

theorem copy_above {p q : Location × Nat} (hp : p ∈ w.copies) (hq : q ∈ w.copies) (b : Nat) :
    Disjoint (copyArea b p) (pointerArea b q) := by
  have hstart : w.sizes.argSize < w.sizes.indirectStart := by
    simp only [StackSizes.indirectStart, StackSizes.returnStart, StackSizes.savedPtrOffset]
    omega
  have hle := (mem_copies hp).2.2.2.1
  rw [disjoint_left]
  intro a ha ha'
  unfold pointerArea at ha'
  split at ha'
  case isTrue hstack =>
    have hslot := (mem_copies hq).2.2.2.2 hstack
    have hlo := ha.1
    have hhi := ha'.2
    omega
  · cases ha'

theorem copies_pairwise (w : Wrapper) (b : Nat) :
    w.copies.Pairwise fun p q => Disjoint (touched b p) (touched b q) := by
  have hslots := pairwise_copies_of_args (args_pairwise w) w.sizes.indirectStart
  have hcopies := pairwise_indirectCopies w.sizes.indirectStart w.args
  refine (hslots.and hcopies).imp_of_mem fun {p q} hp hq h => ?_
  obtain ⟨hbefore, hle⟩ := h
  have hareas : Disjoint (copyArea b p) (copyArea b q) := Ico_disjoint_of_le (by omega)
  have hpointers : Disjoint (pointerArea b p) (pointerArea b q) := by
    unfold pointerArea
    split
    case isTrue hstack =>
      split
      case isTrue hstack' =>
        have hoff := hbefore hstack hstack'
        rw [width_of_isIndirect (mem_indirectCopies hp).2.1] at hoff
        exact Ico_disjoint_of_le (by omega)
      · exact disjoint_empty _
    · exact empty_disjoint _
  rw [touched, touched, disjoint_union_left, disjoint_union_right, disjoint_union_right]
  exact ⟨⟨hareas, copy_above hp hq b⟩, (copy_above hq hp b).symm, hpointers⟩

end Slots

/-! ### Bytes of the arguments -/

section Bytes

variable {w : Wrapper} {s : State} (hsite : IsSite w) (hok : SiteOk w env s)

theorem returnPointer_isCall (sizes : StackSizes) :
    ∀ i ∈ emitReturnPointer sizes, i.isCall = false := by
  unfold emitReturnPointer
  split <;> simp [Instr.isCall]

include hsite hok

theorem site_addressSaved_eqOn :
    EqOn (addressSaved w env (switched w env s)).mem (switched w env s).mem
    (Ico (siteBase w env s) (siteBase w env s + w.sizes.total))ᶜ := by
  intro a ha
  rw [addressSaved, @run_eqOn env _ (returnPointer_isCall w.sizes) _ a]
  · rfl
  rw [written_address env (low_switched_sp hsite hok)]
  split
  case isTrue hret =>
    have htotal := returnStart_le_total hret
    exact fun h => ha ⟨by have := h.1; omega, by have := h.2; omega⟩
  · exact notMem_empty a

theorem site_argsCopied_eqOn :
    EqOn (argsCopied w env (wrapperArgSize w) (switched w env s)).mem (switched w env s).mem
    (Ico (siteBase w env s) (siteBase w env s + w.sizes.total))ᶜ := by
  intro a ha
  have hargs := @argBytes_le_total w
  rw [argsCopied, @run_eqOn env _ (fun i hi => (copyStackArgs_plain w _ i hi).2) _ a,
    site_addressSaved_eqOn hsite hok ha]
  rw [written_stackArgs env _ (low_switched_sp hsite hok)]
  exact fun h => ha ⟨h.1, by have := h.2; omega⟩

theorem site_argsCopied_apart {a : Nat} (ha : a ∉ gateWrites w env s) :
    (argsCopied w env (wrapperArgSize w) (switched w env s)).mem a = s.mem a := by
  have htotal := (le_siteExtent w).1
  simp only [gateWrites, mem_union, not_or] at ha
  rw [site_argsCopied_eqOn hsite hok, (site_switched hsite hok).mem]
  · simp only [mem_compl_iff, mem_union, not_or]
    exact ha.1
  · exact fun h => ha.2 ⟨by have := h.1; omega, by have := h.2; omega⟩

variable {i : Nat}

theorem site_argsCopied (hi : i < w.sizes.argSize) :
    (argsCopied w env (wrapperArgSize w) (switched w env s)).mem (siteBase w env s + i) =
      s.mem (low s.sp + (wrapperArgSize w - w.sizes.argSize) + i) := by
  have hle := argSize_le_wrapperArgSize w
  have htotal := (le_siteExtent w).1
  have hargs := @argBytes_le_total w
  have hroom := hok.callerRoom
  have htop := hok.callerTop
  have htop' := hok.targetTop
  set D := addressSaved w env (switched w env s)
  have hsp : D.regs .sp = siteSp w env s := by
    rw [show D.regs .sp = D.sp from rfl, addressSaved_sp, (site_switched hsite hok).sp, siteSp]
  have hsrc : D.regs (.x 12) = s.sp - BitVec.ofNat 64 savedBytes := by
    rw [show D = addressSaved w env (switched w env s) from rfl, addressSaved,
      run_regs (returnPointer_sets _ (by decide)), reserved]
    exact (site_switched hsite hok).saved
  have hlow : low (D.regs .sp) = siteBase w env s := by rw [hsp, low_siteSp hok]
  have hlow' : low (D.regs (.x 12)) + (savedBytes + wrapperArgSize w - w.sizes.argSize) =
      low s.sp + (wrapperArgSize w - w.sizes.argSize) := by
    rw [hsrc, low_sub hroom]
    omega
  have hcaller : ∀ a ∈ Ico (low s.sp) (low s.sp + wrapperArgSize w), a ∉ gateWrites w env s := by
    intro a ha hin
    have harea : a ∈ callerArea w s := ⟨(Nat.sub_le _ _).trans ha.1, ha.2.trans_le (by omega)⟩
    rcases hin with (hin | hin) | hin
    · exact disjoint_left.mp hok.cells_caller (.inl hin) harea
    · exact absurd hin.2 (Nat.not_lt.mpr ha.1)
    · exact disjoint_left.mp hok.areas harea ⟨hin.1, hin.2.trans_le (by omega)⟩
  have hdisj : Disjoint (Ico (low s.sp + (wrapperArgSize w - w.sizes.argSize))
    (low s.sp + (wrapperArgSize w - w.sizes.argSize) + w.sizes.argSize))
      (Ico (siteBase w env s) (siteBase w env s + w.sizes.argSize)) := by
    refine disjoint_left.mpr fun a ha hb =>
      hcaller a ⟨by have := ha.1; omega, by have := ha.2; omega⟩ (.inr ?_)
    exact ⟨(Nat.sub_le _ _).trans hb.1, by have := hb.2; omega⟩
  have hcopy := @memcpy_apply env .sp (.x 12) 9 (savedBytes + wrapperArgSize w - w.sizes.argSize)
    (by decide) (by decide) w.sizes.argSize D
    (by rw [hlow]; omega) (by rw [hlow']; omega) (by rw [hlow, hlow']; exact hdisj) i hi
  rw [hlow, hlow'] at hcopy
  rw [argsCopied, emitCopyStackArgs, if_pos (by omega), hcopy]
  set a := low s.sp + (wrapperArgSize w - w.sizes.argSize) + i
  have ha : a ∉ gateWrites w env s := hcaller a ⟨by omega, by omega⟩
  rw [← site_argsCopied_apart hsite hok ha, site_argsCopied_eqOn hsite hok,
    site_addressSaved_eqOn hsite hok] <;>
  · exact fun h => ha (.inr ⟨(Nat.sub_le _ _).trans h.1, h.2.trans_le (by omega)⟩)

theorem site_stackArg (hi : i < w.sizes.argSize)
    (hslots : ∀ p ∈ w.copies, siteBase w env s + i ∉ pointerArea (siteBase w env s) p) :
    (siteCopied w env s).mem (siteBase w env s + i) =
      s.mem (low s.sp + (wrapperArgSize w - w.sizes.argSize) + i) := by
  have htop := hok.targetTop
  have hfit := (le_siteExtent w).2
  rw [← site_argsCopied hsite hok hi, siteCopied, copied,
    @run_eqOn env _ (fun j hj => (copyIndirects_plain w j hj).2)]
  rw [written_indirects env _ (low_switched_sp hsite hok) fun p hp => by have := hfit p hp; omega]
  rintro ⟨p, hp, hcopy | hpointer⟩
  · have hstart := (mem_copies hp).2.2.2.1
    have hlo := hcopy.1
    simp only [StackSizes.indirectStart, StackSizes.returnStart, StackSizes.savedPtrOffset]
      at hstart
    omega
  · exact hslots p hp hpointer

theorem site_copies (hstack : ∀ p ∈ w.copies, p.1.isStack = true) {p : Location × Nat}
    (hp : p ∈ w.copies) :
    (siteCopied w env s).load64 (siteBase w env s + p.1.stackOffset) =
      siteSp w env s + BitVec.ofNat 64 p.2 ∧
      ∀ q : BitVec 64, s.mem.read
        (low s.sp + (wrapperArgSize w - w.sizes.argSize) + p.1.stackOffset) 8 = q.toNat →
        low q + p.1.size ≤ 2 ^ 56 → Disjoint (Ico (low q) (low q + p.1.size)) (gateWrites w env s) →
        ∀ i < p.1.size, (siteCopied w env s).mem (siteBase w env s + p.2 + i) =
          s.mem (low q + i) := by
  have htop := hok.targetTop
  obtain ⟨htotal, hfit⟩ := le_siteExtent w
  have hargs := @argBytes_le_total w
  have hslot : ∀ p ∈ w.copies, p.1.stackOffset + 8 ≤ w.sizes.argSize :=
    fun p hp => (mem_copies hp).2.2.2.2 (hstack p hp)
  set A := argsCopied w env (wrapperArgSize w) (switched w env s)
  have hsp : A.sp = siteSp w env s := by rw [argsCopied_sp, (site_switched hsite hok).sp, siteSp]
  have hcopies := @copies_run env (siteBase w env s) A w.copies (by rw [hsp, low_siteSp hok])
    (fun p hp => ⟨hstack p hp, (mem_copies hp).2.1⟩)
    (fun p hp => ⟨by have := hfit p hp; omega, by have := hslot p hp; omega⟩)
    (fun p hp => copy_above hp hp _) (copies_pairwise w _) p hp
  rw [hsp] at hcopies
  have hrun : siteCopied w env s = run (exec env)
      (w.copies.flatMap fun (arg, offset) => emitCopyIndirect arg offset) A := by
    rw [siteCopied, copied]
    rfl
  rw [hrun]
  refine ⟨hcopies.1, fun q hq hqtop hdisj i hi => ?_⟩
  have hload : A.load64 (siteBase w env s + p.1.stackOffset) = q := by
    rw [State.load64, @ByteMemory.read_shift A.mem s.mem _
      (low s.sp + (wrapperArgSize w - w.sizes.argSize) + p.1.stackOffset), hq,
      BitVec.ofNat_toNat, BitVec.setWidth_eq]
    intro j hj
    rw [Nat.add_assoc, site_argsCopied hsite hok (by have := hslot p hp; omega), Nat.add_assoc,
      Nat.add_assoc, Nat.add_assoc]
  have htouched : {a | ∃ p' ∈ w.copies, a ∈ touched (siteBase w env s) p'} ⊆
      gateWrites w env s := by
    rintro a ⟨p', hp', ha⟩
    refine .inr ⟨(Nat.sub_le _ _).trans ?_, ?_⟩
    · rcases ha with ha | ha
      · exact (Nat.le_add_right _ _).trans ha.1
      · rw [pointerArea, if_pos (hstack p' hp')] at ha
        exact (Nat.le_add_right _ _).trans ha.1
    · rcases ha with ha | ha
      · have := hfit p' hp'
        exact ha.2.trans_le (by omega)
      · rw [pointerArea, if_pos (hstack p' hp')] at ha
        have := hslot p' hp'
        exact ha.2.trans_le (by omega)
  rw [hcopies.2 q hload hqtop (hdisj.mono_right htouched) i hi]
  exact site_argsCopied_apart hsite hok (disjoint_left.mp hdisj ⟨by omega, by omega⟩)

theorem site_above : (siteCopied w env s).mem (siteBase w env s + w.sizes.argSize) =
    if 0 < w.sizes.returnSize ∧ w.sizes.argPadding = 0 then BitVec.ofNat 8 (s.regs (.x 8)).toNat
    else s.mem (siteBase w env s + w.sizes.argSize) := by
  have htop := hok.targetTop
  obtain ⟨htotal, hfit⟩ := le_siteExtent w
  have hargs := @argBytes_le_total w
  have hsaved : w.sizes.savedPtrOffset = w.sizes.argSize + w.sizes.argPadding := rfl
  have hfit' : ∀ p ∈ w.copies, siteBase w env s + p.2 + p.1.size ≤ 2 ^ 56 := fun p hp => by
    have := hfit p hp
    omega
  split
  case isTrue h =>
    have hload := copied_address env (wrapperArgSize w) h.1 (low_switched_sp hsite hok) hfit'
    rw [hsaved, h.2, Nat.add_zero, (site_switched hsite hok).regs 8 List.mem_cons_self] at hload
    have hread : (siteCopied w env s).mem.read (siteBase w env s + w.sizes.argSize) 8 =
        (s.regs (.x 8)).toNat := by
      rw [← hload, State.toNat_load64]
      rfl
    rw [← hread]
    refine BitVec.eq_of_toNat_eq ?_
    rw [BitVec.toNat_ofNat]
    exact (ByteMemory.read_mod _ _ (by decide)).symm
  case isFalse h =>
    have hin : siteBase w env s + w.sizes.argSize ∈ targetArea w env s := ⟨by omega, by omega⟩
    have hswitched : (switched w env s).mem (siteBase w env s + w.sizes.argSize) =
        s.mem (siteBase w env s + w.sizes.argSize) := by
      refine (site_switched hsite hok).mem ?_
      rintro (hcell | hframe)
      · exact disjoint_left.mp hok.cells_target (.inl hcell) hin
      · exact disjoint_left.mp hok.areas ⟨hframe.1, hframe.2.trans_le (by omega)⟩ hin
    rw [← hswitched, siteCopied, copied_eqOn]
    rw [written_copies env _ (low_switched_sp hsite hok) hfit']
    rintro ((haddr | hstack) | ⟨p, hp, hcopy | hpointer⟩)
    · split at haddr
      case isTrue hret =>
        have hpad : w.sizes.argPadding ≠ 0 := fun hpad => h ⟨hret, hpad⟩
        have hlo := haddr.1
        omega
      · cases haddr
    · exact absurd hstack.2 (lt_irrefl _)
    · have hstart := (mem_copies hp).2.2.2.1
      have hlo := hcopy.1
      simp only [StackSizes.indirectStart, StackSizes.returnStart, StackSizes.savedPtrOffset]
        at hstart
      omega
    · unfold pointerArea at hpointer
      split at hpointer
      case isTrue hstack =>
        have hslot := (mem_copies hp).2.2.2.2 hstack
        have hhi := hpointer.2
        omega
      · cases hpointer

end Bytes

end Ia2.Arm
