import Ia2.Arm.Crossing

/-!
# The frame of an AArch64 gate on the target's stack

The space for the copies of indirect arguments is computed in one place and filled in another. Here
it is decided when the two agree, so that a gate writes memory that it reserved only.
-/

namespace Ia2.Arm

open StraightLine Set
open Rewriter (TargetInfo)
open Rewriter.ArgLocation (indirect)

variable {env : Env}

variable {w : Wrapper} {target : TargetInfo} {s : State}

def areas (w : Wrapper) (b : Nat) : List (Set Nat) :=
  Ico b (b + w.sizes.argSize) ::
    ((if 0 < w.sizes.returnSize then
        [Ico (b + w.sizes.savedPtrOffset) (b + w.sizes.returnStart),
          Ico (b + w.sizes.returnStart) (b + w.sizes.returnStart + w.sizes.returnSize)]
      else []) ++ w.copies.map (copyArea b))

/-- The code of `emit_copy_args` writes the memory that it reserved only, in areas that do not
overlap, with every copy aligned. -/
structure StaysInFrame (w : Wrapper) (env : Env) (s : State) : Prop where
  emitted : w.emitAsmWrapper = some (directCode w)
  writes : written env (directArgs w) (switched w env s) ⊆
    Ico (low (reserved w (switched w env s)).sp) (low ((switched w env s).regs (.x 11)))
  areas : (areas w (low (reserved w (switched w env s)).sp)).Pairwise Disjoint
  aligned : ∀ p ∈ w.copies, p.1.align ∣ low (reserved w (switched w env s)).sp + p.2

theorem pairwise_areas (w : Wrapper) (b : Nat) : (areas w b).Pairwise Disjoint := by
  have hbytes : w.sizes.savedPtrOffset = w.sizes.argSize + w.sizes.argPadding := rfl
  have hstart : w.sizes.returnStart = w.sizes.savedPtrOffset + 8 := rfl
  have hstart' : w.sizes.indirectStart = w.sizes.returnStart + w.sizes.returnSize +
    w.sizes.returnPadding := rfl
  have hcopies : ∀ {a e : Nat}, e ≤ b + w.sizes.indirectStart → ∀ area ∈ w.copies.map (copyArea b),
      Disjoint (Ico a e) area := by
    intro a e he area harea
    obtain ⟨p, hp, rfl⟩ := List.mem_map.mp harea
    have := (mem_copies hp).2.2.2.1
    exact Ico_disjoint_of_le (by omega)
  have hpairs : (w.copies.map (copyArea b)).Pairwise Disjoint :=
    List.pairwise_map.mpr ((pairwise_indirectCopies _ _).imp fun h => Ico_disjoint_of_le (by omega))
  unfold areas
  split
  · refine .cons (List.forall_mem_cons.mpr ⟨Ico_disjoint_of_le (by omega),
      List.forall_mem_cons.mpr ⟨Ico_disjoint_of_le (by omega), ?_⟩⟩)
      (.cons (List.forall_mem_cons.mpr ⟨Ico_disjoint_of_le le_rfl, ?_⟩) (.cons ?_ hpairs))
    · exact hcopies (by omega)
    · exact hcopies (by omega)
    · exact hcopies (by omega)
  · exact .cons (hcopies (by omega)) hpairs

theorem dvd_eight {a : Nat} (h : a ∣ 16) (hne : a ≠ 16) : a ∣ 8 := by
  have key : ∀ a < 17, a ∣ 16 → a ≠ 16 → a ∣ 8 := by decide
  exact key a (Nat.lt_succ_of_le (Nat.le_of_dvd (by decide) h)) h hne

theorem copy_align {p : Location × Nat} (hp : p ∈ w.copies) :
    ∃ arg ∈ w.sig.args, arg.isIndirect = true ∧ p.1.align = arg.align := by
  obtain ⟨hmem, hind, -⟩ := mem_indirectCopies hp
  obtain ⟨arg, hg, harg⟩ := mem_args_of_isIndirect hmem hind
  exact ⟨arg, fst_mem_of_mem_paramGroups hg, harg, align_of_isIndirect hg harg⟩

/-- A direct gate stays in its frame exactly when the copies of indirect arguments fit into the
memory that was reserved, and the stack arguments keep the alignment of an argument that is aligned
to 16 bytes. -/
theorem staysInFrame_iff (hdirect : IsDirect w target)
    (halign : ∀ arg ∈ w.sig.args, arg.isIndirect = true → arg.align ∣ 16)
    (htsp : ((switched w env s).regs (.x 11)).toNat % 16 = 0)
    (hroom : w.sizes.total ≤ low ((switched w env s).regs (.x 11)))
    (htop : ∀ p ∈ w.copies, low ((switched w env s).regs (.x 11)) - w.sizes.total + p.2 +
    p.1.size ≤ 2 ^ 56) :
    StaysInFrame w env s ↔ (∀ p ∈ w.copies, p.2 + p.1.size ≤ w.sizes.total) ∧
      (w.sizes.argBytes % 16 = 0 ∨ ∀ arg ∈ w.sig.args, arg.isIndirect = true → arg.align ≠ 16) := by
  obtain ⟨b, hb⟩ := Nat.exists_eq_add_of_le' hroom
  have hsw := (switched_spec w env s).sp
  have hsp : low (reserved w (switched w env s)).sp = b := by
    rw [reserved, State.sp, State.set_regs, if_pos rfl, hsw, low_sub hroom]
    omega
  have hwritten := @written_copies w env w.sizes.argSize (switched w env s) b
    (by rw [hsw]; exact hb) fun p hp => by
    have := htop p hp
    omega
  have hmod : low ((switched w env s).regs (.x 11)) % 16 = 0 := by
    rw [low]
    omega
  have hbytes : w.sizes.argBytes = w.sizes.argSize + w.sizes.argPadding := rfl
  have hreturn := w.returnBytes_mod
  have hindirect := w.indirectBytes_mod
  have hargs := w.argBytes_mod
  have htotal := w.total_eq
  constructor
  · intro h
    refine ⟨fun p hp => ?_, ?_⟩
    · -- the last byte of the copy is written
      have hsize := (mem_copies hp).2.1
      have hlast : b + p.2 + (p.1.size - 1) ∈ written env (directArgs w) (switched w env s) := by
        rw [directArgs, hwritten]
        exact .inr ⟨p, hp, .inl ⟨Nat.le_add_right _ _, by omega⟩⟩
      have := (h.writes hlast).2
      omega
    · by_contra! hno
      obtain ⟨hodd, arg, harg, hind, halign⟩ := hno
      obtain ⟨loc, hloc, hind', hsame⟩ := indirect_location harg hind
      obtain ⟨o, hp⟩ := exists_mem_indirectCopies hloc hind' w.sizes.indirectStart
      have hcopy := h.aligned _ hp
      have hoffset := (mem_copies hp).2.2.1
      rw [hsp, hsame, halign] at hcopy
      rw [hsame, halign] at hoffset
      omega
  · rintro ⟨hfit, h16⟩
    refine ⟨hdirect.emitAsmWrapper_eq, ?_, pairwise_areas w _, fun p hp => ?_⟩
    · have hsub := @written_subset w env w.sizes.argSize (switched w env s) b
        (by rw [hsw]; exact hb) hfit
      rw [hsp, hb]
      exact hsub
    · obtain ⟨arg, harg, hind, hsame⟩ := copy_align hp
      have hdvd := halign arg harg hind
      rw [hsp]
      refine (Nat.dvd_add_left (mem_copies hp).2.2.1).mpr ?_
      rw [hsame]
      rcases h16 with h16 | h16
      · exact hdvd.trans (by omega)
      · exact (dvd_eight hdvd (h16 arg harg hind)).trans (by omega)

/-- For a structure of 40 bytes the padding leaves room for the copy. -/
theorem staysInFrame_struct :
    StaysInFrame (gate (structSig 40 8 (by decide) (by decide))) idleEnv entryState := by
  have hloaded := gate_loaded (structSig 40 8 (by decide) (by decide)) rfl rfl
  refine (staysInFrame_iff (gate_isDirect _) (by decide) ?_ ?_ ?_).mpr (by decide)
  · rw [hloaded]
    decide
  · rw [hloaded]
    decide
  · rw [hloaded]
    decide

/-- A gate for a structure of 32 bytes writes eight bytes above the memory that it reserved. -/
theorem struct_leaves_frame :
    0x30007 ∈ written idleEnv (directArgs (gate (structSig 32 4 (by decide) (by decide))))
        (switched (gate (structSig 32 4 (by decide) (by decide))) idleEnv entryState) ∧
      (switched (gate (structSig 32 4 (by decide) (by decide))) idleEnv entryState).regs (.x 11) =
        0x30000#64 ∧
      (directCode (gate (structSig 32 4 (by decide) (by decide)))).all Instr.encodable = true ∧
      ¬ StaysInFrame (gate (structSig 32 4 (by decide) (by decide))) idleEnv entryState := by
  have hloaded := gate_loaded (structSig 32 4 (by decide) (by decide)) rfl rfl
  have hwritten : 0x30007 ∈ written idleEnv
    (directArgs (gate (structSig 32 4 (by decide) (by decide))))
      (switched (gate (structSig 32 4 (by decide) (by decide))) idleEnv entryState) := by
    rw [directArgs, written_copies (b := 0x2ffe0) _ _
      (by rw [(switched_spec _ _ _).sp, hloaded]; decide) (by decide)]
    exact .inr ⟨(⟨indirect 32 4, some (.x 0)⟩, 8), by decide, .inl ⟨by decide, by decide⟩⟩
  refine ⟨hwritten, hloaded, by decide, fun h => ?_⟩
  have := (h.writes hwritten).2
  rw [hloaded] at this
  revert this
  decide

end Ia2.Arm
