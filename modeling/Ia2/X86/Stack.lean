import Ia2.X86.Machine

/-!
# Stack code

Registers pushed one after the other and popped in the opposite order, over code in between that
leaves the pushed bytes alone. Addresses are natural numbers; that nothing wraps is a matter of the
room below the stack pointer.
-/

namespace Ia2.X86

open StraightLine Set

variable {env : Env}
variable {n top : Nat} {x : BitVec 64} {changed changed' rs : List Reg} {s s' : State}
  {R W : Set Nat} {r : Reg} {m : ByteMemory} {v : Reg → BitVec 64}

theorem toNat_sub_of_le (h : n ≤ x.toNat) :
    (x - BitVec.ofNat 64 n).toNat = x.toNat - n := by
  have hx := x.isLt
  rw [BitVec.toNat_sub, BitVec.toNat_ofNat, Nat.mod_eq_of_lt (by omega : n < 2 ^ 64)]
  omega

theorem toNat_add_of_lt (h : x.toNat + n < 2 ^ 64) :
    (x + BitVec.ofNat 64 n).toNat = x.toNat + n := by
  rw [BitVec.toNat_add, BitVec.toNat_ofNat, Nat.mod_eq_of_lt (by omega : n < 2 ^ 64),
    Nat.mod_eq_of_lt h]

namespace State

variable {a : Nat}

theorem load64_congr (h : EqOn s'.mem s.mem (Ico a (a + 8))) :
    s'.load64 a = s.load64 a := by
  rw [load64, load64, ByteMemory.read_congr h]

theorem eqOn_of_load64_eq (h : s'.load64 a = s.load64 a) :
    EqOn s'.mem s.mem (Ico a (a + 8)) := by
  have hread : s'.mem.read a 8 = s.mem.read a 8 := by
    have hnat := congrArg BitVec.toNat h
    have hlt := s.mem.read_lt a 8
    have hlt' := s'.mem.read_lt a 8
    rw [load64, load64, BitVec.toNat_ofNat, BitVec.toNat_ofNat] at hnat
    omega
  intro y hy
  have hi : y - a < 8 := by have := hy.1; have := hy.2; omega
  have hsum : a + (y - a) = y := Nat.add_sub_cancel' hy.1
  have hbyte := s.mem.read_div_mod a hi
  have hbyte' := s'.mem.read_div_mod a hi
  rw [hsum] at hbyte hbyte'
  exact BitVec.eq_of_toNat_eq (by rw [← hbyte, ← hbyte', hread])

theorem load64_store64 (s : State) (a : Nat) (v : BitVec 64) : (s.store64 a v).load64 a = v := by
  rw [load64, store64_mem, ByteMemory.read_write s.mem a v.isLt, BitVec.ofNat_toNat,
    BitVec.setWidth_eq]

theorem push_rsp (h : 8 ≤ s.rsp.toNat) (v : BitVec 64) :
    (s.push v).rsp.toNat = s.rsp.toNat - 8 :=
  toNat_sub_of_le h

theorem push_load64 (h : 8 ≤ s.rsp.toNat) (v : BitVec 64) :
    (s.push v).load64 (s.rsp.toNat - 8) = v := by
  rw [← toNat_sub_of_le h]
  exact load64_store64 _ _ v

theorem push_eqOn (h : 8 ≤ s.rsp.toNat) (v : BitVec 64) :
    EqOn (s.push v).mem s.mem (Ico (s.rsp.toNat - 8) s.rsp.toNat)ᶜ := by
  have hwrite := ByteMemory.write_eqOn s.mem (s.rsp - 8#64).toNat 8 v.toNat
  rw [toNat_sub_of_le h, Nat.sub_add_cancel h] at hwrite
  rw [push_mem, toNat_sub_of_le h]
  exact hwrite

end State

structure Keeps (changed : List Reg) (s s' : State) : Prop where
  regs : ∀ r, r ∉ changed → s'.regs r = s.regs r
  xmm : s'.xmm = s.xmm

theorem Keeps.refl (changed : List Reg) (s : State) : Keeps changed s s := ⟨fun _ _ => rfl, rfl⟩

theorem Keeps.trans {s'' : State} (h : Keeps changed s s') (h' : Keeps changed' s' s'') :
    Keeps (changed ++ changed') s s'' := by
  refine ⟨fun r hr => ?_, h'.xmm.trans h.xmm⟩
  simp only [List.mem_append, not_or] at hr
  exact (h'.regs r hr.2).trans (h.regs r hr.1)

theorem Keeps.mono (h : Keeps changed s s') (hsub : changed ⊆ changed') :
    Keeps changed' s s' :=
  ⟨fun r hr => h.regs r fun hmem => hr (hsub hmem), h.xmm⟩

theorem keeps_set (s : State) (r : Reg) (v : BitVec 64) : Keeps [r] s (s.set r v) :=
  ⟨fun _ hr => if_neg fun heq => hr (List.mem_singleton.mpr heq), rfl⟩

theorem keeps_push (s : State) (v : BitVec 64) : Keeps [.rsp] s (s.push v) :=
  ⟨(keeps_set s .rsp (s.rsp - 8#64)).regs, rfl⟩

/-! ### Accesses through the stack pointer -/

theorem confined_push (i : Instr) (hi : accesses env i s = [⟨(s.rsp - 8#64).toNat, 8, true⟩])
    (hroom : 8 ≤ s.rsp.toNat) (hsub : Ico (s.rsp.toNat - 8) s.rsp.toNat ⊆ W) :
    Confined env R W i s := by
  intro a ha
  rw [hi, List.mem_singleton] at ha
  subst ha
  rw [Access.bytes, toNat_sub_of_le hroom, Nat.sub_add_cancel hroom, if_pos rfl]
  exact hsub

theorem confined_pop (i : Instr) (hi : accesses env i s = [⟨s.rsp.toNat, 8, false⟩])
    (hsub : Ico s.rsp.toNat (s.rsp.toNat + 8) ⊆ R) : Confined env R W i s := by
  intro a ha
  rw [hi, List.mem_singleton] at ha
  subst ha
  exact hsub

theorem confined_pushqMem {offset : Nat} {base : Reg} (hroom : 8 ≤ s.rsp.toNat)
    (hread : Ico (s.addr offset base) (s.addr offset base + 8) ⊆ R)
    (hwrite : Ico (s.rsp.toNat - 8) s.rsp.toNat ⊆ W) :
    Confined env R W (.pushqMem offset base) s := by
  intro a ha
  simp only [accesses, List.mem_cons, List.not_mem_nil, or_false] at ha
  rcases ha with rfl | rfl
  · exact hread
  · rw [Access.bytes, toNat_sub_of_le hroom, Nat.sub_add_cancel hroom, if_pos rfl]
    exact hwrite

theorem confined_of_nil {i : Instr} (hi : accesses env i s = []) :
    Confined env R W i s := by
  intro a ha
  rw [hi] at ha
  exact absurd ha List.not_mem_nil

theorem exec_popq (env : Env) (hr : r ≠ .rsp) (hroom : s.rsp.toNat + 8 < 2 ^ 64) :
    (exec env (.popq r) s).rsp.toNat = s.rsp.toNat + 8 ∧ Keeps [.rsp, r] s (exec env (.popq r) s) ∧
      (exec env (.popq r) s).regs r = s.load64 s.rsp.toNat := by
  refine ⟨?_, ⟨fun r' hr' => ?_, rfl⟩, ?_⟩
  · have hother : Reg.rsp ≠ r := hr.symm
    simpa [exec, hother] using toNat_add_of_lt hroom
  · simp only [List.mem_cons, List.not_mem_nil, or_false, not_or] at hr'
    simp [exec, hr']
  · simp [exec]

def SavedBelow (m : ByteMemory) (v : Reg → BitVec 64) (top : Nat) : List Reg → Prop
  | [] => True
  | r :: rs => BitVec.ofNat 64 (m.read (top - 8) 8) = v r ∧ SavedBelow m v (top - 8) rs

theorem SavedBelow.get (h : SavedBelow m v top rs) {i : Nat} (hr : rs[i]? = some r) :
    BitVec.ofNat 64 (m.read (top - 8 * (i + 1)) 8) = v r := by
  induction rs generalizing top i with
  | nil => cases hr
  | cons r' rs ih =>
    cases i with
    | zero =>
      cases hr
      exact h.1
    | succ i =>
      have hnext := ih h.2 hr
      rwa [Nat.sub_sub, show 8 + 8 * (i + 1) = 8 * (i + 1 + 1) by omega] at hnext

theorem SavedBelow.congr {m' : ByteMemory} (h : SavedBelow m v top rs) (hroom : 8 * rs.length ≤ top)
    (heq : EqOn m' m (Ico (top - 8 * rs.length) top)) : SavedBelow m' v top rs := by
  induction rs generalizing top with
  | nil => trivial
  | cons r rs ih =>
    simp only [List.length_cons] at hroom heq
    refine ⟨?_, ih h.2 (by omega) (heq.mono (Ico_subset_Ico (by omega) (by omega)))⟩
    rw [← h.1]
    rw [ByteMemory.read_congr (heq.mono (Ico_subset_Ico (by omega) (by omega)))]

theorem SavedBelow.congr_values {v' : Reg → BitVec 64} (h : SavedBelow m v top rs)
    (hv : ∀ r ∈ rs, v r = v' r) :
    SavedBelow m v' top rs := by
  induction rs generalizing top with
  | nil => trivial
  | cons r rs ih =>
    rw [List.forall_mem_cons] at hv
    exact ⟨h.1.trans hv.1, ih h.2 hv.2⟩

theorem runs_pushes {rs : List Reg} (hrs : Reg.rsp ∉ rs) {s : State} {v : Reg → BitVec 64}
    (hv : ∀ r ∈ rs, s.regs r = v r) (hroom : 8 * rs.length ≤ s.rsp.toNat) :
    Runs (exec env) (Confined env ∅ (Ico (s.rsp.toNat - 8 * rs.length) s.rsp.toNat))
      (rs.map .pushq) s fun s' =>
      s'.rsp.toNat = s.rsp.toNat - 8 * rs.length ∧ Keeps [.rsp] s s' ∧
        SavedBelow s'.mem v s.rsp.toNat rs := by
  induction rs generalizing s with
  | nil => exact Runs.nil ⟨rfl, Keeps.refl _ s, trivial⟩
  | cons r rs ih =>
    simp only [List.mem_cons, not_or] at hrs
    simp only [List.length_cons] at hroom ⊢
    have hrsp := State.push_rsp (s := s) (by omega) (s.regs r)
    have hkeep : Keeps [.rsp] s (s.push (s.regs r)) := keeps_push s _
    have hv' : ∀ r' ∈ rs, (s.push (s.regs r)).regs r' = v r' := fun r' hr' => by
      rw [hkeep.regs r' (by simp only [List.mem_singleton]; rintro rfl; exact hrs.2 hr')]
      exact hv r' (List.mem_cons_of_mem _ hr')
    have hrest := Confined.runs (ih hrs.2 hv' (by omega)) (List.forall_mem_map.mpr fun _ _ => rfl)
    rw [hrsp] at hrest
    refine Runs.cons (confined_push _ rfl (by omega) (Ico_subset_Ico (by omega) le_rfl)) ?_
    refine hrest.mono (fun i s' _ h => h.mono subset_rfl (Ico_subset_Ico (by omega) (by omega)))
      fun s' h => ?_
    obtain ⟨⟨hrsp', hkeep', hsaved⟩, -, heq⟩ := h
    refine ⟨by omega, (hkeep.trans hkeep').mono (by simp), ?_, hsaved⟩
    have hslot : s'.load64 (s.rsp.toNat - 8) = (s.push (s.regs r)).load64 (s.rsp.toNat - 8) :=
      State.load64_congr (heq.mono fun x hx => by simp only [mem_Ico, mem_compl_iff] at hx ⊢; omega)
    exact hslot.trans ((State.push_load64 (by omega) _).trans (hv r List.mem_cons_self))

theorem runs_pops {rs : List Reg} (hrs : Reg.rsp ∉ rs) {s : State} {v : Reg → BitVec 64}
    (hroom : s.rsp.toNat + 8 * rs.length < 2 ^ 64)
    (hsaved : SavedBelow s.mem v (s.rsp.toNat + 8 * rs.length) rs) :
    Runs (exec env) (Confined env (Ico s.rsp.toNat (s.rsp.toNat + 8 * rs.length)) ∅)
      (rs.reverse.map .popq) s fun s' =>
      s'.rsp.toNat = s.rsp.toNat + 8 * rs.length ∧ Keeps (.rsp :: rs) s s' ∧
        (∀ r ∈ rs, s'.regs r = v r) := by
  induction rs generalizing s with
  | nil => exact Runs.nil ⟨rfl, Keeps.refl _ s, by simp⟩
  | cons r rs ih =>
    simp only [List.mem_cons, not_or] at hrs
    simp only [List.length_cons] at hroom hsaved ⊢
    have htop : s.rsp.toNat + 8 * (rs.length + 1) - 8 = s.rsp.toNat + 8 * rs.length := by omega
    rw [SavedBelow, htop] at hsaved
    have hrest := Confined.runs (ih hrs.2 (by omega) hsaved.2)
      (List.forall_mem_map.mpr fun _ _ => rfl)
    rw [List.reverse_cons, List.map_append]
    refine (hrest.mono (fun i s' _ h => h.mono (Ico_subset_Ico le_rfl (by omega)) subset_rfl)
      fun s' h => h).append ?_
    rintro s' ⟨⟨hrsp', hkeep, hv⟩, -, heq⟩
    obtain ⟨hrsp'', hkeep', hvr⟩ := exec_popq env (Ne.symm hrs.1) (s := s') (by omega)
    refine Runs.cons (confined_pop _ rfl (Ico_subset_Ico (by omega) (by omega)))
      (Runs.nil ⟨by omega, ?_, ?_⟩)
    · exact (hkeep.trans hkeep').mono (by simp)
    · intro r' hr'
      by_cases hsame : r' = r
      · subst hsame
        have hmem : s'.load64 s'.rsp.toNat = s.load64 s'.rsp.toNat :=
          State.load64_congr (heq.mono (by simp))
        rw [hvr, hmem, hrsp']
        exact hsaved.1
      · have hin : r' ∈ rs := (List.mem_cons.mp hr').resolve_left hsame
        have hothers : r' ∉ [.rsp, r] := by
          simp only [List.mem_cons, List.not_mem_nil, or_false, not_or]
          exact ⟨fun h => hrs.2 (h ▸ hin), hsame⟩
        rw [hkeep'.regs r' hothers]
        exact hv r' hin

end Ia2.X86
