import Ia2.Gate.Crossing

/-!
# The frame of a gate

The code of a gate on the caller's stack: the prologue and the epilogue, the type checks, and the
pre- and post-condition functions. The functions called here obey the calling convention and leave
alone the stack above their own frame.
-/

namespace Ia2.Gate

open X86 Rewriter StraightLine Set

/-! ### Functions that obey the calling convention -/

def calleeSaved : List Reg := .rbp :: preservedRegisters

structure Stable (keep : Set Nat) (s s' : State) : Prop where
  regs : ∀ r ∈ calleeSaved, s'.regs r = s.regs r
  pkru : s'.pkru = s.pkru
  mem : EqOn s'.mem s.mem keep

theorem Stable.refl (keep : Set Nat) (s : State) : Stable keep s s :=
  ⟨fun _ _ => rfl, rfl, eqOn_refl _ _⟩

variable {keep : Set Nat} {s s' : State} {changed : List Reg} {callee : Callee} {p k : Nat}
  {v : Reg → BitVec 64} {fn : RegistryFn} {api : List TypeInfo} {target : TargetInfo}
  {P : Instr → State → Prop} {w : Wrapper}

theorem Stable.trans {s'' : State} (h : Stable keep s s') (h' : Stable keep s' s'') :
    Stable keep s s'' :=
  ⟨fun r hr => (h'.regs r hr).trans (h.regs r hr), h'.pkru.trans h.pkru, h'.mem.trans h.mem⟩

theorem Stable.mono {keep' : Set Nat} (h : Stable keep s s') (hsub : keep' ⊆ keep) :
    Stable keep' s s' :=
  ⟨h.regs, h.pkru, h.mem.mono hsub⟩

theorem Stable.of_keeps (h : Keeps changed s s') (hchanged : ∀ r ∈ calleeSaved, r ∉ changed)
    (hpkru : s'.pkru = s.pkru) (hmem : EqOn s'.mem s.mem keep) : Stable keep s s' :=
  ⟨fun r hr => h.regs r (hchanged r hr), hpkru, hmem⟩

theorem Stable.of_mem_eq (h : Keeps changed s s') (hchanged : ∀ r ∈ calleeSaved, r ∉ changed)
    (hpkru : s'.pkru = s.pkru) (hmem : s'.mem = s.mem) : Stable keep s s' :=
  .of_keeps h hchanged hpkru fun _ _ => congrFun hmem _

theorem Stable.raise {top p p' : Nat} (h : Stable (Ico p top ∪ keep) s s') (hp : p ≤ p') :
    Stable (Ico p' top ∪ keep) s s' :=
  h.mono (union_subset_union_left _ (Ico_subset_Ico hp le_rfl))

theorem Stable.saved {rs : List Reg} {top b p : Nat} (h : Stable (Ico b top ∪ keep) s s')
    (hsaved : SavedBelow s.mem v p rs) (hb : b + 8 * rs.length ≤ p) (hp : p ≤ top) :
    SavedBelow s'.mem v p rs :=
  hsaved.congr (by omega) fun a ha => h.mem (.inl ⟨by have := ha.1; omega, ha.2.trans_le hp⟩)

theorem disjoint_above {lo hi top a b : Nat} {keep : Set Nat} (hdisj : Disjoint keep (Ico lo hi))
    (hlo : lo ≤ a) (hhi : b ≤ hi) :
    Disjoint (Ico b top ∪ keep) (Ico a b) := by
  refine disjoint_union_left.mpr ⟨?_, hdisj.mono_right (Ico_subset_Ico hlo hhi)⟩
  exact disjoint_left.mpr fun x hx hx' => absurd hx.1 (not_le.mpr hx'.2)

structure Sysv (keep : Set Nat) (c c' : State) : Prop where
  rsp : c'.rsp = c.rsp + 8#64
  stable : Stable keep c c'

structure Balanced (keep : Set Nat) (c c' : State) : Prop where
  rsp : c'.rsp = c.rsp + 8#64
  pkru : c'.pkru = c.pkru
  mem : EqOn c'.mem c.mem keep

theorem Sysv.balanced {c c' : State} (h : Sysv keep c c') : Balanced keep c c' :=
  ⟨h.rsp, h.stable.pkru, h.stable.mem⟩

def SysvFn (lo hi top : Nat) (keep : Set Nat) (f : State → State) : Prop :=
  ∀ c : State, c.rsp.toNat ∈ Ico lo hi → Sysv (Ico (c.rsp.toNat + 8) top ∪ keep) c (f c)

/-! ### Steps on the caller's stack -/

def isHelper : Callee → Bool
  | .preCondition _ | .postCondition _ | .typeRegistry _ => true
  | _ => false

theorem isCall_of_isHelper (h : isHelper callee = true) :
    (Instr.call callee).isCall = true := by
  cases callee <;> first | rfl | cases h

structure CallerStep (env : Env) (pkru : BitVec 32) (lo hi top : Nat) (i : Instr)
    (s : State) : Prop where
  pkru : s.pkru = pkru
  noFault : ¬ i.Faults s
  noLoad : ∀ offset dst, i ≠ .loadFs offset dst
  helper : i.isCall = true → ∃ callee, isHelper callee = true ∧ i = .call callee
  conf : Confined env (Ico lo top) (Ico lo hi) i s

variable {env : Env} {pkru : BitVec 32} {lo hi top : Nat} {keep : Set Nat} {prog : List Instr}
  {s : State} {Q : State → Prop}

theorem runs_onCaller {R W : Set Nat} (h : Runs (exec env) (Confined env R W) prog s Q)
    (hlocal : ∀ i ∈ prog, i.isLocal = true) (hR : R ⊆ Ico lo top) (hW : W ⊆ Ico lo hi)
    (hpkru : s.pkru = pkru) :
    Runs (exec env) (CallerStep env pkru lo hi top) prog s fun s' =>
      Q s' ∧ s'.pkru = pkru ∧ EqOn s'.mem s.mem Wᶜ := by
  have hplain : ∀ i ∈ prog, i.isPlain = true := fun i hi => Instr.isPlain_of_isLocal (hlocal i hi)
  obtain ⟨halong, hpkru', heq⟩ := Confined.along h.1 (fun i s' h => h) hplain
  refine ⟨halong.mono fun i s' hi hstep => ?_, h.2, hpkru'.trans hpkru, heq⟩
  obtain ⟨hconf, hvalue, -⟩ := hstep
  refine ⟨hvalue.trans hpkru, Instr.not_faults_of_isPlain (hplain i hi) s', ?_, fun hcall => ?_,
    hconf.mono hR hW⟩
  · rintro offset dst rfl
    cases hlocal _ hi
  · rw [(Instr.isPlain_iff.mp (hplain i hi)).1] at hcall
    cases hcall

theorem runs_helper (hcallee : isHelper callee = true)
    (hfn : SysvFn lo hi top keep (env.function callee)) (hlo : lo + 8 ≤ s.rsp.toNat)
    (hhi : s.rsp.toNat ≤ hi) (hdisj : Disjoint keep (Ico lo hi)) (hpkru : s.pkru = pkru) :
    Runs (exec env) (CallerStep env pkru lo hi top) [.call callee] s fun s' =>
      s'.rsp = s.rsp ∧ Stable (Ico s.rsp.toNat top ∪ keep) s s' := by
  have hpush : (s.push env.retAddr).rsp.toNat = s.rsp.toNat - 8 := State.push_rsp (by omega) _
  have hcall : exec env (.call callee) s = env.function callee (s.push env.retAddr) := by
    cases callee <;> first | rfl | cases hcallee
  obtain ⟨hrsp, hstable⟩ := hfn (s.push env.retAddr) ⟨by omega, by omega⟩
  rw [hpush, Nat.sub_add_cancel (by omega)] at hstable
  refine Runs.cons ⟨hpkru, id, by simp, fun _ => ⟨callee, hcallee, rfl⟩, ?_⟩ (Runs.nil ?_)
  · exact confined_push _ rfl (by omega) (Ico_subset_Ico (by omega) hhi)
  rw [hcall]
  refine ⟨?_, ?_⟩
  · rw [hrsp]
    exact BitVec.sub_add_cancel _ _
  · have hkeep : Keeps [.rsp] s (s.push env.retAddr) := keeps_push s _
    have hmem := (State.push_eqOn (s := s) (by omega) env.retAddr).mono
      (@disjoint_above lo hi top _ _ keep hdisj (by omega) hhi).subset_compl_right
    exact Stable.trans (.of_keeps hkeep (by decide) rfl hmem) hstable

theorem map_pushq_isLocal (rs : List Reg) : ∀ i ∈ rs.map Instr.pushq, i.isLocal = true :=
  List.forall_mem_map.mpr fun _ _ => rfl

theorem map_popq_isLocal (rs : List Reg) : ∀ i ∈ rs.map Instr.popq, i.isLocal = true :=
  List.forall_mem_map.mpr fun _ _ => rfl

theorem runs_adjust {i : Instr} (hlocal : i.isLocal = true) (hnone : accesses env i s = [])
    (hpkru : s.pkru = pkru) (hQ : Q (exec env i s)) :
    Runs (exec env) (CallerStep env pkru lo hi top) [i] s fun s' => Q s' ∧ s'.mem = s.mem := by
  have hrun : Runs (exec env) (Confined env ∅ ∅) [i] s Q :=
    Runs.cons (confined_of_nil hnone) (Runs.nil hQ)
  refine (runs_onCaller hrun (List.forall_mem_singleton.mpr hlocal) (empty_subset _)
    (empty_subset _) hpkru).post ?_
  rintro s' ⟨hq, -, heq⟩
  rw [compl_empty, eqOn_univ] at heq
  exact ⟨hq, heq⟩

theorem runs_alignStack (hroom : 8 ≤ s.rsp.toNat) (hpkru : s.pkru = pkru) :
    Runs (exec env) (CallerStep env pkru lo hi top) emitAlignStack8To16 s fun s' =>
      (s'.rsp.toNat = s.rsp.toNat - 8 ∧ Keeps [.rsp] s s' ∧ s'.pkru = pkru) ∧ s'.mem = s.mem :=
  have h := @exec_subq_rsp env 8 s hroom
  runs_adjust rfl rfl hpkru ⟨h.1, h.2, hpkru⟩

theorem runs_revertAlignStack (hroom : s.rsp.toNat + 8 < 2 ^ 64) (hpkru : s.pkru = pkru) :
    Runs (exec env) (CallerStep env pkru lo hi top) emitRevertAlignStack8To16 s fun s' =>
      (s'.rsp.toNat = s.rsp.toNat + 8 ∧ Keeps [.rsp] s s' ∧ s'.pkru = pkru) ∧ s'.mem = s.mem :=
  have h := @exec_addq_rsp env 8 s hroom
  runs_adjust rfl rfl hpkru ⟨h.1, h.2, hpkru⟩

theorem runs_aligned (hroom : 8 ≤ s.rsp.toNat) (hpkru : s.pkru = pkru)
    (hbody : ∀ s' : State, s'.rsp.toNat = s.rsp.toNat - 8 → s'.pkru = pkru →
      Runs (exec env) (CallerStep env pkru lo hi top) prog s' fun s'' =>
        s''.rsp = s'.rsp ∧ Stable (Ico s'.rsp.toNat top ∪ keep) s' s'') :
    Runs (exec env) (CallerStep env pkru lo hi top)
      (emitAlignStack8To16 ++ prog ++ emitRevertAlignStack8To16) s fun s' =>
      s'.rsp = s.rsp ∧ Stable (Ico s.rsp.toNat top ∪ keep) s s' := by
  have hlt := s.rsp.isLt
  rw [List.append_assoc]
  refine (runs_alignStack hroom hpkru).append ?_
  rintro s₁ ⟨⟨hrsp₁, hkeep₁, hpkru₁⟩, hmem₁⟩
  refine (hbody s₁ hrsp₁ hpkru₁).append ?_
  rintro s₂ ⟨hrsp₂, hstable₂⟩
  refine (runs_revertAlignStack (by rw [hrsp₂]; omega) (hstable₂.pkru.trans hpkru₁)).post ?_
  rintro s₃ ⟨⟨hrsp₃, hkeep₃, hpkru₃⟩, hmem₃⟩
  have h₁ : Stable (Ico s.rsp.toNat top ∪ keep) s s₁ :=
    .of_mem_eq hkeep₁ (by decide) (hpkru₁.trans hpkru.symm) hmem₁
  have h₃ : Stable (Ico s.rsp.toNat top ∪ keep) s₂ s₃ :=
    .of_mem_eq hkeep₃ (by decide) (by rw [hpkru₃, hstable₂.pkru, hpkru₁]) hmem₃
  refine ⟨BitVec.eq_of_toNat_eq ?_, (h₁.trans (hstable₂.raise (by omega))).trans h₃⟩
  rw [hrsp₃, hrsp₂]
  omega

def argsBytes : Nat := 8 * intParamRegOrder.length

theorem runs_saveArgs (hlo : lo + argsBytes ≤ s.rsp.toNat) (hhi : s.rsp.toNat ≤ hi)
    (hpkru : s.pkru = pkru) :
    Runs (exec env) (CallerStep env pkru lo hi top) emitSaveArgs s fun s' =>
      (s'.rsp.toNat = s.rsp.toNat - argsBytes ∧ Keeps [.rsp] s s' ∧
        SavedBelow s'.mem s.regs s.rsp.toNat intParamRegOrder) ∧
      s'.pkru = pkru ∧ EqOn s'.mem s.mem (Ico (s.rsp.toNat - argsBytes) s.rsp.toNat)ᶜ := by
  have hbytes : argsBytes = 8 * intParamRegOrder.length := rfl
  have hpushes := @runs_pushes env intParamRegOrder (by decide) s s.regs (fun _ _ => rfl) (by omega)
  exact runs_onCaller hpushes (map_pushq_isLocal _) (empty_subset _)
    (Ico_subset_Ico (by omega) hhi) hpkru

theorem runs_restoreArgs (pop : Bool) {v : Reg → BitVec 64} {p : Nat}
    (hrsp : s.rsp.toNat + argsBytes = p) (hp : p < 2 ^ 64) (hlo : lo ≤ s.rsp.toNat) (htop : p ≤ top)
    (hsaved : SavedBelow s.mem v p intParamRegOrder) (hpkru : s.pkru = pkru) :
    Runs (exec env) (CallerStep env pkru lo hi top) (emitRestoreArgs pop) s fun s' =>
      s'.rsp.toNat = (if pop then p else p - argsBytes) ∧
        (∀ r ∈ intParamRegOrder, s'.regs r = v r) ∧
        Keeps (.rsp :: intParamRegOrder) s s' ∧ s'.pkru = pkru ∧ s'.mem = s.mem := by
  rw [argsBytes] at hrsp
  have hpops := @runs_pops env intParamRegOrder (by decide) s v (by omega)
    (by rw [hrsp]; exact hsaved)
  rw [hrsp] at hpops
  refine ((runs_onCaller hpops (map_popq_isLocal _) (Ico_subset_Ico hlo htop) (empty_subset _)
    hpkru).append ?_)
  rintro s₁ ⟨⟨hrsp₁, hkeep₁, hv₁⟩, hpkru₁, heq₁⟩
  rw [compl_empty, eqOn_univ] at heq₁
  cases pop with
  | true => exact Runs.nil ⟨hrsp₁, hv₁, hkeep₁, hpkru₁, heq₁⟩
  | false =>
    have hroom : argsBytes ≤ s₁.rsp.toNat := by rw [hrsp₁, argsBytes]; omega
    have hadjust := @runs_adjust env pkru lo hi top s₁
      (fun s' => s'.rsp.toNat = s₁.rsp.toNat - argsBytes ∧ Keeps [.rsp] s₁ s' ∧
      s'.pkru = pkru) (.subq argsBytes .rsp) rfl rfl hpkru₁
      ⟨(exec_subq_rsp hroom).1, (exec_subq_rsp hroom).2, hpkru₁⟩
    refine hadjust.post ?_
    rintro s₂ ⟨⟨hrsp₂, hkeep₂, hpkru₂⟩, hmem₂⟩
    refine ⟨by rw [hrsp₂, hrsp₁]; rfl, fun r hr => ?_, (hkeep₁.trans hkeep₂).mono (by simp), hpkru₂,
      hmem₂.trans heq₁⟩
    have hne : ∀ r ∈ intParamRegOrder, r ∉ [Reg.rsp] := by decide
    rw [hkeep₂.regs r (hne r hr), hv₁ r hr]

/-! ### Prologue and epilogue -/

theorem runs_prologue (hlo : lo + savedBytes ≤ s.rsp.toNat) (hhi : s.rsp.toNat ≤ hi)
    (hpkru : s.pkru = pkru) :
    Runs (exec env) (CallerStep env pkru lo hi top) emitPrologue s fun s' =>
      (s'.rsp.toNat = s.rsp.toNat - savedBytes ∧ Keeps [.rsp, .rbp] s s' ∧
        SavedBelow s'.mem s.regs s.rsp.toNat calleeSaved) ∧
      s'.pkru = pkru ∧ EqOn s'.mem s.mem (Ico (s.rsp.toNat - savedBytes) s.rsp.toNat)ᶜ := by
  have hbytes : savedBytes = 8 + 8 * preservedRegisters.length := rfl
  have hlocal : ∀ i ∈ emitPrologue, i.isLocal = true := List.all_eq_true.mp rfl
  refine runs_onCaller (R := ∅) (Q := fun s' => s'.rsp.toNat = s.rsp.toNat - savedBytes ∧
    Keeps [.rsp, .rbp] s s' ∧
    SavedBelow s'.mem s.regs s.rsp.toNat calleeSaved) ?_ hlocal (empty_subset _)
    (Ico_subset_Ico (by omega) hhi) hpkru
  let s₁ := s.push (s.regs .rbp)
  let s₂ := exec env (.movq .rsp .rbp) s₁
  have hrsp₂ : s₂.rsp.toNat = s.rsp.toNat - 8 := State.push_rsp (by omega) (s.regs .rbp)
  have hkeep₂ : Keeps [.rsp, .rbp] s s₂ := (keeps_push s _).trans (keeps_set s₁ .rbp _)
  have hslot₂ : s₂.load64 (s.rsp.toNat - 8) = s.regs .rbp :=
    State.push_load64 (by omega) (s.regs .rbp)
  have hne : ∀ r ∈ preservedRegisters, r ∉ [Reg.rsp, .rbp] := by decide
  have hpushes := Confined.runs (@runs_pushes env preservedRegisters (by decide) s₂ s.regs
    (fun r hr => hkeep₂.regs r (hne r hr)) (by omega)) (List.forall_mem_map.mpr fun _ _ => rfl)
  rw [hrsp₂] at hpushes
  refine Runs.cons (confined_push _ rfl (by omega) (Ico_subset_Ico (by omega) le_rfl))
    (Runs.cons (confined_of_nil rfl)
    (hpushes.mono (fun i s' _ h => h.mono subset_rfl (Ico_subset_Ico (by omega) (by omega))) ?_))
  rintro s' ⟨⟨hrsp, hkeep, hsaved⟩, -, heq⟩
  refine ⟨by omega, (hkeep₂.trans hkeep).mono (by simp), ?_, hsaved⟩
  have hslot : s'.load64 (s.rsp.toNat - 8) = s₂.load64 (s.rsp.toNat - 8) :=
    State.load64_congr fun a ha => heq fun h => by have := ha.1; have := h.2; omega
  exact hslot.trans hslot₂

theorem runs_epilogue (hrsp : s.rsp.toNat + savedBytes = p) (hp : p + 8 < 2 ^ 64)
    (hlo : lo ≤ s.rsp.toNat) (htop : p + 8 ≤ top) (hsaved : SavedBelow s.mem v p calleeSaved)
    (hpkru : s.pkru = pkru) :
    Runs (exec env) (CallerStep env pkru lo hi top) (emitEpilogue ++ [.ret]) s fun s' =>
      s'.rsp.toNat = p + 8 ∧ s'.rip = s.load64 p ∧ (∀ r ∈ calleeSaved, s'.regs r = v r) ∧
        Keeps (.rsp :: calleeSaved) s s' ∧ s'.pkru = pkru ∧ s'.mem = s.mem := by
  have hbytes : savedBytes = 8 * calleeSaved.length := rfl
  have hpops := @runs_pops env calleeSaved (by decide) s v (by omega)
    (by rw [← hbytes, hrsp]; exact hsaved)
  rw [← hbytes, hrsp] at hpops
  refine (runs_onCaller hpops (map_popq_isLocal _) (Ico_subset_Ico hlo (by omega)) (empty_subset _)
    hpkru).append ?_
  rintro s₁ ⟨⟨hrsp₁, hkeep₁, hv₁⟩, hpkru₁, heq₁⟩
  rw [compl_empty, eqOn_univ] at heq₁
  have hrsp₂ : (s₁.rsp + 8#64).toNat = p + 8 := by
    rw [← hrsp₁]
    exact toNat_add_of_lt (by omega)
  refine Runs.cons ⟨hpkru₁, id, by simp, nofun,
    confined_pop _ rfl (Ico_subset_Ico (by omega) (by omega))⟩
    (Runs.nil ⟨hrsp₂, ?_, fun r hr => ?_, ⟨fun r hr => ?_, hkeep₁.xmm⟩, hpkru₁, heq₁⟩)
  · change s₁.load64 s₁.rsp.toNat = s.load64 p
    rw [hrsp₁, State.load64, heq₁]
    rfl
  · have hne : ∀ r ∈ calleeSaved, r ≠ .rsp := by decide
    change (if r = .rsp then s₁.rsp + 8#64 else s₁.regs r) = v r
    rw [if_neg (hne r hr), hv₁ r hr]
  · have hne : r ≠ .rsp := fun h => hr (h ▸ List.mem_cons_self)
    change (if r = .rsp then s₁.rsp + 8#64 else s₁.regs r) = s.regs r
    rw [if_neg hne, hkeep₁.regs r hr]

/-! ### Type checks -/

def registryCall (fn : RegistryFn) (i id : Nat) : List Instr :=
  [.load .q (8 + 8 * (intParamRegOrder.length - 1 - i)) .rsp .rdi, .movqImm id .rsi,
    .call (.typeRegistry fn)]

theorem emitTypeRegistryChecks_nil (h : (registryChecks target api).2 = []) :
    emitTypeRegistryChecks target api = [] := by
  rw [emitTypeRegistryChecks]
  dsimp only
  rw [h, List.isEmpty_nil, if_pos rfl]

theorem emitTypeRegistryChecks_eq (h : (registryChecks target api).2.isEmpty = false) :
    emitTypeRegistryChecks target api = (emitSaveArgs ++ emitAlignStack8To16) ++
      ((registryChecks target api).2.flatMap fun check =>
        registryCall (registryChecks target api).1 check.1 check.2.id) ++
      emitRevertAlignStack8To16 ++ emitRestoreArgs true := by
  have hsome : ¬ (registryChecks target api).2.isEmpty = true := by
    rw [h]
    exact Bool.false_ne_true
  exact if_neg hsome

section Helpers

variable (htop : hi ≤ top) (hmax : hi < 2 ^ 64) (hdisj : Disjoint keep (Ico lo hi))
  (hpkru : s.pkru = pkru)

include htop hmax hdisj hpkru

theorem runs_registryCall (i id : Nat)
    (hfn : SysvFn lo hi top keep (env.function (.typeRegistry fn))) (hlo : lo + 8 ≤ s.rsp.toNat)
    (hhi : s.rsp.toNat + 8 + argsBytes ≤ hi) :
    Runs (exec env) (CallerStep env pkru lo hi top) (registryCall fn i id) s fun s' =>
      s'.rsp = s.rsp ∧ Stable (Ico s.rsp.toNat top ∪ keep) s s' := by
  have hbytes : argsBytes = 48 := rfl
  have hlen : intParamRegOrder.length = 6 := rfl
  let s₂ := exec env (.movqImm id .rsi)
    (exec env (.load .q (8 + 8 * (intParamRegOrder.length - 1 - i)) .rsp .rdi) s)
  have hkeep : Keeps [.rdi, .rsi] s s₂ := (keeps_set s .rdi _).trans (keeps_set _ .rsi _)
  have haddr : s.addr (8 + 8 * (intParamRegOrder.length - 1 - i)) .rsp =
      s.rsp.toNat + (8 + 8 * (intParamRegOrder.length - 1 - i)) :=
        toNat_add_of_lt (by rw [State.rsp] at hhi; omega)
  have hloads : Runs (exec env) (Confined env (Ico lo top) ∅)
      [.load .q (8 + 8 * (intParamRegOrder.length - 1 - i)) .rsp .rdi, .movqImm id .rsi] s
          (Keeps [.rdi, .rsi] s) := by
    refine Runs.cons (confined_load ?_) (Runs.cons (confined_of_nil rfl) (Runs.nil hkeep))
    rw [haddr, Width.bytes]
    exact Ico_subset_Ico (by omega) (by omega)
  refine (runs_onCaller hloads (List.all_eq_true.mp rfl) subset_rfl (empty_subset _) hpkru).append
    ?_
  rintro s₂ ⟨hkeep₂, hpkru₂, heq₂⟩
  have hrsp₂ : s₂.rsp = s.rsp := hkeep₂.regs .rsp (by simp)
  have hstable : Stable (Ico s.rsp.toNat top ∪ keep) s s₂ :=
    .of_keeps hkeep₂ (by decide) (hpkru₂.trans hpkru.symm)
      (heq₂.mono (disjoint_empty _).subset_compl_right)
  rw [← hrsp₂] at hlo hhi
  refine (runs_helper rfl hfn hlo (by omega) hdisj hpkru₂).post ?_
  rintro s' ⟨hrsp, hstable'⟩
  rw [hrsp₂] at hrsp hstable'
  exact ⟨hrsp, hstable.trans hstable'⟩

theorem runs_registryCalls (checks : List (Nat × TypeInfo))
    (hfn : SysvFn lo hi top keep (env.function (.typeRegistry fn))) (hlo : lo + 8 ≤ s.rsp.toNat)
    (hhi : s.rsp.toNat + 8 + argsBytes ≤ hi) :
    Runs (exec env) (CallerStep env pkru lo hi top)
      (checks.flatMap fun (i, type) => registryCall fn i type.id) s fun s' =>
      s'.rsp = s.rsp ∧ Stable (Ico s.rsp.toNat top ∪ keep) s s' := by
  induction checks generalizing s with
  | nil => exact Runs.nil ⟨rfl, Stable.refl _ s⟩
  | cons check checks ih =>
    refine (runs_registryCall htop hmax hdisj hpkru check.1 check.2.id hfn hlo hhi).append ?_
    rintro s₁ ⟨hrsp₁, hstable₁⟩
    have hrest := ih (hstable₁.pkru.trans hpkru) (by rw [hrsp₁]; exact hlo)
      (by rw [hrsp₁]; exact hhi)
    rw [hrsp₁] at hrest
    exact hrest.post fun s' h => ⟨h.1, hstable₁.trans h.2⟩

theorem runs_typeRegistryChecks {target : TargetInfo} {api : List TypeInfo}
    (hfn : (registryChecks target api).2 ≠ [] → ∀ fn,
      SysvFn lo hi top keep (env.function (.typeRegistry fn)))
    (hlo : lo + argsBytes + 16 ≤ s.rsp.toNat) (hhi : s.rsp.toNat ≤ hi) :
    Runs (exec env) (CallerStep env pkru lo hi top) (emitTypeRegistryChecks target api) s fun s' =>
      s'.rsp = s.rsp ∧ (∀ r ∈ intParamRegOrder, s'.regs r = s.regs r) ∧
        Stable (Ico s.rsp.toNat top ∪ keep) s s' := by
  have hbytes : argsBytes = 8 * intParamRegOrder.length := rfl
  by_cases hchecks : (registryChecks target api).2 = []
  · rw [emitTypeRegistryChecks_nil hchecks]
    exact Runs.nil ⟨rfl, fun _ _ => rfl, Stable.refl _ s⟩
  rw [emitTypeRegistryChecks_eq (List.isEmpty_eq_false_iff.mpr hchecks), List.append_assoc,
    List.append_assoc, List.append_assoc, ← List.append_assoc _ _ (emitRestoreArgs true),
    ← List.append_assoc emitAlignStack8To16, ← List.append_assoc emitAlignStack8To16]
  refine (runs_saveArgs (by omega) hhi hpkru).append ?_
  rintro s₁ ⟨⟨hrsp₁, hkeep₁, hsaved₁⟩, hpkru₁, heq₁⟩
  refine (runs_aligned (by omega) hpkru₁ fun s₂ hrsp₂ hpkru₂ =>
    runs_registryCalls htop hmax hdisj hpkru₂ _ (hfn hchecks _) (by omega) (by omega)).append ?_
  rintro s₃ ⟨hrsp₃, hstable₃⟩
  have hpkru₃ := hstable₃.pkru.trans hpkru₁
  refine (runs_restoreArgs true (by rw [hrsp₃]; omega) s.rsp.isLt (by rw [hrsp₃]; omega) (by omega)
    (hstable₃.saved hsaved₁ (by omega) (by omega)) hpkru₃).post ?_
  rintro s₄ ⟨hrsp₄, hv₄, hkeep₄, hpkru₄, hmem₄⟩
  have h₁ : Stable (Ico s.rsp.toNat top ∪ keep) s s₁ :=
    .of_keeps hkeep₁ (by decide) (hpkru₁.trans hpkru.symm)
    (heq₁.mono (disjoint_above hdisj (by omega) hhi).subset_compl_right)
  have h₄ : Stable (Ico s.rsp.toNat top ∪ keep) s₃ s₄ :=
    .of_mem_eq hkeep₄ (by decide) (hpkru₄.trans hpkru₃.symm) hmem₄
  exact ⟨BitVec.eq_of_toNat_eq hrsp₄, hv₄, (h₁.trans (hstable₃.raise (by omega))).trans h₄⟩

/-! ### Conditions -/

abbrev Held (target : TargetInfo) (k : Nat) : Prop :=
  (1 < target.preConditions ∨ target.postConditions ≠ 0) ∧
    ¬ (target.postConditions = 0 ∧ k = target.preConditions)

structure PreState (target : TargetInfo) (top : Nat) (keep : Set Nat) (p : Nat) (s : State)
    (k : Nat) (s' : State) : Prop where
  rsp : s'.rsp.toNat = if Held target k then p - argsBytes else p
  stable : Stable (Ico p top ∪ keep) s s'
  saved : Held target k → SavedBelow s'.mem s.regs p intParamRegOrder
  first : k = 0 → Keeps [.rsp] s s'

theorem runs_preCondition (hfn : SysvFn lo hi top keep (env.function (.preCondition k)))
    (hlo : lo + argsBytes + 8 ≤ p) (hhi : p ≤ hi) (hk : k < target.preConditions)
    (h : PreState target top keep p s k s') :
    Runs (exec env) (CallerStep env pkru lo hi top)
      ((if 0 < k then
        emitRestoreArgs (decide (target.postConditions = 0) &&
          decide (k = target.preConditions - 1)) else []) ++
        [.call (.preCondition k)]) s' (PreState target top keep p s (k + 1)) := by
  have hbytes : argsBytes = 8 * intParamRegOrder.length := rfl
  -- up to the call the stack pointer becomes that of the next state and memory does not change
  refine Runs.append (Q := fun s₁ => s₁.rsp.toNat =
    (if Held target (k + 1) then p - argsBytes else p) ∧
    Stable (Ico p top ∪ keep) s s₁ ∧
    (Held target (k + 1) → SavedBelow s₁.mem s.regs p intParamRegOrder)) ?_ ?_
  · by_cases hfirst : 0 < k
    · have hheld : Held target k := ⟨by omega, by omega⟩
      have hrsp := h.rsp
      rw [if_pos hheld] at hrsp
      rw [if_pos hfirst]
      refine (runs_restoreArgs _ (by omega) (by omega) (by omega) (by omega) (h.saved hheld)
        (h.stable.pkru.trans hpkru)).post ?_
      rintro s₁ ⟨hrsp₁, -, hkeep₁, hpkru₁, hmem₁⟩
      refine ⟨?_, h.stable.trans
        (.of_mem_eq hkeep₁ (by decide) (by rw [hpkru₁, h.stable.pkru, hpkru]) hmem₁), fun _ => ?_⟩
      · rw [hrsp₁]
        simp only [Bool.and_eq_true, decide_eq_true_eq]
        split <;> split <;> omega
      · rw [hmem₁]
        exact h.saved hheld
    · have hsame : Held target k ↔ Held target (k + 1) := by simp only [Held]; omega
      rw [if_neg hfirst]
      refine Runs.nil ⟨?_, h.stable, fun hheld => h.saved (hsame.mpr hheld)⟩
      rw [h.rsp]
      simp only [hsame]
  · rintro s₁ ⟨hrsp₁, hstable₁, hsaved₁⟩
    have hrange : p - argsBytes ≤ s₁.rsp.toNat ∧ s₁.rsp.toNat ≤ p := by
      rw [hrsp₁]
      split <;> omega
    refine (runs_helper rfl hfn (by omega) (by omega) hdisj (hstable₁.pkru.trans hpkru)).post ?_
    rintro s₂ ⟨hrsp₂, hstable₂⟩
    refine ⟨by rw [hrsp₂, hrsp₁], hstable₁.trans (hstable₂.raise hrange.2), fun hheld => ?_, nofun⟩
    rw [if_pos hheld] at hrsp₁
    exact hstable₂.saved (hsaved₁ hheld) (by omega) (by omega)

omit htop hmax hdisj hpkru in
theorem runs_preConditions_of
    (hsave : Runs (exec env) P (if 1 < target.preConditions ∨ target.postConditions ≠ 0
    then emitSaveArgs else []) s (PreState target top keep p s 0))
    (hcall : ∀ k < target.preConditions, ∀ s', PreState target top keep p s k s' →
    Runs (exec env) P
    ((if 0 < k then emitRestoreArgs (decide (target.postConditions = 0) &&
    decide (k = target.preConditions - 1)) else []) ++ [.call (.preCondition k)]) s'
    (PreState target top keep p s (k + 1))) :
    Runs (exec env) P (emitPreConditions target) s
    (PreState target top keep p s target.preConditions) := by
  exact hsave.append fun s₀ h₀ => Runs.range h₀ hcall

omit htop hmax in
theorem runs_preSave (target : TargetInfo) (hlo : lo + argsBytes + 8 ≤ s.rsp.toNat)
    (hhi : s.rsp.toNat ≤ hi) :
    Runs (exec env) (CallerStep env pkru lo hi top)
      (if 1 < target.preConditions ∨ target.postConditions ≠ 0 then emitSaveArgs else []) s
      (PreState target top keep s.rsp.toNat s 0) := by
  split
  · rename_i hsaves
    have hheld : Held target 0 := ⟨hsaves, by omega⟩
    refine (runs_saveArgs (by omega) hhi hpkru).post ?_
    rintro s₁ ⟨⟨hrsp₁, hkeep₁, hsaved₁⟩, hpkru₁, heq₁⟩
    refine ⟨by rw [if_pos hheld, hrsp₁], ?_, fun _ => hsaved₁, fun _ => hkeep₁⟩
    exact .of_keeps hkeep₁ (by decide) (hpkru₁.trans hpkru.symm)
      (heq₁.mono (disjoint_above hdisj (by omega) hhi).subset_compl_right)
  · rename_i hsaves
    have hheld : ¬ Held target 0 := fun h => hsaves h.1
    exact Runs.nil ⟨by rw [if_neg hheld], Stable.refl _ s, fun h => absurd h hheld,
      fun _ => Keeps.refl _ s⟩

theorem runs_preConditions {target : TargetInfo}
    (hfn : ∀ i < target.preConditions, SysvFn lo hi top keep (env.function (.preCondition i)))
    (hlo : lo + argsBytes + 8 ≤ s.rsp.toNat) (hhi : s.rsp.toNat ≤ hi) :
    Runs (exec env) (CallerStep env pkru lo hi top) (emitPreConditions target) s
      (PreState target top keep s.rsp.toNat s target.preConditions) :=
  runs_preConditions_of (runs_preSave hdisj hpkru target hlo hhi) fun k hk _ h =>
    runs_preCondition htop hmax hdisj hpkru (hfn k hk) hlo hhi hk h

structure PostState (target : TargetInfo) (top : Nat) (keep : Set Nat) (p : Nat)
    (v : Reg → BitVec 64) (s : State) (k : Nat) (s' : State) : Prop where
  rsp : s'.rsp.toNat = if k < target.postConditions then p - argsBytes else p
  stable : Stable (Ico p top ∪ keep) s s'
  saved : k < target.postConditions → SavedBelow s'.mem v p intParamRegOrder
  first : k = 0 → s' = s

theorem runs_postCondition (hfn : SysvFn lo hi top keep (env.function (.postCondition k)))
    (hlo : lo + argsBytes + 16 ≤ p) (hhi : p ≤ hi) (hk : k < target.postConditions)
    (h : PostState target top keep p v s k s') :
    Runs (exec env) (CallerStep env pkru lo hi top)
      (emitRestoreArgs (decide (k = target.postConditions - 1)) ++ emitAlignStack8To16 ++
        [.call (.postCondition k)] ++
        emitRevertAlignStack8To16) s' (PostState target top keep p v s (k + 1)) := by
  have hbytes : argsBytes = 8 * intParamRegOrder.length := rfl
  have hrsp := h.rsp
  rw [if_pos hk] at hrsp
  rw [List.append_assoc, List.append_assoc, ← List.append_assoc emitAlignStack8To16]
  refine (runs_restoreArgs _ (by omega) (by omega) (by omega) (by omega) (h.saved hk)
    (h.stable.pkru.trans hpkru)).append ?_
  rintro s₁ ⟨hrsp₁, -, hkeep₁, hpkru₁, hmem₁⟩
  have hrange : p - argsBytes ≤ s₁.rsp.toNat ∧ s₁.rsp.toNat ≤ p := by
    rw [hrsp₁]
    split <;> omega
  refine (runs_aligned (by omega) hpkru₁ fun s₂ hrsp₂ hpkru₂ =>
    runs_helper rfl hfn (by omega) (by omega) hdisj hpkru₂).post ?_
  rintro s₂ ⟨hrsp₂, hstable₂⟩
  have h₁ : Stable (Ico p top ∪ keep) s' s₁ :=
    .of_mem_eq hkeep₁ (by decide) (by rw [hpkru₁, h.stable.pkru, hpkru]) hmem₁
  refine ⟨?_, (h.stable.trans h₁).trans (hstable₂.raise hrange.2), fun hnext => ?_, by simp⟩
  · rw [hrsp₂, hrsp₁]
    simp only [decide_eq_true_eq]
    split <;> split <;> omega
  · rw [if_neg (by simp only [decide_eq_true_eq]; omega)] at hrsp₁
    refine hstable₂.saved ?_ (by omega) (by omega)
    rw [hmem₁]
    exact h.saved hk

omit htop hmax hdisj hpkru in
theorem runs_postConditions_of
    (hrsp : s.rsp.toNat = if 0 < target.postConditions then p - argsBytes else p)
    (hsaved : 0 < target.postConditions → SavedBelow s.mem v p intParamRegOrder)
    (hcall : ∀ k < target.postConditions, ∀ s', PostState target top keep p v s k s' →
    Runs (exec env) P (emitRestoreArgs (decide (k = target.postConditions - 1)) ++
    emitAlignStack8To16 ++ [.call (.postCondition k)] ++ emitRevertAlignStack8To16) s'
    (PostState target top keep p v s (k + 1))) :
    Runs (exec env) P (emitPostConditions target) s
    (PostState target top keep p v s target.postConditions) := by
  exact Runs.range ⟨hrsp, Stable.refl _ s, hsaved, fun _ => rfl⟩ hcall

theorem runs_postConditions {target : TargetInfo} {p : Nat} {v : Reg → BitVec 64}
    (hfn : ∀ i < target.postConditions, SysvFn lo hi top keep (env.function (.postCondition i)))
    (hlo : lo + argsBytes + 16 ≤ p) (hhi : p ≤ hi)
    (hrsp : s.rsp.toNat = if 0 < target.postConditions then p - argsBytes else p)
    (hsaved : 0 < target.postConditions → SavedBelow s.mem v p intParamRegOrder) :
    Runs (exec env) (CallerStep env pkru lo hi top) (emitPostConditions target) s
      (PostState target top keep p v s target.postConditions) :=
  runs_postConditions_of hrsp hsaved fun k hk _ h =>
    runs_postCondition htop hmax hdisj hpkru (hfn k hk) hlo hhi hk h

/-! ### Entry and exit -/

/-- The bytes of the caller's stack that the code before and after a crossing uses at most. -/
def frameDepth : Nat := savedBytes + argsBytes + 16

omit htop hmax hdisj hpkru in
theorem frameDepth_eq : frameDepth = savedBytes + argsBytes + 16 := rfl

/-- The functions that a gate calls in the caller's compartment. -/
def calls (w : Wrapper) (target : TargetInfo) : Callee → Prop
  | .preCondition i => i < target.preConditions
  | .postCondition i => i < target.postConditions
  | .typeRegistry _ => (registryChecks target w.sig.api).2 ≠ []
  | _ => False

/-- These functions obey the calling convention. -/
def HelpersOk (w : Wrapper) (target : TargetInfo) (env : Env) (lo hi top : Nat)
    (keep : Set Nat) : Prop :=
  ∀ callee, calls w target callee → SysvFn lo hi top keep (env.function callee)

def entryDepth (target : TargetInfo) : Nat := savedBytes + if target.postConditions = 0 then 0
    else argsBytes

structure CheckedState (w : Wrapper) (target : TargetInfo) (top : Nat) (keep : Set Nat)
    (s s' : State) : Prop where
  rsp : s'.rsp.toNat = s.rsp.toNat - savedBytes
  pkru : s'.pkru = s.pkru
  mem : EqOn s'.mem s.mem (Ico s.rsp.toNat top ∪ keep)
  saved : SavedBelow s'.mem s.regs s.rsp.toNat calleeSaved
  ints : ∀ r ∈ intParamRegOrder, s'.regs r = s.regs r
  xmm : (registryChecks target w.sig.api).2 = [] → s'.xmm = s.xmm

theorem runs_checked {w : Wrapper} {target : TargetInfo}
    (hfn : HelpersOk w target env lo hi top keep) (hlo : lo + frameDepth ≤ s.rsp.toNat)
    (hhi : s.rsp.toNat ≤ hi) :
    Runs (exec env) (CallerStep env pkru lo hi top)
      (emitPrologue ++ emitTypeRegistryChecks target w.sig.api) s
      (CheckedState w target top keep s) := by
  have hdepth := frameDepth_eq
  have hbytes : savedBytes = 8 * calleeSaved.length := rfl
  refine (runs_prologue (by omega) hhi hpkru).append ?_
  rintro s₁ ⟨⟨hrsp₁, hkeep₁, hsaved₁⟩, hpkru₁, heq₁⟩
  have hchecks := @runs_typeRegistryChecks env pkru lo hi top keep s₁ htop hmax hdisj hpkru₁ target
    w.sig.api (fun h fn => hfn (.typeRegistry fn) h) (by omega) (by omega)
  rw [hrsp₁] at hchecks
  obtain ⟨halong, hrsp₂, hints₂, hstable₂⟩ := hchecks
  refine ⟨halong, ?_, ?_, ?_, ?_, fun r hr => ?_, fun hnil => ?_⟩
  · rw [hrsp₂, hrsp₁]
  · rw [hstable₂.pkru, hpkru₁, hpkru]
  · exact (hstable₂.raise (by omega)).mem.trans
      (heq₁.mono (disjoint_above hdisj (by omega) hhi).subset_compl_right)
  · exact hstable₂.saved hsaved₁ (by omega) (by omega)
  · have hne : ∀ r ∈ intParamRegOrder, r ∉ [Reg.rsp, .rbp] := by decide
    rw [hints₂ r hr, hkeep₁.regs r (hne r hr)]
  · rw [emitTypeRegistryChecks_nil hnil]
    exact hkeep₁.xmm

omit htop hmax hdisj hpkru in
theorem emitEntry_eq (htarget : w.target = some target) :
    w.emitEntry = emitPrologue ++ emitTypeRegistryChecks target w.sig.api ++
      emitPreConditions target := by
  rw [Wrapper.emitEntry, htarget, List.append_assoc]

structure EntryState (w : Wrapper) (target : TargetInfo) (top : Nat) (keep : Set Nat)
    (s s' : State) : Prop where
  rsp : s'.rsp.toNat = s.rsp.toNat - entryDepth target
  pkru : s'.pkru = s.pkru
  mem : EqOn s'.mem s.mem (Ico s.rsp.toNat top ∪ keep)
  saved : SavedBelow s'.mem s.regs s.rsp.toNat calleeSaved
  args : 0 < target.postConditions → ∃ v, SavedBelow s'.mem v (s.rsp.toNat - savedBytes)
    intParamRegOrder
  ints : target.preConditions = 0 → ∀ r ∈ intParamRegOrder, s'.regs r = s.regs r
  xmm : target.preConditions = 0 → (registryChecks target w.sig.api).2 = [] → s'.xmm = s.xmm

theorem runs_entry (htarget : w.target = some target) (hfn : HelpersOk w target env lo hi top keep)
    (hlo : lo + frameDepth ≤ s.rsp.toNat) (hhi : s.rsp.toNat ≤ hi) :
    Runs (exec env) (CallerStep env pkru lo hi top) w.emitEntry s
      (EntryState w target top keep s) := by
  have hdepth := frameDepth_eq
  have hbytes : savedBytes = 8 * calleeSaved.length := rfl
  rw [emitEntry_eq htarget]
  refine (runs_checked htop hmax hdisj hpkru hfn hlo hhi).append fun s₂ h₂ => ?_
  have hrsp₂ := h₂.rsp
  have hpre := @runs_preConditions env pkru lo hi top keep s₂ htop hmax hdisj (h₂.pkru.trans hpkru)
    target (fun i hi => hfn (.preCondition i) hi) (by omega) (by omega)
  rw [hrsp₂] at hpre
  refine hpre.post fun s₃ h₃ => ?_
  have hheld : Held target target.preConditions ↔ target.postConditions ≠ 0 :=
    ⟨fun h hzero => h.2 ⟨hzero, rfl⟩, fun h => ⟨.inr h, fun h' => h h'.1⟩⟩
  refine ⟨?_, ?_, ?_, ?_, fun hpost => ⟨s₂.regs, h₃.saved (hheld.mpr (by omega))⟩,
    fun hzero r hr => ?_, fun hzero hnil => ?_⟩
  · rw [h₃.rsp, entryDepth]
    by_cases hpost : target.postConditions = 0
    · rw [if_neg fun h => hheld.mp h hpost, if_pos hpost, Nat.add_zero]
    · rw [if_pos (hheld.mpr hpost), if_neg hpost]
      omega
  · rw [h₃.stable.pkru, h₂.pkru]
  · exact (h₃.stable.raise (by omega)).mem.trans h₂.mem
  · exact h₃.stable.saved h₂.saved (by omega) (by omega)
  · have hne : ∀ r ∈ intParamRegOrder, r ∉ [Reg.rsp] := by decide
    rw [(h₃.first hzero).regs r (hne r hr), h₂.ints r hr]
  · rw [(h₃.first hzero).xmm, h₂.xmm hnil]

theorem runs_exit {w : Wrapper} {target : TargetInfo} (htarget : w.target = some target)
    (hfn : HelpersOk w target env lo hi top keep) {p : Nat} {v v' : Reg → BitVec 64}
    (hlo : lo + frameDepth ≤ p) (hhi : p ≤ hi) (hret : p + 8 ≤ top) (hp : p + 8 < 2 ^ 64)
    (hrsp : s.rsp.toNat = p - entryDepth target) (hsaved : SavedBelow s.mem v p calleeSaved)
    (hargs : 0 < target.postConditions → SavedBelow s.mem v' (p - savedBytes) intParamRegOrder) :
    Runs (exec env) (CallerStep env pkru lo hi top) w.emitExit s fun s' =>
      s'.rsp.toNat = p + 8 ∧ s'.rip = s.load64 p ∧ (∀ r ∈ calleeSaved, s'.regs r = v r) ∧
        s'.pkru = pkru ∧
        EqOn s'.mem s.mem (Ico (p - savedBytes) top ∪ keep) ∧
        (target.postConditions = 0 → s'.mem = s.mem ∧ Keeps (.rsp :: calleeSaved) s s') := by
  have hdepth := frameDepth_eq
  have hbytes : savedBytes = 8 * calleeSaved.length := rfl
  rw [Wrapper.emitExit, htarget, List.append_assoc]
  have hpost := @runs_postConditions env pkru lo hi top keep s htop hmax hdisj hpkru target
    (p - savedBytes) v' (fun i hi => hfn (.postCondition i) hi) (by omega) (by omega)
    (by rw [hrsp, entryDepth]; split <;> split <;> omega) hargs
  refine hpost.append fun s₁ h₁ => ?_
  have hrsp₁ := h₁.rsp
  rw [if_neg (lt_irrefl _)] at hrsp₁
  have hsaved₁ := h₁.stable.saved hsaved (by omega) (by omega)
  refine (runs_epilogue (by omega) hp (by omega) hret hsaved₁ (h₁.stable.pkru.trans hpkru)).post ?_
  rintro s₂ ⟨hrsp₂, hrip₂, hregs₂, hkeep₂, hpkru₂, hmem₂⟩
  refine ⟨hrsp₂, ?_, hregs₂, hpkru₂, by rw [hmem₂]; exact h₁.stable.mem, fun hzero => ?_⟩
  · rw [hrip₂]
    exact State.load64_congr fun a ha =>
      h₁.stable.mem (.inl ⟨by have := ha.1; omega, by have := ha.2; omega⟩)
  · obtain rfl := h₁.first hzero
    exact ⟨hmem₂, hkeep₂⟩

end Helpers

end Ia2.Gate
