import Ia2.Arm.SiteArgs

/-!
# What an indirect call site delivers on AArch64

`Traced` follows the moves of the gate at an indirect call site and asks that every location gets
its value from its source. A gate for which this holds delivers every argument.
-/

namespace Ia2.Arm

open StraightLine Set
open Rewriter (ArgLocation Slot)
open Rewriter.ArgLocation (register indirect)

def LocTraced (w : Wrapper) (loc : Location) (src : Place) : Prop :=
  loc.width = 0 ∨
    if loc.isStack then
      src = .stack (loc.stackOffset + (wrapperArgSize w - w.sizes.argSize)) ∧
        loc.stackOffset + loc.width ≤ w.sizes.argSize ∧
        ∀ p ∈ w.copies, loc.stackOffset + loc.width ≤ p.1.stackOffset ∨
        p.1.stackOffset + 8 ≤ loc.stackOffset
    else loc.reg.map (siteOrigins w) = some src

instance (w : Wrapper) (loc : Location) (src : Place) : Decidable (LocTraced w loc src) :=
  inferInstanceAs (Decidable (_ ∨ ite _ _ _))

/-- The moves are defined, indirect arguments are passed on the stack by the caller and to the
function, their copies fit, and every other location gets its value from its source. -/
structure Traced (w : Wrapper) : Prop where
  moves : (siteMoves w).isSome
  indirects : ∀ g ∈ siteGroups w.sig, g.1.isIndirect = true → (∀ loc ∈ g.2.1, loc.isStack = true) ∧
    ∀ src ∈ g.2.2, src.isStack = true
  fits : ∀ p ∈ w.copies, p.2 + p.1.size ≤ w.sizes.total
  args : ∀ g ∈ siteGroups w.sig, g.1.isIndirect = false → ∀ p ∈ g.2.1.zip (sources g.2.1 g.2.2),
    LocTraced w p.1 p.2

/-! ### Sources -/

theorem Place.value_lt (p : Place) (v : BitVec 64) (s : State) (n : Nat) :
    p.value v s n < 256 ^ n := by
  have hpos : 0 < 256 ^ n := Nat.pow_pos (by decide)
  cases p with
  | stack offset => exact ByteMemory.read_lt _ _ _
  | _ => exact Nat.mod_lt _ hpos

theorem place_intReg {slot : ArgLocation} {k : Nat} {n : Fin 31} (hslot : slot.isStack = false)
    (hk : intReg k = some (.x n)) :
    (⟨slot, intReg k⟩ : Location).place = .x n := by
  rw [Location.place, if_neg (by simpa [Location.isStack] using hslot), hk]
  rfl

inductive Sourced (w : Wrapper) (loc : Location) : Place → Prop where
  | x {n : Fin 31} {src : Place} : loc.isStack = false → loc.reg = some (.x n) → loc.width = 8 →
      ((∃ k ∈ intParamRegOrder, src = .x k) ∨ ∃ offset,
        src = .stack offset ∧ offset + 8 ≤ wrapperArgSize w + 8) → Sourced w loc src
  | q {i : VReg} : loc.isStack = false → loc.reg = some (.q i) → Sourced w loc (.q i)
  | spilled {k : Fin 31} : loc.isStack = true → loc.width = 8 → k ∈ intParamRegOrder →
    Sourced w loc (.x k)
  | stack {offset : Nat} : loc.isStack = true → offset + loc.width ≤ wrapperArgSize w + 8 →
    Sourced w loc (.stack offset)

theorem Word.width {arg : ArgLocation} (h : Word arg) (reg : Option ArgReg) :
    (⟨arg, reg⟩ : Location).width = 8 := by
  cases h with
  | integral hn => exact Rewriter.width_integral hn
  | indirect => rfl

section Sources

variable {w : Wrapper} {g : ArgLocation × List Location × List Location} (hg : g ∈ siteGroups w.sig)
include hg

theorem sourced {p : Location × Place} (hp : p ∈ g.2.1.zip (sources g.2.1 g.2.2)) :
    Sourced w p.1 p.2 := by
  have hshift := site_shift hg
  have hsrc := fun {src} => @src_stack w.sig g hg src
  obtain ⟨arg, locs, srcs⟩ := g
  dsimp only at hshift hp hsrc
  cases hshift with
  | @word arg k hword hk =>
    obtain ⟨n, hn, hreg⟩ := intReg_lt (Nat.lt_succ_of_lt hk)
    obtain ⟨n', hn', hreg'⟩ := intReg_lt (Nat.succ_lt_succ hk)
    obtain rfl := List.mem_singleton.mp hp
    exact .x hword.isStack hreg (hword.width _) (.inl ⟨n', hn', place_intReg hword.isStack hreg'⟩)
  | @spill arg o hword =>
    obtain ⟨n, hn, hreg⟩ := intReg_lt (by decide : 7 < 8)
    obtain rfl := List.mem_singleton.mp hp
    have hend := (hsrc (List.mem_singleton_self _) rfl).2
    rw [show (⟨arg.allocateStack o, none⟩ : Location).width = 8 from hword.width none] at hend
    exact .x hword.isStack hreg (hword.width _) (.inr ⟨o, rfl, hend⟩)
  | @unspill arg o hword =>
    obtain ⟨n, hn, hreg⟩ := intReg_lt (by decide : 7 < 8)
    obtain rfl := List.mem_singleton.mp hp
    have hplace : (⟨arg, intReg 7⟩ : Location).place = .x n := place_intReg hword.isStack hreg
    rw [hplace]
    exact .spilled rfl (hword.width none) hn
  | @pair k hk =>
    obtain ⟨n, hn, hreg⟩ := intReg_lt (by omega : k < 8)
    obtain ⟨n₁, hn₁, hreg₁⟩ := intReg_lt (by omega : k + 1 < 8)
    obtain ⟨n₂, hn₂, hreg₂⟩ := intReg_lt (by omega : k + 2 < 8)
    have hplace₁ : (half (k + 1)).place = .x n₁ := place_intReg rfl hreg₁
    have hplace₂ : (half (k + 2)).place = .x n₂ := place_intReg rfl hreg₂
    rcases List.mem_cons.mp hp with rfl | hp
    · exact .x rfl hreg rfl (.inl ⟨n₁, hn₁, hplace₁⟩)
    · obtain rfl := List.mem_singleton.mp hp
      exact .x rfl hreg₁ rfl (.inl ⟨n₂, hn₂, hplace₂⟩)
  | @split o =>
    obtain ⟨n, hn, hreg⟩ := intReg_lt (by decide : 6 < 8)
    obtain ⟨n₁, hn₁, hreg₁⟩ := intReg_lt (by decide : 7 < 8)
    have hend : o + 16 ≤ wrapperArgSize w + 8 := (hsrc (List.mem_singleton_self _) rfl).2
    rcases List.mem_cons.mp hp with rfl | hp
    · exact .x rfl hreg rfl (.inr ⟨o, rfl, by omega⟩)
    · obtain rfl := List.mem_singleton.mp hp
      exact .x rfl hreg₁ rfl (.inr ⟨o + 8, rfl, by omega⟩)
  | @vector n i hi =>
    obtain ⟨r, -, hreg⟩ := floatReg_lt hi
    obtain rfl := List.mem_singleton.mp hp
    have hplace : (⟨register .float n, floatReg i⟩ : Location).place = .q r := by
      rw [Location.place, if_neg (by simp [Location.isStack, ArgLocation.isStack, register]), hreg]
      rfl
    rw [hplace]
    exact .q rfl hreg
  | @stacked arg o o' =>
    obtain rfl := List.mem_singleton.mp hp
    exact .stack rfl (hsrc (List.mem_singleton_self _) rfl).2

theorem mem_siteLocs_of_group {loc : Location} (hloc : loc ∈ g.2.1) : loc ∈ siteLocs w :=
  List.mem_flatMap.mpr ⟨g, hg, hloc⟩

theorem indirect_group (hind : g.1.isIndirect = true) :
    ∃ loc src offset, g.2.1 = [loc] ∧ g.2.2 = [src] ∧ (loc, offset) ∈ w.copies ∧ Word g.1 ∧
      loc.width = 8 ∧ src.width = 8 ∧
      loc.size = g.1.bytes ∧ src.Placed ∧
      (loc.isStack = true → src.isStack = true →
        src.stackOffset = loc.stackOffset + (wrapperArgSize w - w.sizes.argSize)) := by
  have hshift := site_shift hg
  have hslot := w.sig.args_slots g.1 (fst_mem_of_mem_paramGroups (pairGroups_left hg))
  have hword : Word g.1 := by
    generalize g.1 = arg at hslot hind
    cases hslot with
    | indirect hsize halign => exact .indirect hsize halign
    | integral | wide | float => cases hind
  have hcopy : ∀ {loc : Location}, loc ∈ g.2.1 → loc.isIndirect = true → ∃ offset,
    (loc, offset) ∈ w.copies := fun {loc} hloc h => by
    refine exists_mem_indirectCopies ?_ h _
    rw [args_eq_siteLocs]
    exact List.mem_append_right _ (mem_siteLocs_of_group hg hloc)
  have hsize : ∀ k, (⟨g.1, intReg k⟩ : Location).size = g.1.bytes := fun k => by
    rw [Location.size, Location.is128bitFloat]
    cases hk : intReg k with
    | none => rfl
    | some r =>
      obtain ⟨n, -, rfl⟩ := Option.map_eq_some_iff.mp hk
      rfl
  have hplaced : ∀ {k}, k < 8 → (⟨g.1, intReg k⟩ : Location).Placed := fun hk => by
    obtain ⟨_, _, hr⟩ := intReg_lt hk
    exact .inr ⟨hword.isStack, _, hr⟩
  have hreg : ∀ k, (⟨g.1, intReg k⟩ : Location).isStack ≠ true := fun k h => by
    rw [show (⟨g.1, intReg k⟩ : Location).isStack = g.1.isStack from rfl, hword.isStack] at h
    cases h
  obtain ⟨arg, locs, srcs⟩ := g
  dsimp only at hshift hind hword hcopy hsize hplaced hreg ⊢
  cases hshift with
  | @word arg k _ hk =>
    obtain ⟨offset, hoffset⟩ := hcopy (List.mem_singleton_self _) hind
    exact ⟨_, _, offset, rfl, rfl, hoffset, hword, hword.width _, hword.width _, hsize k,
      hplaced (by omega),
      fun h => absurd h (hreg k)⟩
  | spill =>
    obtain ⟨offset, hoffset⟩ := hcopy (List.mem_singleton_self _) hind
    exact ⟨_, _, offset, rfl, rfl, hoffset, hword, hword.width _, hword.width none, hsize 7,
      .inl rfl, fun h => absurd h (hreg 7)⟩
  | unspill =>
    obtain ⟨offset, hoffset⟩ := hcopy (List.mem_singleton_self _) hind
    exact ⟨_, _, offset, rfl, rfl, hoffset, hword, hword.width none, hword.width _, rfl,
      hplaced (by decide),
      fun _ h => absurd h (hreg 7)⟩
  | @stacked arg o o' =>
    obtain ⟨offset, hoffset⟩ := hcopy (List.mem_singleton_self _) hind
    refine ⟨_, _, offset, rfl, rfl, hoffset, hword, hword.width none, hword.width none, rfl,
      .inl rfl, fun _ _ => ?_⟩
    have hend := stacked_word w.sig.args_slots (phase_initial w.sig.ret) hword hg
    have hle := argSize_le_wrapperArgSize w
    have hend' : o' + w.sizes.argSize = o + wrapperArgSize w := hend
    change o' = o + _
    omega
  | pair | split | vector => cases hind

end Sources

/-! ### Arguments that are delivered -/

section Traced

variable {w : Wrapper} {env : Env} {s : State} {moves : List Instr}
variable {p : Location × Nat}

theorem exists_group_of_mem_copies (hp : p ∈ w.copies) :
    ∃ g ∈ siteGroups w.sig, g.1.isIndirect = true ∧ g.2.1 = [p.1] := by
  obtain ⟨hmem, hind, -⟩ := mem_indirectCopies hp
  obtain ⟨arg, hg, harg⟩ := mem_args_of_isIndirect hmem hind
  obtain ⟨srcs, hg⟩ := exists_pairGroups hg (pointerParams w.sig.ret)
  exact ⟨_, hg, harg, rfl⟩

theorem Traced.copies_isStack (h : Traced w) : ∀ p ∈ w.copies, p.1.isStack = true := by
  intro p hp
  obtain ⟨g, hg, hind, hlocs⟩ := exists_group_of_mem_copies hp
  exact (h.indirects g hg hind).1 p.1 (hlocs ▸ List.mem_singleton_self _)

theorem siteOrigins_x9 (w : Wrapper) : siteOrigins w (.x 9) = copyOrigins w.copies (.x 0) := by
  rw [siteOrigins, origins_of_notMem, Function.update_self]
  intro loc hloc hreg
  have hparam : (9 : Fin 31) ∈ intParamRegOrder := siteLocs_isParam hloc hreg
  revert hparam
  decide

theorem copyOrigins_of_isStack (h : ∀ p ∈ w.copies, p.1.isStack = true) (n : Fin 31) :
    copyOrigins w.copies (.x n) = .x n := by
  rw [copyOrigins, copyTo_eq_none h]

theorem locValue_traced (hsite : IsSite w) (hok : SiteOk w env s)
    (hmoves : siteMoves w = some moves) {g : ArgLocation × List Location × List Location}
    (hg : g ∈ siteGroups w.sig) {p : Location × Place} (hp : p ∈ g.2.1.zip (sources g.2.1 g.2.2))
    (hstack : ∀ p ∈ w.copies, p.1.isStack = true) (h : LocTraced w p.1 p.2) :
    locValue (siteCall w env s moves) (low (siteCall w env s moves).sp) p.1 =
      p.2.value (siteSp w env s) s p.1.width := by
  have hcall := siteCall_spec hsite hok hmoves
  rcases h with hzero | h
  · have hlt := locValue_lt (siteCall w env s moves) (low (siteCall w env s moves).sp) p.1
    have hlt' := p.2.value_lt (siteSp w env s) s p.1.width
    rw [hzero] at hlt hlt' ⊢
    omega
  have hloc : p.1 ∈ siteLocs w := mem_siteLocs_of_group hg (List.of_mem_zip hp).1
  cases hkind : p.1.isStack with
  | true =>
    rw [hkind, if_pos rfl] at h
    obtain ⟨hsrc, hend, hslots⟩ := h
    rw [locValue_stack hkind, hsrc, hcall.sp, low_siteSp hok]
    refine ByteMemory.read_shift fun i hi => ?_
    rw [hcall.mem fun hin => absurd hin.2 (by omega), Nat.add_assoc,
      site_stackArg hsite hok (by omega)]
    · congr 1
      omega
    · intro q hq hin
      rw [pointerArea, if_pos (hstack q hq)] at hin
      have hlo := hin.1
      have hhi := hin.2
      have hsep := hslots q hq
      omega
  | false =>
    rw [hkind, if_neg (by simp)] at h
    obtain ⟨r, hr, horigin⟩ := Option.map_eq_some_iff.mp h
    rw [locValue_reg hkind hr, hcall.holds p.1 hloc hkind r hr, horigin]
    have hsourced := sourced hg hp
    generalize hsrc : p.2 = src at hsourced ⊢
    cases hsourced with
    | x _ hreg hwidth =>
      obtain rfl := Option.some.inj (hr.symm.trans hreg)
      rw [hwidth]
      exact Nat.mod_eq_of_lt (Place.value_lt _ _ _ _)
    | @q i _ hreg =>
      obtain rfl := Option.some.inj (hr.symm.trans hreg)
      have hlt : (s.vregs i).toNat < 256 ^ 16 := (s.vregs i).isLt
      exact congrArg (· % 256 ^ p.1.width) (Nat.mod_eq_of_lt hlt)
    | spilled hstack | stack hstack => simp [hkind] at hstack

theorem pointer_value (ret : List ArgLocation) (s : State) :
    argValue s (low s.sp) (newLocs (initialParams ret) (register .integral 8)) =
      (s.regs (.x 0)).toNat := by
  have hzero : (initialParams ret).intsUsed = 0 := by
    rcases initialParams_cases ret with h | h <;> rw [h]
  rw [newLocs_word _ (.integral le_rfl), if_pos (by omega), hzero, argValue_singleton]
  exact Nat.mod_eq_of_lt (s.regs (.x 0)).isLt

theorem pointer_at_call (hsite : IsSite w) (hok : SiteOk w env s)
    (hmoves : siteMoves w = some moves) (hstack : ∀ p ∈ w.copies, p.1.isStack = true)
    (hp : p ∈ w.copies) :
    argValue (siteCall w env s moves) (low (siteCall w env s moves).sp) [p.1] % 2 ^ 56 =
      siteBase w env s + p.2 := by
  have hcall := siteCall_spec hsite hok hmoves
  have htop := hok.targetTop
  have hfit := (le_siteExtent w).2 p hp
  have hsize := (mem_copies hp).2.1
  have hread : (siteCall w env s moves).load64 (siteBase w env s + p.1.stackOffset) =
      siteSp w env s + BitVec.ofNat 64 p.2 := by
    rw [← (site_copies hsite hok hstack hp).1]
    refine State.load64_congr fun a ha => hcall.mem fun hin => ?_
    have hlo := ha.1
    have hhi := hin.2
    omega
  have hvalue := congrArg low hread
  rw [low_add (by rw [low_siteSp hok]; omega), low_siteSp hok] at hvalue
  rw [← hvalue, argValue_singleton, locValue_stack (hstack p hp),
    width_of_isIndirect (mem_indirectCopies hp).2.1, hcall.sp,
    low_siteSp hok, low, State.toNat_load64]

theorem Traced.delivered (h : Traced w) (hsite : IsSite w) (hok : SiteOk w env s)
    (hmoves : siteMoves w = some moves) :
    Delivered w env s (siteCall w env s moves) := by
  have hcall := siteCall_spec hsite hok hmoves
  have hstack := h.copies_isStack
  refine ⟨?_, fun g hg hind => ?_, fun g hg hind => ?_⟩
  · have hpointer := hcall.pointer
    rw [siteOrigins_x9, copyOrigins_of_isStack hstack] at hpointer
    rw [pointer_value]
    exact hpointer.trans (Nat.mod_eq_of_lt (s.regs (.x 0)).isLt)
  · rw [argValue_iff (site_shift hg) (siteSp w env s)]
    exact fun p hp => locValue_traced hsite hok hmoves hg hp hstack (h.args g hg hind p hp)
  · obtain ⟨loc, src, offset, hlocs, hsrcs, hcopy, -, hwidth, hwidth', hsize, -, hshift⟩ :=
      indirect_group hg hind
    have hstacks := h.indirects g hg hind
    rw [hlocs, hsrcs] at hstacks
    have hloc := hstacks.1 loc (List.mem_singleton_self _)
    have hsrc := hstacks.2 src (List.mem_singleton_self _)
    have hfit : offset + loc.size ≤ w.sizes.total := h.fits _ hcopy
    -- the caller's pointer
    set q := s.load64 (low s.sp + (wrapperArgSize w - w.sizes.argSize) + loc.stackOffset)
    have hq : s.mem.read (low s.sp + (wrapperArgSize w - w.sizes.argSize) + loc.stackOffset) 8 =
      q.toNat := (s.toNat_load64 _).symm
    have hpointer : argValue s (low s.sp) g.2.2 % 2 ^ 56 = low q := by
      rw [hsrcs, argValue_singleton, locValue_stack hsrc, hwidth', hshift hloc hsrc,
        Nat.add_comm loc.stackOffset, ← Nat.add_assoc, hq]
      rfl
    rw [CopyArrives, hlocs, pointer_at_call hsite hok hmoves hstack hcopy, hpointer, ← hsize]
    intro htop hdisj
    have hroom := site_room hok
    refine ⟨fun a ha => ?_, fun i hi => ?_⟩
    · rw [hcall.sp, low_siteSp hok, hroom]
      exact ⟨(Nat.le_add_right _ _).trans ha.1, ha.2.trans_le (by omega)⟩
    · rw [← (site_copies hsite hok hstack hcopy).2 q hq htop hdisj i hi]
      exact hcall.mem fun hin => absurd hin.2 (by omega)

theorem delivers_of_traced (hsite : IsSite w) (hok : SiteOk w env s) (h : Traced w) :
    Delivers w env s := by
  obtain ⟨moves, hmoves⟩ := Option.isSome_iff_exists.mp h.moves
  rw [delivers_iff hsite]
  exact fun s' hs' => ⟨moves, hmoves, h.delivered hsite (hs'.siteOk hok) hmoves⟩

end Traced

end Ia2.Arm
