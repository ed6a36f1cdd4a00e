import Ia2.Arm.Crossing
import Ia2.Arm.InStep
import Mathlib.Data.List.Pairwise

/-!
# Indirect calls on AArch64

The gate at an indirect call site delivers all arguments exactly if each of them arrives, as
`Arrives` says. For the converse, one register or byte of the caller is changed where a location
does not have its value from its source.
-/

namespace Ia2.Arm

open StraightLine Set
open Rewriter (ArgLocation Slot)
open Rewriter.ArgLocation (register indirect)

variable {w : Wrapper} {env : Env} {s s' : State}

/-! ### The same call with one argument changed -/

def poke (s : State) (a : Nat) (v : BitVec 8) : State := s.store a 1 v.toNat

theorem poke_mem_self (s : State) (a : Nat) (v : BitVec 8) : (poke s a v).mem a = v := by
  rw [poke, State.store_mem, ByteMemory.write_one_apply, BitVec.ofNat_toNat, BitVec.setWidth_eq]

variable {a m : Nat}

theorem poke_mem_of_ne (s : State) {b : Nat} (h : b ≠ a) (v : BitVec 8) :
    (poke s a v).mem b = s.mem b :=
  ByteMemory.write_of_notMem fun hb => h (by have := hb.1; have := hb.2; omega)

theorem passes_poke (ha : a ∉ cell env w.targetPkey) (v : BitVec 8) :
    Passes w env s (poke s a v) :=
  ⟨rfl, fun b hb => poke_mem_of_ne s (fun h => ha (by rwa [h] at hb)) v⟩

theorem passes_set (n : Fin 31) (u : BitVec 64) : Passes w env s (s.set (.x n) u) :=
  ⟨rfl, fun _ _ => rfl⟩

theorem passes_setQ (i : VReg) (u : BitVec 128) : Passes w env s (s.setQ i u) :=
  ⟨rfl, fun _ _ => rfl⟩

theorem Passes.refl (w : Wrapper) (env : Env) (s : State) : Passes w env s s :=
  ⟨rfl, fun _ _ => rfl⟩

theorem Passes.trans {s'' : State} (h : Passes w env s s') (h' : Passes w env s' s'') :
    Passes w env s s'' :=
  ⟨h'.sp.trans h.sp, h'.cell.trans h.cell⟩

theorem Passes.siteSp (h : Passes w env s s') : siteSp w env s' = siteSp w env s := by
  rw [Arm.siteSp, Arm.siteSp, h.stackptr]

theorem Passes.siteBase (h : Passes w env s s') : siteBase w env s' = siteBase w env s := by
  rw [Arm.siteBase, Arm.siteBase, h.stackptr]

theorem one_mod_pow (hm : 0 < m) : 1 % 256 ^ m = 1 :=
  Nat.mod_eq_of_lt (Nat.one_lt_pow (by omega) (by decide))

theorem mod_pow_mod (a : Nat) (hm : 0 < m) : a % 256 ^ m % 256 = a % 256 :=
  Nat.mod_mod_of_dvd a (dvd_pow_self 256 (by omega))

theorem place_eq_of_passes {p q : Place} {n m : Nat} {v : BitVec 64} (hn : 0 < n) (hm : 0 < m)
    (hstack : ∀ offset, q = .stack offset → low s.sp + offset ∉ cell env w.targetPkey)
    (hcopy : ∀ offset, q ≠ .copy offset)
    (h : ∀ s', Passes w env s s' → p.value v s' n % 256 ^ m = q.value v s' m) : p = q := by
  by_contra hne
  cases q with
  | x k =>
    have hsame : ∀ u, p.value v (s.set (.x k) u) n = p.value v s n := fun u => by
      cases p with
      | x k' =>
        have hk : Reg.x k' ≠ .x k := fun hk => hne (congrArg Place.x (Reg.x.inj hk))
        simp only [Place.value, State.set_regs, if_neg hk]
      | _ => rfl
    have hzero := h _ (passes_set k 0)
    have hone := h _ (passes_set k 1)
    rw [hsame] at hzero hone
    have hvalue : ∀ u, (Place.x k).value v (s.set (.x k) u) m = u.toNat % 256 ^ m :=
      fun u => by simp [Place.value]
    rw [hvalue] at hzero hone
    have hcontra := hzero.symm.trans hone
    rw [show (1 : BitVec 64).toNat = 1 from rfl, one_mod_pow hm] at hcontra
    simp at hcontra
  | q i =>
    have hsame : ∀ u, p.value v (s.setQ i u) n = p.value v s n := fun u => by
      cases p with
      | q j =>
        have hj : j ≠ i := fun hj => hne (congrArg Place.q hj)
        simp only [Place.value, State.setQ_vregs, if_neg hj]
      | _ => rfl
    have hzero := h _ (passes_setQ i 0)
    have hone := h _ (passes_setQ i 1)
    rw [hsame] at hzero hone
    have hvalue : ∀ u, (Place.q i).value v (s.setQ i u) m = u.toNat % 256 ^ m :=
      fun u => by simp [Place.value]
    rw [hvalue] at hzero hone
    have hcontra := hzero.symm.trans hone
    rw [show (1 : BitVec 128).toNat = 1 from rfl, one_mod_pow hm] at hcontra
    simp at hcontra
  | stack offset =>
    have hsame : ∀ u, p.value v (poke s (low s.sp + offset) u) n % 256 = p.value v s n % 256 :=
      fun u => by
      cases p with
      | stack offset' =>
        have ha : low s.sp + offset' ≠ low s.sp + offset :=
          fun ha => hne (congrArg Place.stack (Nat.add_left_cancel ha))
        have hbyte := poke_mem_of_ne s ha u
        change ByteMemory.read _ _ n % 256 = ByteMemory.read _ _ n % 256
        rw [ByteMemory.read_mod _ _ hn, ByteMemory.read_mod _ _ hn]
        exact congrArg BitVec.toNat hbyte
      | _ => rfl
    have hvalue : ∀ u, (Place.stack offset).value v (poke s (low s.sp + offset) u) m % 256 =
      u.toNat := fun u => by
      change ByteMemory.read _ _ m % 256 = _
      rw [ByteMemory.read_mod _ _ hm]
      exact congrArg BitVec.toNat (poke_mem_self s _ u)
    have hpoke : ∀ u : BitVec 8, p.value v s n % 256 = u.toNat := fun u => by
      rw [← hsame u, ← hvalue u, ← h _ (passes_poke (hstack offset rfl) u), mod_pow_mod _ hm]
    have hcontra := (hpoke 0).symm.trans (hpoke 1)
    simp at hcontra
  | copy offset => exact hcopy offset rfl

/-! ### Registers -/

section Lost

variable {moves : List Instr}
variable {offset : Nat} {g : ArgLocation × List Location × List Location} {p : Location × Place}
  {loc : Location}

theorem caller_notMem_cell (hok : SiteOk w env s) (h : offset < wrapperArgSize w + 16) :
    low s.sp + offset ∉ cell env w.targetPkey := fun hcell =>
  disjoint_left.mp hok.cells_caller (.inr hcell) ⟨by omega, by omega⟩

theorem Delivers.delivered (h : Delivers w env s) (hsite : IsSite w)
    (hmoves : siteMoves w = some moves) (hs : Passes w env s s') :
    Delivered w env s' (siteCall w env s' moves) := by
  obtain ⟨moves', hmoves', hdelivered⟩ := (delivers_iff hsite).mp h s' hs
  obtain rfl := Option.some.inj (hmoves.symm.trans hmoves')
  exact hdelivered

variable (h : Delivers w env s) (hsite : IsSite w) (hok : SiteOk w env s)
  (hmoves : siteMoves w = some moves)
include h hsite hok hmoves

theorem Delivers.pointer_origin : siteOrigins w (.x 9) = .x 0 := by
  refine @place_eq_of_passes w env s _ _ 8 8 (siteSp w env s) (by decide) (by decide)
    (fun _ h => by cases h) (fun _ h => by cases h) fun s' hs' => ?_
  have hpointer := (h.delivered hsite hmoves hs').pointer
  have hcall := (siteCall_spec hsite (hs'.siteOk hok) hmoves).pointer
  rw [hs'.siteSp] at hcall
  rw [pointer_value] at hpointer
  have hlt : (s'.regs (.x 0)).toNat < 256 ^ 8 := (s'.regs (.x 0)).isLt
  rw [← hcall]
  change (_ : Nat) % 256 ^ 8 = (s'.regs (.x 0)).toNat % 256 ^ 8
  exact congrArg (· % 256 ^ 8) hpointer

theorem Delivers.locValue_eq (hg : g ∈ siteGroups w.sig) (hind : g.1.isIndirect = false)
    (hp : p ∈ g.2.1.zip (sources g.2.1 g.2.2)) (hs : Passes w env s s') :
    locValue (siteCall w env s' moves) (siteBase w env s) p.1 =
      p.2.value (siteSp w env s) s' p.1.width := by
  have hargs := (h.delivered hsite hmoves hs).args g hg hind
  have hcall := siteCall_spec hsite (hs.siteOk hok) hmoves
  rw [argValue_iff (site_shift hg) (siteSp w env s), hcall.sp, low_siteSp (hs.siteOk hok),
    hs.siteBase] at hargs
  exact hargs p hp

theorem Delivers.origin (hg : g ∈ siteGroups w.sig) (hind : g.1.isIndirect = false)
    (hp : p ∈ g.2.1.zip (sources g.2.1 g.2.2)) (hpos : 0 < p.1.width) (hstack : p.1.isStack = false)
    {r : ArgReg} (hr : p.1.reg = some r) : siteOrigins w r = p.2 := by
  have hloc : p.1 ∈ siteLocs w := mem_siteLocs_of_group hg (List.of_mem_zip hp).1
  have hbytes : 0 < r.bytes := by cases r <;> exact Nat.succ_pos _
  have hsourced := sourced hg hp
  refine @place_eq_of_passes w env s _ _ _ _ (siteSp w env s) hbytes hpos (fun offset hsrc => ?_)
    (fun offset hsrc => ?_) fun s' hs' => ?_
  · rw [hsrc] at hsourced
    refine caller_notMem_cell hok ?_
    cases hsourced with
    | x _ _ _ h =>
      rcases h with ⟨k, -, hk⟩ | ⟨offset', hoffset, hend⟩
      · cases hk
      · cases hoffset
        omega
    | stack _ hend => omega
  · rw [hsrc] at hsourced
    cases hsourced with
    | x _ _ _ h =>
      rcases h with ⟨k, -, hk⟩ | ⟨offset', hoffset, -⟩
      · cases hk
      · cases hoffset
  · have hvalue := h.locValue_eq hsite hok hmoves hg hind hp hs'
    have hholds := (siteCall_spec hsite (hs'.siteOk hok) hmoves).holds p.1 hloc hstack r hr
    rw [hs'.siteSp] at hholds
    rw [← hholds, ← hvalue, locValue_reg hstack hr]

omit h hsite hok hmoves in
theorem siteOrigins_ne {n : Fin 31} (hcopy : copyTo w.copies n = some offset) (r : ArgReg) :
    siteOrigins w r ≠ .x n := by
  have hstart : ∀ r, copyOrigins w.copies r ≠ .x n := fun r => by
    cases r with
    | x k =>
      by_cases hk : k = n
      · subst hk
        rw [copyOrigins, hcopy]
        simp
      · rw [copyOrigins]
        cases copyTo w.copies k <;> simp [hk]
    | q i => simp [copyOrigins]
  refine origins_ne (fun _ h => by cases h) (fun r => ?_) _ _ r
  rw [Function.update_apply]
  split
  · exact hstart _
  · exact hstart r

omit h hsite hok hmoves in
theorem slot_eq (hg : g ∈ siteGroups w.sig) (hind : g.1.isIndirect = true) {slot : ArgLocation}
    {k : Nat} (hk : k < 8) (hlocs : g.2.1 = [⟨slot, intReg k⟩]) : slot = g.1 := by
  obtain ⟨r, -, hr⟩ := intReg_lt hk
  have hshift := site_shift hg
  obtain ⟨arg, locs, srcs⟩ := g
  dsimp only at hshift hind hlocs ⊢
  cases hshift with
  | word | spill => exact (congrArg Location.slot (List.singleton_inj.mp hlocs)).symm
  | unspill | stacked =>
    have hreg := congrArg Location.reg (List.singleton_inj.mp hlocs)
    rw [hr] at hreg
    cases hreg
  | pair | split | vector => cases hind

theorem Delivers.not_register (k : Nat) (hk : k < 8) (hg : g ∈ siteGroups w.sig)
    (hind : g.1.isIndirect = true) : g.2.1 ≠ [⟨g.1, intReg k⟩] := by
  induction k using Nat.strongRecOn generalizing g with
  | ind k ih =>
    intro hlocs
    obtain ⟨n, hn, hreg⟩ := intReg_lt hk
    obtain ⟨loc, src, offset, hlocs', -, hcopy, hword, -⟩ := indirect_group hg hind
    obtain rfl : loc = ⟨g.1, intReg k⟩ := List.singleton_inj.mp (hlocs'.symm.trans hlocs)
    obtain ⟨offset', hoffset⟩ := exists_copyTo hcopy hword.isStack hreg
    have hne := siteOrigins_ne hoffset
    cases k with
    | zero =>
      obtain rfl : n = 0 := by
        have hzero : intReg 0 = some (.x 0) := rfl
        simpa [hzero] using hreg.symm
      exact hne (.x 9) (h.pointer_origin hsite hok hmoves)
    | succ k =>
      obtain ⟨arg, locs, srcs⟩ := g
      dsimp only at hlocs hword hg
      subst hlocs
      obtain ⟨g', hg', hlen, slot, hpair, hslot⟩ :=
        (covered w.sig.args_slots (phase_initial w.sig.ret) hword hk hg).2 k (by
          rcases initialParams_cases w.sig.ret with h | h <;> rw [h] <;>
            exact Nat.zero_le _) (Nat.lt_succ_self k)
      obtain ⟨n', hn', hreg'⟩ := intReg_lt (Nat.lt_of_succ_lt hk)
      by_cases hind' : g'.1.isIndirect = true
      · -- the register before it is that of another indirect argument
        obtain ⟨loc', -, -, hlocs', -⟩ := indirect_group hg' hind'
        have hmem := (List.of_mem_zip hpair).1
        rw [hlocs', List.mem_singleton] at hmem
        rw [← hmem] at hlocs'
        refine ih k (Nat.lt_succ_self k) (Nat.lt_of_succ_lt hk) hg' hind' ?_
        rw [← slot_eq hg' hind' (Nat.lt_of_succ_lt hk) hlocs']
        exact hlocs'
      · have hplace : (⟨slot, intReg (k + 1)⟩ : Location).place = .x n := place_intReg hslot hreg
        have hmem : ((⟨slot, intReg k⟩ : Location), Place.x n) ∈
            g'.2.1.zip (sources g'.2.1 g'.2.2) := by
          rw [sources_of_length hlen, ← hplace, List.zip_map_right]
          exact List.mem_map.mpr ⟨_, hpair, rfl⟩
        have hwidth : (⟨slot, intReg k⟩ : Location).width = 8 := by
          cases sourced hg' hmem with
          | x _ _ hwidth => exact hwidth
          | spilled _ hwidth => exact hwidth
        exact hne (.x n') (h.origin hsite hok hmoves hg' (by simpa using hind') hmem
          (by rw [hwidth]; decide) hslot hreg')

theorem Delivers.locs_isStack (hg : g ∈ siteGroups w.sig) (hind : g.1.isIndirect = true) :
    ∀ loc ∈ g.2.1, loc.isStack = true := by
  have hnot := fun k hk => h.not_register hsite hok hmoves k hk hg hind
  have hshift := site_shift hg
  obtain ⟨arg, locs, srcs⟩ := g
  dsimp only at hshift hind hnot ⊢
  cases hshift with
  | @word _ k _ hk => exact absurd rfl (hnot k (by omega))
  | spill => exact absurd rfl (hnot 7 (by decide))
  | unspill | stacked => exact List.forall_mem_singleton.mpr rfl
  | pair | split | vector => cases hind

theorem Delivers.copies_isStack : ∀ p ∈ w.copies, p.1.isStack = true := by
  intro p hp
  obtain ⟨g, hg, hind, hlocs⟩ := exists_group_of_mem_copies hp
  exact h.locs_isStack hsite hok hmoves hg hind p.1 (hlocs ▸ List.mem_singleton_self _)

/-! ### Stack arguments -/

omit h hsite hok hmoves in
theorem first_byte_apart (hloc : loc ∈ siteLocs w) (hstack : loc.isStack = true)
    (hind : loc.isIndirect = false) (hpos : 0 < loc.width) {p : Location × Nat} (hp : p ∈ w.copies)
    (b : Nat) : b + loc.stackOffset ∉ pointerArea b p := by
  intro hin
  unfold pointerArea at hin
  split at hin
  case isTrue hstack' =>
    obtain ⟨hmem, hind', -⟩ := mem_indirectCopies hp
    have hne : loc ≠ p.1 := fun heq => by
      rw [heq, hind'] at hind
      cases hind
    have hmem' : loc ∈ w.args := by
      rw [args_eq_siteLocs]
      exact List.mem_append_right _ hloc
    have hsymm : Std.Symm fun a b : Location => a.Before b ∨ b.Before a := ⟨fun _ _ h => h.symm⟩
    have hpairs : w.args.Pairwise fun a b => a.Before b ∨ b.Before a :=
      (args_pairwise w).imp fun h => .inl h
    have horder := hpairs.forall hmem' hmem hne
    have hwidth := width_of_isIndirect hind'
    have hlo := hin.1
    have hhi := hin.2
    rcases horder with hbefore | hbefore
    · have := hbefore hstack hstack'
      omega
    · have := hbefore hstack' hstack
      omega
  · cases hin

omit h hsite hok hmoves in
theorem isIndirect_of_mem (hg : g ∈ siteGroups w.sig) (hloc : loc ∈ g.2.1) :
    loc.isIndirect = g.1.isIndirect := by
  obtain ⟨st, i, f, o, hround, -⟩ := exists_round w.sig.args_slots (pairGroups_left hg)
  exact hround.isIndirect loc hloc

section Stack

variable {g : ArgLocation × List Location × List Location} (hg : g ∈ siteGroups w.sig)
  (hind : g.1.isIndirect = false)
  {p : Location × Place} (hp : p ∈ g.2.1.zip (sources g.2.1 g.2.2)) (hstack : p.1.isStack = true)
include hg hind hp hstack

theorem Delivers.byte_eq (hsrc : p.2 = .stack offset) (hs : Passes w env s s') {j : Nat}
    (hj : j < p.1.width) :
    (siteCopied w env s').mem (siteBase w env s + (p.1.stackOffset + j)) =
      s'.mem (low s.sp + (offset + j)) := by
  have hvalue := h.locValue_eq hsite hok hmoves hg hind hp hs
  have hcall := siteCall_spec hsite (hs.siteOk hok) hmoves
  rw [locValue_stack hstack, hsrc] at hvalue
  have hbyte := congrArg (fun n => n / 256 ^ j % 256) hvalue
  simp only [Place.value, ByteMemory.read_div_mod _ _ hj] at hbyte
  rw [hs.sp, Nat.add_assoc, Nat.add_assoc, hcall.mem fun hin =>
    absurd hin.2 (by rw [hs.siteBase]; omega)] at hbyte
  exact BitVec.eq_of_toNat_eq hbyte

omit h hmoves in
theorem first_byte (hpos : 0 < p.1.width) (hs : Passes w env s s') :
    (siteCopied w env s').mem (siteBase w env s + p.1.stackOffset) =
      s'.mem (low s.sp + (p.1.stackOffset + (wrapperArgSize w - w.sizes.argSize))) := by
  have hloc := (List.of_mem_zip hp).1
  have hend : p.1.stackOffset + min p.1.width 8 ≤ w.sizes.argSize := (loc_stack hg hloc hstack).1
  have hlt : p.1.stackOffset < w.sizes.argSize := by omega
  have hbyte := site_stackArg hsite (hs.siteOk hok) hlt fun q hq =>
    first_byte_apart (mem_siteLocs_of_group hg hloc) hstack
      ((isIndirect_of_mem hg hloc).trans hind) hpos hq _
  rw [hs.siteBase, hs.sp] at hbyte
  rw [hbyte, Nat.add_assoc, Nat.add_comm (wrapperArgSize w - w.sizes.argSize)]

theorem Delivers.source_eq (hpos : 0 < p.1.width) :
    p.2 = .stack (p.1.stackOffset + (wrapperArgSize w - w.sizes.argSize)) := by
  have hloc := (List.of_mem_zip hp).1
  have hend : p.1.stackOffset + min p.1.width 8 ≤ w.sizes.argSize := (loc_stack hg hloc hstack).1
  have hle := argSize_le_wrapperArgSize w
  have hsourced := sourced hg hp
  generalize hsrc : p.2 = src at hsourced
  cases hsourced with
  | x hreg | q hreg => simp [hstack] at hreg
  | @stack offset _ hend' =>
    by_contra hne
    have ha : low s.sp + offset ∉ cell env w.targetPkey := caller_notMem_cell hok (by omega)
    have hbyte : ∀ u, s.mem (low s.sp + (p.1.stackOffset + (wrapperArgSize w - w.sizes.argSize))) =
      u := fun u => by
      have hs := passes_poke (s := s) ha u
      have hleft := first_byte hsite hok hg hind hp hstack hpos hs
      have hright := h.byte_eq hsite hok hmoves hg hind hp hstack hsrc hs hpos
      rw [Nat.add_zero, Nat.add_zero, hleft, poke_mem_self, poke_mem_of_ne] at hright
      · exact hright
      · exact fun heq => hne (congrArg Place.stack (Nat.add_left_cancel heq).symm)
    have hcontra := (hbyte 0).symm.trans (hbyte 1)
    simp at hcontra
  | @spilled k _ hwidth =>
    -- the source is a register, and the location has a byte of the caller's stack
    have hbyte : ∀ u,
      (s.mem (low s.sp + (p.1.stackOffset + (wrapperArgSize w - w.sizes.argSize)))).toNat =
      BitVec.toNat u % 256 := fun u => by
      have hs := @passes_set w env s k u
      have hleft := first_byte hsite hok hg hind hp hstack hpos hs
      have hvalue := h.locValue_eq hsite hok hmoves hg hind hp hs
      have hcall := siteCall_spec hsite (hs.siteOk hok) hmoves
      have hmod := congrArg (· % 256) hvalue
      rw [locValue_stack hstack, hsrc] at hmod
      simp only [ByteMemory.read_mod _ _ hpos, Place.value, State.set_regs, if_true,
        mod_pow_mod _ hpos] at hmod
      rw [hcall.mem fun hin => absurd hin.2 (by rw [hs.siteBase]; omega), hleft] at hmod
      exact hmod
    have hcontra := (hbyte 0).symm.trans (hbyte 1)
    simp at hcontra

theorem Delivers.end_le (hpos : 0 < p.1.width) : p.1.stackOffset + p.1.width ≤ w.sizes.argSize := by
  have hloc := (List.of_mem_zip hp).1
  have hend : p.1.stackOffset + min p.1.width 8 ≤ w.sizes.argSize := (loc_stack hg hloc hstack).1
  have hsource := h.source_eq hsite hok hmoves hg hind hp hstack hpos
  have hsourced := sourced hg hp
  rw [hsource] at hsourced
  have hend' : p.1.stackOffset + (wrapperArgSize w - w.sizes.argSize) + p.1.width ≤
      wrapperArgSize w + 8 := by
    cases hsourced with
    | x hreg => simp [hstack] at hreg
    | stack _ hend' => exact hend'
  by_contra hlt
  -- the byte above the stack arguments
  obtain ⟨j, hj, hjend⟩ : ∃ j, j < p.1.width ∧ p.1.stackOffset + j = w.sizes.argSize :=
    ⟨w.sizes.argSize - p.1.stackOffset, by omega, by omega⟩
  set offset := p.1.stackOffset + (wrapperArgSize w - w.sizes.argSize)
  have ha : low s.sp + (offset + j) ∉ cell env w.targetPkey := caller_notMem_cell hok (by omega)
  have hbyte : ∀ u, (if 0 < w.sizes.returnSize ∧ w.sizes.argPadding = 0
    then BitVec.ofNat 8 (s.regs (.x 8)).toNat
      else s.mem (siteBase w env s + w.sizes.argSize)) = u := fun u => by
    have hs := passes_poke (s := s) ha u
    have hright := h.byte_eq hsite hok hmoves hg hind hp hstack hsource hs hj
    have habove := site_above hsite (hs.siteOk hok)
    rw [hs.siteBase] at habove
    rw [hjend, habove, poke_mem_self, poke_mem_of_ne] at hright
    · exact hright
    · intro heq
      have htotal := (le_siteExtent w).1
      have hargs := @argBytes_le_total w
      have hcaller : low s.sp + (offset + j) ∈ callerArea w s := ⟨by omega, by omega⟩
      refine disjoint_left.mp hok.areas hcaller ?_
      rw [← heq]
      exact ⟨by omega, by omega⟩
  have hcontra := (hbyte 0).symm.trans (hbyte 1)
  simp at hcontra

theorem Delivers.slots_apart (hpos : 0 < p.1.width) {q : Location × Nat} (hq : q ∈ w.copies) :
    p.1.stackOffset + p.1.width ≤ q.1.stackOffset ∨ q.1.stackOffset + 8 ≤ p.1.stackOffset := by
  have hloc := (List.of_mem_zip hp).1
  have hcopies := h.copies_isStack hsite hok hmoves
  have hsource := h.source_eq hsite hok hmoves hg hind hp hstack hpos
  have hend := h.end_le hsite hok hmoves hg hind hp hstack hpos
  have hle := argSize_le_wrapperArgSize w
  have hfirst := first_byte_apart (mem_siteLocs_of_group hg hloc) hstack
    ((isIndirect_of_mem hg hloc).trans hind) hpos hq 0
  rw [pointerArea, if_pos (hcopies q hq), mem_Ico] at hfirst
  by_contra hlap
  -- the first byte of the pointer is one of the argument
  obtain ⟨j, hj, hjslot⟩ : ∃ j, j < p.1.width ∧ p.1.stackOffset + j = q.1.stackOffset :=
    ⟨q.1.stackOffset - p.1.stackOffset, by omega, by omega⟩
  set offset := p.1.stackOffset + (wrapperArgSize w - w.sizes.argSize)
  have ha : low s.sp + (offset + j) ∉ cell env w.targetPkey := caller_notMem_cell hok (by omega)
  have hbyte : ∀ u : BitVec 8, (siteSp w env s + BitVec.ofNat 64 q.2).toNat % 256 = u.toNat :=
    fun u => by
    have hs := passes_poke (s := s) ha u
    have hright := h.byte_eq hsite hok hmoves hg hind hp hstack hsource hs hj
    have hpointer := congrArg BitVec.toNat (site_copies hsite (hs.siteOk hok) hcopies hq).1
    rw [State.toNat_load64, hs.siteBase, hs.siteSp] at hpointer
    rw [hjslot, poke_mem_self] at hright
    rw [← hpointer, ByteMemory.read_mod _ _ (by decide), hright]
  have hcontra := (hbyte 0).symm.trans (hbyte 1)
  simp at hcontra

end Stack

/-! ### Indirect arguments -/

section Pointers

variable {g : ArgLocation × List Location × List Location} (hg : g ∈ siteGroups w.sig)
  (hind : g.1.isIndirect = true)

omit h hsite hok hmoves in
theorem gateWrites_subset : gateWrites w env s ⊆ siteMemory w env s := by
  rintro a ((hcell | hframe) | htarget)
  · exact .inl (.inl (.inl hcell))
  · exact .inl (.inr ⟨hframe.1, hframe.2.trans_le (by omega)⟩)
  · exact .inr ⟨htarget.1, htarget.2.trans_le (by omega)⟩

omit h hsite hok hmoves in
theorem Passes.gateWrites (hs : Passes w env s s') : gateWrites w env s' = gateWrites w env s := by
  rw [Arm.gateWrites, Arm.gateWrites, hs.sp, hs.siteBase]

omit h hsite hmoves in
theorem passes_word (hoffset : offset + 8 ≤ wrapperArgSize w + 16) (v : Nat) :
    Passes w env s (s.store (low s.sp + offset) 8 v) := by
  refine ⟨rfl, fun a ha => ByteMemory.write_of_notMem fun hin => ?_⟩
  exact disjoint_left.mp hok.cells_caller (.inr ha)
    ⟨by have := hin.1; omega, by have := hin.2; omega⟩

include hg hind

omit h hsite hmoves in
theorem spare_apart :
    ∃ a, a + (g.1.bytes + 1) ≤ 2 ^ 56 ∧ Disjoint (Ico a (a + (g.1.bytes + 1)))
    (siteMemory w env s) :=
  hok.spare g.1 (fst_mem_of_mem_paramGroups (pairGroups_left hg)) hind

theorem Delivers.copied (hs : Passes w env s s') {pointer : Nat} (hlocs : g.2.1 = [loc])
    (hcopy : (loc, offset) ∈ w.copies) (htop : a + (g.1.bytes + 1) ≤ 2 ^ 56)
    (hspare : Disjoint (Ico a (a + (g.1.bytes + 1))) (siteMemory w env s))
    (hpointer : a ≤ pointer ∧ pointer ≤ a + 1)
    (hvalue : argValue s' (low s'.sp) g.2.2 % 2 ^ 56 = pointer) :
    Ico (siteBase w env s + offset) (siteBase w env s + offset + g.1.bytes) ⊆
        Ico (low (siteCall w env s' moves).sp) (low (stackptr env w.targetPkey s')) ∧
      ∀ i < g.1.bytes, (siteCall w env s' moves).mem (siteBase w env s + offset + i) =
        s'.mem (pointer + i) := by
  have hcopies := h.copies_isStack hsite hok hmoves
  have hdelivered := (h.delivered hsite hmoves hs).indirects g hg hind
  rw [hvalue, hlocs, pointer_at_call hsite (hs.siteOk hok) hmoves hcopies hcopy, CopyArrives,
    hs.gateWrites, hs.siteBase] at hdelivered
  have hinside : Ico pointer (pointer + g.1.bytes) ⊆ Ico a (a + (g.1.bytes + 1)) :=
    Ico_subset_Ico (by omega) (by omega)
  exact hdelivered (by omega) ((hspare.mono_left hinside).mono_right gateWrites_subset)

omit hg hind in
theorem Delivers.copied_slot (hs : Passes w env s s') (hcopy : (loc, offset) ∈ w.copies)
    (hsize : loc.size = g.1.bytes) (htop : a + (g.1.bytes + 1) ≤ 2 ^ 56)
    (hspare : Disjoint (Ico a (a + (g.1.bytes + 1))) (siteMemory w env s))
    (hread : s'.mem.read (low s.sp + (wrapperArgSize w - w.sizes.argSize + loc.stackOffset)) 8 =
    a) :
    (siteCall w env s' moves).mem (siteBase w env s + offset) = s'.mem a := by
  have hcopies := h.copies_isStack hsite hok hmoves
  have htoNat : (BitVec.ofNat 64 a).toNat = a := by
    rw [BitVec.toNat_ofNat]
    omega
  have hlow : low (BitVec.ofNat 64 a) = a := by
    rw [low, htoNat]
    omega
  have hbytes := (site_copies hsite (hs.siteOk hok) hcopies hcopy).2 (BitVec.ofNat 64 a)
    (by rw [htoNat, hs.sp, Nat.add_assoc]; exact hread) (by rw [hlow, hsize]; omega)
    (by
      rw [hlow, hsize, hs.gateWrites]
      exact (hspare.mono_left (Ico_subset_Ico (by omega) (by omega))).mono_right gateWrites_subset)
        0 (mem_copies hcopy).2.1
  rw [hs.siteBase, hlow, Nat.add_zero, Nat.add_zero] at hbytes
  have hkept := (siteCall_spec hsite (hs.siteOk hok) hmoves).mem
  rw [hs.siteBase] at hkept
  rw [hkept fun hin => absurd hin.2 (by omega), hbytes]

theorem Delivers.srcs_isStack : ∀ src ∈ g.2.2, src.isStack = true := by
  obtain ⟨loc, src, offset, hlocs, hsrcs, hcopy, hword, hwidth, hwidth', hsize, hplaced, -⟩ :=
    indirect_group hg hind
  have hcopies := h.copies_isStack hsite hok hmoves
  have hloc : loc.isStack = true := hcopies _ hcopy
  rw [hsrcs]
  refine List.forall_mem_singleton.mpr ?_
  have hsourced : Sourced w loc src.place := by
    refine sourced hg (p := (loc, src.place)) ?_
    rw [hlocs, hsrcs]
    exact List.mem_singleton_self _
  rcases hplaced with hstack | ⟨hstack, r, hr⟩
  · exact hstack
  exfalso
  have hplace : src.place = r.place := by
    rw [Location.place, if_neg (by simp [hstack]), hr]
  rw [hplace] at hsourced
  generalize hr' : r.place = src' at hsourced
  cases hsourced with
  | x hreg | q hreg => simp [hloc] at hreg
  | stack => cases r <;> cases hr'
  | @spilled k =>
    have hpos : 0 < loc.size := (mem_copies hcopy).2.1
    have hslot : loc.stackOffset + 8 ≤ w.sizes.argSize := (mem_copies hcopy).2.2.2.2 hloc
    have hle := argSize_le_wrapperArgSize w
    obtain ⟨a, htop, hspare⟩ := spare_apart hok hg hind
    have hout : ∀ x, x < g.1.bytes + 1 → a + x ∉ siteMemory w env s :=
      fun x hx => disjoint_left.mp hspare ⟨by omega, by omega⟩
    have hfirst := hout 0 (by omega)
    rw [Nat.add_zero] at hfirst
    set slot := wrapperArgSize w - w.sizes.argSize + loc.stackOffset
    -- the caller passes one address on the stack and the next one in the register
    let s₁ := (s.set (.x k) (BitVec.ofNat 64 (a + 1))).store (low s.sp + slot) 8 a
    have hs₁ : Passes w env s s₁ :=
      (passes_set k _).trans (passes_word ((passes_set k _).siteOk hok) (by omega) a)
    have hbyte : ∀ u, s₁.mem (a + 1) = u := fun u => by
      have hs : Passes w env s (poke s₁ a u) :=
        hs₁.trans (passes_poke (fun hin => hfirst (.inl (.inl (.inr hin)))) u)
      have hread : (poke s₁ a u).mem.read (low s.sp + slot) 8 = a := by
        have hkeep : EqOn (poke s₁ a u).mem s₁.mem (Ico (low s.sp + slot) (low s.sp + slot + 8)) :=
          fun x hx => by
          refine poke_mem_of_ne s₁ (fun heq => hfirst (.inl (.inr ?_))) u
          rw [← heq]
          exact ⟨by have := hx.1; omega, by have := hx.2; omega⟩
        rw [ByteMemory.read_congr hkeep]
        exact ByteMemory.read_write _ _ (by omega)
      have hvalue : argValue (poke s₁ a u) (low (poke s₁ a u).sp) g.2.2 % 2 ^ 56 = a + 1 := by
        obtain rfl : r = .x k := by cases r <;> cases hr'; rfl
        have hregs : (poke s₁ a u).regs (.x k) = BitVec.ofNat 64 (a + 1) := if_pos rfl
        rw [hsrcs, argValue_singleton, locValue_reg hstack hr, ArgReg.value, hregs, hwidth',
          BitVec.toNat_ofNat]
        omega
      have hcopied := (h.copied hsite hok hmoves hg hind hs hlocs hcopy htop hspare
        ⟨by omega, le_rfl⟩ hvalue).2 0 (by omega)
      rw [Nat.add_zero, Nat.add_zero, h.copied_slot hsite hok hmoves hs hcopy hsize htop hspare
        hread, poke_mem_self,
        poke_mem_of_ne s₁ (by omega)] at hcopied
      exact hcopied.symm
    have hcontra := (hbyte 0).symm.trans (hbyte 1)
    simp at hcontra

theorem Delivers.fits (hlocs : g.2.1 = [loc]) (hcopy : (loc, offset) ∈ w.copies) :
    offset + loc.size ≤ w.sizes.total := by
  have hsrcs := h.srcs_isStack hsite hok hmoves hg hind
  obtain ⟨loc', src, offset', hlocs', hsrcs', -, hword, -, hwidth, hsize, -, hshift⟩ :=
    indirect_group hg hind
  obtain rfl : loc' = loc := List.singleton_inj.mp (hlocs'.symm.trans hlocs)
  have hcopies := h.copies_isStack hsite hok hmoves
  have hloc : loc'.isStack = true := hcopies _ hcopy
  have hsrc : src.isStack = true := hsrcs src (hsrcs' ▸ List.mem_singleton_self _)
  have hpos : 0 < loc'.size := (mem_copies hcopy).2.1
  have hslot : loc'.stackOffset + 8 ≤ w.sizes.argSize := (mem_copies hcopy).2.2.2.2 hloc
  have hle := argSize_le_wrapperArgSize w
  have hoffset := hshift hloc hsrc
  obtain ⟨a, htop, hspare⟩ := spare_apart hok hg hind
  have hs : Passes w env s (s.store (low s.sp + src.stackOffset) 8 a) :=
    passes_word hok (by omega) a
  have hvalue : argValue (s.store (low s.sp + src.stackOffset) 8 a) (low s.sp) g.2.2 % 2 ^ 56 =
      a := by
    rw [hsrcs', argValue_singleton, locValue_stack hsrc, hwidth, State.store_mem,
      ByteMemory.read_write _ _ (by omega)]
    omega
  have hcall := siteCall_spec hsite (hs.siteOk hok) hmoves
  have hsub :=
    (h.copied hsite hok hmoves hg hind hs hlocs hcopy htop hspare ⟨le_rfl, by omega⟩ hvalue).1
  rw [hcall.sp, low_siteSp (hs.siteOk hok), site_room (hs.siteOk hok), hs.siteBase, ← hsize] at hsub
  have hlast : siteBase w env s + offset + (loc'.size - 1) ∈
      Ico (siteBase w env s) (siteBase w env s + w.sizes.total) :=
    hsub ⟨by omega, by omega⟩
  have hhi := hlast.2
  omega

end Pointers

theorem Delivers.traced_of_moves : Traced w := by
  refine ⟨hmoves ▸ rfl, fun g hg hind => ?_, fun p hp => ?_, fun g hg hind p hp => ?_⟩
  · exact ⟨h.locs_isStack hsite hok hmoves hg hind, h.srcs_isStack hsite hok hmoves hg hind⟩
  · obtain ⟨g, hg, hind, hlocs⟩ := exists_group_of_mem_copies hp
    exact h.fits hsite hok hmoves hg hind hlocs hp
  · rcases Nat.eq_zero_or_pos p.1.width with hzero | hpos
    · exact .inl hzero
    refine .inr ?_
    split
    case isTrue hstack =>
      exact ⟨h.source_eq hsite hok hmoves hg hind hp hstack hpos,
        h.end_le hsite hok hmoves hg hind hp hstack hpos,
        fun q hq => h.slots_apart hsite hok hmoves hg hind hp hstack hpos hq⟩
    case isFalse hstack =>
      have hreg : p.1.isStack = false := by simpa using hstack
      obtain ⟨r, hr⟩ : ∃ r, p.1.reg = some r := by
        have hsourced := sourced hg hp
        generalize p.2 = src at hsourced
        cases hsourced with
        | x _ hreg => exact ⟨_, hreg⟩
        | q _ hreg => exact ⟨_, hreg⟩
        | spilled h | stack h => exact absurd h hstack
      rw [hr, Option.map_some, h.origin hsite hok hmoves hg hind hp hpos hreg hr]

end Lost

theorem Delivers.traced (h : Delivers w env s) (hsite : IsSite w) (hok : SiteOk w env s) :
    Traced w := by
  obtain ⟨moves, hmoves, -⟩ := (delivers_iff hsite).mp h s (Passes.refl w env s)
  exact h.traced_of_moves hsite hok hmoves

def site (sig : AbiSignature) :
    Wrapper := ⟨sig, [], some (prepended sig), none, .indirectCallsite, 1, 2⟩

theorem site_isSite (sig : AbiSignature) : IsSite (site sig) := ⟨rfl, rfl, rfl⟩

theorem entryState_stackptr : stackptr idleEnv 2 entryState = 0x30000#64 := by
  have haddr : cellAddr idleEnv 2 = 0x10010 := by simp [cellAddr, low, Env.tpoff, idleEnv]
  have hcell : entryState.mem = ByteMemory.write (fun _ => 0) 0x10010 8 (0x30000#64).toNat := rfl
  rw [stackptr, haddr]
  exact State.load64_write hcell

theorem site_ok {sig : AbiSignature}
    (htarget : (site sig).sizes.total + scrubBytes (site sig).args true ≤ 0x1000)
    (hextent : siteExtent (site sig) ≤ 0x1000) (hargs : wrapperArgSize (site sig) ≤ 0x1000)
    (hbytes : ∀ arg ∈ sig.args, arg.bytes ≤ 0x1000) :
    SiteOk (site sig) idleEnv entryState := by
  have hsp : low entryState.sp = 0x20000 := rfl
  have htsp : low (stackptr idleEnv (site sig).targetPkey entryState) = 0x30000 := by
    rw [show (site sig).targetPkey = 2 from rfl, entryState_stackptr]
    rfl
  have hsaved : savedBytes = 96 := rfl
  have hcell : cell idleEnv (site sig).callerPkey = Ico 0x10008 0x10010 := idle_cells.1
  have hcell' : cell idleEnv (site sig).targetPkey = Ico 0x10010 0x10018 := idle_cells.2
  have hbase : siteBase (site sig) idleEnv entryState = 0x30000 - (site sig).sizes.total := by
    rw [siteBase, htsp]
  refine ⟨by omega, by omega, by omega, by omega, ?_, ?_, ?_, ?_,
    fun arg harg _ => ⟨0x50000, ?_, ?_⟩⟩
  · rw [hcell, hcell', Ico_disjoint_Ico]
    decide
  · rw [hcell, hcell', callerArea, disjoint_union_left, Ico_disjoint_Ico, Ico_disjoint_Ico]
    omega
  · rw [hcell, hcell', targetArea, disjoint_union_left, Ico_disjoint_Ico, Ico_disjoint_Ico]
    omega
  · rw [callerArea, targetArea, Ico_disjoint_Ico]
    omega
  · have := hbytes arg harg
    omega
  · -- all memory of the gate is below
    rw [siteMemory, hcell, hcell', callerArea, targetArea, disjoint_union_right,
      disjoint_union_right, disjoint_union_right]
    have hbelow : ∀ {a b : Nat}, b ≤ 0x50000 →
        Disjoint (Ico 0x50000 (0x50000 + (arg.bytes + 1))) (Ico a b) := fun h =>
      (Ico_disjoint_of_le h).symm
    exact ⟨⟨⟨hbelow (by decide), hbelow (by decide)⟩, hbelow (by omega)⟩, hbelow (by omega)⟩

/-- A function of eight integers and a structure that is passed indirectly. -/
def stackStructSig : AbiSignature where
  args := List.replicate 8 (register .integral 8) ++ [indirect 40 8]
  ret := []
  args_slots := List.forall_mem_append.mpr ⟨Rewriter.slots_replicate 8,
    List.forall_mem_singleton.mpr (.indirect (by decide) (by decide))⟩
  ret_slots := .void

theorem stackStruct_arrives : Arrives (site stackStructSig) :=
  ⟨by decide, by decide, by decide, by decide, by decide⟩

/-- A function of one double. -/
def doubleSig : AbiSignature where
  args := [register .float 8]
  ret := []
  args_slots := List.forall_mem_singleton.mpr (.float 8)
  ret_slots := .void

end Ia2.Arm
