import Ia2.Library.ByteMemory

/-!
# Text for the tracee

A traced process asks for its memory map with a call of `madvise`, and the tracer writes the text of
`/proc/<pid>/maps` to the buffer in the call. It reads the file in pieces of 1024 bytes and pokes
each piece word by word, without the bytes that do not fill a word. All pieces but the last are made
of whole words, so what is missing in the tracee is the end of the text, although the count that it
is given includes these bytes.
-/

namespace Ia2.PokeMaps

def toInt (n : Nat) :
    Int := if n % 2 ^ 32 < 2 ^ 31 then (n % 2 ^ 32 : Nat) else (n % 2 ^ 32 : Nat) - 2 ^ 32

theorem toInt_eq_iff {n : Nat} : toInt n = n ↔ n < 2 ^ 31 := by
  rw [toInt]
  split
  · omega
  · omega

section Poke

variable (pokedata : Nat → Bool)

def pokeWords (dest : Nat) (src : List (BitVec 8)) : Nat → Nat → ByteMemory → Int × ByteMemory
  | _, 0, m => (0, m)
  | i, n + 1, m =>
    let addr := (dest + 8 * i) % 2 ^ 64
    if pokedata addr then pokeWords dest src (i + 1) n
      (m.write addr 8 ((ByteMemory.put (fun _ => 0) 0 src).read (8 * i) 8))
    else (-1, m)

def ptraceMemcpy (dest : Nat) (src : List (BitVec 8)) (len : Nat) (m : ByteMemory) :
    Int × ByteMemory :=
  pokeWords pokedata dest src 0 (len / 8) m

def pokeLoop (start len : Nat) (rest : List (BitVec 8)) (feof : Bool) (totalRead : Nat)
    (m : ByteMemory) : Int × ByteMemory :=
  if feof = true ∨ len ≤ totalRead then (toInt totalRead, m)
  else
    let buf := rest.take 1024
    let nread := buf.length
    if nread = 0 then (toInt totalRead, m)
    else
      let remainingLen := len - totalRead
      let nToCopy := if nread > remainingLen then remainingLen else nread
      match ptraceMemcpy pokedata ((start + totalRead) % 2 ^ 64) buf nToCopy m with
      | (ret, m) =>
        if ret < 0 then (ret, m)
        else pokeLoop start len (rest.drop 1024) (decide (nread < 1024)) (totalRead + nToCopy) m
termination_by rest.length
decreasing_by
  have hread : nread = min 1024 rest.length := List.length_take
  rw [List.length_drop]
  omega

/-- `poke_proc_self_maps`, given the content of the file or the error that `fopen` fails with. -/
def pokeProcSelfMaps (maps : Except Int (List (BitVec 8))) (start len : Nat) (m : ByteMemory) :
    Int × ByteMemory :=
  match maps with
  | .error errno => (-errno, m)
  | .ok text => pokeLoop pokedata start len text false 0 m

end Poke

/-! ### What is poked -/

section Poked

variable {pokedata : Nat → Bool}
variable {dest : Nat} {src : List (BitVec 8)}

theorem pokeWords_eq (hpoke : ∀ addr, pokedata addr = true) (i n : Nat) (m : ByteMemory)
    (hdest : dest + 8 * (i + n) ≤ 2 ^ 64) (hsrc : 8 * (i + n) ≤ src.length) :
    pokeWords pokedata dest src i n m =
      (0, m.put (dest + 8 * i) ((src.drop (8 * i)).take (8 * n))) := by
  induction n generalizing i m with
  | zero => rw [pokeWords, Nat.mul_zero, List.take_zero, ByteMemory.put_nil]
  | succ n ih =>
    have haddr : (dest + 8 * i) % 2 ^ 64 = dest + 8 * i := Nat.mod_eq_of_lt (by omega)
    have hlength : ((src.drop (8 * i)).take 8).length = 8 := by
      rw [List.length_take, List.length_drop]
      omega
    have happend := ByteMemory.put_append m (dest + 8 * i) ((src.drop (8 * i)).take 8)
      ((src.drop (8 * (i + 1))).take (8 * n))
    rw [hlength, Nat.add_assoc, ← Nat.mul_succ] at happend
    rw [pokeWords, haddr, if_pos (hpoke _), ih (i + 1) _ (by omega) (by omega),
      ByteMemory.write_read_put _ _ _ _ _ (by omega), happend,
      show 8 * (n + 1) = 8 + 8 * n by omega, List.take_add, List.drop_drop, Nat.mul_succ]

variable {len start : Nat}

theorem ptraceMemcpy_eq (hpoke : ∀ addr, pokedata addr = true) (m : ByteMemory)
    (hdest : dest + len ≤ 2 ^ 64) (hsrc : len ≤ src.length) :
    ptraceMemcpy pokedata dest src len m = (0, m.put dest (src.take (len / 8 * 8))) := by
  rw [ptraceMemcpy, pokeWords_eq hpoke 0 (len / 8) m (by omega) (by omega), Nat.mul_comm (len / 8)]
  rfl

theorem pokeLoop_of_done {totalRead : Nat} {rest : List (BitVec 8)} {feof : Bool} {m : ByteMemory}
    (h : feof = true ∨ len ≤ totalRead) :
    pokeLoop pokedata start len rest feof totalRead m = (toInt totalRead, m) := by
  rw [pokeLoop, if_pos h]

theorem pokeLoop_eq (hpoke : ∀ addr, pokedata addr = true) (hbuffer : start + len ≤ 2 ^ 64)
    (rest : List (BitVec 8)) (totalRead : Nat) (m : ByteMemory) (hwords : totalRead % 8 = 0)
    (hle : totalRead ≤ len) :
    pokeLoop pokedata start len rest false totalRead m =
      (toInt (totalRead + min (len - totalRead) rest.length),
        m.put (start + totalRead) (rest.take (min (len - totalRead) rest.length / 8 * 8))) := by
  by_cases hdone : len ≤ totalRead
  · have hnone : len - totalRead = 0 := by omega
    rw [pokeLoop_of_done (.inr hdone), hnone, Nat.zero_min, Nat.zero_div, Nat.zero_mul,
      List.take_zero, ByteMemory.put_nil, Nat.add_zero]
  by_cases hnil : rest = []
  · rw [hnil, pokeLoop, if_neg (by simpa using hdone)]
    simp [ByteMemory.put_nil]
  have hlength : 0 < rest.length := List.length_pos_iff.mpr hnil
  have hread : (rest.take 1024).length = min 1024 rest.length := List.length_take
  have hcopy : (if min 1024 rest.length > len - totalRead then len - totalRead
    else min 1024 rest.length) =
      min (len - totalRead) (min 1024 rest.length) := by
    split <;> omega
  have haddr : (start + totalRead) % 2 ^ 64 = start + totalRead := Nat.mod_eq_of_lt (by omega)
  rw [pokeLoop, if_neg (by simpa using hdone)]
  dsimp only
  rw [hread, hcopy, if_neg (by omega), haddr, ptraceMemcpy_eq hpoke m (by omega) (by omega)]
  dsimp only
  rw [if_neg (by decide), List.take_take]
  by_cases hlast : min (len - totalRead) rest.length < 1024
  · -- the last piece: the file or the buffer ends in it
    have hend : min (len - totalRead) (min 1024 rest.length) =
      min (len - totalRead) rest.length := by omega
    have htake : min (min (len - totalRead) rest.length / 8 * 8) 1024 =
      min (len - totalRead) rest.length / 8 * 8 := by omega
    rw [pokeLoop_of_done (by rw [decide_eq_true_iff]; omega), hend, htake]
  · rw [show min (len - totalRead) (min 1024 rest.length) = 1024 by
    omega, decide_eq_false (by omega),
      pokeLoop_eq hpoke hbuffer (rest.drop 1024) (totalRead + 1024) _ (by omega) (by omega),
      List.length_drop]
    have happend := ByteMemory.put_append m (start + totalRead) (rest.take 1024)
      ((rest.drop 1024).take (min (len - (totalRead + 1024)) (rest.length - 1024) / 8 * 8))
    rw [hread, show min 1024 rest.length = 1024 by omega, ← List.take_add, Nat.add_assoc] at happend
    rw [show min (1024 / 8 * 8) 1024 = 1024 by rfl, happend]
    have hcount : totalRead + 1024 + min (len - (totalRead + 1024)) (rest.length - 1024) =
        totalRead + min (len - totalRead) rest.length := by
      omega
    have htake : 1024 + min (len - (totalRead + 1024)) (rest.length - 1024) / 8 * 8 =
      min (len - totalRead) rest.length / 8 * 8 := by omega
    rw [hcount, htake]
termination_by rest.length
decreasing_by
  rw [List.length_drop]
  omega

theorem pokeProcSelfMaps_eq (hpoke : ∀ addr, pokedata addr = true) (text : List (BitVec 8))
    (hbuffer : start + len ≤ 2 ^ 64) (m : ByteMemory) :
    pokeProcSelfMaps pokedata (.ok text) start len m =
      (toInt (min len text.length), m.put start (text.take (min len text.length / 8 * 8))) := by
  have hloop := pokeLoop_eq hpoke hbuffer text 0 m rfl (Nat.zero_le _)
  rwa [Nat.zero_add, Nat.add_zero, Nat.sub_zero] at hloop

end Poked

/-! ### What the tracee gets -/

def tracerMapsLen : Nat := 64 * 1024

def openTracerSelfMaps (len : Int) (buf : List (BitVec 8)) : Option (List (BitVec 8)) :=
  if len < 0 ∨ len = tracerMapsLen then none else some (buf.take len.toNat)

/-- The call gives the count of the bytes that the file and the buffer allow, and the buffer holds
these bytes of the file and is not changed behind them. -/
structure Delivered (text : List (BitVec 8)) (start len : Nat) (m : ByteMemory)
    (ret : Int × ByteMemory) : Prop where
  count : ret.1 = min len text.length
  bytes : ∀ i < min len text.length, ret.2 (start + i) = text.getD i 0
  frame : Set.EqOn ret.2 m (Set.Ico start (start + min len text.length))ᶜ

/-- The text arrives exactly if the count fits in an `int` and the buffer held what follows the last
whole word before. -/
theorem delivered_iff {pokedata : Nat → Bool} (hpoke : ∀ addr, pokedata addr = true)
    (text : List (BitVec 8)) {start len : Nat} (hbuffer : start + len ≤ 2 ^ 64) (m : ByteMemory) :
    Delivered text start len m (pokeProcSelfMaps pokedata (.ok text) start len m) ↔
      min len text.length < 2 ^ 31 ∧
        ∀ i, min len text.length / 8 * 8 ≤ i → i < min len text.length →
          m (start + i) = text.getD i 0 := by
  have hlength : (text.take (min len text.length / 8 * 8)).length =
      min len text.length / 8 * 8 := by
    rw [List.length_take]
    omega
  have htail : ∀ {i}, min len text.length / 8 * 8 ≤ i →
      m.put start (text.take (min len text.length / 8 * 8)) (start + i) = m (start + i) := fun hi =>
    ByteMemory.put_eqOn _ _ _ (by simp only [hlength, Set.mem_compl_iff, Set.mem_Ico]; omega)
  rw [pokeProcSelfMaps_eq hpoke text hbuffer m]
  constructor
  · rintro ⟨hret, hbytes, -⟩
    refine ⟨toInt_eq_iff.mp hret, fun i hlo hhi => ?_⟩
    rw [← hbytes i hhi]
    exact (htail hlo).symm
  · rintro ⟨hfits, hheld⟩
    refine ⟨toInt_eq_iff.mpr hfits, fun i hi => ?_, fun a ha => ByteMemory.put_eqOn _ _ _ ?_⟩
    · dsimp only
      by_cases hword : i < min len text.length / 8 * 8
      · rw [ByteMemory.put_apply _ _ (by rwa [hlength]), List.getD_eq_getElem?_getD,
          List.getElem?_take_of_lt hword,
          List.getD_eq_getElem?_getD]
      · rw [htail (by omega), hheld i (by omega) hi]
    · simp only [hlength, Set.mem_compl_iff, Set.mem_Ico] at ha ⊢
      omega

theorem delivered_iff_one_word :
    Delivered (List.replicate 8 0x61) 0x1000 64 (fun _ => 0)
      (pokeProcSelfMaps (fun _ => true) (.ok (List.replicate 8 0x61)) 0x1000 64 fun _ => 0) :=
  (delivered_iff (fun _ => rfl) (List.replicate 8 0x61) (by decide) fun _ => 0).mpr
    ⟨by decide, by simp; omega⟩

/-- Of three bytes none arrives. -/
theorem short_text_not_delivered :
    ¬ Delivered [0x61, 0x62, 0x63] 0x1000 64 (fun _ => 0)
      (pokeProcSelfMaps (fun _ => true) (.ok [0x61, 0x62, 0x63]) 0x1000 64 fun _ => 0) := by
  intro h
  have hbyte := h.bytes 0 (by decide)
  rw [pokeProcSelfMaps_eq (fun _ => rfl) _ (by decide)] at hbyte
  exact absurd hbyte (by decide)

def bufferBytes (m : ByteMemory) (start len : Nat) : List (BitVec 8) :=
  (List.range len).map fun i => m (start + i)

theorem openTracerSelfMaps_eq {pokedata : Nat → Bool} (hpoke : ∀ addr, pokedata addr = true)
    {text : List (BitVec 8)} (htext : text.length < tracerMapsLen) {start : Nat}
    (hbuffer : start + tracerMapsLen ≤ 2 ^ 64) (m : ByteMemory) :
    let ret := pokeProcSelfMaps pokedata (.ok text) start tracerMapsLen m
    openTracerSelfMaps ret.1 (bufferBytes ret.2 start tracerMapsLen) =
      some (text.take (text.length / 8 * 8) ++ bufferBytes m (start + text.length / 8 * 8)
        (text.length % 8)) := by
  intro ret
  have hret : ret = (↑text.length, m.put start (text.take (text.length / 8 * 8))) := by
    have hmin : min tracerMapsLen text.length = text.length := Nat.min_eq_right htext.le
    have hcount : toInt text.length = text.length := toInt_eq_iff.mpr (htext.trans (by decide))
    rw [show ret = _ from pokeProcSelfMaps_eq hpoke text hbuffer m, hmin, hcount]
  have hlength : (text.take (text.length / 8 * 8)).length = text.length / 8 * 8 := by
    rw [List.length_take]
    omega
  rw [hret, openTracerSelfMaps, if_neg (by omega), Int.toNat_natCast, bufferBytes, ← List.map_take,
    List.take_range,
    Nat.min_eq_left htext.le]
  congr 1
  refine List.ext_getElem (by simp [bufferBytes, hlength]; omega) fun i hi hi' => ?_
  rw [List.getElem_map, List.getElem_range]
  dsimp only
  by_cases hword : i < text.length / 8 * 8
  · rw [ByteMemory.put_apply _ _ (by rwa [hlength]), List.getElem_append_left (by rwa [hlength]),
      List.getD_eq_getElem _ _ (by rwa [hlength])]
  · rw [List.getElem_append_right (by rw [hlength]; omega), ByteMemory.put_eqOn _ _ _ (by
      simp only [hlength, Set.mem_compl_iff, Set.mem_Ico]
      omega)]
    simp only [bufferBytes, List.getElem_map, List.getElem_range, hlength]
    congr 1
    omega

end Ia2.PokeMaps
