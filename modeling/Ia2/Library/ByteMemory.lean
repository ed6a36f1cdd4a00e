import Mathlib.Data.List.GetD
import Mathlib.Data.Set.Function
import Mathlib.Data.Set.Lattice
import Mathlib.Order.CompletePartialOrder
import Mathlib.Order.Interval.Set.Basic
import Mathlib.Tactic.Ring

/-!
# Byte-addressed memory

A memory gives each address a byte. `read` and `write` access a number of consecutive bytes as one
little-endian number. What an access does not touch is stated with `Set.EqOn` over intervals of
addresses, so that the frames of several accesses compose with the lemmas of sets.
-/

abbrev ByteMemory := Nat → BitVec 8

namespace ByteMemory

/-- The number in the `n` bytes from address `a` on. -/
def read (m : ByteMemory) (a : Nat) : Nat → Nat
  | 0 => 0
  | n + 1 => (m a).toNat + 256 * read m (a + 1) n

/-- Write the low `n` bytes of a number from address `a` on. -/
def write (m : ByteMemory) (a n v : Nat) : ByteMemory := fun x =>
  if a ≤ x ∧ x < a + n then BitVec.ofNat 8 (v / 256 ^ (x - a)) else m x

theorem read_lt (m : ByteMemory) (a n : Nat) : read m a n < 256 ^ n := by
  induction n generalizing a with
  | zero => simp [read]
  | succ n ih =>
    have hbyte := (m a).isLt
    have hrest := ih (a + 1)
    rw [read, pow_succ]
    omega

theorem read_add (m : ByteMemory) (a n k : Nat) :
    read m a (n + k) = read m a n + 256 ^ n * read m (a + n) k := by
  induction n generalizing a with
  | zero => simp [read]
  | succ n ih =>
    rw [Nat.succ_add, read, read, ih, pow_succ, Nat.add_right_comm a 1 n, Nat.add_assoc a n 1]
    ring

theorem read_congr {m m' : ByteMemory} {a n : Nat} (h : Set.EqOn m m' (Set.Ico a (a + n))) :
    read m a n = read m' a n := by
  induction n generalizing a with
  | zero => rfl
  | succ n ih =>
    have hfirst : m a = m' a := h ⟨le_refl a, by omega⟩
    have hrest : Set.EqOn m m' (Set.Ico (a + 1) (a + 1 + n)) :=
      fun x hx => h ⟨by have := hx.1; omega, by have := hx.2; omega⟩
    rw [read, read, hfirst, ih hrest]

theorem read_shift {m m' : ByteMemory} {a b n : Nat} (h : ∀ i < n, m (a + i) = m' (b + i)) :
    read m a n = read m' b n := by
  induction n generalizing a b with
  | zero => rfl
  | succ n ih =>
    have hfirst : m a = m' b := h 0 (Nat.succ_pos n)
    have hrest : read m (a + 1) n = read m' (b + 1) n := ih fun i hi => by
      have := h (i + 1) (Nat.succ_lt_succ hi)
      rwa [Nat.add_comm i 1, ← Nat.add_assoc, ← Nat.add_assoc] at this
    rw [read, read, hfirst, hrest]

theorem read_div_mod (m : ByteMemory) (a : Nat) {n i : Nat} (hi : i < n) :
    read m a n / 256 ^ i % 256 = (m (a + i)).toNat := by
  induction n generalizing a i with
  | zero => omega
  | succ n ih =>
    have hbyte := (m a).isLt
    cases i with
    | zero =>
      simp only [read, pow_zero, Nat.div_one, Nat.add_zero]
      omega
    | succ i =>
      have hskip : ((m a).toNat + 256 * read m (a + 1) n) / 256 = read m (a + 1) n := by omega
      rw [read, Nat.pow_succ', ← Nat.div_div_eq_div_mul, hskip, ih (a + 1) (by omega),
        Nat.add_right_comm, Nat.add_assoc]

theorem read_mod (m : ByteMemory) (a : Nat) {n : Nat} (hn : 0 < n) :
    read m a n % 256 = (m a).toNat := by
  have hbyte := read_div_mod m a hn
  rwa [pow_zero, Nat.div_one, Nat.add_zero] at hbyte

theorem write_read_apply (m m' : ByteMemory) (a b : Nat) {n i : Nat} (hi : i < n) :
    write m a n (read m' b n) (a + i) = m' (b + i) := by
  have hin : a ≤ a + i ∧ a + i < a + n := by omega
  apply BitVec.eq_of_toNat_eq
  rw [write, if_pos hin, Nat.add_sub_cancel_left, BitVec.toNat_ofNat, read_div_mod m' b hi]

theorem write_mod (m : ByteMemory) (a n v : Nat) : write m a n (v % 256 ^ n) = write m a n v := by
  funext x
  unfold write
  split
  · rename_i hx
    apply BitVec.eq_of_toNat_eq
    have hsplit : 256 ^ n = 256 ^ (x - a) * 256 ^ (n - (x - a)) := by
      rw [← pow_add]
      congr 1
      omega
    have hbyte : 256 ∣ 256 ^ (n - (x - a)) := dvd_pow_self 256 (by omega)
    rw [BitVec.toNat_ofNat, BitVec.toNat_ofNat, hsplit, Nat.mod_mul_right_div_self]
    exact Nat.mod_mod_of_dvd _ hbyte
  · rfl

theorem write_one_apply (m : ByteMemory) (a v : Nat) : write m a 1 v a = BitVec.ofNat 8 v := by
  simp [write]

theorem write_of_notMem {m : ByteMemory} {a n v x : Nat} (h : x ∉ Set.Ico a (a + n)) :
    write m a n v x = m x :=
  if_neg h

theorem write_eqOn (m : ByteMemory) (a n v : Nat) :
    Set.EqOn (write m a n v) m (Set.Ico a (a + n))ᶜ :=
  fun _ hx => write_of_notMem hx

theorem read_write (m : ByteMemory) (a : Nat) {n v : Nat} (hv : v < 256 ^ n) :
    read (write m a n v) a n = v := by
  have key : ∀ k i u, k + i = n → v / 256 ^ i = u → u < 256 ^ k →
      read (write m a n v) (a + i) k = u := by
    intro k
    induction k with
    | zero =>
      intro i u _ _ hu
      simp only [pow_zero] at hu
      rw [read]
      omega
    | succ k ih =>
      intro i u hki hu hlt
      have hbyte : (write m a n v (a + i)).toNat = u % 256 := by
        rw [write, if_pos ⟨by omega, by omega⟩, Nat.add_sub_cancel_left, BitVec.toNat_ofNat, hu]
      have hnext : read (write m a n v) (a + i + 1) k = u / 256 := by
        apply ih (i + 1) (u / 256) (by omega)
        · rw [pow_succ, ← Nat.div_div_eq_div_mul, hu]
        · rw [pow_succ] at hlt
          omega
      rw [read, hbyte, hnext]
      omega
  exact key n 0 v (by omega) (by simp) hv

/-! ### Lists of bytes -/

/-- The bytes of a list from address `a` on. -/
def put (m : ByteMemory) (a : Nat) (bytes : List (BitVec 8)) : ByteMemory := fun x =>
  if a ≤ x ∧ x < a + bytes.length then bytes.getD (x - a) 0 else m x

theorem put_nil (m : ByteMemory) (a : Nat) : put m a [] = m := by
  funext x
  exact if_neg (by simp)

theorem put_apply (m : ByteMemory) (a : Nat) {bytes : List (BitVec 8)} {i : Nat}
    (hi : i < bytes.length) :
    put m a bytes (a + i) = bytes.getD i 0 := by
  rw [put, if_pos (by omega), Nat.add_sub_cancel_left]

theorem put_eqOn (m : ByteMemory) (a : Nat) (bytes : List (BitVec 8)) :
    Set.EqOn (put m a bytes) m (Set.Ico a (a + bytes.length))ᶜ :=
  fun _ hx => if_neg hx

theorem put_append (m : ByteMemory) (a : Nat) (xs ys : List (BitVec 8)) :
    put (put m a xs) (a + xs.length) ys = put m a (xs ++ ys) := by
  funext x
  simp only [put, List.length_append]
  by_cases hx : a ≤ x ∧ x < a + xs.length
  · rw [if_neg (by omega), if_pos hx, if_pos (by omega), List.getD_append _ _ _ _ (by omega)]
  by_cases hy : a + xs.length ≤ x ∧ x < a + xs.length + ys.length
  · rw [if_pos hy, if_pos (by omega), List.getD_append_right _ _ _ _ (by omega), Nat.sub_add_eq]
  · rw [if_neg hy, if_neg hx, if_neg (by omega)]

theorem write_read_put (m m' : ByteMemory) (a k n : Nat) {bytes : List (BitVec 8)}
    (h : k + n ≤ bytes.length) :
    write m a n (read (put m' 0 bytes) k n) = put m a ((bytes.drop k).take n) := by
  have hlength : ((bytes.drop k).take n).length = n := by
    rw [List.length_take, List.length_drop]
    omega
  funext x
  by_cases hx : x ∈ Set.Ico a (a + n)
  · obtain ⟨hlo, hhi⟩ := hx
    have hbyte := write_read_apply m (put m' 0 bytes) a k (show x - a < n by omega)
    have hput := put_apply m' 0 (show k + (x - a) < bytes.length by omega)
    rw [Nat.zero_add] at hput
    rw [show a + (x - a) = x by omega, hput] at hbyte
    rw [hbyte, put, hlength, if_pos ⟨hlo, hhi⟩, List.getD_eq_getElem?_getD,
      List.getD_eq_getElem?_getD,
      List.getElem?_take_of_lt (by omega), List.getElem?_drop]
  · rw [write_of_notMem hx, put_eqOn m a _ (by rwa [hlength])]

end ByteMemory
