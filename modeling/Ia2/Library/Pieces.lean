import Ia2.Library.ByteMemory
import Mathlib.Order.Interval.Set.Disjoint

/-!
# Copies in pieces

Code copies memory a few bytes at a time. `copyPieces` is what such code does to memory, whatever
the sizes of the pieces are; where the pieces cover a range and the source does not meet the
destination, it is a copy of that range.
-/

namespace ByteMemory

open Set

/-- Pieces are copied from `c` to `d`; each is given by its length and its offset. -/
def copyPieces (d c : Nat) : List (Nat × Nat) → ByteMemory → ByteMemory
  | [], m => m
  | (n, i) :: pieces, m => copyPieces d c pieces (m.write (d + i) n (m.read (c + i) n))

/-- The pieces cover the offsets from `a` to `b` one after the other. -/
inductive Covers : Nat → Nat → List (Nat × Nat) → Prop where
  | nil (a : Nat) : Covers a a []
  | cons {a b n : Nat} {pieces : List (Nat × Nat)} : Covers (a + n) b pieces →
    Covers a b ((n, a) :: pieces)

variable {a b d c : Nat} {pieces : List (Nat × Nat)} {m : ByteMemory}

theorem Covers.append {e : Nat} {pieces' : List (Nat × Nat)} (h : Covers a b pieces)
    (h' : Covers b e pieces') :
    Covers a e (pieces ++ pieces') := by
  induction h with
  | nil => exact h'
  | cons _ ih => exact .cons (ih h')

theorem Covers.le (h : Covers a b pieces) : a ≤ b := by
  induction h with
  | nil => exact le_rfl
  | cons _ ih => omega

theorem Covers.copyPieces_eqOn (h : Covers a b pieces) :
    EqOn (copyPieces d c pieces m) m (Ico (d + a) (d + b))ᶜ := by
  induction h generalizing m with
  | nil => exact eqOn_refl _ _
  | @cons a b n pieces hrest ih =>
    have hle := hrest.le
    intro x hx
    simp only [mem_compl_iff, mem_Ico] at hx
    rw [copyPieces, ih (by simp only [mem_compl_iff, mem_Ico]; omega),
      write_of_notMem (by simp only [mem_Ico]; omega)]

theorem Covers.copyPieces_apply (h : Covers a b pieces)
    (hdisj : Disjoint (Ico (c + a) (c + b)) (Ico (d + a) (d + b))) {x : Nat} (hax : a ≤ x)
    (hxb : x < b) : copyPieces d c pieces m (d + x) = m (c + x) := by
  induction h generalizing m with
  | nil => omega
  | @cons a b n pieces hrest ih =>
    have hle := hrest.le
    rw [copyPieces]
    by_cases hx : x < a + n
    · -- this piece, which the later ones leave alone
      have hbyte := write_read_apply m m (d + a) (c + a) (show x - a < n by omega)
      rw [show d + a + (x - a) = d + x by omega, show c + a + (x - a) = c + x by omega] at hbyte
      rw [hrest.copyPieces_eqOn (by simp only [mem_compl_iff, mem_Ico]; omega), hbyte]
    · -- a later piece; this one is not in its source
      have hsource : c + x ∉ Ico (d + a) (d + a + n) := fun hin =>
        disjoint_left.mp hdisj ⟨by omega, by omega⟩ ⟨hin.1, by have := hin.2; omega⟩
      rw [ih (hdisj.mono (Ico_subset_Ico (by omega) le_rfl) (Ico_subset_Ico (by omega) le_rfl))
        (by omega) hxb,
        write_of_notMem hsource]

/-- Eight bytes at a time, then the rest in halves. -/
def wordPieces (n : Nat) : List (Nat × Nat) :=
  (List.range (n / 8)).map (fun k => (8, 8 * k)) ++
    (if n / 8 * 8 + 4 ≤ n then [(4, n / 8 * 8)] else []) ++
    (if n / 4 * 4 + 2 ≤ n then [(2, n / 4 * 4)] else []) ++ if n / 2 * 2 < n
    then [(1, n / 2 * 2)] else []

theorem rest_four (n : Nat) :
    (if n / 8 * 8 + 4 ≤ n then n / 8 * 8 + 4 else n / 8 * 8) = n / 4 * 4 := by split <;> omega

theorem rest_two (n : Nat) :
    (if n / 4 * 4 + 2 ≤ n then n / 4 * 4 + 2 else n / 4 * 4) = n / 2 * 2 := by split <;> omega

theorem covers_range (k : Nat) : Covers 0 (8 * k) ((List.range k).map fun k => (8, 8 * k)) := by
  induction k with
  | zero => exact .nil 0
  | succ k ih =>
    rw [List.range_succ, List.map_append]
    exact ih.append (.cons (.nil _))

theorem covers_ite {p : Prop} [Decidable p] {n : Nat} (hpos : p → b = a + n) (hneg : ¬ p → b = a) :
    Covers a b (if p then [(n, a)] else []) := by
  by_cases h : p
  · rw [if_pos h, hpos h]
    exact .cons (.nil _)
  · rw [if_neg h, hneg h]
    exact .nil _

theorem covers_wordPieces (n : Nat) : Covers 0 n (wordPieces n) := by
  have hwords := covers_range (n / 8)
  rw [Nat.mul_comm] at hwords
  have hhalf : Covers (n / 8 * 8) (n / 4 * 4)
    (if n / 8 * 8 + 4 ≤ n then [(4, n / 8 * 8)] else []) := covers_ite (by omega) (by omega)
  have hquarter : Covers (n / 4 * 4) (n / 2 * 2)
    (if n / 4 * 4 + 2 ≤ n then [(2, n / 4 * 4)] else []) := covers_ite (by omega) (by omega)
  have hbyte : Covers (n / 2 * 2) n (if n / 2 * 2 < n then [(1, n / 2 * 2)] else []) :=
    covers_ite (by omega) (by omega)
  exact ((hwords.append hhalf).append hquarter).append hbyte

end ByteMemory
