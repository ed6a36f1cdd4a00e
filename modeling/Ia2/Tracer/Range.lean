import Mathlib.Algebra.Group.Nat.Defs
import Mathlib.Order.Basic
import Mathlib.Tactic.Common

/-!
# Address ranges

`Range` of the memory map. Addresses are 64-bit and every sum and difference wraps, as in a release
build; `endAddr` is the one place where a range can come out inverted. `Fits` is the condition under
which nothing wraps, not even the rounding to pages, and `Meets` says which pages a range touches.
-/

namespace Ia2.Tracer

def wrappingSub (a b : Nat) : Nat := (a + 2 ^ 64 - b) % 2 ^ 64

def clearLow12 (a : Nat) : Nat := a / 4096 * 4096

structure Range where
  start : Nat
  len : Nat
deriving DecidableEq, Repr

namespace Range

def fromBounds (start stop : Nat) : Option Range :=
  if start < stop then some ⟨start, stop - start⟩ else none

def endAddr (r : Range) : Nat := (r.start + r.len) % 2 ^ 64

def roundTo4k (r : Range) : Range :=
  let stop := (r.start + r.len) % 2 ^ 64
  let endRoundUp := clearLow12 ((stop + 0xFFF) % 2 ^ 64)
  let start := clearLow12 r.start
  ⟨start, wrappingSub endRoundUp start⟩

def overlap (self other : Range) : Option Range :=
  fromBounds (max self.start other.start) (min self.endAddr other.endAddr)

def subtract (self other : Range) : Option (Option Range × Option Range) :=
  match self.overlap other with
  | none => none
  | some common => some (fromBounds self.start common.start, fromBounds common.endAddr self.endAddr)

/-- Nothing wraps: neither the end of the range nor its rounding to pages. -/
def Fits (r : Range) : Prop := r.start + r.len + 0xFFF < 2 ^ 64

instance (r : Range) : Decidable r.Fits := inferInstanceAs (Decidable (_ < _))

/-- Page `p` has a byte in the range. -/
def Meets (r : Range) (p : Nat) : Prop := 4096 * p < r.start + r.len ∧ r.start < 4096 * (p + 1)

instance (r : Range) (p : Nat) : Decidable (r.Meets p) := inferInstanceAs (Decidable (_ ∧ _))

def Inverted (r : Range) : Prop := r.endAddr < r.start

instance (r : Range) : Decidable r.Inverted := inferInstanceAs (Decidable (_ < _))

/-- Page `p` lies in the range rounded to pages. -/
def Rounds (r : Range) (p : Nat) :
    Prop := r.roundTo4k.start ≤ 4096 * p ∧ 4096 * p < r.roundTo4k.endAddr

instance (r : Range) (p : Nat) : Decidable (r.Rounds p) := inferInstanceAs (Decidable (_ ∧ _))

/-- The ranges have no byte in common. -/
def Apart (r s : Range) : Prop := r.start + r.len ≤ s.start ∨ s.start + s.len ≤ r.start

instance (r s : Range) : Decidable (r.Apart s) := inferInstanceAs (Decidable (_ ∨ _))

variable {p : Nat} {r s : Range}

theorem Apart.not_meets (h : r.Apart s) (hr : r.start % 4096 = 0) (hs : s.start % 4096 = 0)
    (hp : r.Meets p) : ¬ s.Meets p := by
  unfold Apart at h
  unfold Meets at *
  omega

/-- Whole pages, at least one of them, and nothing wraps. -/
structure Whole (r : Range) : Prop where
  start : r.start % 4096 = 0
  len : r.len % 4096 = 0
  pos : 0 < r.len
  fits : r.Fits

theorem Whole.apart (hr : r.Whole) (hs : s.Whole) (h : ∀ p, r.Meets p → ¬ s.Meets p) :
    r.Apart s := by
  obtain ⟨hstart, hlen, hpos, -⟩ := hr
  obtain ⟨hstart', hlen', hpos', -⟩ := hs
  have hpage := h (max r.start s.start / 4096)
  unfold Meets at hpage
  unfold Apart
  omega

theorem meets_start (hlen : 0 < r.len) : r.Meets (r.start / 4096) := by
  unfold Meets
  omega

theorem forall_meets_iff (hlen : 0 < r.len) {P : Nat → Prop} :
    (∀ p, r.Meets p → P p) ↔ ∀ x, r.start ≤ x → x < r.start + r.len → P (x / 4096) := by
  constructor
  · intro hall x hstart hend
    exact hall _ (by unfold Meets; omega)
  · intro hall p hp
    unfold Meets at hp
    have hbyte := hall (max r.start (4096 * p)) (Nat.le_max_left _ _) (by omega)
    rwa [show max r.start (4096 * p) / 4096 = p by omega] at hbyte

theorem not_meets_of_len_zero (hlen : r.len = 0) (hr : r.start % 4096 = 0) (p : Nat) :
    ¬ r.Meets p := by
  unfold Meets
  omega

theorem endAddr_eq (h : r.Fits) : r.endAddr = r.start + r.len :=
  Nat.mod_eq_of_lt (by unfold Fits at h; omega)

theorem roundTo4k_start (r : Range) : r.roundTo4k.start = r.start / 4096 * 4096 := rfl

theorem roundTo4k_endAddr (h : r.Fits) :
    r.roundTo4k.endAddr = (r.start + r.len + 0xFFF) / 4096 * 4096 := by
  unfold Fits at h
  have hstop : (r.start + r.len) % 2 ^ 64 = r.start + r.len := Nat.mod_eq_of_lt (by omega)
  have hround : (r.start + r.len + 0xFFF) % 2 ^ 64 = r.start + r.len + 0xFFF := Nat.mod_eq_of_lt h
  simp only [endAddr, roundTo4k, clearLow12, wrappingSub, hstop, hround]
  omega

theorem roundTo4k_aligned (r : Range) :
    r.roundTo4k.start % 4096 = 0 ∧ r.roundTo4k.endAddr % 4096 = 0 := by
  simp only [endAddr, roundTo4k, clearLow12, wrappingSub]
  omega

theorem roundTo4k_lt (h : r.Fits) (hlen : 0 < r.len) :
    r.roundTo4k.start < r.roundTo4k.endAddr := by
  rw [roundTo4k_endAddr h, roundTo4k_start]
  omega

theorem meets_iff_roundTo4k (h : r.Fits) :
    r.Meets p ↔ r.roundTo4k.start ≤ 4096 * p ∧ 4096 * p < r.roundTo4k.endAddr := by
  rw [roundTo4k_endAddr h, roundTo4k_start]
  unfold Meets
  omega

theorem rounds_iff_meets (h : r.Fits) (p : Nat) : r.Rounds p ↔ r.Meets p :=
  (meets_iff_roundTo4k h).symm

end Range

end Ia2.Tracer
