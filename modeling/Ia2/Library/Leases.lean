import Mathlib.Data.Set.Insert
import Mathlib.Data.Set.Lattice
import Mathlib.Data.Set.Pairwise.Basic
import Mathlib.Order.CompletePartialOrder

/-!
# Leases of a shared resource

A resource is a type of cells, each of which is free or carries a tag. A lease is a region of cells
and the tag that they carry. What is kept is that the cells of every lease carry its tag and that no
two leases share a cell; it is kept when a region of free cells is leased, when a lease is given up,
and when others use what is not leased.
-/

namespace Leases

variable {R K L : Type} {region : L → Set R} {tag : L → K} {cells cells' : R → Option K}
  {held held' : Set L} {l : L}

structure Sound (region : L → Set R) (tag : L → K) (cells : R → Option K)
    (held : Set L) : Prop where
  tagged : ∀ l ∈ held, ∀ r ∈ region l, cells r = some (tag l)
  apart : held.PairwiseDisjoint region

theorem sound_empty : Sound region tag cells ∅ :=
  ⟨fun _ hl => absurd hl (Set.notMem_empty _), Set.pairwiseDisjoint_empty⟩

theorem Sound.keep (h : Sound region tag cells held) (hsub : held' ⊆ held)
    (hcells : ∀ l ∈ held', ∀ r ∈ region l, cells' r = cells r) : Sound region tag cells' held' := by
  apply Sound.mk
  · intro l hl r hr
    rw [hcells l hl r hr]
    exact h.tagged l (hsub hl) r hr
  · exact h.apart.subset hsub

theorem Sound.disjoint_of_free (h : Sound region tag cells held)
    (hfree : ∀ r ∈ region l, cells r = none) {l' : L} (hl' : l' ∈ held) :
    Disjoint (region l) (region l') := by
  apply Set.disjoint_left.mpr
  intro r hr hr'
  have htag := h.tagged l' hl' r hr'
  rw [hfree r hr] at htag
  cases htag

theorem Sound.grant (h : Sound region tag cells held) (hfree : ∀ r ∈ region l, cells r = none)
    (hnew : ∀ r ∈ region l, cells' r = some (tag l)) (hold : ∀ r ∉ region l, cells' r = cells r) :
    Sound region tag cells' (insert l held) := by
  apply Sound.mk
  · intro l' hl' r hr
    obtain rfl | hl' := Set.mem_insert_iff.mp hl'
    · exact hnew r hr
    · have hout : r ∉ region l :=
        fun hr' => Set.disjoint_left.mp (h.disjoint_of_free hfree hl') hr' hr
      rw [hold r hout]
      exact h.tagged l' hl' r hr
  · exact h.apart.insert fun l' hl' _ => h.disjoint_of_free hfree hl'

/-- A lease is given up, whatever becomes of its cells. -/
theorem Sound.release (h : Sound region tag cells held) (hl : l ∈ held) (hsub : held' ⊆ held)
    (hgone : l ∉ held') (hold : ∀ r ∉ region l, cells' r = cells r) :
    Sound region tag cells' held' := by
  apply h.keep hsub
  intro l' hl' r hr
  have hne : l' ≠ l := fun heq => hgone (heq ▸ hl')
  apply hold
  intro hr'
  exact Set.disjoint_left.mp (h.apart (hsub hl') hl hne) hr hr'

end Leases
