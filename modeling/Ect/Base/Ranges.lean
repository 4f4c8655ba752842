-- SUMMARY: Ranges of natural numbers: containment, disjointness, and rows of adjacent blocks.
import Mathlib.Tactic.Ring

/-!
# Ranges

A range is the numbers `[off, off + size)`. A row of `n` blocks of one size covers a range
exactly, and no two of its blocks meet.
-/

namespace Ranges

/-- The numbers from `off` up to `off + size`. -/
structure Range where
  off : Nat
  size : Nat
  deriving DecidableEq, Repr

namespace Range

def Contains (r : Range) (x : Nat) : Prop := r.off ≤ x ∧ x < r.off + r.size

instance (r : Range) (x : Nat) : Decidable (r.Contains x) := inferInstanceAs (Decidable (_ ∧ _))

def Disjoint (r s : Range) : Prop := r.off + r.size ≤ s.off ∨ s.off + s.size ≤ r.off

/-- The bytes of `r` are bytes of `s`. -/
def Within (r s : Range) : Prop := s.off ≤ r.off ∧ r.off + r.size ≤ s.off + s.size

variable {r s u : Range} {x : Nat}

theorem Disjoint.symm (h : r.Disjoint s) : s.Disjoint r := Or.symm h

theorem Within.refl (r : Range) : r.Within r := ⟨Nat.le_refl _, Nat.le_refl _⟩

theorem Within.disjoint (h : r.Within s) (hd : s.Disjoint u) : r.Disjoint u := by
  simp only [Within, Disjoint] at *
  omega

end Range

/-- The `i`-th of a row of blocks of one size. -/
def block (base size i : Nat) : Range := ⟨base + i * size, size⟩

variable {base size n i j x : Nat}

/-- A row of blocks covers its range. -/
theorem exists_block_contains (hsize : 0 < size) :
    (∃ i < n, (block base size i).Contains x) ↔ base ≤ x ∧ x < base + n * size := by
  simp only [block, Range.Contains]
  constructor
  · rintro ⟨i, hi, hlo, hhi⟩
    have hmul : (i + 1) * size ≤ n * size := Nat.mul_le_mul_right _ hi
    rw [Nat.succ_mul] at hmul
    omega
  · rintro ⟨hlo, hhi⟩
    refine ⟨(x - base) / size, Nat.div_lt_of_lt_mul (by rw [Nat.mul_comm]; omega), ?_⟩
    have hdiv := Nat.div_add_mod (x - base) size
    have hmod := Nat.mod_lt (x - base) hsize
    rw [Nat.mul_comm] at hdiv
    omega

theorem block_disjoint (hne : i ≠ j) : (block base size i).Disjoint (block base size j) := by
  simp only [block, Range.Disjoint]
  rcases Nat.lt_or_gt_of_ne hne with h | h
  · left
    have hmul : (i + 1) * size ≤ j * size := Nat.mul_le_mul_right _ h
    rw [Nat.succ_mul] at hmul
    omega
  · right
    have hmul : (j + 1) * size ≤ i * size := Nat.mul_le_mul_right _ h
    rw [Nat.succ_mul] at hmul
    omega

/-- A block of the row ends where the row does, at the latest. -/
theorem block_within (hi : i < n) : (block base size i).Within ⟨base, n * size⟩ := by
  have hmul : (i + 1) * size ≤ n * size := Nat.mul_le_mul_right _ hi
  rw [Nat.succ_mul] at hmul
  simp only [block, Range.Within]
  omega

end Ranges
