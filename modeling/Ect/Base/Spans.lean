-- SUMMARY: A memory whose cells each know the span that was last written over them.
import Ect.Base.Ranges

/-!
# Spans

A write covers a span of cells and is a write of one thing. What a row of cells holds can be
told only where the row is the whole of one write: then it is what that write left, and no
later write has touched any of its cells.
-/

namespace Spans

open Ranges

variable {α : Type}

/-- One write: where it starts, how many cells it covers, and what it is a write of. -/
structure Span (α : Type) where
  start : Nat
  size : Nat
  val : α
  deriving DecidableEq, Repr

def Span.range (s : Span α) : Range := ⟨s.start, s.size⟩

/-- The newest span over each cell. -/
def Cover (α : Type) : Type := Nat → Option (Span α)

namespace Cover

def empty : Cover α := fun _ => none

def write (c : Cover α) (s : Span α) : Cover α :=
  fun k => if s.range.Contains k then some s else c k

/-- Each of the `n` cells from `a` was written. -/
def written (c : Cover α) (a n : Nat) : Bool := (List.range n).all fun j => (c (a + j)).isSome

/-- What the `n` cells from `a` are a write of, where they are the whole of one. -/
def whole? [DecidableEq α] (c : Cover α) (a n : Nat) : Option α :=
  (c a).bind fun s =>
    if s.start = a ∧ s.size = n ∧ ∀ j < n, c (a + j) = some s then some s.val else none

variable [DecidableEq α] {c : Cover α} {s : Span α} {a n : Nat} {x : α}

theorem whole?_empty : (empty : Cover α).whole? a n = none := rfl

theorem whole?_eq_some (hn : 0 < n) :
    c.whole? a n = some x ↔ ∀ j < n, c (a + j) = some ⟨a, n, x⟩ := by
  unfold whole?
  constructor
  · intro h
    obtain ⟨s, -, hs⟩ := Option.bind_eq_some_iff.mp h
    split at hs
    · rename_i hall
      obtain ⟨rfl, rfl, hall⟩ := hall
      obtain rfl := Option.some.inj hs
      exact hall
    · cases hs
  · intro h
    have hfirst : c a = some ⟨a, n, x⟩ := h 0 hn
    rw [hfirst]
    exact if_pos ⟨rfl, rfl, h⟩

/-- From where a write starts, only the write itself is a whole. -/
theorem of_whole?_write_start (hs : 0 < s.size) (hn : 0 < n)
    (h : (c.write s).whole? s.start n = some x) : n = s.size ∧ x = s.val := by
  have hfirst := (whole?_eq_some hn).mp h 0 hn
  have hin : s.range.Contains (s.start + 0) := by
    simp only [Span.range, Range.Contains]
    omega
  rw [write, if_pos hin] at hfirst
  have heq : s = ⟨s.start, n, x⟩ := Option.some.inj hfirst
  exact ⟨(congrArg Span.size heq).symm, (congrArg Span.val heq).symm⟩

/-- A whole that starts elsewhere was there before the write, and beside it. -/
theorem of_whole?_write_ne (hs : 0 < s.size) (hn : 0 < n) (hne : s.start ≠ a)
    (h : (c.write s).whole? a n = some x) :
    c.whole? a n = some x ∧ Range.Disjoint ⟨a, n⟩ s.range := by
  have hall := (whole?_eq_some hn).mp h
  -- a cell of the write would know it, and not the whole
  have hout : ∀ j < n, ¬s.range.Contains (a + j) := by
    intro j hj hin
    have hj' := hall j hj
    rw [write, if_pos hin] at hj'
    exact hne (congrArg Span.start (Option.some.inj hj'))
  constructor
  · refine (whole?_eq_some hn).mpr fun j hj => ?_
    have hj' := hall j hj
    rwa [write, if_neg (hout j hj)] at hj'
  · simp only [Span.range, Range.Contains, Range.Disjoint] at hout ⊢
    by_contra hover
    have hfirst := hout 0 hn
    have hmeet := hout (s.start - a) (by omega)
    omega

end Cover

end Spans
