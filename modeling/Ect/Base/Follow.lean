-- SUMMARY: Following a partial function step by step: it comes to an end exactly when it does not run into a cycle.
import Mathlib.Data.Fintype.Pigeonhole

/-!
# Following a partial function

`follow f n a` takes `n` steps from `a`, and is `none` once `f` has no next element. When
only finitely many elements have a next one, the steps from `a` end unless some element on
the way comes back to itself.
-/

namespace Follow

variable {α : Type*} {f : α → Option α} {a b : α} {m n : Nat}

/-- `n` steps from `a`. -/
def follow (f : α → Option α) : Nat → α → Option α
  | 0, a => some a
  | n + 1, a => (f a).bind (follow f n)

/-- Some element on the way from `a` comes back to itself. -/
def RunsIntoCycle (f : α → Option α) (a : α) : Prop :=
  ∃ b m n, follow f m a = some b ∧ 0 < n ∧ follow f n b = some b

@[simp] theorem follow_zero : follow f 0 a = some a := rfl

theorem follow_succ : follow f (n + 1) a = (f a).bind (follow f n) := rfl

theorem follow_add : follow f (m + n) a = (follow f m a).bind (follow f n) := by
  induction m generalizing a with
  | zero => simp
  | succ m ih =>
    rw [Nat.succ_add, follow_succ, follow_succ, Option.bind_assoc]
    exact Option.bind_congr fun b _ => ih

theorem follow_succ_last : follow f (n + 1) a = (follow f n a).bind f := by
  rw [follow_add]
  refine Option.bind_congr fun b _ => ?_
  rw [follow_succ]
  cases f b <;> rfl

/-- Once there is no next element there never is. -/
theorem follow_none (h : follow f m a = none) (hle : m ≤ n) : follow f n a = none := by
  obtain ⟨k, rfl⟩ := Nat.exists_eq_add_of_le hle
  rw [follow_add, h, Option.bind_none]

theorem follow_mul (h : follow f n b = some b) (k : Nat) : follow f (k * n) b = some b := by
  induction k with
  | zero => simp
  | succ k ih => rw [Nat.succ_mul, follow_add, ih, Option.bind_some, h]

theorem RunsIntoCycle.follow_ne_none (h : RunsIntoCycle f a) (k : Nat) :
    follow f k a ≠ none := by
  obtain ⟨b, m, n, hm, hn, hb⟩ := h
  intro hk
  have hfar : follow f (m + k * n) a = some b := by
    rw [follow_add, hm, Option.bind_some, follow_mul hb]
  have hle : k ≤ m + k * n := Nat.le_trans (Nat.le_mul_of_pos_right k hn) (Nat.le_add_left _ _)
  rw [follow_none hk hle] at hfar
  cases hfar

/-- More steps than elements that have a next one visit some element twice. -/
theorem runsIntoCycle_of_ne_none {S : Finset α} (hS : ∀ a, f a ≠ none → a ∈ S)
    (h : follow f (S.card + 1) a ≠ none) : RunsIntoCycle f a := by
  classical
  have hsome : ∀ k ≤ S.card, ∃ b ∈ S, follow f k a = some b := by
    intro k hk
    have hnext : follow f (k + 1) a ≠ none := fun hn => h (follow_none hn (by omega))
    rw [follow_succ_last] at hnext
    cases hb : follow f k a with
    | none => rw [hb] at hnext; exact absurd rfl hnext
    | some b => exact ⟨b, hS b (by simpa [hb] using hnext), rfl⟩
  have : Nonempty α := ⟨a⟩
  choose! g hg hfollow using hsome
  obtain ⟨i, hi, j, hj, hne, heq⟩ := Finset.exists_ne_map_eq_of_card_lt_of_maps_to
    (s := Finset.range (S.card + 1)) (t := S) (f := g) (by simp)
    fun k hk => hg k (by simp at hk; omega)
  simp only [Finset.mem_range] at hi hj
  -- whichever of the two visits is the later one is a way back to the earlier
  have hback : ∀ i j, i < j → j ≤ S.card → g i = g j → RunsIntoCycle f a := by
    intro i j hlt hj heq
    have hsplit := hfollow j hj
    rw [show j = i + (j - i) by omega, follow_add, hfollow i (by omega), Option.bind_some,
      show i + (j - i) = j by omega, ← heq] at hsplit
    exact ⟨g i, i, j - i, hfollow i (by omega), by omega, hsplit⟩
  rcases Nat.lt_or_gt_of_ne hne with hlt | hlt
  · exact hback i j hlt (by omega) heq
  · exact hback j i hlt (by omega) heq.symm

theorem ends_iff_not_runsIntoCycle {S : Finset α} (hS : ∀ a, f a ≠ none → a ∈ S) :
    (∃ k, follow f k a = none) ↔ ¬RunsIntoCycle f a := by
  constructor
  · rintro ⟨k, hk⟩ hcycle
    exact hcycle.follow_ne_none k hk
  · intro hno
    refine ⟨S.card + 1, ?_⟩
    by_contra hne
    exact hno (runsIntoCycle_of_ne_none hS hne)

end Follow
