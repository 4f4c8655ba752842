-- SUMMARY: Machines with a program counter: fuelled runs, and stepping through them.
import Mathlib.Tactic.Ring

/-!
# Program-counter machines

A machine is a function from a program counter and a state to what one step does:
go on at another program counter, leave the program, or stop early with an
outcome. `runFor` runs it for a number of steps. `Ends` says how every long enough
run ends, and is built up backwards, one step at a time; `Reaches` says which
configurations a run passes through.
-/

namespace PcMachine

/-- What one step does. -/
inductive Step (S O : Type) where
  | next (pc : Nat) (s : S)
  | exit (s : S)
  | stop (o : O)

/-- How a run ended. -/
inductive End (S O : Type) where
  | exit (s : S)
  | stop (o : O)

variable {S O : Type}

/-- Run for at most `fuel` steps. -/
def runFor (step : Nat → S → Step S O) : Nat → Nat → S → Option (End S O)
  | 0, _, _ => none
  | fuel + 1, pc, s =>
    match step pc s with
    | .next pc' s' => runFor step fuel pc' s'
    | .exit s' => some (.exit s')
    | .stop o => some (.stop o)

variable {step : Nat → S → Step S O}

theorem runFor_succ (fuel pc : Nat) (s : S) :
    runFor step (fuel + 1) pc s =
      match step pc s with
      | .next pc' s' => runFor step fuel pc' s'
      | .exit s' => some (.exit s')
      | .stop o => some (.stop o) := rfl

/-- More fuel does not change how a run ends. -/
theorem runFor_mono {fuel fuel' pc : Nat} {s : S} {e : End S O} (hle : fuel ≤ fuel')
    (h : runFor step fuel pc s = some e) : runFor step fuel' pc s = some e := by
  induction fuel generalizing fuel' pc s with
  | zero => simp [runFor] at h
  | succ fuel ih =>
    obtain ⟨k, rfl⟩ : ∃ k, fuel' = k + 1 := ⟨fuel' - 1, by omega⟩
    rw [runFor_succ] at h ⊢
    cases hs : step pc s with
    | next pc' s' =>
      simp only [hs] at h ⊢
      exact ih (by omega) h
    | exit s' => simpa [hs] using h
    | stop o => simpa [hs] using h

/-- A run from the first configuration passes through the second. -/
inductive Reaches (step : Nat → S → Step S O) : Nat → S → Nat → S → Prop where
  | refl (pc : Nat) (s : S) : Reaches step pc s pc s
  | next {pc pc₁ pc₂ : Nat} {s s₁ s₂ : S} (h : step pc s = .next pc₁ s₁)
      (hr : Reaches step pc₁ s₁ pc₂ s₂) : Reaches step pc s pc₂ s₂

/-- What every step preserves holds wherever a run gets. -/
theorem Reaches.invariant {P : S → Prop}
    (hstep : ∀ pc s pc' s', P s → step pc s = .next pc' s' → P s')
    {pc pc' : Nat} {s s' : S} (hr : Reaches step pc s pc' s') (h : P s) : P s' := by
  induction hr with
  | refl => exact h
  | next hs _ ih => exact ih (hstep _ _ _ _ h hs)

/-- A run that gets somewhere ends as the run from there does. -/
theorem Reaches.runFor {pc pc' : Nat} {s s' : S} (hr : Reaches step pc s pc' s') {fuel : Nat}
    {e : End S O} (h : runFor step fuel pc s = some e) :
    ∃ fuel', PcMachine.runFor step fuel' pc' s' = some e := by
  induction hr generalizing fuel with
  | refl => exact ⟨fuel, h⟩
  | next hs _ ih =>
    cases fuel with
    | zero => simp [PcMachine.runFor] at h
    | succ fuel =>
      rw [runFor_succ, hs] at h
      exact ih h

/-- The run of `fuel` steps ends, and every configuration it passes through satisfies `P`. -/
def allReached (step : Nat → S → Step S O) (P : Nat → S → Bool) : Nat → Nat → S → Bool
  | 0, _, _ => false
  | fuel + 1, pc, s =>
    P pc s && match step pc s with
      | .next pc' s' => allReached step P fuel pc' s'
      | .exit _ | .stop _ => true

theorem Reaches.of_allReached {P : Nat → S → Bool} {fuel pc pc' : Nat} {s s' : S}
    (hr : Reaches step pc s pc' s') (h : allReached step P fuel pc s = true) : P pc' s' = true := by
  induction hr generalizing fuel with
  | refl =>
    cases fuel with
    | zero => cases h
    | succ fuel =>
      rw [allReached, Bool.and_eq_true] at h
      exact h.1
  | next hs _ ih =>
    cases fuel with
    | zero => cases h
    | succ fuel =>
      rw [allReached, Bool.and_eq_true, hs] at h
      exact ih h.2

/-- The step a run ends with. -/
def End.last : End S O → Step S O
  | .exit s => .exit s
  | .stop o => .stop o

/-- A run that ends passes through the configuration that ends it. -/
theorem runFor_last {fuel pc : Nat} {s : S} {e : End S O} (h : runFor step fuel pc s = some e) :
    ∃ pc₁ s₁, Reaches step pc s pc₁ s₁ ∧ step pc₁ s₁ = e.last := by
  induction fuel generalizing pc s with
  | zero => simp [runFor] at h
  | succ fuel ih =>
    rw [runFor_succ] at h
    cases hs : step pc s with
    | next pc' s₁ =>
      simp only [hs] at h
      obtain ⟨pc₂, s₂, hr, hlast⟩ := ih h
      exact ⟨pc₂, s₂, .next hs hr, hlast⟩
    | exit s₁ =>
      simp only [hs, Option.some.injEq] at h
      exact ⟨pc, s, .refl pc s, by rw [hs, ← h]; rfl⟩
    | stop o =>
      simp only [hs, Option.some.injEq] at h
      exact ⟨pc, s, .refl pc s, by rw [hs, ← h]; rfl⟩

/-- From a configuration on, a run of at least `n` steps ends in `e`. -/
def Ends (step : Nat → S → Step S O) (n pc : Nat) (s : S) (e : End S O) : Prop :=
  ∀ fuel, n ≤ fuel → runFor step fuel pc s = some e

theorem Ends.of_exit {pc : Nat} {s s' : S} (h : step pc s = .exit s') :
    Ends step 1 pc s (.exit s') := by
  intro fuel hfuel
  obtain ⟨k, rfl⟩ : ∃ k, fuel = k + 1 := ⟨fuel - 1, by omega⟩
  rw [runFor_succ, h]

theorem Ends.of_stop {pc : Nat} {s : S} {o : O} (h : step pc s = .stop o) :
    Ends step 1 pc s (.stop o) := by
  intro fuel hfuel
  obtain ⟨k, rfl⟩ : ∃ k, fuel = k + 1 := ⟨fuel - 1, by omega⟩
  rw [runFor_succ, h]

theorem Ends.of_next {n pc pc' : Nat} {s s' : S} {e : End S O} (h : step pc s = .next pc' s')
    (he : Ends step n pc' s' e) : Ends step (n + 1) pc s e := by
  intro fuel hfuel
  obtain ⟨k, rfl⟩ : ∃ k, fuel = k + 1 := ⟨fuel - 1, by omega⟩
  rw [runFor_succ, h]
  exact he k (by omega)

theorem Ends.mono {n n' pc : Nat} {s : S} {e : End S O} (h : Ends step n pc s e) (hle : n ≤ n') :
    Ends step n' pc s e :=
  fun fuel hfuel => h fuel (Nat.le_trans hle hfuel)

theorem Ends.of_runFor {n pc : Nat} {s : S} {e : End S O} (h : runFor step n pc s = some e) :
    Ends step n pc s e :=
  fun _ hfuel => runFor_mono hfuel h

/-- A run ends in one way only. -/
theorem Ends.unique {n pc fuel : Nat} {s : S} {e e' : End S O} (h : Ends step n pc s e)
    (h' : runFor step fuel pc s = some e') : e' = e := by
  have hmax := runFor_mono (Nat.le_max_left fuel n) h'
  rw [h _ (Nat.le_max_right fuel n)] at hmax
  exact (Option.some.inj hmax).symm

end PcMachine
