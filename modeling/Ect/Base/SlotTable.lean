-- SUMMARY: Tables of slots: lookup by the first matching slot, writing a slot, and the map a table stands for.
import Mathlib.Data.Finset.Card
import Mathlib.Logic.Function.Basic

/-!
# Tables of slots

A table is a row of slots, each holding an entry, free, or neither. It stands for the map
that takes a key to the value of the first slot that holds it. An update writes the slot
that holds the key, or else the first free one.
-/

namespace Slots

/-- A slot of a table. -/
inductive Slot (K V : Type) where
  | free
  | entry (k : K) (v : V)
  /-- Neither free nor filled: no lookup finds it and no insert takes it. -/
  | dead
  deriving DecidableEq, Repr

/-- A row of `size` slots. -/
structure SlotTable (K V : Type) where
  size : Nat
  slot : Nat → Slot K V

variable {K V : Type}

namespace Slot

def isFree : Slot K V → Bool
  | free => true
  | _ => false

def value : Slot K V → Option V
  | entry _ v => some v
  | _ => none

def holds [DecidableEq K] (k : K) : Slot K V → Bool
  | entry k' _ => k' = k
  | _ => false

variable {s : Slot K V} {k k' : K} {v : V}

@[simp] theorem isFree_entry : (entry k v).isFree = false := rfl
@[simp] theorem isFree_free : (free : Slot K V).isFree = true := rfl
@[simp] theorem value_entry : (entry k v).value = some v := rfl

theorem isFree_iff : s.isFree = true ↔ s = free := by cases s <;> simp [isFree]

variable [DecidableEq K]

@[simp] theorem holds_entry : (entry k' v).holds k = decide (k' = k) := rfl
@[simp] theorem holds_free : (free : Slot K V).holds k = false := rfl

theorem holds_iff : s.holds k = true ↔ ∃ v, s = entry k v := by
  cases s <;> simp [holds, eq_comm]

/-- A slot holds one key. -/
theorem holds_ne (h : s.holds k = true) (hne : k' ≠ k) : s.holds k' = false := by
  obtain ⟨v, rfl⟩ := holds_iff.mp h
  simpa using hne.symm

end Slot

namespace SlotTable

def firstFree (T : SlotTable K V) : Option Nat :=
  (List.range T.size).find? fun i => (T.slot i).isFree

def put (T : SlotTable K V) (i : Nat) (k : K) (v : V) : SlotTable K V :=
  { T with slot := fun j => if j = i then .entry k v else T.slot j }

section Operations

variable [DecidableEq K]

/-- The first slot that holds the key. -/
def hit (T : SlotTable K V) (k : K) : Option Nat :=
  (List.range T.size).find? fun i => (T.slot i).holds k

/-- The map the table stands for. -/
def get (T : SlotTable K V) (k : K) : Option V := (T.hit k).bind fun i => (T.slot i).value

/-- The slot an update of the key writes, if any: the one that holds it, or else, unless
the table is closed to new keys, the first free one. -/
def dest (T : SlotTable K V) (closed : Bool) (k : K) : Option Nat :=
  match T.hit k with
  | some i => some i
  | none => if closed then none else T.firstFree

end Operations

variable {T : SlotTable K V} {i j : Nat} {k k' : K} {v : V} {closed : Bool}

@[simp] theorem put_size : (T.put i k v).size = T.size := rfl

@[simp] theorem put_slot : (T.put i k v).slot j = if j = i then .entry k v else T.slot j := rfl

theorem firstFree_eq_some : T.firstFree = some i ↔
    (T.slot i).isFree = true ∧ i < T.size ∧ ∀ j < i, (T.slot j).isFree = false := by
  simp [firstFree, List.find?_range_eq_some]

theorem firstFree_eq_none : T.firstFree = none ↔ ∀ i < T.size, (T.slot i).isFree = false := by
  simp [firstFree]

variable [DecidableEq K]

/-! ## Finding slots -/

theorem hit_eq_some : T.hit k = some i ↔
    (T.slot i).holds k = true ∧ i < T.size ∧ ∀ j < i, (T.slot j).holds k = false := by
  simp [hit, List.find?_range_eq_some]

theorem hit_eq_none : T.hit k = none ↔ ∀ i < T.size, (T.slot i).holds k = false := by
  simp [hit]

theorem hit_value (h : T.hit k = some i) : ∃ v, T.slot i = .entry k v ∧ T.get k = some v := by
  obtain ⟨v, hv⟩ := Slot.holds_iff.mp (hit_eq_some.mp h).1
  exact ⟨v, hv, by simp [get, h, hv]⟩

theorem get_eq_none : T.get k = none ↔ T.hit k = none := by
  constructor
  · intro h
    cases hi : T.hit k with
    | none => rfl
    | some i =>
      obtain ⟨v, _, hv⟩ := hit_value hi
      rw [hv] at h
      cases h
  · intro h
    simp [get, h]

theorem dest_of_hit (h : T.hit k = some i) : T.dest closed k = some i := by
  simp [dest, h]

theorem dest_of_miss (h : T.hit k = none) :
    T.dest closed k = if closed then none else T.firstFree := by
  simp [dest, h]

/-- The slot an update writes holds its key, or is free where no slot does. -/
theorem dest_eq_some (h : T.dest closed k = some i) :
    T.hit k = some i ∨ T.hit k = none ∧ closed = false ∧ T.firstFree = some i := by
  cases hi : T.hit k with
  | some j => exact .inl (by rw [← h, dest_of_hit hi])
  | none =>
    rw [dest_of_miss hi] at h
    cases closed with
    | true => cases h
    | false => exact .inr ⟨rfl, rfl, h⟩

theorem dest_lt (h : T.dest closed k = some i) : i < T.size := by
  rcases dest_eq_some h with h | ⟨_, _, h⟩
  · exact (hit_eq_some.mp h).2.1
  · exact (firstFree_eq_some.mp h).2.1

/-! ## Writing a slot -/

/-- The written slot is the first that holds its key. -/
theorem hit_put_self (h : T.dest closed k = some i) : (T.put i k v).hit k = some i := by
  have hlt := dest_lt h
  refine hit_eq_some.mpr ⟨by simp, hlt, fun j hj => ?_⟩
  rw [put_slot, if_neg (by omega)]
  rcases dest_eq_some h with h | ⟨hmiss, _, _⟩
  · exact (hit_eq_some.mp h).2.2 j hj
  · exact hit_eq_none.mp hmiss j (by omega)

/-- The written slot held no other key before. -/
theorem dest_holds_ne (h : T.dest closed k = some i) (hne : k' ≠ k) :
    (T.slot i).holds k' = false := by
  rcases dest_eq_some h with h | ⟨_, _, hfree⟩
  · exact Slot.holds_ne (hit_eq_some.mp h).1 hne
  · rw [Slot.isFree_iff.mp (firstFree_eq_some.mp hfree).1, Slot.holds_free]

theorem hit_put_ne (h : T.dest closed k = some i) (hne : k' ≠ k) :
    (T.put i k v).hit k' = T.hit k' := by
  have hsame : ∀ j, ((T.put i k v).slot j).holds k' = (T.slot j).holds k' := fun j => by
    rw [put_slot]
    split
    · rename_i heq
      rw [heq, dest_holds_ne h hne, Slot.holds_entry, decide_eq_false hne.symm]
    · rfl
  simp only [hit, hsame, put_size]

/-- An update of the table is an update of the map it stands for. -/
theorem get_put (h : T.dest closed k = some i) :
    (T.put i k v).get = Function.update T.get k (some v) := by
  funext k'
  by_cases hk : k' = k
  · subst hk
    simp [get, hit_put_self h]
  · rw [Function.update_of_ne hk, get, get, hit_put_ne h hk]
    cases hj : T.hit k' with
    | none => rfl
    | some j =>
      have hji : j ≠ i := by
        rintro rfl
        have := (hit_eq_some.mp hj).1
        rw [dest_holds_ne h hk] at this
        cases this
      simp only [Option.bind_some, put_slot, if_neg hji]

end SlotTable

end Slots
