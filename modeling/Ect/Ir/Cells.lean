-- SUMMARY: Reading and writing runs of cells: what a read depends on, and what a write changes.
import Ect.Ir.Semantics

/-!
# Cells

A read of `n` cells depends on those cells alone, and a write changes the cells it
covers alone.
-/

namespace Ect

open LittleEndian

variable {m m' : Nat → Cell} {off n k : Nat} {cs : List Cell} {bs : List Byte}

/-! ## Reads -/

theorem readCells_succ {b : Byte} (hb : m off = some b) (h : readCells m (off + 1) n = some bs) :
    readCells m off (n + 1) = some (b :: bs) := by
  simp [readCells, hb, h]

theorem readCells_congr (h : ∀ i, off ≤ i → i < off + n → m i = m' i) :
    readCells m off n = readCells m' off n := by
  induction n generalizing off with
  | zero => rfl
  | succ n ih =>
    have hrest := @ih (off + 1) fun i hlo hhi => h i (by omega) (by omega)
    simp only [readCells, h off (by omega) (by omega), hrest]

theorem readCells_length (h : readCells m off n = some bs) : bs.length = n := by
  induction n generalizing off bs with
  | zero => obtain rfl := Option.some.inj h; rfl
  | succ n ih =>
    simp only [readCells, Option.bind_eq_bind, Option.bind_eq_some_iff, Option.some.injEq] at h
    obtain ⟨b, _, bs', hrest, rfl⟩ := h
    rw [List.length_cons, ih hrest]

theorem readCells_getElem (h : readCells m off n = some bs) {i : Nat} (hi : i < bs.length) :
    m (off + i) = some bs[i] := by
  induction n generalizing off bs i with
  | zero =>
    obtain rfl := Option.some.inj h
    cases hi
  | succ n ih =>
    simp only [readCells, Option.bind_eq_bind, Option.bind_eq_some_iff, Option.some.injEq] at h
    obtain ⟨b, hb, bs', hrest, rfl⟩ := h
    cases i with
    | zero => exact hb
    | succ i =>
      have := ih hrest (i := i) (by simpa using hi)
      rw [List.getElem_cons_succ, ← this, Nat.add_right_comm, Nat.add_assoc]

/-- A read of bytes that are all there. -/
theorem readCells_of_bytes (h : ∀ i, (hi : i < bs.length) → m (off + i) = some bs[i]) :
    readCells m off bs.length = some bs := by
  induction bs generalizing off with
  | nil => rfl
  | cons b bs ih =>
    refine readCells_succ (h 0 (by simp)) (ih fun i hi => ?_)
    have := h (i + 1) (by simpa using hi)
    rw [Nat.add_assoc, Nat.add_comm 1]
    simpa using this

/-! ## Writes -/

@[simp] theorem storeCells_length (w : Width) (v : Option Nat) :
    (storeCells w v).length = w.bytes := by
  cases v <;> simp [storeCells]

theorem writeCells_out (h : k < off ∨ off + cs.length ≤ k) : writeCells m off cs k = m k := by
  simp only [writeCells]
  rw [if_neg (by omega)]

theorem writeCells_in {i : Nat} (h : i < cs.length) : writeCells m off cs (off + i) = cs[i] := by
  simp only [writeCells]
  rw [if_pos (by omega), Nat.add_sub_cancel_left]
  simp [List.getD, List.getElem?_eq_getElem h]

/-- A read beside a write. -/
theorem readCells_writeCells_disjoint (h : off + n ≤ k ∨ k + cs.length ≤ off) :
    readCells (writeCells m k cs) off n = readCells m off n :=
  readCells_congr fun i hlo hhi => writeCells_out (by omega)

/-- A read of the low bytes of a number that was just stored. -/
theorem readCells_storeCells (w : Width) (v : Nat) (hn : n ≤ w.bytes) :
    readCells (writeCells m off (storeCells w (some v))) off n = some (leBytes n v) := by
  have hread := @readCells_of_bytes (writeCells m off (storeCells w (some v))) _ (leBytes n v)
    fun i hi => by
      rw [leBytes_length] at hi
      rw [writeCells_in (by rw [storeCells_length]; omega)]
      simp only [← leBytes_take hn, storeCells, List.getElem_map, List.getElem_take]
  rwa [leBytes_length] at hread

/-! ## Operations that store nothing -/

def Op.isStore : Op → Bool
  | .store .. => true
  | _ => false

theorem Op.eval_mem {op : Op} {len : Nat → Nat} {σ : State} (h : op.isStore = false) :
    (op.eval len σ).mem = σ.mem := by
  cases op with
  | stateless | cast => simp only [Op.eval]; split <;> rfl
  | load =>
    simp only [Op.eval]
    split
    · rfl
    · split <;> rfl
  | store => cases h

theorem runOps_mem {ops : List Op} {len : Nat → Nat} {σ : State}
    (h : ∀ op ∈ ops, op.isStore = false) : (runOps len σ ops).mem = σ.mem := by
  induction ops generalizing σ with
  | nil => rfl
  | cons op ops ih =>
    rw [runOps_cons, ih fun o ho => h o (by simp [ho]), Op.eval_mem (h op (by simp))]

end Ect
