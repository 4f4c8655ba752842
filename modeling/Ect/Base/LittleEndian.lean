-- SUMMARY: Little-endian byte strings: decoding, encoding, and the round trips between them.
import Mathlib.Tactic.Ring
import Mathlib.Data.List.Basic

/-!
# Little-endian byte strings

A byte string denotes the number whose base-256 digits it lists, least
significant first. `leNat` reads a byte string, `leBytes k` writes the low `k`
bytes of a number, and the two are inverse to one another on the strings of
length `k` and the numbers below `256 ^ k`.
-/

namespace LittleEndian

abbrev Byte := BitVec 8

/-- `%x` -/
def hex (n : Nat) : String := String.ofList (Nat.toDigits 16 n)

/-- The number a byte string denotes. -/
def leNat : List Byte → Nat
  | [] => 0
  | b :: bs => b.toNat + 256 * leNat bs

/-- The low `k` bytes of a number. -/
def leBytes : Nat → Nat → List Byte
  | 0, _ => []
  | k + 1, n => BitVec.ofNat 8 n :: leBytes k (n / 256)

@[simp] theorem leNat_nil : leNat [] = 0 := rfl
@[simp] theorem leNat_cons (b : Byte) (bs : List Byte) :
    leNat (b :: bs) = b.toNat + 256 * leNat bs := rfl
@[simp] theorem leBytes_zero (n : Nat) : leBytes 0 n = [] := rfl
@[simp] theorem leBytes_succ (k n : Nat) :
    leBytes (k + 1) n = BitVec.ofNat 8 n :: leBytes k (n / 256) := rfl

@[simp] theorem leBytes_length (k n : Nat) : (leBytes k n).length = k := by
  induction k generalizing n with
  | zero => rfl
  | succ k ih => simp [ih]

theorem leNat_lt (bs : List Byte) : leNat bs < 256 ^ bs.length := by
  induction bs with
  | nil => simp
  | cons b bs ih =>
    have hb : b.toNat < 256 := b.isLt
    simp only [leNat_cons, List.length_cons, Nat.pow_succ]
    omega

/-- Writing a number and reading it back keeps its low bytes. -/
theorem leNat_leBytes (k n : Nat) : leNat (leBytes k n) = n % 256 ^ k := by
  induction k generalizing n with
  | zero => simp [Nat.mod_one]
  | succ k ih =>
    have hb : (BitVec.ofNat 8 n).toNat = n % 256 := BitVec.toNat_ofNat n 8
    rw [leBytes_succ, leNat_cons, ih, hb, pow_succ, Nat.mul_comm (256 ^ k) 256, Nat.mod_mul]

theorem leNat_leBytes_of_lt {k n : Nat} (h : n < 256 ^ k) : leNat (leBytes k n) = n := by
  rw [leNat_leBytes, Nat.mod_eq_of_lt h]

/-- Reading a byte string and writing it back is the identity. -/
theorem leBytes_leNat (bs : List Byte) : leBytes bs.length (leNat bs) = bs := by
  induction bs with
  | nil => rfl
  | cons b bs ih =>
    have hb : b.toNat < 256 := b.isLt
    have hdiv : (b.toNat + 256 * leNat bs) / 256 = leNat bs := by omega
    have hmod : BitVec.ofNat 8 (b.toNat + 256 * leNat bs) = b := by
      apply BitVec.eq_of_toNat_eq
      simp only [BitVec.toNat_ofNat]
      omega
    simp [hdiv, hmod, ih]

/-- Fewer bytes of a number are the first of them. -/
theorem leBytes_take {j k : Nat} (h : j ≤ k) (n : Nat) : (leBytes k n).take j = leBytes j n := by
  induction k generalizing j n with
  | zero => obtain rfl := Nat.le_zero.mp h; rfl
  | succ k ih =>
    cases j with
    | zero => rfl
    | succ j => rw [leBytes_succ, leBytes_succ, List.take_succ_cons, ih (by omega)]

/-- Only the low bytes of a number are written. -/
theorem leBytes_mod (k n : Nat) : leBytes k (n % 256 ^ k) = leBytes k n := by
  have h := leBytes_leNat (leBytes k n)
  rwa [leBytes_length, leNat_leBytes] at h

end LittleEndian
