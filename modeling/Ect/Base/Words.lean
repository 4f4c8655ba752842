-- SUMMARY: Machine words: shifts, swaps and signed comparisons written with plain unsigned arithmetic.
import Ect.Base.LittleEndian

/-!
# Words

Unsigned arithmetic that computes what a richer instruction set has operators
for. An arithmetic right shift is a division and a mask, a signed comparison is
an unsigned one of words with the sign bit flipped, and a byte swap is a fold over
the bytes.
-/

namespace Words

open LittleEndian

/-! ## Arithmetic right shift -/

/-- The bits an arithmetic right shift by `k` fills in. -/
theorem signMask_eq {w k : Nat} (hk : k ≤ w) :
    (2 ^ k - 1) <<< (w - k) = 2 ^ w - 2 ^ (w - k) := by
  have hpow : 2 ^ k * 2 ^ (w - k) = 2 ^ w := by rw [← Nat.pow_add, Nat.add_sub_cancel' hk]
  rw [Nat.shiftLeft_eq, Nat.sub_mul, hpow, Nat.one_mul]

/-- `2 ^ w - 1 - x` shifted right by `k`. -/
theorem complement_div {w k x : Nat} (hk : k ≤ w) (hx : x < 2 ^ w) :
    (2 ^ w - 1 - x) / 2 ^ k = 2 ^ (w - k) - 1 - x / 2 ^ k := by
  have hpow : 2 ^ w = 2 ^ (w - k) * 2 ^ k := by rw [← Nat.pow_add, Nat.sub_add_cancel hk]
  have hpos : 0 < 2 ^ k := Nat.two_pow_pos k
  set q := x / 2 ^ k with hq
  have hr : x % 2 ^ k < 2 ^ k := Nat.mod_lt _ hpos
  have hxq : x = 2 ^ k * q + x % 2 ^ k := (Nat.div_add_mod x (2 ^ k)).symm
  have hqlt : q < 2 ^ (w - k) := Nat.div_lt_of_lt_mul (by rw [Nat.mul_comm, ← hpow]; exact hx)
  obtain ⟨d, hd⟩ : ∃ d, 2 ^ (w - k) = q + 1 + d := ⟨2 ^ (w - k) - q - 1, by omega⟩
  have hsub : 2 ^ w - 1 - x = 2 ^ k * d + (2 ^ k - 1 - x % 2 ^ k) := by
    have hexp : (q + 1 + d) * 2 ^ k = 2 ^ k * q + 2 ^ k + 2 ^ k * d := by ring
    rw [hpow, hd, hexp]
    omega
  rw [hsub, Nat.mul_add_div hpos, Nat.div_eq_of_lt (by omega), hd]
  omega

/-- An arithmetic right shift is a logical one together with the sign bit spread
over the bits that were shifted in. -/
theorem toNat_sshiftRight_eq {w k : Nat} (x : BitVec w) (hk : 0 < k) (hkw : k < w) :
    (x.sshiftRight k).toNat =
      x.toNat / 2 ^ k ||| x.toNat / 2 ^ (w - 1) * ((2 ^ k - 1) <<< (w - k)) % 2 ^ w := by
  have hx := x.isLt
  have hdouble : 2 * 2 ^ (w - 1) = 2 ^ w := by
    rw [← Nat.pow_succ', Nat.succ_eq_add_one, Nat.sub_add_cancel (by omega)]
  rw [BitVec.toNat_sshiftRight, signMask_eq (Nat.le_of_lt hkw), Nat.shiftRight_eq_div_pow,
    Nat.shiftRight_eq_div_pow]
  by_cases hmsb : x.msb = true
  · -- the sign bit is 1, and the mask fills disjoint bits
    have hge : 2 ^ (w - 1) ≤ x.toNat := by
      simpa [BitVec.msb_eq_decide] using hmsb
    have hsign : x.toNat / 2 ^ (w - 1) = 1 := Nat.div_eq_of_lt_le (by omega) (by omega)
    have hpow : 2 ^ w = 2 ^ (w - k) * 2 ^ k := by
      rw [← Nat.pow_add, Nat.sub_add_cancel (Nat.le_of_lt hkw)]
    have hlow : x.toNat / 2 ^ k < 2 ^ (w - k) :=
      Nat.div_lt_of_lt_mul (by rw [Nat.mul_comm, ← hpow]; exact hx)
    have hmask : 2 ^ w - 2 ^ (w - k) = 2 ^ (w - k) * (2 ^ k - 1) := by
      rw [Nat.mul_sub, hpow, Nat.mul_one]
    have hlt : 2 ^ w - 2 ^ (w - k) < 2 ^ w := by
      have := Nat.two_pow_pos (w - k)
      have := Nat.two_pow_pos w
      omega
    rw [if_pos hmsb, hsign, Nat.one_mul, Nat.mod_eq_of_lt hlt, complement_div (Nat.le_of_lt hkw) hx,
      Nat.or_comm, hmask, ← Nat.two_pow_add_eq_or_of_lt hlow, ← hmask]
    have hpw : 2 ^ (w - k) ≤ 2 ^ w := Nat.pow_le_pow_right (by decide) (Nat.sub_le w k)
    clear hmask hpow hdouble hge hsign
    generalize 2 ^ (w - k) = a at *
    generalize x.toNat / 2 ^ k = q at *
    omega
  · have hlt : x.toNat < 2 ^ (w - 1) := by
      simpa [BitVec.msb_eq_decide] using hmsb
    rw [if_neg hmsb, Nat.div_eq_of_lt hlt, Nat.zero_mul, Nat.zero_mod, Nat.or_zero]

/-! ## Signed comparison -/

/-- Flipping the sign bit of a word. -/
theorem xor_signBit {n x : Nat} (hx : x < 2 ^ (n + 1)) :
    x ^^^ 2 ^ n = if x < 2 ^ n then x + 2 ^ n else x - 2 ^ n := by
  have hpos := Nat.two_pow_pos n
  have hdiv : (x ^^^ 2 ^ n) / 2 ^ n = x / 2 ^ n ^^^ 1 := by
    rw [Nat.xor_div_two_pow, Nat.div_self hpos]
  have hmod : (x ^^^ 2 ^ n) % 2 ^ n = x % 2 ^ n := by
    rw [Nat.xor_mod_two_pow, Nat.mod_self, Nat.xor_zero]
  have hrec := Nat.div_add_mod (x ^^^ 2 ^ n) (2 ^ n)
  rw [hdiv, hmod] at hrec
  rw [Nat.pow_succ] at hx
  split
  · rename_i hlt
    rw [Nat.div_eq_of_lt hlt, Nat.zero_xor, Nat.mod_eq_of_lt hlt] at hrec
    omega
  · rename_i hge
    have hone : x / 2 ^ n = 1 := Nat.div_eq_of_lt_le (by omega) (by omega)
    have hsub : x % 2 ^ n = x - 2 ^ n := by
      rw [Nat.mod_eq_sub_mod (by omega), Nat.mod_eq_of_lt (by omega)]
    rw [hone, hsub] at hrec
    simpa using hrec.symm

/-- A signed comparison is an unsigned one of words with the sign bit flipped. -/
theorem slt_iff_xor_lt {n : Nat} (x y : BitVec (n + 1)) :
    x.slt y = true ↔ x.toNat ^^^ 2 ^ n < y.toNat ^^^ 2 ^ n := by
  have hx := x.isLt
  have hy := y.isLt
  rw [BitVec.slt_iff_toInt_lt, BitVec.toInt_eq_toNat_cond, BitVec.toInt_eq_toNat_cond,
    xor_signBit hx, xor_signBit hy]
  have hpow : (2 : Int) ^ (n + 1) = 2 * 2 ^ n := by ring
  have hpowN : 2 ^ (n + 1) = 2 * 2 ^ n := by ring
  have hcast : ((2 ^ n : Nat) : Int) = 2 ^ n := by norm_cast
  push_cast
  rw [hpow]
  rw [hpowN] at hx hy ⊢
  split <;> split <;> split <;> split <;> omega

/-! ## Byte swap -/

/-- The number whose `k` little-endian bytes are those of `v` reversed. -/
def byteSwap (k v : Nat) : Nat := leNat (leBytes k v).reverse

theorem byteSwap_zero (v : Nat) : byteSwap 0 v = 0 := rfl

/-- One more byte becomes the new lowest one. -/
theorem byteSwap_succ (k v : Nat) :
    byteSwap (k + 1) v = v / 256 ^ k % 256 + 256 * byteSwap k v := by
  have hlast : ∀ (k v : Nat), leBytes (k + 1) v = leBytes k v ++
    [BitVec.ofNat 8 (v / 256 ^ k)] := by
    intro k
    induction k with
    | zero => intro v; simp
    | succ k ih =>
      intro v
      rw [leBytes_succ, ih (v / 256), leBytes_succ, Nat.div_div_eq_div_mul, ← Nat.pow_succ']
      rfl
  rw [byteSwap, hlast, List.reverse_append, List.reverse_singleton, List.singleton_append,
    leNat_cons, byteSwap, BitVec.toNat_ofNat]

theorem byteSwap_lt (k v : Nat) : byteSwap k v < 256 ^ k := by
  have h := leNat_lt (leBytes k v).reverse
  rwa [List.length_reverse, leBytes_length] at h

/-- Adding a byte below the bytes gathered so far, with an or: what one round of the
swap does to an accumulator that keeps them at the top. -/
theorem or_byte {n i b : Nat} (acc : Nat) (hi : i < n) (hb : b < 256) :
    256 ^ (n - i) * acc ||| b * 2 ^ (8 * (n - 1 - i)) = 256 ^ (n - 1 - i) * (b + 256 * acc) := by
  have h256 : ∀ m, 256 ^ m = 2 ^ (8 * m) := fun m => by rw [Nat.pow_mul]
  have hsucc : n - i = (n - 1 - i) + 1 := by omega
  have hlt : b * 2 ^ (8 * (n - 1 - i)) < 2 ^ (8 * (n - i)) := by
    rw [← h256, ← h256, hsucc, Nat.pow_succ, Nat.mul_comm _ 256]
    exact Nat.mul_lt_mul_of_pos_right hb (Nat.pow_pos (by decide))
  rw [h256 (n - i), ← Nat.two_pow_add_eq_or_of_lt hlt, ← h256, ← h256, hsucc, Nat.pow_succ]
  ring

end Words
