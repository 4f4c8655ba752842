-- SUMMARY: Decoding UTF-8 with a replacement character for every ill-formed piece.
import Ect.Base.LittleEndian

/-!
# UTF-8

Decoding that never fails: a maximal piece of input that starts like a character and does
not go on like one is read as a single replacement character.
-/

namespace Utf8

open LittleEndian

def replacement : Char := '\uFFFD'

/-- How many bytes follow a first byte, and what range the second byte must be in. -/
def lead (b : Nat) : Option (Nat × Nat × Nat) :=
  if b < 0xC2 then none
  else if b < 0xE0 then some (1, 0x80, 0xBF)
  else if b = 0xE0 then some (2, 0xA0, 0xBF)
  else if b = 0xED then some (2, 0x80, 0x9F)
  else if b < 0xF0 then some (2, 0x80, 0xBF)
  else if b = 0xF0 then some (3, 0x90, 0xBF)
  else if b < 0xF4 then some (3, 0x80, 0xBF)
  else if b = 0xF4 then some (3, 0x80, 0x8F)
  else none

/-- The bits of a first byte that are the character's, with `n` bytes to follow. -/
def leadBits (n b : Nat) : Nat := b % 2 ^ (6 - n)

/-- Up to `n` continuation bytes after `acc`, the first of them in `[lo, hi]`: the
character, or the replacement where they break off, and what is left. -/
def continuation : Nat → Nat → Nat → Nat → List Byte → Char × List Byte
  | 0, acc, _, _, bs => (Char.ofNat acc, bs)
  | _ + 1, _, _, _, [] => (replacement, [])
  | n + 1, acc, lo, hi, b :: bs =>
    if lo ≤ b.toNat ∧ b.toNat ≤ hi then
      continuation n (64 * acc + b.toNat % 64) 0x80 0xBF bs
    else (replacement, b :: bs)

/-- The first character, and what is left after it. -/
def step (b : Byte) (bs : List Byte) : Char × List Byte :=
  if b.toNat < 0x80 then (Char.ofNat b.toNat, bs)
  else match lead b.toNat with
    | none => (replacement, bs)
    | some (n, lo, hi) => continuation n (leadBits n b.toNat) lo hi bs

def decodeChars : Nat → List Byte → List Char
  | 0, _ => []
  | _, [] => []
  | fuel + 1, b :: bs => (step b bs).1 :: decodeChars fuel (step b bs).2

/-- `bs.decode("utf-8", "replace")`. A character takes at least one byte, so the length is
enough fuel. -/
def decode (bs : List Byte) : String := String.ofList (decodeChars bs.length bs)

/-- The text at an offset, up to the next zero byte. -/
def cstr (bs : List Byte) (off : Nat) : String :=
  if bs.length ≤ off then "" else decode ((bs.drop off).takeWhile (· ≠ 0))

/-- Text of one-byte characters is read byte by byte. -/
theorem decode_ascii {bs : List Byte} (h : ∀ b ∈ bs, b.toNat < 0x80) :
    decode bs = String.ofList (bs.map fun b => Char.ofNat b.toNat) := by
  suffices hchars : decodeChars bs.length bs = bs.map fun b => Char.ofNat b.toNat by
    rw [decode, hchars]
  induction bs with
  | nil => rfl
  | cons b bs ih =>
    have hb : b.toNat < 0x80 := h b (by simp)
    rw [List.length_cons, decodeChars, step, if_pos hb, ih (fun c hc => h c (by simp [hc])),
      List.map_cons]

example : decode [0x2e, 0xce, 0xbc, 0xe2, 0x82, 0x41, 0xff] = ".μ\uFFFDA\uFFFD" := by decide +kernel

end Utf8
