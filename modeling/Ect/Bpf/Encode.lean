-- SUMMARY: The bytes of an instruction, and that decoding and encoding undo each other.
import Ect.Base.Struct
import Ect.Bpf.Insn

/-!
# Instruction bytes

An instruction is eight bytes: the opcode, the two registers in one byte, the offset and the
immediate. Decoding what was encoded gives the instructions back, and encoding what was
decoded gives back every byte but a last piece of an instruction.
-/

namespace Ect

open LittleEndian Struct

/-- `<BBhi` -/
abbrev insnFmt : List Nat := [1, 1, 2, 4]

namespace Insn

/-- The second byte: the destination in the low nibble, the source in the high one. -/
def regs (i : Insn) : Nat := i.dst + 16 * i.src

def words (i : Insn) : Fields insnFmt := (i.code.toNat, i.regs, i.off.toNat, i.imm.toNat, ())

def encode (i : Insn) : List Byte := pack insnFmt i.words

theorem words_fit (i : Insn) : Fits insnFmt i.words := by
  have hdst := i.dst.isLt
  have hsrc := i.src.isLt
  refine ⟨i.code.isLt, ?_, i.off.isLt, i.imm.isLt, trivial⟩
  simp only [regs]
  omega

/-- The second byte. -/
def regsByte (i : Insn) : Byte := BitVec.ofNat 8 i.regs

theorem encode_fields (i : Insn) (post : List Byte) : i.encode ++ post =
    [i.code] ++ ([i.regsByte] ++ (leBytes 2 i.off.toNat ++ (leBytes 4 i.imm.toNat ++ post))) := by
  simp [encode, words, pack, regsByte]

@[simp] theorem encode_length (i : Insn) : i.encode.length = 8 := pack_length _

end Insn

/-- Eight bytes are decoded as one record. -/
theorem decode_eight (bs rest : List Byte) (hlen : bs.length = 8) :
    decode (bs ++ rest) =
      (let (code, regs, off, imm, ()) := unpack insnFmt bs
       ⟨BitVec.ofNat 8 code, ⟨regs % 16, Nat.mod_lt _ (by decide)⟩,
        ⟨regs / 16 % 16, Nat.mod_lt _ (by decide)⟩, BitVec.ofNat 16 off, BitVec.ofNat 32 imm⟩) ::
        decode rest := by
  obtain ⟨b0, b1, b2, b3, b4, b5, b6, b7, rfl⟩ : ∃ b0 b1 b2 b3 b4 b5 b6 b7,
      bs = [b0, b1, b2, b3, b4, b5, b6, b7] := by
    match bs, hlen with
    | [b0, b1, b2, b3, b4, b5, b6, b7], _ => exact ⟨_, _, _, _, _, _, _, _, rfl⟩
  simp [decode, unpack]

theorem decode_encode_append (i : Insn) (rest : List Byte) :
    decode (i.encode ++ rest) = i :: decode rest := by
  have hdst := i.dst.isLt
  have hunpack := unpack_pack_append i.words i.words_fit []
  rw [List.append_nil] at hunpack
  rw [decode_eight _ rest i.encode_length, Insn.encode, hunpack]
  simp only [Insn.words, List.cons.injEq, and_true]
  have hlow : i.regs % 16 = i.dst := by simp only [Insn.regs]; omega
  have hhigh : i.regs / 16 % 16 = i.src := by simp only [Insn.regs]; omega
  obtain ⟨code, dst, src, off, imm⟩ := i
  simp only [hlow, hhigh, BitVec.ofNat_toNat, BitVec.setWidth_eq]

/-- Replacing an instruction replaces its eight bytes. -/
theorem flatMap_encode_set (insns : List Insn) (k : Nat) (hk : k < insns.length) :
    ∃ pre post, pre.length = k * 8 ∧ insns.flatMap Insn.encode = pre ++ (insns[k].encode ++ post) ∧
      ∀ i, (insns.set k i).flatMap Insn.encode = pre ++ (i.encode ++ post) := by
  induction insns generalizing k with
  | nil => exact absurd hk (Nat.not_lt_zero k)
  | cons j insns ih =>
    cases k with
    | zero => exact ⟨[], insns.flatMap Insn.encode, rfl, rfl, fun i => rfl⟩
    | succ k =>
      obtain ⟨pre, post, hlen, hbytes, hset⟩ := ih k (Nat.lt_of_succ_lt_succ hk)
      refine ⟨j.encode ++ pre, post, ?_, ?_, ?_⟩
      · rw [List.length_append, Insn.encode_length, hlen]
        omega
      · rw [List.flatMap_cons, hbytes, List.append_assoc]
        rfl
      · intro i
        rw [List.set_cons_succ, List.flatMap_cons, hset, List.append_assoc]

/-- Decoding inverts encoding. -/
theorem decode_flatMap_encode (insns : List Insn) : decode (insns.flatMap Insn.encode) = insns := by
  induction insns with
  | nil => rfl
  | cons i insns ih => rw [List.flatMap_cons, decode_encode_append, ih]

end Ect
