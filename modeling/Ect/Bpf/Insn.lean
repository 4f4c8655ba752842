-- SUMMARY: The BPF instruction encoding: fields, opcode tables, and decoding of the 8-byte instruction.
import Ect.Base.LittleEndian
import Ect.Ir.Syntax

/-!
# BPF instruction encoding

An opcode byte is read three ways at once: class, then either (size, mode) for
the load and store classes or (operation, source bit) for ALU and JMP. The
tables below are total: a bit pattern without a name in `pybpf/bpf.py` reads as
`other`.
-/

namespace Ect

open LittleEndian

/-- Instruction classes, the low 3 bits. -/
inductive Cls where
  | ld | ldx | st | stx | alu | jmp | jmp32 | alu64
  deriving DecidableEq, Repr

/-- Sizes (bits 3 and 4), for the load and store classes. -/
inductive Size where
  | w | h | b | dw
  deriving DecidableEq, Repr

/-- Modes (the top 3 bits), for the load and store classes. -/
inductive Mode where
  | imm | abs | ind | mem | atomic | other
  deriving DecidableEq, Repr

/-- ALU operations (the high nibble). -/
inductive AluOp where
  | add | sub | mul | div | or | and | lsh | rsh | neg | mod | xor | mov | arsh | end_ | other
  deriving DecidableEq, Repr

/-- Jump operations (the high nibble). -/
inductive JmpOp where
  | ja | jeq | jgt | jge | jset | jne | jsgt | jsge | call | exit | jlt | jle | jslt | jsle | other
  deriving DecidableEq, Repr

/-- A nibble has a zero: the literals of `Fin 16` below are read through this. -/
instance nibbleNeZero : NeZero 16 := ⟨by decide⟩

/-- One 8-byte BPF instruction. `dst` and `src` are the two nibbles of the second
byte; `off` is signed 16-bit and `imm` signed 32-bit. Sign extension to 64 bits
is the caller's business because it differs per instruction. -/
structure Insn where
  code : BitVec 8
  dst : Fin 16
  src : Fin 16
  off : BitVec 16
  imm : BitVec 32
  deriving DecidableEq, Repr

instance : Inhabited Insn := ⟨⟨0, 0, 0, 0, 0⟩⟩

namespace Insn

def cls (i : Insn) : Cls :=
  match (i.code &&& 0x07#8).toNat with
  | 0 => .ld
  | 1 => .ldx
  | 2 => .st
  | 3 => .stx
  | 4 => .alu
  | 5 => .jmp
  | 6 => .jmp32
  | _ => .alu64

def size (i : Insn) : Size :=
  match (i.code &&& 0x18#8).toNat with
  | 0x00 => .w
  | 0x08 => .h
  | 0x10 => .b
  | _ => .dw

def mode (i : Insn) : Mode :=
  match (i.code &&& 0xe0#8).toNat with
  | 0x00 => .imm
  | 0x20 => .abs
  | 0x40 => .ind
  | 0x60 => .mem
  | 0xc0 => .atomic
  | _ => .other

def aluOp (i : Insn) : AluOp :=
  match (i.code &&& 0xf0#8).toNat with
  | 0x00 => .add
  | 0x10 => .sub
  | 0x20 => .mul
  | 0x30 => .div
  | 0x40 => .or
  | 0x50 => .and
  | 0x60 => .lsh
  | 0x70 => .rsh
  | 0x80 => .neg
  | 0x90 => .mod
  | 0xa0 => .xor
  | 0xb0 => .mov
  | 0xc0 => .arsh
  | 0xd0 => .end_
  | _ => .other

def jmpOp (i : Insn) : JmpOp :=
  match (i.code &&& 0xf0#8).toNat with
  | 0x00 => .ja
  | 0x10 => .jeq
  | 0x20 => .jgt
  | 0x30 => .jge
  | 0x40 => .jset
  | 0x50 => .jne
  | 0x60 => .jsgt
  | 0x70 => .jsge
  | 0x80 => .call
  | 0x90 => .exit
  | 0xa0 => .jlt
  | 0xb0 => .jle
  | 0xc0 => .jslt
  | 0xd0 => .jsle
  | _ => .other

/-- The source modifier (bit 3) is `BPF_X`: the second operand is a register. -/
def srcX (i : Insn) : Bool := i.code &&& 0x08#8 != 0

def isImm (i : Insn) : Bool := !i.srcX

/-- `BPF_LD | BPF_IMM | BPF_DW`, the two-slot wide immediate load. A whole opcode
byte rather than a field. -/
def isLdImm64 (i : Insn) : Bool := i.code == 0x18#8

def isJmp (i : Insn) : Bool := i.cls == .jmp || i.cls == .jmp32

/-- A jump to the immediately following instruction: no control flow at all. -/
def isNopJump (i : Insn) : Bool := i.isJmp && i.jmpOp == .ja && i.off == 0

/-- `in_.imm & MASK64`: sign-extended, then unsigned. -/
def imm64 (i : Insn) : Nat := (i.imm.signExtend 64).toNat

/-- `in_.imm & 0xffffffff`. -/
def imm32 (i : Insn) : Nat := i.imm.toNat

/-- The width a load or store accesses, `width_name(size_bytes(code))`. -/
def width (i : Insn) : Width :=
  match i.size with
  | .b => .w8
  | .h => .w16
  | .w => .w32
  | .dw => .w64

end Insn

def INSN_SIZE : Nat := 8

/-- Decode a byte string into instructions, eight bytes each. -/
def decode : List Byte → List Insn
  | code :: regs :: o0 :: o1 :: i0 :: i1 :: i2 :: i3 :: rest =>
    { code := code
      dst := ⟨regs.toNat % 16, Nat.mod_lt _ (by decide)⟩
      src := ⟨regs.toNat / 16 % 16, Nat.mod_lt _ (by decide)⟩
      off := BitVec.ofNat 16 (leNat [o0, o1])
      imm := BitVec.ofNat 32 (leNat [i0, i1, i2, i3]) } :: decode rest
  | _ => []

/-- The IR operator an ALU operation lowers to, for the operations that have one.
Division and remainder are unsigned, with `x/0 = 0` and `x%0 = x` in BPF and in
the IR alike. -/
def AluOp.binop : AluOp → Option BinOp
  | .add => some .add
  | .sub => some .sub
  | .and => some .and
  | .or => some .or
  | .xor => some .xor
  | .mul => some .mul
  | .div => some .div
  | .mod => some .mod
  | _ => none

/-- `width_name`: the width of `n` bytes. -/
def widthName (n : Nat) : Width :=
  match n with
  | 1 => .w8
  | 2 => .w16
  | 4 => .w32
  | _ => .w64

end Ect
