-- SUMMARY: The reference BPF interpreter: ALU values, branch conditions, and the fuelled run.
import Ect.Base.PcMachine
import Ect.Base.Words
import Ect.Bpf.Insn

/-!
# A direct interpreter of the bytecode

The ISA the translator is compared against (`tests/bpfvm.py`). Registers are
64-bit; a 32-bit ALU operation computes on the low halves and zero-extends the
result.
-/

namespace Ect

open PcMachine Words

/-- What an ALU operation computes, at any width. A shift count is masked to the
width. `none` for a bit pattern that names no operation here. -/
def AluOp.val {w : Nat} (op : AluOp) (x y : BitVec w) : Option (BitVec w) :=
  match op with
  | .add => some (x + y)
  | .sub => some (x - y)
  | .and => some (x &&& y)
  | .or => some (x ||| y)
  | .xor => some (x ^^^ y)
  | .mul => some (x * y)
  | .div => some (x / y)
  | .mod => some (x % y)
  | .mov => some y
  | .neg => some (-x)
  | .lsh => some (x <<< (y.toNat % w))
  | .rsh => some (x >>> (y.toNat % w))
  | .arsh => some (x.sshiftRight (y.toNat % w))
  | .end_ | .other => none

/-- `BPF_END` on a little-endian host: the low `bits` of the register, swapped for
the `BPF_X` source bit and for the ALU64 spelling. -/
def Insn.endVal (i : Insn) (is64 : Bool) (x : BitVec 64) : BitVec 64 :=
  let bits := i.imm.toNat
  let v := x.toNat % 2 ^ bits
  BitVec.ofNat 64 (if is64 || i.srcX then byteSwap (bits / 8) v else v)

/-- The value an ALU instruction leaves in `dst`, from the values of `dst` and
`src`. A 64-bit operation sign-extends its immediate. -/
def Insn.aluVal (i : Insn) (is64 : Bool) (x y : BitVec 64) : Option (BitVec 64) :=
  if i.aluOp = .end_ then some (i.endVal is64 x)
  else if is64 then i.aluOp.val x (if i.isImm then i.imm.signExtend 64 else y)
  else (i.aluOp.val (x.setWidth 32) (if i.isImm then i.imm else y.setWidth 32)).map (·.setWidth 64)

/-- The comparison of a conditional jump, at any width. -/
def JmpOp.taken {w : Nat} (op : JmpOp) (a b : BitVec w) : Option Bool :=
  match op with
  | .jeq => some (a == b)
  | .jne => some (a != b)
  | .jgt => some (b.ult a)
  | .jge => some (b.ule a)
  | .jlt => some (a.ult b)
  | .jle => some (a.ule b)
  | .jsgt => some (b.slt a)
  | .jsge => some (b.sle a)
  | .jslt => some (a.slt b)
  | .jsle => some (a.sle b)
  | .jset => some (a &&& b != 0)
  | .ja | .call | .exit | .other => none

/-- Whether a conditional jump is taken, from the values of `dst` and `src`. -/
def Insn.taken (i : Insn) (x y : BitVec 64) : Option Bool :=
  if i.cls = .jmp32 then
    i.jmpOp.taken (x.setWidth 32) (if i.isImm then i.imm else y.setWidth 32)
  else i.jmpOp.taken x (if i.isImm then i.imm.signExtend 64 else y)

/-- The constant a wide immediate at `pc` loads. -/
def wideImm (insns : List Insn) (pc : Nat) : BitVec 64 :=
  ((insns.getD (pc + 1) default).imm ++ (insns.getD pc default).imm : BitVec (32 + 32))

/-- The target of a jump at `pc`. -/
def jumpTarget (pc : Nat) (i : Insn) : Int := pc + 1 + i.off.toInt

abbrev Regs : Type := Nat → BitVec 64

def Regs.set (r : Regs) (k : Nat) (v : BitVec 64) : Regs := fun k' => if k' = k then v else r k'

namespace Vm

/-- The interpreter does not model this: `Halt`. -/
inductive Halt where
  | notModelled
  deriving DecidableEq, Repr

def goto (target : Int) (r : Regs) : Step Regs Halt :=
  if 0 ≤ target then .next target.toNat r else .stop .notModelled

/-- One instruction of `bpfvm.run`. Running past the last instruction returns. -/
def step (insns : List Insn) (pc : Nat) (r : Regs) : Step Regs Halt :=
  if pc ≥ insns.length then .exit r
  else
    let i := insns.getD pc default
    if i.isLdImm64 then .next (pc + 2) (r.set i.dst (wideImm insns pc))
    else
      match i.cls with
      | .alu | .alu64 =>
        match i.aluVal (i.cls == .alu64) (r i.dst) (r i.src) with
        | some v => .next (pc + 1) (r.set i.dst v)
        | none => .stop .notModelled
      | .jmp | .jmp32 =>
        match i.jmpOp with
        | .exit => .exit r
        | .ja => goto (jumpTarget pc i) r
        | .call => .stop .notModelled
        | _ =>
          match i.taken (r i.dst) (r i.src) with
          | some taken => if taken then goto (jumpTarget pc i) r else .next (pc + 1) r
          | none => .stop .notModelled
      | _ => .stop .notModelled

/-- Execute until EXIT, all registers 0 at the start. Returns `r0`. -/
def run (insns : List Insn) (fuel : Nat) : Option (BitVec 64) :=
  match runFor (step insns) fuel 0 (fun _ => 0) with
  | some (.exit r) => some (r 0)
  | _ => none

end Vm

end Ect
