-- SUMMARY: ALU lowering: synthesized shifts and swaps, the abstract effect, and `translate_alu`.
import Ect.Bpf.Insn
import Ect.Translate.Monad

/-!
# ALU lowering

ALU at 64 bits operates on the register headers directly. At 32 bits it narrows
both operands, operates at W32 and widens back, which is also the zero-extension
of the upper half. The IR has no shift operator: a shift by a constant is a
multiply or divide by a power of two.
-/

namespace Ect

open LittleEndian TransM

/-! ## Synthesized operators -/

/-- An arithmetic right shift by a constant:

* `logical = x / 2^k`,
* `sign = x / 2^(width-1)`,
* `result = logical | sign * (2^k - 1) * 2^(width-k)`.

The two summands occupy disjoint bits, so the combine is an or. -/
def emitArshConst (idx reg k widthBits : Nat) : TransM Unit :=
  if k = 0 ∨ k ≥ widthBits then
    if k ≠ 0 then unsupported idx s!"arithmetic shift by {k} at {widthBits} bits" else pure ()
  else do
    let w : Width := if widthBits = 32 then .w32 else .w64
    let tSign ← freshTmp idx
    let tMask ← freshTmp idx
    let signDiv := 1 <<< (if widthBits = 32 then 31 else 63)
    let mask := ((1 <<< k) - 1) <<< (widthBits - k)
    let mask := if widthBits = 32 then mask &&& 0xffffffff else mask
    binop .div w (hdr reg) (konstN signDiv) tSign
    binop .mul w (hdr tSign) (konstN mask) tMask
    binop .div w (hdr reg) (konstN (1 <<< k)) reg
    binop .or w (hdr reg) (hdr tMask) reg

/-- One byte of `emitBswap`: byte `i` of the source lands at byte `nbytes-1-i` of
the accumulator. -/
def emitBswapByte (nbytes tSrc tAcc tB i : Nat) : TransM Unit := do
  let up := 8 * (nbytes - 1 - i)
  if i = 0 then move tB tSrc
  else binop .div .w64 (hdr tSrc) (konstN (1 <<< (8 * i))) tB
  binop .and .w64 (hdr tB) (konstN 0xff) tB
  if up ≠ 0 then binop .mul .w64 (hdr tB) (konstN (1 <<< up)) tB else pure ()
  binop .or .w64 (hdr tAcc) (hdr tB) tAcc

/-- The loop of `emitBswap` over the remaining bytes. -/
def emitBswapBytes (nbytes tSrc tAcc tB : Nat) : List Nat → TransM Unit
  | [] => pure ()
  | i :: is => do
    emitBswapByte nbytes tSrc tAcc tB i
    emitBswapBytes nbytes tSrc tAcc tB is

/-- A byte swap. Everything is done at W64 with explicit masks rather than at the
operand's own width, so the source is read once and the caller may pass the same
header as `src` and `target`. -/
def emitBswap (idx src nbytes target : Nat) : TransM Unit :=
  if nbytes ≤ 1 then
    if src ≠ target then move target src else pure ()
  else do
    let tSrc ← freshTmp idx
    let tAcc ← freshTmp idx
    let tB ← freshTmp idx
    move tSrc src
    set_ tAcc 0
    emitBswapBytes nbytes tSrc tAcc tB (List.range nbytes)
    move target tAcc

/-! ## The abstract effect -/

/-- `st.reg[dst]` after a 64-bit ADD. -/
def addInfo (isImm : Bool) (imm : Int) (d s : RegInfo) : RegInfo :=
  if isImm then
    if d.tag ≠ .scalar ∧ d.offKnown then { d with off := d.off + imm }
    else if d.tag ≠ .scalar then { d with offKnown := false }
    else d
  else if d.tag ≠ .scalar ∧ s.tag = .scalar then { d with offKnown := false }
  else if d.tag = .scalar ∧ s.tag ≠ .scalar then { s with offKnown := false }
  else .scalar

/-- `st.reg[dst]` after an ALU operation, from `st.reg[dst]` and `st.reg[src]`. -/
def aluInfo (i : Insn) (is64 : Bool) (d s : RegInfo) : RegInfo :=
  match i.aluOp with
  | .mov =>
    if !is64 && !i.isImm then .scalar       -- truncation destroys a pointer
    else if i.isImm then scalarConst (if is64 then i.imm64 else i.imm32)
    else s
  | .add => if is64 then addInfo i.isImm i.imm.toInt d s else .scalar
  | _ => .scalar

/-! ## The concrete operations -/

def aluMov (idx : Nat) (i : Insn) (is64 : Bool) (hd hs : Nat) : TransM Unit :=
  if is64 then
    if i.isImm then set_ hd i.imm64 else move hd hs
  else if i.isImm then set_ hd i.imm32
  else do
    let t ← freshTmp idx
    cast .w64 .w32 (hdr hs) t
    cast .w32 .w64 (hdr t) hd

def aluNeg (idx : Nat) (is64 : Bool) (hd : Nat) : TransM Unit :=
  if is64 then binop .sub .w64 (konst 0) (hdr hd) hd
  else do
    let t ← freshTmp idx
    cast .w64 .w32 (hdr hd) t
    binop .sub .w32 (konst 0) (hdr t) t
    cast .w32 .w64 (hdr t) hd

/-- The shift itself, on a header of the operation's width. -/
def aluShiftBy (idx : Nat) (op : AluOp) (is64 : Bool) (t k : Nat) : TransM Unit :=
  if op = .arsh then emitArshConst idx t k (if is64 then 64 else 32)
  else if k ≠ 0 then
    binop (if op = .lsh then .mul else .div) (if is64 then .w64 else .w32)
      (hdr t) (konstN (1 <<< k)) t
  else pure ()

def aluShift (idx : Nat) (i : Insn) (is64 : Bool) (hd : Nat) : TransM Unit :=
  if !i.isImm then
    unsupported idx ("shift by a register (the IR has no shift operator; only constant " ++
      "shifts lower to multiply/divide)")
  else
    -- `in_.imm & (width_bits - 1)`
    let k := i.imm32 % (if is64 then 64 else 32)
    if is64 then aluShiftBy idx i.aluOp is64 hd k
    else do
      let t ← freshTmp idx
      cast .w64 .w32 (hdr hd) t
      aluShiftBy idx i.aluOp is64 t k
      cast .w32 .w64 (hdr t) hd

/-- `imm` is the width in bits, and the result is written back at that width. The
host is little-endian: `BPF_TO_BE` (the `BPF_X` source bit) and the ALU64
spelling are real swaps, `BPF_TO_LE` is the truncation alone. -/
def aluEnd (idx : Nat) (i : Insn) (is64 : Bool) (hd : Nat) : TransM Unit :=
  let bits := i.imm.toInt
  if bits ≠ 16 ∧ bits ≠ 32 ∧ bits ≠ 64 then
    unsupported idx s!"BPF_END with a width of {bits} bits"
  else do
    if bits ≠ 64 then
      binop .and .w64 (hdr hd) (konstN ((1 <<< bits.toNat) - 1)) hd
    else pure ()
    if is64 || i.srcX then emitBswap idx hd (bits.toNat / 8) hd else pure ()

def aluBinop (idx : Nat) (i : Insn) (is64 : Bool) (hd hs : Nat) : TransM Unit :=
  match i.aluOp.binop with
  | none =>
    let op := (i.code &&& 0xf0#8).toNat
    unsupported idx s!"ALU op 0x{hex op}"
  | some f =>
    if is64 then binop f .w64 (hdr hd) (if i.isImm then konst i.imm64 else hdr hs) hd
    else do
      let t1 ← freshTmp idx
      cast .w64 .w32 (hdr hd) t1
      if i.isImm then binop f .w32 (hdr t1) (konst i.imm32) t1
      else do
        let t2 ← freshTmp idx
        cast .w64 .w32 (hdr hs) t2
        binop f .w32 (hdr t1) (hdr t2) t1
      cast .w32 .w64 (hdr t1) hd

def aluOps (idx : Nat) (i : Insn) (is64 : Bool) : TransM Unit :=
  let hd := hReg i.dst
  let hs := hReg i.src
  match i.aluOp with
  | .mov => aluMov idx i is64 hd hs
  | .neg => aluNeg idx is64 hd
  | .lsh | .rsh | .arsh => aluShift idx i is64 hd
  | .end_ => aluEnd idx i is64 hd
  | _ => aluBinop idx i is64 hd hs

/-- The abstract effect first; the concrete operations follow. -/
def translateAlu (idx : Nat) (i : Insn) (is64 : Bool) (st : AbsState) : TransM AbsState :=
  if i.dst ≥ numBpfRegs ∨ i.src ≥ numBpfRegs then do
    unsupported idx "register out of range"
    pure st
  else do
    let st := st.setReg i.dst (aluInfo i is64 (st.reg i.dst) (st.reg i.src))
    aluOps idx i is64
    pure st

end Ect
