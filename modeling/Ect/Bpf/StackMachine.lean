-- SUMMARY: The machine with provenance, given a stack frame: spills, reloads, and what each byte was stored by.
import Ect.Base.Spans
import Ect.Bpf.Machine
import Ect.Translate.MapInfo

/-!
# A machine with a frame

The machine with provenance faults where a program dereferences the frame pointer. Here such an
access goes to a frame of `bpfStackSize` bytes, which ends where `r10` points. The frame is
byte-addressed, and remembers of each byte which store it comes from: what is reloaded whole
keeps the provenance it was stored with. Everything else is as on the machine without a frame.
-/

namespace Ect

open PcMachine LittleEndian Spans

/-- The bytes of a frame, and the stores they come from. -/
structure Frame where
  bytes : Nat → Byte
  stores : Cover Prov

namespace Frame

def empty : Frame := ⟨fun _ => 0, .empty⟩

/-- Store the low bytes of `v`, which comes from `p`, at `a`. -/
def store (f : Frame) (a : Nat) (w : Width) (v : Nat) (p : Prov) : Frame :=
  ⟨putBytes f.bytes a (leBytes w.bytes v), f.stores.write ⟨a, w.bytes, p⟩⟩

/-- The number in the bytes at `a`. -/
def load (f : Frame) (a : Nat) (w : Width) : Nat := leNat (getBytes f.bytes a w.bytes)

end Frame

/-- The instruction accesses memory through a pointer into the frame. -/
def Machine.accessesFrame (m : Machine) (i : Insn) : Bool :=
  i.mode == .mem && match i.cls with
    | .ldx => m.prov i.src == .stack
    | .stx | .st => m.prov i.dst == .stack
    | _ => false

structure StackMachine where
  core : Machine
  frame : Frame

namespace StackMachine

open Machine

/-- The byte of the frame an access starts at: `r10` is 0 and points past the last one. -/
def frameAt (base : BitVec 64) (i : Insn) : Nat := address (base + BitVec.ofNat 64 bpfStackSize) i

/-- A load from the frame, of bytes that were all stored. -/
def reload (m : StackMachine) (i : Insn) (pc : Nat) : Step StackMachine Halt :=
  let a := frameAt (m.core.regs i.src) i
  if bpfStackSize < a + i.width.bytes ∨ m.frame.stores.written a i.width.bytes = false then
    .stop .fault
  else
    let p := (m.frame.stores.whole? a i.width.bytes).getD .scalar
    .next (pc + 1) { m with
      core := m.core.setReg i.dst (BitVec.ofNat 64 (m.frame.load a i.width)) p }

/-- A store to the frame. A pointer is stored whole or not at all. -/
def spill (m : StackMachine) (i : Insn) (fromReg : Bool) (pc : Nat) : Step StackMachine Halt :=
  let a := frameAt (m.core.regs i.dst) i
  let p := if fromReg then m.core.prov i.src else .scalar
  let v := if fromReg then m.core.regs i.src else i.imm.signExtend 64
  if bpfStackSize < a + i.width.bytes ∨ p = .clobbered ∨ p.isPtr = true ∧ i.width ≠ .w64 then
    .stop .fault
  else .next (pc + 1) { m with frame := m.frame.store a i.width v.toNat p }

/-- A step of the machine without a frame. -/
def lift (m : StackMachine) : Step Machine Halt → Step StackMachine Halt
  | .next pc core => .next pc { m with core }
  | .exit core => .exit { m with core }
  | .stop o => .stop o

/-- One instruction. -/
def step (insns : List Insn) (ctx : CtxLayout) (len : Nat → Nat) (pc : Nat) (m : StackMachine) :
    Step StackMachine Halt :=
  let i := insns.getD pc default
  if pc < insns.length ∧ m.core.accessesFrame i = true then
    if i.cls = .ldx then m.reload i pc else m.spill i (i.cls == .stx) pc
  else m.lift (m.core.step insns ctx len pc)

def entry (mem : Nat → Nat → Byte) : StackMachine := ⟨Machine.entry mem, .empty⟩

/-- The instruction at `pc` loads bytes of the frame that are not the whole of one store. -/
def MixedReload (insns : List Insn) (pc : Nat) (m : StackMachine) : Prop :=
  let i := insns.getD pc default
  i.cls = .ldx ∧ m.core.prov i.src = .stack ∧
    m.frame.stores.whole? (frameAt (m.core.regs i.src) i) i.width.bytes = none

/-- What the emitted program can follow: packet fields are loaded as words, and what is
reloaded was stored whole. -/
def FairAt (insns : List Insn) (ctx : CtxLayout) (pc : Nat) (m : StackMachine) : Prop :=
  ¬NarrowFieldLoad insns ctx pc m.core ∧ ¬MixedReload insns pc m

instance decidableNarrowFieldLoad (insns : List Insn) (ctx : CtxLayout) (pc : Nat) (m : Machine) :
    Decidable (NarrowFieldLoad insns ctx pc m) :=
  inferInstanceAs (Decidable (_ ∧ _ ∧ _ ∧ (_ ∨ _)))

instance decidableMixedReload (insns : List Insn) (pc : Nat) (m : StackMachine) :
    Decidable (MixedReload insns pc m) :=
  inferInstanceAs (Decidable (_ ∧ _ ∧ _))

instance decidableFairAt (insns : List Insn) (ctx : CtxLayout) (pc : Nat) (m : StackMachine) :
    Decidable (FairAt insns ctx pc m) :=
  inferInstanceAs (Decidable (_ ∧ _))

/-- How the run ended, without the frame. -/
def coreEnd : End StackMachine Halt → End Machine Halt
  | .exit m => .exit m.core
  | .stop o => .stop o

end StackMachine

end Ect
