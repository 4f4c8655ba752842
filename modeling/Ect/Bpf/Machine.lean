-- SUMMARY: A BPF machine whose values carry provenance: loads, stores and packet loads on byte regions.
import Ect.Bpf.Vm
import Ect.Ir.Semantics
import Ect.Translate.Provenance

/-!
# A machine with provenance

The reference for memory operations. A register holds a value and where it comes
from. A dereference goes to the region the base register's provenance names, at the
register's value plus the instruction's offset; regions are arrays of bytes, read and
written little-endian, and every access is logged. The machine is of its own making:
it knows the ISA and the context layout, and nothing of the translator.
-/

namespace Ect

open PcMachine LittleEndian

/-! ## Byte regions -/

/-- The `n` bytes from `off`. -/
def getBytes (m : Nat → Byte) (off : Nat) : Nat → List Byte
  | 0 => []
  | n + 1 => m off :: getBytes m (off + 1) n

/-- The region after the byte string `bs` is written at `off`. -/
def putBytes (m : Nat → Byte) (off : Nat) (bs : List Byte) : Nat → Byte :=
  fun i => if off ≤ i ∧ i < off + bs.length then bs.getD (i - off) 0 else m i

@[simp] theorem getBytes_length (m : Nat → Byte) (off n : Nat) : (getBytes m off n).length = n := by
  induction n generalizing off with
  | zero => rfl
  | succ n ih => simp [getBytes, ih]

/-! ## Values with provenance -/

/-- Where a value comes from: a pointer into the context, the packet or the stack
frame, a plain integer, or a register that a packet load has clobbered. -/
inductive Prov where
  | scalar | ctx | pkt | stack | clobbered
  deriving DecidableEq, Repr

def Prov.isPtr : Prov → Bool
  | .ctx | .pkt | .stack => true
  | _ => false

/-- The region a dereference goes to. The frame is not a region. -/
def Prov.region : Prov → Option Nat
  | .ctx => some regionCtx
  | .pkt => some regionPkt
  | _ => none

structure Machine where
  regs : Regs
  prov : Nat → Prov
  mem : Nat → Nat → Byte
  log : List Access

namespace Machine

/-- How a run stops before `EXIT`. -/
inductive Halt where
  /-- An instruction that is not modelled here. -/
  | notModelled
  /-- A dereference of a value that is no pointer into a region, the sum of two
  pointers, or a read of a clobbered register. -/
  | fault
  /-- An access outside its region, the last one of the log. -/
  | overrun (log : List Access)
  /-- Past the last instruction. -/
  | off (m : Machine)

def setReg (m : Machine) (r : Nat) (v : BitVec 64) (p : Prov) : Machine :=
  { m with regs := m.regs.set r v, prov := fun r' => if r' = r then p else m.prov r' }

def setMem (m : Machine) (r : Nat) (bytes : Nat → Byte) : Machine :=
  { m with mem := fun r' => if r' = r then bytes else m.mem r' }

/-- Log an access, and go on if it stays inside its region. -/
def access (len : Nat → Nat) (m : Machine) (a : Access) (k : Machine → Step Machine Halt) :
    Step Machine Halt :=
  if a.Overruns len then .stop (.overrun (m.log ++ [a])) else k { m with log := m.log ++ [a] }

def goto (target : Int) (m : Machine) : Step Machine Halt :=
  if 0 ≤ target then .next target.toNat m else .stop .notModelled

/-! ## Instructions -/

/-- The registers an ALU instruction reads. -/
def aluReads (i : Insn) : List Nat :=
  (if i.aluOp = .mov then [] else [(i.dst : Nat)]) ++
    (if i.srcX ∧ i.aluOp ≠ .neg ∧ i.aluOp ≠ .end_ then [(i.src : Nat)] else [])

/-- The provenance of an ALU result: a 64-bit move keeps it, a 64-bit sum of a pointer
and a scalar points into the pointer's region, and everything else is an integer.
`none` for the sum of two pointers. -/
def aluProv (i : Insn) (is64 : Bool) (d s : Prov) : Option Prov :=
  match i.aluOp with
  | .mov => some (if is64 && i.srcX then s else .scalar)
  | .add =>
    if !is64 then some .scalar
    else if i.isImm then some d
    else if d.isPtr && s.isPtr then none
    else some (if d.isPtr then d else s)
  | _ => some .scalar

/-- The registers a conditional jump reads. -/
def jmpReads (i : Insn) : List Nat := if i.srcX then [(i.dst : Nat), i.src] else [(i.dst : Nat)]

/-- The address a load or store accesses. -/
def address (base : BitVec 64) (i : Insn) : Nat := (base + i.off.signExtend 64).toNat

/-- What a load leaves: the words at the context's packet fields are pointers into the
packet, and everything else is an integer. -/
def loadProv (ctx : CtxLayout) (a : Access) : Prov :=
  if a.region = regionCtx ∧ a.nbytes = 4 ∧ (a.off = ctx.dataOff ∨ a.off = ctx.dataEndOff) then .pkt
  else .scalar

/-- The address a packet load reads: the immediate, plus the source register for the
indirect form. -/
def pktAddress (i : Insn) (src : BitVec 64) : Nat :=
  if i.mode = .ind then (src + i.imm.signExtend 64).toNat else (i.imm.signExtend 64).toNat

/-- The call behind a packet load clobbers `r1` to `r5`. -/
def clobber (m : Machine) : Machine :=
  { m with prov := fun r => if 1 ≤ r ∧ r < 6 then .clobbered else m.prov r }

/-- Some register among `rs` was clobbered. -/
def readsClobbered (m : Machine) (rs : List Nat) : Bool := rs.any (m.prov · == .clobbered)

def aluStep (m : Machine) (i : Insn) (is64 : Bool) (pc : Nat) : Step Machine Halt :=
  if m.readsClobbered (aluReads i) then .stop .fault
  else
    match aluProv i is64 (m.prov i.dst) (m.prov i.src),
      i.aluVal is64 (m.regs i.dst) (m.regs i.src) with
    | none, _ => .stop .fault
    | some _, none => .stop .notModelled
    | some p, some v => .next (pc + 1) (m.setReg i.dst v p)

def ldxStep (m : Machine) (i : Insn) (ctx : CtxLayout) (len : Nat → Nat) (pc : Nat) :
    Step Machine Halt :=
  if i.mode ≠ .mem then .stop .notModelled
  else
    match (m.prov i.src).region with
    | none => .stop .fault
    | some r =>
      let a : Access := ⟨false, r, address (m.regs i.src) i, i.width.bytes⟩
      m.access len a fun m =>
        let v := leNat (getBytes (m.mem r) a.off a.nbytes)
        .next (pc + 1) (m.setReg i.dst (BitVec.ofNat 64 v) (loadProv ctx a))

/-- `STX` stores a register, `ST` the sign-extended immediate. -/
def storeStep (m : Machine) (i : Insn) (fromReg : Bool) (len : Nat → Nat) (pc : Nat) :
    Step Machine Halt :=
  if i.mode ≠ .mem then .stop .notModelled
  else if fromReg && m.readsClobbered [i.src] then .stop .fault
  else
    match (m.prov i.dst).region with
    | none => .stop .fault
    | some r =>
      let a : Access := ⟨true, r, address (m.regs i.dst) i, i.width.bytes⟩
      let v := if fromReg then m.regs i.src else i.imm.signExtend 64
      m.access len a fun m =>
        .next (pc + 1) (m.setMem r (putBytes (m.mem r) a.off (leBytes a.nbytes v.toNat)))

def ldPktStep (m : Machine) (i : Insn) (len : Nat → Nat) (pc : Nat) : Step Machine Halt :=
  if (i.mode ≠ .abs ∧ i.mode ≠ .ind) ∨ i.width = .w64 then .stop .notModelled
  else if i.mode == .ind && m.readsClobbered [i.src] then .stop .fault
  else
    let a : Access := ⟨false, regionPkt, pktAddress i (m.regs i.src), i.width.bytes⟩
    m.access len a fun m =>
      -- network byte order: the first byte is the most significant
      let v := leNat (getBytes (m.mem regionPkt) a.off a.nbytes).reverse
      .next (pc + 1) (m.setReg 0 (BitVec.ofNat 64 v) .scalar).clobber

def jmpStep (m : Machine) (i : Insn) (pc : Nat) : Step Machine Halt :=
  match i.jmpOp with
  | .exit => .exit m
  | .ja => goto (jumpTarget pc i) m
  | .call => .stop .notModelled
  | _ =>
    if m.readsClobbered (jmpReads i) then .stop .fault
    else
      match i.taken (m.regs i.dst) (m.regs i.src) with
      | some taken => if taken then goto (jumpTarget pc i) m else .next (pc + 1) m
      | none => .stop .notModelled

/-- One instruction. -/
def step (insns : List Insn) (ctx : CtxLayout) (len : Nat → Nat) (pc : Nat) (m : Machine) :
    Step Machine Halt :=
  if pc ≥ insns.length then .stop (.off m)
  else
    let i := insns.getD pc default
    if i.isLdImm64 then .next (pc + 2) (m.setReg i.dst (wideImm insns pc) .scalar)
    else
      match i.cls with
      | .alu => m.aluStep i false pc
      | .alu64 => m.aluStep i true pc
      | .ldx => m.ldxStep i ctx len pc
      | .stx => m.storeStep i true len pc
      | .st => m.storeStep i false len pc
      | .ld => m.ldPktStep i len pc
      | .jmp | .jmp32 => m.jmpStep i pc

/-- Entry: `r1` points to the context and `r10` to the frame, and every other
register holds 0. -/
def entry (mem : Nat → Nat → Byte) : Machine where
  regs := fun _ => 0
  prov := fun r => if r = 1 then .ctx else if r = 10 then .stack else .scalar
  mem := mem
  log := []

/-- The instruction at `pc` loads a packet field of the context at a width other than
a word. -/
def NarrowFieldLoad (insns : List Insn) (ctx : CtxLayout) (pc : Nat) (m : Machine) : Prop :=
  let i := insns.getD pc default
  i.cls = .ldx ∧ m.prov i.src = .ctx ∧ i.width.bytes ≠ 4 ∧
    (address (m.regs i.src) i = ctx.dataOff ∨ address (m.regs i.src) i = ctx.dataEndOff)

/-! ## The log -/

section Log

variable {insns : List Insn} {ctx : CtxLayout} {len : Nat → Nat} {m : Machine} {i : Insn} {pc : Nat}
  {P : Access → Prop}

/-- What a step does to the log: it makes at most one access, which satisfies `P`, and
goes on only if the access stays inside its region. -/
def Outcome (P : Access → Prop) (len : Nat → Nat) (m : Machine) : Step Machine Halt → Prop
  | .next _ m' => m'.log = m.log ∨ ∃ a : Access, P a ∧ ¬a.Overruns len ∧ m'.log = m.log ++ [a]
  | .exit m' => m' = m
  | .stop (.overrun log) => ∃ a : Access, P a ∧ a.Overruns len ∧ log = m.log ++ [a]
  | .stop (.off m') => m' = m
  | .stop _ => True

theorem access_outcome {a : Access} {k : Machine → Step Machine Halt} {pc' : Nat} {m' : Machine}
    (ha : P a) (hk : k { m with log := m.log ++ [a] } = .next pc' m')
    (hlog : m'.log = m.log ++ [a]) : Outcome P len m (m.access len a k) := by
  unfold access
  split
  · rename_i hout
    exact ⟨a, ha, hout, rfl⟩
  · rename_i hin
    rw [hk]
    exact .inr ⟨a, ha, hin, hlog⟩

theorem aluStep_outcome {is64 : Bool} : Outcome P len m (m.aluStep i is64 pc) := by
  unfold aluStep
  split
  · trivial
  · split
    · trivial
    · trivial
    · exact .inl rfl

theorem ldxStep_outcome (hP : ∀ a, P a) : Outcome P len m (m.ldxStep i ctx len pc) := by
  unfold ldxStep
  split
  · trivial
  · split
    · trivial
    · exact access_outcome (hP _) rfl rfl

theorem storeStep_outcome {fromReg : Bool} (hP : ∀ a, P a) :
    Outcome P len m (m.storeStep i fromReg len pc) := by
  unfold storeStep
  split
  · trivial
  · split
    · trivial
    · split
      · trivial
      · exact access_outcome (hP _) rfl rfl

theorem ldPktStep_outcome (hP : ∀ a : Access, a.region = regionPkt → P a) :
    Outcome P len m (m.ldPktStep i len pc) := by
  unfold ldPktStep
  split
  · trivial
  · split
    · trivial
    · exact access_outcome (hP _ rfl) rfl rfl

theorem goto_outcome {target : Int} : Outcome P len m (goto target m) := by
  unfold goto
  split
  · exact .inl rfl
  · trivial

theorem jmpStep_outcome : Outcome P len m (m.jmpStep i pc) := by
  unfold jmpStep
  split
  · exact rfl
  · exact goto_outcome
  · trivial
  · split
    · trivial
    · split
      · split
        · exact goto_outcome
        · exact .inl rfl
      · trivial

theorem step_outcome (pc : Nat) (m : Machine) :
    Outcome (fun _ => True) len m (m.step insns ctx len pc) := by
  unfold step
  split
  · exact rfl
  · dsimp only
    split
    · exact .inl rfl
    · split
      · exact aluStep_outcome
      · exact aluStep_outcome
      · exact ldxStep_outcome fun _ => trivial
      · exact storeStep_outcome fun _ => trivial
      · exact storeStep_outcome fun _ => trivial
      · exact ldPktStep_outcome fun _ _ => trivial
      · exact jmpStep_outcome
      · exact jmpStep_outcome

section Runs

variable (hP : ∀ pc m, Outcome P len m (Machine.step insns ctx len pc m))
include hP

/-- What a run that gets somewhere has accessed lies inside the regions. -/
theorem reaches_log {pc' : Nat} {m' : Machine} (hr : Reaches (step insns ctx len) pc m pc' m')
    (h : ∀ a ∈ m.log, P a ∧ ¬a.Overruns len) : ∀ a ∈ m'.log, P a ∧ ¬a.Overruns len := by
  refine hr.invariant (P := fun m => ∀ a ∈ m.log, P a ∧ ¬a.Overruns len) ?_ h
  intro pc s pc' s' hs hstep
  have hout := hP pc s
  rw [hstep] at hout
  rcases hout with hlog | ⟨b, hb, hin, hlog⟩
  · rw [hlog]; exact hs
  · intro a ha
    rw [hlog, List.mem_append, List.mem_singleton] at ha
    rcases ha with ha | rfl
    · exact hs a ha
    · exact ⟨hb, hin⟩

/-- What a run that exits has accessed lies inside the regions. -/
theorem exit_log {fuel : Nat} {m' : Machine}
    (h : runFor (step insns ctx len) fuel pc m = some (.exit m'))
    (hm : ∀ a ∈ m.log, P a ∧ ¬a.Overruns len) : ∀ a ∈ m'.log, P a ∧ ¬a.Overruns len := by
  obtain ⟨pc₁, m₁, hr, hlast⟩ := runFor_last h
  have hout := hP pc₁ m₁
  rw [hlast] at hout
  rw [show m' = m₁ from hout]
  exact reaches_log hP hr hm

/-- What stops at an overrun has accessed nothing else outside the regions. -/
theorem overrun_log {fuel : Nat} {log : List Access}
    (h : runFor (step insns ctx len) fuel pc m = some (.stop (.overrun log)))
    (hm : ∀ a ∈ m.log, P a ∧ ¬a.Overruns len) :
    ∃ log' a, log = log' ++ [a] ∧ P a ∧ a.Overruns len ∧ ∀ b ∈ log', P b ∧ ¬b.Overruns len := by
  obtain ⟨pc₁, m₁, hr, hlast⟩ := runFor_last h
  have hout := hP pc₁ m₁
  rw [hlast] at hout
  obtain ⟨a, ha, hover, hlog⟩ := hout
  exact ⟨m₁.log, a, hlog, ha, hover, reaches_log hP hr hm⟩

theorem reaches_log_extends {pc' : Nat} {m' : Machine}
    (hr : Reaches (step insns ctx len) pc m pc' m') : m.log <+: m'.log := by
  refine hr.invariant (P := fun m' => m.log <+: m'.log) ?_ List.prefix_rfl
  intro pc s pc' s' hs hstep
  have hout := hP pc s
  rw [hstep] at hout
  rcases hout with hlog | ⟨b, _, _, hlog⟩
  · rw [hlog]; exact hs
  · rw [hlog]; exact hs.trans (List.prefix_append _ _)

/-- The log of a run that goes on to its end holds what it held before. -/
theorem exit_log_extends {fuel : Nat} {m' : Machine}
    (h : runFor (step insns ctx len) fuel pc m = some (.exit m')) : m.log <+: m'.log := by
  obtain ⟨pc₁, m₁, hr, hlast⟩ := runFor_last h
  have hout := hP pc₁ m₁
  rw [hlast] at hout
  rw [show m' = m₁ from hout]
  exact reaches_log_extends hP hr

theorem overrun_log_extends {fuel : Nat} {log : List Access}
    (h : runFor (step insns ctx len) fuel pc m = some (.stop (.overrun log))) : m.log <+: log := by
  obtain ⟨pc₁, m₁, hr, hlast⟩ := runFor_last h
  have hout := hP pc₁ m₁
  rw [hlast] at hout
  obtain ⟨a, _, _, hlog⟩ := hout
  rw [hlog]
  exact (reaches_log_extends hP hr).trans (List.prefix_append _ _)

end Runs

end Log

end Machine

end Ect
