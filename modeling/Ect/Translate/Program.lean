-- SUMMARY: Straight-line translation, block splitting, conditions, and the program-level loop.
import Ect.Translate.Alu
import Ect.Translate.MapHelpers

/-!
# Program translation

Each basic block becomes one transformer guarded on the program-counter header;
sequencing comes from the module chain, because a transformer runs only the
first rule whose match pattern holds. A block ending in a conditional jump, or
in a map helper with arms, needs a second transformer, since a match pattern is
evaluated on entry and the condition is computed by the block itself.
-/

namespace Ect

open LittleEndian TransM

/-! ## Classic-BPF packet loads -/

/-- `LD_ABS` reads the packet at the constant in `imm`; `LD_IND` at `src_reg + imm`.
The destination is always `r0`, the value arrives converted from network byte
order, and `r1` to `r5` are clobbered. -/
def translateLdPkt (idx : Nat) (i : Insn) (st : AbsState) : TransM AbsState :=
  if i.width = .w64 then do
    unsupported idx "LD_ABS/LD_IND at 64 bits"
    pure st
  else do
    let tAddr ← freshTmp idx
    if i.mode = .ind then binop .add .w64 (hdr (hReg i.src)) (konst i.imm.toInt) tAddr
    else set_ tAddr i.imm64
    let tVal ← freshTmp idx
    load i.width regionPkt (hdr tAddr) tVal
    cast i.width .w64 (hdr tVal) tVal
    emitBswap idx tVal i.width.bytes (hReg 0)
    pure (st.setReg 0 .scalar).clobber

/-! ## Straight-line translation -/

def insnAt (insns : List Insn) (i : Nat) : Insn := insns.getD i default

/-- A wide immediate: a map address where a relocation says so, else a constant. -/
def translateLdImm64 (idx : Nat) (insns : List Insn) (st : AbsState) : TransM (Nat × AbsState) := do
  let i := insnAt insns idx
  if idx + 1 ≥ insns.length then do
    unsupported idx "truncated LD_IMM64"
    pure (1, st)
  else
    match (← config).insnMapIdx idx with
    | some m => do
      -- The register's value is never read; its tag is what names the region.
      set_ (hReg i.dst) 0
      pure (2, ← writeReg st i.dst (mapPointer .map 0 m))
    | none => do
      if i.src ≠ 0 then
        unsupported idx s!"LD_IMM64 with src_reg={i.src.val} (map/pseudo immediate)"
      else pure ()
      let v := (insnAt insns (idx + 1)).imm32 <<< 32 ||| i.imm32
      set_ (hReg i.dst) v
      pure (2, ← writeReg st i.dst (scalarConst v))

def translatePlain (idx : Nat) (i : Insn) (st : AbsState) : TransM AbsState :=
  match i.cls with
  | .alu64 => translateAlu idx i true st
  | .alu => translateAlu idx i false st
  | .ldx => translateLdx idx i st
  | .stx =>
    if i.mode = .atomic then do
      unsupported idx "atomic memory op"
      pure st
    else translateStore idx i st true
  | .st => translateStore idx i st false
  | .ld =>
    if i.mode = .abs ∨ i.mode = .ind then translateLdPkt idx i st
    else do
      let mode := (i.code &&& 0xe0#8).toNat
      unsupported idx s!"BPF_LD in mode 0x{hex mode}"
      pure st
  | _ => do
    let cls := (i.code &&& 0x07#8).toNat
    unsupported idx s!"instruction class 0x{hex cls}"
    pure st

/-- Returns the number of instruction slots consumed (2 for `LD_IMM64`), and the
state after them. -/
def translateOne (idx : Nat) (insns : List Insn) (st : AbsState) : TransM (Nat × AbsState) := do
  let i := insnAt insns idx
  setTmpNext 0
  if i.isNopJump then pure (1, st)
  else if i.isLdImm64 then translateLdImm64 idx insns st
  else do
    let st ← translatePlain idx i st
    pure (1, st)

/-! ## Registers the program mentions -/

/-- The registers one instruction mentions. -/
def mentionedRegs (i : Insn) : List Nat :=
  if i.isLdImm64 then [i.dst]
  else
    match i.cls with
    | .alu64 | .alu => if i.srcX then [i.dst, i.src] else [i.dst]
    | .ldx | .stx => [i.dst, i.src]
    | .st => [i.dst]
    | .ld => if i.mode = .ind then [i.dst, i.src] else [i.dst]
    | .jmp | .jmp32 =>
      match i.jmpOp with
      | .exit => [0]
      | .call => [0, 1, 2]
      | .ja => []
      | _ => if i.srcX then [i.dst, i.src] else [i.dst]

/-- Slots the instruction takes. -/
def insnSlots (i : Insn) : Nat := if i.isLdImm64 then 2 else 1

/-- The instructions a scan from `i` visits, stepping over the second slot of
each wide immediate. -/
def scanFrom (insns : List Insn) : Nat → Nat → List Nat
  | 0, _ => []
  | fuel + 1, i =>
    if i < insns.length then i :: scanFrom insns fuel (i + insnSlots (insnAt insns i)) else []

/-- Which registers the program mentions at all. `r1` carries the context pointer
whether mentioned or not. -/
def scanUsedRegs (insns : List Insn) (r : Nat) : Bool :=
  r < numBpfRegs &&
    (r == 1 ||
      (scanFrom insns insns.length 0).any fun i => (mentionedRegs (insnAt insns i)).contains r)

/-! ## Blocks -/

/-- What the loop of `find_leaders` does at one instruction. -/
def leaderStep (insns : List Insn) (i : Nat) (lead : Nat → Bool) : TransM (Nat → Bool) :=
  let n := insns.length
  let in_ := insnAt insns i
  if in_.isLdImm64 || !in_.isJmp || in_.isNopJump then pure lead
  else do
    let lead := fun k => lead k || (i + 1 < n && k == i + 1)
    if in_.jmpOp = .exit ∨ in_.jmpOp = .call then pure lead
    else
      let target : Int := i + 1 + in_.off.toInt
      if target < 0 ∨ target > n then do
        unsupported i s!"jump target {target} is out of range"
        pure lead
      else do
        if target ≤ i then
          unsupported i s!"backward jump to {target} (loops are not modelled)"
        else pure ()
        pure fun k => lead k || k == target.toNat

def leaderLoop (insns : List Insn) : List Nat → (Nat → Bool) → TransM (Nat → Bool)
  | [], lead => pure lead
  | i :: is, lead => do leaderLoop insns is (← leaderStep insns i lead)

/-- The block starts, in order. -/
def blockStarts (n : Nat) (lead : Nat → Bool) : List Nat := (List.range n).filter lead

/-- The index of the block an instruction lies in. -/
def blockOf (lead : Nat → Bool) (k : Nat) : Nat := (blockStarts (k + 1) lead).length - 1

/-- Split into basic blocks: which instructions start one. -/
def findLeaders (insns : List Insn) : TransM (Nat → Bool) :=
  leaderLoop insns (scanFrom insns insns.length 0) (fun k => k == 0)

/-! ## Conditions -/

def JmpOp.isSigned : JmpOp → Bool
  | .jsgt | .jsge | .jslt | .jsle => true
  | _ => false

/-- The comparison, and whether it selects the fallthrough. -/
def JmpOp.table : JmpOp → Option (Cmp × Bool)
  | .jeq => some (.eq, false)
  | .jne => some (.eq, true)
  | .jgt | .jsgt => some (.gt, false)
  | .jlt | .jslt => some (.lt, false)
  | .jge | .jsge => some (.lt, true)
  | .jle | .jsle => some (.gt, true)
  | _ => none

/-- `JSET` has no comparison form: compute the masked value and test it against
zero. -/
def emitJset (idx : Nat) (i : Insn) (is32 : Bool) (lhs : Nat) :
    TransM (Option MatchEntry × Bool) := do
  let t ← freshTmp idx
  if is32 then do
    let t2 ← freshTmp idx
    cast .w64 .w32 (hdr lhs) t2
    if i.isImm then binop .and .w32 (hdr t2) (konst i.imm32) t
    else do
      let t3 ← freshTmp idx
      cast .w64 .w32 (hdr (hReg i.src)) t3
      binop .and .w32 (hdr t2) (hdr t3) t
    pure (some (cmpEntry t .eq (matchConst 0 .w32)), true)
  else do
    if i.isImm then binop .and .w64 (hdr lhs) (konst i.imm64) t
    else binop .and .w64 (hdr lhs) (hdr (hReg i.src)) t
    pure (some (cmpEntry t .eq (matchConst 0 .w64)), true)

/-- A register side of a comparison, narrowed and biased into a scratch header. -/
def emitSide (idx : Nat) (is32 signed : Bool) (reg : Nat) : TransM Nat := do
  let t ← freshTmp idx
  if is32 then cast .w64 .w32 (hdr reg) t else move t reg
  if signed then
    binop .xor (if is32 then .w32 else .w64) (hdr t)
      (konst (if is32 then 0x80000000 else 0x8000000000000000)) t
  else pure ()
  pure t

/-- Both sides of a comparison. Signed comparisons are biased into unsigned ones
by flipping the sign bit of both operands. -/
def emitSides (idx : Nat) (i : Insn) (is32 signed : Bool) (lhs : Nat) : TransM (Nat × MatchVal) :=
  let w : Width := if is32 then .w32 else .w64
  if is32 || signed then do
    let tl ← emitSide idx is32 signed lhs
    if i.isImm then
      let k := if is32 then i.imm32 else i.imm64
      let bias := if is32 then 0x80000000 else 0x8000000000000000
      pure (tl, matchConst (if signed then k ^^^ bias else k : Nat) w)
    else do
      let tr ← emitSide idx is32 signed (hReg i.src)
      pure (tl, matchHeader tr)
  else
    pure (lhs, if i.isImm then matchConst i.imm64 .w64 else matchHeader (hReg i.src))

/-- The condition of a conditional jump as one match entry, and whether the entry
selects the fallthrough rather than the jump target. -/
def emitCondition (idx : Nat) (i : Insn) : TransM (Option MatchEntry × Bool) := do
  setTmpNext 0
  let is32 := i.cls == .jmp32
  let lhs := hReg i.dst
  if i.jmpOp = .jset then emitJset idx i is32 lhs
  else do
    let (lhs, rhs) ← emitSides idx i is32 i.jmpOp.isSigned lhs
    match i.jmpOp.table with
    | none => do
      let op := (i.code &&& 0xf0#8).toNat
      unsupported idx s!"jump op 0x{hex op}"
      pure (none, false)
    | some (cmp, swap) => pure (some (cmpEntry lhs cmp rhs), swap)

/-! ## Module emission -/

def pcEntry (pc : Nat) : MatchEntry := cmpEntry hPc .eq (matchConst pc .w64)

/-- The rules of a transformer, closed with the default rule. -/
def closeRules (rules : List Rule) : List Rule := rules ++ [defaultRule]

/-! ## Top level -/

/-- The straight-line body of a block. -/
def translateBody (insns : List Insn) (bodyEnd : Nat) : Nat → Nat → AbsState → TransM AbsState
  | 0, _, st => pure st
  | fuel + 1, i, st =>
    if i < bodyEnd then do
      let (k, st) ← translateOne i insns st
      translateBody insns bodyEnd fuel (i + k) st
    else pure st

def jmpIsConditional (i : Insn) : Bool :=
  i.isJmp && i.jmpOp != .ja && i.jmpOp != .exit && i.jmpOp != .call

/-- Where control goes after a block, and what decides it. -/
structure Flow where
  cond : Option MatchEntry
  condSwap : Bool
  mapArms : Option (List Arm)
  fallPc : Nat
  takePc : Nat
  fallBlk : Option Nat
  takeBlk : Option Nat

/-- A call: the helper's arms, or a diagnostic. Both arms rejoin at the next
block. -/
def translateCall (idx : Nat) (term : Insn) (st : AbsState) :
    TransM (Option (List Arm) × AbsState) :=
  if term.src ≠ 0 then do
    unsupported idx "subprogram call"
    pure (none, st)
  else if term.imm.toInt = bpfFuncMapLookupElem then emitMapLookup idx st
  else if term.imm.toInt = bpfFuncMapUpdateElem then emitMapUpdate idx st
  else do
    unsupported idx (s!"helper call {term.imm.toInt} (only bpf_map_lookup_elem and " ++
      "bpf_map_update_elem are modelled)")
    pure (none, st)

/-- The terminator of the block that ends before `end_`. -/
def translateTerm (insns : List Insn) (lead : Nat → Bool) (end_ : Nat) (st : AbsState) :
    TransM (Flow × AbsState) := do
  let n := insns.length
  let term := insnAt insns (end_ - 1)
  let fallBlk := if end_ < n then some (blockOf lead end_) else none
  let fallPc := if end_ < n then blockPc end_ else pcHalt
  if !(term.isJmp && !term.isNopJump) then
    pure (⟨none, false, none, fallPc, pcHalt, fallBlk, none⟩, st)
  else do
    let (cond, swap) ← if jmpIsConditional term then emitCondition (end_ - 1) term
      else pure (none, false)
    let t : Int := end_ + term.off.toInt
    let takeBlk := if 0 ≤ t ∧ t < n then some (blockOf lead t.toNat) else none
    let takePc := if 0 ≤ t ∧ t < n then blockPc t.toNat else pcHalt
    match term.jmpOp with
    | .exit => pure (⟨none, false, none, pcHalt, pcHalt, none, none⟩, st)
    | .call => do
      let (arms, st) ← translateCall (end_ - 1) term st
      pure (⟨none, false, arms, fallPc, fallPc, fallBlk, none⟩, st)
    | .ja => pure (⟨none, false, none, pcHalt, takePc, none, takeBlk⟩, st)
    | _ => pure (⟨cond, swap, none, fallPc, takePc, fallBlk, takeBlk⟩, st)

/-- The abstract state each successor sees. -/
def joinInto (blockIn : Nat → AbsState) (st : AbsState) (succ : Option Nat) : Nat → AbsState :=
  match succ with
  | none => blockIn
  | some s => fun b => if b = s then (blockIn s).joinFrom st else blockIn b

def propagate (blockIn : Nat → AbsState) (st : AbsState) (flow : Flow) : Nat → AbsState :=
  let st := { st with live := true }
  joinInto (joinInto blockIn st flow.fallBlk) st flow.takeBlk

/-- The arms of the second transformer: match entries, operations, next pc. -/
def Flow.arms (flow : Flow) : Option (List (List MatchEntry × List Op × Nat)) :=
  match flow.mapArms, flow.cond with
  | some arms, _ => some (arms.map fun a => (a.1, a.2, flow.fallPc))
  | none, some c =>
    some [([c], [], if flow.condSwap then flow.fallPc else flow.takePc),
      ([], [], if flow.condSwap then flow.takePc else flow.fallPc)]
  | none, none => none

/-- The transformers of the block that starts at `start` and runs `ops`, as rule
lists. -/
def blockModules (start : Nat) (flow : Flow) (ops : List Op) : List (List Rule) :=
  match flow.arms with
  | some arms =>
    -- Ops first, then a second transformer that reads what they computed.
    [closeRules [⟨[pcEntry (blockPc start)], ops ++ [setPcOp (decidePc start) hPc]⟩],
      closeRules (arms.map fun a =>
        ⟨pcEntry (decidePc start) :: a.1, a.2.1 ++ [setPcOp a.2.2 hPc]⟩)]
  | none =>
    let nextPc := if flow.takeBlk.isSome then flow.takePc else flow.fallPc
    [closeRules [⟨[pcEntry (blockPc start)], ops ++ [setPcOp nextPc hPc]⟩]]

/-- Where the block that starts at the `b`-th leader ends. -/
def blockEnd (insns : List Insn) (starts : List Nat) (b : Nat) : Nat :=
  starts.getD (b + 1) insns.length

def translateBlock (insns : List Insn) (lead : Nat → Bool) (b : Nat)
    (blockIn : Nat → AbsState) : TransM (List (List Rule) × (Nat → AbsState)) := do
  let starts := blockStarts insns.length lead
  let start := starts.getD b 0
  let end_ := blockEnd insns starts b
  let term := insnAt insns (end_ - 1)
  let bodyEnd := if term.isJmp && !term.isNopJump then end_ - 1 else end_
  -- Unreachable in the abstract sense only; still translated, with everything
  -- unknown, so the emitted program stays total.
  let st := if (blockIn b).live then blockIn b else .init
  let ((flow, st), ops) ← capture do
    let st ← translateBody insns bodyEnd (bodyEnd - start) start st
    translateTerm insns lead end_ st
  pure (blockModules start flow ops, propagate blockIn st flow)

def translateBlocks (insns : List Insn) (lead : Nat → Bool) :
    List Nat → (Nat → AbsState) → TransM (List (List Rule))
  | [], _ => pure []
  | b :: bs, blockIn => do
    let (mods, blockIn) ← translateBlock insns lead b blockIn
    let rest ← translateBlocks insns lead bs blockIn
    pure (mods ++ rest)

/-- Entry state: `r1` is the context pointer, `r10` the frame pointer. -/
def entryState : AbsState :=
  { (AbsState.init.setReg 1 (pointer .ctx 0)).setReg 10 (pointer .stack 0) with live := true }

def entryStates : Nat → AbsState := fun b => if b = 0 then entryState else .init

/-- The preamble seeds pc and gives every register the program mentions a defined
u64 value. -/
def preamble (used : Nat → Bool) : List Rule :=
  [⟨[], ((List.range numBpfRegs).filter used).map (fun r => setOp (hReg r) 0) ++
    [setPcOp (blockPc 0) hPc]⟩]

/-- The rules of the emitted transformers, in chain order. -/
def translateProgram (insns : List Insn) : TransM (List (List Rule)) := do
  let lead ← findLeaders insns
  let nblocks := (blockStarts insns.length lead).length
  let mods ← translateBlocks insns lead (List.range nblocks) entryStates
  pure (preamble (scanUsedRegs insns) :: mods)

/-! ## Emission -/

/-- The emitted program: declared regions with their lengths, the transformers
between the parser and the deparser, the edges of the chain, and the header whose
low 32 bits the deparser emits. -/
structure Program where
  regions : List (Nat × Nat)
  modules : List Transformer
  edges : List (Nat × Nat)
  emitHdr : Nat
  deriving DecidableEq, Repr

def modParser : Nat := 1
def modDeparser : Nat := 2

/-- Module ids are given in the order of emission. -/
def numberModules (mods : List (List Rule)) : List Transformer :=
  mods.zipIdx.map fun p => ⟨modFirstXfrm + p.2, p.1⟩

def declaredRegions (c : Config) : List (Nat × Nat) :=
  [(regionCtx, c.ctx.length), (regionPkt, pktLen)] ++
    c.maps.zipIdx.map fun p => (regionMap p.2, p.1.length)

def emitProgram (c : Config) (mods : List (List Rule)) : Program :=
  let nextMod := modFirstXfrm + mods.length
  { regions := declaredRegions c
    modules := numberModules mods
    edges := (modParser, modFirstXfrm) ::
      ((List.range' modFirstXfrm (nextMod - 1 - modFirstXfrm)).map fun m => (m, m + 1)) ++
        [(nextMod - 1, modDeparser)]
    emitHdr := hReg 0 }

end Ect
