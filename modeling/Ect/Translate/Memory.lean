-- SUMMARY: Loads and stores: region naming, the ctx bounds check, and stack slot headers.
import Ect.Bpf.Insn
import Ect.Translate.Monad

/-!
# Memory lowering

A load or store names its region statically, from the tag of its base register,
and takes the offset as a run-time operand. The stack is not a region: each slot
is a header of its own.
-/

namespace Ect

open TransM

/-- The region a pointer's tag names. -/
def regionOf (maps : List MapInfo) (r : RegInfo) : Nat :=
  match r.tag with
  | .ctx => regionCtx
  | .pkt => regionPkt
  | .mapval => if 0 ≤ r.mapidx ∧ r.mapidx < maps.length then regionMap
    r.mapidx.toNat else regionNone
  | _ => regionNone

def CtxLayout.fieldIsPktPtr (ctx : CtxLayout) (off : Int) : Bool :=
  off == ctx.dataOff || off == ctx.dataEndOff

/-- A ctx access at a statically known offset must land inside the region. -/
def ctxAccessOk (idx : Nat) (base : RegInfo) (insnOff : Int) (nbytes : Nat) (what : String) :
    TransM Unit := do
  let c ← config
  if base.tag ≠ .ctx ∨ base.offKnown = false then pure ()
  else
    let lo := base.off + insnOff
    if 0 ≤ lo ∧ lo + nbytes ≤ c.ctx.length then pure ()
    else unsupported idx (s!"{what} at ctx offset {lo}..{lo + nbytes}, outside the " ++
      s!"{c.ctx.length} bytes of struct {c.ctx.name} that are modelled")

/-- Materialise `base + off` into a scratch header. -/
def emitAddress (idx baseHdr : Nat) (off : Int) : TransM Nat := do
  let t ← freshTmp idx
  binop .add .w64 (hdr baseHdr) (konst off) t
  pure t

def translateLdxStack (idx : Nat) (i : Insn) (base : RegInfo) (st : AbsState) : TransM AbsState :=
  if base.offKnown = false then do
    unsupported idx "stack load at a non-constant offset"
    writeReg st i.dst .scalar
  else do
    let slot := -(base.off + i.off.toInt)
    let sh ← stackHeader slot
    if sh = 0 then do
      unsupported idx s!"stack load outside the {bpfStackSize}-byte frame (slot {slot})"
      writeReg st i.dst .scalar
    else do
      -- The cast both zero-extends and checks the width the slot was stored at.
      cast i.width .w64 (hdr sh) (hReg i.dst)
      writeReg st i.dst (st.slot slot.toNat)

/-- `st.reg[dst]` after a load from a region. -/
def ldxInfo (ctx : CtxLayout) (i : Insn) (base : RegInfo) : RegInfo :=
  if base.tag = .ctx ∧ base.offKnown ∧ ctx.fieldIsPktPtr (base.off + i.off.toInt) then
    -- A pointer read out of memory has no statically known offset of its own.
    ⟨.pkt, 0, false, -1, none⟩
  else .scalar

def translateLdxRegion (idx : Nat) (i : Insn) (base : RegInfo) (st : AbsState) :
    TransM AbsState := do
  let c ← config
  let region := regionOf c.maps base
  if region = regionNone then
    unsupported idx s!"load through r{i.src.val}, whose region is unknown"
  else pure ()
  ctxAccessOk idx base i.off.toInt i.width.bytes "load"
  let tAddr ← emitAddress idx (hReg i.src) i.off.toInt
  let tVal ← freshTmp idx
  load i.width region (hdr tAddr) tVal
  cast i.width .w64 (hdr tVal) (hReg i.dst)
  writeReg st i.dst (ldxInfo c.ctx i base)

def translateLdx (idx : Nat) (i : Insn) (st : AbsState) : TransM AbsState := do
  let base ← readReg st i.src
  if base.tag = .stack then translateLdxStack idx i base st
  else translateLdxRegion idx i base st

def translateStoreStack (idx : Nat) (i : Insn) (base : RegInfo) (st : AbsState) (fromReg : Bool) :
    TransM AbsState :=
  if base.offKnown = false then do
    unsupported idx "stack store at a non-constant offset"
    pure st
  else do
    let slot := -(base.off + i.off.toInt)
    let sh ← stackHeader slot
    if sh = 0 then do
      unsupported idx s!"stack store outside the {bpfStackSize}-byte frame (slot {slot})"
      pure st
    else if fromReg then do
      cast .w64 i.width (hdr (hReg i.src)) sh
      let s ← readReg st i.src
      pure (st.setSlot slot.toNat s)
    else do
      binop .add i.width (konst i.imm64) (konst 0) sh
      -- A stored immediate makes the slot a known constant, which is how a map
      -- key written as `key.field = 23` stays constant.
      pure (st.setSlot slot.toNat (scalarConst i.imm64))

def translateStoreRegion (idx : Nat) (i : Insn) (base : RegInfo) (st : AbsState) (fromReg : Bool) :
    TransM AbsState := do
  let c ← config
  let region := regionOf c.maps base
  if region = regionNone then
    unsupported idx s!"store through r{i.dst.val}, whose region is unknown"
  else pure ()
  ctxAccessOk idx base i.off.toInt i.width.bytes "store"
  let tAddr ← emitAddress idx (hReg i.dst) i.off.toInt
  if fromReg then do
    let tVal ← freshTmp idx
    cast .w64 i.width (hdr (hReg i.src)) tVal
    store i.width region (hdr tAddr) (hdr tVal)
  else
    -- A constant operand adopts the op's type, so no cast is needed.
    store i.width region (hdr tAddr) (konst i.imm64)
  pure st

/-- `[dst + off] := <val header or immediate>`, at the instruction's width. -/
def translateStore (idx : Nat) (i : Insn) (st : AbsState) (fromReg : Bool) : TransM AbsState := do
  let base ← readReg st i.dst
  if base.tag = .stack then translateStoreStack idx i base st fromReg
  else translateStoreRegion idx i base st fromReg

end Ect
