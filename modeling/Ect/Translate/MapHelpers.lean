-- SUMMARY: The two map helpers: reading keys, the slot scan, and the arms of a lookup and an update.
import Ect.Translate.Memory

/-!
# Map helpers

Everything a decision reads is emitted into the current block, because a match
pattern is evaluated on entry to its transformer. The decision itself comes back
as a list of arms in first-match order with an unconditional one last.
-/

namespace Ect

open TransM

/-- Match entries, and the operations run when they hold. -/
abbrev Arm : Type := List MatchEntry × List Op

/-- A modelled map: `self.maps[m]` and its index. -/
structure MapRef where
  m : Nat
  mi : MapInfo

def MapRef.region (mr : MapRef) : Nat := regionMap mr.m

/-! ## Checks shared by both helpers -/

/-- Refuse a map whose family decides what a key means and which this does not
model. -/
def checkMapModelled (idx : Nat) (mi : MapInfo) : TransM Bool :=
  match mi.family with
  | none => do
    unsupported idx (s!"map {mi.name} has type {mi.type}, which is neither an array nor a hash; " ++
      "what a key means there is not modelled")
    pure false
  | some .lru => do
    unsupported idx (s!"map {mi.name} is an LRU map (type {mi.type}): a full LRU map EVICTS the " ++
      "least-recently-used entry instead of failing the insert, which mutates an entry the " ++
      "program never named and is not modelled")
    pure false
  | some _ => pure true

/-- The key's value, when it is statically known: a constant written to a stack
slot and passed by address. -/
def constKey (kp : RegInfo) (st : AbsState) : Option Nat :=
  if kp.tag ≠ .stack ∨ kp.offKnown = false then none
  else
    let slot := -kp.off
    if 0 ≤ slot ∧ slot ≤ bpfStackSize then (st.slot slot.toNat).const else none

/-- Refuse an array access the slot mapping would alias: a constant key must be
below `nslots`, and a computed one is allowed only when every key fits. -/
def checkArrayKey (idx : Nat) (mi : MapInfo) (key : Option Nat) : TransM Bool :=
  match key with
  | none =>
    if mi.maxEntries > mi.nslots then do
      unsupported idx (s!"array map {mi.name} is accessed with a computed key, but only " ++
        s!"{mi.nslots} of its {mi.maxEntries} entries are modelled, so distinct keys would be " ++
        s!"folded onto one slot.  Raise --map-slots to {mi.maxEntries}")
      pure false
    else pure true
  | some key =>
    if key ≥ mi.nslots then do
      unsupported idx (s!"array map {mi.name} is accessed with the constant key {key}, but only " ++
        s!"{mi.nslots} slots are modelled, so it would be folded onto slot " ++
        s!"{key % mi.nslots} and share an entry with other keys.  Raise --map-slots above {key}")
      pure false
    else pure true

def countMapSite (m : Nat) : TransM Unit :=
  modify fun t => { t with
    mapSites := fun m' => if m' = m then t.mapSites m + 1 else t.mapSites m' }

/-! ## Reading the key and the slots -/

/-- The key a lookup or an update is given, widened to W64 in a scratch header. -/
def readMapKey (idx : Nat) (kp : RegInfo) (kw : Width) : TransM (Option Nat) := do
  let tKey ← freshTmp idx
  if kp.tag = .stack then
    if kp.offKnown = false then do
      unsupported idx "map key at a non-constant stack offset"
      pure none
    else do
      let slot := -kp.off
      let sh ← stackHeader slot
      if sh = 0 then do
        unsupported idx s!"map key outside the {bpfStackSize}-byte frame (slot {slot})"
        pure none
      else do
        cast kw .w64 (hdr sh) tKey
        pure (some tKey)
  else do
    let c ← config
    let region := regionOf c.maps kp
    if region = regionNone then do
      unsupported idx "map key through r2, whose region is unknown"
      pure none
    else do
      let tRaw ← freshTmp idx
      load kw region (hdr (hReg 2)) tRaw
      cast kw .w64 (hdr tRaw) tKey
      pure (some tKey)

/-- The slot a key selects, in a scratch header, and the key when it is a known
constant. -/
def emitSlot (idx : Nat) (mi : MapInfo) (kp : RegInfo) (st : AbsState) (kw : Width) :
    TransM (Option (Nat × Option Nat)) := do
  let tSlot ← freshTmp idx
  match constKey kp st with
  | some key =>
    set_ tSlot (key % mi.nslots : Nat)
    pure (some (tSlot, some key))
  | none =>
    match ← readMapKey idx kp kw with
    | none => pure none
    | some tKey =>
      binop .mod .w64 (hdr tKey) (konstN mi.nslots) tSlot
      pure (some (tSlot, none))

/-- Load the cells at `offs`, each widened to W64 in a header of its own. The raw
load target is reused; the widened values are all live until the scan picks one. -/
def emitWidened (idx : Nat) (w : Width) (region tRaw : Nat) : List Nat → TransM (List Nat)
  | [] => pure []
  | off :: offs => do
    let t ← freshTmp idx
    load w region (konstN off) tRaw
    cast w .w64 (hdr tRaw) t
    let ts ← emitWidened idx w region tRaw offs
    pure (t :: ts)

/-- Every slot's presence byte and tag, in headers of their own. -/
def emitSlotHeaders (idx : Nat) (mr : MapRef) (kw : Width) : TransM (List Nat × List Nat) := do
  let tRaw ← freshTmp idx
  let pres ← emitWidened idx .w8 mr.region tRaw (List.range mr.mi.nslots)
  let tags ← emitWidened idx kw mr.region tRaw ((List.range mr.mi.nslots).map mr.mi.tagOff)
  pure (pres, tags)

/-! ## Lookup -/

/-- An array map is pre-allocated: the key alone decides the lookup. -/
def emitArrayLookup (idx : Nat) (mi : MapInfo) (kp : RegInfo) (st : AbsState) (kw : Width) :
    TransM (Option (List Arm)) := do
  if (← checkArrayKey idx mi (constKey kp st)) = false then pure none
  else
    match ← emitSlot idx mi kp st kw with
    | none => pure none
    | some (tSlot, const) =>
      let tVp ← freshTmp idx
      binop .mul .w64 (hdr tSlot) (konstN mi.valueSize) tVp
      binop .add .w64 (hdr tVp) (konstN mi.valueBase) tVp
      let hit := fun cond =>
        some [([cond], [assignOp (hReg 0) tVp]), ([], [zeroOp (hReg 0)])]
      match const with
      | some key => pure (hit (cmpEntry tSlot .eq (matchConst (key % mi.nslots : Nat) .w64)))
      | none =>
        let tKey ← freshTmp idx
        cast .w64 .w64 (hdr tSlot) tKey
        pure (hit (cmpEntry tKey .lt (matchConst mi.maxEntries .w64)))

/-- "Slot `i` is filled, and its tag is the key we were given." -/
def hitEntries (pres tags : List Nat) (tKey i : Nat) : List MatchEntry :=
  [cmpEntry (pres.getD i 0) .eq (matchConst 1 .w64),
   cmpEntry (tags.getD i 0) .eq (matchHeader tKey)]

/-- One arm per slot: filled, and holding the key we were given. -/
def emitTaggedLookup (idx : Nat) (mr : MapRef) (kp : RegInfo) (kw : Width) :
    TransM (Option (List Arm)) := do
  match ← readMapKey idx kp kw with
  | none => pure none
  | some tKey =>
    let (pres, tags) ← emitSlotHeaders idx mr kw
    let hits := (List.range mr.mi.nslots).map fun i =>
      (hitEntries pres tags tKey i, [constOp (hReg 0) (mr.mi.valueOff i)])
    pure (some (hits ++ [([], [zeroOp (hReg 0)])]))

/-- The map `r1` points at, where it is a known map pointer. -/
def mapOf (maps : List MapInfo) (mp : RegInfo) : Option MapRef :=
  if mp.tag ≠ .map ∨ mp.mapidx < 0 then none
  else (maps[mp.mapidx.toNat]?).map (⟨mp.mapidx.toNat, ·⟩)

def keySizeModelled (mi : MapInfo) : Bool :=
  mi.keySize == 1 || mi.keySize == 2 || mi.keySize == 4 || mi.keySize == 8

/-- `r0 = bpf_map_lookup_elem(r1, r2)`: the arms, and the state after the call. -/
def emitMapLookup (idx : Nat) (st : AbsState) : TransM (Option (List Arm) × AbsState) := do
  let c ← config
  let kp := st.reg 2
  match mapOf c.maps (st.reg 1) with
  | none => do
    unsupported idx "bpf_map_lookup_elem: r1 is not a known map pointer"
    pure (none, st)
  | some mr =>
    let mi := mr.mi
    if (← checkMapModelled idx mi) = false then pure (none, st)
    else if keySizeModelled mi = false then do
      unsupported idx (s!"map {mi.name} has a {mi.keySize}-byte key (only 1, 2, 4 and 8 are " ++
        "modelled)")
      pure (none, st)
    else do
      let kw := widthName mi.keySize
      setTmpNext 0
      countMapSite mr.m
      let arms ← if mi.isArray then emitArrayLookup idx mi kp st kw
        else emitTaggedLookup idx mr kp kw
      match arms with
      | none => pure (none, st)
      | some arms =>
        -- r0 is the value pointer on a hit arm and 0 on the miss arm; the tag is
        -- what a later dereference reads.
        pure (some arms, (st.setReg 0 (mapPointer .mapval 0 mr.m)).clobber)

/-! ## Update -/

/-- One byte of a byte-wise copy. -/
def emitCopyByte (srcRegion dstRegion : Nat) (dst : Operand) (tSa tDa tB i : Nat) :
    TransM Unit := do
  binop .add .w64 (hdr (hReg 3)) (konstN i) tSa
  binop .add .w64 dst (konstN i) tDa
  load .w8 srcRegion (hdr tSa) tB
  store .w8 dstRegion (hdr tDa) (hdr tB)

def emitCopyBytes (srcRegion dstRegion : Nat) (dst : Operand) (tSa tDa tB : Nat) :
    List Nat → TransM Unit
  | [] => pure ()
  | i :: is => do
    emitCopyByte srcRegion dstRegion dst tSa tDa tB i
    emitCopyBytes srcRegion dstRegion dst tSa tDa tB is

def copySizeModelled (vs : Nat) : Bool := vs == 1 || vs == 2 || vs == 4 || vs == 8

/-- Copy the value `r3` points at into the map region at `dst`. A stack slot is
written out in one store, a region source of an access width is one load and one
store, and anything wider is copied a byte at a time. -/
def copyMapValue (idx : Nat) (vp : RegInfo) (mr : MapRef) (dst : Operand) : TransM Bool := do
  let c ← config
  let vs := mr.mi.valueSize
  if vp.tag = .stack then
    if copySizeModelled vs = false then do
      unsupported idx (s!"bpf_map_update_elem: a {vs}-byte value from the stack (a stack slot " ++
        "holds one value, so only 1, 2, 4 and 8 fit)")
      pure false
    else if vp.offKnown = false then do
      unsupported idx "map value at a non-constant stack offset"
      pure false
    else do
      let sh ← stackHeader (-vp.off)
      if sh = 0 then do
        unsupported idx s!"map value outside the {bpfStackSize}-byte frame"
        pure false
      else do
        store (widthName vs) mr.region dst (hdr sh)
        pure true
  else if regionOf c.maps vp = regionNone then do
    unsupported idx "map value through r3, whose region is unknown"
    pure false
  else if copySizeModelled vs then do
    let tVal ← freshTmp idx
    load (widthName vs) (regionOf c.maps vp) (hdr (hReg 3)) tVal
    store (widthName vs) mr.region dst (hdr tVal)
    pure true
  else if vs > mapMaxValueCopy then do
    unsupported idx (s!"bpf_map_update_elem: a {vs}-byte value (the byte-wise copy is capped " ++
      s!"at {mapMaxValueCopy})")
    pure false
  else do
    let tSa ← freshTmp idx
    let tDa ← freshTmp idx
    let tB ← freshTmp idx
    emitCopyBytes (regionOf c.maps vp) mr.region dst tSa tDa tB (List.range vs)
    pure true

/-- What the arm for slot `i` does, on an op list of its own. An insert claims
the slot first; an overwrite finds it already claimed. -/
def armOps (idx : Nat) (mr : MapRef) (vp : RegInfo) (kw : Width) (tTag mark : Nat) (insert : Bool)
    (i : Nat) : TransM (Option (List Op)) := do
  setTmpNext mark
  let (ok, ops) ← capture do
    if insert then do
      store kw mr.region (konstN (mr.mi.tagOff i)) (hdr tTag)
      store .w8 mr.region (konstN i) (konst 1)
    else pure ()
    if (← copyMapValue idx vp mr (konstN (mr.mi.valueOff i))) then do
      set_ (hReg 0) 0
      pure true
    else pure false
  pure (if ok then some ops else none)

/-- The arms of the slots in turn, each with its match entries. -/
def slotArms (arm : Nat → TransM (Option (List Op))) (entries : Nat → List MatchEntry) :
    List Nat → TransM (Option (List Arm))
  | [] => pure (some [])
  | i :: is => do
    match ← arm i with
    | none => pure none
    | some ops =>
      match ← slotArms arm entries is with
      | none => pure none
      | some arms => pure (some ((entries i, ops) :: arms))

/-- The scan of an update and its arms, in first-match order: overwrite the slot
that holds the key; `-E2BIG` when the map is full; insert into the lowest empty
slot; `-E2BIG` when the model runs out of slots. -/
def emitTaggedUpdate (idx : Nat) (mr : MapRef) (kp vp : RegInfo) (kw : Width) :
    TransM (Option (List Arm)) := do
  match ← readMapKey idx kp kw with
  | none => pure none
  | some tKey =>
    let (pres, tags) ← emitSlotHeaders idx mr kw
    -- A store takes its value from a header of its own width, so an insert needs
    -- the key narrowed back to the tag's width.
    let tTag ← freshTmp idx
    cast .w64 kw (hdr tKey) tTag
    let tFullRaw ← freshTmp idx
    let tFull ← freshTmp idx
    load .w8 mr.region (konstN mr.mi.fullOff) tFullRaw
    cast .w8 .w64 (hdr tFullRaw) tFull
    let mark := (← get).tmpNext
    -- Only one arm ever runs, so they share scratch headers.
    match ← slotArms (armOps idx mr vp kw tTag mark false) (hitEntries pres tags tKey)
        (List.range mr.mi.nslots) with
    | none => pure none
    | some overwrites =>
      let full : Arm :=
        ([cmpEntry tFull .eq (matchConst 1 .w64)], [constOp (hReg 0) (-e2big)])
      match ← slotArms (armOps idx mr vp kw tTag mark true)
          (fun i => [cmpEntry (pres.getD i 0) .eq (matchConst 0 .w64)])
          (List.range mr.mi.nslots) with
      | none => pure none
      | some inserts =>
        pure (some (overwrites ++ full :: (inserts ++ [([], [constOp (hReg 0) (-e2big)])])))

/-- The write to an array map, whose entries all exist from creation. -/
def emitArrayUpdate (idx : Nat) (mr : MapRef) (kp vp : RegInfo) (st : AbsState) (kw : Width) :
    TransM AbsState := do
  match ← emitSlot idx mr.mi kp st kw with
  | none => pure st.clobber
  | some (tSlot, _) =>
    let tDst ← freshTmp idx
    binop .mul .w64 (hdr tSlot) (konstN mr.mi.valueSize) tDst
    binop .add .w64 (hdr tDst) (konstN mr.mi.valueBase) tDst
    if (← copyMapValue idx vp mr (hdr tDst)) then do
      set_ (hReg 0) 0
      pure (st.clobber.setReg 0 (scalarConst 0))
    else pure st.clobber

/-- The write of an update that is neither refused nor known to be out of range. -/
def emitMapWrite (idx : Nat) (mr : MapRef) (kp vp : RegInfo) (st : AbsState) :
    TransM (Option (List Arm) × AbsState) := do
  let kw := widthName mr.mi.keySize
  setTmpNext 0
  countMapSite mr.m
  if mr.mi.isArray then do
    let st ← emitArrayUpdate idx mr kp vp st kw
    pure (none, st)
  else
    match ← emitTaggedUpdate idx mr kp vp kw with
    | none => pure (none, st.clobber)
    -- r0 is 0 or -E2BIG depending on region cells.
    | some arms => pure (some arms, st.clobber.setReg 0 .scalar)

/-- `r0 = bpf_map_update_elem(r1, r2, r3, r4)`. Returns the arms when the write
needs a branch, and none when it is straight-line or could not be translated. -/
def emitMapUpdate (idx : Nat) (st : AbsState) : TransM (Option (List Arm) × AbsState) := do
  let c ← config
  let kp := st.reg 2
  let vp := st.reg 3
  let fl := st.reg 4
  match mapOf c.maps (st.reg 1) with
  | none => do
    unsupported idx "bpf_map_update_elem: r1 is not a known map pointer"
    pure (none, st)
  | some mr =>
    let mi := mr.mi
    if (← checkMapModelled idx mi) = false then pure (none, st)
    else if keySizeModelled mi = false then do
      unsupported idx (s!"map {mi.name} has a {mi.keySize}-byte key (only 1, 2, 4 and 8 are " ++
        "modelled)")
      pure (none, st)
    else do
      let key := constKey kp st
      if (← if mi.isArray then checkArrayKey idx mi key else pure true) = false then pure (none, st)
      else if mi.isArray ∧ key = none then do
        unsupported idx (s!"bpf_map_update_elem on the array map {mi.name} with a key that is " ++
          "not a known constant (whether it is in range decides whether anything is written)")
        pure (none, st)
      else if mi.isArray ∧ mi.maxEntries ≤ key.getD 0 then do
        -- Out of range: the kernel writes nothing and returns -E2BIG.
        set_ (hReg 0) (-e2big)
        pure (none, (st.setReg 0 .scalar).clobber)
      else if fl.tag ≠ .scalar ∨ fl.const = none then do
        unsupported idx "bpf_map_update_elem with flags that are not a known constant"
        pure (none, st)
      else if fl.const ≠ some 0 then do
        unsupported idx (s!"bpf_map_update_elem with flags={fl.const.getD 0}; only BPF_ANY (0) " ++
          "is modelled, because BPF_NOEXIST and BPF_EXIST make the write conditional on what is " ++
          "already in the slot")
        pure (none, st)
      else emitMapWrite idx mr kp vp st

end Ect
