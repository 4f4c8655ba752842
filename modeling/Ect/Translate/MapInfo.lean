-- SUMMARY: Identifier allocation, the map families, and the region layout of a map.
import Mathlib.Tactic.Ring

/-!
# Headers, regions and map layouts

Header and region ids, and `MapInfo`: a BPF map becomes one declared IR region.
An array map indexes the region by the key. A hash map stores the key of each
slot in the region as a tag and finds it by scanning:

* `[0, nslots)` holds the presence bytes, 1 when the slot is filled;
* `[tagBase, + nslots * keySize)` holds the key each slot holds;
* `[valueBase, + nslots * valueSize)` holds the values;
* `fullOff` holds 1 when the real map is at capacity.
-/

namespace Ect

/-! ## Identifier allocation -/

/-- The program counter. -/
def hPc : Nat := 1
/-- `r0` to `r10` are the headers 10 to 20. -/
def hReg (n : Nat) : Nat := 10 + n
/-- Scratch headers, reused per instruction. -/
def hTmp (k : Nat) : Nat := 30 + k
/-- The first stack header; one header per touched slot. -/
def hStackBase : Nat := 100
def numTmps : Nat := 64
def mapSlotsMax : Nat := (numTmps - 8) / 2

def regionCtx : Nat := 1
def regionPkt : Nat := 2
def regionMap (i : Nat) : Nat := 10 + i
/-- Undeclared: a load from it reads `ErrorVal`. -/
def regionNone : Nat := 99

/-- Bytes of packet modelled. -/
def pktLen : Nat := 64

def maxMaps : Nat := 16
/-- Slots modelled per map by default. -/
def mapMaxSlots : Nat := 4
/-- Bytes an update will copy one at a time. -/
def mapMaxValueCopy : Nat := 64

def bpfFuncMapLookupElem : Int := 1
def bpfFuncMapUpdateElem : Int := 2

def e2big : Int := 7

def modFirstXfrm : Nat := 10

/-- No block guards on 0. -/
def pcHalt : Nat := 0
def blockPc (leader : Nat) : Nat := 2 * leader + 1
def decidePc (leader : Nat) : Nat := 2 * leader + 2

def numBpfRegs : Nat := 11
def bpfStackSize : Nat := 512
def maxInsns : Nat := 8192

/-! ## Maps -/

/-- The map families differ in what a key means. -/
inductive Family where
  | array | hash | lru
  deriving DecidableEq, Repr

def arrayTypes : List Nat := [2, 6]
def hashTypes : List Nat := [1, 5]
def lruTypes : List Nat := [9, 10]

structure MapInfo where
  name : String
  type : Nat
  keySize : Nat
  valueSize : Nat
  maxEntries : Nat
  slotsBudget : Nat
  deriving DecidableEq, Repr

namespace MapInfo

def family (mi : MapInfo) : Option Family :=
  if mi.type ∈ arrayTypes then some .array
  else if mi.type ∈ hashTypes then some .hash
  else if mi.type ∈ lruTypes then some .lru
  else none

def isArray (mi : MapInfo) : Bool := mi.family == some .array

/-- Slots modelled: the budget, capped by the map's capacity unless that is 0. -/
def nslots (mi : MapInfo) : Nat :=
  if mi.maxEntries = 0 ∨ mi.maxEntries > mi.slotsBudget then mi.slotsBudget else mi.maxEntries

theorem nslots_pos {mi : MapInfo} (h : 0 < mi.slotsBudget) : 0 < mi.nslots := by
  unfold nslots
  split <;> omega

/-- The region carries the key of each slot, so a lookup scans for it. -/
def tagged (mi : MapInfo) : Bool := mi.family == some .hash

def tagBase (mi : MapInfo) : Nat := mi.nslots

def tagOff (mi : MapInfo) (i : Nat) : Nat := mi.tagBase + i * mi.keySize

def valueBase (mi : MapInfo) : Nat :=
  mi.nslots + (if mi.tagged then mi.nslots * mi.keySize else 0)

def valueOff (mi : MapInfo) (i : Nat) : Nat := mi.valueBase + i * mi.valueSize

/-- The capacity byte, a tagged map only: 1 when the map is at `max_entries`. -/
def fullOff (mi : MapInfo) : Nat := mi.valueBase + mi.nslots * mi.valueSize

def length (mi : MapInfo) : Nat := mi.fullOff + (if mi.tagged then 1 else 0)

end MapInfo

end Ect
