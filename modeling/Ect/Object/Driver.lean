-- SUMMARY: From an object file to the emitted program: discovering, sorting and sizing the maps, and attaching them to instructions.
import Ect.Object.Btf
import Ect.Object.Elf
import Ect.Translate.Program
import Mathlib.Data.List.Lex
import Mathlib.Data.List.Sort

/-!
# Driving the translator from an object file

`run` finds the maps an object declares, in the legacy section or in BTF, sorts them by
name, reads the relocations that attach them to instructions, and translates the first
executable section. Without `--map-slots` a throwaway pass first counts how often each map
is used.
-/

namespace Ect

open LittleEndian Struct

/-! ## Context layouts -/

/-- `sec.startswith(pre)` -/
def startsWith (pre sec : String) : Bool := pre.toList.isPrefixOf sec.toList

/-- `sub in sec` -/
def occursIn (sub sec : String) : Bool := sec.toList.tails.any sub.toList.isPrefixOf

/-- Program types whose context is `struct __sk_buff`. -/
def skbPrefixes : List String :=
  ["socket", "filter", "tc", "classifier", "action", "cgroup_skb", "cgroup/skb", "sk_skb", "lwt_",
    "flow_dissector"]

/-- Which context a program section gets. An unrecognised name yields none. -/
def ctxLayoutFor (sec : String) : Option CtxLayout :=
  if startsWith "xdp" sec then some ctxXdpMd
  else if skbPrefixes.any (startsWith · sec) then some ctxSkBuff
  else none

/-! ## Discovering maps -/

/-- The arguments of `add_map`. -/
structure MapDef where
  name : String
  type : Nat
  keySize : Nat
  valueSize : Nat
  maxEntries : Nat
  deriving DecidableEq, Repr

def MapDef.toInfo (slots : Nat) (d : MapDef) : MapInfo :=
  ⟨d.name, d.type, d.keySize, d.valueSize, d.maxEntries, slots⟩

/-- The maps found so far, and the diagnostics reported about them. -/
structure Discovered where
  maps : List MapInfo
  diags : List String
  deriving DecidableEq, Repr

def findMap (maps : List MapInfo) (name : String) : Option Nat :=
  maps.findIdx? fun m => m.name = name

/-- The first definition of a name counts. -/
def addMap (slots : Nat) (s : Discovered) (d : MapDef) : Discovered :=
  if (findMap s.maps d.name).isSome then s
  else if s.maps.length ≥ maxMaps then
    { s with diags := s.diags ++ [s!"bpf_to_ir: more than {maxMaps} maps"] }
  else { s with maps := s.maps ++ [d.toInfo slots] }

/-- What a section declares: a map, or a diagnostic. -/
abbrev Decl := Except String MapDef

def declare (slots : Nat) (s : Discovered) : Decl → Discovered
  | .error msg => { s with diags := s.diags ++ [s!"bpf_to_ir: {msg}"] }
  | .ok d => addMap slots s d

/-- `struct bpf_map_def SEC("maps")`: five words at the place of each symbol. -/
def legacyDecl (sec : Section) (sym : Sym) : Option Decl :=
  if sym.shndx ≠ sec.index ∨ sym.type = sttSection then none
  else if sym.value + 20 > sec.data.length then none
  else
    let (type, ks, vs, me, _, ()) := unpack [4, 4, 4, 4, 4] (sec.data.drop sym.value)
    some (.ok ⟨sym.name, type, ks, vs, me⟩)

def discoverLegacyMaps (e : Elf) (sec : Section) : List Decl :=
  e.symbols.filterMap (legacyDecl sec)

/-- One member of a map's struct. -/
def btfField (b : Btf) (limit : Nat) (d : MapDef) (m : String × Nat) : Except Exn MapDef :=
  if m.1 = "type" then return { d with type := ← b.uintValue m.2 }
  else if m.1 = "max_entries" then return { d with maxEntries := ← b.uintValue m.2 }
  else if m.1 = "key_size" then return { d with keySize := ← b.uintValue m.2 }
  else if m.1 = "value_size" then return { d with valueSize := ← b.uintValue m.2 }
  else if m.1 = "key" then return { d with keySize := ← b.typeSize limit m.2 }
  else if m.1 = "value" then return { d with valueSize := ← b.typeSize limit m.2 }
  else return d

/-- One variable of the `.maps` section. -/
def btfDecl (b : Btf) (limit : Nat) (v : String × Nat) : Except Exn Decl := do
  match ← b.structMembers v.2 with
  | none => return .error s!"map {v.1}: BTF entry is not a struct"
  | some members =>
    let d ← members.foldlM (btfField b limit) ⟨v.1, 0, 0, 0, 0⟩
    if d.keySize = 0 ∨ d.valueSize = 0 then
      return .error (s!"map {d.name}: BTF gives key_size={d.keySize} value_size={d.valueSize}; " ++
        "the map cannot be sized")
    else return .ok d

def discoverBtfMaps (limit : Nat) (blob : List Byte) : Except Exn (List Decl) :=
  match Btf.init blob with
  | .error e => return [.error s!".BTF {e.msg}"]
  | .ok b => do (← b.datasecVars ".maps").mapM (btfDecl b limit)

/-- What a section declares, whichever style it uses. -/
def sectionDecls (limit : Nat) (e : Elf) (s : Section) : Except Exn (List Decl) :=
  if s.size = 0 then return []
  else if s.name = "maps" ∧ e.symbols ≠ [] then return discoverLegacyMaps e s
  else if s.name = ".BTF" then discoverBtfMaps limit s.data
  else return []

/-- Every declaration of the object, in the order they are come across. -/
def decls (limit : Nat) (e : Elf) : Except Exn (List Decl) := do
  let ds ← e.sections.mapM (sectionDecls limit e)
  return ds.flatten

def discoverMaps (slots : Nat) (ds : List Decl) : Discovered := ds.foldl (declare slots) ⟨[], []⟩

/-! ## Sorting and sizing -/

/-- `name.encode()` -/
def encode (name : String) : List Nat := name.toByteArray.data.toList.map (·.toNat)

/-- `maps.sort(key=lambda m: m.name.encode())`, which is stable. -/
def sortMaps (maps : List MapInfo) : List MapInfo :=
  maps.insertionSort fun a b => encode a.name ≤ encode b.name

/-- Slots from how often a tagged map is used. -/
def sizeMap (hint : String → Nat) (mi : MapInfo) : MapInfo :=
  if mi.tagged then
    { mi with slotsBudget := min (max (2 * hint mi.name) 1) mapSlotsMax }
  else mi

/-- Only where there is a hint. -/
def sizeMaps (hint : Option (String → Nat)) (maps : List MapInfo) : List MapInfo :=
  match hint with
  | none => maps
  | some hint => maps.map (sizeMap hint)

/-! ## Relocations -/

/-- The instruction a relocation is on and the map it names, where it names one. -/
def mapReloc (e : Elf) (ninsns : Nat) (maps : List MapInfo) (r : Nat × Nat × Nat) :
    Option (Nat × Nat) :=
  if r.2.2 ≠ rBpf6464 then none
  else
    match e.symbols[r.2.1]? with
    | none => none
    | some sym =>
      match findMap maps sym.name with
      | none => none
      | some m => if r.1 / INSN_SIZE < ninsns then some (r.1 / INSN_SIZE, m) else none

/-- A later relocation of an instruction replaces an earlier one. -/
def attach {α : Type} (at_ : Nat → Option α) (p : Nat × α) : Nat → Option α :=
  fun idx => if idx = p.1 then some p.2 else at_ idx

/-- Instruction index to map index, from the relocations that apply to a section. -/
def loadMapRelocs (e : Elf) (secIndex ninsns : Nat) (maps : List MapInfo) :
    Except Exn (Nat → Option Nat) := do
  let rs ← e.relocations secIndex
  return (rs.filterMap (mapReloc e ninsns maps)).foldl attach fun _ => none

/-! ## The budget -/

/-- A tagged map used at more sites than half its slots is reported. -/
def budgetDiag (mi : MapInfo) (n : Nat) : Option String :=
  if mi.tagged ∧ n > mi.nslots / 2 then
    some (s!"bpf_to_ir: map {mi.name} is accessed at {n} sites but only {mi.nslots} slots are " ++
      "modelled, and half of those have to be left for the keys of the program it is compared " ++
      s!"against.  Raise --map-slots to {2 * n}")
  else none

/-- A map that is not used has no sites, which no budget is below. -/
def checkMapBudget (maps : List MapInfo) (sites : Nat → Nat) : List String :=
  maps.zipIdx.filterMap fun p => budgetDiag p.1 (sites p.2)

/-! ## One pass over an object -/

/-- How a run ends: refused with a message and status 1, or with a program and everything
that was reported, where `had_error` is that something was. -/
inductive RunResult where
  | refused (msg : String)
  | emitted (program : Program) (diags : List String)
  deriving DecidableEq, Repr

/-- What is left in the translator after a run: its maps, the sites counted on them, and how
it ended. -/
structure Pass where
  maps : List MapInfo
  mapSites : Nat → Nat
  result : RunResult

/-- A section that holds a program. -/
def isProgram (s : Section) : Bool :=
  s.size != 0 && (s.flags &&& shfExecinstr != 0 || occursIn "text" s.name || occursIn "xdp" s.name)

/-- The instructions of a section. A trailing piece of one is left out. -/
def sectionInsns (s : Section) : List Insn :=
  decode (s.data.take (s.data.length / INSN_SIZE * INSN_SIZE))

/-- An index out of range in the translator is the only exception it raises. -/
def liftErr {α : Type} : Except PyErr α → Except Exn α
  | .ok a => .ok a
  | .error _ => .error .index

/-- `insn_map_idx`, which stays empty in an object without symbols. -/
def insnMapIdxOf (e : Elf) (secIndex ninsns : Nat) (maps : List MapInfo) :
    Except Exn (Nat → Option Nat) :=
  if e.symbols ≠ [] then loadMapRelocs e secIndex ninsns maps else .ok fun _ => none

/-- The instructions are translated, the budget checked, and the program emitted. -/
def translateInsns (c : Config) (diags : List String) (insns : List Insn) : Except Exn Pass := do
  let (mods, t, out) ← liftErr (translateProgram insns c .init)
  return ⟨c.maps, t.mapSites, .emitted (emitProgram c mods)
    (diags ++ out.diags ++ checkMapBudget c.maps t.mapSites)⟩

/-- A section whose context is known. -/
def translateSection (e : Elf) (s : Section) (ctx : CtxLayout) (found : Discovered) :
    Except Exn Pass :=
  let insns := sectionInsns s
  if insns.length > maxInsns then
    .ok ⟨found.maps, fun _ => 0, .refused
      s!"bpf_to_ir: section {s.name} has {insns.length} instructions (max {maxInsns})"⟩
  else do
    let at_ ← insnMapIdxOf e s.index insns.length found.maps
    translateInsns ⟨ctx, found.maps, at_⟩ found.diags insns

/-- `run` behind the discovery of the maps. -/
def runSection (e : Elf) (ctxOverride : Option CtxLayout) (found : Discovered) :
    Except Exn Pass :=
  match e.sections.find? isProgram with
  | none => .ok ⟨found.maps, fun _ => 0, .refused "bpf_to_ir: no executable section found"⟩
  | some s =>
    match ctxOverride <|> ctxLayoutFor s.name with
    | none =>
      .ok ⟨found.maps, fun _ => 0, .refused (s!"bpf_to_ir: section {s.name}: no context layout " ++
        "is known for this program type; the ctx region would be the wrong size and every field " ++
        "access an overrun.  Pass --ctx=xdp_md or --ctx=__sk_buff to say which it is.")⟩
    | some ctx => translateSection e s ctx found

/-- `run` without the sizing pass, on maps of `slots` slots. -/
def runPass (limit : Nat) (ctxOverride : Option CtxLayout) (slots : Nat)
    (hint : Option (String → Nat)) (blob : List Byte) : Except Exn Pass :=
  match Elf.init blob with
  | .error (.value msg) => .ok ⟨[], fun _ => 0, .refused s!"bpf_to_ir: {msg}"⟩
  | .error exn => .error exn
  | .ok e => do
    let found := discoverMaps slots (← decls limit e)
    runSection e ctxOverride { found with maps := sizeMaps hint (sortMaps found.maps) }

/-- How many times the program uses each map, from a throwaway pass. -/
def probeMapSites (limit : Nat) (ctxOverride : Option CtxLayout) (blob : List Byte) :
    Except Exn (String → Nat) := do
  let pass ← runPass limit ctxOverride mapMaxSlots none blob
  return fun name => ((findMap pass.maps name).map pass.mapSites).getD 0

/-- `run(blob)`, with the value of `--map-slots` where it is given. Zero slots count as the
default. -/
def run (limit : Nat) (ctxOverride : Option CtxLayout) (mapSlots : Option Nat)
    (blob : List Byte) : Except Exn Pass :=
  match mapSlots with
  | some n => runPass limit ctxOverride (if n = 0 then mapMaxSlots else n) none blob
  | none => do
    let hint ← probeMapSites limit ctxOverride blob
    runPass limit ctxOverride mapMaxSlots (some hint) blob

end Ect
