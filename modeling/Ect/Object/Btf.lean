-- SUMMARY: The BTF reader: header checks, the walk over the type records, and the size of a type.
import Ect.Base.Struct
import Ect.Base.Utf8

/-!
# BTF

Maps carry their key and value sizes in BTF alone. A type record is a 12-byte header
followed by data whose length depends on the kind, and the walk advances by that length.
-/

namespace Ect

open LittleEndian Struct

def btfMagic : Nat := 0xEB9F

/-- The kind of a type record, bits 24 to 28 of its info word. -/
inductive Kind where
  | int | ptr | array | struct | union | enum | fwd | typedef | volatile | const | restrict
  | func | funcProto | var | datasec | float | declTag | typeTag | enum64 | other
  deriving DecidableEq, Repr

def kind (info : Nat) : Kind :=
  match (info >>> 24) &&& 0x1f with
  | 1 => .int
  | 2 => .ptr
  | 3 => .array
  | 4 => .struct
  | 5 => .union
  | 6 => .enum
  | 7 => .fwd
  | 8 => .typedef
  | 9 => .volatile
  | 10 => .const
  | 11 => .restrict
  | 12 => .func
  | 13 => .funcProto
  | 14 => .var
  | 15 => .datasec
  | 16 => .float
  | 17 => .declTag
  | 18 => .typeTag
  | 19 => .enum64
  | _ => .other

def vlen (info : Nat) : Nat := info &&& 0xffff

/-- magic, version, flags, hdr_len, type_off/len, str_off/len -/
abbrev btfHdrFmt : List Nat := [2, 1, 1, 4, 4, 4, 4, 4]
/-- name_off, info, size-or-type -/
abbrev btfTypeFmt : List Nat := [4, 4, 4]
/-- Three words: an array's type, index type and length; a member's name, type and offset; a
variable's type, offset and size. -/
abbrev btfTripleFmt : List Nat := [4, 4, 4]

def qualifiers : List Kind := [.typedef, .volatile, .const, .restrict, .typeTag]

/-- The kinds whose third word is a size. -/
def sizedKinds : List Kind := [.int, .struct, .union, .enum, .enum64, .float, .datasec]

/-- Bytes of kind-specific data following the 12-byte header. -/
def extra (info : Nat) : Nat :=
  match kind info with
  | .int => 4
  | .array => 12
  | .struct => vlen info * 12
  | .union => vlen info * 12
  | .enum => vlen info * 8
  | .funcProto => vlen info * 8
  | .var => 4
  | .datasec => vlen info * 12
  | .declTag => 4
  | .enum64 => vlen info * 12
  | _ => 0

/-- A type record, with as much data as its kind has. -/
structure BtfType where
  nameOff : Nat
  info : Nat
  size : Nat
  payload : List Byte
  payload_length : payload.length = extra info
  deriving DecidableEq, Repr

/-- The words and the data of a record. -/
def BtfType.fields (t : BtfType) : Nat × Nat × Nat × List Byte :=
  (t.nameOff, t.info, t.size, t.payload)

/-- The `.BTF` section. Id 0 is void and is not listed: id `i + 1` is `types[i]`. -/
structure Btf where
  strs : List Byte
  types : List BtfType
  deriving DecidableEq, Repr

/-- A section that is refused, and why. -/
structure BtfError where
  msg : String
  deriving DecidableEq, Repr

namespace Btf

/-- The records from `pos` on. A record takes at least 12 bytes, so the length is enough fuel. -/
def walk (blob : List Byte) : Nat → Nat → List BtfType
  | 0, _ => []
  | fuel + 1, pos =>
    if pos + 12 ≤ blob.length then
      let (nameOff, info, sz, ()) := unpack btfTypeFmt (blob.drop pos)
      if h : pos + 12 + extra info ≤ blob.length then
        ⟨nameOff, info, sz, slice blob (pos + 12) (extra info), slice_length_of_le h⟩ ::
          walk blob fuel (pos + 12 + extra info)
      else []
    else []

/-- `Btf(blob)` -/
def init (blob : List Byte) : Except BtfError Btf :=
  if blob.length < calcsize btfHdrFmt then .error ⟨"section is shorter than a BTF header"⟩
  else
    let (magic, _ver, _flags, hdrLen, typeOff, typeLen, strOff, strLen, ()) :=
      unpack btfHdrFmt blob
    if magic ≠ btfMagic then
      .error ⟨"magic is 0x" ++ hex magic ++ ", not 0x" ++ hex btfMagic ++
        " (big-endian object?)"⟩
    else if hdrLen + typeOff + typeLen > blob.length ∨ hdrLen + strOff + strLen > blob.length then
      .error ⟨"section is truncated"⟩
    else
      let typesBlob := slice blob (hdrLen + typeOff) typeLen
      .ok ⟨slice blob (hdrLen + strOff) strLen, walk typesBlob typesBlob.length 0⟩

variable (b : Btf)

def name (off : Nat) : String := Utf8.cstr b.strs off

def get : Nat → Option BtfType
  | 0 => none
  | i + 1 => b.types[i]?

/-- At most `n` qualifiers are looked through. -/
def stripLoop : Nat → Nat → Option BtfType
  | 0, _ => none
  | n + 1, tid =>
    match b.get tid with
    | none => none
    | some t => if kind t.info ∈ qualifiers then stripLoop n t.size else some t

/-- Follow typedefs and qualifiers to the underlying type. -/
def strip (tid : Nat) : Option BtfType := b.stripLoop 32 tid

/-- The three words at a place of a record's data. -/
def triple (t : BtfType) (off : Nat) : Except Exn (Fields btfTripleFmt) :=
  unpackFrom btfTripleFmt t.payload off

/-- The size of a type. The recursion on the element of an array gives up when it is
`limit` calls deep. -/
def sizeOf : Nat → Nat → Except Exn Nat
  | 0, _ => .error .recursion
  | limit + 1, tid =>
    match b.strip tid with
    | none => .ok 0
    | some t =>
      if kind t.info ∈ sizedKinds then .ok t.size
      else if kind t.info = .ptr then .ok 8
      else if kind t.info = .array then do
        let (elem, _idx, nelems, ()) ← triple t 0
        let size ← sizeOf limit elem
        return nelems * size
      else .ok 0

/-- `__uint(name, val)` is `int (*name)[val]`: the length of the array behind the pointer. -/
def uintValue (tid : Nat) : Except Exn Nat :=
  match b.strip tid with
  | none => .ok 0
  | some p =>
    if kind p.info ≠ .ptr then .ok 0
    else
      match b.strip p.size with
      | none => .ok 0
      | some a =>
        if kind a.info ≠ .array then .ok 0
        else do
          let (_elem, _idx, nelems, ()) ← triple a 0
          return nelems

/-- `__type(name, val)` is `typeof(val) *name`: the size of the pointee. -/
def typeSize (limit tid : Nat) : Except Exn Nat :=
  match b.strip tid with
  | none => .ok 0
  | some p => if kind p.info ≠ .ptr then .ok 0 else b.sizeOf limit p.size

/-- The variable an entry of a DATASEC names, with its type id. -/
def datasecVar (t : BtfType) (i : Nat) : Except Exn (Option (String × Nat)) := do
  let (tid, _off, _size, ()) ← triple t (i * 12)
  match b.get tid with
  | none => return none
  | some var => return if kind var.info ≠ .var then none else some (b.name var.nameOff, var.size)

/-- The variables of the first DATASEC of a name, with their type ids. -/
def datasecVars (secname : String) : Except Exn (List (String × Nat)) :=
  match b.types.find? fun t => kind t.info = .datasec ∧ b.name t.nameOff = secname with
  | none => .ok []
  | some t => do
    let out ← (List.range (vlen t.info)).mapM (b.datasecVar t)
    return out.reduceOption

def structMember (t : BtfType) (i : Nat) : Except Exn (String × Nat) := do
  let (nameOff, type, _off, ()) ← triple t (i * 12)
  return (b.name nameOff, type)

/-- The members of a STRUCT with their type ids, or none if it is not one. -/
def structMembers (tid : Nat) : Except Exn (Option (List (String × Nat))) :=
  match b.strip tid with
  | none => .ok none
  | some st =>
    if kind st.info ≠ .struct then .ok none
    else do
      let out ← (List.range (vlen st.info)).mapM (b.structMember st)
      return some out

end Btf

end Ect
