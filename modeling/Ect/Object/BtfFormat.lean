-- SUMMARY: The BTF format as data, and that the walk reads back exactly the records a section holds.
import Ect.Object.Btf

/-!
# The BTF format

A type record says what it is in its content: the members of a struct, the entries of a
DATASEC, the values of an enum. `BtfRecord` holds such a record with its three words, and
cannot be built with a kind or a count that its info word does not have. A section holds a list of
records when its header is valid and its type section is their bytes, wherever it lies.
-/

namespace Ect

open LittleEndian Struct

/-! ## Contents -/

/-- A member of a struct or a union. -/
structure BtfMember where
  name : Nat
  type : Nat
  offset : Nat
  deriving DecidableEq, Repr

/-- An entry of a DATASEC. -/
structure BtfVarSecinfo where
  type : Nat
  offset : Nat
  size : Nat
  deriving DecidableEq, Repr

/-- A value of an enum (a name and a value) or a parameter of a prototype (a name and a type). -/
structure BtfEntry where
  name : Nat
  val : Nat
  deriving DecidableEq, Repr

structure BtfEnum64 where
  name : Nat
  lo : Nat
  hi : Nat
  deriving DecidableEq, Repr

def BtfMember.words (m : BtfMember) : Fields btfTripleFmt := (m.name, m.type, m.offset, ())
def BtfVarSecinfo.words (v : BtfVarSecinfo) : Fields btfTripleFmt := (v.type, v.offset, v.size, ())
def BtfEntry.words (e : BtfEntry) : Fields [4, 4] := (e.name, e.val, ())
def BtfEnum64.words (e : BtfEnum64) : Fields btfTripleFmt := (e.name, e.lo, e.hi, ())

/-- What follows the three words of a record, kind by kind. -/
inductive BtfContent where
  | int (encoding : Nat)
  | ptr
  | array (elem index nelems : Nat)
  | struct (members : List BtfMember)
  | union (members : List BtfMember)
  | enum (values : List BtfEntry)
  | fwd
  | typedef
  | volatile
  | const
  | restrict
  | func
  | funcProto (params : List BtfEntry)
  | var (linkage : Nat)
  | datasec (vars : List BtfVarSecinfo)
  | float
  | declTag (component : Nat)
  | typeTag
  | enum64 (values : List BtfEnum64)
  deriving DecidableEq, Repr

namespace BtfContent

def kind : BtfContent → Kind
  | int _ => .int
  | ptr => .ptr
  | array .. => .array
  | struct _ => .struct
  | union _ => .union
  | enum _ => .enum
  | fwd => .fwd
  | typedef => .typedef
  | volatile => .volatile
  | const => .const
  | restrict => .restrict
  | func => .func
  | funcProto _ => .funcProto
  | var _ => .var
  | datasec _ => .datasec
  | float => .float
  | declTag _ => .declTag
  | typeTag => .typeTag
  | enum64 _ => .enum64

/-- The count the info word has to give. -/
def count : BtfContent → Option Nat
  | struct ms => some ms.length
  | union ms => some ms.length
  | enum vs => some vs.length
  | funcProto ps => some ps.length
  | datasec vs => some vs.length
  | enum64 vs => some vs.length
  | _ => none

def bytes : BtfContent → List Byte
  | int e => pack [4] (e, ())
  | array elem index nelems => pack btfTripleFmt (elem, index, nelems, ())
  | struct ms => ms.flatMap fun m => pack btfTripleFmt m.words
  | union ms => ms.flatMap fun m => pack btfTripleFmt m.words
  | enum vs => vs.flatMap fun v => pack [4, 4] v.words
  | funcProto ps => ps.flatMap fun p => pack [4, 4] p.words
  | var linkage => pack [4] (linkage, ())
  | datasec vs => vs.flatMap fun v => pack btfTripleFmt v.words
  | declTag component => pack [4] (component, ())
  | enum64 vs => vs.flatMap fun v => pack btfTripleFmt v.words
  | _ => []

/-- Every word is one. -/
def Fits : BtfContent → Prop
  | int e => Struct.Fits [4] (e, ())
  | array elem index nelems => Struct.Fits btfTripleFmt (elem, index, nelems, ())
  | struct ms => ∀ m ∈ ms, Struct.Fits btfTripleFmt m.words
  | union ms => ∀ m ∈ ms, Struct.Fits btfTripleFmt m.words
  | enum vs => ∀ v ∈ vs, Struct.Fits [4, 4] v.words
  | funcProto ps => ∀ p ∈ ps, Struct.Fits [4, 4] p.words
  | var linkage => Struct.Fits [4] (linkage, ())
  | datasec vs => ∀ v ∈ vs, Struct.Fits btfTripleFmt v.words
  | declTag component => Struct.Fits [4] (component, ())
  | enum64 vs => ∀ v ∈ vs, Struct.Fits btfTripleFmt v.words
  | _ => True

end BtfContent

/-! ## Records -/

/-- A type record whose info word tells its kind and its count. The other bits of the info
word, and the count of a kind that has none, are free. -/
structure BtfRecord where
  nameOff : Nat
  info : Nat
  size : Nat
  content : BtfContent
  words_fit : Fits btfTypeFmt (nameOff, info, size, ())
  content_fits : content.Fits
  kind_info : kind info = content.kind
  vlen_info : ∀ n, content.count = some n → vlen info = n

namespace BtfRecord

def bytes (r : BtfRecord) : List Byte :=
  pack btfTypeFmt (r.nameOff, r.info, r.size, ()) ++ r.content.bytes

theorem flatMap_pack_length {α : Type} {fmt : List Nat} (xs : List α) (g : α → Fields fmt) :
    (xs.flatMap fun x => pack fmt (g x)).length = xs.length * calcsize fmt := by
  simp [List.length_flatMap]

/-- The walk advances by what the record holds. -/
theorem content_bytes_length (r : BtfRecord) : r.content.bytes.length = extra r.info := by
  have hkind := r.kind_info
  have hvlen := r.vlen_info
  rw [extra, hkind]
  cases hc : r.content with
  | struct ms | union ms | datasec vs | enum64 vs | enum vs | funcProto ps =>
    rw [hc] at hvlen
    rw [hvlen _ rfl]
    exact flatMap_pack_length _ _
  | int | array | var | declTag => exact pack_length _
  | _ => rfl

/-- The words and the data of the record. -/
def fields (r : BtfRecord) : Nat × Nat × Nat × List Byte :=
  (r.nameOff, r.info, r.size, r.content.bytes)

/-- The record as the reader keeps it. -/
def toType (r : BtfRecord) : BtfType :=
  ⟨r.nameOff, r.info, r.size, r.content.bytes, r.content_bytes_length⟩

theorem bytes_length (r : BtfRecord) : r.bytes.length = 12 + extra r.info := by
  rw [bytes, List.length_append, pack_length, r.content_bytes_length]
  rfl

end BtfRecord

/-! ## Sections -/

/-- Where the parts of a section lie. -/
structure BtfLayout where
  version : Nat
  flags : Nat
  hdrLen : Nat
  typeOff : Nat
  typeLen : Nat
  strOff : Nat
  strLen : Nat
  deriving DecidableEq, Repr

namespace BtfLayout

def header (l : BtfLayout) : Fields btfHdrFmt :=
  (btfMagic, l.version, l.flags, l.hdrLen, l.typeOff, l.typeLen, l.strOff, l.strLen, ())

/-- The bytes start with the header, both parts lie inside, and the type section is the
records' bytes. -/
structure Holds (l : BtfLayout) (blob : List Byte) (recs : List BtfRecord) : Prop where
  header_fits : Fits btfHdrFmt l.header
  header_first : pack btfHdrFmt l.header <+: blob
  types_inside : l.hdrLen + l.typeOff + l.typeLen ≤ blob.length
  strs_inside : l.hdrLen + l.strOff + l.strLen ≤ blob.length
  types : slice blob (l.hdrLen + l.typeOff) l.typeLen = recs.flatMap BtfRecord.bytes

/-- The text at an offset of the string section. -/
def text (l : BtfLayout) (blob : List Byte) (off : Nat) : String :=
  Utf8.cstr (slice blob (l.hdrLen + l.strOff) l.strLen) off

end BtfLayout

/-! ## The walk -/

namespace Btf

variable {blob rest : List Byte} {recs : List BtfRecord}

theorem unpack_record (r : BtfRecord) (rest : List Byte) :
    unpack btfTypeFmt (r.bytes ++ rest) = (r.nameOff, r.info, r.size, ()) := by
  rw [BtfRecord.bytes, List.append_assoc]
  exact unpack_pack_append _ r.words_fit _

theorem walk_step {fuel pos nameOff info sz : Nat}
    (hwords : unpack btfTypeFmt (blob.drop pos) = (nameOff, info, sz, ()))
    (hin : pos + 12 + extra info ≤ blob.length) :
    walk blob (fuel + 1) pos =
      ⟨nameOff, info, sz, slice blob (pos + 12) (extra info), slice_length_of_le hin⟩ ::
        walk blob fuel (pos + 12 + extra info) := by
  rw [walk, if_pos (by omega), hwords]
  exact dif_pos hin

/-- One round of the walk reads one record and stops right behind it. -/
theorem walk_record {fuel pos : Nat} (r : BtfRecord)
    (h : blob.drop pos = r.bytes ++ rest) :
    walk blob (fuel + 1) pos = r.toType :: walk blob fuel (pos + r.bytes.length) := by
  have hlen := r.bytes_length
  have hleft := congrArg List.length h
  rw [List.length_drop, List.length_append] at hleft
  have hwords := unpack_record r rest
  rw [← h] at hwords
  have hpayload : slice blob (pos + 12) (extra r.info) = r.content.bytes := by
    have hpack : (pack btfTypeFmt (r.nameOff, r.info, r.size, ())).length = 12 := pack_length _
    rw [slice, ← List.drop_drop, h, BtfRecord.bytes, List.append_assoc, List.drop_left' hpack,
      List.take_left' r.content_bytes_length]
  rw [walk_step hwords (by omega), hlen, ← Nat.add_assoc]
  simp only [BtfRecord.toType, hpayload]

theorem walk_records {fuel pos : Nat} (h : blob.drop pos = recs.flatMap BtfRecord.bytes)
    (hfuel : recs.length ≤ fuel) : walk blob fuel pos = recs.map BtfRecord.toType := by
  induction recs generalizing fuel pos with
  | nil =>
    have hend : blob.length ≤ pos := List.drop_eq_nil_iff.mp h
    cases fuel with
    | zero => rfl
    | succ fuel => rw [walk, if_neg (by omega)]; rfl
  | cons r recs ih =>
    rw [List.flatMap_cons] at h
    cases fuel with
    | zero => simp at hfuel
    | succ fuel =>
      have hnext : blob.drop (pos + r.bytes.length) = recs.flatMap BtfRecord.bytes := by
        rw [← List.drop_drop, h, List.drop_left]
      rw [walk_record r h, ih hnext (Nat.le_of_succ_le_succ hfuel), List.map_cons]

theorem records_le_bytes (recs : List BtfRecord) :
    recs.length ≤ (recs.flatMap BtfRecord.bytes).length := by
  induction recs with
  | nil => exact Nat.le_refl _
  | cons r recs ih =>
    have hlen := r.bytes_length
    simp only [List.flatMap_cons, List.length_append, List.length_cons]
    omega

/-- A section that holds records is accepted, and they are its types. -/
theorem init_holds {l : BtfLayout} (h : l.Holds blob recs) :
    init blob = .ok ⟨slice blob (l.hdrLen + l.strOff) l.strLen, recs.map BtfRecord.toType⟩ := by
  obtain ⟨rest, rfl⟩ := h.header_first
  have hcalc : ¬(pack btfHdrFmt l.header ++ rest).length < calcsize btfHdrFmt := by
    rw [List.length_append, pack_length]
    omega
  have htypes := h.types
  have hin := h.types_inside
  have hstr := h.strs_inside
  rw [init, if_neg hcalc, unpack_pack_append _ h.header_fits]
  generalize pack btfHdrFmt l.header ++ rest = blob at *
  dsimp only [BtfLayout.header]
  rw [if_neg (fun hne => hne rfl), if_neg (by omega), htypes,
    walk_records (by rw [List.drop_zero]) (records_le_bytes recs)]

end Btf

/-! ## Variables and members -/

namespace BtfRecord

/-- The record of a type id. -/
def ofId (recs : List BtfRecord) : Nat → Option BtfRecord
  | 0 => none
  | i + 1 => recs[i]?

/-- The type `tid` is `n` qualifiers around the record `r`. -/
inductive Underlies (recs : List BtfRecord) : Nat → Nat → BtfRecord → Prop
  | plain {tid : Nat} {r : BtfRecord} : ofId recs tid = some r → r.content.kind ∉ qualifiers →
      Underlies recs 0 tid r
  | qualified {n tid : Nat} {q r : BtfRecord} : ofId recs tid = some q →
      q.content.kind ∈ qualifiers → Underlies recs n q.size r → Underlies recs (n + 1) tid r

/-- The variable a DATASEC entry is about: its name and type id. -/
def varOf (recs : List BtfRecord) (text : Nat → String) (v : BtfVarSecinfo) :
    Option (String × Nat) :=
  match ofId recs v.type with
  | none => none
  | some r => if r.content.kind = .var then some (text r.nameOff, r.size) else none

end BtfRecord

namespace Btf

open BtfRecord

variable {recs : List BtfRecord} {strs : List Byte}

theorem get_map (tid : Nat) :
    (Btf.mk strs (recs.map toType)).get tid = (ofId recs tid).map toType := by
  cases tid with
  | zero => rfl
  | succ i => simp [get, ofId]

theorem toType_kind (r : BtfRecord) : kind r.toType.info = r.content.kind := r.kind_info

theorem stripLoop_underlies {n limit tid : Nat} {r : BtfRecord} (h : Underlies recs n tid r)
    (hn : n < limit) : (Btf.mk strs (recs.map toType)).stripLoop limit tid = some r.toType := by
  induction h generalizing limit with
  | plain hid hkind =>
    obtain ⟨limit, rfl⟩ := Nat.exists_eq_succ_of_ne_zero (Nat.ne_of_gt hn)
    rw [stripLoop, get_map, hid, Option.map_some]
    exact if_neg (by rwa [toType_kind])
  | @qualified n tid q r hid hkind _ ih =>
    obtain ⟨limit, rfl⟩ := Nat.exists_eq_succ_of_ne_zero (Nat.ne_of_gt (Nat.lt_of_le_of_lt
      (Nat.zero_le _) hn))
    rw [stripLoop, get_map, hid, Option.map_some]
    dsimp only
    rw [if_pos (by rwa [toType_kind])]
    exact ih (Nat.lt_of_succ_lt_succ hn)

/-- Entry `i` of a record's table. -/
theorem triple_table {α : Type} {xs : List α} {g : α → Fields btfTripleFmt} {r : BtfRecord}
    (hbytes : r.content.bytes = xs.flatMap fun x => pack btfTripleFmt (g x))
    (hfits : ∀ x ∈ xs, Fits btfTripleFmt (g x)) {i : Nat} (hi : i < xs.length) :
    triple r.toType (i * 12) = .ok (g xs[i]) := by
  change unpackFrom btfTripleFmt r.content.bytes (i * 12) = _
  rw [hbytes]
  exact unpackFrom_table hfits hi

theorem datasecVar_of_triple {b : Btf} {t : BtfType} {i tid off size : Nat}
    (h : triple t (i * 12) = .ok (tid, off, size, ())) :
    b.datasecVar t i = .ok ((b.get tid).bind fun v =>
      if kind v.info = .var then some (b.name v.nameOff, v.size) else none) := by
  simp only [datasecVar, h]
  cases hget : b.get tid with
  | none => simp [bind, Except.bind, hget]; rfl
  | some v =>
    by_cases hvar : kind v.info = .var <;> simp [bind, Except.bind, hget, hvar] <;> rfl

theorem datasecVar_eq {r : BtfRecord} {vars : List BtfVarSecinfo}
    (hr : r.content = .datasec vars) {i : Nat} (hi : i < vars.length) :
    (Btf.mk strs (recs.map toType)).datasecVar r.toType i =
      .ok (varOf recs (Utf8.cstr strs) vars[i]) := by
  have hfits := r.content_fits
  rw [hr] at hfits
  have hread := triple_table (g := BtfVarSecinfo.words) (by rw [hr]; rfl) hfits hi
  rw [datasecVar_of_triple hread, get_map, varOf]
  cases ofId recs vars[i].type with
  | none => rfl
  | some q =>
    rw [Option.map_some, Option.bind_some, toType_kind]
    rfl

theorem structMember_eq {r : BtfRecord} {ms : List BtfMember} (hr : r.content = .struct ms)
    {i : Nat} (hi : i < ms.length) :
    (Btf.mk strs (recs.map toType)).structMember r.toType i =
      .ok (Utf8.cstr strs ms[i].name, ms[i].type) := by
  have hfits := r.content_fits
  rw [hr] at hfits
  have hread := triple_table (g := BtfMember.words) (by rw [hr]; rfl) hfits hi
  rw [structMember, hread]
  rfl

theorem datasecVars_eq {secname : String} {r : BtfRecord} {vars : List BtfVarSecinfo} {i : Nat}
    (hi : recs[i]? = some r) (hr : r.content = .datasec vars)
    (hname : Utf8.cstr strs r.nameOff = secname)
    (hfirst : ∀ j q, j < i → recs[j]? = some q → q.content.kind = .datasec →
      Utf8.cstr strs q.nameOff ≠ secname) :
    (Btf.mk strs (recs.map toType)).datasecVars secname =
      .ok (vars.filterMap (varOf recs (Utf8.cstr strs))) := by
  have hkind : kind r.info = .datasec := by rw [r.kind_info, hr]; rfl
  have hfind : (recs.map toType).find? (fun t => kind t.info = .datasec ∧
      (Btf.mk strs (recs.map toType)).name t.nameOff = secname) = some r.toType := by
    rw [List.find?_map, Option.map_eq_some_iff]
    refine ⟨r, ?_, rfl⟩
    obtain ⟨hlt, hget⟩ := List.getElem?_eq_some_iff.mp hi
    rw [List.find?_eq_some_iff_getElem]
    refine ⟨by simpa using ⟨hkind, hname⟩, i, hlt, hget, fun j hj => ?_⟩
    rw [Function.comp_apply, Bool.not_eq_true', decide_eq_false_iff_not]
    rintro ⟨hq, hqname⟩
    exact hfirst j recs[j] hj (List.getElem?_eq_getElem _) (by rwa [← toType_kind]) hqname
  have hlen : vlen r.toType.info = vars.length := r.vlen_info _ (by rw [hr]; rfl)
  rw [datasecVars, hfind]
  dsimp only
  rw [hlen, mapM_range fun j hj => datasecVar_eq hr hj]
  change Except.ok ((vars.map _).filterMap id) = _
  rw [List.filterMap_map]
  rfl

theorem datasecVars_nil {secname : String}
    (hnone : ∀ r ∈ recs, r.content.kind = .datasec → Utf8.cstr strs r.nameOff ≠ secname) :
    (Btf.mk strs (recs.map toType)).datasecVars secname = .ok [] := by
  have hfind : (recs.map toType).find? (fun t => kind t.info = .datasec ∧
      (Btf.mk strs (recs.map toType)).name t.nameOff = secname) = none := by
    rw [List.find?_eq_none]
    intro t ht
    obtain ⟨r, hr, rfl⟩ := List.mem_map.mp ht
    rw [decide_eq_true_eq]
    rintro ⟨hkind, hname⟩
    exact hnone r hr (by rwa [← toType_kind]) hname
  rw [datasecVars, hfind]

theorem structMembers_eq {n tid : Nat} {r : BtfRecord} {ms : List BtfMember}
    (h : Underlies recs n tid r) (hn : n < 32) (hr : r.content = .struct ms) :
    (Btf.mk strs (recs.map toType)).structMembers tid =
      .ok (some (ms.map fun m => (Utf8.cstr strs m.name, m.type))) := by
  have hkind : kind r.toType.info = .struct := by rw [toType_kind, hr]; rfl
  have hlen : vlen r.toType.info = ms.length := r.vlen_info _ (by rw [hr]; rfl)
  rw [structMembers, strip, stripLoop_underlies h hn]
  dsimp only
  rw [if_neg (not_not.mpr hkind), hlen, mapM_range
    (g := fun m : BtfMember => (Utf8.cstr strs m.name, m.type)) fun j hj => structMember_eq hr hj]
  rfl

theorem structMembers_none {n tid : Nat} {r : BtfRecord} (h : Underlies recs n tid r) (hn : n < 32)
    (hr : r.content.kind ≠ .struct) :
    (Btf.mk strs (recs.map toType)).structMembers tid = .ok none := by
  rw [structMembers, strip, stripLoop_underlies h hn]
  dsimp only
  rw [if_pos (by rwa [toType_kind])]

/-- What a reader has to make of a section that holds records with these names: the records in
order, the variables of the first DATASEC of a name, and the members of every struct, seen
through fewer than 32 qualifiers. -/
structure Reads (b : Btf) (recs : List BtfRecord) (text : Nat → String) : Prop where
  types : b.types.map BtfType.fields = recs.map BtfRecord.fields
  ids : ∀ i, (b.get i).map BtfType.fields = (ofId recs i).map BtfRecord.fields
  vars : ∀ (i : Nat) (r : BtfRecord) (vars : List BtfVarSecinfo), recs[i]? = some r →
    r.content = .datasec vars →
    (∀ (j : Nat) (q : BtfRecord), j < i → recs[j]? = some q → q.content.kind = .datasec →
      text q.nameOff ≠ text r.nameOff) →
    b.datasecVars (text r.nameOff) = .ok (vars.filterMap (varOf recs text))
  no_vars : ∀ secname, (∀ r ∈ recs, r.content.kind = .datasec → text r.nameOff ≠ secname) →
    b.datasecVars secname = .ok []
  members : ∀ (n tid : Nat) (r : BtfRecord) (ms : List BtfMember), Underlies recs n tid r → n < 32 →
    r.content = .struct ms →
    b.structMembers tid = .ok (some (ms.map fun m => (text m.name, m.type)))
  no_members : ∀ (n tid : Nat) (r : BtfRecord), Underlies recs n tid r → n < 32 →
    r.content.kind ≠ .struct → b.structMembers tid = .ok none

/-- The walk stays on the records of the section, and what is read out of them is what they
hold. -/
theorem init_reads {l : BtfLayout} {blob : List Byte} (h : l.Holds blob recs) :
    ∃ b, init blob = .ok b ∧ Reads b recs (l.text blob) := by
  refine ⟨_, init_holds h, ?_⟩
  constructor
  · rw [List.map_map]
    rfl
  · intro i
    rw [get_map, Option.map_map]
    rfl
  · intro i r vars hi hr hfirst
    exact datasecVars_eq hi hr rfl hfirst
  · intro secname hnone
    exact datasecVars_nil hnone
  · intro n tid r ms hr hn hms
    exact structMembers_eq hr hn hms
  · intro n tid r hr hn hne
    exact structMembers_none hr hn hne

/-- A map variable as a compiler leaves it: an int, a struct with one member of that type, a
variable of the struct, and the DATASEC that lists the variable. -/
def mapRecords : List BtfRecord :=
  [⟨0, 0x01000000, 4, .int 0x20, by simp [Fits], by simp [BtfContent.Fits, Fits], rfl, nofun⟩,
   ⟨0, 0x04000001, 4, .struct [⟨7, 1, 0⟩], by simp [Fits],
    by simp [BtfContent.Fits, BtfMember.words, Fits], rfl, by rintro _ ⟨⟩; rfl⟩,
   ⟨9, 0x0e000000, 2, .var 1, by simp [Fits], by simp [BtfContent.Fits, Fits], rfl, nofun⟩,
   ⟨1, 0x0f000001, 4, .datasec [⟨3, 0, 4⟩], by simp [Fits],
    by simp [BtfContent.Fits, BtfVarSecinfo.words, Fits], rfl, by rintro _ ⟨⟩; rfl⟩]

/-- Strings first, then a gap of one byte, then the records. -/
def mapLayout : BtfLayout := ⟨1, 0, 24, 12, 80, 0, 11⟩

/-- `"", ".maps", "k", "m"` -/
def mapStrs : List Byte :=
  [0#8, 0x2e#8, 0x6d#8, 0x61#8, 0x70#8, 0x73#8, 0#8, 0x6b#8, 0#8, 0x6d#8, 0#8]

def mapSection : List Byte :=
  pack btfHdrFmt mapLayout.header ++ (mapStrs ++ (0xff#8 :: mapRecords.flatMap BtfRecord.bytes))

theorem mapSection_holds : mapLayout.Holds mapSection mapRecords where
  header_fits := by simp [BtfLayout.header, mapLayout, Fits, btfMagic]
  header_first := List.prefix_append _ _
  types_inside := by decide +kernel
  strs_inside := by decide +kernel
  types := by decide +kernel

theorem mapSection_reads : ∃ b, init mapSection = .ok b ∧
    b.datasecVars ".maps" = .ok [("m", 2)] ∧ b.structMembers 2 = .ok (some [("k", 1)]) := by
  obtain ⟨b, hinit, hreads⟩ := init_reads mapSection_holds
  have hmaps : mapLayout.text mapSection 1 = ".maps" := by decide +kernel
  have hk : mapLayout.text mapSection 7 = "k" := by decide +kernel
  have hm : mapLayout.text mapSection 9 = "m" := by decide +kernel
  have hvars := hreads.vars 3 mapRecords[3] [⟨3, 0, 4⟩] rfl rfl (by
    intro j q hj hq hkind
    have hcases : j = 0 ∨ j = 1 ∨ j = 2 := by omega
    rcases hcases with rfl | rfl | rfl <;> cases hq <;> cases hkind)
  have hmem := hreads.members 0 2 mapRecords[1] [⟨7, 1, 0⟩] (.plain rfl (by decide)) (by decide) rfl
  refine ⟨b, hinit, ?_, ?_⟩
  · simpa [mapRecords, hmaps, varOf, ofId, BtfContent.kind, hm] using hvars
  · simpa [hk] using hmem

end Btf

end Ect
