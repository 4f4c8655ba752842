-- SUMMARY: The 64-bit little-endian ELF reader, and exactly when it fails with anything but a ValueError.
import Ect.Base.Struct
import Ect.Base.Utf8

/-!
# ELF objects

Just enough ELF to find a BPF object's program sections, symbols and relocations. Every
count, offset and index comes from the file. Slices are clipped, but records are unpacked
and the table of section names is looked up with no check beforehand.
-/

namespace Ect

open LittleEndian Struct Utf8

/-- `\x7fELF` -/
def elfMag : List Byte := [0x7f#8, 0x45#8, 0x4c#8, 0x46#8]

def shtSymtab : Nat := 2
def shtRela : Nat := 4
def shtNobits : Nat := 8
def shtRel : Nat := 9
def shfExecinstr : Nat := 0x4
def sttSection : Nat := 3
def rBpf6464 : Nat := 1

/-- `e_ident .. e_shstrndx` -/
abbrev ehdrFmt : List Nat := [16, 2, 2, 4, 8, 8, 8, 4, 2, 2, 2, 2, 2, 2]
abbrev shdrFmt : List Nat := [4, 4, 8, 8, 8, 8, 4, 4, 8, 8]
abbrev symFmt : List Nat := [4, 1, 1, 2, 8, 8]
abbrev relFmt : List Nat := [8, 8]
abbrev relaFmt : List Nat := [8, 8, 8]

structure Section where
  index : Nat
  name : String
  type : Nat
  flags : Nat
  offset : Nat
  size : Nat
  link : Nat
  info : Nat
  data : List Byte
  deriving DecidableEq, Repr

structure Sym where
  name : String
  info : Nat
  shndx : Nat
  value : Nat
  size : Nat
  deriving DecidableEq, Repr

def Sym.type (s : Sym) : Nat := s.info &&& 0xf

/-- A parsed object. `sections` is indexed by section number. -/
structure Elf where
  blob : List Byte
  sections : List Section
  symbols : List Sym
  deriving DecidableEq, Repr

/-- The fields of a section header that are kept. -/
structure RawSection where
  index : Nat
  nm : Nat
  type : Nat
  flags : Nat
  offset : Nat
  size : Nat
  link : Nat
  info : Nat
  deriving DecidableEq, Repr

/-- The bytes a section header points at, as far as the file has them. -/
def RawSection.bytes (blob : List Byte) (r : RawSection) : List Byte := slice blob r.offset r.size

/-- The bytes of a section: a NOBITS one has none in the file. -/
def RawSection.data (blob : List Byte) (r : RawSection) : List Byte :=
  if r.type ≠ shtNobits then r.bytes blob else []

/-- The fields of the file header that are used. -/
structure Ehdr where
  shoff : Nat
  shentsize : Nat
  shnum : Nat
  shstrndx : Nat
  deriving DecidableEq, Repr

namespace Elf

def readEhdr (blob : List Byte) : Except Exn Ehdr := do
  let (_ident, _type, _machine, _ver, _entry, _phoff, shoff, _flags,
    _ehsize, _phentsize, _phnum, shentsize, shnum, shstrndx, ()) ← unpackFrom ehdrFmt blob 0
  return ⟨shoff, shentsize, shnum, shstrndx⟩

def readShdr (blob : List Byte) (h : Ehdr) (i : Nat) : Except Exn RawSection := do
  let (nm, ty, fl, _addr, off, sz, link, info, _al, _es, ()) ←
    unpackFrom shdrFmt blob (h.shoff + i * h.shentsize)
  return ⟨i, nm, ty, fl, off, sz, link, info⟩

/-- The section of a header, named out of the table of section names. -/
def section_ (blob shstr : List Byte) (r : RawSection) : Section where
  index := r.index
  name := cstr shstr r.nm
  type := r.type
  flags := r.flags
  offset := r.offset
  size := r.size
  link := r.link
  info := r.info
  data := r.data blob

def readSym (symstr data : List Byte) (off : Nat) : Except Exn Sym := do
  let (nm, info, _other, shndx, val, sz, ()) ← unpackFrom symFmt data off
  return ⟨cstr symstr nm, info, shndx, val, sz⟩

/-- The symbols of the first symbol table. -/
def readSymbols (sections : List Section) : Except Exn (List Sym) :=
  match sections.find? (·.type = shtSymtab) with
  | none => return []
  | some s =>
    let symstr := match sections[s.link]? with
      | some t => t.data
      | none => []
    (steps s.data.length 24).mapM (readSym symstr s.data)

/-- The object, once its section headers are read. -/
def ofHeaders (blob : List Byte) (shstrndx : Nat) (raw : List RawSection) : Except Exn Elf :=
  match raw[shstrndx]? with
  | none => throw .index
  | some strs => do
    let sections := raw.map (section_ blob (strs.bytes blob))
    let symbols ← readSymbols sections
    return ⟨blob, sections, symbols⟩

/-- `Elf(blob)` -/
def init (blob : List Byte) : Except Exn Elf := do
  if blob.take 4 ≠ elfMag then
    throw (.value "not an ELF file")
  let h ← readEhdr blob
  let raw ← (List.range h.shnum).mapM (readShdr blob h)
  ofHeaders blob h.shstrndx raw

/-- The offset, symbol index and type of one relocation record. -/
def readReloc (s : Section) (off : Nat) : Except Exn (Nat × Nat × Nat) :=
  if s.type = shtRela then do
    let (rOffset, rInfo, _addend, ()) ← unpackFrom relaFmt s.data off
    return (rOffset, rInfo >>> 32, rInfo &&& 0xffffffff)
  else do
    let (rOffset, rInfo, ()) ← unpackFrom relFmt s.data off
    return (rOffset, rInfo >>> 32, rInfo &&& 0xffffffff)

def relocSize (s : Section) : Nat := if s.type = shtRela then 24 else 16

/-- Every relocation applying to a section. Unlike the symbol table, a trailing piece of a
record is left out. -/
def relocations (e : Elf) (targetIndex : Int) : Except Exn (List (Nat × Nat × Nat)) := do
  let tables := e.sections.filter fun s =>
    (s.type = shtRel ∨ s.type = shtRela) ∧ (s.info : Int) = targetIndex
  let out ← tables.mapM fun s =>
    (steps (s.data.length + 1 - relocSize s) (relocSize s)).mapM (readReloc s)
  return out.flatten

/-! ## What can fail -/

/-- The header fields at their places, in a file that is long enough to have them. -/
def ehdrAt (blob : List Byte) : Ehdr :=
  let (_, _, _, _, _, _, shoff, _, _, _, _, shentsize, shnum, shstrndx, ()) :=
    unpack ehdrFmt blob
  ⟨shoff, shentsize, shnum, shstrndx⟩

/-- Section header `i`, in a file that is long enough to have it. -/
def shdrAt (blob : List Byte) (i : Nat) : RawSection :=
  let h := ehdrAt blob
  let (nm, ty, fl, _, off, sz, link, info, _, _, ()) :=
    unpack shdrFmt (blob.drop (h.shoff + i * h.shentsize))
  ⟨i, nm, ty, fl, off, sz, link, info⟩

/-- The file has its header and every section header, the table of section names is one of
its sections, and its first symbol table is whole records, as far as the file has it. -/
structure Intact (blob : List Byte) : Prop where
  header : 64 ≤ blob.length
  sections : ∀ i < (ehdrAt blob).shnum,
    (ehdrAt blob).shoff + i * (ehdrAt blob).shentsize + 64 ≤ blob.length
  names : (ehdrAt blob).shstrndx < (ehdrAt blob).shnum
  symbols : ∀ i < (ehdrAt blob).shnum, (shdrAt blob i).type = shtSymtab →
    (∀ j < i, (shdrAt blob j).type ≠ shtSymtab) →
    24 ∣ min (shdrAt blob i).size (blob.length - (shdrAt blob i).offset)

/-- The failures a caller expects: a ValueError, or none at all. -/
def FailsAsDeclared (blob : List Byte) : Prop :=
  (∃ msg, init blob = .error (.value msg)) ∨
    ∃ e, init blob = .ok e ∧ ∀ i, ∃ rs, e.relocations i = .ok rs

variable {blob : List Byte}

theorem readEhdr_ok (h : 64 ≤ blob.length) : readEhdr blob = .ok (ehdrAt blob) := by
  have hcalc : calcsize ehdrFmt = 64 := rfl
  rw [readEhdr, unpackFrom_of_le (by omega)]
  rfl

theorem readShdr_ok {i : Nat}
    (h : (ehdrAt blob).shoff + i * (ehdrAt blob).shentsize + 64 ≤ blob.length) :
    readShdr blob (ehdrAt blob) i = .ok (shdrAt blob i) := by
  have hcalc : calcsize shdrFmt = 64 := rfl
  rw [readShdr, unpackFrom_of_le (by omega)]
  rfl

-- from here on only that the fields are the same in every use matters
attribute [irreducible] ehdrAt shdrAt

/-- Relocation tables are read record by record while a whole one is left. -/
theorem relocations_ok (e : Elf) (i : Int) : ∃ rs, e.relocations i = .ok rs := by
  have hrec : ∀ (s : Section), ∀ off ∈ steps (s.data.length + 1 - relocSize s) (relocSize s),
      ∃ r, readReloc s off = .ok r := by
    intro s off hoff
    have hpos : 0 < relocSize s := by rw [relocSize]; split <;> decide
    have hlt := (mem_steps hpos hoff).1
    rw [readReloc]
    rw [relocSize] at hlt
    split at hlt
    · rename_i hrela
      have hcalc : calcsize relaFmt = 24 := rfl
      rw [if_pos hrela, unpackFrom_of_le (by omega)]
      exact ⟨_, rfl⟩
    · rename_i hrel
      have hcalc : calcsize relFmt = 16 := rfl
      rw [if_neg hrel, unpackFrom_of_le (by omega)]
      exact ⟨_, rfl⟩
  have htable : ∀ s : Section, ∃ rs,
      (steps (s.data.length + 1 - relocSize s) (relocSize s)).mapM (readReloc s) = .ok rs := by
    intro s
    choose! g hg using hrec s
    exact ⟨_, mapM_ok hg⟩
  choose g hg using htable
  rw [relocations, mapM_ok fun s _ => hg s]
  exact ⟨_, rfl⟩

/-- No part of the reader but the check of the magic number raises a ValueError. -/
def NotValue (e : Exn) : Prop := ∀ msg, e ≠ .value msg

theorem readSym_error {symstr data : List Byte} {off : Nat} {e : Exn}
    (h : readSym symstr data off = .error e) : NotValue e := by
  have hcalc : calcsize symFmt = 24 := rfl
  rw [readSym] at h
  rcases Nat.lt_or_ge data.length (off + calcsize symFmt) with hlt | hle
  · obtain ⟨e', he', hne⟩ := unpackFrom_of_lt hlt
    rw [he'] at h
    cases h
    exact hne
  · rw [unpackFrom_of_le hle] at h
    cases h

/-- A symbol table is read exactly when it is whole records. -/
theorem readSymbols_ok {ss : List Section}
    (h : ∀ s, ss.find? (·.type = shtSymtab) = some s → 24 ∣ s.data.length) :
    ∃ syms, readSymbols ss = .ok syms := by
  rw [readSymbols]
  split
  · exact ⟨[], rfl⟩
  · rename_i s hs
    have hsyms : ∀ symstr, ∀ off ∈ steps s.data.length 24,
        ∃ y, readSym symstr s.data off = .ok y := by
      intro symstr off hoff
      have hcalc : calcsize symFmt = 24 := rfl
      obtain ⟨hlt, hdvd⟩ := mem_steps (by decide) hoff
      have hlen := h s hs
      rw [readSym, unpackFrom_of_le (by omega)]
      exact ⟨_, rfl⟩
    have hne : Nonempty Sym := ⟨⟨"", 0, 0, 0, 0⟩⟩
    choose! g hg using hsyms
    exact ⟨_, mapM_ok (hg _)⟩

theorem readSymbols_error {ss : List Section} {s : Section}
    (hs : ss.find? (·.type = shtSymtab) = some s) (hlen : ¬24 ∣ s.data.length) :
    ∃ e, readSymbols ss = .error e ∧ NotValue e := by
  rw [readSymbols, hs]
  dsimp only
  generalize (match ss[s.link]? with | some t => t.data | none => []) = symstr
  -- the last symbol is the one that is cut off
  have hpos : 0 < s.data.length := Nat.pos_of_ne_zero fun h0 => hlen (h0 ▸ Nat.dvd_zero 24)
  have hlast := @last_mem_steps _ 24 (by decide) hpos
  have hcalc : calcsize symFmt = 24 := rfl
  obtain ⟨e, he, -⟩ := @unpackFrom_of_lt symFmt s.data ((s.data.length - 1) / 24 * 24) (by omega)
  have hbad : readSym symstr s.data ((s.data.length - 1) / 24 * 24) = .error e := by
    rw [readSym, he]
    rfl
  obtain ⟨off, -, e', he', hall⟩ := mapM_error hlast hbad
  exact ⟨e', hall, readSym_error he'⟩

theorem readShdr_error {h : Ehdr} {i : Nat} {e : Exn} (he : readShdr blob h i = .error e) :
    NotValue e := by
  rw [readShdr] at he
  rcases Nat.lt_or_ge blob.length (h.shoff + i * h.shentsize + calcsize shdrFmt) with hlt | hle
  · obtain ⟨e', he', hne⟩ := unpackFrom_of_lt hlt
    rw [he'] at he
    cases he
    exact hne
  · rw [unpackFrom_of_le hle] at he
    cases he

/-! ## The sections of a file -/

/-- The section headers, in a file that has them all. -/
def shdrs (blob : List Byte) : List RawSection :=
  (List.range (ehdrAt blob).shnum).map (shdrAt blob)

theorem find?_symtab {shstr : List Byte} {s : Section} :
    ((shdrs blob).map (section_ blob shstr)).find? (·.type = shtSymtab) = some s ↔
      ∃ i < (ehdrAt blob).shnum, (shdrAt blob i).type = shtSymtab ∧
        (∀ j < i, (shdrAt blob j).type ≠ shtSymtab) ∧ section_ blob shstr (shdrAt blob i) = s := by
  have htype : ∀ i, (((fun s : Section => decide (s.type = shtSymtab)) ∘ section_ blob shstr) ∘
      shdrAt blob) i = decide ((shdrAt blob i).type = shtSymtab) := fun _ => rfl
  rw [shdrs, List.find?_map, List.find?_map, Option.map_map, Option.map_eq_some_iff]
  simp only [List.find?_range_eq_some, htype, decide_eq_true_eq, List.mem_range,
    Bool.not_eq_true', decide_eq_false_iff_not, Function.comp_apply]
  exact exists_congr fun i => by tauto

/-- A symbol table is not NOBITS, so its bytes are those in the file. -/
theorem symtab_data_length {shstr : List Byte} {i : Nat} (h : (shdrAt blob i).type = shtSymtab) :
    (section_ blob shstr (shdrAt blob i)).data.length =
      min (shdrAt blob i).size (blob.length - (shdrAt blob i).offset) := by
  have hbits : (shdrAt blob i).type ≠ shtNobits := by rw [h]; decide
  simp only [section_, RawSection.data, if_pos hbits, RawSection.bytes, slice_length]

theorem init_of_magic (hmag : blob.take 4 = elfMag) (hlen : 64 ≤ blob.length) :
    init blob = (List.range (ehdrAt blob).shnum).mapM (readShdr blob (ehdrAt blob)) >>=
      ofHeaders blob (ehdrAt blob).shstrndx := by
  rw [init, if_neg (not_not.mpr hmag), readEhdr_ok hlen]
  rfl

theorem init_of_sections (hmag : blob.take 4 = elfMag) (hlen : 64 ≤ blob.length)
    (hsec : ∀ i < (ehdrAt blob).shnum,
      (ehdrAt blob).shoff + i * (ehdrAt blob).shentsize + 64 ≤ blob.length) :
    init blob = ofHeaders blob (ehdrAt blob).shstrndx (shdrs blob) := by
  rw [init_of_magic hmag hlen, mapM_ok fun i hi => readShdr_ok (hsec i (List.mem_range.mp hi))]
  rfl

theorem ofHeaders_names {shstrndx : Nat} (h : shstrndx < (ehdrAt blob).shnum) :
    ofHeaders blob shstrndx (shdrs blob) =
      (readSymbols ((shdrs blob).map (section_ blob ((shdrAt blob shstrndx).bytes blob))) >>=
        fun symbols => .ok ⟨blob,
          (shdrs blob).map (section_ blob ((shdrAt blob shstrndx).bytes blob)), symbols⟩) := by
  have hnames : (shdrs blob)[shstrndx]? = some (shdrAt blob shstrndx) := by
    simp [shdrs, h]
  rw [ofHeaders, hnames]
  rfl

theorem init_ok (hmag : blob.take 4 = elfMag) (h : Intact blob) : ∃ e, init blob = .ok e := by
  rw [init_of_sections hmag h.header h.sections, ofHeaders_names h.names]
  obtain ⟨syms, hsyms⟩ := @readSymbols_ok
    ((shdrs blob).map (section_ blob ((shdrAt blob (ehdrAt blob).shstrndx).bytes blob)))
    fun s hs => by
      obtain ⟨i, hi, htype, hfirst, rfl⟩ := find?_symtab.mp hs
      rw [symtab_data_length htype]
      exact h.symbols i hi htype hfirst
  exact ⟨⟨blob, _, syms⟩, by rw [hsyms]; rfl⟩

/-- A file that starts like an object and is not intact is not refused in the declared way. -/
theorem init_error (hmag : blob.take 4 = elfMag) (h : ¬Intact blob) :
    ∃ e, init blob = .error e ∧ NotValue e := by
  have hcalc : calcsize ehdrFmt = 64 := rfl
  by_cases hlen : 64 ≤ blob.length
  swap
  · obtain ⟨e, he, hne⟩ := (@unpackFrom_of_lt ehdrFmt blob) (by omega)
    refine ⟨e, ?_, hne⟩
    rw [init, if_neg (not_not.mpr hmag), readEhdr, he]
    rfl
  by_cases hsec : ∀ i < (ehdrAt blob).shnum,
      (ehdrAt blob).shoff + i * (ehdrAt blob).shentsize + 64 ≤ blob.length
  swap
  · push Not at hsec
    obtain ⟨i, hi, hout⟩ := hsec
    have hcalc : calcsize shdrFmt = 64 := rfl
    obtain ⟨e, he, -⟩ := @unpackFrom_of_lt shdrFmt blob
      ((ehdrAt blob).shoff + i * (ehdrAt blob).shentsize) (by omega)
    have hbad : readShdr blob (ehdrAt blob) i = .error e := by
      rw [readShdr, he]
      rfl
    obtain ⟨j, -, e', he', hall⟩ := mapM_error (List.mem_range.mpr hi) hbad
    exact ⟨e', by rw [init_of_magic hmag hlen, hall]; rfl, readShdr_error he'⟩
  rw [init_of_sections hmag hlen hsec]
  by_cases hnames : (ehdrAt blob).shstrndx < (ehdrAt blob).shnum
  swap
  · have hnone : (shdrs blob)[(ehdrAt blob).shstrndx]? = none := by
      simp only [shdrs, List.getElem?_eq_none_iff, List.length_map, List.length_range]
      omega
    exact ⟨.index, by rw [ofHeaders, hnone]; rfl, fun _ => nofun⟩
  rw [ofHeaders_names hnames]
  obtain ⟨i, hi, htype, hfirst, hndvd⟩ : ∃ i < (ehdrAt blob).shnum,
      (shdrAt blob i).type = shtSymtab ∧ (∀ j < i, (shdrAt blob j).type ≠ shtSymtab) ∧
      ¬24 ∣ min (shdrAt blob i).size (blob.length - (shdrAt blob i).offset) := by
    by_contra hno
    push Not at hno
    exact h ⟨hlen, hsec, hnames, hno⟩
  rw [← symtab_data_length htype] at hndvd
  obtain ⟨e, he, hne⟩ := readSymbols_error (find?_symtab.mpr ⟨i, hi, htype, hfirst, rfl⟩) hndvd
  exact ⟨e, by rw [he]; rfl, hne⟩

/-- The reader fails as its callers expect exactly on the files that do not start like an
object and on the intact ones. -/
theorem failsAsDeclared_iff (blob : List Byte) :
    FailsAsDeclared blob ↔ (blob.take 4 ≠ elfMag ∨ Intact blob) := by
  constructor
  · intro h
    by_contra hno
    push Not at hno
    obtain ⟨e, he, hne⟩ := init_error hno.1 hno.2
    rcases h with ⟨msg, hmsg⟩ | ⟨obj, hobj, -⟩
    · rw [he] at hmsg
      exact hne msg (Except.error.inj hmsg)
    · rw [he] at hobj
      cases hobj
  · intro h
    by_cases hmag : blob.take 4 = elfMag
    · obtain ⟨e, he⟩ := init_ok hmag (h.resolve_left (not_not.mpr hmag))
      exact .inr ⟨e, he, relocations_ok e⟩
    · exact .inl ⟨"not an ELF file", by rw [init, if_pos hmag]; rfl⟩

/-- Four bytes that start like an object and stop there. -/
theorem failsAsDeclared_counterexample :
    init elfMag = .error .struct ∧ ¬FailsAsDeclared elfMag := by
  have hinit : init elfMag = .error .struct := rfl
  refine ⟨hinit, ?_⟩
  rintro (⟨msg, hmsg⟩ | ⟨e, he, -⟩)
  · rw [hinit] at hmsg
    cases hmsg
  · rw [hinit] at he
    cases he

end Elf

end Ect
