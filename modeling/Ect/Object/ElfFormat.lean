-- SUMMARY: The ELF format as data, and that the reader gets back exactly the sections, symbols and relocations a file holds.
import Ect.Object.Elf

/-!
# The ELF format

A section says what it is in its content: plain bytes, symbols, relocations, or nothing in
the file. `ElfSection` holds one with the fields of its header, and cannot be built with a
type its content does not have. A file holds a list of sections when its header points at
their headers and each of these at its content, wherever they lie.
-/

namespace Ect

open LittleEndian Struct Utf8

/-! ## Contents -/

/-- A symbol as the table stores it. -/
structure SymRecord where
  name : Nat
  info : Nat
  other : Nat
  shndx : Nat
  value : Nat
  size : Nat
  deriving DecidableEq, Repr

/-- A relocation: the type is the low half of its second word and the symbol the high half. -/
structure RelRecord where
  offset : Nat
  sym : Nat
  type : Nat
  deriving DecidableEq, Repr

def SymRecord.words (s : SymRecord) : Fields symFmt :=
  (s.name, s.info, s.other, s.shndx, s.value, s.size, ())

def RelRecord.rInfo (r : RelRecord) : Nat := r.sym * 2 ^ 32 + r.type

def RelRecord.words (r : RelRecord) : Fields relFmt := (r.offset, r.rInfo, ())

/-- A relocation with an addend. -/
def RelRecord.wordsA (r : RelRecord × Nat) : Fields relaFmt := (r.1.offset, r.1.rInfo, r.2, ())

/-- What a section holds, as far as the reader tells sections apart. -/
inductive ElfContent where
  | plain (bs : List Byte)
  | nobits (size : Nat)
  | symtab (syms : List SymRecord)
  | rel (rels : List RelRecord)
  | rela (rels : List (RelRecord × Nat))
  deriving DecidableEq, Repr

namespace ElfContent

/-- The bytes in the file. -/
def bytes : ElfContent → List Byte
  | plain bs => bs
  | nobits _ => []
  | symtab syms => syms.flatMap fun s => pack symFmt s.words
  | rel rels => rels.flatMap fun r => pack relFmt r.words
  | rela rels => rels.flatMap fun r => pack relaFmt (RelRecord.wordsA r)

/-- The size the section header gives. -/
def size : ElfContent → Nat
  | nobits n => n
  | c => c.bytes.length

/-- Every field fits its width, and the two halves of a relocation's second word theirs. -/
def Fits : ElfContent → Prop
  | symtab syms => ∀ s ∈ syms, Struct.Fits symFmt s.words
  | rel rels => ∀ r ∈ rels, Struct.Fits relFmt r.words ∧ r.type < 2 ^ 32
  | rela rels => ∀ r ∈ rels, Struct.Fits relaFmt (RelRecord.wordsA r) ∧ r.1.type < 2 ^ 32
  | _ => True

/-- The section type says which content it is. -/
def HasType : ElfContent → Nat → Prop
  | plain _, t => t ≠ shtNobits ∧ t ≠ shtSymtab ∧ t ≠ shtRel ∧ t ≠ shtRela
  | nobits _, t => t = shtNobits
  | symtab _, t => t = shtSymtab
  | rel _, t => t = shtRel
  | rela _, t => t = shtRela

instance decidableHasType (t : Nat) : (c : ElfContent) → Decidable (c.HasType t)
  | plain _ => inferInstanceAs (Decidable (t ≠ shtNobits ∧ _ ∧ _ ∧ _))
  | nobits _ => inferInstanceAs (Decidable (t = shtNobits))
  | symtab _ => inferInstanceAs (Decidable (t = shtSymtab))
  | rel _ => inferInstanceAs (Decidable (t = shtRel))
  | rela _ => inferInstanceAs (Decidable (t = shtRela))

/-- The relocations among the content. -/
def relocs : ElfContent → List RelRecord
  | rel rels => rels
  | rela rels => rels.map Prod.fst
  | _ => []

/-- The symbols, of a symbol table. -/
def syms? : ElfContent → Option (List SymRecord)
  | symtab syms => some syms
  | _ => none

end ElfContent

/-! ## Sections -/

/-- A section with the fields of its header, whose type tells its content. -/
structure ElfSection where
  nameOff : Nat
  type : Nat
  flags : Nat
  addr : Nat
  offset : Nat
  link : Nat
  info : Nat
  align : Nat
  entsize : Nat
  content : ElfContent
  words_fit : Fits shdrFmt (nameOff, type, flags, addr, offset, content.size, link, info, align,
    entsize, ())
  content_fits : content.Fits
  has_type : content.HasType type

namespace ElfSection

/-- The first entry of a table, which is no section. -/
def null : ElfSection :=
  ⟨0, 0, 0, 0, 0, 0, 0, 0, 0, .plain [], by decide, trivial, by decide⟩

def words (s : ElfSection) : Fields shdrFmt :=
  (s.nameOff, s.type, s.flags, s.addr, s.offset, s.content.size, s.link, s.info, s.align,
    s.entsize, ())

/-- The header as the reader keeps it. -/
def toRaw (i : Nat) (s : ElfSection) : RawSection :=
  ⟨i, s.nameOff, s.type, s.flags, s.offset, s.content.size, s.link, s.info⟩

/-- The section the reader makes of it, with its name out of the table of names. -/
def toSection (shstr : List Byte) (i : Nat) (s : ElfSection) : Section :=
  ⟨i, cstr shstr s.nameOff, s.type, s.flags, s.offset, s.content.size, s.link, s.info,
    s.content.bytes⟩

theorem nobits_iff (s : ElfSection) : s.type = shtNobits ↔ ∃ n, s.content = .nobits n := by
  have htype := s.has_type
  cases hc : s.content <;> rw [hc] at htype <;> simp only [ElfContent.HasType] at htype
  · simp [htype.1]
  · simp [htype]
  all_goals simp [htype, shtNobits, shtSymtab, shtRel, shtRela]

theorem symtab_iff (s : ElfSection) : s.type = shtSymtab ↔ s.content.syms?.isSome = true := by
  have htype := s.has_type
  cases hc : s.content <;> rw [hc] at htype <;> simp only [ElfContent.HasType] at htype
  · simp [htype.2.1, ElfContent.syms?]
  all_goals simp [htype, shtNobits, shtSymtab, shtRel, shtRela, ElfContent.syms?]

end ElfSection

/-! ## Files -/

/-- Where the headers of the sections lie, and which section has their names. -/
structure ElfLayout where
  shoff : Nat
  shentsize : Nat
  shstrndx : Nat
  deriving DecidableEq, Repr

namespace ElfLayout

/-- The file has a header that points at the headers of the sections, and these point at
their contents. -/
structure Holds (l : ElfLayout) (blob : List Byte) (secs : List ElfSection) : Prop where
  magic : blob.take 4 = elfMag
  header : Elf.readEhdr blob = .ok ⟨l.shoff, l.shentsize, secs.length, l.shstrndx⟩
  headers : ∀ i (hi : i < secs.length),
    slice blob (l.shoff + i * l.shentsize) (calcsize shdrFmt) = pack shdrFmt secs[i].words
  contents : ∀ s ∈ secs, s.type ≠ shtNobits → slice blob s.offset s.content.size = s.content.bytes
  names : ∃ s, secs[l.shstrndx]? = some s ∧ s.type ≠ shtNobits

/-- The table of names. -/
def names (l : ElfLayout) (secs : List ElfSection) : List Byte :=
  ((secs[l.shstrndx]?).map fun s => s.content.bytes).getD []

/-- The sections the reader makes. -/
def sections (l : ElfLayout) (secs : List ElfSection) : List Section :=
  secs.zipIdx.map fun p => p.1.toSection (l.names secs) p.2

end ElfLayout

/-- The text a symbol's name is looked up in. -/
def linkedBytes (secs : List ElfSection) (link : Nat) : List Byte :=
  ((secs[link]?).map fun s => s.content.bytes).getD []

/-- A symbol with its name. -/
def SymRecord.toSym (symstr : List Byte) (r : SymRecord) : Sym :=
  ⟨cstr symstr r.name, r.info, r.shndx, r.value, r.size⟩

/-- The symbols of the first symbol table. -/
def symbolsOf (secs : List ElfSection) : List Sym :=
  match secs.find? fun s => s.content.syms?.isSome with
  | none => []
  | some s => (s.content.syms?.getD []).map (SymRecord.toSym (linkedBytes secs s.link))

/-- The relocations that apply to a section, in the order of the tables. -/
def relocsOf (secs : List ElfSection) (target : Int) : List (Nat × Nat × Nat) :=
  secs.flatMap fun s =>
    if (s.info : Int) = target then s.content.relocs.map fun r => (r.offset, r.sym, r.type) else []

namespace Elf

variable {blob : List Byte} {secs : List ElfSection} {l : ElfLayout}

/-! ## Section headers -/

theorem readShdr_holds (h : l.Holds blob secs) {shnum i : Nat} (hi : i < secs.length) :
    readShdr blob ⟨l.shoff, l.shentsize, shnum, l.shstrndx⟩ i = .ok (secs[i].toRaw i) := by
  have hread := unpackFrom_of_slice secs[i].words secs[i].words_fit (by decide) (h.headers i hi)
  rw [readShdr, hread]
  rfl

/-- The headers are read in the order of the sections. -/
theorem readShdrs_holds (h : l.Holds blob secs) :
    (List.range secs.length).mapM
        (readShdr blob ⟨l.shoff, l.shentsize, secs.length, l.shstrndx⟩) =
      .ok (secs.zipIdx.map fun p => p.1.toRaw p.2) := by
  have hlen : secs.zipIdx.length = secs.length := List.length_zipIdx
  rw [← hlen]
  apply mapM_range
  intro i hi
  rw [List.getElem_zipIdx, hlen, Nat.zero_add]
  exact readShdr_holds h (hlen ▸ hi)

/-- What the reader makes of a header is the section. -/
theorem section_toRaw (h : l.Holds blob secs) {s : ElfSection} (hs : s ∈ secs)
    (shstr : List Byte) (i : Nat) : section_ blob shstr (s.toRaw i) = s.toSection shstr i := by
  have hdata : (s.toRaw i).data blob = s.content.bytes := by
    rw [RawSection.data]
    split
    · rename_i htype
      exact h.contents s hs htype
    · rename_i htype
      obtain ⟨n, hn⟩ := s.nobits_iff.mp (not_not.mp htype)
      rw [hn]
      rfl
  simp only [section_, hdata]
  rfl

theorem names_bytes (h : l.Holds blob secs) : ∃ s, secs[l.shstrndx]? = some s ∧
    (s.toRaw l.shstrndx).bytes blob = l.names secs := by
  obtain ⟨s, hs, htype⟩ := h.names
  refine ⟨s, hs, ?_⟩
  rw [ElfLayout.names, hs]
  exact h.contents s (List.mem_of_getElem? hs) htype

/-- Reading comes down to the symbols. -/
theorem init_holds (h : l.Holds blob secs) : init blob = (do
    let symbols ← readSymbols (l.sections secs)
    return ⟨blob, l.sections secs, symbols⟩) := by
  obtain ⟨s, hs, hnames⟩ := names_bytes h
  have hraw : (secs.zipIdx.map fun p => p.1.toRaw p.2)[l.shstrndx]? =
      some (s.toRaw l.shstrndx) := by
    rw [List.getElem?_map, List.getElem?_zipIdx, hs]
    simp
  have hsections : (secs.zipIdx.map fun p => p.1.toRaw p.2).map (section_ blob (l.names secs)) =
      l.sections secs := by
    rw [List.map_map, ElfLayout.sections]
    apply List.map_congr_left
    intro p hp
    exact section_toRaw h (List.fst_mem_of_mem_zipIdx hp) _ _
  rw [init, if_neg (not_not.mpr h.magic), h.header]
  simp only [bind, Except.bind, readShdrs_holds h]
  rw [ofHeaders, hraw]
  simp only [hnames, hsections]
  rfl

/-! ## Symbols -/

theorem sections_getElem? (l : ElfLayout) (secs : List ElfSection) (i : Nat) :
    (l.sections secs)[i]? = (secs[i]?).map fun s => s.toSection (l.names secs) i := by
  rw [ElfLayout.sections, List.getElem?_map, List.getElem?_zipIdx]
  cases secs[i]? <;> simp

theorem linkedBytes_sections (l : ElfLayout) (secs : List ElfSection) (link : Nat) :
    (match (l.sections secs)[link]? with
      | some t => t.data
      | none => []) = linkedBytes secs link := by
  rw [sections_getElem?, linkedBytes]
  cases secs[link]? <;> rfl

theorem readSym_record {data symstr : List Byte} {off : Nat} {r : SymRecord}
    (h : unpackFrom symFmt data off = .ok r.words) :
    readSym symstr data off = .ok (r.toSym symstr) := by
  rw [readSym, h]
  rfl

theorem readSyms_table {symstr : List Byte} {syms : List SymRecord}
    (hfits : ∀ s ∈ syms, Struct.Fits symFmt s.words) :
    (steps (syms.flatMap fun s => pack symFmt s.words).length 24).mapM
        (readSym symstr (syms.flatMap fun s => pack symFmt s.words)) =
      .ok (syms.map (SymRecord.toSym symstr)) := by
  rw [table_length, show calcsize symFmt = 24 from rfl, steps_mul (by decide)]
  exact mapM_table hfits fun off s _ hread => readSym_record hread

/-- Looking for a section among those read is looking among those the file holds. -/
theorem find?_sections {names : List Byte} {p : Section → Bool} {q : ElfSection → Bool}
    (hpq : ∀ s i, p (s.toSection names i) = q s) (n : Nat) :
    (((secs.zipIdx n).map fun x => x.1.toSection names x.2).find? p = none ∧
        secs.find? q = none) ∨
      ∃ s i, secs.find? q = some s ∧
        ((secs.zipIdx n).map fun x => x.1.toSection names x.2).find? p =
          some (s.toSection names i) := by
  induction secs generalizing n with
  | nil => exact .inl ⟨rfl, rfl⟩
  | cons s secs ih =>
    rw [List.zipIdx_cons, List.map_cons, List.find?_cons, List.find?_cons, hpq]
    cases q s with
    | true => exact .inr ⟨s, n, rfl, rfl⟩
    | false => exact ih (n + 1)

theorem readSymbols_holds (l : ElfLayout) (secs : List ElfSection) :
    readSymbols (l.sections secs) = .ok (symbolsOf secs) := by
  have hpq : ∀ (s : ElfSection) i, decide ((s.toSection (l.names secs) i).type = shtSymtab) =
      s.content.syms?.isSome := by
    intro s i
    rw [Bool.eq_iff_iff, decide_eq_true_iff]
    exact s.symtab_iff
  rcases @find?_sections secs (l.names secs) (fun s => decide (s.type = shtSymtab))
    (fun s => s.content.syms?.isSome) hpq 0 with ⟨hnone, hnone'⟩ | ⟨s, i, hs, hfound⟩
  · rw [readSymbols, ElfLayout.sections, hnone, symbolsOf, hnone']
    rfl
  · have hsym := List.find?_some hs
    obtain ⟨syms, hsyms⟩ := Option.isSome_iff_exists.mp hsym
    have hcontent : s.content = .symtab syms := by
      cases hc : s.content <;> rw [hc] at hsyms <;> cases hsyms
      rfl
    have hfits := s.content_fits
    rw [hcontent] at hfits
    have hdata : (s.toSection (l.names secs) i).data =
        syms.flatMap fun s => pack symFmt s.words := by
      change s.content.bytes = _
      rw [hcontent]
      rfl
    rw [← ElfLayout.sections] at hfound
    rw [readSymbols, hfound, symbolsOf, hs]
    simp only [hdata, hsyms, Option.getD_some]
    rw [readSyms_table hfits]
    congr 2
    exact congrArg _ (linkedBytes_sections l secs s.link)

/-! ## Relocations -/

theorem rInfo_halves {r : RelRecord} (h : r.type < 2 ^ 32) :
    r.rInfo >>> 32 = r.sym ∧ r.rInfo &&& 0xffffffff = r.type := by
  rw [RelRecord.rInfo, Nat.shiftRight_eq_div_pow, show 0xffffffff = 2 ^ 32 - 1 from rfl,
    Nat.and_two_pow_sub_one_eq_mod]
  omega

/-- The relocations of one table. -/
def relocTable (s : Section) : Except Exn (List (Nat × Nat × Nat)) :=
  (steps (s.data.length + 1 - relocSize s) (relocSize s)).mapM (readReloc s)

/-- Every record of a relocation table is read. -/
theorem relocTable_section (s : ElfSection) (names : List Byte) (i : Nat)
    (htype : s.type = shtRel ∨ s.type = shtRela) : relocTable (s.toSection names i) =
      .ok (s.content.relocs.map fun r => (r.offset, r.sym, r.type)) := by
  have hfits := s.content_fits
  have hkind := s.has_type
  rw [relocTable]
  change (steps (s.content.bytes.length + 1 - _) _).mapM _ = _
  cases hc : s.content with
  | plain bs =>
    rw [hc] at hkind
    exact absurd htype (by simp [hkind.2.2.1, hkind.2.2.2])
  | nobits n =>
    rw [hc] at hkind
    exact absurd htype (by rw [show s.type = shtNobits from hkind]; decide)
  | symtab syms =>
    rw [hc] at hkind
    exact absurd htype (by rw [show s.type = shtSymtab from hkind]; decide)
  | rel rels =>
    rw [hc] at hfits hkind
    have hnot : ¬(s.toSection names i).type = shtRela := by
      rw [show (s.toSection names i).type = shtRel from hkind]
      decide
    have hsize : relocSize (s.toSection names i) = calcsize relFmt := if_neg hnot
    have hdata : (s.toSection names i).data = rels.flatMap fun r => pack relFmt r.words := by
      change s.content.bytes = _
      rw [hc]
      rfl
    rw [hsize, ElfContent.bytes, table_length, steps_whole (by decide)]
    apply mapM_table fun r hr => (hfits r hr).1
    intro off r hr hread
    obtain ⟨hsym, hlow⟩ := rInfo_halves (hfits r hr).2
    rw [readReloc, if_neg hnot, hdata, hread]
    simp only [RelRecord.words, bind, Except.bind, pure, Except.pure, hsym, hlow]
  | rela rels =>
    rw [hc] at hfits hkind
    have hrela : (s.toSection names i).type = shtRela := hkind
    have hsize : relocSize (s.toSection names i) = calcsize relaFmt := if_pos hrela
    have hdata : (s.toSection names i).data =
        rels.flatMap fun r => pack relaFmt (RelRecord.wordsA r) := by
      change s.content.bytes = _
      rw [hc]
      rfl
    rw [hsize, ElfContent.bytes, table_length, steps_whole (by decide), ElfContent.relocs,
      List.map_map]
    apply mapM_table fun r hr => (hfits r hr).1
    intro off r hr hread
    obtain ⟨hsym, hlow⟩ := rInfo_halves (hfits r hr).2
    rw [readReloc, if_pos hrela, hdata, hread]
    simp only [RelRecord.wordsA, bind, Except.bind, pure, Except.pure, hsym, hlow,
      Function.comp_apply]

/-- Whether a section holds relocations of the target. -/
def appliesTo (target : Int) (s : ElfSection) : Bool :=
  (s.type = shtRel ∨ s.type = shtRela) ∧ (s.info : Int) = target

theorem flatten_filter {α β : Type} (p : α → Bool) (g : α → List β) (xs : List α)
    (h : ∀ x, p x = false → g x = []) : ((xs.filter p).map g).flatten = xs.flatMap g := by
  induction xs with
  | nil => rfl
  | cons x xs ih =>
    rw [List.filter_cons, List.flatMap_cons]
    cases hp : p x with
    | true => rw [if_pos rfl, List.map_cons, List.flatten_cons, ih]
    | false => rw [if_neg Bool.false_ne_true, ih, h x hp, List.nil_append]

/-- The relocations of a section other than a relocation table are none. -/
theorem relocs_eq_nil {s : ElfSection} (h : ¬(s.type = shtRel ∨ s.type = shtRela)) :
    s.content.relocs = [] := by
  have hkind := s.has_type
  cases hc : s.content with
  | rel rels => rw [hc] at hkind; exact absurd (.inl hkind) h
  | rela rels => rw [hc] at hkind; exact absurd (.inr hkind) h
  | _ => rfl

theorem relocations_holds {e : Elf} (hsecs : e.sections = l.sections secs) (target : Int) :
    e.relocations target = .ok (relocsOf secs target) := by
  have htables : (e.sections.filter fun s =>
      (s.type = shtRel ∨ s.type = shtRela) ∧ (s.info : Int) = target) =
      (secs.zipIdx.filter fun p => appliesTo target p.1).map fun p =>
        p.1.toSection (l.names secs) p.2 := by
    rw [hsecs, ElfLayout.sections, List.filter_map]
    rfl
  have hread : ∀ p ∈ secs.zipIdx.filter fun p => appliesTo target p.1,
      (relocTable ∘ fun p : ElfSection × Nat => p.1.toSection (l.names secs) p.2) p =
        .ok (if (p.1.info : Int) = target then
          p.1.content.relocs.map fun r => (r.offset, r.sym, r.type) else []) := by
    intro p hp
    have happ := (List.mem_filter.mp hp).2
    rw [appliesTo, decide_eq_true_iff] at happ
    rw [if_pos happ.2]
    exact relocTable_section p.1 _ p.2 happ.1
  have hnone : ∀ p : ElfSection × Nat, appliesTo target p.1 = false →
      (if (p.1.info : Int) = target then
        p.1.content.relocs.map fun r => (r.offset, r.sym, r.type) else []) = [] := by
    intro p hp
    rw [appliesTo, decide_eq_false_iff_not, not_and_or] at hp
    rcases hp with hp | hp
    · rw [relocs_eq_nil hp]
      split <;> rfl
    · rw [if_neg hp]
  have hunfold : e.relocations target = (do
      let out ← (e.sections.filter fun s =>
        (s.type = shtRel ∨ s.type = shtRela) ∧ (s.info : Int) = target).mapM relocTable
      return out.flatten) := rfl
  rw [hunfold, htables, List.mapM_map, mapM_ok hread]
  simp only [bind, Except.bind, pure, Except.pure]
  rw [flatten_filter _ _ _ hnone, relocsOf]
  congr 1
  conv_rhs => rw [← List.zipIdx_map_fst 0 secs, List.flatMap_map]

/-- A file that holds sections is read as them: each with its name and its bytes, the symbols
of the first symbol table with theirs, and for every section its relocations. -/
theorem tables_read (h : l.Holds blob secs) :
    init blob = .ok ⟨blob, l.sections secs, symbolsOf secs⟩ ∧
      ∀ target, relocations ⟨blob, l.sections secs, symbolsOf secs⟩ target =
        .ok (relocsOf secs target) := by
  constructor
  · rw [init_holds h, readSymbols_holds]
    rfl
  · exact relocations_holds rfl

/-- Five sections: none, a program of one instruction, its relocation against a symbol, the
symbol, and the names. -/
def tinySections : List ElfSection :=
  [.null,
    ⟨1, 1, 6, 0, 64, 0, 0, 8, 0, .plain [0x95, 0, 0, 0, 0, 0, 0, 0], by decide, trivial,
      by decide⟩,
    ⟨0, 9, 0, 0, 72, 3, 1, 8, 16, .rel [⟨0, 1, 1⟩], by decide, by simp [ElfContent.Fits]; decide,
      rfl⟩,
    ⟨0, 2, 0, 0, 88, 4, 0, 8, 24, .symtab [⟨1, 0x11, 0, 3, 0, 8⟩], by decide,
      by simp [ElfContent.Fits]; decide, rfl⟩,
    ⟨0, 3, 0, 0, 112, 0, 0, 1, 0, .plain [0, 0x6d, 0], by decide, trivial, by decide⟩]

/-- A file of them. -/
def tinyFile : List Byte :=
  pack ehdrFmt (0x00010102464c457f, 1, 247, 1, 0, 0, 120, 0, 64, 0, 0, 64, 5, 4, ()) ++
    (tinySections.flatMap fun s => s.content.bytes) ++ List.replicate 5 0 ++
    tinySections.flatMap fun s => pack shdrFmt s.words

theorem tinyFile_holds : ElfLayout.Holds ⟨120, 64, 4⟩ tinyFile tinySections where
  magic := by decide +kernel
  header := by decide +kernel
  headers := by decide +kernel
  contents := by decide +kernel
  names := ⟨_, rfl, by decide⟩

/-- The relocation of the program names the symbol `m`. -/
theorem tables_read_tiny :
    init tinyFile = .ok ⟨tinyFile, ElfLayout.sections ⟨120, 64, 4⟩ tinySections,
        symbolsOf tinySections⟩ ∧
      relocations ⟨tinyFile, ElfLayout.sections ⟨120, 64, 4⟩ tinySections,
        symbolsOf tinySections⟩ 1 = .ok [(0, 1, 1)] ∧
      symbolsOf tinySections = [⟨"m", 0x11, 3, 0, 8⟩] :=
  ⟨(tables_read tinyFile_holds).1, (tables_read tinyFile_holds).2 1, by decide +kernel⟩

end Elf

end Ect
