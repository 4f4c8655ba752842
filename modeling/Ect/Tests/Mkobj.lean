-- SUMMARY: The object files the tests build from instructions, and that reading and translating one comes back to the instructions.
import Ect.Bpf.Encode
import Ect.Object.Driver
import Ect.Object.ElfFormat

/-!
# Built objects

`tests/mkobj.py` wraps a list of instructions in a minimal object: a header, the program
section, the table of names, and three section headers. The reader finds the sections again,
and a run on the object is the translation of the instructions.
-/

namespace Ect.Mkobj

open LittleEndian Struct Utf8

/-! ## Building -/

/-- `struct.pack`: a value that does not fit its field is refused. -/
def packChecked (fmt : List Nat) (vs : Fields fmt) : Except Exn (List Byte) :=
  if Fits fmt vs then .ok (pack fmt vs) else .error .struct

/-- `lo <= v < hi` -/
def inRange (lo hi v : Int) : Bool := lo ≤ v && v < hi

/-- `insn(code, dst, src, off, imm)` -/
def insn (code dst src : Nat) (off imm : Int) : Except Exn (List Byte) :=
  if code < 256 ∧ inRange (-2 ^ 15) (2 ^ 15) off ∧ inRange (-2 ^ 31) (2 ^ 31) imm then
    .ok (pack insnFmt (code, dst % 16 + 16 * (src % 16), (off % 2 ^ 16).toNat,
      (imm % 2 ^ 32).toNat, ()))
  else .error .struct

def emBpf : Nat := 247

/-- `name.encode()`, as bytes. -/
def encodeName (name : String) : List Byte := (encode name).map (BitVec.ofNat 8)

/-- The table of names. -/
def nameTable (secname : String) : List Byte :=
  [0] ++ encodeName secname ++ [0] ++ encodeName ".shstrtab" ++ [0]

/-- Where the second name starts, were every character of the first one byte long. -/
def offStr (secname : String) : Nat := 1 + secname.length + 1

def strOff (text : List Byte) : Nat := 64 + text.length

/-- The section headers start at a multiple of eight. -/
def shOff (text names : List Byte) : Nat := (strOff text + names.length + 7) / 8 * 8

/-- `b"\x7fELF" + bytes([2, 1, 1, 0]) + b"\0" * 8` -/
def ident : List Byte := elfMag ++ [2, 1, 1, 0] ++ List.replicate 8 0

def ehdrFields (text names : List Byte) : Fields ehdrFmt :=
  (leNat ident, 1, emBpf, 1, 0, 0, shOff text names, 0, 64, 0, 0, 64, 3, 2, ())

def nullShdr : Fields shdrFmt := (0, 0, 0, 0, 0, 0, 0, 0, 0, 0, ())

/-- The program section: PROGBITS, ALLOC and EXECINSTR. -/
def progShdr (text : List Byte) : Fields shdrFmt :=
  (1, 1, 0x2 ||| 0x4, 0, 64, text.length, 0, 0, 8, 0, ())

def strShdr (secname : String) (text names : List Byte) : Fields shdrFmt :=
  (offStr secname, 3, 0, 0, strOff text, names.length, 0, 0, 1, 0, ())

/-- `build(insns, secname)` -/
def build (insns : List (List Byte)) (secname : String) : Except Exn (List Byte) := do
  let text := insns.flatten
  let names := nameTable secname
  let null ← packChecked shdrFmt nullShdr
  let prog ← packChecked shdrFmt (progShdr text)
  let strs ← packChecked shdrFmt (strShdr secname text names)
  let ehdr ← packChecked ehdrFmt (ehdrFields text names)
  let blob := ehdr ++ text ++ names
  return blob ++ List.replicate (shOff text names - blob.length) 0 ++ (null ++ prog ++ strs)

/-! ## The sections of a built object -/

variable {text : List Byte} {secname : String} {insns : List (List Byte)} {blob : List Byte}

theorem packChecked_ok {fmt : List Nat} {vs : Fields fmt} {bs : List Byte}
    (h : packChecked fmt vs = .ok bs) : Fits fmt vs ∧ bs = pack fmt vs := by
  rw [packChecked] at h
  split at h
  · rename_i hfits
    exact ⟨hfits, (Except.ok.inj h).symm⟩
  · cases h

/-- The padding between the names and the section headers. -/
def padding (text names : List Byte) : List Byte :=
  List.replicate (shOff text names - (strOff text + names.length)) 0

/-- What is built, piece by piece, when every field fits. -/
structure Built (secname : String) (text blob : List Byte) : Prop where
  prog_fits : Fits shdrFmt (progShdr text)
  strs_fits : Fits shdrFmt (strShdr secname text (nameTable secname))
  ehdr_fits : Fits ehdrFmt (ehdrFields text (nameTable secname))
  pieces : blob = pack ehdrFmt (ehdrFields text (nameTable secname)) ++ (text ++
    (nameTable secname ++ (padding text (nameTable secname) ++ (pack shdrFmt nullShdr ++
      (pack shdrFmt (progShdr text) ++
        pack shdrFmt (strShdr secname text (nameTable secname)))))))

theorem built_of_build (h : build insns secname = .ok blob) :
    Built secname insns.flatten blob := by
  rw [build] at h
  cases hnull : packChecked shdrFmt nullShdr with
  | error e => rw [hnull] at h; cases h
  | ok null =>
  cases hprog : packChecked shdrFmt (progShdr insns.flatten) with
  | error e => rw [hnull, hprog] at h; cases h
  | ok prog =>
  cases hstrs : packChecked shdrFmt (strShdr secname insns.flatten (nameTable secname)) with
  | error e => rw [hnull, hprog, hstrs] at h; cases h
  | ok strs =>
  cases hehdr : packChecked ehdrFmt (ehdrFields insns.flatten (nameTable secname)) with
  | error e => rw [hnull, hprog, hstrs, hehdr] at h; cases h
  | ok ehdr =>
  rw [hnull, hprog, hstrs, hehdr] at h
  obtain ⟨-, rfl⟩ := packChecked_ok hnull
  obtain ⟨hprog_fits, rfl⟩ := packChecked_ok hprog
  obtain ⟨hstrs_fits, rfl⟩ := packChecked_ok hstrs
  obtain ⟨hehdr_fits, rfl⟩ := packChecked_ok hehdr
  refine ⟨hprog_fits, hstrs_fits, hehdr_fits, ?_⟩
  have hlen : (pack ehdrFmt (ehdrFields insns.flatten (nameTable secname)) ++ insns.flatten ++
      nameTable secname).length = strOff insns.flatten + (nameTable secname).length := by
    rw [List.length_append, List.length_append, pack_length]
    rfl
  rw [← Except.ok.inj h, hlen]
  simp only [padding, List.append_assoc]

/-- Pieces that fit are built. -/
theorem build_of_built (h : Built secname insns.flatten blob) : build insns secname = .ok blob := by
  have hnull : packChecked shdrFmt nullShdr = .ok (pack shdrFmt nullShdr) := if_pos (by decide)
  have hlen : (pack ehdrFmt (ehdrFields insns.flatten (nameTable secname)) ++ insns.flatten ++
      nameTable secname).length = strOff insns.flatten + (nameTable secname).length := by
    rw [List.length_append, List.length_append, pack_length]
    rfl
  rw [build, hnull, packChecked, if_pos h.prog_fits, packChecked, if_pos h.strs_fits, packChecked,
    if_pos h.ehdr_fits, h.pieces]
  simp only [bind, Except.bind, pure, Except.pure, hlen]
  simp only [padding, List.append_assoc]

namespace Built

theorem ehdr_length : (pack ehdrFmt (ehdrFields text (nameTable secname))).length = 64 :=
  pack_length _

theorem front_length : (pack ehdrFmt (ehdrFields text (nameTable secname)) ++ (text ++
    (nameTable secname ++ padding text (nameTable secname)))).length =
      shOff text (nameTable secname) := by
  have hle : strOff text + (nameTable secname).length ≤ shOff text (nameTable secname) := by
    rw [shOff]
    omega
  have hehdr : calcsize ehdrFmt = 64 := rfl
  simp only [List.length_append, pack_length, padding, List.length_replicate, hehdr]
  rw [strOff] at hle ⊢
  omega

variable (h : Built secname text blob)
include h

omit h in
/-- A program section, and a table of names. -/
theorem hasType_plain {t : Nat} {bs : List Byte} (ht : t = 1 ∨ t = 3) :
    (ElfContent.plain bs).HasType t := by
  rcases ht with rfl | rfl <;> simp +decide [ElfContent.HasType]

/-- The three sections. -/
def sections : List ElfSection :=
  [.null,
    ⟨1, 1, 0x2 ||| 0x4, 0, 64, 0, 0, 8, 0, .plain text, h.prog_fits, trivial,
      hasType_plain (.inl rfl)⟩,
    ⟨offStr secname, 3, 0, 0, strOff text, 0, 0, 1, 0, .plain (nameTable secname), h.strs_fits,
      trivial, hasType_plain (.inr rfl)⟩]

theorem pieces' : blob = (pack ehdrFmt (ehdrFields text (nameTable secname)) ++ (text ++
    (nameTable secname ++ padding text (nameTable secname)))) ++ (pack shdrFmt nullShdr ++
      (pack shdrFmt (progShdr text) ++
        pack shdrFmt (strShdr secname text (nameTable secname)))) := by
  rw [h.pieces]
  simp only [List.append_assoc]

theorem readEhdr : Elf.readEhdr blob =
    .ok ⟨shOff text (nameTable secname), 64, h.sections.length, 2⟩ := by
  have hread := (@unpackFrom_pack ehdrFmt [] (text ++ (nameTable secname ++
    (padding text (nameTable secname) ++ (pack shdrFmt nullShdr ++ (pack shdrFmt (progShdr text) ++
      pack shdrFmt (strShdr secname text (nameTable secname))))))) 0)
    (ehdrFields text (nameTable secname)) h.ehdr_fits rfl
  rw [List.nil_append, ← h.pieces] at hread
  rw [Elf.readEhdr, hread]
  rfl

theorem headers (i : Nat) (hi : i < h.sections.length) :
    slice blob (shOff text (nameTable secname) + i * 64) (calcsize shdrFmt) =
      pack shdrFmt h.sections[i].words := by
  have hfront := @front_length text secname
  have hpieces := h.pieces'
  generalize pack ehdrFmt (ehdrFields text (nameTable secname)) ++ (text ++
    (nameTable secname ++ padding text (nameTable secname))) = front at hfront hpieces
  have hthree : i < 3 := hi
  rcases i with _ | _ | _ | i
  · change slice blob _ _ = pack shdrFmt nullShdr
    rw [hpieces]
    exact slice_append (by omega) (pack_length _)
  · have hlen : (front ++ pack shdrFmt nullShdr).length = shOff text (nameTable secname) + 64 := by
      rw [List.length_append, pack_length, hfront]
      rfl
    change slice blob _ _ = pack shdrFmt (progShdr text)
    rw [hpieces, ← List.append_assoc]
    exact slice_append (by omega) (pack_length _)
  · have hlen : (front ++ pack shdrFmt nullShdr ++ pack shdrFmt (progShdr text)).length =
        shOff text (nameTable secname) + 64 + 64 := by
      rw [List.length_append, List.length_append, pack_length, pack_length, hfront]
      rfl
    change slice blob _ _ = pack shdrFmt (strShdr secname text (nameTable secname))
    rw [hpieces, ← List.append_assoc, ← List.append_assoc,
      ← List.append_nil (pack shdrFmt (strShdr secname text (nameTable secname)))]
    exact slice_append (by omega) (pack_length _)
  · omega

theorem contents (s : ElfSection) (hs : s ∈ h.sections) (_ : s.type ≠ shtNobits) :
    slice blob s.offset s.content.size = s.content.bytes := by
  have hehdr := @ehdr_length text secname
  have hpieces := h.pieces
  generalize pack ehdrFmt (ehdrFields text (nameTable secname)) = ehdr at hehdr hpieces
  simp only [sections, List.mem_cons, List.not_mem_nil, or_false] at hs
  rcases hs with rfl | rfl | rfl
  · rfl
  · change slice blob 64 text.length = text
    rw [hpieces]
    exact slice_append hehdr rfl
  · have hlen : (ehdr ++ text).length = strOff text := by
      rw [List.length_append, hehdr, strOff]
    change slice blob (strOff text) (nameTable secname).length = nameTable secname
    rw [hpieces, ← List.append_assoc]
    exact slice_append hlen rfl

theorem holds : ElfLayout.Holds ⟨shOff text (nameTable secname), 64, 2⟩ blob h.sections where
  magic := by
    rw [h.pieces]
    rfl
  header := h.readEhdr
  headers := h.headers
  contents := h.contents
  names := ⟨_, rfl, show (3 : Nat) ≠ shtNobits by decide⟩

/-- Another text of the same length sits in the same place. -/
theorem replace : ∃ post, blob =
    pack ehdrFmt (ehdrFields text (nameTable secname)) ++ (text ++ post) ∧
      ∀ text', text'.length = text.length → Built secname text'
        (pack ehdrFmt (ehdrFields text (nameTable secname)) ++ (text' ++ post)) := by
  refine ⟨_, h.pieces, ?_⟩
  intro text' hlen
  have hprog : progShdr text' = progShdr text := by rw [progShdr, hlen, progShdr]
  have hoff : strOff text' = strOff text := by rw [strOff, hlen, strOff]
  have hstrs : strShdr secname text' (nameTable secname) =
      strShdr secname text (nameTable secname) := by rw [strShdr, hoff, strShdr]
  have hehdr : ehdrFields text' (nameTable secname) = ehdrFields text (nameTable secname) := by
    rw [ehdrFields, shOff, hoff, ehdrFields, shOff]
  have hpadding : padding text' (nameTable secname) = padding text (nameTable secname) := by
    rw [padding, shOff, hoff, padding, shOff]
  exact ⟨hprog ▸ h.prog_fits, hstrs ▸ h.strs_fits, hehdr ▸ h.ehdr_fits,
    by rw [hehdr, hpadding, hprog, hstrs]⟩

end Built

/-! ## Names -/

/-- Characters of one byte, none of them zero. -/
def Ascii (name : String) : Prop := ∀ c ∈ name.toList, 0 < c.toNat ∧ c.toNat < 0x80

instance decidableAscii (name : String) : Decidable (Ascii name) :=
  List.decidableBAll (fun c : Char => 0 < c.toNat ∧ c.toNat < 0x80) name.toList

def charByte (c : Char) : Byte := BitVec.ofNat 8 c.toNat

theorem encodeName_ascii {name : String} (h : Ascii name) :
    encodeName name = name.toList.map charByte := by
  have hbytes : name.toByteArray.data.toList = name.toList.flatMap String.utf8EncodeChar := by
    rw [← String.utf8Encode_toList, List.utf8Encode, List.data_toByteArray]
  have hone : ∀ c ∈ name.toList, String.utf8EncodeChar c = [c.val.toUInt8] := by
    intro c hc
    have hle : c.val ≤ 127 := by
      rw [UInt32.le_iff_toNat_le]
      have := (h c hc).2
      change c.toNat ≤ 127
      omega
    exact String.utf8EncodeChar_eq_singleton (Char.utf8Size_eq_one_iff.mpr hle)
  have hsingle : name.toList.flatMap String.utf8EncodeChar =
      name.toList.map fun c => c.val.toUInt8 := by
    rw [List.flatMap_congr hone, ← List.map_eq_flatMap]
  rw [encodeName, encode, hbytes, hsingle, List.map_map, List.map_map]
  apply List.map_congr_left
  intro c _
  change BitVec.ofNat 8 c.val.toUInt8.toNat = charByte c
  rw [UInt32.toNat_toUInt8, charByte]
  apply BitVec.eq_of_toNat_eq
  rw [BitVec.toNat_ofNat, BitVec.toNat_ofNat, Nat.mod_mod]
  rfl

theorem charByte_toNat {c : Char} (h : c.toNat < 0x80) : (charByte c).toNat = c.toNat := by
  rw [charByte, BitVec.toNat_ofNat, Nat.mod_eq_of_lt (by omega)]

/-- A name that is followed by a zero byte is read back. -/
theorem cstr_name {name : String} (h : Ascii name) (pre post : List Byte) :
    cstr (pre ++ (encodeName name ++ 0 :: post)) pre.length = name := by
  have hlen : ¬(pre ++ (encodeName name ++ 0 :: post)).length ≤ pre.length := by
    simp only [List.length_append, List.length_cons]
    omega
  have htake : (encodeName name ++ 0 :: post).takeWhile (fun b => decide (b ≠ 0)) =
      encodeName name := by
    rw [List.takeWhile_append_of_pos, List.takeWhile_cons_of_neg (by simp), List.append_nil]
    intro b hb
    rw [encodeName_ascii h] at hb
    obtain ⟨c, hc, rfl⟩ := List.mem_map.mp hb
    have hpos := (h c hc).1
    rw [decide_eq_true_iff]
    intro hzero
    rw [← charByte_toNat (h c hc).2, hzero] at hpos
    exact absurd hpos (by decide)
  have hsmall : ∀ b ∈ encodeName name, b.toNat < 0x80 := by
    intro b hb
    rw [encodeName_ascii h] at hb
    obtain ⟨c, hc, rfl⟩ := List.mem_map.mp hb
    rw [charByte_toNat (h c hc).2]
    exact (h c hc).2
  rw [cstr, if_neg hlen, List.drop_left, htake, decode_ascii hsmall, encodeName_ascii h,
    List.map_map]
  have hchars : name.toList.map ((fun b : Byte => Char.ofNat b.toNat) ∘ charByte) = name.toList := by
    conv_rhs => rw [← List.map_id name.toList]
    apply List.map_congr_left
    intro c hc
    rw [Function.comp_apply, charByte_toNat (h c hc).2, Char.ofNat_toNat]
    rfl
  rw [hchars, String.ofList_toList]

theorem encodeName_length {name : String} (h : Ascii name) :
    (encodeName name).length = name.length := by
  rw [encodeName_ascii h, List.length_map, String.length_toList]

/-- The three names in the table. -/
theorem nameTable_names (h : Ascii secname) : cstr (nameTable secname) 0 = "" ∧
    cstr (nameTable secname) 1 = secname ∧
    cstr (nameTable secname) (offStr secname) = ".shstrtab" := by
  have hfirst : nameTable secname =
      [0] ++ (encodeName secname ++ 0 :: (encodeName ".shstrtab" ++ [0])) := by
    simp [nameTable]
  have hsecond : nameTable secname =
      (0 :: encodeName secname ++ [0]) ++ (encodeName ".shstrtab" ++ 0 :: []) := by
    simp [nameTable]
  refine ⟨?_, ?_, ?_⟩
  · rw [hfirst]
    rfl
  · rw [hfirst]
    exact cstr_name h [0] _
  · have hlen : (0 :: encodeName secname ++ [0]).length = offStr secname := by
      simp only [List.length_append, List.length_cons, List.length_nil, encodeName_length h,
        offStr]
      omega
    rw [hsecond, ← hlen]
    exact cstr_name (by decide) _ _

/-! ## Reading and running -/

/-- The sections a reader finds. -/
def readSections (secname : String) (text : List Byte) : List Section :=
  [⟨0, "", 0, 0, 0, 0, 0, 0, []⟩, ⟨1, secname, 1, 6, 64, text.length, 0, 0, text⟩,
    ⟨2, ".shstrtab", 3, 0, strOff text, (nameTable secname).length, 0, 0, nameTable secname⟩]

theorem Built.init (h : Built secname text blob) (hname : Ascii secname) :
    Elf.init blob = .ok ⟨blob, readSections secname text, []⟩ := by
  obtain ⟨-, hprog, hstrs⟩ := nameTable_names hname
  have hnames : ElfLayout.names ⟨shOff text (nameTable secname), 64, 2⟩ h.sections =
      nameTable secname := rfl
  have hsections : ElfLayout.sections ⟨shOff text (nameTable secname), 64, 2⟩ h.sections =
      readSections secname text := by
    rw [ElfLayout.sections, hnames]
    change [ElfSection.toSection (nameTable secname) 0 _, ElfSection.toSection _ 1 _,
      ElfSection.toSection _ 2 _] = _
    simp only [ElfSection.toSection, hprog, hstrs]
    rfl
  rw [Elf.init_holds h.holds, hsections, ← hsections, Elf.readSymbols_holds, hsections]
  rfl

theorem decls_built (limit : Nat) (hbtf : secname ≠ ".BTF") :
    decls limit ⟨blob, readSections secname text, []⟩ = .ok [] := by
  have hnone : ∀ s ∈ readSections secname text,
      sectionDecls limit ⟨blob, readSections secname text, []⟩ s = .ok [] := by
    intro s hs
    have hname : s.name ≠ ".BTF" := by
      simp only [readSections, List.mem_cons, List.not_mem_nil, or_false] at hs
      rcases hs with rfl | rfl | rfl
      · exact (by decide : "" ≠ ".BTF")
      · exact hbtf
      · exact (by decide : ".shstrtab" ≠ ".BTF")
    have hmaps : ¬(s.name = "maps" ∧ ([] : List Sym) ≠ []) := fun h => h.2 rfl
    rw [sectionDecls, if_neg hmaps, if_neg hname]
    split <;> rfl
  rw [decls, mapM_ok hnone]
  rfl

/-- The program section is the first that holds a program. -/
theorem find?_program (htext : text ≠ []) : (readSections secname text).find? isProgram =
    some ⟨1, secname, 1, 6, 64, text.length, 0, 0, text⟩ := by
  have hlen : text.length ≠ 0 := fun hzero => htext (List.length_eq_zero_iff.mp hzero)
  rw [readSections, List.find?_cons_of_neg (by decide), List.find?_cons_of_pos]
  simp [isProgram, hlen, shfExecinstr]

variable {limit : Nat} {ctxOverride : Option CtxLayout} {ctx : CtxLayout} {is : List Insn}

/-- Whatever the maps are sized by, a pass translates the instructions. -/
theorem runPass_built (h : Built secname (is.flatMap Insn.encode) blob) (hname : Ascii secname)
    (hbtf : secname ≠ ".BTF") (hne : is ≠ []) (hmax : is.length ≤ maxInsns)
    (hctx : (ctxOverride <|> ctxLayoutFor secname) = some ctx) (slots : Nat)
    (hint : Option (String → Nat)) : runPass limit ctxOverride slots hint blob =
      translateInsns ⟨ctx, [], fun _ => none⟩ [] is := by
  have htext : is.flatMap Insn.encode ≠ [] := by
    cases is with
    | nil => exact absurd rfl hne
    | cons i is => exact fun hnil => by cases hnil
  have hlen : (is.flatMap Insn.encode).length = is.length * 8 := table_length is
  have hinsns : sectionInsns ⟨1, secname, 1, 6, 64, (is.flatMap Insn.encode).length, 0, 0,
      is.flatMap Insn.encode⟩ = is := by
    rw [sectionInsns]
    dsimp only
    rw [hlen, show INSN_SIZE = 8 from rfl, Nat.mul_div_cancel _ (by decide), ← hlen,
      List.take_length, decode_flatMap_encode]
  have hmaps : sizeMaps hint (sortMaps []) = [] := by cases hint <;> rfl
  rw [runPass, h.init hname]
  simp only [decls_built limit hbtf, bind, Except.bind]
  rw [runSection]
  dsimp only
  rw [find?_program htext]
  dsimp only
  rw [hctx]
  dsimp only
  unfold translateSection
  rw [hinsns]
  dsimp only
  rw [if_neg (by omega), insnMapIdxOf, if_neg (fun hsym => hsym rfl)]
  simp only [bind, Except.bind]
  exact congrArg (fun ms => translateInsns ⟨ctx, ms, fun _ => none⟩ [] is) hmaps

/-- A run on an object built from instructions translates them, with or without a number of
slots: the throwaway pass finds no maps. -/
theorem run_built (h : Built secname (is.flatMap Insn.encode) blob) (hname : Ascii secname)
    (hbtf : secname ≠ ".BTF") (hne : is ≠ []) (hmax : is.length ≤ maxInsns)
    (hctx : (ctxOverride <|> ctxLayoutFor secname) = some ctx) (mapSlots : Option Nat) :
    run limit ctxOverride mapSlots blob = translateInsns ⟨ctx, [], fun _ => none⟩ [] is := by
  have hpass := @runPass_built secname blob limit ctxOverride ctx is h hname hbtf hne hmax hctx
  cases mapSlots with
  | some n => exact hpass _ _
  | none =>
    rw [run, probeMapSites, hpass]
    cases htr : translateInsns ⟨ctx, [], fun _ => none⟩ [] is with
    | error e => rfl
    | ok pass =>
      simp only [bind, Except.bind, pure, Except.pure]
      rw [hpass, htr]

/-- Objects of less than four gigabytes can be built. -/
theorem build_total (hname : Ascii secname)
    (hsize : insns.flatten.length + secname.length + 100 < 2 ^ 32) :
    ∃ blob, build insns secname = .ok blob := by
  have hnames : (nameTable secname).length = secname.length + 12 := by
    have hstr : (encodeName ".shstrtab").length = 9 := by decide +kernel
    simp only [nameTable, List.length_append, List.length_cons, List.length_nil,
      encodeName_length hname, hstr]
    omega
  have hnull : packChecked shdrFmt nullShdr = .ok (pack shdrFmt nullShdr) := if_pos (by decide)
  have hprog : packChecked shdrFmt (progShdr insns.flatten) =
      .ok (pack shdrFmt (progShdr insns.flatten)) := by
    apply if_pos
    simp only [progShdr, Fits, and_true, show (0x2 ||| 0x4 : Nat) = 6 from rfl]
    omega
  have hstrs : packChecked shdrFmt (strShdr secname insns.flatten (nameTable secname)) =
      .ok (pack shdrFmt (strShdr secname insns.flatten (nameTable secname))) := by
    apply if_pos
    simp only [strShdr, Fits, offStr, strOff, and_true]
    omega
  have hehdr : packChecked ehdrFmt (ehdrFields insns.flatten (nameTable secname)) =
      .ok (pack ehdrFmt (ehdrFields insns.flatten (nameTable secname))) := by
    have hident : leNat ident < 256 ^ 16 := by decide +kernel
    apply if_pos
    simp only [ehdrFields, Fits, shOff, strOff, emBpf, and_true]
    omega
  rw [build, hnull, hprog, hstrs, hehdr]
  exact ⟨_, rfl⟩

/-- The instruction `insn` packs: registers are cut to a nibble. -/
def insnOf (code dst src : Nat) (off imm : Int) : Insn :=
  ⟨BitVec.ofNat 8 code, ⟨dst % 16, Nat.mod_lt _ (by decide)⟩, ⟨src % 16, Nat.mod_lt _ (by decide)⟩,
    BitVec.ofInt 16 off, BitVec.ofInt 32 imm⟩

/-- Values in range are packed as that instruction. -/
theorem insn_encode {code dst src : Nat} {off imm : Int} (hcode : code < 256)
    (hoff : inRange (-2 ^ 15) (2 ^ 15) off) (himm : inRange (-2 ^ 31) (2 ^ 31) imm) :
    insn code dst src off imm = .ok (insnOf code dst src off imm).encode := by
  have hcode' : (BitVec.ofNat 8 code).toNat = code := by
    rw [BitVec.toNat_ofNat, Nat.mod_eq_of_lt hcode]
  rw [insn, if_pos ⟨hcode, hoff, himm⟩]
  simp only [Insn.encode, Insn.words, Insn.regs, insnOf, hcode', BitVec.toNat_ofInt]
  rfl

/-- For every list of instructions there is an object, the reader finds in it the three
sections it was built from, the bytes of the program section decode to the list, and a run on
the object is the translation of the instructions. -/
theorem run_build (hname : Ascii secname) (hlen : secname.length < 2 ^ 31)
    (hbtf : secname ≠ ".BTF") (hne : is ≠ []) (hmax : is.length ≤ maxInsns)
    (hctx : (ctxOverride <|> ctxLayoutFor secname) = some ctx) :
    ∃ blob, build (is.map Insn.encode) secname = .ok blob ∧
      Elf.init blob = .ok ⟨blob, readSections secname (is.flatMap Insn.encode), []⟩ ∧
      decode (is.flatMap Insn.encode) = is ∧
      ∀ limit mapSlots, run limit ctxOverride mapSlots blob =
        translateInsns ⟨ctx, [], fun _ => none⟩ [] is := by
  have hflat : (is.map Insn.encode).flatten = is.flatMap Insn.encode := rfl
  have hbytes : (is.flatMap Insn.encode).length = is.length * 8 := table_length is
  have hsize : (is.map Insn.encode).flatten.length + secname.length + 100 < 2 ^ 32 := by
    rw [hflat, hbytes]
    have : maxInsns = 8192 := rfl
    omega
  obtain ⟨blob, hblob⟩ := build_total hname hsize
  have hbuilt := built_of_build hblob
  exact ⟨blob, hblob, hbuilt.init hname, decode_flatMap_encode is,
    fun _ mapSlots => run_built hbuilt hname hbtf hne hmax hctx mapSlots⟩

theorem run_build_exit : ∃ blob, build [[0x95, 0, 0, 0, 0, 0, 0, 0]] "xdp" = .ok blob ∧
    run 100 none none blob = translateInsns xdpConfig [] [⟨0x95, 0, 0, 0, 0⟩] := by
  obtain ⟨blob, hblob, -, -, hrun⟩ := @run_build "xdp" none ctxXdpMd [⟨0x95, 0, 0, 0, 0⟩] (by decide)
    (by decide) (by decide) (by decide) (by decide) rfl
  exact ⟨blob, hblob, hrun 100 none⟩

end Ect.Mkobj
