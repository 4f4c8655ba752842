-- SUMMARY: The mutations the sweeps try, and that each is the same object with one instruction replaced.
import Ect.Tests.Mkobj

/-!
# Mutations

`tests/mutate.py` edits an object in place, one field of one instruction at a time. On a
built object every mutation is the object built from the list with one instruction replaced
by another, so a run on it translates that list. The generator stops early exactly where a
successor does not fit its field or a jump has no name.
-/

namespace Ect.Mutate

open LittleEndian Struct Mkobj

/-- What the generator can fail with: the reader's and `struct`'s exceptions, or a KeyError. -/
inductive Exn where
  | exn (e : Struct.Exn)
  | key
  deriving DecidableEq, Repr

/-- `ins.op`, the high nibble. -/
def op (ins : Insn) : BitVec 8 := ins.code &&& 0xf0#8

/-- `ins.size` -/
def size (ins : Insn) : BitVec 8 := ins.code &&& 0x18#8

/-! ## Tables -/

/-- `sorted(ALU_BINOP)` -/
def aluOrder : List (BitVec 8) := [0x00, 0x10, 0x20, 0x30, 0x40, 0x50, 0x90, 0xa0]

/-- `JEQ, JNE, JGT, JGE, JLT, JLE, JSGT, JSGE, JSLT, JSLE` -/
def jmpOrder : List (BitVec 8) :=
  [0x10, 0x50, 0x20, 0x30, 0xa0, 0xb0, 0x60, 0x70, 0xc0, 0xd0]

def aluOpName : List (BitVec 8 × String) :=
  [(0x00, "ADD"), (0x10, "SUB"), (0x20, "MUL"), (0x30, "DIV"), (0x40, "OR"), (0x50, "AND"),
    (0x60, "LSH"), (0x70, "RSH"), (0x80, "NEG"), (0x90, "MOD"), (0xa0, "XOR"), (0xb0, "MOV"),
    (0xc0, "ARSH"), (0xd0, "END")]

def jmpOpName : List (BitVec 8 × String) :=
  [(0x00, "JA"), (0x10, "JEQ"), (0x20, "JGT"), (0x30, "JGE"), (0x40, "JSET"), (0x50, "JNE"),
    (0x60, "JSGT"), (0x70, "JSGE"), (0x80, "CALL"), (0x90, "EXIT"), (0xa0, "JLT"), (0xb0, "JLE"),
    (0xc0, "JSLT"), (0xd0, "JSLE")]

/-- `table[k]` -/
def lookup (table : List (BitVec 8 × String)) (k : BitVec 8) : Except Exn String :=
  match table.lookup k with
  | some name => .ok name
  | none => .error .key

/-- `order[(order.index(x) + 1) % len(order)]` -/
def nextIn (order : List (BitVec 8)) (x : BitVec 8) : BitVec 8 :=
  order.getD ((order.idxOf x + 1) % order.length) 0

/-! ## Edits -/

/-- The keyword arguments of `_patch`. -/
structure Patch where
  code : Option (BitVec 8)
  regs : Option (BitVec 8)
  imm : Option Int
  joff : Option Int
  deriving DecidableEq, Repr

def patchCode (c : BitVec 8) : Patch := ⟨some c, none, none, none⟩
def patchImm (v : Int) : Patch := ⟨none, none, some v, none⟩
def patchJoff (v : Int) : Patch := ⟨none, none, none, some v⟩

/-- `%+d` -/
def signed (v : Int) : String := if 0 ≤ v then s!"+{v}" else s!"{v}"

abbrev Edit := Except Exn (String × Patch)

def immEdits (i : Nat) (ins : Insn) : List Edit :=
  if (ins.cls = .alu ∨ ins.cls = .alu64) ∧ ins.isImm ∧ op ins ≠ 0xd0#8 then
    .ok (s!"imm@{i} {ins.imm.toInt}->{ins.imm.toInt + 1}", patchImm (ins.imm.toInt + 1)) ::
      if ins.imm ≠ 0 then [.ok (s!"imm@{i} ->0", patchImm 0)] else []
  else []

def aluopEdits (i : Nat) (ins : Insn) : List Edit :=
  if (ins.cls = .alu ∨ ins.cls = .alu64) ∧ op ins ∈ aluOrder then
    let alt := nextIn aluOrder (op ins)
    [do
      let a ← lookup aluOpName (op ins)
      let b ← lookup aluOpName alt
      return (s!"aluop@{i} {a}->{b}", patchCode (ins.code &&& ~~~0xf0#8 ||| alt))]
  else []

/-- Swap the class: a 64-bit op becomes 32-bit, which zero-extends. -/
def aluwidthEdits (i : Nat) (ins : Insn) : List Edit :=
  if ins.cls = .alu ∨ ins.cls = .alu64 then
    let other := if ins.cls = .alu64 then 4#8 else 7#8
    [.ok (s!"aluwidth@{i}", patchCode (ins.code &&& ~~~0x07#8 ||| other))]
  else []

def jmpEdits (i : Nat) (ins : Insn) : List Edit :=
  if (ins.cls = .jmp ∨ ins.cls = .jmp32) ∧ op ins ∉ [0x00#8, 0x90#8, 0x80#8] then
    let alt := if op ins ∈ jmpOrder then nextIn jmpOrder (op ins) else 0x10#8
    (do
      let a ← lookup jmpOpName (op ins)
      let b ← lookup jmpOpName alt
      return (s!"jmpop@{i} {a}->{b}", patchCode (ins.code &&& ~~~0xf0#8 ||| alt))) ::
      if 1 < ins.off.toInt then
        [.ok (s!"jmpoff@{i} {signed ins.off.toInt}->{signed (ins.off.toInt - 1)}",
          patchJoff (ins.off.toInt - 1))]
      else []
  else []

/-- The first of a byte, a halfword and a word that is not the size already. -/
def otherSize (ins : Insn) : String × BitVec 8 :=
  if size ins ≠ 0x10#8 then ("W8", 0x10#8) else ("W16", 0x08#8)

def memEdits (i : Nat) (ins : Insn) : List Edit :=
  if (ins.cls = .ldx ∨ ins.cls = .stx) ∧ ins.mode = .mem then
    [.ok (s!"memwidth@{i} ->{(otherSize ins).1}",
        patchCode (ins.code &&& ~~~0x18#8 ||| (otherSize ins).2)),
      .ok (s!"memoff@{i} {signed ins.off.toInt}->{signed (ins.off.toInt + 1)}",
        patchJoff (ins.off.toInt + 1))]
  else []

/-- Delete by turning into `JA +0`. -/
def nopEdits (i : Nat) (ins : Insn) : List Edit :=
  if ins.isJmp then [] else [.ok (s!"nop@{i}", ⟨some 0x05#8, some 0, some 0, some 0⟩)]

def edits (i : Nat) (ins : Insn) : List Edit :=
  immEdits i ins ++ aluopEdits i ins ++ aluwidthEdits i ins ++ jmpEdits i ins ++ memEdits i ins ++
    nopEdits i ins

/-! ## Applying an edit -/

/-- `b[off : off + len(bs)] = bs` -/
def splice (b : List Byte) (off : Nat) (bs : List Byte) : List Byte :=
  b.take off ++ bs ++ b.drop (off + bs.length)

/-- `b[off] = v` -/
def setByte (b : List Byte) (off : Nat) (v : Byte) : Except Struct.Exn (List Byte) :=
  if off < b.length then .ok (splice b off [v]) else .error .index

/-- `struct.pack` of one signed field of `k` bytes. -/
def packSigned (k : Nat) (v : Int) : Except Struct.Exn (List Byte) :=
  if inRange (-2 ^ (8 * k - 1)) (2 ^ (8 * k - 1)) v then
    .ok (leBytes k (v % 2 ^ (8 * k)).toNat)
  else .error .struct

/-- `b[off] = v`, where `v` is given. -/
def setGiven (b : List Byte) (off : Nat) : Option Byte → Except Struct.Exn (List Byte)
  | some v => setByte b off v
  | none => .ok b

/-- `b[off : off + k] = struct.pack(..., v)`, where `v` is given. -/
def packGiven (k : Nat) (b : List Byte) (off : Nat) : Option Int → Except Struct.Exn (List Byte)
  | some v => do return splice b off (← packSigned k v)
  | none => .ok b

/-- `_patch(blob, off, ...)` -/
def patch (blob : List Byte) (off : Nat) (p : Patch) : Except Struct.Exn (List Byte) := do
  let b ← setGiven blob off p.code
  let b ← setGiven b (off + 1) p.regs
  let b ← packGiven 2 b (off + 2) p.joff
  packGiven 4 b (off + 4) p.imm

/-- Section index, byte offset and instruction count of the program. -/
def progSection (blob : List Byte) : Except Struct.Exn (Nat × Nat × Nat) := do
  let e ← Elf.init blob
  match e.sections.find? fun s => s.size ≠ 0 ∧ s.flags &&& shfExecinstr ≠ 0 with
  | some s => return (s.index, s.offset, s.size / INSN_SIZE)
  | none => throw (.value "no executable section")

/-- `bpf.decode`, which refuses a piece of an instruction. -/
def decodeWhole (bs : List Byte) : Except Struct.Exn (List Insn) :=
  if 8 ∣ bs.length then .ok (decode bs) else .error .struct

/-- What a generator yields, and what it raises after that, if it raises. -/
def collect {α : Type} : List (Except Exn α) → List α × Option Exn
  | [] => ([], none)
  | .ok a :: rest => (a :: (collect rest).1, (collect rest).2)
  | .error e :: _ => ([], some e)

/-- One edit of the instruction at `off`. -/
def applyEdit (blob : List Byte) (off : Nat) (e : Edit) : Except Exn (String × List Byte) :=
  match e with
  | .error exn => .error exn
  | .ok (name, p) =>
    match patch blob off p with
    | .ok b => .ok (name, b)
    | .error exn => .error (.exn exn)

/-- The program's offset and instructions. -/
def program (blob : List Byte) : Except Struct.Exn (Nat × List Insn) := do
  let (_, base, n) ← progSection blob
  return (base, ← decodeWhole (slice blob base (n * INSN_SIZE)))

/-- `mutations(blob)`: same length, in place, one instruction. -/
def mutations (blob : List Byte) : List (String × List Byte) × Option Exn :=
  match program blob with
  | .error e => ([], some (.exn e))
  | .ok (base, insns) => collect (insns.zipIdx.flatMap fun p =>
      (edits p.2 p.1).map (applyEdit blob (base + p.2 * INSN_SIZE)))

/-! ## What an edit does to an instruction -/

variable {pre mid post : List Byte} {off : Nat}

theorem splice_append {bs : List Byte} (hoff : pre.length = off) (hmid : mid.length = bs.length) :
    splice (pre ++ (mid ++ post)) off bs = pre ++ (bs ++ post) := by
  rw [splice, ← hoff, ← hmid, List.take_left, ← List.drop_drop, List.drop_left, List.drop_left,
    List.append_assoc]

theorem setGiven_append (b : Byte) (o : Option Byte) (hoff : pre.length = off) :
    setGiven (pre ++ ([b] ++ post)) off o = .ok (pre ++ ([o.getD b] ++ post)) := by
  cases o with
  | none => rfl
  | some v =>
    have hlt : off < (pre ++ ([b] ++ post)).length := by
      simp only [List.length_append, List.length_cons]
      omega
    have hsplice : splice (pre ++ ([b] ++ post)) off [v] = pre ++ ([v] ++ post) :=
      splice_append hoff rfl
    rw [setGiven, setByte, if_pos hlt, hsplice]
    rfl

/-- The number fits the field of `k` bytes. -/
def FitsSigned (k : Nat) (o : Option Int) : Prop :=
  ∀ v, o = some v → inRange (-2 ^ (8 * k - 1)) (2 ^ (8 * k - 1)) v = true

instance decidableFitsSigned (k : Nat) : (o : Option Int) → Decidable (FitsSigned k o)
  | none => .isTrue fun _ h => by cases h
  | some v => decidable_of_iff (inRange (-2 ^ (8 * k - 1)) (2 ^ (8 * k - 1)) v = true)
      ⟨fun h _ hv => Option.some.inj hv ▸ h, fun h => h v rfl⟩

theorem packGiven_append (k n : Nat) (o : Option Int) (hoff : pre.length = off) :
    packGiven k (pre ++ (leBytes k n ++ post)) off o =
      if FitsSigned k o then
        .ok (pre ++ (leBytes k ((o.map fun v => (BitVec.ofInt (8 * k) v).toNat).getD n) ++ post))
      else .error .struct := by
  cases o with
  | none =>
    have hnone : FitsSigned k none := fun _ h => by cases h
    rw [if_pos hnone]
    rfl
  | some v =>
    by_cases h : inRange (-2 ^ (8 * k - 1)) (2 ^ (8 * k - 1)) v = true
    · have hpack : packSigned k v = .ok (leBytes k (BitVec.ofInt (8 * k) v).toNat) := by
        rw [packSigned, if_pos h, BitVec.toNat_ofInt]
        norm_cast
      have hsplice : splice (pre ++ (leBytes k n ++ post)) off
          (leBytes k (BitVec.ofInt (8 * k) v).toNat) = _ :=
        splice_append hoff (by rw [leBytes_length, leBytes_length])
      have hfits : FitsSigned k (some v) := fun w hw => Option.some.inj hw ▸ h
      rw [if_pos hfits, packGiven, hpack]
      exact congrArg _ hsplice
    · have hfits : ¬FitsSigned k (some v) := fun hfits => h (hfits v rfl)
      rw [if_neg hfits, packGiven, packSigned, if_neg h]
      rfl

/-- Both numbers fit their fields. -/
def Patch.Fits (p : Patch) : Prop := FitsSigned 2 p.joff ∧ FitsSigned 4 p.imm

instance decidableFits (p : Patch) : Decidable p.Fits :=
  inferInstanceAs (Decidable (_ ∧ _))

/-- The instruction with the fields of the edit. -/
def Patch.on (p : Patch) (i : Insn) : Insn where
  code := p.code.getD i.code
  dst := (p.regs.map fun r => ⟨r.toNat % 16, Nat.mod_lt _ (by decide)⟩).getD i.dst
  src := (p.regs.map fun r => ⟨r.toNat / 16 % 16, Nat.mod_lt _ (by decide)⟩).getD i.src
  off := (p.joff.map (BitVec.ofInt 16)).getD i.off
  imm := (p.imm.map (BitVec.ofInt 32)).getD i.imm

theorem Patch.on_regsByte (p : Patch) (i : Insn) :
    (p.on i).regsByte = p.regs.getD i.regsByte := by
  cases hr : p.regs with
  | none => simp [Insn.regsByte, Insn.regs, Patch.on, hr]
  | some r =>
    have hlt := r.isLt
    have hnibbles : r.toNat % 16 + 16 * (r.toNat / 16 % 16) = r.toNat := by omega
    simp [Insn.regsByte, Insn.regs, Patch.on, hr, hnibbles]

/-- An edit in place is the instruction with its fields, unless a number does not fit. -/
theorem patch_insn (i : Insn) (p : Patch) (hoff : pre.length = off) :
    patch (pre ++ (i.encode ++ post)) off p =
      if p.Fits then .ok (pre ++ ((p.on i).encode ++ post)) else .error .struct := by
  have hlen (v : List Byte) (k : Nat) (hv : v.length = k) : (pre ++ v).length = off + k := by
    rw [List.length_append, hoff, hv]
  have hone (a : Byte) : (pre ++ [a]).length = off + 1 := hlen _ 1 rfl
  have htwo (a b : Byte) : (pre ++ [a] ++ [b]).length = off + 2 := by
    rw [List.append_assoc]
    exact hlen _ 2 rfl
  have hfour (a b : Byte) (n : Nat) : (pre ++ [a] ++ [b] ++ leBytes 2 n).length = off + 4 := by
    rw [List.append_assoc, List.append_assoc]
    exact hlen _ 4 (by simp)
  rw [patch, Insn.encode_fields, setGiven_append _ _ hoff]
  simp only [bind, Except.bind]
  rw [← List.append_assoc, setGiven_append _ _ (hone _)]
  simp only
  rw [← List.append_assoc, packGiven_append _ _ _ (htwo _ _)]
  by_cases hjoff : FitsSigned 2 p.joff
  · rw [if_pos hjoff]
    simp only
    rw [← List.append_assoc, packGiven_append _ _ _ (hfour _ _ _)]
    by_cases himm : FitsSigned 4 p.imm
    · rw [if_pos himm, if_pos ⟨hjoff, himm⟩, Insn.encode_fields, Patch.on_regsByte]
      cases hj : p.joff <;> cases hm : p.imm <;> simp [Patch.on, hj, hm]
    · rw [if_neg himm, if_neg fun h => himm h.2]
  · rw [if_neg hjoff, if_neg fun h => hjoff h.1]

/-! ## Every edit changes its instruction -/

variable {i : Nat} {ins : Insn} {name : String} {p : Patch}

variable {is : List Insn} {secname : String} {blob : List Byte}

theorem program_built (h : Built secname (is.flatMap Insn.encode) blob) (hname : Ascii secname)
    (hne : is ≠ []) : program blob = .ok (64, is) := by
  have hbytes : (is.flatMap Insn.encode).length = is.length * 8 := table_length is
  have hpos : is.length ≠ 0 := fun hzero => hne (List.length_eq_zero_iff.mp hzero)
  have hsec : progSection blob = .ok (1, 64, is.length) := by
    have hfind : (readSections secname (is.flatMap Insn.encode)).find?
        (fun s => decide (s.size ≠ 0 ∧ s.flags &&& shfExecinstr ≠ 0)) =
        some ⟨1, secname, 1, 6, 64, (is.flatMap Insn.encode).length, 0, 0,
          is.flatMap Insn.encode⟩ := by
      rw [readSections, List.find?_cons_of_neg (by decide), List.find?_cons_of_pos]
      simp [hbytes, hpos, shfExecinstr]
    rw [progSection, h.init hname]
    simp only [bind, Except.bind]
    rw [hfind]
    simp only [pure, Except.pure, hbytes, INSN_SIZE, Nat.mul_div_cancel _ (show 0 < 8 by decide)]
  have htext : slice blob 64 (is.length * INSN_SIZE) = is.flatMap Insn.encode := by
    have hslice := h.contents _ (List.mem_cons_of_mem _ (List.mem_cons_self)) (by simp +decide)
    change slice blob 64 (is.flatMap Insn.encode).length = is.flatMap Insn.encode at hslice
    rwa [hbytes] at hslice
  rw [program, hsec]
  simp only [bind, Except.bind]
  rw [htext, decodeWhole, if_pos (by rw [hbytes]; exact Nat.dvd_mul_left 8 _), decode_flatMap_encode]
  rfl

/-- Every instruction of a built object sits in place, and another in its stead is the object
built from the other list. -/
theorem built_set (h : Built secname (is.flatMap Insn.encode) blob) (k : Nat) (hk : k < is.length) :
    ∃ pre post, pre.length = 64 + k * 8 ∧ blob = pre ++ (is[k].encode ++ post) ∧
      ∀ i, build ((is.set k i).map Insn.encode) secname = .ok (pre ++ (i.encode ++ post)) := by
  obtain ⟨after, hblob, hreplace⟩ := h.replace
  obtain ⟨pre, post, hlen, hbytes, hset⟩ := flatMap_encode_set is k hk
  refine ⟨pack ehdrFmt (ehdrFields (is.flatMap Insn.encode) (nameTable secname)) ++ pre,
    post ++ after, ?_, ?_, ?_⟩
  · rw [List.length_append, Built.ehdr_length, hlen]
  · simpa only [hbytes, List.append_assoc] using hblob
  · intro i
    have hlength : ((is.set k i).flatMap Insn.encode).length = (is.flatMap Insn.encode).length := by
      rw [hset, hbytes]
      simp only [List.length_append, Insn.encode_length]
    have hbuilt := hreplace _ hlength
    rw [hset i] at hbuilt
    apply build_of_built
    change Built secname ((is.set k i).flatMap Insn.encode) _
    rw [hset i]
    simpa only [List.append_assoc] using hbuilt

theorem collect_raises {α : Type} (l : List (Except Exn α)) :
    (collect l).2 = none ↔ ∀ x ∈ l, ∃ a, x = .ok a := by
  induction l with
  | nil => exact iff_of_true rfl fun _ h => by cases h
  | cons x l ih =>
    cases x with
    | error e =>
      refine iff_of_false (fun h => by cases h) fun h => ?_
      obtain ⟨_, hok⟩ := h _ List.mem_cons_self
      cases hok
    | ok b =>
      rw [List.forall_mem_cons]
      exact ih.trans ⟨fun h => ⟨⟨b, rfl⟩, h⟩, fun h => h.2⟩

theorem mutations_built (h : Built secname (is.flatMap Insn.encode) blob) (hname : Ascii secname)
    (hne : is ≠ []) : mutations blob = collect (is.zipIdx.flatMap fun p =>
      (edits p.2 p.1).map (applyEdit blob (64 + p.2 * INSN_SIZE))) := by
  rw [mutations, program_built h hname hne]

/-- An object built from no instructions has no program. -/
theorem mutations_empty (h : Built secname [] blob) (hname : Ascii secname) :
    mutations blob = ([], some (.exn (.value "no executable section"))) := by
  have hfind : (readSections secname []).find?
      (fun s => decide (s.size ≠ 0 ∧ s.flags &&& shfExecinstr ≠ 0)) = none := by
    rw [List.find?_eq_none]
    simp [readSections, nameTable, shfExecinstr]
  rw [mutations, program, progSection, h.init hname]
  simp only [bind, Except.bind]
  rw [hfind]
  rfl

/-- What is applied is an edit with a label, whose numbers fit. -/
theorem applyEdit_ok {pre post : List Byte} {off : Nat} (i : Insn) (e : Edit)
    (hoff : pre.length = off) (y : String × List Byte) :
    applyEdit (pre ++ (i.encode ++ post)) off e = .ok y ↔
      ∃ p : Patch, e = .ok (y.1, p) ∧ p.Fits ∧ y.2 = pre ++ ((p.on i).encode ++ post) := by
  obtain ⟨name, b⟩ := y
  cases e with
  | error exn =>
    refine iff_of_false (fun h => by cases h) ?_
    rintro ⟨p, h, -⟩
    cases h
  | ok e =>
    obtain ⟨label, p⟩ := e
    rw [applyEdit]
    dsimp only
    rw [patch_insn i p hoff]
    by_cases hfits : p.Fits
    · rw [if_pos hfits]
      constructor
      · intro h
        cases h
        exact ⟨p, rfl, hfits, rfl⟩
      · rintro ⟨q, hq, -, rfl⟩
        cases hq
        rfl
    · rw [if_neg hfits]
      refine iff_of_false (fun h => by cases h) ?_
      rintro ⟨q, hq, hqfits, -⟩
      cases hq
      exact hfits hqfits

/-! ## Where the generator stops -/

/-- The edit has its label, and its numbers fit. -/
def Fine (e : Edit) : Prop := ∃ name p, e = .ok (name, p) ∧ p.Fits

/-- The instructions an edit of which raises: the successor of the largest immediate or
offset, and the two jumps without a name. -/
def Raises (ins : Insn) : Prop :=
  ((ins.cls = .alu ∨ ins.cls = .alu64) ∧ ins.isImm ∧ op ins ≠ 0xd0#8 ∧
      ins.imm.toInt = 2 ^ 31 - 1) ∨
    ((ins.cls = .jmp ∨ ins.cls = .jmp32) ∧ (op ins = 0xe0#8 ∨ op ins = 0xf0#8)) ∨
    ((ins.cls = .ldx ∨ ins.cls = .stx) ∧ ins.mode = .mem ∧ ins.off.toInt = 2 ^ 15 - 1)

instance decidableRaises (ins : Insn) : Decidable (Raises ins) :=
  inferInstanceAs (Decidable (_ ∨ _ ∨ _))

theorem fitsSigned_none (k : Nat) : FitsSigned k none := fun _ h => by cases h

theorem fine_patchCode {label : String} (c : BitVec 8) : Fine (.ok (label, patchCode c)) :=
  ⟨label, patchCode c, rfl, fitsSigned_none 2, fitsSigned_none 4⟩

theorem fitsSigned_some (k : Nat) (v : Int) :
    FitsSigned k (some v) ↔ -2 ^ (8 * k - 1) ≤ v ∧ v < 2 ^ (8 * k - 1) := by
  have hiff : FitsSigned k (some v) ↔
      inRange (-2 ^ (8 * k - 1)) (2 ^ (8 * k - 1)) v = true :=
    ⟨fun h => h v rfl, fun h _ hv => Option.some.inj hv ▸ h⟩
  rw [hiff, inRange, Bool.and_eq_true, decide_eq_true_iff, decide_eq_true_iff]

theorem fine_ok {label : String} {p : Patch} : Fine (.ok (label, p)) ↔ p.Fits := by
  constructor
  · rintro ⟨_, _, h, hfits⟩
    cases h
    exact hfits
  · exact fun hfits => ⟨label, p, rfl, hfits⟩

theorem fine_patchImm {label : String} {v : Int} :
    Fine (.ok (label, patchImm v)) ↔ -2 ^ 31 ≤ v ∧ v < 2 ^ 31 :=
  fine_ok.trans ⟨fun h => (fitsSigned_some 4 v).mp h.2,
    fun h => ⟨fitsSigned_none 2, (fitsSigned_some 4 v).mpr h⟩⟩

theorem fine_patchJoff {label : String} {v : Int} :
    Fine (.ok (label, patchJoff v)) ↔ -2 ^ 15 ≤ v ∧ v < 2 ^ 15 :=
  fine_ok.trans ⟨fun h => (fitsSigned_some 2 v).mp h.1,
    fun h => ⟨(fitsSigned_some 2 v).mpr h, fitsSigned_none 4⟩⟩

theorem immEdits_fine : (∀ e ∈ immEdits i ins, Fine e) ↔
    ¬((ins.cls = .alu ∨ ins.cls = .alu64) ∧ ins.isImm ∧ op ins ≠ 0xd0#8 ∧
      ins.imm.toInt = 2 ^ 31 - 1) := by
  have hlow := ins.imm.le_toInt
  have hhigh := ins.imm.toInt_lt
  rw [immEdits]
  split
  · rename_i hcond
    rw [List.forall_mem_cons, fine_patchImm]
    constructor
    · rintro ⟨hlt, -⟩ ⟨-, -, -, hmax⟩
      omega
    · intro hmax
      have hne : ins.imm.toInt ≠ 2 ^ 31 - 1 := fun heq => hmax ⟨hcond.1, hcond.2.1, hcond.2.2, heq⟩
      refine ⟨by omega, ?_⟩
      split
      · rw [List.forall_mem_singleton, fine_patchImm]
        decide
      · exact fun _ h => by cases h
  · rename_i hcond
    exact iff_of_true (fun _ h => by cases h) fun h => hcond ⟨h.1, h.2.1, h.2.2.1⟩

/-- An edit whose two operations have names. -/
theorem fine_named {a b : String} {x y : Except Exn String} (label : String → String → String)
    (c : BitVec 8) (hx : x = .ok a) (hy : y = .ok b) :
    Fine (do return (label (← x) (← y), patchCode c)) := by
  rw [hx, hy]
  exact fine_patchCode c

theorem aluOpName_order : ∀ c ∈ aluOrder, ∃ a b, lookup aluOpName c = .ok a ∧
    lookup aluOpName (nextIn aluOrder c) = .ok b := by
  simp only [aluOrder, List.forall_mem_cons]
  exact ⟨⟨_, _, rfl, rfl⟩, ⟨_, _, rfl, rfl⟩, ⟨_, _, rfl, rfl⟩, ⟨_, _, rfl, rfl⟩, ⟨_, _, rfl, rfl⟩,
    ⟨_, _, rfl, rfl⟩, ⟨_, _, rfl, rfl⟩, ⟨_, _, rfl, rfl⟩, fun _ h => by cases h⟩

theorem aluopEdits_fine : ∀ e ∈ aluopEdits i ins, Fine e := by
  rw [aluopEdits]
  split
  · rename_i hcond
    obtain ⟨a, b, ha, hb⟩ := aluOpName_order _ hcond.2
    intro e he
    obtain rfl := List.mem_singleton.mp he
    exact fine_named (fun a b => s!"aluop@{i} {a}->{b}") _ ha hb
  · exact fun _ h => by cases h

theorem aluwidthEdits_fine : ∀ e ∈ aluwidthEdits i ins, Fine e := by
  rw [aluwidthEdits]
  split
  · intro e he
    obtain rfl := List.mem_singleton.mp he
    exact fine_patchCode _
  · exact fun _ h => by cases h

/-- Of the operations of a jump only two have no name. -/
theorem jmpOpName_op : ∀ c : BitVec 8, let o := c &&& 0xf0#8
    (o ≠ 0xe0#8 ∧ o ≠ 0xf0#8 → ∃ a b, lookup jmpOpName o = .ok a ∧
      lookup jmpOpName (if o ∈ jmpOrder then nextIn jmpOrder o else 0x10#8) = .ok b) ∧
    (o = 0xe0#8 ∨ o = 0xf0#8 → lookup jmpOpName o = .error .key) := by
  have hall : ∀ c : BitVec 8, let o := c &&& 0xf0#8
      (o ≠ 0xe0#8 ∧ o ≠ 0xf0#8 → (lookup jmpOpName o).isOk ∧
        (lookup jmpOpName (if o ∈ jmpOrder then nextIn jmpOrder o else 0x10#8)).isOk) ∧
      (o = 0xe0#8 ∨ o = 0xf0#8 → lookup jmpOpName o = .error .key) := by decide +kernel
  have hok {x : Except Exn String} (h : x.isOk = true) : ∃ a, x = .ok a := by
    cases x with
    | error e => cases h
    | ok a => exact ⟨a, rfl⟩
  intro c
  refine ⟨fun h => ?_, (hall c).2⟩
  obtain ⟨ha, hb⟩ := (hall c).1 h
  obtain ⟨a, ha⟩ := hok ha
  obtain ⟨b, hb⟩ := hok hb
  exact ⟨a, b, ha, hb⟩

theorem jmpEdits_fine : (∀ e ∈ jmpEdits i ins, Fine e) ↔
    ¬((ins.cls = .jmp ∨ ins.cls = .jmp32) ∧ (op ins = 0xe0#8 ∨ op ins = 0xf0#8)) := by
  have hlow := ins.off.le_toInt
  have hhigh := ins.off.toInt_lt
  obtain ⟨hnamed, hnameless⟩ := jmpOpName_op ins.code
  rw [jmpEdits]
  split
  · rename_i hcond
    rw [List.forall_mem_cons]
    constructor
    · rintro ⟨⟨label, p, hedit, -⟩, -⟩ ⟨-, hop⟩
      rw [show lookup jmpOpName (op ins) = .error .key from hnameless hop] at hedit
      cases hedit
    · intro hop
      have hne : op ins ≠ 0xe0#8 ∧ op ins ≠ 0xf0#8 :=
        ⟨fun h => hop ⟨hcond.1, .inl h⟩, fun h => hop ⟨hcond.1, .inr h⟩⟩
      obtain ⟨a, b, ha, hb⟩ := hnamed hne
      refine ⟨fine_named (fun a b => s!"jmpop@{i} {a}->{b}") _ ha hb, ?_⟩
      split
      · rw [List.forall_mem_singleton, fine_patchJoff]
        omega
      · exact fun _ h => by cases h
  · rename_i hcond
    refine iff_of_true (fun _ h => by cases h) ?_
    rintro ⟨hcls, hop⟩
    refine hcond ⟨hcls, ?_⟩
    rcases hop with hop | hop <;> rw [hop] <;> decide

theorem memEdits_fine : (∀ e ∈ memEdits i ins, Fine e) ↔
    ¬((ins.cls = .ldx ∨ ins.cls = .stx) ∧ ins.mode = .mem ∧ ins.off.toInt = 2 ^ 15 - 1) := by
  have hlow := ins.off.le_toInt
  have hhigh := ins.off.toInt_lt
  rw [memEdits]
  split
  · rename_i hcond
    rw [List.forall_mem_cons, List.forall_mem_singleton, fine_patchJoff]
    constructor
    · rintro ⟨-, -, hlt⟩ ⟨-, -, hmax⟩
      omega
    · intro hmax
      have hne : ins.off.toInt ≠ 2 ^ 15 - 1 := fun heq => hmax ⟨hcond.1, hcond.2, heq⟩
      exact ⟨fine_patchCode _, by omega⟩
  · rename_i hcond
    exact iff_of_true (fun _ h => by cases h) fun h => hcond ⟨h.1, h.2.1⟩

theorem nopEdits_fine : ∀ e ∈ nopEdits i ins, Fine e := by
  rw [nopEdits]
  split
  · exact fun _ h => by cases h
  · intro e he
    obtain rfl := List.mem_singleton.mp he
    exact fine_ok.mpr ⟨(fitsSigned_some 2 0).mpr (by decide), (fitsSigned_some 4 0).mpr (by decide)⟩

theorem edits_fine : (∀ e ∈ edits i ins, Fine e) ↔ ¬Raises ins := by
  simp only [edits, List.forall_mem_append, immEdits_fine, jmpEdits_fine, memEdits_fine, Raises,
    not_or]
  constructor
  · rintro ⟨⟨⟨⟨⟨himm, -⟩, -⟩, hjmp⟩, hmem⟩, -⟩
    exact ⟨himm, hjmp, hmem⟩
  · rintro ⟨himm, hjmp, hmem⟩
    exact ⟨⟨⟨⟨⟨himm, aluopEdits_fine⟩, aluwidthEdits_fine⟩, hjmp⟩, hmem⟩, nopEdits_fine⟩

/-! ## Results -/

variable {ctxOverride : Option CtxLayout} {ctx : CtxLayout}

/-- The generator runs to its end exactly where there are instructions and none has an edit that
raises. -/
theorem mutations_raise (hbuild : build (is.map Insn.encode) secname = .ok blob)
    (hname : Ascii secname) : (mutations blob).2 = none ↔ is ≠ [] ∧ ∀ ins ∈ is, ¬Raises ins := by
  have hbuilt : Built secname (is.flatMap Insn.encode) blob := built_of_build hbuild
  by_cases hne : is = []
  · subst hne
    rw [mutations_empty hbuilt hname]
    simp
  have hone (k : Nat) (hk : k < is.length) :
      (∀ x ∈ (edits k is[k]).map (applyEdit blob (64 + k * INSN_SIZE)), ∃ y, x = .ok y) ↔
        ¬Raises is[k] := by
    obtain ⟨pre, post, hlen, hblob, -⟩ := built_set hbuilt k hk
    rw [List.forall_mem_map, ← @edits_fine k]
    have happly (e : Edit) :
        (∃ y, applyEdit blob (64 + k * INSN_SIZE) e = .ok y) ↔ Fine e := by
      rw [hblob]
      constructor
      · rintro ⟨y, hy⟩
        obtain ⟨p, he, hfits, -⟩ := (applyEdit_ok is[k] e hlen y).mp hy
        exact ⟨y.1, p, he, hfits⟩
      · rintro ⟨label, p, he, hfits⟩
        exact ⟨(label, _), (applyEdit_ok is[k] e hlen _).mpr ⟨p, he, hfits, rfl⟩⟩
    exact forall_congr' fun e => imp_congr_right fun _ => happly e
  rw [mutations_built hbuilt hname hne, collect_raises, and_iff_right hne]
  constructor
  · intro h ins hins
    obtain ⟨k, hk, rfl⟩ := List.getElem_of_mem hins
    apply (hone k hk).mp
    intro x hx
    refine h x (List.mem_flatMap.mpr ⟨(is[k], k), ?_, hx⟩)
    exact List.mk_mem_zipIdx_iff_getElem?.mpr (List.getElem?_eq_getElem hk)
  · intro h x hx
    obtain ⟨⟨ins, k⟩, hmem, hx⟩ := List.mem_flatMap.mp hx
    obtain ⟨hk : k < is.length, hins : ins = is[k]⟩ := List.mem_zipIdx' hmem
    subst hins
    exact (hone k hk).mpr (h _ (List.getElem_mem hk)) x hx

theorem mutations_raise_mov : ∃ blob, build [[0xb7, 0, 0, 0, 0xff, 0xff, 0xff, 0x7f]] "xdp" =
    .ok blob ∧ (mutations blob).2 ≠ none := by
  obtain ⟨blob, hblob⟩ :=
    @build_total "xdp" [[0xb7, 0, 0, 0, 0xff, 0xff, 0xff, 0x7f]] (by decide) (by decide)
  have hbuild : build ([⟨0xb7, 0, 0, 0, 0x7fffffff⟩].map Insn.encode) "xdp" = .ok blob := hblob
  refine ⟨blob, hblob, fun hnone => ?_⟩
  have hraises := ((mutations_raise hbuild (by decide)).mp hnone).2 _ List.mem_cons_self
  exact hraises (by decide)

end Ect.Mutate
