-- SUMMARY: The random programs the tests lower: each is assembled, accepted, and lowered to a chain that emits what the interpreter returns.
import Ect.Lowering.Acceptance
import Ect.Lowering.ReturnValue
import Ect.Tests.Mkobj

/-!
# Random programs

`tests/test_lowering.py` draws instruction descriptors, assembles them between a prologue
that sets every register and an epilogue that folds them all into `r0`, and lowers the object
it builds. Every list of descriptors is assembled, the translator accepts the program, the
interpreter does not halt on it, and the chain emits what the interpreter returns.
-/

namespace Ect.TestLowering

open LittleEndian Struct Mkobj TransM PcMachine

/-! ## Descriptors -/

inductive Kind where
  | alu64 | alu32 | shift64 | shift32 | neg | end_ | jmp | jmp32 | tie | tie32 | narrow
  deriving DecidableEq, Repr

/-- `_ALU`, `_SHIFT`, `_JMP`, or `[MOV]`: the operations a kind is drawn with. -/
def Kind.ops : Kind → List Nat
  | .alu64 | .alu32 => [0x00, 0x10, 0x50, 0x40, 0xa0, 0x20, 0x30, 0x90, 0xb0]
  | .shift64 | .shift32 => [0x60, 0x70, 0xc0]
  | .jmp | .jmp32 | .tie | .tie32 =>
    [0x10, 0x50, 0x20, 0x30, 0xa0, 0xb0, 0x60, 0x70, 0xc0, 0xd0, 0x40]
  | .neg | .end_ | .narrow => [0xb0]

structure Descriptor where
  kind : Kind
  op : Nat
  dst : Nat
  src : Nat
  imm : Int
  useReg : Bool
  dist : Nat
  width : Nat
  deriving DecidableEq, Repr

/-- What `descriptors` draws. -/
structure Descriptor.Drawn (d : Descriptor) : Prop where
  op : d.op ∈ d.kind.ops
  dst : d.dst ≤ 5
  src : d.src ≤ 5
  imm : -2 ^ 31 ≤ d.imm ∧ d.imm < 2 ^ 31
  dist : 1 ≤ d.dist ∧ d.dist ≤ 6
  width : d.width ∈ [16, 32, 64]

/-! ## Assembling -/

/-- The instructions so far, and the jumps with the distances asked for. -/
structure Asm where
  body : List (List Byte)
  jumps : List (Nat × Nat)

/-- The arguments of `insn`, whose offset is 0. -/
structure Args where
  code : Nat
  dst : Nat
  src : Nat
  imm : Int
  deriving DecidableEq, Repr

/-- `body.append(insn(...))` -/
def Asm.append (a : Asm) (x : Args) : Except Exn Asm := do
  return { a with body := a.body ++ [← insn x.code x.dst x.src 0 x.imm] }

/-- `jumps.append((len(body), dist))` -/
def Asm.jump (a : Asm) (dist : Nat) : Asm := { a with jumps := a.jumps ++ [(a.body.length, dist)] }

def srcBit (useReg : Bool) : Nat := if useReg then 0x08 else 0

/-- The loop body of `assemble`. -/
def assembleOne (a : Asm) (d : Descriptor) : Except Exn Asm :=
  match d.kind with
  | .alu64 => a.append ⟨7 ||| d.op ||| srcBit d.useReg, d.dst, d.src, d.imm⟩
  | .alu32 => a.append ⟨4 ||| d.op ||| srcBit d.useReg, d.dst, d.src, d.imm⟩
  -- A 32-bit operation with a negative immediate, `-(abs(imm) or 1)`.
  | .narrow => a.append ⟨4 ||| d.op, d.dst, 0, -(if d.imm = 0 then 1 else d.imm.natAbs)⟩
  | .shift64 => a.append ⟨7 ||| d.op, d.dst, 0, d.imm⟩
  | .shift32 => a.append ⟨4 ||| d.op, d.dst, 0, d.imm⟩
  | .neg => a.append ⟨(if d.useReg then 7 else 4) ||| 0x80, d.dst, 0, 0⟩
  | .end_ =>
    a.append ⟨(if d.useReg then 7 else 4) ||| 0xd0 ||| srcBit d.useReg, d.dst, 0, d.width⟩
  | .tie | .tie32 => do
    -- Two registers set to the same value, then compared.
    let b := (d.dst + 1) % 6
    let a ← a.append ⟨7 ||| 0xb0, d.dst, 0, d.imm⟩
    let a ← a.append ⟨7 ||| 0xb0, b, 0, d.imm⟩
    (a.jump d.dist).append ⟨(if d.kind = .tie32 then 6 else 5) ||| d.op ||| 0x08, d.dst, b, 0⟩
  | .jmp | .jmp32 =>
    (a.jump d.dist).append
      ⟨(if d.kind = .jmp32 then 6 else 5) ||| d.op ||| srcBit d.useReg, d.dst, d.src, d.imm⟩

/-- A jump is patched to a target inside the body. -/
def patchJump (body : List (List Byte)) (p : Nat × Nat) : Except Exn (List (List Byte)) :=
  let off := min p.2 (body.length - p.1 - 1)
  match body[p.1]? with
  | none => .error .index
  | some old =>
    if off < 2 ^ 15 then .ok (body.set p.1 (old.take 2 ++ leBytes 2 off ++ old.drop 4))
    else .error .overflow

/-- Every register is set. -/
def prologue : List Args := (List.range 10).map fun r => ⟨7 ||| 0xb0, r, 0, r * 37 - 5⟩

/-- Every register's high half is folded down and everything xored into `r0`. -/
def epilogue : List Args :=
  ((List.range' 1 9).flatMap fun reg =>
    [⟨7 ||| 0xa0 ||| 0x08, 0, reg, 0⟩, ⟨7 ||| 0x70, reg, 0, 32⟩, ⟨7 ||| 0xa0 ||| 0x08, 0, reg, 0⟩]) ++
  [⟨7 ||| 0xb0 ||| 0x08, 9, 0, 0⟩, ⟨7 ||| 0x70, 9, 0, 32⟩, ⟨7 ||| 0xa0 ||| 0x08, 0, 9, 0⟩,
    ⟨5 ||| 0x90, 0, 0, 0⟩]

/-- `assemble(descs)`: the instructions, and how many the prologue has. -/
def assemble (descs : List Descriptor) : Except Exn (List (List Byte) × Nat) := do
  let a ← prologue.foldlM Asm.append ⟨[], []⟩
  let a ← descs.foldlM assembleOne a
  let body ← a.jumps.foldlM patchJump a.body
  let a ← epilogue.foldlM Asm.append { a with body := body }
  return (a.body, 10)

/-! ## The instructions of a body -/

/-- The instruction the arguments describe. -/
def Args.insn (x : Args) : Insn := insnOf x.code x.dst x.src 0 x.imm

/-- An instruction that computes in registers, or a conditional jump. -/
def inBody (i : Insn) : Bool :=
  i.isCore && !i.isLdImm64 && (!i.isJmp || jmpIsConditional i)

/-- `insn` packs the arguments. -/
def Args.Valid (x : Args) : Prop := x.code < 256 ∧ -2 ^ 31 ≤ x.imm ∧ x.imm < 2 ^ 31

instance decidableValid (x : Args) : Decidable x.Valid :=
  inferInstanceAs (Decidable (_ ∧ _))

theorem append_ok {x : Args} (h : x.Valid) (a : Asm) :
    a.append x = .ok { a with body := a.body ++ [x.insn.encode] } := by
  obtain ⟨hcode, hlo, hhi⟩ := h
  have himm : inRange (-2 ^ 31) (2 ^ 31) x.imm = true := by
    rw [inRange, Bool.and_eq_true, decide_eq_true_iff, decide_eq_true_iff]
    exact ⟨hlo, hhi⟩
  rw [Asm.append, insn_encode hcode (by decide) himm]
  rfl

theorem foldlM_append_ok {xs : List Args} (h : ∀ x ∈ xs, x.Valid) (a : Asm) :
    xs.foldlM Asm.append a =
      .ok { a with body := a.body ++ xs.map fun x => x.insn.encode } := by
  induction xs generalizing a with
  | nil =>
    rw [List.map_nil, List.append_nil]
    rfl
  | cons x xs ih =>
    have hx := append_ok (h x List.mem_cons_self) a
    rw [List.foldlM_cons, hx]
    change xs.foldlM Asm.append { a with body := a.body ++ [x.insn.encode] } = _
    rw [ih (fun y hy => h y (List.mem_cons_of_mem _ hy)), List.append_assoc]
    rfl

/-- Whether an ALU instruction is one depends on its opcode, but for the width of a swap. -/
theorem isCoreAlu_of_code {i : Insn} (h : Insn.isCoreAlu ⟨i.code, 0, 0, 0, 16⟩ = true)
    (hoff : i.off = 0) (hend : i.aluOp ≠ .end_ ∨ i.imm = 16 ∨ i.imm = 32 ∨ i.imm = 64) :
    i.isCoreAlu = true := by
  have hop : (⟨i.code, 0, 0, 0, 16⟩ : Insn).aluOp = i.aluOp := rfl
  have himm : (⟨i.code, 0, 0, 0, 16⟩ : Insn).isImm = i.isImm := rfl
  simp only [Insn.isCoreAlu, hop, himm, hoff, Bool.and_eq_true] at h ⊢
  refine ⟨h.1, ?_⟩
  cases ho : i.aluOp <;> simp only [ho] at h hend ⊢
  case end_ => simpa [or_assoc] using hend
  all_goals exact h.2

theorem inBody_of_code {i : Insn} (hcode : inBody ⟨i.code, 0, 0, 0, 16⟩ = true)
    (hdst : (i.dst : Nat) < numBpfRegs) (hsrc : (i.src : Nat) < numBpfRegs) (hoff : i.off = 0)
    (hend : i.isJmp = true ∨ i.aluOp ≠ .end_ ∨ i.imm = 16 ∨ i.imm = 32 ∨ i.imm = 64) :
    inBody i = true := by
  have hcls : (⟨i.code, 0, 0, 0, 16⟩ : Insn).cls = i.cls := rfl
  have hjop : (⟨i.code, 0, 0, 0, 16⟩ : Insn).jmpOp = i.jmpOp := rfl
  have hld : (⟨i.code, 0, 0, 0, 16⟩ : Insn).isLdImm64 = i.isLdImm64 := rfl
  have hjmp : (⟨i.code, 0, 0, 0, 16⟩ : Insn).isJmp = i.isJmp := rfl
  simp only [inBody, Insn.isCore, jmpIsConditional, hcls, hjop, hld, hjmp, hdst, hsrc,
    Bool.and_eq_true, decide_true, true_and] at hcode ⊢
  refine ⟨⟨?_, hcode.1.2⟩, hcode.2⟩
  obtain ⟨⟨⟨-, hcore⟩, -⟩, -⟩ := hcode
  cases hc : i.cls <;> simp only [hc] at hcore ⊢
  case alu | alu64 =>
    have hno : i.isJmp = false := by simp [Insn.isJmp, hc]
    exact isCoreAlu_of_code hcore hoff (hend.resolve_left (by simp [hno]))
  all_goals exact hcore

/-! ## What a descriptor stands for -/

/-- The opcode of its last instruction. -/
def Kind.code (k : Kind) (op : Nat) (useReg : Bool) : Nat :=
  match k with
  | .alu64 => 7 ||| op ||| srcBit useReg
  | .alu32 => 4 ||| op ||| srcBit useReg
  | .narrow | .shift32 => 4 ||| op
  | .shift64 => 7 ||| op
  | .neg => (if useReg then 7 else 4) ||| 0x80
  | .end_ => (if useReg then 7 else 4) ||| 0xd0 ||| srcBit useReg
  | .tie => 5 ||| op ||| 0x08
  | .tie32 => 6 ||| op ||| 0x08
  | .jmp => 5 ||| op ||| srcBit useReg
  | .jmp32 => 6 ||| op ||| srcBit useReg

def Kind.isJump : Kind → Bool
  | .jmp | .jmp32 | .tie | .tie32 => true
  | _ => false

/-- What is appended before the last instruction. -/
def Descriptor.lead (d : Descriptor) : List Args :=
  match d.kind with
  | .tie | .tie32 => [⟨7 ||| 0xb0, d.dst, 0, d.imm⟩, ⟨7 ||| 0xb0, (d.dst + 1) % 6, 0, d.imm⟩]
  | _ => []

/-- The last instruction. -/
def Descriptor.last (d : Descriptor) : Args where
  code := d.kind.code d.op d.useReg
  dst := d.dst
  src := match d.kind with
    | .alu64 | .alu32 | .jmp | .jmp32 => d.src
    | .tie | .tie32 => (d.dst + 1) % 6
    | _ => 0
  imm := match d.kind with
    | .neg | .tie | .tie32 => 0
    | .narrow => -(if d.imm = 0 then 1 else d.imm.natAbs)
    | .end_ => d.width
    | _ => d.imm

theorem assembleOne_eq (a : Asm) (d : Descriptor) : assembleOne a d =
    d.lead.foldlM Asm.append a >>= fun a =>
      Asm.append (if d.kind.isJump then a.jump d.dist else a) d.last := by
  obtain ⟨kind, op, dst, src, imm, useReg, dist, width⟩ := d
  cases kind
  case tie | tie32 =>
    simp only [assembleOne, Descriptor.lead, List.foldlM_cons, List.foldlM_nil, bind_assoc,
      pure_bind]
    rfl
  all_goals rfl

/-- What the opcode of a descriptor's last instruction says. -/
theorem code_facts (k : Kind) : ∀ op ∈ k.ops, ∀ useReg : Bool, let c := k.code op useReg
    c < 256 ∧ inBody ⟨BitVec.ofNat 8 c, 0, 0, 0, 16⟩ = true ∧
      (k.isJump = Insn.isJmp ⟨BitVec.ofNat 8 c, 0, 0, 0, 16⟩) ∧
      (k.isJump = true ∨ k = .end_ ∨ Insn.aluOp ⟨BitVec.ofNat 8 c, 0, 0, 0, 16⟩ ≠ .end_) := by
  cases k <;> decide

section Drawn

variable {d : Descriptor} (h : d.Drawn)
include h

theorem last_valid : d.last.Valid := by
  obtain ⟨hcode, -⟩ := code_facts d.kind d.op h.op d.useReg
  obtain ⟨hlo, hhi⟩ := h.imm
  have hwidth : d.width = 16 ∨ d.width = 32 ∨ d.width = 64 := by simpa using h.width
  refine ⟨hcode, ?_⟩
  simp only [Descriptor.last]
  cases d.kind <;> simp only
  case narrow =>
    split <;> omega
  all_goals omega

theorem last_inBody : inBody d.last.insn = true := by
  obtain ⟨-, hbody, hjump, hend⟩ := code_facts d.kind d.op h.op d.useReg
  have hdst := h.dst
  have hsrc := h.src
  apply inBody_of_code
  · exact hbody
  · change d.dst % 16 < 11
    omega
  · change d.last.src % 16 < 11
    simp only [Descriptor.last]
    cases d.kind <;> simp only <;> omega
  · rfl
  · rcases hend with hk | hk | hop
    · exact .inl (hjump.symm.trans hk)
    · have himm : d.last.imm = d.width := by simp only [Descriptor.last, hk]
      have hwidth : d.width = 16 ∨ d.width = 32 ∨ d.width = 64 := by simpa using h.width
      refine .inr (.inr ?_)
      change BitVec.ofInt 32 d.last.imm = 16 ∨ BitVec.ofInt 32 d.last.imm = 32 ∨
        BitVec.ofInt 32 d.last.imm = 64
      rw [himm]
      rcases hwidth with hw | hw | hw <;> rw [hw] <;> decide
    · exact .inr (.inl hop)

theorem mem_lead {x : Args} (hx : x ∈ d.lead) :
    x.code = 0xb7 ∧ x.dst ≤ 5 ∧ x.src = 0 ∧ x.imm = d.imm := by
  have hdst := h.dst
  have htie : x ∈ [⟨7 ||| 0xb0, d.dst, 0, d.imm⟩, ⟨7 ||| 0xb0, (d.dst + 1) % 6, 0, d.imm⟩] →
      x.code = 0xb7 ∧ x.dst ≤ 5 ∧ x.src = 0 ∧ x.imm = d.imm := by
    intro hx
    simp only [List.mem_cons, List.not_mem_nil, or_false] at hx
    rcases hx with rfl | rfl
    · exact ⟨rfl, hdst, rfl, rfl⟩
    · exact ⟨rfl, show (d.dst + 1) % 6 ≤ 5 by omega, rfl, rfl⟩
  unfold Descriptor.lead at hx
  cases hk : d.kind <;> rw [hk] at hx
  case tie | tie32 => exact htie hx
  all_goals cases hx

theorem lead_valid : ∀ x ∈ d.lead, x.Valid := by
  intro x hx
  obtain ⟨hcode, -, -, himm⟩ := mem_lead h hx
  have himm' := h.imm
  refine ⟨?_, ?_⟩
  · rw [hcode]
    decide
  · rw [himm]
    exact himm'

theorem lead_inBody : ∀ x ∈ d.lead, inBody x.insn = true := by
  intro x hx
  obtain ⟨hcode, hdst, hsrc, himm⟩ := mem_lead h hx
  have hcode' : x.insn.code = 0xb7 := by
    change BitVec.ofNat 8 x.code = _
    rw [hcode]
    rfl
  apply inBody_of_code
  · rw [hcode']
    decide
  · change x.dst % 16 < 11
    omega
  · change x.src % 16 < 11
    omega
  · rfl
  · refine .inr (.inl ?_)
    change Insn.aluOp ⟨x.insn.code, 0, 0, 0, 0⟩ ≠ .end_
    rw [hcode']
    decide

end Drawn

/-! ## The assembled program -/

/-- What has been assembled: instructions of a body, none of which jumps past its end, and
the places of jumps. -/
structure Asm.Holds (a : Asm) (is : List Insn) : Prop where
  body : a.body = is.map Insn.encode
  each : ∀ k (hk : k < is.length), inBody is[k] = true ∧ 0 ≤ is[k].off.toInt ∧
    k + 1 + is[k].off.toInt ≤ is.length
  jumps : ∀ p ∈ a.jumps, ∃ hk : p.1 < is.length, is[p.1].isJmp = true ∧ p.2 ≤ 6

theorem Asm.Holds.append {a : Asm} {is : List Insn} (h : a.Holds is) {i : Insn}
    (hi : inBody i = true) (hoff : i.off = 0) {jumps : List (Nat × Nat)}
    (hjumps : ∀ p ∈ jumps, p ∈ a.jumps ∨ p.1 = is.length ∧ i.isJmp = true ∧ p.2 ≤ 6) :
    Asm.Holds ⟨a.body ++ [i.encode], jumps⟩ (is ++ [i]) := by
  have hlen : (is ++ [i]).length = is.length + 1 := by simp
  refine ⟨by rw [h.body, List.map_append]; rfl, ?_, ?_⟩
  · intro k hk
    rw [hlen] at hk ⊢
    rcases Nat.lt_succ_iff_lt_or_eq.mp hk with hlt | rfl
    · obtain ⟨hin, hlo, hhi⟩ := h.each k hlt
      rw [List.getElem_append_left hlt]
      exact ⟨hin, hlo, by omega⟩
    · rw [List.getElem_append_right (Nat.le_refl _)]
      simp only [Nat.sub_self, List.getElem_cons_zero, hoff]
      exact ⟨hi, by decide, by simp⟩
  · intro p hp
    rcases hjumps p hp with hp | ⟨hp, hjmp, hdist⟩
    · obtain ⟨hlt, hjmp, hdist⟩ := h.jumps p hp
      refine ⟨by omega, ?_, hdist⟩
      rwa [List.getElem_append_left hlt]
    · refine ⟨by omega, ?_, hdist⟩
      simpa [hp] using hjmp

theorem foldlM_append_holds {xs : List Args} {a : Asm} {is : List Insn} (h : a.Holds is)
    (hvalid : ∀ x ∈ xs, x.Valid) (hbody : ∀ x ∈ xs, inBody x.insn = true) :
    ∃ a', xs.foldlM Asm.append a = .ok a' ∧ a'.Holds (is ++ xs.map Args.insn) := by
  induction xs generalizing a is with
  | nil => exact ⟨a, rfl, by simpa using h⟩
  | cons x xs ih =>
    have hx := append_ok (hvalid x List.mem_cons_self) a
    have hnext := h.append (hbody x List.mem_cons_self) rfl fun p (hp : p ∈ a.jumps) => .inl hp
    obtain ⟨a', hfold, ha'⟩ := ih hnext (fun y hy => hvalid y (List.mem_cons_of_mem _ hy))
      fun y hy => hbody y (List.mem_cons_of_mem _ hy)
    refine ⟨a', ?_, ?_⟩
    · rw [List.foldlM_cons, hx]
      exact hfold
    · rw [List.map_cons, List.append_cons]
      exact ha'

/-- The instructions of a descriptor, before its jump is patched. -/
def Descriptor.insns (d : Descriptor) : List Insn := d.lead.map Args.insn ++ [d.last.insn]

theorem insns_length (d : Descriptor) : 1 ≤ d.insns.length ∧ d.insns.length ≤ 3 := by
  have hlead : d.lead.length ≤ 2 := by
    unfold Descriptor.lead
    cases d.kind <;> simp
  simp only [Descriptor.insns, List.length_append, List.length_map, List.length_singleton]
  omega

theorem assembleOne_holds {a : Asm} {is : List Insn} {d : Descriptor} (h : a.Holds is)
    (hd : d.Drawn) : ∃ a', assembleOne a d = .ok a' ∧ a'.Holds (is ++ d.insns) := by
  obtain ⟨-, -, hjump, -⟩ := code_facts d.kind d.op hd.op d.useReg
  obtain ⟨a₁, hlead, ha₁⟩ := foldlM_append_holds h (lead_valid hd) (lead_inBody hd)
  have hlen : a₁.body.length = (is ++ d.lead.map Args.insn).length := by
    rw [ha₁.body, List.length_map]
  have hlast := append_ok (last_valid hd) (if d.kind.isJump then a₁.jump d.dist else a₁)
  have hbody : (if d.kind.isJump then a₁.jump d.dist else a₁).body = a₁.body := by
    split <;> rfl
  refine ⟨⟨a₁.body ++ [d.last.insn.encode],
    (if d.kind.isJump then a₁.jump d.dist else a₁).jumps⟩, ?_, ?_⟩
  · rw [assembleOne_eq, hlead]
    simp only [bind, Except.bind]
    rw [hlast, hbody]
  · rw [Descriptor.insns, ← List.append_assoc]
    refine ha₁.append (last_inBody hd) rfl fun p hp => ?_
    cases hk : d.kind.isJump with
    | false =>
      rw [hk] at hp
      exact .inl hp
    | true =>
      rw [hk] at hp
      rcases List.mem_append.mp hp with hp | hp
      · exact .inl hp
      · obtain rfl := List.mem_singleton.mp hp
        exact .inr ⟨hlen, (hk ▸ hjump).symm, hd.dist.2⟩

theorem foldlM_assembleOne_holds {descs : List Descriptor} {a : Asm} {is : List Insn}
    (h : a.Holds is) (hd : ∀ d ∈ descs, d.Drawn) :
    ∃ a', descs.foldlM assembleOne a = .ok a' ∧
      a'.Holds (is ++ descs.flatMap Descriptor.insns) := by
  induction descs generalizing a is with
  | nil => exact ⟨a, rfl, by simpa using h⟩
  | cons d descs ih =>
    obtain ⟨a₁, hone, ha₁⟩ := assembleOne_holds h (hd d List.mem_cons_self)
    obtain ⟨a', hfold, ha'⟩ := ih ha₁ fun e he => hd e (List.mem_cons_of_mem _ he)
    refine ⟨a', ?_, ?_⟩
    · rw [List.foldlM_cons, hone]
      exact hfold
    · rw [List.flatMap_cons, ← List.append_assoc]
      exact ha'

/-! ## Patching -/

/-- Replacing the third and fourth byte replaces the offset. -/
theorem encode_patched (i : Insn) {off : Nat} (h : off < 2 ^ 15) :
    i.encode.take 2 ++ leBytes 2 off ++ i.encode.drop 4 =
      Insn.encode { i with off := BitVec.ofNat 16 off } := by
  have hoff : (BitVec.ofNat 16 off).toNat = off := by
    rw [BitVec.toNat_ofNat, Nat.mod_eq_of_lt (by omega)]
  have hfields := i.encode_fields []
  have hpatched := Insn.encode_fields { i with off := BitVec.ofNat 16 off } []
  have hregs : Insn.regsByte { i with off := BitVec.ofNat 16 off } = i.regsByte := rfl
  rw [List.append_nil] at hfields hpatched
  rw [hfields, hpatched, hregs, hoff]
  rfl

theorem inBody_off {i : Insn} (hjmp : i.isJmp = true) (off : BitVec 16) (h : inBody i = true) :
    inBody { i with off := off } = true := by
  have hcls : (⟨i.code, i.dst, i.src, off, i.imm⟩ : Insn).cls = i.cls := rfl
  have hjop : (⟨i.code, i.dst, i.src, off, i.imm⟩ : Insn).jmpOp = i.jmpOp := rfl
  have hld : (⟨i.code, i.dst, i.src, off, i.imm⟩ : Insn).isLdImm64 = i.isLdImm64 := rfl
  have hjmp' : (⟨i.code, i.dst, i.src, off, i.imm⟩ : Insn).isJmp = i.isJmp := rfl
  simp only [inBody, Insn.isCore, jmpIsConditional, hcls, hjop, hld, hjmp'] at h ⊢
  simp only [Insn.isJmp, Bool.or_eq_true, beq_iff_eq] at hjmp
  rcases hjmp with hc | hc <;> simp only [hc] at h ⊢ <;> exact h

/-- What is patched keeps to the body. -/
theorem patchJump_holds {a : Asm} {is : List Insn} (h : a.Holds is) {p : Nat × Nat}
    (hp : p ∈ a.jumps) : ∃ body is', patchJump a.body p = .ok body ∧
      is'.length = is.length ∧ Asm.Holds ⟨body, a.jumps⟩ is' := by
  obtain ⟨k, dist⟩ := p
  obtain ⟨hk, hjmp, hdist⟩ := h.jumps _ hp
  dsimp only at hk hjmp hdist
  have hlen : a.body.length = is.length := by rw [h.body, List.length_map]
  have hget : a.body[k]? = some is[k].encode := by
    rw [h.body, List.getElem?_map, List.getElem?_eq_getElem hk]
    rfl
  obtain ⟨off, hoff⟩ : ∃ off, off = min dist (is.length - k - 1) := ⟨_, rfl⟩
  have hsmall : off < 2 ^ 15 := by omega
  have htoInt : (BitVec.ofNat 16 off).toInt = off := by
    have hnat : (BitVec.ofNat 16 off).toNat = off := by
      rw [BitVec.toNat_ofNat, Nat.mod_eq_of_lt (by omega)]
    rw [BitVec.toInt_eq_toNat_of_lt (by rw [hnat]; omega), hnat]
  refine ⟨a.body.set k (Insn.encode { is[k] with off := BitVec.ofNat 16 off }),
    is.set k { is[k] with off := BitVec.ofNat 16 off }, ?_, List.length_set, ?_, ?_, ?_⟩
  · rw [patchJump]
    dsimp only
    rw [hget, hlen, ← hoff]
    dsimp only
    rw [if_pos hsmall, encode_patched _ hsmall]
  · rw [h.body, List.map_set]
  · intro j hj
    rw [List.length_set] at hj ⊢
    rw [List.getElem_set]
    split
    · rename_i hkj
      subst hkj
      have hin := (h.each k hk).1
      refine ⟨inBody_off hjmp _ hin, ?_, ?_⟩
      · change 0 ≤ (BitVec.ofNat 16 off).toInt
        omega
      · change (k : Int) + 1 + (BitVec.ofNat 16 off).toInt ≤ is.length
        omega
    · exact h.each j hj
  · intro q hq
    obtain ⟨hlt, hqjmp, hqdist⟩ := h.jumps q hq
    have hq' : q.1 < (is.set k { is[k] with off := BitVec.ofNat 16 off }).length := by
      rwa [List.length_set]
    refine ⟨hq', ?_, hqdist⟩
    rw [List.getElem_set]
    split
    · rename_i hkq
      exact hjmp
    · exact hqjmp

theorem foldlM_patchJump_holds {ps : List (Nat × Nat)} {a : Asm} {is : List Insn} (h : a.Holds is)
    (hps : ∀ p ∈ ps, p ∈ a.jumps) : ∃ body is', ps.foldlM patchJump a.body = .ok body ∧
      is'.length = is.length ∧ Asm.Holds ⟨body, a.jumps⟩ is' := by
  induction ps generalizing a is with
  | nil => exact ⟨a.body, is, rfl, rfl, h⟩
  | cons p ps ih =>
    obtain ⟨body, is₁, hone, hlen₁, h₁⟩ := patchJump_holds h (hps p List.mem_cons_self)
    obtain ⟨body', is', hfold, hlen, h'⟩ := ih h₁ fun q hq => hps q (List.mem_cons_of_mem _ hq)
    refine ⟨body', is', ?_, hlen.trans hlen₁, h'⟩
    rw [List.foldlM_cons, hone]
    exact hfold

/-! ## The program -/

/-- The instructions of the epilogue. -/
def tail : List Insn := epilogue.map Args.insn

theorem assemble_ok {descs : List Descriptor} (hd : ∀ d ∈ descs, d.Drawn) :
    ∃ a is, assemble descs = .ok ((is ++ tail).map Insn.encode, 10) ∧ Asm.Holds a is ∧
      is.length ≤ 10 + 3 * descs.length := by
  have hempty : Asm.Holds ⟨[], []⟩ [] :=
    ⟨rfl, fun k hk => absurd hk (Nat.not_lt_zero k), fun p hp => by cases hp⟩
  obtain ⟨a₁, hprologue, h₁⟩ := @foldlM_append_holds prologue _ _ hempty (by decide) (by decide)
  obtain ⟨a₂, hdescs, h₂⟩ := foldlM_assembleOne_holds h₁ hd
  obtain ⟨body, is, hpatch, hlen, h₃⟩ := foldlM_patchJump_holds h₂ fun p hp => hp
  have hepilogue := @foldlM_append_ok epilogue (by decide) ⟨body, a₂.jumps⟩
  refine ⟨_, is, ?_, h₃, ?_⟩
  · rw [assemble, hprologue]
    simp only [bind, Except.bind]
    rw [hdescs]
    dsimp only
    rw [hpatch]
    dsimp only
    rw [hepilogue, h₃.body, tail, List.map_append, List.map_map]
    rfl
  · have hinsns : (descs.flatMap Descriptor.insns).length ≤ 3 * descs.length := by
      clear hdescs hd h₂ hpatch h₃ hlen
      induction descs with
      | nil => exact Nat.le_refl 0
      | cons d descs ih =>
        have := (insns_length d).2
        rw [List.flatMap_cons, List.length_append, List.length_cons]
        omega
    rw [hlen, List.nil_append, List.length_append, List.length_map]
    have : prologue.length = 10 := rfl
    omega

/-- The epilogue computes in registers and ends in an exit. -/
theorem tail_facts : ∀ k < 31, (insnAt tail k).isCore = true ∧ (insnAt tail k).isLdImm64 = false ∧
    (if k = 30 then (insnAt tail k).isJmp = true ∧ (insnAt tail k).jmpOp = .exit
      else (insnAt tail k).isJmp = false) := by
  decide +kernel

section Program

variable {a : Asm} {is : List Insn} (h : Asm.Holds a is)

theorem insnAt_body {k : Nat} (hk : k < is.length) : insnAt (is ++ tail) k = is[k] := by
  simp [insnAt, List.getD, List.getElem?_append_left hk, List.getElem?_eq_getElem hk]

theorem insnAt_tail {k : Nat} (hk : is.length ≤ k) :
    insnAt (is ++ tail) k = insnAt tail (k - is.length) := by
  simp [insnAt, List.getD, List.getElem?_append_right hk]

theorem program_length : (is ++ tail).length = is.length + 31 := List.length_append

include h

theorem program_core {k : Nat} (hk : k < (is ++ tail).length) :
    (insnAt (is ++ tail) k).isCore = true ∧ (insnAt (is ++ tail) k).isLdImm64 = false := by
  rw [program_length] at hk
  rcases Nat.lt_or_ge k is.length with hlt | hge
  · have hbody := (h.each k hlt).1
    simp only [inBody, Bool.and_eq_true, Bool.not_eq_true'] at hbody
    rw [insnAt_body hlt]
    exact hbody.1
  · obtain ⟨hcore, hld, -⟩ := tail_facts (k - is.length) (by omega)
    rw [insnAt_tail hge]
    exact ⟨hcore, hld⟩

/-- Control goes on inside the program, and forward. -/
theorem program_succs {k : Nat} (hk : k < (is ++ tail).length) {j : Int}
    (hj : j ∈ succs (is ++ tail) k) : k < j ∧ j < (is ++ tail).length := by
  have hld := (program_core h hk).2
  rw [program_length] at hk ⊢
  simp only [succs] at hj
  rcases Nat.lt_or_ge k is.length with hlt | hge
  · obtain ⟨hbody, hlo, hhi⟩ := h.each k hlt
    rw [insnAt_body hlt] at hj hld
    cases hjmp : is[k].isJmp with
    | false =>
      simp only [hjmp, Bool.not_false, if_true, List.mem_singleton] at hj
      rw [insnSlots_of_not_ldImm64 hld] at hj
      omega
    | true =>
      simp only [inBody, jmpIsConditional, hjmp, Bool.and_eq_true, Bool.not_true, Bool.false_or,
        bne_iff_ne, ne_eq, true_and] at hbody
      obtain ⟨-, ⟨hja, hexit⟩, -⟩ := hbody
      have hmem : j = jumpTarget k is[k] ∨ j = (k + 1 : Nat) := by
        simp only [hjmp, Bool.not_true, Bool.false_eq_true, if_false] at hj
        cases hop : is[k].jmpOp <;> simp_all
      rw [jumpTarget] at hmem
      omega
  · obtain ⟨-, -, hjmp⟩ := tail_facts (k - is.length) (by omega)
    rw [insnAt_tail hge] at hj hld
    split at hjmp
    · simp [hjmp.1, hjmp.2] at hj
    · simp only [hjmp, Bool.not_false, if_true, List.mem_singleton] at hj
      rw [insnSlots_of_not_ldImm64 hld] at hj
      omega

theorem program_boundary {k : Nat} (hk : k ≤ (is ++ tail).length) : Boundary (is ++ tail) k := by
  rcases boundary_or_second hk with hb | ⟨i, -, hld, rfl⟩
  · exact hb
  · rw [(program_core h (by omega)).2] at hld
    cases hld

theorem program_isCore : isProgramOf Insn.isCore (is ++ tail) = true := by
  apply List.all_eq_true.mpr
  intro k hk
  obtain ⟨hcore, hld⟩ := program_core h (mem_scan.mp hk).2
  simp [hcore, hld]

theorem program_exits : EveryPathExits (is ++ tail) := by
  apply everyPathExits_of_succs
  · rw [program_length]
    omega
  · intro k hk j hj
    have := program_succs h hk hj
    omega

theorem program_lowers {c : Config} {k : Nat} (hk : k < (is ++ tail).length) :
    Lowers (is ++ tail) c k := by
  obtain ⟨hcore, hld⟩ := program_core h hk
  refine ⟨Insn.lowers_of_isCore hcore hld _, fun hwide => ?_, fun hbr => ?_⟩
  · rw [hld] at hwide
    cases hwide
  · have hends : (insnAt (is ++ tail) k).endsBlock = true := by
      simp only [Insn.branches, Bool.and_eq_true] at hbr
      exact hbr.1.1
    have hmem : jumpTarget k (insnAt (is ++ tail) k) ∈ succs (is ++ tail) k := by
      simp only [succs, Insn.isJmp_of_endsBlock hends, Bool.not_true, Bool.false_eq_true, if_false]
      simp only [Insn.branches, Bool.and_eq_true, bne_iff_ne, ne_eq] at hbr
      cases hop : (insnAt (is ++ tail) k).jmpOp <;> simp_all
    obtain ⟨hfwd, hlt⟩ := program_succs h hk hmem
    refine ⟨(jumpTarget k (insnAt (is ++ tail) k)).toNat, program_boundary h ?_, ?_, ?_, ?_⟩ <;>
      omega

theorem program_accepted (c : Config) :
    ∃ mods t' ops, (translateProgram (is ++ tail)).Accepts c .init mods t' ops :=
  accepts_of_lowers (wideSlots_of_isProgramOf (program_isCore h))
    (fun _ _ hk => Insn.isPlain_of_isCore (program_core h hk).1) fun _ _ hk => program_lowers h hk

end Program

/-! ## The pipeline -/

/-- The chain of an accepted register program emits what the interpreter returns. -/
theorem core_emits {insns : List Insn} {c : Config} {t' : Translator} {mods : List (List Rule)}
    {ops : List Op} (hcore : isProgramOf Insn.isCore insns = true) (hexit : EveryPathExits insns)
    (hmaps : ∀ k, c.insnMapIdx k = none) (hlen : decidePc insns.length < 2 ^ 64)
    (h : (translateProgram insns).Accepts c .init mods t' ops) (mem : Nat → Nat → Cell) :
    ∃ v, (∀ fuel, insns.length ≤ fuel → Vm.run insns fuel = some v) ∧
      ((emitProgram c mods).run mem).emit32 (hReg 0) = some (v.toNat % 2 ^ 32) := by
  obtain ⟨q, hidx, -, hσ, hpath⟩ := translateProgram_path
    hlen (wideSlots_of_isProgramOf hcore) h mem
  have hreach : Reach insns q.idx := by
    rw [hidx]
    exact .entry
  obtain ⟨regs, hrun, hregs, hused⟩ := core_run hcore hmaps hexit hpath hreach
    ((entryRun_regsMatch mem).sameOffPc hσ)
  refine ⟨regs 0, fun fuel hfuel => ?_, ?_⟩
  · have hres := hrun fuel (by omega)
    rw [hidx] at hres
    simp only [Vm.run, hres]
  · rw [emitProgram_run]
    exact emit32_of_regsMatch hregs hused

/-- Every list of descriptors is assembled into a program that the translator accepts, that
the interpreter runs to its end, and whose chain emits the low 32 bits of what the interpreter
returns, whatever the regions hold. -/
theorem lowering_preserves {descs : List Descriptor} (hd : ∀ d ∈ descs, d.Drawn)
    (hlen : 41 + 3 * descs.length ≤ maxInsns) :
    ∃ blobs obj p v, assemble descs = .ok (blobs, 10) ∧ build blobs "xdp" = .ok obj ∧
      (∀ limit, ∃ pass, run limit (some ctxXdpMd) none obj = .ok pass ∧
        pass.result = .emitted p []) ∧
      p.regions = [(regionCtx, ctxXdpMd.length), (regionPkt, pktLen)] ∧
      (∀ fuel, (decode blobs.flatten).length ≤ fuel → Vm.run (decode blobs.flatten) fuel = some v) ∧
      ∀ mem, (p.run mem).emit32 p.emitHdr = some (v.toNat % 2 ^ 32) := by
  obtain ⟨a, is, hassemble, h, hshort⟩ := assemble_ok hd
  have hn : (is ++ tail).length ≤ maxInsns := by
    rw [program_length]
    omega
  have hsize : ((is ++ tail).map Insn.encode).flatten.length + "xdp".length + 100 < 2 ^ 32 := by
    change ((is ++ tail).flatMap Insn.encode).length + 3 + 100 < 2 ^ 32
    have hbytes : ((is ++ tail).flatMap Insn.encode).length = (is ++ tail).length * 8 :=
      table_length _
    have : maxInsns = 8192 := rfl
    omega
  obtain ⟨obj, hobj⟩ := build_total (by decide) hsize
  obtain ⟨mods, t, ops, hacc⟩ := program_accepted h xdpConfig
  have hpc : decidePc (is ++ tail).length < 2 ^ 64 := by
    have : maxInsns = 8192 := rfl
    simp only [decidePc]
    omega
  have hdecode : decode ((is ++ tail).map Insn.encode).flatten = is ++ tail :=
    decode_flatMap_encode _
  obtain ⟨v, hrun, -⟩ := core_emits (program_isCore h) (program_exits h) (fun _ => rfl) hpc hacc
    fun _ _ => none
  refine ⟨_, obj, emitProgram xdpConfig mods, v, hassemble, hobj, fun limit => ?_, rfl, ?_, ?_⟩
  · have hbuilt : Built "xdp" ((is ++ tail).flatMap Insn.encode) obj := built_of_build hobj
    have hne : is ++ tail ≠ [] := fun hnil => by
      have := congrArg List.length hnil
      rw [program_length] at this
      cases this
    have htranslate : translateInsns xdpConfig [] (is ++ tail) =
        .ok ⟨[], t.mapSites, .emitted (emitProgram xdpConfig mods) []⟩ := by
      have hok : translateProgram (is ++ tail) xdpConfig .init = .ok (mods, t, ⟨ops, []⟩) := hacc
      rw [translateInsns, hok]
      rfl
    exact ⟨_, (run_built hbuilt (by decide) (by decide) hne hn rfl none).trans htranslate, rfl⟩
  · intro fuel hfuel
    rw [hdecode] at hfuel ⊢
    exact hrun fuel hfuel
  · intro mem
    obtain ⟨w, hw, hemit⟩ := core_emits (program_isCore h) (program_exits h) (fun _ => rfl) hpc
      hacc mem
    have hvw := (hrun _ (Nat.le_refl _)).symm.trans (hw _ (Nat.le_refl _))
    rw [Option.some.inj hvw]
    exact hemit

/-- `r1` and `r2` set to 7 and compared, then `r2 += r3` in 32 bits. -/
def sample : List Descriptor :=
  [⟨.tie, 0xb0, 1, 0, 7, false, 3, 16⟩, ⟨.alu32, 0x00, 2, 3, 0, true, 1, 64⟩]

theorem lowering_preserves_sample : ∃ blobs obj p v, assemble sample = .ok (blobs, 10) ∧
    build blobs "xdp" = .ok obj ∧
      (∀ limit, ∃ pass, run limit (some ctxXdpMd) none obj = .ok pass ∧
        pass.result = .emitted p []) ∧
      p.regions = [(regionCtx, ctxXdpMd.length), (regionPkt, pktLen)] ∧
      (∀ fuel, (decode blobs.flatten).length ≤ fuel → Vm.run (decode blobs.flatten) fuel = some v) ∧
      ∀ mem, (p.run mem).emit32 p.emitHdr = some (v.toNat % 2 ^ 32) := by
  apply lowering_preserves
  · intro d hd
    simp only [sample, List.mem_cons, List.not_mem_nil, or_false] at hd
    rcases hd with rfl | rfl <;>
      exact ⟨by decide, by decide, by decide, by decide, by decide, by decide⟩
  · decide

end Ect.TestLowering
