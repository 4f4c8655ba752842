-- SUMMARY: Headers that hold register values, and the value-level effect of ALU operations and conditions.
import Ect.Lowering.Cond
import Ect.Lowering.Path

/-!
# Registers

A machine's register file is matched with the headers of the registers the program
mentions. The lemmas here say, for each kind of instruction that computes on
registers alone, what an accepted lowering leaves in the headers.
-/

namespace Ect

open TransM

/-! ## Classes of programs -/

theorem Insn.cls_of_ldImm64 {i : Insn} (h : i.isLdImm64 = true) : i.cls = .ld := by
  simp only [Insn.isLdImm64, beq_iff_eq] at h
  simp [Insn.cls, h]

theorem Insn.isLdImm64_of_cls {i : Insn} (h : i.cls ≠ .ld) : i.isLdImm64 = false := by
  cases hl : i.isLdImm64 with
  | false => rfl
  | true => exact absurd (Insn.cls_of_ldImm64 hl) h

theorem Insn.isJmp_of_endsBlock {i : Insn} (h : i.endsBlock = true) : i.isJmp = true := by
  simp only [Insn.endsBlock, Bool.and_eq_true] at h
  exact h.1

/-- The operations of the ALU classes, encoded with their classic meaning. -/
def Insn.isCoreAlu (i : Insn) : Bool :=
  i.off == 0 && match i.aluOp with
    | .lsh | .rsh | .arsh => i.isImm
    | .end_ => i.imm == 16 || i.imm == 32 || i.imm == 64
    | .other => false
    | _ => true

/-- The instructions of a program that computes in `r0` to `r10` alone. -/
def Insn.isCore (i : Insn) : Bool :=
  i.dst < numBpfRegs && i.src < numBpfRegs && match i.cls with
    | .alu | .alu64 => i.isCoreAlu
    | .jmp => i.jmpOp != .call && i.jmpOp != .other
    | .jmp32 => i.jmpOp != .call && i.jmpOp != .other && i.jmpOp != .ja && i.jmpOp != .exit
    | .ld => i.isLdImm64
    | _ => false

theorem Insn.isCore_regs {i : Insn} (h : i.isCore = true) : i.dst < numBpfRegs ∧
    i.src < numBpfRegs := by
  simp only [Insn.isCore, Bool.and_eq_true, decide_eq_true_eq] at h
  exact h.1

theorem Insn.isCore_not_call {i : Insn} (h : i.isCore = true) (hends : i.endsBlock = true) :
    i.jmpOp ≠ .call := by
  have hjmp := Insn.isJmp_of_endsBlock hends
  intro hop
  simp only [Insn.isJmp, Bool.or_eq_true, beq_iff_eq] at hjmp
  rcases hjmp with hcls | hcls <;> simp [Insn.isCore, hcls, hop] at h

/-- Every instruction is of the given kind, and the second slot of a wide immediate
holds no instruction of its own. -/
def isProgramOf (ok : Insn → Bool) (insns : List Insn) : Bool :=
  (scanFrom insns insns.length 0).all fun k =>
    ok (insnAt insns k) &&
      (!(insnAt insns k).isLdImm64 || (k + 1 < insns.length && (insnAt insns (k + 1)).code == 0))

section ProgramOf

variable {ok : Insn → Bool} {insns : List Insn} {k : Nat}

theorem isProgramOf_at (h : isProgramOf ok insns = true) (hb : Boundary insns k)
    (hlt : k < insns.length) :
    ok (insnAt insns k) = true ∧ ((insnAt insns k).isLdImm64 = true →
      k + 1 < insns.length ∧ (insnAt insns (k + 1)).code = 0#8) := by
  have hk := List.all_eq_true.mp h k (mem_scan.mpr ⟨hb, hlt⟩)
  simp only [Bool.and_eq_true, Bool.or_eq_true, Bool.not_eq_true', decide_eq_true_eq,
    beq_iff_eq] at hk
  refine ⟨hk.1, fun hld => ?_⟩
  rcases hk.2 with h | h
  · rw [h] at hld; cases hld
  · exact h

theorem wideSlots_of_isProgramOf (h : isProgramOf ok insns = true) : WideSlots insns :=
  fun k hb hlt hld => ((isProgramOf_at h hb (by omega)).2 hld).2

end ProgramOf

/-! ## Registers the program mentions -/

theorem used_of_mentioned {insns : List Insn} {k r : Nat} (hb : Boundary insns k)
    (hlt : k < insns.length) (hr : r ∈ mentionedRegs (insnAt insns k)) (hreg : r < numBpfRegs) :
    scanUsedRegs insns r = true := by
  simp only [scanUsedRegs, Bool.and_eq_true, decide_eq_true_eq, Bool.or_eq_true, List.any_eq_true,
    List.contains_eq_mem]
  exact ⟨hreg, .inr ⟨k, mem_scan.mpr ⟨hb, hlt⟩, hr⟩⟩

theorem used_of_exit {insns : List Insn} {k : Nat} (hb : Boundary insns k) (hlt : k < insns.length)
    (hends : (insnAt insns k).endsBlock = true) (hop : (insnAt insns k).jmpOp = .exit) :
    scanUsedRegs insns 0 = true := by
  refine used_of_mentioned hb hlt ?_ (by decide)
  have hjmp := Insn.isJmp_of_endsBlock hends
  have hld := Insn.isLdImm64_eq_false_of_isJmp hjmp
  simp only [Insn.isJmp, Bool.or_eq_true, beq_iff_eq] at hjmp
  rcases hjmp with h | h <;> simp [mentionedRegs, hld, h, hop]

/-- The headers of the registers the program mentions hold the registers' values. -/
def RegsMatch (insns : List Insn) (regs : Regs) (σ : State) : Prop :=
  ∀ r, scanUsedRegs insns r = true → σ.hdr (hReg r) = word (regs r)

theorem RegsMatch.sameOffPc {insns : List Insn} {regs : Regs} {σ σ' : State}
    (h : RegsMatch insns regs σ) (hσ : σ.SameOffPc σ') : RegsMatch insns regs σ' := by
  intro r hr
  rw [hσ.hdr _ (hReg_ne_hPc r)]
  exact h r hr

theorem RegsMatch.set {insns : List Insn} {regs : Regs} {σ σ' : State} {d : Nat} {v : BitVec 64}
    (h : RegsMatch insns regs σ) (hσ : σ.SameBut (fun k => k = hReg d ∨ IsScratch k) σ')
    (hv : σ'.hdr (hReg d) = word v) : RegsMatch insns (regs.set d v) σ' := by
  intro r hr
  have hlt : r < numBpfRegs := by
    simp only [scanUsedRegs, Bool.and_eq_true, decide_eq_true_eq] at hr; exact hr.1
  by_cases hrd : r = d
  · subst hrd; simpa [Regs.set] using hv
  · have hkeep := hσ.hdr (hReg r) (by
      simp only [IsScratch, hReg, numBpfRegs] at hlt ⊢; omega)
    rw [hkeep, h r hr]
    simp [Regs.set, hrd]

theorem RegsMatch.scratch {insns : List Insn} {regs : Regs} {σ σ' : State}
    (h : RegsMatch insns regs σ) (hσ : σ.SameBut IsScratch σ') : RegsMatch insns regs σ' := by
  intro r hr
  have hlt : r < numBpfRegs := by
    simp only [scanUsedRegs, Bool.and_eq_true, decide_eq_true_eq] at hr; exact hr.1
  rw [hσ.hdr (hReg r) (by simp only [IsScratch, hReg, numBpfRegs] at hlt ⊢; omega)]
  exact h r hr

/-- The deparser emits the low half of `r0`. -/
theorem emit32_of_regsMatch {insns : List Insn} {regs : Regs} {σ : State}
    (h : RegsMatch insns regs σ) (hused : scanUsedRegs insns 0 = true) :
    σ.emit32 (hReg 0) = some ((regs 0).toNat % 2 ^ 32) := by
  rw [State.emit32, h 0 hused]
  simp [word, CrVal.asInt]

theorem entryRun_regsMatch {insns : List Insn} (mem : Nat → Nat → Cell) :
    RegsMatch insns (fun _ => 0) (entryRun insns mem) := by
  intro r hr
  have hpc := hReg_ne_hPc r
  simp only [hReg] at hpc
  simp [entryRun, hReg, hr, hpc, word]

/-! ## Wide immediates -/

/-- A wide immediate that no relocation names a map for loads its constant. -/
theorem translateLdImm64_const {c : Config} {t t' : Translator} {ops : List Op} {insns : List Insn}
    {idx k : Nat} {st st' : AbsState} (hmap : c.insnMapIdx idx = none)
    (h : (translateLdImm64 idx insns st).Accepts c t (k, st') t' ops) :
    let v := (wideImm insns idx).toNat
    idx + 1 < insns.length ∧ (insnAt insns idx).dst < numBpfRegs ∧ (insnAt insns idx).src = 0 ∧
      k = 2 ∧ st' = st.setReg (insnAt insns idx).dst (scalarConst v) ∧
      ops = [setOp (hReg (insnAt insns idx).dst) v] := by
  have hwide : (insnAt insns (idx + 1)).imm32 <<< 32 ||| (insnAt insns idx).imm32 =
      (wideImm insns idx).toNat := by
    simp only [wideImm, insnAt, Insn.imm32, BitVec.toNat_append]
  unfold translateLdImm64 at h
  dsimp only at h
  split at h
  · simp at h
  rename_i hlt
  obtain ⟨_, _, _, hc, _, h₁, rfl⟩ := accepts_bind.mp h
  obtain ⟨rfl, rfl, rfl⟩ := accepts_config.mp hc
  rw [hmap] at h₁
  dsimp only at h₁
  split at h₁
  · simp at h₁
  rename_i hsrc
  simp only [accepts_bind, accepts_set, accepts_writeReg, accepts_pure] at h₁
  obtain ⟨_, _, _, ⟨rfl, rfl⟩, _, ⟨_, _, _, ⟨hdst, rfl, rfl, rfl⟩, _, ⟨hr, rfl, rfl⟩, rfl⟩,
    rfl⟩ := h₁
  obtain ⟨rfl, rfl⟩ := Prod.mk.inj hr
  rw [hwide]
  exact ⟨by omega, hdst, by simpa using hsrc, rfl, rfl, by simp⟩

/-! ## Values -/

section Values

variable {insns : List Insn} {c : Config} {len : Nat → Nat} {i : Nat} {st st' : AbsState}
  {t t' : Translator} {ops : List Op} {σ : State} {regs : Regs}

/-- The header of a register the instruction mentions holds the register's value. -/
theorem RegsMatch.of_mentioned (h : RegsMatch insns regs σ) (hb : Boundary insns i)
    (hlt : i < insns.length) {r : Fin 16} (hr : r.val ∈ mentionedRegs (insnAt insns i))
    (hreg : r < numBpfRegs) : σ.hdr (hReg r) = word (regs r) :=
  h r (used_of_mentioned hb hlt hr hreg)

/-- An ALU instruction computes its value into the header of its destination. -/
theorem alu_value {is64 : Bool} (hcls : (insnAt insns i).cls = if is64 then .alu64 else .alu)
    (hb : Boundary insns i) (hlt : i < insns.length)
    (h : (translateAlu i (insnAt insns i) is64 st).Accepts c t st' t' ops)
    (hregs : RegsMatch insns regs σ) :
    ∃ v, (insnAt insns i).aluVal is64 (regs (insnAt insns i).dst) (regs (insnAt insns i).src) =
        some v ∧
      RegsMatch insns (regs.set (insnAt insns i).dst v) (runOps len σ ops) := by
  obtain ⟨hdst, hsrc, _, hops⟩ := translateAlu_accepts h
  have hmen : mentionedRegs (insnAt insns i) = if (insnAt insns i).srcX then
      [((insnAt insns i).dst : Nat), (insnAt insns i).src] else [(insnAt insns i).dst] := by
    have hld : (insnAt insns i).isLdImm64 = false :=
      Insn.isLdImm64_of_cls (by rw [hcls]; cases is64 <;> simp)
    cases is64 <;> simp only [Bool.false_eq_true, if_false, if_true] at hcls <;>
      simp only [mentionedRegs, hld, hcls, Bool.false_eq_true, if_false]
  obtain ⟨hinto, hval⟩ := aluOps_spec (x := regs (insnAt insns i).dst)
    (y := regs (insnAt insns i).src) hops
  obtain ⟨v, hv, hrun⟩ := hval σ
    (hregs.of_mentioned hb hlt (by rw [hmen]; split <;> simp) hdst)
    (fun hx => hregs.of_mentioned hb hlt (by rw [hmen, if_pos hx]; simp) hsrc)
  exact ⟨v, hv, hregs.set (runOps_sameBut hinto len σ) hrun⟩

/-- A conditional jump mentions the registers it compares. -/
theorem mentionedRegs_cond {i : Insn} (hjmp : i.isJmp = true) (hja : i.jmpOp ≠ .ja)
    (hexit : i.jmpOp ≠ .exit) (hcall : i.jmpOp ≠ .call) :
    mentionedRegs i = if i.srcX then [(i.dst : Nat), i.src] else [(i.dst : Nat)] := by
  have hld := Insn.isLdImm64_eq_false_of_isJmp hjmp
  simp only [Insn.isJmp, Bool.or_eq_true, beq_iff_eq] at hjmp
  rcases hjmp with h | h <;> simp only [mentionedRegs, hld, h, Bool.false_eq_true, if_false]

/-- A conditional jump decides on the values of its registers. -/
theorem cond_value {e : MatchEntry} {swap taken : Bool} {v : CrVal} (hb : Boundary insns i)
    (hlt : i < insns.length) (hdst : (insnAt insns i).dst < numBpfRegs)
    (hsrc : (insnAt insns i).src < numBpfRegs) (hbr : (insnAt insns i).branches = true)
    (hop : (insnAt insns i).jmpOp ≠ .ja)
    (h : (emitCondition i (insnAt insns i)).Accepts c t (some e, swap) t' ops)
    (he : e.holds ((runOps len σ ops).setHdr hPc v) = (taken != swap))
    (hregs : RegsMatch insns regs σ) :
    (insnAt insns i).taken (regs (insnAt insns i).dst) (regs (insnAt insns i).src) = some taken ∧
      σ.SameBut IsScratch (runOps len σ ops) := by
  simp only [Insn.branches, Bool.and_eq_true, bne_iff_ne, ne_eq] at hbr
  obtain ⟨⟨hends, hexit⟩, hcall⟩ := hbr
  have hmen := mentionedRegs_cond (Insn.isJmp_of_endsBlock hends) hop hexit hcall
  obtain ⟨hscr, hval⟩ := emitCondition_spec h
  obtain ⟨taken', htaken, hholds⟩ := hval σ _ (regs (insnAt insns i).dst)
    (regs (insnAt insns i).src)
    (hregs.of_mentioned hb hlt (by rw [hmen]; split <;> simp) hdst)
    (fun hx => hregs.of_mentioned hb hlt (by rw [hmen, if_pos hx]; simp) hsrc)
    (State.SameBut.setHdr _ _ rfl)
  obtain rfl : taken' = taken := by
    rw [he] at hholds; cases taken <;> cases taken' <;> cases swap <;> simp at hholds ⊢
  exact ⟨htaken, runOps_sameBut hscr len σ⟩

end Values

end Ect
