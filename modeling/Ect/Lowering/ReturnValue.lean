-- SUMMARY: Lowering preserves the return value of programs of ALU operations, jumps and wide immediates.
import Ect.Bpf.Vm
import Ect.Lowering.Registers

/-!
# Lowering preserves the return value

The programs here compute in registers alone. The emitted chain simulates the
direct interpreter: along every path, the header of each register the program
mentions holds the register's value.
-/

namespace Ect

open TransM PcMachine

/-! ## The programs -/

/-- The positions control can go to after the instruction at `k`. -/
def succs (insns : List Insn) (k : Nat) : List Int :=
  let i := insnAt insns k
  if !i.isJmp then [(k + insnSlots i : Nat)]
  else
    match i.jmpOp with
    | .exit => []
    | .ja => [jumpTarget k i]
    | _ => [jumpTarget k i, (k + 1 : Nat)]

/-- The positions some path from the first instruction leads to. -/
inductive Reach (insns : List Insn) : Int → Prop where
  | entry : Reach insns 0
  | succ {k : Nat} {j : Int} (hk : Reach insns k) (hlt : k < insns.length)
      (hj : j ∈ succs insns k) : Reach insns j

/-- No path runs off the program, so every path that ends, ends in `EXIT`. -/
def EveryPathExits (insns : List Insn) : Prop := ∀ j, Reach insns j → 0 ≤ j ∧ j < insns.length

/-- No path leaves a program whose instructions all lead back into it. -/
theorem everyPathExits_of_succs {insns : List Insn} (hpos : 0 < insns.length)
    (h : ∀ k < insns.length, ∀ j ∈ succs insns k, 0 ≤ j ∧ j < insns.length) :
    EveryPathExits insns := by
  intro j hj
  cases hj with
  | entry => omega
  | succ _ hlt hj => exact h _ hlt _ hj

/-! ## The interpreter -/

section Interpreter

variable {insns : List Insn} {i : Nat} {regs : Regs}

theorem Vm.goto_eq {k : Nat} {j : Int} (hk : (k : Int) = j) : Vm.goto j regs = .next k regs := by
  subst hk; simp [Vm.goto]

theorem Vm.step_ldImm64 (hlt : i < insns.length) (h : (insnAt insns i).isLdImm64 = true) :
    Vm.step insns i regs = .next (i + 2) (regs.set (insnAt insns i).dst (wideImm insns i)) := by
  simp only [insnAt] at h ⊢
  simp only [Vm.step, if_neg (Nat.not_le_of_lt hlt), h, if_true]

theorem Vm.step_alu {is64 : Bool} {v : BitVec 64} (hlt : i < insns.length)
    (hcls : (insnAt insns i).cls = if is64 then .alu64 else .alu)
    (hv : (insnAt insns i).aluVal is64 (regs (insnAt insns i).dst) (regs (insnAt insns i).src) =
      some v) :
    Vm.step insns i regs = .next (i + 1) (regs.set (insnAt insns i).dst v) := by
  have hld : (insnAt insns i).isLdImm64 = false :=
    Insn.isLdImm64_of_cls (by rw [hcls]; cases is64 <;> simp)
  simp only [insnAt] at hcls hv hld ⊢
  have hwide : ((insns.getD i default).cls == .alu64) = is64 := by rw [hcls]; cases is64 <;> rfl
  rw [← hwide] at hv
  cases is64 <;> simp only [Bool.false_eq_true, if_false, if_true] at hcls <;>
    simp only [Vm.step, if_neg (Nat.not_le_of_lt hlt), hld, hv, Bool.false_eq_true, if_false] <;>
    rw [hcls]

section Jump

variable (hlt : i < insns.length) (hjmp : (insnAt insns i).isJmp = true)
include hlt hjmp

theorem Vm.step_exit (hop : (insnAt insns i).jmpOp = .exit) :
    Vm.step insns i regs = .exit regs := by
  have hld := Insn.isLdImm64_eq_false_of_isJmp hjmp
  simp only [insnAt, Insn.isJmp, Bool.or_eq_true, beq_iff_eq] at hjmp hld hop
  rcases hjmp with h | h <;>
    simp only [Vm.step, if_neg (Nat.not_le_of_lt hlt), hld, h, hop, Bool.false_eq_true, if_false]

theorem Vm.step_ja (hop : (insnAt insns i).jmpOp = .ja) :
    Vm.step insns i regs = Vm.goto (jumpTarget i (insnAt insns i)) regs := by
  have hld := Insn.isLdImm64_eq_false_of_isJmp hjmp
  simp only [insnAt, Insn.isJmp, Bool.or_eq_true, beq_iff_eq] at hjmp hld hop ⊢
  rcases hjmp with h | h <;>
    simp only [Vm.step, if_neg (Nat.not_le_of_lt hlt), hld, h, hop, Bool.false_eq_true, if_false]

theorem Vm.step_cond {taken : Bool} (hja : (insnAt insns i).jmpOp ≠ .ja)
    (hexit : (insnAt insns i).jmpOp ≠ .exit) (hcall : (insnAt insns i).jmpOp ≠ .call)
    (htaken : (insnAt insns i).taken (regs (insnAt insns i).dst) (regs (insnAt insns i).src) =
      some taken) :
    Vm.step insns i regs =
      if taken then Vm.goto (jumpTarget i (insnAt insns i)) regs else .next (i + 1) regs := by
  have hld := Insn.isLdImm64_eq_false_of_isJmp hjmp
  simp only [insnAt, Insn.isJmp, Bool.or_eq_true, beq_iff_eq] at hjmp hld hja hexit hcall htaken ⊢
  rcases hjmp with h | h <;>
    simp only [Vm.step, if_neg (Nat.not_le_of_lt hlt), hld, h, htaken, Bool.false_eq_true,
      if_false]

end Jump

end Interpreter

/-! ## One step -/

section Step

variable {insns : List Insn} {c : Config} {len : Nat → Nat} {k i : Nat} {st st' : AbsState}
  {t t' : Translator} {ops : List Op} {σ σ' : State} {regs : Regs}

/-- A straight-line instruction. -/
theorem insn_step (hcore : (insnAt insns i).isCore = true) (hmaps : ∀ k, c.insnMapIdx k = none)
    (hb : Boundary insns i) (hlt : i < insns.length)
    (h : (translateOne i insns st).Accepts c t (k, st') t' ops) (hregs : RegsMatch insns regs σ) :
    ∃ regs', Vm.step insns i regs = .next (i + k) regs' ∧
      RegsMatch insns regs' (runOps len σ ops) := by
  rcases translateOne_cases h with ⟨hnop, rfl, _, _, rfl⟩ | ⟨hld, h₁⟩ | ⟨hld, rfl, hplain⟩
  · -- a jump over nothing
    simp only [Insn.isNopJump, Bool.and_eq_true, beq_iff_eq] at hnop
    obtain ⟨⟨hjmp, hja⟩, hoff⟩ := hnop
    refine ⟨regs, ?_, by simpa using hregs⟩
    rw [Vm.step_ja hlt hjmp hja]
    exact Vm.goto_eq (by simp [jumpTarget, hoff])
  · obtain ⟨_, hdst, _, rfl, rfl, rfl⟩ := translateLdImm64_const (hmaps i) h₁
    refine ⟨_, Vm.step_ldImm64 hlt hld, hregs.set ?_ ?_⟩
    · exact runOps_sameBut (by simp [setOp, Op.Into]) len σ
    · rw [runOps_cons, runOps_nil, setOp_eval (wideImm insns i).isLt]
      simp [word]
  · unfold translatePlain at hplain
    cases hcls : (insnAt insns i).cls <;>
      simp only [hcls, Insn.isCore, Bool.and_eq_true, Bool.false_eq_true, and_false] at hcore hplain
    case alu =>
      obtain ⟨v, hv, hregs'⟩ := alu_value hcls hb hlt hplain hregs
      exact ⟨_, (@Vm.step_alu _ _ _ false) hlt hcls hv, hregs'⟩
    case alu64 =>
      obtain ⟨v, hv, hregs'⟩ := alu_value hcls hb hlt hplain hregs
      exact ⟨_, (@Vm.step_alu _ _ _ true) hlt hcls hv, hregs'⟩
    case ld => rw [hld] at hcore; simp at hcore
    all_goals simp at hplain

/-- The interpreter takes the step the emitted chain takes. -/
theorem core_step {p : Point} {j : Int} {σ₁ : State} {q : Nat}
    (hcore : (insnAt insns p.idx).isCore = true) (hmaps : ∀ k, c.insnMapIdx k = none)
    (hb : Boundary insns p.idx) (hm : Moves insns c len p j st t σ₁) (hq : (q : Int) = j)
    (hregs : RegsMatch insns regs p.σ) :
    ∃ regs', Vm.step insns p.idx regs = .next q regs' ∧ RegsMatch insns regs' σ₁ ∧
      j ∈ succs insns p.idx := by
  have hlt := hm.lt
  cases hm with
  | insn h =>
    obtain ⟨hends, rfl, _⟩ := translateOne_accepts h hlt
    obtain ⟨regs', hstep, hregs'⟩ := insn_step hcore hmaps hb hlt h hregs
    refine ⟨regs', by rw [hstep]; congr; omega, hregs', ?_⟩
    cases hjmp : (insnAt insns p.idx).isJmp with
    | false => simp [succs, hjmp]
    | true =>
      -- only a jump to the next instruction does not end its block
      have hnop : (insnAt insns p.idx).isNopJump = true := by
        simpa [Insn.endsBlock, hjmp] using hends
      simp only [Insn.isNopJump, Bool.and_eq_true, beq_iff_eq] at hnop
      simp [succs, hjmp, hnop.1.2, hnop.2, jumpTarget,
        insnSlots_of_not_ldImm64 (Insn.isLdImm64_eq_false_of_isJmp hjmp)]
  | ja hends hop =>
    have hjmp := Insn.isJmp_of_endsBlock hends
    refine ⟨regs, ?_, hregs, by simp [succs, hjmp, hop]⟩
    rw [Vm.step_ja hlt hjmp hop]
    exact Vm.goto_eq hq
  | @cond e swap taken _ _ _ hbr hop h he =>
    obtain ⟨hdst, hsrc⟩ := Insn.isCore_regs hcore
    obtain ⟨htaken, hsame⟩ := cond_value hb hlt hdst hsrc hbr hop h he hregs
    simp only [Insn.branches, Bool.and_eq_true, bne_iff_ne, ne_eq] at hbr
    obtain ⟨⟨hends, hexit⟩, hcall⟩ := hbr
    have hjmp := Insn.isJmp_of_endsBlock hends
    refine ⟨regs, ?_, hregs.scratch hsame, ?_⟩
    · rw [Vm.step_cond hlt hjmp hop hexit hcall htaken]
      cases taken with
      | true => exact Vm.goto_eq hq
      | false =>
        obtain rfl : q = p.idx + 1 := by simp only [Bool.false_eq_true, if_false] at hq; omega
        rfl
    · have hsuccs : succs insns p.idx =
          [jumpTarget p.idx (insnAt insns p.idx), (p.idx + 1 : Nat)] := by
        simp [succs, hjmp]
      rw [hsuccs]
      cases taken <;> simp
  | call hends hop => exact absurd hop (Insn.isCore_not_call hcore hends)
  | arms hends hop => exact absurd hop (Insn.isCore_not_call hcore hends)

/-! ## The whole run -/

/-- The run of the interpreter along a path: it returns, and its registers are in the
headers at the end. -/
theorem core_run {p : Point} (hcore : isProgramOf Insn.isCore insns = true)
    (hmaps : ∀ k, c.insnMapIdx k = none) (hexit : EveryPathExits insns)
    (hpath : Path insns c len p σ') (hreach : Reach insns p.idx)
    (hregs : RegsMatch insns regs p.σ) :
    ∃ regs', Ends (Vm.step insns) (insns.length - p.idx) p.idx regs (.exit regs') ∧
      RegsMatch insns regs' σ' ∧ scanUsedRegs insns 0 = true := by
  induction hpath generalizing regs with
  | off h hσ =>
    obtain ⟨_, hlt⟩ := hexit _ hreach
    omega
  | @exit p σ' hb hlt hends hop hσ =>
    refine ⟨regs, ?_, hregs.sameOffPc hσ, used_of_exit hb hlt hends hop⟩
    exact (Ends.of_exit (Vm.step_exit hlt (Insn.isJmp_of_endsBlock hends) hop)).mono (by omega)
  | @hop p q j st t σ₁ σ' hb hlt hm hj hfwd hle hst hσ _ ih =>
    obtain ⟨regs₁, hstep, hregs₁, hsucc⟩ :=
      core_step (isProgramOf_at hcore hb hlt).1 hmaps hb hm hj hregs
    obtain ⟨regs', hrun, hres⟩ := ih (.succ hreach hlt (by rw [hj]; exact hsucc))
      (hregs₁.sameOffPc hσ)
    exact ⟨regs', (Ends.of_next hstep hrun).mono (by omega), hres⟩

end Step

/-- The chain emitted for an accepted program emits the low 32 bits of what the
interpreter returns. The interpreter returns within one step for each instruction
slot. -/
theorem lowering_preserves_return_value {insns : List Insn} {c : Config} {t' : Translator}
    {mods : List (List Rule)} {ops : List Op} (hcore : isProgramOf Insn.isCore insns = true)
    (hexit : EveryPathExits insns) (hmaps : ∀ k, c.insnMapIdx k = none)
    (hlen : decidePc insns.length < 2 ^ 64)
    (h : (translateProgram insns).Accepts c .init mods t' ops) (mem : Nat → Nat → Cell) :
    ∃ v, (∀ fuel, insns.length ≤ fuel → Vm.run insns fuel = some v) ∧
      ((emitProgram c mods).run mem).emit32 (emitProgram c mods).emitHdr =
        some (v.toNat % 2 ^ 32) := by
  obtain ⟨q, hidx, _, hσ, hpath⟩ := translateProgram_path
    hlen (wideSlots_of_isProgramOf hcore) h mem
  obtain ⟨regs', hrun, hregs', hused⟩ := core_run hcore hmaps hexit hpath
    (by rw [hidx]; exact .entry) ((entryRun_regsMatch mem).sameOffPc hσ)
  refine ⟨regs' 0, fun fuel hfuel => ?_, ?_⟩
  · have hres := hrun fuel (by omega)
    rw [hidx] at hres
    simp only [Vm.run, hres]
  · rw [emitProgram_run]
    exact emit32_of_regsMatch hregs' hused

/-- `r0 = 5; if r0 > 3 goto +1; r0 = 1; exit`. -/
def skipProgram : List Insn :=
  [⟨0xb7, 0, 0, 0, 5⟩, ⟨0x25, 0, 0, 1, 3⟩, ⟨0xb7, 0, 0, 0, 1⟩, ⟨0x95, 0, 0, 0, 0⟩]

theorem skipProgram_returns :
    ∃ v, (∀ fuel, 4 ≤ fuel → Vm.run skipProgram fuel = some v) ∧ ∃ mods,
      ((emitProgram xdpConfig mods).run fun _ _ => some 0).emit32
        (emitProgram xdpConfig mods).emitHdr = some (v.toNat % 2 ^ 32) := by
  obtain ⟨mods, hmods⟩ : ∃ mods, (translateProgram skipProgram).result
    xdpConfig .init = some mods :=
    ⟨_, rfl⟩
  obtain ⟨t', ops, h⟩ := accepts_of_result hmods
  obtain ⟨v, hrun, hemit⟩ := lowering_preserves_return_value (by decide)
    (everyPathExits_of_succs (by decide) (by decide)) (fun _ => rfl) (by decide) h
    (fun _ _ => some 0)
  exact ⟨v, hrun, mods, hemit⟩

end Ect
