-- SUMMARY: The machine with provenance and the emitted chain run in lockstep, up to the first access outside a region.
import Ect.Lowering.Memory

/-!
# Programs with regions

Abstract provenance is sound: whatever the translator knows of a register holds of
the register's value on the machine. With that, the machine and the emitted chain
simulate each other step by step, over every path. The regions of the two may have
different lengths; the simulation lasts until an access leaves the region on either
side.
-/

namespace Ect

open TransM PcMachine LittleEndian Machine

/-! ## What abstract provenance says -/

/-- The value `v`, which comes from `p`, is one the abstract value describes. -/
def RegInfo.Describes (r : RegInfo) (p : Prov) (v : BitVec 64) : Prop :=
  match r.tag with
  | .ctx => p = .ctx ∧ (r.offKnown = true → v = BitVec.ofInt 64 r.off)
  | .pkt => p = .pkt
  | .stack => p = .stack
  | .map | .mapval => False
  | .scalar | .unknown => True

section Describes

variable {d s : RegInfo} {pd ps : Prov} {x y : BitVec 64}

theorem RegInfo.Describes.mono {r r' : RegInfo} {p : Prov} {v : BitVec 64} (h : r.Describes p v)
    (hle : r ≤ r') : r'.Describes p v := by
  by_cases hu : r'.tag = .unknown
  · simp [Describes, hu]
  · obtain ⟨htag, _⟩ := hle.tag_eq hu
    unfold Describes at h ⊢
    rw [htag]
    cases hr : r.tag <;> rw [hr] at h
    case ctx =>
      refine ⟨h.1, fun hknown => ?_⟩
      obtain ⟨hk, hoff⟩ := hle.off hknown
      rw [← hoff]
      exact h.2 hk
    all_goals exact h

theorem describes_of_scalar {r : RegInfo} {p : Prov} {v : BitVec 64} (h : r.tag = .scalar) :
    r.Describes p v := by simp [RegInfo.Describes, h]

/-- A described pointer is a pointer. -/
theorem RegInfo.Describes.isPtr (h : d.Describes pd x) (hs : d.tag ≠ .scalar)
    (hu : d.tag ≠ .unknown) : pd.isPtr = true := by
  unfold RegInfo.Describes at h
  cases htag : d.tag <;> rw [htag] at h
  case ctx => rw [h.1]; rfl
  case pkt => rw [h]; rfl
  case stack => rw [h]; rfl
  case map => exact h.elim
  case mapval => exact h.elim
  all_goals simp_all

/-- A pointer whose offset is forgotten still has its provenance. -/
theorem RegInfo.Describes.forget (h : d.Describes pd x) (v : BitVec 64) :
    ({ d with offKnown := false } : RegInfo).Describes pd v := by
  unfold RegInfo.Describes at h ⊢
  cases htag : d.tag <;> simp only [htag] at h ⊢
  case ctx => exact ⟨h.1, by simp⟩
  all_goals exact h

/-- A known offset moves with the pointer. -/
theorem RegInfo.Describes.shift (h : d.Describes pd x) (k : BitVec 32) :
    ({ d with off := d.off + k.toInt } : RegInfo).Describes pd (x + k.signExtend 64) := by
  unfold RegInfo.Describes at h ⊢
  cases htag : d.tag <;> simp only [htag] at h ⊢
  case ctx =>
    refine ⟨h.1, fun hk => ?_⟩
    rw [h.2 hk, BitVec.signExtend, BitVec.ofInt_add]
  all_goals exact h

/-- Adding an immediate. -/
theorem addImm_describes {k : BitVec 32} (hd : d.Describes pd x) :
    (addInfo true k.toInt d s).Describes pd (x + k.signExtend 64) := by
  unfold addInfo
  simp only [if_true]
  split
  · exact hd.shift k
  · split
    · exact hd.forget _
    · rename_i hs
      exact describes_of_scalar (by simpa using hs)

/-- Adding a register, when the two are not both pointers. -/
theorem addReg_describes {k : Int} (hd : d.Describes pd x) (hs : s.Describes ps y)
    (hp : ¬(pd.isPtr = true ∧ ps.isPtr = true)) (v : BitVec 64) :
    (addInfo false k d s).Describes (if pd.isPtr then pd else ps) v := by
  unfold addInfo
  simp only [Bool.false_eq_true, if_false]
  split
  · rename_i h
    by_cases hu : d.tag = .unknown
    · simp [RegInfo.Describes, hu]
    · rw [if_pos (hd.isPtr h.1 hu)]
      exact hd.forget v
  · split
    · rename_i h
      by_cases hu : s.tag = .unknown
      · simp [RegInfo.Describes, hu]
      · have hsp := hs.isPtr h.2 hu
        rw [if_neg (fun hdp => hp ⟨hdp, hsp⟩)]
        exact hs.forget v
    · exact describes_of_scalar rfl

/-- The abstract effect of an ALU instruction is sound. -/
theorem aluInfo_describes {i : Insn} {is64 : Bool} {p : Prov} {v : BitVec 64}
    (hd : d.Describes pd x) (hs : s.Describes ps y) (hp : aluProv i is64 pd ps = some p)
    (hv : i.aluVal is64 x y = some v) : (aluInfo i is64 d s).Describes p v := by
  unfold aluInfo
  split
  · rename_i hop
    split
    · exact describes_of_scalar rfl
    · rename_i htrunc
      split
      · exact describes_of_scalar rfl
      · -- a 64-bit move of a register
        rename_i himm
        have h64 : is64 = true := by cases is64 <;> simp_all
        have hx : i.srcX = true := by simpa [Insn.isImm] using himm
        subst h64
        simp only [aluProv, hop, hx, Bool.and_self, if_true, Option.some.injEq] at hp
        simp only [Insn.aluVal, hop, AluOp.val, himm, if_true, reduceCtorEq, if_false,
          Bool.false_eq_true, Option.some.injEq] at hv
        rw [← hp, ← hv]
        exact hs
  · rename_i hop
    split
    · rename_i h64
      subst h64
      simp only [aluProv, hop, Bool.not_true, Bool.false_eq_true, if_false] at hp
      simp only [Insn.aluVal, hop, AluOp.val, if_true, reduceCtorEq, if_false,
        Option.some.injEq] at hv
      cases himm : i.isImm with
      | true =>
        simp only [himm, if_true, Option.some.injEq] at hp hv
        rw [← hp, ← hv]
        exact addImm_describes hd
      | false =>
        simp only [himm, Bool.false_eq_true, if_false, Bool.and_eq_true] at hp
        split at hp
        · cases hp
        · rename_i hptr
          obtain rfl := Option.some.inj hp
          exact addReg_describes hd hs hptr v
    · exact describes_of_scalar rfl
  · exact describes_of_scalar rfl

end Describes

/-! ## The class of programs -/

/-- An instruction on registers alone, a load or store in mode `MEM`, or a packet load. -/
def Insn.isRegional (i : Insn) : Bool :=
  i.isCore || (i.dst < numBpfRegs && i.src < numBpfRegs && match i.cls with
    | .ldx | .stx | .st => i.mode == .mem
    | .ld => i.mode == .abs || i.mode == .ind
    | _ => false)

theorem Insn.isRegional_regs {i : Insn} (h : i.isRegional = true) :
    i.dst < numBpfRegs ∧ i.src < numBpfRegs := by
  simp only [Insn.isRegional, Bool.or_eq_true, Bool.and_eq_true, decide_eq_true_eq] at h
  rcases h with h | h
  · exact Insn.isCore_regs h
  · exact h.1

theorem Insn.isCore_of_jmp {i : Insn} (h : i.isRegional = true) (hjmp : i.isJmp = true) :
    i.isCore = true := by
  simp only [Insn.isRegional, Bool.or_eq_true] at h
  rcases h with h | h
  · exact h
  · simp only [Insn.isJmp, Bool.or_eq_true, beq_iff_eq] at hjmp
    rcases hjmp with hc | hc <;> simp [hc] at h

theorem Insn.isRegional_mode {i : Insn} (h : i.isRegional = true)
    (hcls : i.cls = .ldx ∨ i.cls = .stx ∨ i.cls = .st) : i.mode = .mem := by
  simp only [Insn.isRegional, Bool.or_eq_true, Insn.isCore, Bool.and_eq_true] at h
  rcases hcls with hc | hc | hc <;> simp only [hc] at h <;> simp at h <;> exact h.2

/-! ## Lockstep -/

/-- The chain holds what the machine holds, the abstract state describes it, and no
access has left the chain's regions. -/
structure Lockstep (insns : List Insn) (len : Nat → Nat) (st : AbsState) (m : Machine)
    (σ : State) : Prop where
  regs : RegsMatch insns m.regs σ
  mem : σ.mem = fun r k => some (m.mem r k)
  log : σ.log = m.log
  inRange : ∀ a ∈ m.log, ¬a.Overruns len
  sound : ∀ r, (st.reg r).Describes (m.prov r) (m.regs r)

section Lockstep

variable {insns : List Insn} {len : Nat → Nat} {st st' : AbsState} {m : Machine} {σ σ' : State}

theorem Lockstep.mono (h : Lockstep insns len st m σ) (hst : st ≤ st') (hσ : σ.SameOffPc σ') :
    Lockstep insns len st' m σ' :=
  ⟨h.regs.sameOffPc hσ, hσ.mem.trans h.mem, hσ.log.trans h.log, h.inRange,
    fun r => (h.sound r).mono (hst.1 r)⟩

theorem Lockstep.scratch (h : Lockstep insns len st m σ) (hσ : σ.SameBut IsScratch σ') :
    Lockstep insns len st m σ' :=
  ⟨h.regs.scratch hσ, hσ.mem.trans h.mem, hσ.log.trans h.log, h.inRange, h.sound⟩

/-- A register is written on both sides. -/
theorem Lockstep.setReg {d : Nat} {v : BitVec 64} {p : Prov} {info : RegInfo}
    (h : Lockstep insns len st m σ) (hσ : σ.SameBut (fun k => k = hReg d ∨ IsScratch k) σ')
    (hv : σ'.hdr (hReg d) = word v) (hinfo : info.Describes p v) :
    Lockstep insns len (st.setReg d info) (m.setReg d v p) σ' := by
  refine ⟨h.regs.set hσ hv, hσ.mem.trans h.mem, hσ.log.trans h.log, h.inRange, fun r => ?_⟩
  simp only [AbsState.setReg_reg, Machine.setReg, Regs.set]
  split
  · exact hinfo
  · exact h.sound r

/-- An access is logged on both sides. -/
theorem Lockstep.addLog {a : Access} (h : Lockstep insns len st m σ) (ha : ¬a.Overruns len) :
    Lockstep insns len st { m with log := m.log ++ [a] } (σ.addLog a) := by
  refine ⟨h.regs, h.mem, by simp [h.log], fun b hb => ?_, h.sound⟩
  rcases List.mem_append.mp hb with hb | hb
  · exact h.inRange b hb
  · rw [List.mem_singleton.mp hb]; exact ha

theorem Lockstep.setMem (h : Lockstep insns len st m σ) (r : Nat) (bytes : Nat → Byte) :
    Lockstep insns len st (m.setMem r bytes) (σ.setMem r fun k => some (bytes k)) := by
  refine ⟨h.regs, ?_, h.log, h.inRange, h.sound⟩
  funext r'
  simp only [State.setMem_mem, h.mem, Machine.setMem]
  split <;> rfl

theorem Lockstep.clobber (h : Lockstep insns len st m σ) :
    Lockstep insns len st.clobber m.clobber σ := by
  refine ⟨h.regs, h.mem, h.log, h.inRange, fun r => ?_⟩
  rw [AbsState.clobber_reg]
  simp only [Machine.clobber]
  split
  · exact describes_of_scalar rfl
  · exact h.sound r

theorem Lockstep.hdr {i : Nat} (h : Lockstep insns len st m σ) (hb : Boundary insns i)
    (hlt : i < insns.length) {r : Fin 16} (hr : r.val ∈ mentionedRegs (insnAt insns i))
    (hreg : r < numBpfRegs) : σ.hdr (hReg r) = word (m.regs r) :=
  h.regs.of_mentioned hb hlt hr hreg

/-- Both sides start alike. -/
theorem lockstep_entry (insns : List Insn) (mem : Nat → Nat → Byte) :
    Lockstep insns len entryState (Machine.entry mem)
    (entryRun insns fun r k => some (mem r k)) := by
  refine ⟨entryRun_regsMatch _, rfl, rfl, by simp [Machine.entry], fun r => ?_⟩
  simp only [entryState, AbsState.setReg_reg, Machine.entry]
  by_cases h10 : r = 10
  · simp [h10, RegInfo.Describes, pointer]
  · by_cases h1 : r = 1
    · simp [h1, RegInfo.Describes, pointer]
    · simp [h10, h1, AbsState.init, RegInfo.scalar, RegInfo.Describes]

end Lockstep

/-! ## One step of the machine -/

section MachineStep

variable {insns : List Insn} {ctx : CtxLayout} {len : Nat → Nat} {pc : Nat} {m : Machine}

theorem Machine.step_ldImm64 (hlt : pc < insns.length) (h : (insnAt insns pc).isLdImm64 = true) :
    Machine.step insns ctx len pc m =
      .next (pc + 2) (m.setReg (insnAt insns pc).dst (wideImm insns pc) .scalar) := by
  simp only [insnAt] at h ⊢
  simp only [Machine.step, if_neg (Nat.not_le_of_lt hlt), h, if_true]

/-- An instruction of one slot, by its class. -/
theorem Machine.step_plain (hlt : pc < insns.length) (h : (insnAt insns pc).isLdImm64 = false) :
    Machine.step insns ctx len pc m =
      match (insnAt insns pc).cls with
      | .alu => m.aluStep (insnAt insns pc) false pc
      | .alu64 => m.aluStep (insnAt insns pc) true pc
      | .ldx => m.ldxStep (insnAt insns pc) ctx len pc
      | .stx => m.storeStep (insnAt insns pc) true len pc
      | .st => m.storeStep (insnAt insns pc) false len pc
      | .ld => m.ldPktStep (insnAt insns pc) len pc
      | .jmp | .jmp32 => m.jmpStep (insnAt insns pc) pc := by
  have hld : ¬(insns.getD pc default).isLdImm64 = true := by simpa [insnAt] using h
  unfold Machine.step
  rw [if_neg (Nat.not_le_of_lt hlt)]
  exact if_neg hld

theorem Machine.step_jmp (hlt : pc < insns.length) (hjmp : (insnAt insns pc).isJmp = true) :
    Machine.step insns ctx len pc m = m.jmpStep (insnAt insns pc) pc := by
  rw [Machine.step_plain hlt (Insn.isLdImm64_eq_false_of_isJmp hjmp)]
  simp only [Insn.isJmp, Bool.or_eq_true, beq_iff_eq] at hjmp
  rcases hjmp with h | h <;> rw [h]

theorem Machine.step_cond {taken : Bool} (hlt : pc < insns.length)
    (hbr : (insnAt insns pc).branches = true) (hja : (insnAt insns pc).jmpOp ≠ .ja)
    (htaken : (insnAt insns pc).taken (m.regs (insnAt insns pc).dst)
      (m.regs (insnAt insns pc).src) = some taken) :
    Machine.step insns ctx len pc m =
      if m.readsClobbered (jmpReads (insnAt insns pc)) then .stop .fault
      else if taken then Machine.goto (jumpTarget pc (insnAt insns pc)) m else
      .next (pc + 1) m := by
  simp only [Insn.branches, Bool.and_eq_true, bne_iff_ne, ne_eq] at hbr
  obtain ⟨⟨hends, hexit⟩, hcall⟩ := hbr
  rw [Machine.step_jmp hlt (Insn.isJmp_of_endsBlock hends)]
  simp only [Machine.jmpStep, htaken]

theorem Machine.goto_eq {k : Nat} {j : Int} (hk : (k : Int) = j) :
    Machine.goto j m = .next k m := by
  subst hk; simp [Machine.goto]

end MachineStep

/-! ## One step of both -/

/-- What a step of the machine at `pc` and the step of the chain to `σ₁` do, when the
chain goes on at `q`. -/
inductive StepSim (insns : List Insn) (ctx : CtxLayout) (len lenM : Nat → Nat) (pc : Nat)
    (m : Machine) (q : Nat) (st : AbsState) (σ₁ : State) : Prop where
  | next {m' : Machine} (hstep : Machine.step insns ctx lenM pc m = .next q m')
      (hsim : Lockstep insns len st m' σ₁)
  | fault (hstep : Machine.step insns ctx lenM pc m = .stop .fault)
  | narrow (h : NarrowFieldLoad insns ctx pc m)
  /-- The same access, which leaves the machine's region. -/
  | overrun {a : Access} (ha : a.Overruns lenM) (hlog : σ₁.log = m.log ++ [a])
      (hstep : Machine.step insns ctx lenM pc m = .stop (.overrun (m.log ++ [a])))
  /-- The same access, which leaves the chain's region only. -/
  | passed {a : Access} {m' : Machine} (ha : a.Overruns len) (hlog : σ₁.log = m.log ++ [a])
      (hlog' : m'.log = m.log ++ [a]) (hstep : Machine.step insns ctx lenM pc m = .next q m')

section StepSim

variable {insns : List Insn} {c : Config} {len lenM : Nat → Nat} {i : Nat} {m : Machine}
  {st st' : AbsState} {t t' : Translator} {ops : List Op} {σ : State}

/-- Both sides make the access `a`. -/
theorem StepSim.of_access {ctx : CtxLayout} {q : Nat} {a : Access} {m' : Machine} {σ₁ : State}
    {k : Machine → Step Machine Halt}
    (hstep : Machine.step insns ctx lenM i m = m.access lenM a k)
    (hk : k { m with log := m.log ++ [a] } = .next q m') (hlog : σ₁.log = m.log ++ [a])
    (hlog' : m'.log = m.log ++ [a]) (hsim : ¬a.Overruns len → Lockstep insns len st m' σ₁) :
    StepSim insns ctx len lenM i m q st σ₁ := by
  unfold Machine.access at hstep
  by_cases hM : a.Overruns lenM
  · rw [if_pos hM] at hstep
    exact .overrun hM hlog hstep
  · rw [if_neg hM, hk] at hstep
    by_cases hC : a.Overruns len
    · exact .passed hC hlog hlog' hstep
    · exact .next hstep (hsim hC)

/-- The abstract effect of a load is sound, but for a packet field that is not loaded
as a word. -/
theorem ldxInfo_describes {base : RegInfo} {v : BitVec 64} (hcls : (insnAt insns i).cls = .ldx)
    (hin : CtxInRange c base (insnAt insns i).off.toInt (insnAt insns i).width.bytes)
    (hbase : base.Describes (m.prov (insnAt insns i).src) (m.regs (insnAt insns i).src))
    (hwide : ¬NarrowFieldLoad insns c.ctx i m) :
    (ldxInfo c.ctx (insnAt insns i) base).Describes
      (loadProv c.ctx ⟨false, regionOf c.maps base,
        address (m.regs (insnAt insns i).src) (insnAt insns i),
        (insnAt insns i).width.bytes⟩) v := by
  unfold ldxInfo
  split
  · rename_i hfield
    obtain ⟨htag, hknown, hoff⟩ := hfield
    obtain ⟨h0, hle⟩ := hin htag hknown
    have hctx := c.ctx.length_lt
    simp only [RegInfo.Describes, htag] at hbase
    have haddr : (address (m.regs (insnAt insns i).src) (insnAt insns i) : Int) =
        base.off + (insnAt insns i).off.toInt := by
      rw [address, hbase.2 hknown, BitVec.signExtend, ← BitVec.ofInt_add, BitVec.toNat_ofInt]
      omega
    simp only [CtxLayout.fieldIsPktPtr, Bool.or_eq_true, beq_iff_eq, ← haddr, Nat.cast_inj] at hoff
    have hw : (insnAt insns i).width.bytes = 4 := by
      by_contra hne
      exact hwide ⟨hcls, hbase.1, hne, hoff⟩
    have hregion : regionOf c.maps base = regionCtx := by simp [regionOf, htag]
    simp [RegInfo.Describes, loadProv, hregion, hw, hoff]
  · exact describes_of_scalar rfl

/-- The region an accepted access names is the one the base register points into. -/
theorem region_of_describes {base : RegInfo} {p : Prov} {x : BitVec 64}
    (h : base.Describes p x) (hne : regionOf c.maps base ≠ regionNone) :
    p.region = some (regionOf c.maps base) := by
  unfold RegInfo.Describes at h
  cases htag : base.tag <;> simp only [htag] at h <;> simp only [regionOf, htag] at hne ⊢
  case ctx => rw [h.1]; rfl
  case pkt => rw [h]; rfl
  all_goals exact absurd rfl hne

section Instruction

variable (hsim : Lockstep insns len st m σ) (hreg : (insnAt insns i).isRegional = true)
  (hb : Boundary insns i) (hlt : i < insns.length) (hld : (insnAt insns i).isLdImm64 = false)
include hsim hb hlt hld

theorem alu_sim (is64 : Bool) (hcls : (insnAt insns i).cls = if is64 then .alu64 else .alu)
    (h : (translateAlu i (insnAt insns i) is64 st).Accepts c t st' t' ops) :
    StepSim insns c.ctx len lenM i m (i + 1) st' (runOps len σ ops) := by
  have hstep : Machine.step insns c.ctx lenM i m = m.aluStep (insnAt insns i) is64 i := by
    rw [Machine.step_plain hlt hld, hcls]; cases is64 <;> rfl
  obtain ⟨v, hv, hregs⟩ := (@alu_value _ _ len) hcls hb hlt h hsim.regs
  obtain ⟨hdst, _, rfl, hops⟩ := translateAlu_accepts h
  obtain ⟨hinto, _⟩ := @aluOps_spec _ _ _ _ _ _ len _ 0 0 hops
  have hsame := runOps_sameBut hinto len σ
  unfold Machine.aluStep at hstep
  split at hstep
  · exact .fault hstep
  · rw [hv] at hstep
    cases hp : aluProv (insnAt insns i) is64 (m.prov (insnAt insns i).dst)
        (m.prov (insnAt insns i).src) with
    | none => rw [hp] at hstep; exact .fault hstep
    | some p =>
      rw [hp] at hstep
      have hinfo := aluInfo_describes (hsim.sound (insnAt insns i).dst)
        (hsim.sound (insnAt insns i).src) hp hv
      refine .next hstep ⟨hregs, hsame.mem.trans hsim.mem, hsame.log.trans hsim.log,
        hsim.inRange, fun r => ?_⟩
      simp only [AbsState.setReg_reg, Machine.setReg, Regs.set]
      split
      · exact hinfo
      · exact hsim.sound r

theorem ldx_sim (hcls : (insnAt insns i).cls = .ldx) (hmode : (insnAt insns i).mode = .mem)
    (h : (translateLdx i (insnAt insns i) st).Accepts c t st' t' ops) :
    StepSim insns c.ctx len lenM i m (i + 1) st' (runOps len σ ops) := by
  have hstep : Machine.step insns c.ctx lenM i m = m.ldxStep (insnAt insns i) c.ctx lenM i := by
    rw [Machine.step_plain hlt hld, hcls]
  have hmen : mentionedRegs (insnAt insns i) =
    [((insnAt insns i).dst : Nat), (insnAt insns i).src] := by
    simp only [mentionedRegs, hld, hcls, Bool.false_eq_true, if_false]
  obtain ⟨hsrc, h₁⟩ := translateLdx_accepts h
  have hbase := hsim.sound (insnAt insns i).src
  simp only [Machine.ldxStep, hmode, ne_eq, not_true_eq_false, if_false] at hstep
  split at h₁
  · -- a frame pointer is no pointer into a region
    rename_i htag
    simp only [RegInfo.Describes, htag] at hbase
    rw [hbase] at hstep
    exact .fault hstep
  · obtain ⟨hne, hin, hdst, rfl, tA, tV, hA, hV, rfl⟩ := translateLdxRegion_accepts h₁
    rw [region_of_describes (c := c) hbase hne] at hstep
    obtain ⟨hframe, hval⟩ := ldxOps_run (i := insnAt insns i)
      (d := hReg (insnAt insns i).dst) hA hV
      (hsim.hdr hb hlt (r := (insnAt insns i).src) (by simp [hmen]) hsrc)
      (congrFun hsim.mem (regionOf c.maps (st.reg (insnAt insns i).src)))
    by_cases hnarrow : NarrowFieldLoad insns c.ctx i m
    · exact .narrow hnarrow
    · refine .of_access hstep rfl (hframe.log.trans (by simp [hsim.log])) rfl fun hno => ?_
      exact (hsim.addLog hno).setReg hframe (hval hno) (ldxInfo_describes hcls hin hbase hnarrow)

theorem store_sim (fromReg : Bool) (hcls : (insnAt insns i).cls = if fromReg then .stx else .st)
    (hmode : (insnAt insns i).mode = .mem) (hdst : (insnAt insns i).dst < numBpfRegs)
    (hsrc : (insnAt insns i).src < numBpfRegs)
    (h : (translateStore i (insnAt insns i) st fromReg).Accepts c t st' t' ops) :
    StepSim insns c.ctx len lenM i m (i + 1) st' (runOps len σ ops) := by
  have hstep : Machine.step insns c.ctx lenM i m = m.storeStep (insnAt insns i) fromReg lenM i := by
    rw [Machine.step_plain hlt hld, hcls]; cases fromReg <;> rfl
  have hmen : ((insnAt insns i).dst : Nat) ∈ mentionedRegs (insnAt insns i) ∧
      (fromReg = true → ((insnAt insns i).src : Nat) ∈ mentionedRegs (insnAt insns i)) := by
    cases fromReg <;> simp only [Bool.false_eq_true, if_false, if_true] at hcls <;>
      simp [mentionedRegs, hld, hcls]
  obtain ⟨_, h₁⟩ := translateStore_accepts h
  have hbase := hsim.sound (insnAt insns i).dst
  simp only [Machine.storeStep, hmode, ne_eq, not_true_eq_false, if_false] at hstep
  split at hstep
  · exact .fault hstep
  split at h₁
  · -- a frame pointer is no pointer into a region
    rename_i htag
    simp only [RegInfo.Describes, htag] at hbase
    rw [hbase] at hstep
    exact .fault hstep
  · obtain ⟨hne, _, rfl, tA, pre, val, hA, hpre, rfl, hval⟩ := translateStoreRegion_accepts h₁
    rw [region_of_describes (c := c) hbase hne] at hstep
    set v := if fromReg = true then m.regs (insnAt insns i).src else
    (insnAt insns i).imm.signExtend 64
      with hv
    obtain ⟨hover, hin⟩ := storeOps_run (i := insnAt insns i) (v := v) hA
      (hsim.hdr hb hlt hmen.1 hdst) hpre
      (fun σ' hσ' => hval len σ' v
        (fun hf => by
          rw [hσ'.hdr _ (not_isScratch_hReg _), hsim.hdr hb hlt (hmen.2 hf) hsrc, hv, if_pos hf])
        (fun hf => by rw [hv, if_neg (by simp [hf])]))
      (congrFun hsim.mem (regionOf c.maps (st'.reg (insnAt insns i).dst)))
    refine .of_access hstep rfl ?_ rfl fun hno => ?_
    · by_cases hC : Access.Overruns len ⟨true, regionOf c.maps (st'.reg (insnAt insns i).dst),
          address (m.regs (insnAt insns i).dst) (insnAt insns i), (insnAt insns i).width.bytes⟩
      · exact (hover hC).log.trans (by simp [hsim.log])
      · exact (hin hC).log.trans (by simp [hsim.log])
    · exact ((hsim.addLog hno).setMem _ _).scratch (hin hno)

theorem ldPkt_sim (hcls : (insnAt insns i).cls = .ld)
    (hmode : (insnAt insns i).mode = .abs ∨ (insnAt insns i).mode = .ind)
    (hsrc : (insnAt insns i).src < numBpfRegs)
    (h : (translateLdPkt i (insnAt insns i) st).Accepts c t st' t' ops) :
    StepSim insns c.ctx len lenM i m (i + 1) st' (runOps len σ ops) := by
  have hstep : Machine.step insns c.ctx lenM i m = m.ldPktStep (insnAt insns i) lenM i := by
    rw [Machine.step_plain hlt hld, hcls]
  have hmen : (insnAt insns i).mode = .ind →
      ((insnAt insns i).src : Nat) ∈ mentionedRegs (insnAt insns i) := by
    intro hind
    simp [mentionedRegs, hld, hcls, hind]
  obtain ⟨hw, rfl, _⟩ := translateLdPkt_accepts h
  have hshape : ¬((insnAt insns i).mode ≠ .abs ∧ (insnAt insns i).mode ≠ .ind ∨
      (insnAt insns i).width = .w64) := by
    rintro (⟨h₁, h₂⟩ | h₃)
    · exact hmode.elim h₁ h₂
    · exact hw h₃
  simp only [Machine.ldPktStep, if_neg hshape] at hstep
  split at hstep
  · exact .fault hstep
  · obtain ⟨hframe, hval⟩ := ldPktOps_run h
      (fun hind => hsim.hdr hb hlt (hmen hind) hsrc) (congrFun hsim.mem regionPkt)
    refine .of_access hstep rfl (hframe.log.trans (by simp [hsim.log])) rfl fun hno => ?_
    exact ((hsim.addLog hno).setReg hframe (hval hno) (describes_of_scalar rfl)).clobber

end Instruction

/-- A straight-line instruction. -/
theorem insn_sim {k : Nat} (hsim : Lockstep insns len st m σ)
    (hreg : (insnAt insns i).isRegional = true) (hmaps : ∀ k, c.insnMapIdx k = none)
    (hb : Boundary insns i) (hlt : i < insns.length)
    (h : (translateOne i insns st).Accepts c t (k, st') t' ops) :
    StepSim insns c.ctx len lenM i m (i + k) st' (runOps len σ ops) := by
  obtain ⟨hdst, hsrc⟩ := Insn.isRegional_regs hreg
  rcases translateOne_cases h with ⟨hnop, rfl, rfl, _, rfl⟩ | ⟨hld, h₁⟩ | ⟨hld, rfl, hplain⟩
  · -- a jump over nothing
    simp only [Insn.isNopJump, Bool.and_eq_true, beq_iff_eq] at hnop
    obtain ⟨⟨hjmp, hja⟩, hoff⟩ := hnop
    refine .next ?_ (by simpa using hsim)
    rw [Machine.step_jmp hlt hjmp]
    simp only [Machine.jmpStep, hja]
    exact Machine.goto_eq (by simp [jumpTarget, hoff])
  · obtain ⟨_, _, _, rfl, rfl, rfl⟩ := translateLdImm64_const (hmaps i) h₁
    refine .next (Machine.step_ldImm64 hlt hld) (hsim.setReg ?_ ?_ (describes_of_scalar rfl))
    · exact runOps_sameBut (by simp [setOp, Op.Into]) len σ
    · rw [runOps_cons, runOps_nil, setOp_eval (wideImm insns i).isLt]
      simp [word]
  · unfold translatePlain at hplain
    have hmem := Insn.isRegional_mode hreg
    cases hcls : (insnAt insns i).cls <;> simp only [hcls] at hplain
    case alu => exact alu_sim hsim hb hlt hld false hcls hplain
    case alu64 => exact alu_sim hsim hb hlt hld true hcls hplain
    case ldx => exact ldx_sim hsim hb hlt hld hcls (hmem (.inl hcls)) hplain
    case stx =>
      have hmode := hmem (.inr (.inl hcls))
      rw [if_neg (by simp [hmode])] at hplain
      exact store_sim hsim hb hlt hld true hcls hmode hdst hsrc hplain
    case st =>
      exact store_sim hsim hb hlt hld false hcls (hmem (.inr (.inr hcls))) hdst hsrc
        hplain
    case ld =>
      split at hplain
      · rename_i hmode
        exact ldPkt_sim hsim hb hlt hld hcls hmode hsrc hplain
      · simp at hplain
    all_goals simp at hplain

/-- The machine and the chain make the same step. -/
theorem step_sim {p : Point} {j : Int} {q : Nat} {σ₁ : State} (hsim : Lockstep insns len p.st m p.σ)
    (hreg : (insnAt insns p.idx).isRegional = true) (hmaps : ∀ k, c.insnMapIdx k = none)
    (hb : Boundary insns p.idx) (hm : Moves insns c len p j st t σ₁) (hq : (q : Int) = j) :
    StepSim insns c.ctx len lenM p.idx m q st σ₁ := by
  have hlt := hm.lt
  obtain ⟨hdst, hsrc⟩ := Insn.isRegional_regs hreg
  have hcall : (insnAt insns p.idx).endsBlock = true → (insnAt insns p.idx).jmpOp ≠ .call :=
    fun hends => Insn.isCore_not_call
      (Insn.isCore_of_jmp hreg (Insn.isJmp_of_endsBlock hends)) hends
  cases hm with
  | insn h =>
    obtain rfl := Int.ofNat.inj hq
    exact insn_sim hsim hreg hmaps hb hlt h
  | ja hends hop =>
    refine .next ?_ hsim
    rw [Machine.step_jmp hlt (Insn.isJmp_of_endsBlock hends)]
    simp only [Machine.jmpStep, hop]
    exact Machine.goto_eq hq
  | @cond e swap taken _ _ _ hbr hop h he =>
    obtain ⟨htaken, hsame⟩ := cond_value hb hlt hdst hsrc hbr hop h he hsim.regs
    have hstep : Machine.step insns c.ctx lenM p.idx m = _ :=
      Machine.step_cond hlt hbr hop htaken
    split at hstep
    · exact .fault hstep
    · refine .next ?_ (hsim.scratch hsame)
      rw [hstep]
      cases taken with
      | true => exact Machine.goto_eq hq
      | false =>
        obtain rfl : q = p.idx + 1 := by simp only [Bool.false_eq_true, if_false] at hq; omega
        rfl
  | call hends hop => exact absurd hop (hcall hends)
  | arms hends hop => exact absurd hop (hcall hends)

end StepSim

/-! ## Whole runs -/

/-- Every operation only adds to the log. -/
theorem Op.log_prefix (len : Nat → Nat) (σ : State) (op : Op) : σ.log <+: (op.eval len σ).log := by
  cases op <;> simp only [Op.eval] <;> (repeat' split) <;> simp

theorem runOps_log_extends (len : Nat → Nat) (σ : State) (ops : List Op) :
    σ.log <+: (runOps len σ ops).log := by
  induction ops generalizing σ with
  | nil => exact List.prefix_rfl
  | cons op ops ih => exact (Op.log_prefix len σ op).trans (ih _)

section Runs

variable {insns : List Insn} {c : Config} {len lenM : Nat → Nat}

theorem Moves.log_prefix {p : Point} {j : Int} {st : AbsState} {t : Translator} {σ₁ : State}
    (hm : Moves insns c len p j st t σ₁) : p.σ.log <+: σ₁.log := by
  cases hm with
  | insn | cond | call => exact runOps_log_extends _ _ _
  | ja => exact List.prefix_rfl
  | arms => exact (runOps_log_extends _ _ _).trans (runOps_log_extends _ (State.setHdr _ _ _) _)

theorem Path.log_prefix {p : Point} {σ' : State} (h : Path insns c len p σ') :
    p.σ.log <+: σ'.log := by
  induction h with
  | off _ hσ => exact hσ.log ▸ List.prefix_rfl
  | exit _ _ _ _ hσ => exact hσ.log ▸ List.prefix_rfl
  | hop _ _ hm _ _ _ _ hσ _ ih => exact hm.log_prefix.trans (hσ.log ▸ ih)

/-- How the run of the machine from `m` and the run of the chain that ends in `σ'`
compare. -/
inductive RunSim (insns : List Insn) (ctx : CtxLayout) (len lenM : Nat → Nat) (pc : Nat)
    (m : Machine) (σ' : State) : Prop where
  | exit {st : AbsState} {m' : Machine}
      (hend : Ends (Machine.step insns ctx lenM) (insns.length + 1 - pc) pc m (.exit m'))
      (hsim : Lockstep insns len st m' σ') (hused : scanUsedRegs insns 0 = true)
  | off {st : AbsState} {m' : Machine}
      (hend : Ends (Machine.step insns ctx lenM) (insns.length + 1 - pc) pc m (.stop (.off m')))
      (hsim : Lockstep insns len st m' σ')
  | fault (hend : Ends (Machine.step insns ctx lenM) (insns.length + 1 - pc) pc m (.stop .fault))
  | overrun {log : List Access} {a : Access}
      (hend : Ends (Machine.step insns ctx lenM) (insns.length + 1 - pc) pc m
        (.stop (.overrun (log ++ [a]))))
      (ha : a.Overruns lenM) (hlog : log ++ [a] <+: σ'.log)
  /-- The machine comes to a packet field it does not load as a word. -/
  | narrow {pc' : Nat} {m' : Machine} (hr : Reaches (Machine.step insns ctx lenM) pc m pc' m')
      (h : NarrowFieldLoad insns ctx pc' m')
  /-- The machine goes on after an access that leaves the chain's region. -/
  | passed {pc' : Nat} {m' : Machine} {a : Access}
      (hr : Reaches (Machine.step insns ctx lenM) pc m pc' m') (ha : a.Overruns len)
      (hm : a ∈ m'.log) (hlog : m'.log <+: σ'.log)

/-- A step of the machine before a comparison of runs. -/
theorem RunSim.step {ctx : CtxLayout} {pc q : Nat} {m m₁ : Machine} {σ' : State}
    (hstep : Machine.step insns ctx lenM pc m = .next q m₁) (hfwd : pc < q) (hle : q ≤ insns.length)
    (h : RunSim insns ctx len lenM q m₁ σ') : RunSim insns ctx len lenM pc m σ' := by
  have hn : insns.length + 1 - q + 1 ≤ insns.length + 1 - pc := by omega
  cases h with
  | exit hend hsim hused => exact .exit ((Ends.of_next hstep hend).mono hn) hsim hused
  | off hend hsim => exact .off ((Ends.of_next hstep hend).mono hn) hsim
  | fault hend => exact .fault ((Ends.of_next hstep hend).mono hn)
  | overrun hend ha hlog => exact .overrun ((Ends.of_next hstep hend).mono hn) ha hlog
  | narrow hr h => exact .narrow (.next hstep hr) h
  | passed hr ha hm hlog => exact .passed (.next hstep hr) ha hm hlog

/-- The machine and the chain run alike along a path. -/
theorem run_sim {p : Point} {σ' : State} {m : Machine}
    (hprog : isProgramOf Insn.isRegional insns = true) (hmaps : ∀ k, c.insnMapIdx k = none)
    (hpath : Path insns c len p σ') (hsim : Lockstep insns len p.st m p.σ) :
    RunSim insns c.ctx len lenM p.idx m σ' := by
  induction hpath generalizing m with
  | @off p σ' h hσ =>
    have hstep : Machine.step insns c.ctx lenM p.idx m = .stop (.off m) := if_pos (by omega)
    exact .off ((Ends.of_stop hstep).mono (by omega)) (hsim.mono (le_refl _) hσ)
  | @exit p σ' hb hlt hends hop hσ =>
    have hstep : Machine.step insns c.ctx lenM p.idx m = .exit m := by
      rw [Machine.step_jmp hlt (Insn.isJmp_of_endsBlock hends)]
      simp only [Machine.jmpStep, hop]
    exact .exit ((Ends.of_exit hstep).mono (by omega)) (hsim.mono (le_refl _) hσ)
      (used_of_exit hb hlt hends hop)
  | @hop p q j st t σ₁ σ' hb hlt hm hj hfwd hle hst hσ hpath ih =>
    have hlog : σ₁.log <+: σ'.log := hσ.log ▸ hpath.log_prefix
    cases step_sim hsim (isProgramOf_at hprog hb hlt).1 hmaps hb hm hj with
    | next hstep hsim' => exact .step hstep hfwd hle (ih (hsim'.mono hst hσ))
    | fault hstep => exact .fault ((Ends.of_stop hstep).mono (by omega))
    | narrow h => exact .narrow (.refl _ _) h
    | overrun ha hlog₁ hstep =>
      exact .overrun ((Ends.of_stop hstep).mono (by omega)) ha (hlog₁ ▸ hlog)
    | @passed a m' ha hlog₁ hlog' hstep =>
      exact .passed (.next hstep (.refl _ _)) ha (by simp [hlog'])
        (by rw [hlog', ← hlog₁]; exact hlog)

/-- The run of the machine and the run of the emitted chain on the same bytes. -/
theorem translateProgram_sim {t' : Translator} {mods : List (List Rule)} {ops : List Op}
    (hprog : isProgramOf Insn.isRegional insns = true) (hmaps : ∀ k, c.insnMapIdx k = none)
    (hlen : decidePc insns.length < 2 ^ 64)
    (h : (translateProgram insns).Accepts c .init mods t' ops) (mem : Nat → Nat → Byte) :
    RunSim insns c.ctx (regionLen (declaredRegions c)) lenM 0 (Machine.entry mem)
      ((emitProgram c mods).run fun r k => some (mem r k)) := by
  obtain ⟨q, hidx, hst, hσ, hpath⟩ := translateProgram_path
    hlen (wideSlots_of_isProgramOf hprog) h fun r k => some (mem r k)
  rw [emitProgram_run, ← hidx]
  exact run_sim hprog hmaps hpath ((lockstep_entry insns mem).mono hst hσ)

end Runs

/-! ## Memory lowering and provenance -/

/-- The run of the machine that ended in `e` and the run of the emitted program that
ended in `σ` show the same: the same accesses in the same regions, and the same
result and bytes, unless both make the same access outside a region. -/
def SameRun (p : Program) (e : End Machine Halt) (σ : State) : Prop :=
  match e with
  | .exit m => σ.log = m.log ∧ ¬σ.Rejects (regionLen p.regions) ∧
      σ.emit32 p.emitHdr = some ((m.regs 0).toNat % 2 ^ 32) ∧ σ.mem = fun r k => some (m.mem r k)
  | .stop (.overrun log) => ∃ log' a, log = log' ++ [a] ∧ a.Overruns (regionLen p.regions) ∧
      (∀ b ∈ log', ¬b.Overruns (regionLen p.regions)) ∧ log <+: σ.log
  | .stop (.off m) => σ.log = m.log ∧ ¬σ.Rejects (regionLen p.regions) ∧
      σ.mem = fun r k => some (m.mem r k)
  | .stop _ => False

/-- Memory lowering and provenance are sound on every run of the machine that does not
fault and loads the packet fields of the context as words only. -/
theorem memory_lowering_sound {insns : List Insn} {c : Config} {t' : Translator}
    {mods : List (List Rule)} {ops : List Op} (hprog : isProgramOf Insn.isRegional insns = true)
    (hmaps : ∀ k, c.insnMapIdx k = none) (hlen : decidePc insns.length < 2 ^ 64)
    (h : (translateProgram insns).Accepts c .init mods t' ops) (mem : Nat → Nat → Byte)
    (hfault : ¬Ends (Machine.step insns c.ctx (regionLen (emitProgram c mods).regions))
      (insns.length + 1) 0 (Machine.entry mem) (.stop .fault))
    (hwide : ∀ pc m, Reaches (Machine.step insns c.ctx (regionLen (emitProgram c mods).regions)) 0
      (Machine.entry mem) pc m → ¬NarrowFieldLoad insns c.ctx pc m) :
    ∃ e, Ends (Machine.step insns c.ctx (regionLen (emitProgram c mods).regions))
        (insns.length + 1) 0 (Machine.entry mem) e ∧
      SameRun (emitProgram c mods) e ((emitProgram c mods).run fun r k => some (mem r k)) := by
  have hentry : ∀ a ∈ (Machine.entry mem).log,
      True ∧ ¬a.Overruns (regionLen (declaredRegions c)) := by simp [Machine.entry]
  have hrejects : ∀ {st m σ}, Lockstep insns (regionLen (declaredRegions c)) st m σ →
      ¬σ.Rejects (regionLen (declaredRegions c)) := fun hsim ⟨a, ha, hout⟩ =>
    hsim.inRange a (hsim.log ▸ ha) hout
  cases translateProgram_sim hprog hmaps hlen h mem with
  | exit hend hsim hused =>
    exact ⟨_, hend, hsim.log, hrejects hsim, emit32_of_regsMatch hsim.regs hused, hsim.mem⟩
  | off hend hsim => exact ⟨_, hend, hsim.log, hrejects hsim, hsim.mem⟩
  | fault hend => exact absurd hend hfault
  | overrun hend ha hlog =>
    obtain ⟨log', b, hlog', _, hb, hin⟩ := overrun_log step_outcome (hend _ le_rfl) hentry
    exact ⟨_, hend, log', b, hlog', hb, fun b hb => (hin b hb).2, hlog⟩
  | narrow hr h => exact absurd h (hwide _ _ hr)
  | passed hr ha hm _ => exact absurd ha (reaches_log step_outcome hr hentry _ hm).2

/-- `r2 = *(u32 *)(r1 + 0); r0 = *(u32 *)(r2 + 12); exit`. -/
def loadWordProgram : List Insn :=
  [⟨0x61, 2, 1, 0, 0⟩, ⟨0x61, 0, 2, 12, 0⟩, ⟨0x95, 0, 0, 0, 0⟩]

theorem loadWordProgram_sound :
    ∃ mods e, Ends (Machine.step loadWordProgram ctxXdpMd
        (regionLen (emitProgram xdpConfig mods).regions)) 4 0 (Machine.entry fun _ _ => 0) e ∧
      SameRun (emitProgram xdpConfig mods) e
      ((emitProgram xdpConfig mods).run fun _ _ => some 0) := by
  obtain ⟨mods, hmods⟩ :
      ∃ mods, (translateProgram loadWordProgram).result xdpConfig .init = some mods := ⟨_, rfl⟩
  obtain ⟨t', ops, h⟩ := accepts_of_result hmods
  refine ⟨mods, memory_lowering_sound (by decide) (fun _ => rfl) (by decide) h (fun _ _ => 0) ?_ ?_⟩
  · intro hfault
    have hrun := hfault 4 le_rfl
    cases hrun
  · rintro pc m - ⟨hcls, _, hw, _⟩
    match pc with
    | 0 | 1 => exact hw rfl
    | 2 => exact absurd hcls (by decide)
    | n + 3 => exact absurd hcls (show (default : Insn).cls ≠ .ldx by decide)

/-- `r2 = *(u8 *)(r1 + 0); r3 = r2; r1 += r2; r3 += r1; r0 = *(u8 *)(r3 + 0); exit`. -/
def fieldByteProgram : List Insn :=
  [⟨0x71, 2, 1, 0, 0⟩, ⟨0xbf, 3, 2, 0, 0⟩, ⟨0x0f, 1, 2, 0, 0⟩, ⟨0x0f, 3, 1, 0, 0⟩,
    ⟨0x71, 0, 3, 0, 0⟩, ⟨0x95, 0, 0, 0, 0⟩]

/-- A context of zeros and a packet of ones. -/
def onesPacket : Nat → Nat → Byte := fun r _ => if r = regionPkt then 1 else 0

/-- A byte of `data` counts as a packet pointer, and a load from the context is
emitted as a load from the packet. -/
theorem fieldByteProgram_counterexample :
    ∃ mods, (translateProgram fieldByteProgram).result xdpConfig .init = some mods ∧
      isProgramOf Insn.isRegional fieldByteProgram = true ∧
      ∃ m, Ends (Machine.step fieldByteProgram ctxXdpMd
          (regionLen (emitProgram xdpConfig mods).regions)) 7 0
          (Machine.entry onesPacket) (.exit m) ∧
        ¬SameRun (emitProgram xdpConfig mods) (.exit m)
          ((emitProgram xdpConfig mods).run fun r k => some (onesPacket r k)) := by
  refine ⟨_, rfl, by decide, _, .of_runFor rfl, ?_⟩
  rintro ⟨hlog, -⟩
  revert hlog
  decide

end Ect
