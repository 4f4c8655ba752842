-- SUMMARY: Which programs without memory accesses and calls the translator accepts, exactly.
import Ect.Lowering.RegisterChecks
import Ect.Lowering.Registers

/-!
# Acceptance

Whether a memory access or a call is refused depends on what the translator knows about the
registers. Everything else is refused by its encoding alone, so a program without them is
accepted exactly when each of its instructions has a lowering and every jump goes forward to
another instruction.
-/

namespace Ect

open TransM

/-! ## Methods that report nothing -/

namespace TransM

section Takes

variable {α β : Type} {c : Config} {k l : Nat}

/-- While the pool has `k` headers left, the method reports nothing and takes no more. -/
def Takes (m : TransM α) (c : Config) (k : Nat) : Prop :=
  ∀ t, t.tmpNext + k ≤ numTmps →
    ∃ a t' ops, m.Accepts c t a t' ops ∧ t'.tmpNext ≤ t.tmpNext + k

theorem Takes.pure (a : α) : (pure a : TransM α).Takes c 0 :=
  fun t _ => ⟨a, t, [], accepts_pure.mpr ⟨rfl, rfl, rfl⟩, by omega⟩

theorem Takes.emit (op : Op) : (emit op).Takes c 0 :=
  fun t _ => ⟨(), t, [op], accepts_emit.mpr ⟨rfl, rfl⟩, by omega⟩

theorem Takes.freshTmp (idx : Nat) : (freshTmp idx).Takes c 1 :=
  fun t h => ⟨hTmp t.tmpNext, { t with tmpNext := t.tmpNext + 1 }, [],
    accepts_freshTmp.mpr ⟨by omega, rfl, rfl, rfl⟩, Nat.le_refl _⟩

theorem Takes.bind {x : TransM α} {f : α → TransM β} (hx : x.Takes c k)
    (hf : ∀ a, (f a).Takes c l) : (x >>= f).Takes c (k + l) := by
  intro t h
  obtain ⟨a, t₁, o₁, hx, ht₁⟩ := hx t (by omega)
  obtain ⟨b, t₂, o₂, hf, ht₂⟩ := hf a t₁ (by omega)
  exact ⟨b, t₂, o₁ ++ o₂, accepts_bind.mpr ⟨a, t₁, o₁, hx, o₂, hf, rfl⟩, by omega⟩

/-- A first part that takes nothing. -/
theorem Takes.after {x : TransM α} {f : α → TransM β} (hx : x.Takes c 0)
    (hf : ∀ a, (f a).Takes c k) : (x >>= f).Takes c k :=
  Nat.zero_add k ▸ hx.bind hf

theorem Takes.config {f : Config → TransM β} (hf : (f c).Takes c k) :
    (config >>= f).Takes c k := by
  intro t h
  obtain ⟨b, t', ops, hf, ht'⟩ := hf t h
  exact ⟨b, t', [] ++ ops,
    accepts_bind.mpr ⟨c, t, [], accepts_config.mpr ⟨rfl, rfl, rfl⟩, ops, hf, rfl⟩, ht'⟩

theorem Takes.mono {m : TransM α} (h : m.Takes c k) (hle : k ≤ l) : m.Takes c l := by
  intro t ht
  obtain ⟨a, t', ops, hm, ht'⟩ := h t (by omega)
  exact ⟨a, t', ops, hm, by omega⟩

theorem Takes.ite {p : Prop} [Decidable p] {x y : TransM α} (hx : x.Takes c k)
    (hy : y.Takes c k) : (if p then x else y).Takes c k := by
  split <;> assumption

/-- The method reports nothing, whatever is left of the pool. -/
def Silent (m : TransM α) (c : Config) : Prop := ∀ t, ∃ a t' ops, m.Accepts c t a t' ops

/-- The pool is handed out anew. -/
theorem Takes.silent {m : TransM α} (h : m.Takes c k) (hk : k ≤ numTmps) :
    (setTmpNext 0 >>= fun _ => m).Silent c := by
  intro t
  obtain ⟨a, t', ops, hm, -⟩ := h { t with tmpNext := 0 } (by simpa using hk)
  exact ⟨a, t', [] ++ ops, accepts_bind.mpr ⟨(), _, [], accepts_setTmpNext.mpr ⟨rfl, rfl⟩, ops, hm,
    rfl⟩⟩

theorem Silent.pure (a : α) : (pure a : TransM α).Silent c :=
  fun t => ⟨a, t, [], accepts_pure.mpr ⟨rfl, rfl, rfl⟩⟩

/-- What follows need only be silent after what the first part can have returned. -/
theorem Silent.bind {x : TransM α} {f : α → TransM β} (hx : x.Silent c)
    (hf : ∀ t a t' ops, x.Accepts c t a t' ops → (f a).Silent c) : (x >>= f).Silent c := by
  intro t
  obtain ⟨a, t₁, o₁, hx⟩ := hx t
  obtain ⟨b, t₂, o₂, hrest⟩ := hf t a t₁ o₁ hx t₁
  exact ⟨b, t₂, o₁ ++ o₂, accepts_bind.mpr ⟨a, t₁, o₁, hx, o₂, hrest, rfl⟩⟩

theorem Silent.capture {m : TransM α} (h : m.Silent c) : (capture m).Silent c := by
  intro t
  obtain ⟨a, t', ops, h⟩ := h t
  exact ⟨(a, ops), t', [], accepts_capture.mpr ⟨h, rfl⟩⟩

end Takes

end TransM

/-! ## Operations with a lowering -/

section Alu

variable {c : Config} {idx : Nat} {i : Insn} {is64 : Bool} {st : AbsState}

theorem emitArshConst_takes (reg : Nat) {k widthBits : Nat} (hk : k < widthBits) :
    (emitArshConst idx reg k widthBits).Takes c 2 := by
  unfold emitArshConst
  split
  · rename_i h
    rw [if_neg (by omega)]
    exact (Takes.pure ()).mono (Nat.zero_le 2)
  · exact (Takes.freshTmp idx).bind fun _ => (Takes.freshTmp idx).bind fun _ =>
      (Takes.emit _).after fun _ => (Takes.emit _).after fun _ => (Takes.emit _).after fun _ =>
        Takes.emit _

theorem emitBswapBytes_takes (nbytes tSrc tAcc tB : Nat) (is : List Nat) :
    (emitBswapBytes nbytes tSrc tAcc tB is).Takes c 0 := by
  induction is with
  | nil => exact Takes.pure ()
  | cons i is ih =>
    have hbyte : (emitBswapByte nbytes tSrc tAcc tB i).Takes c 0 := by
      unfold emitBswapByte
      dsimp only
      split <;> exact (Takes.emit _).after fun _ => (Takes.emit _).after fun _ =>
        Takes.ite ((Takes.emit _).after fun _ => Takes.emit _) (Takes.emit _)
    exact hbyte.after fun _ => ih

theorem emitBswap_takes (src nbytes target : Nat) :
    (emitBswap idx src nbytes target).Takes c 3 := by
  unfold emitBswap
  split
  · exact (Takes.ite (Takes.emit _) (Takes.pure ())).mono (Nat.zero_le 3)
  · exact (Takes.freshTmp idx).bind fun _ => (Takes.freshTmp idx).bind fun _ =>
      (Takes.freshTmp idx).bind fun _ => (Takes.emit _).after fun _ => (Takes.emit _).after fun _ =>
        (emitBswapBytes_takes _ _ _ _ _).after fun _ => Takes.emit _

/-- The ALU operations that have a lowering. -/
def Insn.lowersAluOp (i : Insn) : Bool :=
  match i.aluOp with
  | .lsh | .rsh | .arsh => i.isImm
  | .end_ => i.imm == 16 || i.imm == 32 || i.imm == 64
  | .other => false
  | _ => true

theorem aluShiftBy_takes (op : AluOp) (t : Nat) {k : Nat} (hk : k < if is64 then 64 else 32) :
    (aluShiftBy idx op is64 t k).Takes c 2 := by
  unfold aluShiftBy
  split
  · exact emitArshConst_takes t hk
  · exact (Takes.ite (Takes.emit _) (Takes.pure ())).mono (Nat.zero_le 2)

theorem aluShift_takes (hd : Nat) (h : i.isImm = true) : (aluShift idx i is64 hd).Takes c 3 := by
  unfold aluShift
  rw [h]
  cases is64 with
  | true => exact (aluShiftBy_takes _ _ (Nat.mod_lt _ (by decide))).mono (Nat.le_succ 2)
  | false =>
    exact (Takes.freshTmp idx).bind fun _ => (Takes.emit _).after fun _ =>
      (aluShiftBy_takes _ _ (Nat.mod_lt _ (by decide))).bind fun _ => Takes.emit _

theorem endWidth_iff : (i.imm == 16 || i.imm == 32 || i.imm == 64) = true ↔
    ¬(i.imm.toInt ≠ 16 ∧ i.imm.toInt ≠ 32 ∧ i.imm.toInt ≠ 64) := by
  have heq (v : BitVec 32) : i.imm = v ↔ i.imm.toInt = v.toInt := BitVec.toInt_inj.symm
  simp only [Bool.or_eq_true, beq_iff_eq, heq]
  simp only [show (16 : BitVec 32).toInt = 16 from rfl, show (32 : BitVec 32).toInt = 32 from rfl,
    show (64 : BitVec 32).toInt = 64 from rfl]
  omega

theorem aluEnd_takes (hd : Nat) (h : ¬(i.imm.toInt ≠ 16 ∧ i.imm.toInt ≠ 32 ∧ i.imm.toInt ≠ 64)) :
    (aluEnd idx i is64 hd).Takes c 3 := by
  unfold aluEnd
  dsimp only
  rw [if_neg h]
  have hswap : (if is64 || i.srcX then emitBswap idx hd (i.imm.toInt.toNat / 8) hd
      else pure ()).Takes c 3 :=
    Takes.ite (emitBswap_takes _ _ _) ((Takes.pure ()).mono (Nat.zero_le 3))
  exact Takes.ite ((Takes.emit _).after fun _ => hswap) hswap

theorem aluBinop_takes (hd hs : Nat) {f : BinOp} (h : i.aluOp.binop = some f) :
    (aluBinop idx i is64 hd hs).Takes c 2 := by
  unfold aluBinop
  rw [h]
  dsimp only
  split
  · exact (Takes.emit _).mono (Nat.zero_le 2)
  · refine Takes.bind (l := 1) (Takes.freshTmp idx) fun _ => Takes.after (Takes.emit _) fun _ => ?_
    split
    · exact ((Takes.emit _).after fun _ => Takes.emit _).mono (Nat.zero_le 1)
    · exact (Takes.freshTmp idx).bind fun _ => (Takes.emit _).after fun _ =>
        (Takes.emit _).after fun _ => Takes.emit _

theorem aluMov_takes (hd hs : Nat) : (aluMov idx i is64 hd hs).Takes c 1 := by
  unfold aluMov
  split
  · exact (Takes.ite (Takes.emit _) (Takes.emit _)).mono (Nat.zero_le 1)
  · split
    · exact (Takes.emit _).mono (Nat.zero_le 1)
    · exact (Takes.freshTmp idx).bind fun _ => (Takes.emit _).after fun _ => Takes.emit _

theorem aluNeg_takes (hd : Nat) : (aluNeg idx is64 hd).Takes c 1 := by
  unfold aluNeg
  split
  · exact (Takes.emit _).mono (Nat.zero_le 1)
  · exact (Takes.freshTmp idx).bind fun _ => (Takes.emit _).after fun _ =>
      (Takes.emit _).after fun _ => Takes.emit _

theorem aluOps_takes (h : i.lowersAluOp = true) : (aluOps idx i is64).Takes c 3 := by
  unfold aluOps
  unfold Insn.lowersAluOp at h
  cases hop : i.aluOp <;> simp only [hop] at h ⊢
  case mov => exact (aluMov_takes _ _).mono (by decide)
  case neg => exact (aluNeg_takes _).mono (by decide)
  case lsh | rsh | arsh => exact aluShift_takes _ h
  case end_ => exact aluEnd_takes _ (endWidth_iff.mp h)
  case other => cases h
  all_goals exact (aluBinop_takes _ _ (by rw [hop]; rfl)).mono (by decide)

/-- An operation without a lowering is refused. -/
theorem aluOps_accepts_lowers {t t' : Translator} {a : Unit} {ops : List Op}
    (h : (aluOps idx i is64).Accepts c t a t' ops) : i.lowersAluOp = true := by
  unfold aluOps at h
  unfold Insn.lowersAluOp
  cases hop : i.aluOp <;> simp only [hop] at h ⊢
  case lsh | rsh | arsh =>
    unfold aluShift at h
    by_contra hreg
    rw [if_pos (by simpa using hreg)] at h
    exact accepts_unsupported h
  case end_ =>
    unfold aluEnd at h
    dsimp only at h
    rw [endWidth_iff]
    intro hwidth
    rw [if_pos hwidth] at h
    exact accepts_unsupported h
  case other =>
    unfold aluBinop at h
    rw [hop] at h
    exact absurd h accepts_unsupported

/-- Both register numbers are looked at, also where only one is used. -/
def Insn.lowersAlu (i : Insn) : Bool :=
  i.dst < numBpfRegs && i.src < numBpfRegs && i.lowersAluOp

theorem translateAlu_takes (h : i.lowersAlu = true) : (translateAlu idx i is64 st).Takes c 3 := by
  simp only [Insn.lowersAlu, Bool.and_eq_true, decide_eq_true_eq] at h
  unfold translateAlu
  rw [if_neg (by omega)]
  exact (aluOps_takes h.2).bind fun _ => Takes.pure _

theorem translateAlu_accepts_lowers {t t' : Translator} {st' : AbsState} {ops : List Op}
    (h : (translateAlu idx i is64 st).Accepts c t st' t' ops) : i.lowersAlu = true := by
  unfold translateAlu at h
  split at h
  · simp at h
  · rename_i hregs
    obtain ⟨_, _, _, hops, -⟩ := accepts_bind.mp h
    simp only [Insn.lowersAlu, Bool.and_eq_true, decide_eq_true_eq]
    exact ⟨by omega, aluOps_accepts_lowers hops⟩

end Alu

/-! ## Conditions with a lowering -/

section Cond

variable {c : Config} {idx : Nat} {i : Insn}

theorem emitJset_takes (is32 : Bool) (lhs : Nat) : (emitJset idx i is32 lhs).Takes c 3 := by
  unfold emitJset
  refine Takes.bind (l := 2) (Takes.freshTmp idx) fun _ => ?_
  split
  · refine Takes.bind (l := 1) (Takes.freshTmp idx) fun _ => Takes.after (Takes.emit _) fun _ => ?_
    split
    · exact ((Takes.emit _).after fun _ => Takes.pure _).mono (Nat.zero_le 1)
    · exact (Takes.freshTmp idx).bind fun _ => (Takes.emit _).after fun _ =>
        (Takes.emit _).after fun _ => Takes.pure _
  · exact (Takes.ite ((Takes.emit _).after fun _ => Takes.pure _)
      ((Takes.emit _).after fun _ => Takes.pure _)).mono (Nat.zero_le 2)

theorem emitSide_takes (is32 signed : Bool) (reg : Nat) :
    (emitSide idx is32 signed reg).Takes c 1 := by
  unfold emitSide
  refine Takes.bind (l := 0) (Takes.freshTmp idx) fun _ => ?_
  have hbias (t : Nat) (op : Op) :
      (if signed then do emit op; pure t else pure t : TransM Nat).Takes c 0 :=
    Takes.ite ((Takes.emit _).after fun _ => Takes.pure _) (Takes.pure _)
  cases is32 <;> exact (Takes.emit _).after fun _ => hbias _ _

theorem emitSides_takes (is32 signed : Bool) (lhs : Nat) :
    (emitSides idx i is32 signed lhs).Takes c 2 := by
  unfold emitSides
  dsimp only
  split
  · refine Takes.bind (l := 1) (emitSide_takes _ _ _) fun _ => ?_
    split
    · exact (Takes.pure _).mono (Nat.zero_le 1)
    · exact (emitSide_takes _ _ _).bind fun _ => Takes.pure _
  · exact (Takes.pure _).mono (Nat.zero_le 2)

theorem emitCondition_silent (h : jmpIsConditional i = true) (hop : i.jmpOp ≠ .other) :
    (emitCondition idx i).Silent c := by
  unfold emitCondition
  refine Takes.silent (k := 3) ?_ (by decide)
  dsimp only
  split
  · exact emitJset_takes _ _
  · rename_i hjset
    obtain ⟨p, hp⟩ : ∃ p, i.jmpOp.table = some p := by
      simp only [jmpIsConditional, Bool.and_eq_true, bne_iff_ne, ne_eq] at h
      cases hj : i.jmpOp <;> simp [hj, JmpOp.table] at h hop hjset ⊢
    refine Takes.mono (Takes.bind (l := 0) (emitSides_takes _ _ _) fun _ => ?_) (Nat.le_succ 2)
    rw [hp]
    exact Takes.pure _

end Cond

/-! ## Instructions with a lowering -/

/-- An instruction that neither accesses memory nor calls a helper. -/
def Insn.isPlain (i : Insn) : Bool :=
  match i.cls with
  | .alu | .alu64 => true
  | .jmp | .jmp32 => i.jmpOp != .call
  | .ld => i.mode != .abs && i.mode != .ind
  | .stx => i.mode == .atomic
  | .ldx | .st => false

/-- The encodings that have a lowering. A wide immediate with a relocation has one whatever
its source register says. -/
def Insn.lowers (i : Insn) (mapped : Bool) : Bool :=
  if i.isLdImm64 then i.dst < numBpfRegs && (mapped || i.src == 0)
  else match i.cls with
    | .alu | .alu64 => i.lowersAlu
    | .jmp | .jmp32 => i.jmpOp != .other
    | _ => false

/-- The instruction at `k` has a lowering where it stands: its second slot is there, and it
goes forward to an instruction or to the end. -/
structure Lowers (insns : List Insn) (c : Config) (k : Nat) : Prop where
  insn : (insnAt insns k).lowers (c.insnMapIdx k).isSome = true
  wide : (insnAt insns k).isLdImm64 = true → k + 1 < insns.length
  jump : (insnAt insns k).branches = true → ∃ j, Boundary insns j ∧ j ≤ insns.length ∧ k < j ∧
    (j : Int) = jumpTarget k (insnAt insns k)

section One

variable {insns : List Insn} {c : Config} {k : Nat} {st : AbsState}

theorem translateLdImm64_takes (hld : (insnAt insns k).isLdImm64 = true) (h : Lowers insns c k) :
    (translateLdImm64 k insns st).Takes c 0 := by
  have hlowers := h.insn
  simp only [Insn.lowers, hld, if_true, Bool.and_eq_true, decide_eq_true_eq, Bool.or_eq_true,
    beq_iff_eq] at hlowers
  have hwrite (v : RegInfo) : (writeReg st (insnAt insns k).dst v).Takes c 0 :=
    fun t _ => ⟨_, t, [], accepts_writeReg.mpr ⟨hlowers.1, rfl, rfl, rfl⟩, Nat.le_refl _⟩
  unfold translateLdImm64
  dsimp only
  rw [if_neg (Nat.not_le_of_lt (h.wide hld))]
  refine Takes.config ?_
  cases hmap : c.insnMapIdx k with
  | some m => exact (Takes.emit _).after fun _ => (hwrite _).after fun _ => Takes.pure _
  | none =>
    have hsrc : (insnAt insns k).src = 0 := by
      simpa [hmap] using hlowers.2
    dsimp only
    rw [if_neg (not_not_intro hsrc)]
    exact (Takes.emit _).after fun _ => (hwrite _).after fun _ => Takes.pure _

/-- An instruction in the straight line of a block. -/
theorem translateOne_silent (h : Lowers insns c k) (hends : (insnAt insns k).endsBlock = false) :
    (translateOne k insns st).Silent c := by
  unfold translateOne
  refine Takes.silent (k := 3) ?_ (by decide)
  split
  · exact (Takes.pure _).mono (Nat.zero_le 3)
  · rename_i hnop
    have hjmp : (insnAt insns k).isJmp = false := by
      simpa [Insn.endsBlock, hnop] using hends
    split
    · rename_i hld
      exact (translateLdImm64_takes hld h).mono (Nat.zero_le 3)
    · rename_i hld
      have hlowers := h.insn
      simp only [Insn.lowers, hld] at hlowers
      refine Takes.bind (l := 0) ?_ fun _ => Takes.pure _
      unfold translatePlain
      cases hcls : (insnAt insns k).cls <;> simp only [hcls] at hlowers ⊢
      case alu | alu64 => exact translateAlu_takes hlowers
      case jmp | jmp32 => simp [Insn.isJmp, hcls] at hjmp
      all_goals cases hlowers

theorem translateLdImm64_accepts_lowers {n : Nat} {t t' : Translator} {st' : AbsState}
    {ops : List Op} (hld : (insnAt insns k).isLdImm64 = true)
    (h : (translateLdImm64 k insns st).Accepts c t (n, st') t' ops) :
    k + 1 < insns.length ∧ (insnAt insns k).lowers (c.insnMapIdx k).isSome = true := by
  simp only [Insn.lowers, hld, if_true, Bool.and_eq_true, decide_eq_true_eq, Bool.or_eq_true,
    beq_iff_eq]
  cases hmap : c.insnMapIdx k with
  | none =>
    obtain ⟨hwide, hdst, hsrc, -⟩ := translateLdImm64_const hmap h
    exact ⟨hwide, hdst, .inr hsrc⟩
  | some m =>
    unfold translateLdImm64 at h
    dsimp only at h
    split at h
    · simp at h
    · rename_i hwide
      obtain ⟨_, _, _, hconfig, _, hrest, -⟩ := accepts_bind.mp h
      obtain ⟨rfl, rfl, rfl⟩ := accepts_config.mp hconfig
      rw [hmap] at hrest
      have h := hrest
      obtain ⟨_, _, _, h⟩ := h.tail
      obtain ⟨_, _, _, hwrite, -⟩ := accepts_bind.mp h
      exact ⟨by omega, (accepts_writeReg.mp hwrite).1, .inl rfl⟩

/-- What is accepted has a lowering. -/
theorem translateOne_accepts_lowers {t t' : Translator} {p : Nat × AbsState} {ops : List Op}
    (hplain : (insnAt insns k).isPlain = true) (hlt : k < insns.length)
    (h : (translateOne k insns st).Accepts c t p t' ops) : Lowers insns c k := by
  obtain ⟨n, st'⟩ := p
  obtain ⟨hends, -⟩ := translateOne_accepts h hlt
  have hbranches : (insnAt insns k).branches = true → ∃ j, Boundary insns j ∧ j ≤ insns.length ∧
      k < j ∧ (j : Int) = jumpTarget k (insnAt insns k) := by
    intro hbr
    simp [Insn.branches, hends] at hbr
  rcases translateOne_cases h with ⟨hnop, -⟩ | ⟨hld, h⟩ | ⟨hld, -, h⟩
  · simp only [Insn.isNopJump, Bool.and_eq_true, beq_iff_eq] at hnop
    have hld := Insn.isLdImm64_eq_false_of_isJmp hnop.1.1
    refine ⟨?_, fun hwide => ?_, hbranches⟩
    · have hjmp := hnop.1.1
      simp only [Insn.isJmp, Bool.or_eq_true, beq_iff_eq] at hjmp
      rcases hjmp with hcls | hcls <;> simp [Insn.lowers, hld, hcls, hnop.1.2]
    · rw [hld] at hwide
      cases hwide
  · obtain ⟨hwide, hlowers⟩ := translateLdImm64_accepts_lowers hld h
    exact ⟨hlowers, fun _ => hwide, hbranches⟩
  · refine ⟨?_, fun hwide => absurd (hwide.symm.trans hld) (by decide), hbranches⟩
    unfold translatePlain at h
    unfold Insn.isPlain at hplain
    simp only [Insn.lowers, hld, Bool.false_eq_true, if_false]
    cases hcls : (insnAt insns k).cls <;> simp only [hcls] at h hplain ⊢
    case alu | alu64 => exact translateAlu_accepts_lowers h
    case ldx | st => cases hplain
    case stx =>
      rw [if_pos (beq_iff_eq.mp hplain)] at h
      simp at h
    case ld =>
      simp only [Bool.and_eq_true, bne_iff_ne, ne_eq] at hplain
      rw [if_neg (not_or.mpr hplain)] at h
      simp at h
    all_goals simp at h

/-- The end of a block. -/
theorem translateTerm_silent {lead : Nat → Bool} {end_ : Nat}
    (h : (insnAt insns (end_ - 1)).endsBlock = true →
      (insnAt insns (end_ - 1)).isPlain = true ∧ Lowers insns c (end_ - 1)) :
    (translateTerm insns lead end_ st).Silent c := by
  unfold translateTerm
  dsimp only
  split
  · exact Silent.pure _
  · rename_i hends
    have hends : (insnAt insns (end_ - 1)).endsBlock = true := by
      simpa [Insn.endsBlock] using hends
    have hjmp := Insn.isJmp_of_endsBlock hends
    obtain ⟨hplain, hlow⟩ := h hends
    have hcall : (insnAt insns (end_ - 1)).jmpOp ≠ .call := by
      intro hop
      simp only [Insn.isJmp, Bool.or_eq_true, beq_iff_eq] at hjmp
      rcases hjmp with hcls | hcls <;> simp [Insn.isPlain, hcls, hop] at hplain
    have hother : (insnAt insns (end_ - 1)).jmpOp ≠ .other := by
      have hlowers := hlow.insn
      intro hop
      have hld := Insn.isLdImm64_eq_false_of_isJmp hjmp
      simp only [Insn.isJmp, Bool.or_eq_true, beq_iff_eq] at hjmp
      rcases hjmp with hcls | hcls <;> simp [Insn.lowers, hld, hcls, hop] at hlowers
    split
    · rename_i hcond
      refine Silent.bind (emitCondition_silent hcond hother) ?_
      intro t a t' ops _
      cases hop : (insnAt insns (end_ - 1)).jmpOp <;> first
        | exact absurd hop hcall
        | exact Silent.pure _
    · refine Silent.bind (Silent.pure _) ?_
      intro t a t' ops _
      cases hop : (insnAt insns (end_ - 1)).jmpOp <;> first
        | exact absurd hop hcall
        | exact Silent.pure _

theorem translateTerm_accepts_lowers {lead : Nat → Bool} {end_ : Nat} {st' : AbsState}
    {t t' : Translator} {flow : Flow} {ops : List Op}
    (hends : (insnAt insns (end_ - 1)).endsBlock = true)
    (h : TermLowered insns lead c end_ st t flow st' t' ops) :
    (insnAt insns (end_ - 1)).lowers (c.insnMapIdx (end_ - 1)).isSome = true := by
  have hjmp := Insn.isJmp_of_endsBlock hends
  have hld := Insn.isLdImm64_eq_false_of_isJmp hjmp
  have hop : (insnAt insns (end_ - 1)).jmpOp ≠ .other := by
    cases h with
    | fall h => rw [hends] at h; cases h
    | exit _ hop | ja _ hop => rw [hop]; decide
    | call _ hop => rw [hop]; decide
    | cond _ _ hacc => exact fun hop => emitCondition_other hop hacc
  simp only [Insn.isJmp, Bool.or_eq_true, beq_iff_eq] at hjmp
  rcases hjmp with hcls | hcls <;> simp [Insn.lowers, hld, hcls, hop]

end One

/-! ## Blocks -/

section Blocks

variable {insns : List Insn} {lead : Nat → Bool} {c : Config}

theorem leaderStep_silent {k : Nat} (h : goesForward insns k) (lead : Nat → Bool) :
    (leaderStep insns k lead).Silent c := by
  have htarget : (k : Int) + 1 + (insnAt insns k).off.toInt = jumpTarget k (insnAt insns k) := rfl
  unfold leaderStep
  simp only [htarget]
  split
  · exact Silent.pure _
  · rename_i hskip
    split
    · exact Silent.pure _
    · rename_i hop
      have hbr : (insnAt insns k).branches = true := by
        simp only [Bool.or_eq_true, not_or, Bool.not_eq_true, Bool.not_eq_false'] at hskip hop
        simp [Insn.branches, Insn.endsBlock, hskip, hop]
      obtain ⟨hfwd, hle⟩ := h hbr
      rw [if_neg (by omega), if_neg (by omega)]
      exact Silent.pure _

theorem leaderLoop_silent {ks : List Nat} (h : ∀ k ∈ ks, goesForward insns k) :
    (leaderLoop insns ks lead).Silent c := by
  induction ks generalizing lead with
  | nil => exact Silent.pure _
  | cons k ks ih =>
    exact Silent.bind (leaderStep_silent (h k List.mem_cons_self) lead) fun _ _ _ _ _ =>
      ih fun j hj => h j (List.mem_cons_of_mem _ hj)

/-- What follows the end of a block is an instruction. -/
theorem Boundary.next_of_ends {k : Nat} (hk : Boundary insns k) (hlt : k < insns.length)
    (hends : (insnAt insns k).endsBlock = true) : Boundary insns (k + 1) := by
  have hnext := hk.next hlt
  rwa [insnSlots_of_not_ldImm64 (Insn.isLdImm64_eq_false_of_isJmp (Insn.isJmp_of_endsBlock hends))]
    at hnext

/-- Inside a block only the last instruction ends it. -/
theorem IsBlock.endsBlock_eq_false {b s e k : Nat} (hb : IsBlock insns lead b s e)
    (hl : Leaders insns lead) (hk : Boundary insns k) (hs : s ≤ k) (he : k < bodyEnd insns e) :
    (insnAt insns k).endsBlock = false := by
  have hle := hb.end_le
  by_contra hends
  have hends : (insnAt insns k).endsBlock = true := by simpa using hends
  have hke : k < e := by
    unfold bodyEnd at he
    split at he <;> omega
  have hlast : ¬k + 1 < e := by
    intro hlt
    have hinner := hb.inner (k + 1) (by omega) hlt
    rw [(hl.iff (k + 1)).mpr (.inr ⟨k, hk, by omega, .inl ⟨hends, by omega, rfl⟩⟩)] at hinner
    cases hinner
  obtain rfl : k = e - 1 := by omega
  rw [bodyEnd, if_pos hends] at he
  omega

/-- From one boundary the walk through the instructions takes every later one. -/
theorem walkTo_boundary {e i k : Nat} (hi : Boundary insns i) (hk : Boundary insns k)
    (hle : i ≤ k) (he : k < e) (hlen : k < insns.length) : WalkTo insns e i k := by
  obtain ⟨d, hd⟩ : ∃ d, d = k - i := ⟨_, rfl⟩
  induction d using Nat.strong_induction_on generalizing i with
  | _ d ih =>
    rcases Nat.eq_or_lt_of_le hle with rfl | hlt
    · exact .here he
    · have hstep := hi.add_slots_le hk hlt
      have hpos := insnSlots_pos (insnAt insns i)
      exact .next (by omega) (ih (k - (i + insnSlots (insnAt insns i))) (by omega)
        (hi.next (by omega)) hstep rfl)

section Silent

variable (h : ∀ k, Boundary insns k → k < insns.length → Lowers insns c k)
include h

theorem goesForward_of_lowers {k : Nat} (hk : Boundary insns k) (hlt : k < insns.length) :
    goesForward insns k := by
  intro hbr
  obtain ⟨j, -, hle, hkj, hj⟩ := (h k hk hlt).jump hbr
  omega

theorem boundary_of_lead {k : Nat} (hl : Leaders insns lead) (hk : lead k = true) :
    Boundary insns k := by
  rcases (hl.iff k).mp hk with rfl | ⟨i, hi, hlt, ⟨hends, -, rfl⟩ | ⟨hbr, hj⟩⟩
  · exact .zero
  · exact hi.next_of_ends hlt hends
  · obtain ⟨j, hbound, -, -, hj'⟩ := (h i hi hlt).jump hbr
    obtain rfl : k = j := by omega
    exact hbound

theorem translateBody_silent {b s e i fuel : Nat} {st : AbsState} (hl : Leaders insns lead)
    (hb : IsBlock insns lead b s e) (hi : Boundary insns i) (hs : s ≤ i) :
    (translateBody insns (bodyEnd insns e) fuel i st).Silent c := by
  induction fuel generalizing i st with
  | zero => exact Silent.pure _
  | succ fuel ih =>
    unfold translateBody
    split
    · rename_i hlt
      have hle := bodyEnd_le hb.end_le
      have hends := hb.endsBlock_eq_false hl hi hs hlt
      refine Silent.bind (translateOne_silent (h i hi (by omega)) hends) ?_
      rintro t ⟨n, st'⟩ t' ops hone
      obtain ⟨-, rfl, -⟩ := translateOne_accepts hone (by omega)
      exact ih (hi.next (by omega)) (by omega)
    · exact Silent.pure _

theorem translateBlock_silent {b s e : Nat} {blockIn : Nat → AbsState} (hwide : WideSlots insns)
    (hplain : ∀ k, Boundary insns k → k < insns.length → (insnAt insns k).isPlain = true)
    (hl : Leaders insns lead) (hb : IsBlock insns lead b s e) :
    (translateBlock insns lead b blockIn).Silent c := by
  have hlt := hb.start_lt
  have hle := hb.end_le
  have hstart : (blockStarts insns.length lead).getD b 0 = s := by
    simp [List.getD, hb.start_eq]
  have hbody (fuel : Nat) (st : AbsState) :
      (translateBody insns (bodyEnd insns e) fuel s st).Silent c :=
    translateBody_silent h hl hb (boundary_of_lead h hl hb.start_lead) (Nat.le_refl s)
  have hterm (st : AbsState) : (translateTerm insns lead e st).Silent c := by
    apply translateTerm_silent
    intro hends
    rcases boundary_or_second (Nat.le_trans (Nat.sub_le e 1) hle) with hlast | ⟨i, hi, hld, hsecond⟩
    · exact ⟨hplain _ hlast (by omega), h _ hlast (by omega)⟩
    · -- the second slot of a wide immediate ends no block
      have hcode := hwide i hi (by omega) hld
      rw [hsecond, Insn.endsBlock_of_code_zero hcode] at hends
      cases hends
  unfold translateBlock
  simp only [hstart, hb.end_eq]
  refine Silent.bind (Silent.capture (Silent.bind (hbody _ _) fun _ st _ _ _ => hterm st)) ?_
  rintro t ⟨⟨flow, st⟩, ops⟩ t' o -
  exact Silent.pure _

theorem translateBlocks_silent {m b : Nat} {blockIn : Nat → AbsState} (hwide : WideSlots insns)
    (hplain : ∀ k, Boundary insns k → k < insns.length → (insnAt insns k).isPlain = true)
    (hl : Leaders insns lead) (hm : b + m = (blockStarts insns.length lead).length) :
    (translateBlocks insns lead (List.range' b m) blockIn).Silent c := by
  induction m generalizing b blockIn with
  | zero => exact Silent.pure _
  | succ m ih =>
    obtain ⟨s, e, hb⟩ := @isBlock insns lead b (by omega)
    rw [List.range'_succ]
    refine Silent.bind (translateBlock_silent h hwide hplain hl hb) ?_
    rintro t ⟨mods, blockIn'⟩ t' ops -
    exact Silent.bind (ih (b := b + 1) (by omega)) fun _ _ _ _ _ => Silent.pure _

end Silent

end Blocks

/-! ## Programs -/

section Programs

variable {insns : List Insn} {c : Config}

section Accepted

variable {lead : Nat → Bool} {t t' : Translator} {mods : List (List Rule)} {ops : List Op}
  (hwide : WideSlots insns) (hl : Leaders insns lead)
  (hblocks : (translateBlocks insns lead
    (List.range' 0 (blockStarts insns.length lead).length) entryStates).Accepts c t mods t' ops)

include hwide hblocks

/-- A leader is no second slot, since opcode 0 is refused. -/
theorem boundary_of_accepted_lead {k : Nat} (hk : lead k = true) (hlt : k < insns.length) :
    Boundary insns k := by
  rcases boundary_or_second (Nat.le_of_lt hlt) with hb | ⟨i, hi, hld, rfl⟩
  · exact hb
  · exact absurd (hwide i hi hlt hld)
      (leader_code_ne_zero (by simp) hblocks hk hlt (Nat.zero_le _))

include hl

/-- Every instruction of an accepted program is translated. -/
theorem accepts_encoding
    (hplain : ∀ k, Boundary insns k → k < insns.length → (insnAt insns k).isPlain = true) {k : Nat}
    (hk : Boundary insns k) (hlt : k < insns.length) :
    (insnAt insns k).lowers (c.insnMapIdx k).isSome = true ∧
      ((insnAt insns k).isLdImm64 = true → k + 1 < insns.length) := by
  obtain ⟨b, s, e, hb, hs, he⟩ := exists_block ((hl.iff 0).mpr (.inl rfl)) hlt
  have hle := hb.end_le
  obtain ⟨st, t, t', st', flow, o, hlow⟩ :=
    translateBlocks_accepts_block hb (by simp) (Nat.zero_le b) hblocks
  obtain ⟨_, _, _, _, hbody, hterm, -⟩ := hlow.lowered
  by_cases hin : k < bodyEnd insns e
  · have hstart := boundary_of_accepted_lead hwide hblocks hb.start_lead (by omega)
    have hwalk := walkTo_boundary hstart hk hs hin hlt
    obtain ⟨_, _, _, _, _, hone⟩ := translateBody_accepts_walk (bodyEnd_le hle) hwalk (by omega) hbody
    have hlowers := translateOne_accepts_lowers (hplain k hk hlt) hlt hone
    exact ⟨hlowers.insn, hlowers.wide⟩
  · have hends : (insnAt insns (e - 1)).endsBlock = true := by
      by_contra hno
      rw [bodyEnd, if_neg hno] at hin
      omega
    rw [bodyEnd, if_pos hends] at hin
    obtain rfl : k = e - 1 := by omega
    refine ⟨translateTerm_accepts_lowers hends (translateTerm_accepts hterm), fun hld => ?_⟩
    rw [Insn.isLdImm64_eq_false_of_isJmp (Insn.isJmp_of_endsBlock hends)] at hld
    cases hld

end Accepted

/-- Every instruction of an accepted program has a lowering. -/
theorem accepts_lowers {t' : Translator} {mods : List (List Rule)} {ops : List Op}
    (hwide : WideSlots insns)
    (hplain : ∀ k, Boundary insns k → k < insns.length → (insnAt insns k).isPlain = true)
    (h : (translateProgram insns).Accepts c .init mods t' ops) {k : Nat} (hk : Boundary insns k)
    (hlt : k < insns.length) : Lowers insns c k := by
  unfold translateProgram at h
  obtain ⟨lead, t₀, o₀, hfind, _, h₁, -⟩ := accepts_bind.mp h
  obtain ⟨rest, t₁, o₁, hblocks, -⟩ := accepts_bind.mp h₁
  obtain ⟨-, -, hl⟩ := findLeaders_accepts hfind
  rw [List.range_eq_range'] at hblocks
  obtain ⟨hinsn, hslots⟩ := accepts_encoding hwide hl hblocks hplain hk hlt
  refine ⟨hinsn, hslots, fun hbr => ?_⟩
  obtain ⟨hfwd, hto⟩ := hl.forward k hk hlt hbr
  refine ⟨(jumpTarget k (insnAt insns k)).toNat, ?_, by omega, by omega, by omega⟩
  rcases Nat.lt_or_ge (jumpTarget k (insnAt insns k)).toNat insns.length with hin | hout
  · have hlead : lead (jumpTarget k (insnAt insns k)).toNat = true :=
      (hl.iff _).mpr (.inr ⟨k, hk, hlt, .inr ⟨hbr, by omega⟩⟩)
    exact boundary_of_accepted_lead hwide hblocks hlead hin
  · -- the end of the program, and no wide immediate runs past it
    have heq : (jumpTarget k (insnAt insns k)).toNat = insns.length := by omega
    rw [heq]
    rcases boundary_or_second (Nat.le_refl insns.length) with hb | ⟨i, hi, hld, hend⟩
    · exact hb
    · have := (accepts_encoding hwide hl hblocks hplain hi (by omega)).2 hld
      omega

/-- A program each of whose instructions has a lowering is accepted. -/
theorem accepts_of_lowers (hwide : WideSlots insns)
    (hplain : ∀ k, Boundary insns k → k < insns.length → (insnAt insns k).isPlain = true)
    (h : ∀ k, Boundary insns k → k < insns.length → Lowers insns c k) :
    ∃ mods t' ops, (translateProgram insns).Accepts c .init mods t' ops := by
  have hfwd : ∀ k ∈ scanFrom insns insns.length 0, goesForward insns k := by
    intro k hk
    obtain ⟨hbound, hlt⟩ := mem_scan.mp hk
    exact goesForward_of_lowers h hbound hlt
  have hsilent : (translateProgram insns).Silent c := by
    unfold translateProgram
    refine Silent.bind (leaderLoop_silent hfwd) fun t lead t' ops hfind => ?_
    obtain ⟨-, -, hl⟩ := @findLeaders_accepts _ _ _ _ _ lead hfind
    refine Silent.bind ?_ fun _ _ _ _ _ => Silent.pure _
    rw [List.range_eq_range']
    exact translateBlocks_silent h hwide hplain hl (by simp)
  exact hsilent .init

/-- A program that neither accesses memory nor calls a helper is accepted exactly when each
of its instructions has a lowering where it stands. -/
theorem plain_accepted_iff (hwide : WideSlots insns)
    (hplain : ∀ k, Boundary insns k → k < insns.length → (insnAt insns k).isPlain = true) :
    (∃ mods t' ops, (translateProgram insns).Accepts c .init mods t' ops) ↔
      ∀ k, Boundary insns k → k < insns.length → Lowers insns c k :=
  ⟨fun ⟨_, _, _, h⟩ _ hk hlt => accepts_lowers hwide hplain h hk hlt,
    accepts_of_lowers hwide hplain⟩

/-- A shift by a register is refused: `r0 <<= r1; exit`. -/
def shiftProgram : List Insn := [⟨0x6f, 0, 1, 0, 0⟩, ⟨0x95, 0, 0, 0, 0⟩]

theorem shiftProgram_refused :
    ¬∃ mods t' ops, (translateProgram shiftProgram).Accepts xdpConfig .init mods t' ops := by
  have hplain : ∀ k < 2, (insnAt shiftProgram k).isPlain = true := by decide
  have hnarrow : ∀ k < 2, (insnAt shiftProgram k).isLdImm64 = false := by decide
  have hwide : WideSlots shiftProgram := fun k _ hlt hld =>
    absurd (hld.symm.trans (hnarrow k (Nat.lt_of_succ_lt hlt))) (by decide)
  intro h
  have hlowers := (plain_accepted_iff hwide fun k _ => hplain k).mp h 0 .zero (by decide)
  exact absurd hlowers.insn (by decide)

end Programs

/-! ## Register programs -/

/-- The instructions that compute in registers alone are of this kind. -/
theorem Insn.isPlain_of_isCore {i : Insn} (h : i.isCore = true) : i.isPlain = true := by
  simp only [Insn.isCore, Bool.and_eq_true] at h
  obtain ⟨-, h⟩ := h
  unfold Insn.isPlain
  cases hc : i.cls <;> simp only [hc] at h ⊢
  case jmp | jmp32 =>
    simp only [Bool.and_eq_true] at h
    simp [h]
  case ld =>
    have hcode : i.code = 0x18#8 := by simpa [Insn.isLdImm64] using h
    simp [Insn.mode, hcode]
  all_goals cases h

theorem Insn.lowers_of_isCore {i : Insn} (h : i.isCore = true) (hld : i.isLdImm64 = false)
    (mapped : Bool) : i.lowers mapped = true := by
  obtain ⟨hdst, hsrc⟩ := Insn.isCore_regs h
  simp only [Insn.isCore, Bool.and_eq_true] at h
  obtain ⟨-, h⟩ := h
  simp only [Insn.lowers, hld, Bool.false_eq_true, if_false]
  cases hc : i.cls <;> simp only [hc] at h ⊢
  case alu | alu64 =>
    simp only [Insn.isCoreAlu, Bool.and_eq_true] at h
    simp only [Insn.lowersAlu, hdst, hsrc, decide_true, Bool.true_and]
    exact h.2
  case jmp | jmp32 =>
    simp only [Bool.and_eq_true] at h
    simp [h]
  case ld =>
    rw [hld] at h
    cases h
  all_goals cases h

end Ect
