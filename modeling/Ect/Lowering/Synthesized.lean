-- SUMMARY: The byte swap and the arithmetic shift that are synthesized from multiplications and divisions.
import Ect.Lowering.Alu

/-!
# Synthesized operators

The IR has neither a shift nor a byte swap. What the translator emits for them is stated
here on its own: for every width, count and value, where enough of the scratch pool is
left, what the operations leave in the target and which headers they touch.
-/

namespace Ect

open TransM Words LittleEndian

section Synthesized

variable {c : Config} {t t' : Translator} {ops : List Op} {idx : Nat}

/-! ## Runs that are accepted -/

/-- The run is accepted, whatever it emits. -/
def TransM.Emits {α : Type} (m : TransM α) (c : Config) (t : Translator) (a : α)
    (t' : Translator) : Prop :=
  ∃ ops, m.Accepts c t a t' ops

theorem TransM.Emits.bind {α β : Type} {x : TransM α} {f : α → TransM β} {t₁ : Translator}
    {a : α} {b : β} (hx : x.Emits c t a t₁) (hf : (f a).Emits c t₁ b t') :
    (x >>= f).Emits c t b t' := by
  obtain ⟨o₁, hx⟩ := hx
  obtain ⟨o₂, hf⟩ := hf
  exact ⟨o₁ ++ o₂, accepts_bind.mpr ⟨a, t₁, o₁, hx, o₂, hf, rfl⟩⟩

theorem freshTmp_emits (h : t.tmpNext < numTmps) :
    (freshTmp idx).Emits c t (hTmp t.tmpNext) { t with tmpNext := t.tmpNext + 1 } :=
  ⟨[], accepts_freshTmp.mpr ⟨h, rfl, rfl, rfl⟩⟩

theorem binop_emits {f : BinOp} {w : Width} {a b : Operand} {d : Nat} :
    (binop f w a b d).Emits c t () t := ⟨_, accepts_binop.mpr ⟨rfl, rfl⟩⟩

theorem cast_emits {v w : Width} {a : Operand} {d : Nat} : (cast v w a d).Emits c t () t :=
  ⟨_, accepts_cast.mpr ⟨rfl, rfl⟩⟩

theorem move_emits {d s : Nat} : (move d s).Emits c t () t := ⟨_, accepts_move.mpr ⟨rfl, rfl⟩⟩

theorem set_emits {d : Nat} {v : Int} : (set_ d v).Emits c t () t :=
  ⟨_, accepts_set.mpr ⟨rfl, rfl⟩⟩

/-! ## Byte swaps -/

theorem emitBswapByte_emits (n tSrc tAcc tB j : Nat) :
    (emitBswapByte n tSrc tAcc tB j).Emits c t () t := by
  unfold Emits emitBswapByte
  rcases Nat.eq_zero_or_pos j with rfl | hj
  · by_cases hup : n - 1 = 0 <;> simp [hup]
  · by_cases hup : 8 * (n - 1 - j) = 0 <;> simp [Nat.ne_of_gt hj, hup]

theorem emitBswapBytes_emits (n tSrc tAcc tB : Nat) (js : List Nat) :
    (emitBswapBytes n tSrc tAcc tB js).Emits c t () t := by
  induction js with
  | nil => exact ⟨[], accepts_pure.mpr ⟨rfl, rfl, rfl⟩⟩
  | cons j js ih => exact (emitBswapByte_emits n tSrc tAcc tB j).bind ih

theorem emitBswap_emits {n src target : Nat} (hn : 1 < n) (hpool : t.tmpNext + 2 < numTmps) :
    (emitBswap idx src n target).Emits c t () { t with tmpNext := t.tmpNext + 3 } := by
  unfold emitBswap
  rw [if_neg (by omega)]
  refine (freshTmp_emits (by omega)).bind ?_
  refine (freshTmp_emits (by simp only; omega)).bind ?_
  refine (freshTmp_emits hpool).bind ?_
  exact move_emits.bind (set_emits.bind ((emitBswapBytes_emits _ _ _ _ _).bind move_emits))

/-- Whatever the source and the target, the swap leaves in the target the low bytes of the
source in reverse order, and touches nothing else but its three scratch headers. -/
theorem emitBswap_reverses_bytes {n src target : Nat} (hlo : 2 ≤ n) (hhi : n ≤ 8)
    (hpool : t.tmpNext + 2 < numTmps) :
    ∃ t' ops, (emitBswap idx src n target).Accepts c t () t' ops ∧
      ∀ (len : Nat → Nat) (σ : State) (x : BitVec 64), σ.hdr src = word x →
        (runOps len σ ops).hdr target = .int .w64 (byteSwap n x.toNat) ∧
        byteSwap n x.toNat < 256 ^ n ∧ (runOps len σ ops).mem = σ.mem ∧
        ∀ h, h ≠ target → h ≠ hTmp t.tmpNext → h ≠ hTmp (t.tmpNext + 1) → h ≠ hTmp (t.tmpNext + 2) →
          (runOps len σ ops).hdr h = σ.hdr h := by
  obtain ⟨ops, h⟩ := @emitBswap_emits c t idx n src target hlo hpool
  refine ⟨_, ops, h, fun len σ x hx => ?_⟩
  obtain ⟨_, hinto, hval⟩ := emitBswap_wide hlo hhi x.isLt h
  have hsame := runOps_sameBut hinto len σ
  refine ⟨hval σ hx, byteSwap_lt n _, hsame.mem, fun h hne h₀ h₁ h₂ => hsame.hdr h ?_⟩
  simp [hne, h₀, h₁, h₂]

/-- A register file that holds one value everywhere. -/
def filled (x : BitVec 64) : State :=
  { State.initial (fun _ _ => none) with hdr := fun _ => word x }

/-- A halfword swapped in place. -/
theorem halfword_reversed : ∃ t' ops,
    (emitBswap 0 (hReg 3) 2 (hReg 3)).Accepts xdpConfig .init () t' ops ∧
      (runOps (fun _ => 0) (filled 0x1234) ops).hdr (hReg 3) = .int .w64 0x3412 := by
  obtain ⟨t', ops, h, hrun⟩ := @emitBswap_reverses_bytes xdpConfig .init 0 2 (hReg 3) (hReg 3)
    (by decide) (by decide) (by decide)
  exact ⟨t', ops, h, (hrun _ _ 0x1234 rfl).1⟩

/-! ## Arithmetic right shifts -/

theorem emitArshConst_emits {is64 : Bool} {r k : Nat} (hk : 0 < k) (hkw : k < (opWidth is64).bits)
    (hpool : t.tmpNext + 1 < numTmps) :
    (emitArshConst idx r k (if is64 then 64 else 32)).Emits c t ()
      { t with tmpNext := t.tmpNext + 2 } := by
  have hne : ¬(k = 0 ∨ k ≥ if is64 then 64 else 32) := by
    cases is64 <;> simp [opWidth] at hkw ⊢ <;> omega
  unfold emitArshConst
  rw [if_neg hne]
  refine (freshTmp_emits (by omega)).bind ?_
  refine (freshTmp_emits hpool).bind ?_
  exact binop_emits.bind (binop_emits.bind (binop_emits.bind binop_emits))

/-- The shift of a header of the operation's width, by any count below the width. -/
theorem aluShiftBy_emits {r k : Nat} (is64 : Bool) (hkw : k < (opWidth is64).bits)
    (hpool : t.tmpNext + 1 < numTmps) :
    ∃ t', (aluShiftBy idx .arsh is64 r k).Emits c t () t' := by
  unfold aluShiftBy
  rw [if_pos rfl]
  rcases Nat.eq_zero_or_pos k with rfl | hk
  · exact ⟨t, [], by simp [emitArshConst]⟩
  · exact ⟨_, emitArshConst_emits hk hkw hpool⟩

/-- It touches its header and the two scratch headers it takes. -/
theorem aluShiftBy_into {r k : Nat} (is64 : Bool) (hkw : k < (opWidth is64).bits)
    (h : (aluShiftBy idx .arsh is64 r k).Accepts c t () t' ops) :
    ∀ op ∈ ops, op.Into fun h => h = r ∨ h = hTmp t.tmpNext ∨ h = hTmp (t.tmpNext + 1) := by
  unfold aluShiftBy at h
  rw [if_pos rfl] at h
  rcases Nat.eq_zero_or_pos k with rfl | hk
  · obtain ⟨_, rfl⟩ : t' = t ∧ ops = [] := by simpa [emitArshConst] using h
    simp
  · obtain ⟨_, rfl⟩ := emitArshConst_accepts hk hkw h
    simp [arshOps, Op.Into]

/-- The instruction `dst >>= imm`, arithmetic, at either width. -/
theorem aluShift_emits {is64 : Bool} {i : Insn} {d : Nat} (hop : i.aluOp = .arsh)
    (himm : i.isImm = true) (hpool : t.tmpNext + 2 < numTmps) :
    ∃ t', (aluShift idx i is64 d).Emits c t () t' := by
  unfold aluShift
  rw [himm, hop]
  cases is64 with
  | true => exact aluShiftBy_emits true (Nat.mod_lt _ (by decide)) (by omega)
  | false =>
    obtain ⟨t', hshift⟩ := @aluShiftBy_emits c { t with tmpNext := t.tmpNext + 1 } idx
      (hTmp t.tmpNext) _ false (Nat.mod_lt i.imm32 (by decide)) hpool
    exact ⟨t', (freshTmp_emits (by omega)).bind (cast_emits.bind (hshift.bind cast_emits))⟩

theorem aluShift_into {is64 : Bool} {i : Insn} {d : Nat} (hop : i.aluOp = .arsh)
    (h : (aluShift idx i is64 d).Accepts c t () t' ops) :
    ∀ op ∈ ops, op.Into fun h => h = d ∨ h = hTmp t.tmpNext ∨ h = hTmp (t.tmpNext + 1) ∨
      is64 = false ∧ h = hTmp (t.tmpNext + 2) := by
  unfold aluShift at h
  split at h
  · simp at h
  rw [hop] at h
  cases is64 with
  | true =>
    intro op hmem
    exact (aluShiftBy_into true (Nat.mod_lt _ (by decide)) h op hmem).mono fun h hh =>
      hh.elim .inl fun hh => .inr (hh.elim .inl fun hh => .inr (.inl hh))
  | false =>
    simp only [Bool.false_eq_true, if_false, accepts_bind, accepts_freshTmp, accepts_cast] at h
    obtain ⟨_, _, _, ⟨_, rfl, rfl, rfl⟩, _, ⟨_, _, _, ⟨rfl, rfl⟩, o, ⟨_, _, _, hshift, _,
      ⟨rfl, rfl⟩, rfl⟩, rfl⟩, rfl⟩ := h
    have hinto := aluShiftBy_into false (Nat.mod_lt _ (by decide)) hshift
    intro op hmem
    simp only [List.nil_append, List.cons_append, List.mem_cons, List.mem_append,
      List.not_mem_nil, or_false] at hmem
    rcases hmem with rfl | hmem | rfl
    · exact .inr (.inl rfl)
    · refine (hinto op hmem).mono fun h hh => ?_
      rcases hh with rfl | rfl | rfl
      · exact .inr (.inl rfl)
      · exact .inr (.inr (.inl rfl))
      · exact .inr (.inr (.inr ⟨rfl, rfl⟩))
    · exact .inl rfl

/-- What `dst >>= imm` leaves in the destination, arithmetically and as the kernel does it: the
count is the immediate's low bits, and the 32-bit form zeroes the upper half. -/
def arshVal (is64 : Bool) (imm : Int) (x : BitVec 64) : BitVec 64 :=
  if is64 then BitVec.ofInt 64 (x.toInt >>> (imm % 64).toNat)
  else (BitVec.ofInt 32 ((x.setWidth 32).toInt >>> (imm % 32).toNat)).setWidth 64

/-- The count as the translator masks it. -/
theorem imm32_mod {i : Insn} {n : Nat} (hn : n ∣ 2 ^ 32) : i.imm32 % n =
    (i.imm.toInt % n).toNat := by
  have hlt := i.imm.isLt
  unfold Insn.imm32
  rw [BitVec.toInt_eq_toNat_cond]
  split
  · rfl
  · obtain ⟨m, hm⟩ := hn
    rw [hm]
    push_cast
    rw [Int.sub_mul_emod_self_left]
    rfl

/-- An arithmetic shift by an immediate computes `arshVal` of it. -/
theorem aluVal_arsh {i : Insn} {is64 : Bool} {x y : BitVec 64} (hop : i.aluOp = .arsh)
    (himm : i.isImm = true) : i.aluVal is64 x y = some (arshVal is64 i.imm.toInt x) := by
  have hshift : i.aluOp.isShift = true := by rw [hop]; rfl
  have hend : i.aluOp ≠ .end_ := by rw [hop]; decide
  have h64 : i.imm32 % 64 = (i.imm.toInt % 64).toNat := imm32_mod (n := 64) (by decide)
  have h32 : i.imm32 % 32 = (i.imm.toInt % 32).toNat := imm32_mod (n := 32) (by decide)
  cases is64 with
  | true =>
    have hval : i.aluVal true x y = some (i.aluOp.shift x (i.imm32 % 64)) := by
      simp [Insn.aluVal, hend, himm, AluOp.val_of_isShift hshift, Insn.imm32, signExtend_mod]
    rw [hval, hop, h64]
    rfl
  | false =>
    have hval : i.aluVal false x y =
        some ((i.aluOp.shift (x.setWidth 32) (i.imm32 % 32)).setWidth 64) := by
      simp [Insn.aluVal, hend, himm, AluOp.val_of_isShift hshift, Insn.imm32]
    rw [hval, hop, h32]
    rfl

/-- The emitted operations are the arithmetic right shift: of a header of either width by any
count below the width, and of a register by any immediate. -/
theorem arithmetic_shift_exact (c : Config) (t : Translator) (idx : Nat) (is64 : Bool) :
    (∀ r k : Nat, 0 < k → k < (opWidth is64).bits → t.tmpNext + 1 < numTmps →
      r ≠ hTmp t.tmpNext → r ≠ hTmp (t.tmpNext + 1) →
      ∃ t' ops, (emitArshConst idx r k (if is64 then 64 else 32)).Accepts c t () t' ops ∧
        ∀ (len : Nat → Nat) (σ : State) (x : BitVec (opWidth is64).bits),
          σ.hdr r = .int (opWidth is64) x.toNat →
          (runOps len σ ops).hdr r = .int (opWidth is64)
            (BitVec.ofInt (opWidth is64).bits (x.toInt >>> k)).toNat ∧
          (runOps len σ ops).mem = σ.mem ∧
          ∀ h, h ≠ r → h ≠ hTmp t.tmpNext → h ≠ hTmp (t.tmpNext + 1) →
            (runOps len σ ops).hdr h = σ.hdr h) ∧
    ∀ (i : Insn) (st : AbsState), i.aluOp = .arsh → i.isImm = true → i.dst < numBpfRegs →
      i.src < numBpfRegs → t.tmpNext + 2 < numTmps →
      ∃ st' t' ops, (translateAlu idx i is64 st).Accepts c t st' t' ops ∧
        ∀ (len : Nat → Nat) (σ : State) (x : BitVec 64), σ.hdr (hReg i.dst) = word x →
          (runOps len σ ops).hdr (hReg i.dst) = word (arshVal is64 i.imm.toInt x) ∧
          (runOps len σ ops).mem = σ.mem ∧
          ∀ h, h ≠ hReg i.dst → h ≠ hTmp t.tmpNext → h ≠ hTmp (t.tmpNext + 1) →
            (is64 = false → h ≠ hTmp (t.tmpNext + 2)) → (runOps len σ ops).hdr h = σ.hdr h := by
  constructor
  · intro r k hk hkw hpool h₀ h₁
    obtain ⟨ops, h⟩ := @emitArshConst_emits c t idx is64 r k hk hkw hpool
    refine ⟨_, ops, h, fun len σ x hx => ?_⟩
    obtain ⟨_, rfl⟩ := emitArshConst_accepts hk hkw h
    have hinto : ∀ op ∈ arshOps (opWidth is64) r (hTmp t.tmpNext) (hTmp (t.tmpNext + 1)) k,
        op.Into fun h => h = r ∨ h = hTmp t.tmpNext ∨ h = hTmp (t.tmpNext + 1) := by
      simp [arshOps, Op.Into]
    have hsame := runOps_sameBut hinto len σ
    refine ⟨arshOps_value hx hk hkw h₀.symm h₁.symm, hsame.mem, fun h hr ht₀ ht₁ => ?_⟩
    exact hsame.hdr h (by simp [hr, ht₀, ht₁])
  · intro i st hop himm hdst hsrc hpool
    obtain ⟨t', ops, h⟩ := @aluShift_emits c t idx is64 i (hReg i.dst) hop himm hpool
    have hacc : (translateAlu idx i is64 st).Accepts c t
        (st.setReg i.dst (aluInfo i is64 (st.reg i.dst) (st.reg i.src))) t' ops := by
      unfold translateAlu
      rw [if_neg (by omega)]
      refine accepts_bind.mpr
        ⟨(), t', ops, ?_, [], accepts_pure.mpr ⟨rfl, rfl, rfl⟩, by simp⟩
      unfold aluOps
      rw [hop]
      exact h
    refine ⟨_, t', ops, hacc, fun len σ x hx => ?_⟩
    have hne : ∀ j, hReg i.dst ≠ hTmp j := fun j => by simp only [hReg, hTmp]; omega
    obtain ⟨_, hval⟩ := @aluShift_spec c t t' ops idx i len is64 (hReg i.dst) x x
      (by rw [hop]; rfl) hne h
    obtain ⟨v, hv, hres⟩ := hval σ hx
    rw [aluVal_arsh hop himm] at hv
    obtain rfl := Option.some.inj hv
    have hsame := runOps_sameBut (aluShift_into hop h) len σ
    refine ⟨hres, hsame.mem, fun h hd ht₀ ht₁ ht₂ => hsame.hdr h ?_⟩
    rintro (rfl | rfl | rfl | ⟨h32, rfl⟩)
    · exact hd rfl
    · exact ht₀ rfl
    · exact ht₁ rfl
    · exact ht₂ h32 rfl

/-- `r3 >>= 68`, where the count is masked to 4. -/
theorem negative_shifted : ∃ st' t' ops,
    (translateAlu 0 ⟨0xc7, 3, 0, 0, 68⟩ true .init).Accepts xdpConfig .init st' t' ops ∧
      (runOps (fun _ => 0) (filled (BitVec.ofInt 64 (-256))) ops).hdr (hReg 3) =
        word (BitVec.ofInt 64 (-16)) := by
  obtain ⟨st', t', ops, h, hrun⟩ := (arithmetic_shift_exact xdpConfig .init 0 true).2
    ⟨0xc7, 3, 0, 0, 68⟩ .init (by decide) (by decide) (by decide) (by decide) (by decide)
  exact ⟨st', t', ops, h, (hrun _ _ (BitVec.ofInt 64 (-256)) rfl).1⟩

end Synthesized

end Ect
