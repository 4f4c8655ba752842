-- SUMMARY: The operations an ALU instruction is lowered to compute what the instruction computes.
import Ect.Base.Words
import Ect.Bpf.Vm
import Ect.Ir.Semantics
import Ect.Translate.Alu

/-!
# ALU lowering computes the ISA's values

For every accepted ALU instruction, running the emitted operations leaves in the
destination header the value `Insn.aluVal` gives, and touches nothing but that
header and the scratch pool.
-/

namespace Ect

open TransM Words LittleEndian

/-! ## Header values -/

/-- The value of a 64-bit register header. -/
def word (x : BitVec 64) : CrVal := .int .w64 x.toNat

/-- The value of a narrowed header. -/
def half (x : BitVec 32) : CrVal := .int .w32 x.toNat

theorem word_ofNat {v : Nat} (h : v < 2 ^ 64) : word (BitVec.ofNat 64 v) = .int .w64 v := by
  rw [word, BitVec.toNat_ofNat, Nat.mod_eq_of_lt h]

/-- The scratch headers. -/
def IsScratch (h : Nat) : Prop := 30 ≤ h ∧ h < 94

theorem isScratch_hTmp {k : Nat} (h : k < numTmps) : IsScratch (hTmp k) := by
  simp only [IsScratch, hTmp, numTmps] at *; omega

theorem not_isScratch_hReg (r : Fin 16) : ¬IsScratch (hReg r) := by
  simp only [IsScratch, hReg]; omega

/-! ## Operations on known headers -/

section Eval

variable {len : Nat → Nat} {σ : State} {w : Width} {s d n m k : Nat}

theorem Operand.eval_hdr (h : σ.hdr s = .int w n) : (hdr s).eval σ w = some n := by
  simp [hdr, Operand.eval, h]

theorem Operand.eval_konst (v : Int) :
    (konst v).eval σ w = some ((v % 2 ^ 64).toNat % 2 ^ w.bits) :=
  rfl

theorem Operand.eval_konstN (h : k < 2 ^ w.bits) : (konstN k).eval σ w = some k := by
  have h64 : k < 2 ^ 64 := lt_of_lt_of_le h w.pow_bits_le
  have hk : ((k : Int) % 2 ^ 64).toNat = k := by omega
  rw [konstN, Operand.eval_konst, hk, Nat.mod_eq_of_lt h]

theorem Op.eval_stateless {f : BinOp} {a b : Operand} (ha : a.eval σ w = some n)
    (hb : b.eval σ w = some m) :
    (Op.stateless f w a b d).eval len σ = σ.setHdr d (.int w (f.eval w n m)) := by
  simp [Op.eval, ha, hb]

theorem Op.eval_cast {into : Width} {a : Operand} (ha : a.eval σ w = some n) :
    (Op.cast w into a d).eval len σ = σ.setHdr d (.int into (n % 2 ^ into.bits)) := by
  simp [Op.eval, ha]

theorem setOp_eval {v : Nat} (hv : v < 2 ^ 64) :
    (setOp d v).eval len σ = σ.setHdr d (.int .w64 v) := by
  have hmod : v % 18446744073709551616 = v := Nat.mod_eq_of_lt hv
  change (Op.stateless .add .w64 (konstN v) (konst 0) d).eval len σ = _
  rw [Op.eval_stateless (Operand.eval_konstN hv) (Operand.eval_konst 0)]
  simp [BinOp.eval, hmod]

theorem moveOp_eval (hs : σ.hdr s = .int .w64 n) (hn : n < 2 ^ 64) :
    (moveOp d s).eval len σ = σ.setHdr d (.int .w64 n) := by
  have hmod : n % 18446744073709551616 = n := Nat.mod_eq_of_lt hn
  rw [moveOp, Op.eval_stateless (Operand.eval_hdr hs) (Operand.eval_konst 0)]
  simp [BinOp.eval, hmod]

theorem narrow_eval {x : BitVec 64} (hs : σ.hdr s = word x) :
    (Op.cast .w64 .w32 (hdr s) d).eval len σ = σ.setHdr d (half (x.setWidth 32)) := by
  rw [Op.eval_cast (Operand.eval_hdr hs), half, BitVec.toNat_setWidth]
  rfl

theorem widen_eval {x : BitVec 32} (hs : σ.hdr s = half x) :
    (Op.cast .w32 .w64 (hdr s) d).eval len σ = σ.setHdr d (word (x.setWidth 64)) := by
  rw [Op.eval_cast (Operand.eval_hdr hs), word, BitVec.toNat_setWidth]
  rfl

end Eval

/-! ## Binary operators -/

/-- A stateless operator on machine words. -/
def BinOp.bv {n : Nat} (f : BinOp) (x y : BitVec n) : BitVec n :=
  match f with
  | .add => x + y
  | .sub => x - y
  | .and => x &&& y
  | .or => x ||| y
  | .xor => x ^^^ y
  | .mul => x * y
  | .div => x / y
  | .mod => x % y

theorem BinOp.eval_toNat (f : BinOp) (w : Width) (x y : BitVec w.bits) :
    f.eval w x.toNat y.toNat = (f.bv x y).toNat := by
  cases f with
  | add => simp [BinOp.eval, BinOp.bv]
  | sub => simp [BinOp.eval, BinOp.bv, BitVec.toNat_sub]
  | and =>
    simp only [BinOp.eval, BinOp.bv, ← BitVec.toNat_and]
    exact Nat.mod_eq_of_lt (x &&& y).isLt
  | or =>
    simp only [BinOp.eval, BinOp.bv, ← BitVec.toNat_or]
    exact Nat.mod_eq_of_lt (x ||| y).isLt
  | xor =>
    simp only [BinOp.eval, BinOp.bv, ← BitVec.toNat_xor]
    exact Nat.mod_eq_of_lt (x ^^^ y).isLt
  | mul => simp [BinOp.eval, BinOp.bv]
  | div =>
    simp only [BinOp.eval, BinOp.bv, BitVec.toNat_udiv]
    exact Nat.mod_eq_of_lt (lt_of_le_of_lt (Nat.div_le_self _ _) x.isLt)
  | mod =>
    simp only [BinOp.eval, BinOp.bv, BitVec.toNat_umod]
    exact Nat.mod_eq_of_lt (lt_of_le_of_lt (Nat.mod_le _ _) x.isLt)

theorem AluOp.val_of_binop {n : Nat} {op : AluOp} {f : BinOp} (h : op.binop = some f)
    (x y : BitVec n) : op.val x y = some (f.bv x y) := by
  cases op <;> simp only [AluOp.binop, Option.some.injEq, reduceCtorEq] at h <;> subst h <;> rfl

theorem binop64_eval {len : Nat → Nat} {σ : State} {f : BinOp} {s d : Nat} {b : Operand}
    {x y : BitVec 64} (hs : σ.hdr s = word x) (hb : b.eval σ .w64 = some y.toNat) :
    (Op.stateless f .w64 (hdr s) b d).eval len σ = σ.setHdr d (word (f.bv x y)) := by
  rw [Op.eval_stateless (Operand.eval_hdr hs) hb]
  exact congrArg (fun v => σ.setHdr d (.int .w64 v)) (f.eval_toNat .w64 x y)

theorem binop32_eval {len : Nat → Nat} {σ : State} {f : BinOp} {s d : Nat} {b : Operand}
    {x y : BitVec 32} (hs : σ.hdr s = half x) (hb : b.eval σ .w32 = some y.toNat) :
    (Op.stateless f .w32 (hdr s) b d).eval len σ = σ.setHdr d (half (f.bv x y)) := by
  rw [Op.eval_stateless (Operand.eval_hdr hs) hb]
  exact congrArg (fun v => σ.setHdr d (.int .w32 v)) (f.eval_toNat .w32 x y)

/-! ## Immediates -/

section Imm

variable {σ : State} {i : Insn}

theorem Insn.imm64_lt (i : Insn) : i.imm64 < 2 ^ 64 := (i.imm.signExtend 64).isLt

theorem Insn.imm32_lt (i : Insn) : i.imm32 < 2 ^ 32 := i.imm.isLt

theorem konst_imm64_eval : (konst i.imm64).eval σ .w64 = some (i.imm.signExtend 64).toNat :=
  Operand.eval_konstN i.imm64_lt

theorem konst_imm32_eval : (konst i.imm32).eval σ .w32 = some i.imm.toNat :=
  Operand.eval_konstN i.imm32_lt

/-- A shift count is read off the low bits, which sign extension keeps. -/
theorem signExtend_mod (x : BitVec 32) : (x.signExtend 64).toNat % 64 = x.toNat % 64 := by
  have hx := x.isLt
  rw [BitVec.toNat_signExtend, BitVec.toNat_setWidth]
  split <;> omega

end Imm

/-! ## Shifts -/

section Shift

variable {len : Nat → Nat} {σ : State} {w : Width} {t k : Nat}

theorem one_shiftLeft_lt (hk : k < w.bits) : 1 <<< k < 2 ^ w.bits := by
  rw [Nat.one_shiftLeft]
  exact Nat.pow_lt_pow_right (by decide) hk

variable (len) in
/-- A left shift by a constant is a multiplication. -/
theorem lsh_eval {x : BitVec w.bits} (hx : σ.hdr t = .int w x.toNat) (hk : k < w.bits) :
    (Op.stateless .mul w (hdr t) (konstN (1 <<< k)) t).eval len σ =
      σ.setHdr t (.int w (x <<< k).toNat) := by
  rw [Op.eval_stateless (Operand.eval_hdr hx) (Operand.eval_konstN (one_shiftLeft_lt hk)),
    BinOp.eval, BitVec.toNat_shiftLeft, Nat.one_shiftLeft, Nat.shiftLeft_eq]

variable (len) in
/-- A logical right shift by a constant is a division. -/
theorem rsh_eval {x : BitVec w.bits} (hx : σ.hdr t = .int w x.toNat) (hk : k < w.bits) :
    (Op.stateless .div w (hdr t) (konstN (1 <<< k)) t).eval len σ =
      σ.setHdr t (.int w (x >>> k).toNat) := by
  have hlt : x.toNat / 2 ^ k < 2 ^ w.bits := lt_of_le_of_lt (Nat.div_le_self _ _) x.isLt
  rw [Op.eval_stateless (Operand.eval_hdr hx) (Operand.eval_konstN (one_shiftLeft_lt hk)),
    BinOp.eval, BitVec.toNat_ushiftRight, Nat.one_shiftLeft, Nat.shiftRight_eq_div_pow,
    Nat.mod_eq_of_lt hlt]

/-- The four operations of an arithmetic right shift by a constant. -/
def arshOps (w : Width) (t tSign tMask k : Nat) : List Op :=
  [.stateless .div w (hdr t) (konstN (1 <<< (w.bits - 1))) tSign,
    .stateless .mul w (hdr tSign) (konstN (((1 <<< k) - 1) <<< (w.bits - k))) tMask,
    .stateless .div w (hdr t) (konstN (1 <<< k)) t,
    .stateless .or w (hdr t) (hdr tMask) t]

theorem arshOps_value {tSign tMask : Nat} {x : BitVec w.bits} (hx : σ.hdr t = .int w x.toNat)
    (hk : 0 < k) (hkw : k < w.bits) (h₁ : tSign ≠ t) (h₂ : tMask ≠ t) :
    (runOps len σ (arshOps w t tSign tMask k)).hdr t = .int w (x.sshiftRight k).toNat := by
  have hxlt := x.isLt
  have hmask : ((1 <<< k) - 1) <<< (w.bits - k) < 2 ^ w.bits := by
    rw [Nat.one_shiftLeft, signMask_eq (Nat.le_of_lt hkw)]
    have := Nat.two_pow_pos (w.bits - k)
    have := Nat.two_pow_pos w.bits
    omega
  have hsign : x.toNat / 2 ^ (w.bits - 1) < 2 ^ w.bits :=
    lt_of_le_of_lt (Nat.div_le_self _ _) hxlt
  have hlow : x.toNat / 2 ^ k < 2 ^ w.bits := lt_of_le_of_lt (Nat.div_le_self _ _) hxlt
  -- the states after each of the four operations
  simp only [arshOps, runOps_cons, runOps_nil]
  rw [Op.eval_stateless (Operand.eval_hdr hx)
    (Operand.eval_konstN (one_shiftLeft_lt (Nat.sub_lt w.bits_pos (by decide))))]
  rw [Op.eval_stateless (σ := State.setHdr _ _ _) (Operand.eval_hdr (by simp; rfl))
    (Operand.eval_konstN hmask)]
  rw [Op.eval_stateless (σ := State.setHdr _ _ _)
    (Operand.eval_hdr (n := x.toNat) (by simp [h₁.symm, h₂.symm, hx]))
    (Operand.eval_konstN (one_shiftLeft_lt hkw))]
  rw [Op.eval_stateless (σ := State.setHdr _ _ _) (Operand.eval_hdr (by simp; rfl))
    (Operand.eval_hdr (by simp [h₂]; rfl))]
  simp only [State.setHdr_hdr, if_true, CrVal.int.injEq, true_and, BinOp.eval, Nat.one_shiftLeft]
  rw [Nat.mod_eq_of_lt hlow, Nat.mod_eq_of_lt hsign, ← Nat.one_shiftLeft k, Nat.one_shiftLeft k,
    ← toNat_sshiftRight_eq x hk hkw]
  exact Nat.mod_eq_of_lt (x.sshiftRight k).isLt

end Shift

/-! ## Accepted ALU instructions -/

/-- The operations compute into `d` through scratch headers alone. -/
def IntoReg (d : Nat) (ops : List Op) : Prop := ∀ op ∈ ops, op.Into fun h => h = d ∨ IsScratch h

section IntoReg

variable {d : Nat} {xs ys : List Op}

@[simp] theorem intoReg_nil : IntoReg d [] := by simp [IntoReg]

theorem IntoReg.append (hx : IntoReg d xs) (hy : IntoReg d ys) : IntoReg d (xs ++ ys) := by
  intro op hop
  rcases List.mem_append.mp hop with h | h
  · exact hx op h
  · exact hy op h

@[simp] theorem intoReg_cons {op : Op} :
    IntoReg d (op :: xs) ↔ (op.Into fun h => h = d ∨ IsScratch h) ∧ IntoReg d xs := by
  simp [IntoReg]

/-- Operations into a scratch header are operations into any header. -/
theorem IntoReg.of_scratch {t : Nat} (ht : IsScratch t) (h : IntoReg t xs) : IntoReg d xs := by
  intro op hop
  have hop := h op hop
  cases op with
  | stateless f w a b s => exact .inr (hop.elim (fun h => h ▸ ht) id)
  | cast frm into a s => exact .inr (hop.elim (fun h => h ▸ ht) id)
  | load => exact hop.elim
  | store => exact hop.elim

end IntoReg

section Accepted

variable {c : Config} {t t' : Translator} {ops : List Op} {idx : Nat} {i : Insn} {len : Nat → Nat}
  {σ : State}

/-- The width an ALU instruction operates at. -/
def opWidth (is64 : Bool) : Width := if is64 then .w64 else .w32

/-- A shift by a known count. -/
def AluOp.shift {n : Nat} (op : AluOp) (x : BitVec n) (k : Nat) : BitVec n :=
  match op with
  | .lsh => x <<< k
  | .rsh => x >>> k
  | _ => x.sshiftRight k

def AluOp.isShift (op : AluOp) : Bool := op == .lsh || op == .rsh || op == .arsh

theorem AluOp.val_of_isShift {n : Nat} {op : AluOp} (h : op.isShift = true) (x y : BitVec n) :
    op.val x y = some (op.shift x (y.toNat % n)) := by
  cases op <;> first | rfl | simp [AluOp.isShift] at h

theorem AluOp.shift_zero {n : Nat} (op : AluOp) (x : BitVec n) : op.shift x 0 = x := by
  cases op <;> simp [AluOp.shift]

theorem emitArshConst_accepts {is64 : Bool} {r k : Nat} (hk : 0 < k) (hkw : k < (opWidth is64).bits)
    (h : (emitArshConst idx r k (if is64 then 64 else 32)).Accepts c t () t' ops) :
    t.tmpNext + 1 < numTmps ∧
      ops = arshOps (opWidth is64) r (hTmp t.tmpNext) (hTmp (t.tmpNext + 1)) k := by
  unfold emitArshConst at h
  have hne : ¬(k = 0 ∨ k ≥ if is64 then 64 else 32) := by
    cases is64 <;> simp [opWidth] at hkw ⊢ <;> omega
  rw [if_neg hne] at h
  simp only [accepts_bind, accepts_freshTmp, accepts_binop] at h
  obtain ⟨_, _, _, ⟨hlt, rfl, rfl, rfl⟩, _, ⟨_, _, _, ⟨hlt', rfl, rfl, rfl⟩, _, ⟨_, _, _,
    ⟨rfl, rfl⟩, _, ⟨_, _, _, ⟨rfl, rfl⟩, _, ⟨_, _, _, ⟨rfl, rfl⟩, _, ⟨rfl, rfl⟩, rfl⟩, rfl⟩, rfl⟩,
    rfl⟩, rfl⟩ := h
  refine ⟨hlt', ?_⟩
  cases is64 with
  | true => rfl
  | false =>
    -- the explicit mask of the 32-bit form does nothing
    have hmask : ((1 <<< k) - 1) <<< (32 - k) &&& 0xffffffff = ((1 <<< k) - 1) <<< (32 - k) := by
      have hlt : ((1 <<< k) - 1) <<< (32 - k) < 2 ^ 32 := by
        simp only [opWidth, Bool.false_eq_true, if_false, Width.bits_w32] at hkw
        rw [Nat.one_shiftLeft, signMask_eq (by omega)]
        have := Nat.two_pow_pos (32 - k)
        omega
      have := Nat.and_two_pow_sub_one_of_lt_two_pow hlt
      simpa using this
    simp [arshOps, opWidth, hmask]

/-- A shift by a constant, at the width of the instruction. -/
theorem aluShiftBy_spec {op : AluOp} {is64 : Bool} {r k : Nat} (hop : op.isShift = true)
    (hkw : k < (opWidth is64).bits) (hr : ∀ j, t.tmpNext ≤ j → r ≠ hTmp j)
    (h : (aluShiftBy idx op is64 r k).Accepts c t () t' ops) :
    IntoReg r ops ∧ ∀ (σ : State) (x : BitVec (opWidth is64).bits),
      σ.hdr r = .int (opWidth is64) x.toNat →
      (runOps len σ ops).hdr r = .int (opWidth is64) (op.shift x k).toNat := by
  rcases Nat.eq_zero_or_pos k with rfl | hk
  · -- nothing is emitted
    have hnil : ops = [] := by
      unfold aluShiftBy emitArshConst at h
      split at h <;> simp at h <;> exact h.2
    subst hnil
    refine ⟨intoReg_nil, fun σ x hx => ?_⟩
    rw [AluOp.shift_zero]; exact hx
  · unfold aluShiftBy at h
    split at h
    · rename_i harsh
      subst harsh
      obtain ⟨hlt, rfl⟩ := emitArshConst_accepts hk hkw h
      constructor
      · simp only [arshOps, intoReg_cons, intoReg_nil, and_true, Op.Into, true_or, and_self]
        exact ⟨.inr (isScratch_hTmp (by omega)), .inr (isScratch_hTmp hlt)⟩
      · intro σ x hx
        exact arshOps_value hx hk hkw (hr _ (Nat.le_refl _)).symm (hr _ (Nat.le_succ _)).symm
    · rename_i harsh
      rw [if_pos (by omega)] at h
      simp only [accepts_binop] at h
      obtain ⟨_, rfl⟩ := h
      refine ⟨by simp [Op.Into], fun σ x hx => ?_⟩
      rw [runOps_cons, runOps_nil]
      cases op <;> first | (simp [AluOp.isShift] at hop; done) | skip
      · have := lsh_eval len hx hkw
        simpa [opWidth, AluOp.shift] using congrArg (fun σ => State.hdr σ r) this
      · have := rsh_eval len hx hkw
        simpa [opWidth, AluOp.shift] using congrArg (fun σ => State.hdr σ r) this
      · exact absurd rfl harsh

/-- The 32-bit form: narrow, compute, widen. -/
theorem narrowed_value {r s : Nat} {core : List Op} {x : BitVec 64} {v : BitVec 32}
    (hx : σ.hdr r = word x)
    (hcore : ∀ σ : State, σ.hdr s = half (x.setWidth 32) → (runOps len σ core).hdr s = half v) :
    (runOps len σ (.cast .w64 .w32 (hdr r) s :: (core ++ [.cast .w32 .w64 (hdr s) r]))).hdr r =
      word (v.setWidth 64) := by
  rw [runOps_cons, narrow_eval hx, runOps_append, runOps_cons, runOps_nil,
    widen_eval (hcore _ (by simp))]
  simp

theorem aluMov_spec {is64 : Bool} {hd hs : Nat} {x y : BitVec 64} (hop : i.aluOp = .mov)
    (h : (aluMov idx i is64 hd hs).Accepts c t () t' ops) :
    IntoReg hd ops ∧ ∀ σ : State, (i.srcX = true → σ.hdr hs = word y) →
      ∃ v, i.aluVal is64 x y = some v ∧ (runOps len σ ops).hdr hd = word v := by
  unfold aluMov at h
  have hval : i.aluVal is64 x y = if is64 then some (if i.isImm then i.imm.signExtend 64 else y)
      else some ((if i.isImm then i.imm else y.setWidth 32).setWidth 64) := by
    simp [Insn.aluVal, hop, AluOp.val]
  rw [hval]
  cases is64 with
  | true =>
    simp only [if_true] at h ⊢
    split at h
    · rename_i himm
      obtain ⟨_, rfl⟩ := accepts_set.mp h
      refine ⟨by simp [setOp, Op.Into], fun σ _ => ⟨_, rfl, ?_⟩⟩
      rw [runOps_cons, runOps_nil, setOp_eval i.imm64_lt]
      simp [himm, word, Insn.imm64]
    · rename_i himm
      have hsrc : i.srcX = true := by simpa [Insn.isImm] using himm
      obtain ⟨_, rfl⟩ := accepts_move.mp h
      refine ⟨by simp [moveOp, Op.Into], fun σ hs => ⟨_, rfl, ?_⟩⟩
      rw [runOps_cons, runOps_nil, moveOp_eval (hs hsrc) y.isLt]
      simp [himm, word]
  | false =>
    simp only [Bool.false_eq_true, if_false] at h ⊢
    split at h
    · rename_i himm
      obtain ⟨_, rfl⟩ := accepts_set.mp h
      refine ⟨by simp [setOp, Op.Into], fun σ _ => ⟨_, rfl, ?_⟩⟩
      have h64 : i.imm32 < 2 ^ 64 := by have := i.imm32_lt; omega
      have hmod : i.imm.toNat % 18446744073709551616 = i.imm.toNat := Nat.mod_eq_of_lt h64
      rw [runOps_cons, runOps_nil, setOp_eval h64]
      simp [himm, word, Insn.imm32, hmod]
    · rename_i himm
      have hsrc : i.srcX = true := by simpa [Insn.isImm] using himm
      simp only [accepts_bind, accepts_freshTmp, accepts_cast] at h
      obtain ⟨_, _, _, ⟨hlt, rfl, rfl, rfl⟩, _, ⟨_, _, _, ⟨rfl, rfl⟩, _, ⟨rfl, rfl⟩, rfl⟩, rfl⟩ := h
      refine ⟨by simp [Op.Into, isScratch_hTmp hlt], fun σ hs => ⟨_, rfl, ?_⟩⟩
      simp only [List.nil_append, List.cons_append, runOps_cons, runOps_nil]
      rw [narrow_eval (hs hsrc), widen_eval (x := y.setWidth 32) (by simp)]
      simp [himm]

theorem aluNeg_spec {is64 : Bool} {hd : Nat} {x y : BitVec 64} (hop : i.aluOp = .neg)
    (h : (aluNeg idx is64 hd).Accepts c t () t' ops) :
    IntoReg hd ops ∧ ∀ σ : State, σ.hdr hd = word x →
      ∃ v, i.aluVal is64 x y = some v ∧ (runOps len σ ops).hdr hd = word v := by
  have hval : i.aluVal is64 x y =
      if is64 then some (-x) else some ((-x.setWidth 32).setWidth 64) := by
    simp [Insn.aluVal, hop, AluOp.val]
  unfold aluNeg at h
  rw [hval]
  cases is64 with
  | true =>
    simp only [if_true, accepts_binop] at h ⊢
    obtain ⟨_, rfl⟩ := h
    refine ⟨by simp [Op.Into], fun σ hx => ⟨_, rfl, ?_⟩⟩
    rw [runOps_cons, runOps_nil,
      Op.eval_stateless (n := (0#64).toNat) (by simp [konst, Operand.eval]) (Operand.eval_hdr hx)]
    have hsub : BinOp.sub.eval .w64 (0#64).toNat x.toNat = (0#64 - x).toNat :=
      BinOp.eval_toNat .sub .w64 0#64 x
    rw [hsub, BitVec.zero_sub]
    simp only [State.setHdr_hdr, if_true, word]
  | false =>
    simp only [Bool.false_eq_true, if_false, accepts_bind, accepts_freshTmp, accepts_cast,
      accepts_binop] at h ⊢
    obtain ⟨_, _, _, ⟨hlt, rfl, rfl, rfl⟩, _, ⟨_, _, _, ⟨rfl, rfl⟩, _, ⟨_, _, _, ⟨rfl, rfl⟩, _,
      ⟨rfl, rfl⟩, rfl⟩, rfl⟩, rfl⟩ := h
    refine ⟨by simp [Op.Into, isScratch_hTmp hlt], fun σ hx => ⟨_, rfl, ?_⟩⟩
    refine narrowed_value hx fun σ hσ => ?_
    rw [runOps_cons, runOps_nil,
      Op.eval_stateless (n := (0#32).toNat) (by simp [konst, Operand.eval]) (Operand.eval_hdr hσ)]
    have hsub : BinOp.sub.eval .w32 (0#32).toNat (x.setWidth 32).toNat =
        (0#32 - x.setWidth 32).toNat := BinOp.eval_toNat .sub .w32 0#32 (x.setWidth 32)
    rw [hsub, BitVec.zero_sub]
    simp only [State.setHdr_hdr, if_true, half]

theorem aluShift_spec {is64 : Bool} {hd : Nat} {x y : BitVec 64} (hop : i.aluOp.isShift = true)
    (hhd : ∀ j, hd ≠ hTmp j) (h : (aluShift idx i is64 hd).Accepts c t () t' ops) :
    IntoReg hd ops ∧ ∀ σ : State, σ.hdr hd = word x →
      ∃ v, i.aluVal is64 x y = some v ∧ (runOps len σ ops).hdr hd = word v := by
  have hend : i.aluOp ≠ .end_ := by intro h; simp [h, AluOp.isShift] at hop
  unfold aluShift at h
  split at h
  · simp at h
  rename_i himm
  have himm : i.isImm = true := by simpa using himm
  cases is64 with
  | true =>
    simp only [if_true] at h
    have hval : i.aluVal true x y = some (i.aluOp.shift x (i.imm32 % 64)) := by
      simp [Insn.aluVal, hend, himm, AluOp.val_of_isShift hop, Insn.imm32, signExtend_mod]
    have hk : i.imm32 % 64 < (opWidth true).bits := Nat.mod_lt _ (by decide)
    obtain ⟨hinto, hcore⟩ := aluShiftBy_spec hop hk (fun j _ => hhd j) h
    exact ⟨hinto, fun σ hx => ⟨_, hval, hcore σ x hx⟩⟩
  | false =>
    simp only [Bool.false_eq_true, if_false, accepts_bind, accepts_freshTmp, accepts_cast] at h
    obtain ⟨_, _, _, ⟨hlt, rfl, rfl, rfl⟩, _, ⟨_, _, _, ⟨rfl, rfl⟩, _, ⟨_, _, _, hshift, _,
      ⟨rfl, rfl⟩, rfl⟩, rfl⟩, rfl⟩ := h
    have hval : i.aluVal false x y =
        some ((i.aluOp.shift (x.setWidth 32) (i.imm32 % 32)).setWidth 64) := by
      simp [Insn.aluVal, hend, himm, AluOp.val_of_isShift hop, Insn.imm32]
    have hk : i.imm32 % 32 < (opWidth false).bits := Nat.mod_lt _ (by decide)
    obtain ⟨hinto, hcore⟩ := aluShiftBy_spec hop hk
      (fun j hj => by simp only [hTmp] at *; omega) hshift
    have hscratch := isScratch_hTmp hlt
    constructor
    · simp only [List.nil_append, List.cons_append, intoReg_cons]
      refine ⟨.inr hscratch, IntoReg.append (.of_scratch hscratch hinto) ?_⟩
      simp [Op.Into]
    · intro σ hx
      exact ⟨_, hval, narrowed_value hx fun σ hσ => hcore σ _ hσ⟩

theorem aluBinop_spec {is64 : Bool} {hd hs : Nat} {x y : BitVec 64} (hend : i.aluOp ≠ .end_)
    (hhs : ∀ j, hs ≠ hTmp j) (h : (aluBinop idx i is64 hd hs).Accepts c t () t' ops) :
    IntoReg hd ops ∧ ∀ σ : State, σ.hdr hd = word x → (i.srcX = true → σ.hdr hs = word y) →
      ∃ v, i.aluVal is64 x y = some v ∧ (runOps len σ ops).hdr hd = word v := by
  unfold aluBinop at h
  split at h
  · simp at h
  rename_i f hf
  have hsrc : i.isImm = false → i.srcX = true := by intro h; simpa [Insn.isImm] using h
  cases is64 with
  | true =>
    simp only [if_true, accepts_binop] at h
    obtain ⟨_, rfl⟩ := h
    refine ⟨by simp [Op.Into], fun σ hx hy => ?_⟩
    have hval : i.aluVal true x y =
        some (f.bv x (if i.isImm then i.imm.signExtend 64 else y)) := by
      simp [Insn.aluVal, hend, AluOp.val_of_binop hf]
    refine ⟨_, hval, ?_⟩
    rw [runOps_cons, runOps_nil]
    cases himm : i.isImm with
    | true =>
      simp only [if_true]
      rw [binop64_eval hx konst_imm64_eval]
      simp
    | false =>
      simp only [Bool.false_eq_true, if_false]
      rw [binop64_eval hx (Operand.eval_hdr (hy (hsrc himm)))]
      simp
  | false =>
    have hval : i.aluVal false x y = some
        ((f.bv (x.setWidth 32) (if i.isImm then i.imm else y.setWidth 32)).setWidth 64) := by
      simp [Insn.aluVal, hend, AluOp.val_of_binop hf]
    simp only [Bool.false_eq_true, if_false] at h
    obtain ⟨_, _, _, hfresh, _, h₁, rfl⟩ := accepts_bind.mp h
    obtain ⟨hlt, rfl, rfl, rfl⟩ := accepts_freshTmp.mp hfresh
    have hscratch := isScratch_hTmp hlt
    split at h₁
    · rename_i himm
      simp only [accepts_bind, accepts_cast, accepts_binop] at h₁
      obtain ⟨_, _, _, ⟨rfl, rfl⟩, _, ⟨_, _, _, ⟨rfl, rfl⟩, _, ⟨rfl, rfl⟩, rfl⟩, rfl⟩ := h₁
      refine ⟨by simp [Op.Into, hscratch], fun σ hx hy => ⟨_, hval, ?_⟩⟩
      refine narrowed_value hx fun σ hσ => ?_
      rw [runOps_cons, runOps_nil, binop32_eval hσ konst_imm32_eval]
      simp [himm]
    · rename_i himm
      simp only [accepts_bind, accepts_freshTmp, accepts_cast, accepts_binop] at h₁
      obtain ⟨_, _, _, ⟨rfl, rfl⟩, _, ⟨_, _, _, ⟨hlt', rfl, rfl, rfl⟩, _, ⟨_, _, _, ⟨rfl, rfl⟩, _,
        ⟨_, _, _, ⟨rfl, rfl⟩, _, ⟨rfl, rfl⟩, rfl⟩, rfl⟩, rfl⟩, rfl⟩ := h₁
      have hscratch' := isScratch_hTmp hlt'
      refine ⟨by simp [Op.Into, hscratch, hscratch'], fun σ hx hy => ⟨_, hval, ?_⟩⟩
      have hne : hs ≠ hTmp t.tmpNext := hhs _
      have hne' : hTmp t.tmpNext ≠ hTmp (t.tmpNext + 1) := by simp [hTmp]
      simp only [List.nil_append, List.cons_append, runOps_cons, runOps_nil]
      rw [narrow_eval hx,
        narrow_eval (x := y) (by simpa [hne] using hy (hsrc (by simpa using himm))),
        binop32_eval (x := x.setWidth 32) (y := y.setWidth 32) (by simp [hne'])
          (Operand.eval_hdr (by simp [half])),
        widen_eval (x := f.bv (x.setWidth 32) (y.setWidth 32)) (by simp)]
      simp [himm]

/-! ## Byte swaps -/

/-- One round of the swap. -/
theorem emitBswapByte_spec {n tSrc tAcc tB j v acc : Nat} (hj : j < n) (hn : n ≤ 8)
    (hv64 : v < 2 ^ 64) (hacc : acc < 256 ^ j) (h₁ : tSrc ≠ tB) (h₂ : tAcc ≠ tB) (h₃ : tSrc ≠ tAcc)
    (h : (emitBswapByte n tSrc tAcc tB j).Accepts c t () t' ops) :
    t' = t ∧ (∀ op ∈ ops, op.Into fun h => h = tB ∨ h = tAcc) ∧
      ∀ σ : State, σ.hdr tSrc = .int .w64 v → σ.hdr tAcc = .int .w64 (256 ^ (n - j) * acc) →
        (runOps len σ ops).hdr tSrc = .int .w64 v ∧
        (runOps len σ ops).hdr tAcc =
          .int .w64 (256 ^ (n - 1 - j) * (v / 256 ^ j % 256 + 256 * acc)) := by
  have h256 : ∀ m, 256 ^ m = 2 ^ (8 * m) := fun m => by rw [Nat.pow_mul]
  have hn64 : 256 ^ n ≤ 2 ^ 64 := by rw [h256]; exact Nat.pow_le_pow_right (by decide) (by omega)
  have hb : v / 256 ^ j % 256 < 256 := Nat.mod_lt _ (by decide)
  have hup : v / 256 ^ j % 256 * 2 ^ (8 * (n - 1 - j)) < 2 ^ 64 := by
    have hpow : 2 ^ (8 * (n - 1 - j)) ≤ 2 ^ 56 := Nat.pow_le_pow_right (by decide) (by omega)
    calc v / 256 ^ j % 256 * 2 ^ (8 * (n - 1 - j))
        ≤ 255 * 2 ^ 56 := Nat.mul_le_mul (by omega) hpow
      _ < 2 ^ 64 := by decide
  have hres : 256 ^ (n - 1 - j) * (v / 256 ^ j % 256 + 256 * acc) < 2 ^ 64 := by
    have hlt : v / 256 ^ j % 256 + 256 * acc < 256 ^ (j + 1) := by
      rw [Nat.pow_succ]; omega
    have hpow : 256 ^ (n - 1 - j) * 256 ^ (j + 1) = 256 ^ n := by
      rw [← Nat.pow_add]; congr 1; omega
    calc 256 ^ (n - 1 - j) * (v / 256 ^ j % 256 + 256 * acc)
        < 256 ^ (n - 1 - j) * 256 ^ (j + 1) :=
          Nat.mul_lt_mul_of_pos_left hlt (Nat.pow_pos (by decide))
      _ ≤ 2 ^ 64 := hpow ▸ hn64
  -- the byte, shifted to the bottom
  have hdown : ∀ (σ : State), σ.hdr tSrc = .int .w64 v →
      (if j = 0 then moveOp tB tSrc
        else .stateless .div .w64 (hdr tSrc) (konstN (1 <<< (8 * j))) tB).eval len σ =
      σ.setHdr tB (.int .w64 (v / 256 ^ j)) := by
    intro σ hσ
    split
    · rename_i h0; subst h0
      rw [moveOp_eval hσ hv64]; simp
    · have hlt : 1 <<< (8 * j) < 2 ^ Width.w64.bits := one_shiftLeft_lt (by simp; omega)
      have hdiv : v / 256 ^ j < 2 ^ 64 := lt_of_le_of_lt (Nat.div_le_self _ _) hv64
      rw [Op.eval_stateless (Operand.eval_hdr hσ) (Operand.eval_konstN hlt)]
      simp only [BinOp.eval, Nat.one_shiftLeft, ← h256]
      rw [Width.bits_w64, Nat.mod_eq_of_lt hdiv]
  have hmask : ∀ (σ : State), σ.hdr tB = .int .w64 (v / 256 ^ j) →
      (Op.stateless .and .w64 (hdr tB) (konstN 0xff) tB).eval len σ =
      σ.setHdr tB (.int .w64 (v / 256 ^ j % 256)) := by
    intro σ hσ
    have hand : v / 256 ^ j &&& 255 = v / 256 ^ j % 256 := Nat.and_two_pow_sub_one_eq_mod _ 8
    rw [Op.eval_stateless (Operand.eval_hdr hσ) (Operand.eval_konstN (by decide))]
    simp only [BinOp.eval, hand]
    rw [Width.bits_w64, Nat.mod_eq_of_lt (by omega)]
  have hmul : ∀ (σ : State), σ.hdr tB = .int .w64 (v / 256 ^ j % 256) →
      (Op.stateless .mul .w64 (hdr tB) (konstN (1 <<< (8 * (n - 1 - j)))) tB).eval len σ =
      σ.setHdr tB (.int .w64 (v / 256 ^ j % 256 * 2 ^ (8 * (n - 1 - j)))) := by
    intro σ hσ
    have hlt : 1 <<< (8 * (n - 1 - j)) < 2 ^ Width.w64.bits := one_shiftLeft_lt (by simp; omega)
    rw [Op.eval_stateless (Operand.eval_hdr hσ) (Operand.eval_konstN hlt)]
    simp only [BinOp.eval, Nat.one_shiftLeft]
    rw [Width.bits_w64, Nat.mod_eq_of_lt hup]
  have hor : ∀ (σ : State), σ.hdr tAcc = .int .w64 (256 ^ (n - j) * acc) →
      σ.hdr tB = .int .w64 (v / 256 ^ j % 256 * 2 ^ (8 * (n - 1 - j))) →
      (Op.stateless .or .w64 (hdr tAcc) (hdr tB) tAcc).eval len σ =
      σ.setHdr tAcc (.int .w64 (256 ^ (n - 1 - j) * (v / 256 ^ j % 256 + 256 * acc))) := by
    intro σ ha hσ
    rw [Op.eval_stateless (Operand.eval_hdr ha) (Operand.eval_hdr hσ)]
    simp only [BinOp.eval]
    rw [or_byte acc hj hb, Width.bits_w64, Nat.mod_eq_of_lt hres]
  have hshape : t' = t ∧ ops =
      (if j = 0 then moveOp tB tSrc
        else .stateless .div .w64 (hdr tSrc) (konstN (1 <<< (8 * j))) tB) ::
      .stateless .and .w64 (hdr tB) (konstN 0xff) tB ::
      ((if 8 * (n - 1 - j) ≠ 0 then
          [.stateless .mul .w64 (hdr tB) (konstN (1 <<< (8 * (n - 1 - j)))) tB] else []) ++
        [.stateless .or .w64 (hdr tAcc) (hdr tB) tAcc]) := by
    unfold emitBswapByte at h
    by_cases h0 : j = 0 <;> by_cases hz : 8 * (n - 1 - j) = 0 <;>
      simp [h0, hz] at h ⊢ <;> simp_all
  obtain ⟨rfl, rfl⟩ := hshape
  refine ⟨rfl, ?_, ?_⟩
  · intro op hop
    simp only [List.mem_cons, List.mem_append] at hop
    rcases hop with rfl | rfl | hop | rfl | hop
    · split <;> simp [moveOp, Op.Into]
    · simp [Op.Into]
    · split at hop
      · obtain rfl := List.mem_singleton.mp hop; simp [Op.Into]
      · cases hop
    · simp [Op.Into]
    · cases hop
  · intro σ hsrc ha
    rw [runOps_cons, runOps_cons, hdown σ hsrc, hmask _ (by simp), runOps_append]
    by_cases hz : 8 * (n - 1 - j) = 0
    · rw [if_neg (by simpa using hz), runOps_nil, runOps_cons, runOps_nil,
        hor _ (by simp [h₂, ha]) (by simp [hz])]
      simp [h₁, h₃, hsrc]
    · simp only [if_pos hz, runOps_cons, runOps_nil]
      rw [hmul _ (by simp), hor _ (by simp [h₂, ha]) (by simp)]
      simp [h₁, h₃, hsrc]

/-- The rounds from byte `j` on. -/
theorem emitBswapBytes_spec {n tSrc tAcc tB v m j : Nat} (hm : j + m = n) (hn : n ≤ 8)
    (hv : v < 2 ^ 64) (h₁ : tSrc ≠ tB) (h₂ : tAcc ≠ tB) (h₃ : tSrc ≠ tAcc)
    (h : (emitBswapBytes n tSrc tAcc tB (List.range' j m)).Accepts c t () t' ops) :
    (∀ op ∈ ops, op.Into fun h => h = tB ∨ h = tAcc) ∧
      ∀ σ : State, σ.hdr tSrc = .int .w64 v →
        σ.hdr tAcc = .int .w64 (256 ^ (n - j) * byteSwap j v) →
        (runOps len σ ops).hdr tAcc = .int .w64 (byteSwap n v) := by
  induction m generalizing j t ops with
  | zero =>
    obtain ⟨_, _, rfl⟩ := accepts_pure.mp h
    obtain rfl : j = n := by omega
    exact ⟨by simp, fun σ _ ha => by simpa using ha⟩
  | succ m ih =>
    rw [List.range'_succ] at h
    unfold emitBswapBytes at h
    obtain ⟨⟨⟩, t₁, o₁, hbyte, o₂, hrest, rfl⟩ := accepts_bind.mp h
    obtain ⟨rfl, hinto₁, hval₁⟩ := emitBswapByte_spec (by omega) hn hv
      (byteSwap_lt j v) h₁ h₂ h₃ hbyte
    obtain ⟨hinto₂, hval₂⟩ := ih (by omega) hrest
    constructor
    · intro op hop
      rcases List.mem_append.mp hop with hop | hop
      · exact hinto₁ op hop
      · exact hinto₂ op hop
    · intro σ hsrc ha
      obtain ⟨hsrc', ha'⟩ := hval₁ σ hsrc ha
      rw [runOps_append]
      refine hval₂ _ hsrc' ?_
      rw [ha', byteSwap_succ, Nat.sub_right_comm, Nat.sub_sub]

theorem pow_bytes_le {n : Nat} (hn : n ≤ 8) : 256 ^ n ≤ 2 ^ 64 := by
  have h256 : 256 ^ n = 2 ^ (8 * n) := by rw [Nat.pow_mul]
  rw [h256]
  exact Nat.pow_le_pow_right (by decide) (by omega)

/-- A byte swap of two bytes or more, of the low bytes of any word. The source is read before
anything is written, and the target written last, so neither matters to the value. -/
theorem emitBswap_wide {n src target v : Nat} (hpos : 1 < n) (hn : n ≤ 8) (hv : v < 2 ^ 64)
    (h : (emitBswap idx src n target).Accepts c t () t' ops) :
    t.tmpNext + 2 < numTmps ∧
      (∀ op ∈ ops, op.Into fun h => h = target ∨ h = hTmp t.tmpNext ∨ h = hTmp (t.tmpNext + 1) ∨
        h = hTmp (t.tmpNext + 2)) ∧
      ∀ σ : State, σ.hdr src = .int .w64 v →
        (runOps len σ ops).hdr target = .int .w64 (byteSwap n v) := by
  unfold emitBswap at h
  rw [if_neg (by omega)] at h
  simp only [accepts_bind, accepts_freshTmp, accepts_move, accepts_set] at h
  obtain ⟨_, _, _, ⟨hlt₀, rfl, rfl, rfl⟩, _, ⟨_, _, _, ⟨hlt₁, rfl, rfl, rfl⟩, _, ⟨_, _, _,
    ⟨hlt₂, rfl, rfl, rfl⟩, _, ⟨_, _, _, ⟨rfl, rfl⟩, _, ⟨_, _, _, ⟨rfl, rfl⟩, _, ⟨_, _, _, hbytes,
    _, ⟨rfl, rfl⟩, rfl⟩, rfl⟩, rfl⟩, rfl⟩, rfl⟩, rfl⟩ := h
  dsimp only at hlt₁ hlt₂ hbytes
  rw [List.range_eq_range'] at hbytes
  obtain ⟨hinto, hval⟩ := emitBswapBytes_spec (by omega) hn hv
    (by simp only [hTmp]; omega) (by simp only [hTmp]; omega) (by simp only [hTmp]; omega) hbytes
  refine ⟨hlt₂, fun op hop => ?_, fun σ hσ => ?_⟩
  · simp only [List.nil_append, List.cons_append, List.mem_cons, List.mem_append,
      List.not_mem_nil, or_false] at hop
    rcases hop with rfl | rfl | hop | rfl
    · exact .inr (.inl rfl)
    · exact .inr (.inr (.inl rfl))
    · exact (hinto op hop).mono fun h hh =>
        hh.elim (fun hh => .inr (.inr (.inr hh))) (fun hh => .inr (.inr (.inl hh)))
    · exact .inl rfl
  · have hzero : ∀ σ : State, (setOp (hTmp (t.tmpNext + 1)) 0).eval len σ =
        σ.setHdr (hTmp (t.tmpNext + 1)) (.int .w64 0) := fun σ => setOp_eval (v := 0) (by decide)
    simp only [List.nil_append, List.cons_append, runOps_cons, runOps_append, runOps_nil]
    rw [moveOp_eval hσ hv, hzero]
    have hacc := hval ((σ.setHdr (hTmp t.tmpNext) (.int .w64 v)).setHdr (hTmp (t.tmpNext + 1))
      (.int .w64 0)) (by simp [hTmp]) (by simp [byteSwap_zero])
    rw [moveOp_eval hacc (lt_of_lt_of_le (byteSwap_lt n v) (pow_bytes_le hn))]
    simp

/-- A byte swap of `n` bytes, through scratch headers. -/
theorem emitBswap_spec {n src target v : Nat} (hpos : 0 < n) (hn : n ≤ 8) (hv : v < 256 ^ n)
    (h : (emitBswap idx src n target).Accepts c t () t' ops) :
    IntoReg target ops ∧ ∀ σ : State, σ.hdr src = .int .w64 v →
      (runOps len σ ops).hdr target = .int .w64 (byteSwap n v) := by
  have hv64 : v < 2 ^ 64 := lt_of_lt_of_le hv (pow_bytes_le hn)
  by_cases hone : n = 1
  · -- one byte: a move at most
    subst hone
    have hone : byteSwap 1 v = v := by
      rw [byteSwap_succ, byteSwap_zero, Nat.pow_zero, Nat.div_one, Nat.mul_zero, Nat.add_zero]
      exact Nat.mod_eq_of_lt hv
    unfold emitBswap at h
    rw [if_pos (Nat.le_refl 1)] at h
    rw [hone]
    split at h
    · rename_i hne
      obtain ⟨_, rfl⟩ := accepts_move.mp h
      refine ⟨by simp [moveOp, Op.Into], fun σ hσ => ?_⟩
      rw [runOps_cons, runOps_nil, moveOp_eval hσ hv64]
      simp
    · rename_i heq
      obtain ⟨_, _, rfl⟩ := accepts_pure.mp h
      obtain rfl : src = target := by simpa using heq
      exact ⟨intoReg_nil, fun σ hσ => hσ⟩
  · obtain ⟨hlt, hinto, hval⟩ := emitBswap_wide (by omega) hn hv64 h
    refine ⟨fun op hop => (hinto op hop).mono ?_, hval⟩
    rintro _ (rfl | rfl | rfl | rfl)
    · exact .inl rfl
    · exact .inr (isScratch_hTmp (by omega))
    · exact .inr (isScratch_hTmp (by omega))
    · exact .inr (isScratch_hTmp hlt)

theorem aluEnd_spec {is64 : Bool} {hd : Nat} {x y : BitVec 64} (hop : i.aluOp = .end_)
    (h : (aluEnd idx i is64 hd).Accepts c t () t' ops) :
    IntoReg hd ops ∧ ∀ σ : State, σ.hdr hd = word x →
      ∃ v, i.aluVal is64 x y = some v ∧ (runOps len σ ops).hdr hd = word v := by
  have hval : i.aluVal is64 x y = some (i.endVal is64 x) := by simp [Insn.aluVal, hop]
  unfold aluEnd at h
  dsimp only at h
  split at h
  · simp at h
  rename_i hbits
  obtain ⟨n, hn0, hn8, hn⟩ : ∃ n : Nat, 0 < n ∧ n ≤ 8 ∧ i.imm.toInt = 8 * n := by
    by_cases h16 : i.imm.toInt = 16
    · exact ⟨2, by omega⟩
    · by_cases h32 : i.imm.toInt = 32
      · exact ⟨4, by omega⟩
      · exact ⟨8, by simp only [not_and, not_not] at hbits; have := hbits h16 h32; omega⟩
  have hnat : i.imm.toNat = 8 * n := by
    have := i.imm.isLt
    rw [BitVec.toInt_eq_toNat_cond] at hn
    split at hn <;> omega
  have htoNat : i.imm.toInt.toNat = 8 * n := by omega
  have hdiv : i.imm.toInt.toNat / 8 = n := by omega
  -- the truncation to the width, and then the swap
  set v := x.toNat % 2 ^ (8 * n) with hv
  have h256 : 256 ^ n = 2 ^ (8 * n) := by rw [Nat.pow_mul]
  have hvlt : v < 256 ^ n := by rw [h256]; exact Nat.mod_lt _ (Nat.two_pow_pos _)
  obtain ⟨o₁, o₂, htrunc, hswap, rfl⟩ : ∃ o₁ o₂,
      (IntoReg hd o₁ ∧ ∀ σ : State, σ.hdr hd = word x →
        (runOps len σ o₁).hdr hd = .int .w64 v) ∧
      (if (is64 || i.srcX) = true then emitBswap idx hd n hd else pure ()).Accepts c t () t' o₂ ∧
      ops = o₁ ++ o₂ := by
    rw [hdiv] at h
    split at h
    · rename_i hne
      obtain ⟨_, _, o₁, hand, o₂, hrest, rfl⟩ := accepts_bind.mp h
      obtain ⟨rfl, rfl⟩ := accepts_binop.mp hand
      refine ⟨_, o₂, ⟨by simp [Op.Into], fun σ hx => ?_⟩, hrest, rfl⟩
      have hlt : (1 <<< i.imm.toInt.toNat) - 1 < 2 ^ Width.w64.bits :=
        lt_of_le_of_lt (Nat.sub_le _ _) (one_shiftLeft_lt (by simp; omega))
      rw [runOps_cons, runOps_nil, Op.eval_stateless (Operand.eval_hdr hx)
        (Operand.eval_konstN hlt)]
      simp only [State.setHdr_hdr, if_true, BinOp.eval, htoNat, Nat.one_shiftLeft,
        Nat.and_two_pow_sub_one_eq_mod, CrVal.int.injEq, true_and, Width.bits_w64]
      exact Nat.mod_eq_of_lt (lt_of_le_of_lt (Nat.mod_le _ _) x.isLt)
    · refine ⟨[], ops, ⟨intoReg_nil, fun σ hx => ?_⟩, h, rfl⟩
      have h8 : 8 * n = 64 := by omega
      rw [runOps_nil, hx, word, hv, h8, Nat.mod_eq_of_lt x.isLt]
  have hend : i.endVal is64 x =
      BitVec.ofNat 64 (if (is64 || i.srcX) = true then byteSwap n v else v) := by
    simp only [Insn.endVal, hnat, ← hv, Nat.mul_div_cancel_left n (by decide : 0 < 8)]
  have hfit : ∀ u, u < 256 ^ n → CrVal.int .w64 u = word (BitVec.ofNat 64 u) := by
    intro u hu
    have hle : 256 ^ n ≤ 2 ^ 64 := by
      rw [h256]; exact Nat.pow_le_pow_right (by decide) (by omega)
    rw [word_ofNat (lt_of_lt_of_le hu hle)]
  split at hswap
  · rename_i hsw
    obtain ⟨hinto, hval'⟩ := emitBswap_spec hn0 hn8 hvlt hswap
    refine ⟨htrunc.1.append hinto, fun σ hx => ⟨_, hval, ?_⟩⟩
    rw [runOps_append, hval' _ (htrunc.2 σ hx), hend, if_pos hsw]
    exact hfit _ (byteSwap_lt n v)
  · rename_i hsw
    obtain ⟨_, _, rfl⟩ := accepts_pure.mp hswap
    refine ⟨by simpa using htrunc.1, fun σ hx => ⟨_, hval, ?_⟩⟩
    rw [List.append_nil, htrunc.2 σ hx, hend, if_neg hsw]
    exact hfit _ hvlt

/-- The operations of an accepted ALU instruction compute the instruction's value into
the destination, through scratch headers alone. -/
theorem aluOps_spec {is64 : Bool} {x y : BitVec 64}
    (h : (aluOps idx i is64).Accepts c t () t' ops) :
    IntoReg (hReg i.dst) ops ∧ ∀ σ : State, σ.hdr (hReg i.dst) = word x →
      (i.srcX = true → σ.hdr (hReg i.src) = word y) →
      ∃ v, i.aluVal is64 x y = some v ∧ (runOps len σ ops).hdr (hReg i.dst) = word v := by
  have hscratch : ∀ (r : Fin 16) (j : Nat), hReg r ≠ hTmp j := by
    intro r j; simp only [hReg, hTmp]; omega
  unfold aluOps at h
  dsimp only at h
  split at h
  · rename_i hop
    obtain ⟨hinto, hval⟩ := aluMov_spec (x := x) (y := y) hop h
    exact ⟨hinto, fun σ _ hy => hval σ hy⟩
  · rename_i hop
    obtain ⟨hinto, hval⟩ := aluNeg_spec (x := x) (y := y) hop h
    exact ⟨hinto, fun σ hx _ => hval σ hx⟩
  · rename_i hop
    obtain ⟨hinto, hval⟩ := aluShift_spec (x := x) (y := y) (by rw [hop]; rfl)
      (hscratch _) h
    exact ⟨hinto, fun σ hx _ => hval σ hx⟩
  · rename_i hop
    obtain ⟨hinto, hval⟩ := aluShift_spec (x := x) (y := y) (by rw [hop]; rfl)
      (hscratch _) h
    exact ⟨hinto, fun σ hx _ => hval σ hx⟩
  · rename_i hop
    obtain ⟨hinto, hval⟩ := aluShift_spec (x := x) (y := y) (by rw [hop]; rfl)
      (hscratch _) h
    exact ⟨hinto, fun σ hx _ => hval σ hx⟩
  · rename_i hop
    obtain ⟨hinto, hval⟩ := aluEnd_spec (x := x) (y := y) hop h
    exact ⟨hinto, fun σ hx _ => hval σ hx⟩
  · rename_i hend
    exact aluBinop_spec hend (hscratch _) h

theorem translateAlu_accepts {is64 : Bool} {st st' : AbsState}
    (h : (translateAlu idx i is64 st).Accepts c t st' t' ops) :
    i.dst < numBpfRegs ∧ i.src < numBpfRegs ∧
      st' = st.setReg i.dst (aluInfo i is64 (st.reg i.dst) (st.reg i.src)) ∧
      (aluOps idx i is64).Accepts c t () t' ops := by
  unfold translateAlu at h
  split at h
  · simp at h
  · rename_i hrange
    obtain ⟨⟨⟩, _, _, hops, _, hret, rfl⟩ := accepts_bind.mp h
    obtain ⟨rfl, rfl, rfl⟩ := accepts_pure.mp hret
    refine ⟨by omega, by omega, rfl, by simpa using hops⟩

end Accepted

end Ect
