-- SUMMARY: The match entry a conditional jump is lowered to decides as the jump does.
import Ect.Lowering.Alu
import Ect.Lowering.Chain

/-!
# Condition lowering decides as the ISA does

A match pattern compares unsigned values of one width for equality, above and
below. The other comparisons are lowered to these by swapping the arms, and the
signed ones by flipping the sign bit of both sides first.
-/

namespace Ect

open TransM Words

/-! ## Comparisons as match entries -/

/-- What a side of the comparison is compared as. -/
def biased {n : Nat} (signed : Bool) (x : BitVec (n + 1)) : Nat :=
  if signed then x.toNat ^^^ 2 ^ n else x.toNat

/-- The table of comparisons is right: the entry holds exactly when the jump is
taken, if the arms are not swapped. -/
theorem JmpOp.taken_table {n : Nat} {op : JmpOp} {cmp : Cmp} {swap : Bool} {w : Width}
    (h : op.table = some (cmp, swap)) (x y : BitVec (n + 1)) :
    ∃ taken, op.taken x y = some taken ∧
      cmp.eval (.int w (biased op.isSigned x)) (.int w (biased op.isSigned y)) =
        (taken != swap) := by
  have hslt : ∀ x y : BitVec (n + 1), decide (x.toNat ^^^ 2 ^ n < y.toNat ^^^ 2 ^ n) = x.slt y := by
    intro x y
    rw [Bool.eq_iff_iff, decide_eq_true_iff, slt_iff_xor_lt]
  have hsle : x.sle y = !y.slt x := BitVec.sle_eq_not_slt
  have hsge : y.sle x = !x.slt y := BitVec.sle_eq_not_slt
  cases op <;> simp only [JmpOp.table, Option.some.injEq, Prod.mk.injEq, reduceCtorEq] at h <;>
    obtain ⟨rfl, rfl⟩ := h <;> refine ⟨_, rfl, ?_⟩ <;>
    simp only [Cmp.eval, biased, JmpOp.isSigned, beq_self_eq_true, Bool.true_and, Bool.bne_false,
      Bool.bne_true, if_true, Bool.false_eq_true, if_false, hslt, hsle, hsge, Bool.not_not]
  case jeq => rw [Bool.eq_iff_iff]; simp [BitVec.toNat_inj]
  case jne => rw [Bool.eq_iff_iff]; simp [BitVec.toNat_inj, bne]
  case jgt => rfl
  case jge => rw [Bool.eq_iff_iff]; simp [BitVec.ule]
  case jlt => rfl
  case jle => rw [Bool.eq_iff_iff]; simp [BitVec.ule]

/-! ## The sides -/

section Sides

variable {c : Config} {t t' : Translator} {ops : List Op} {idx : Nat} {i : Insn} {len : Nat → Nat}

/-- The operations compute into scratch headers alone. -/
def IntoScratch (ops : List Op) : Prop := ∀ op ∈ ops, op.Into IsScratch

@[simp] theorem intoScratch_nil : IntoScratch [] := by simp [IntoScratch]

@[simp] theorem intoScratch_cons {op : Op} :
    IntoScratch (op :: ops) ↔ op.Into IsScratch ∧ IntoScratch ops := by simp [IntoScratch]

@[simp] theorem intoScratch_append {xs ys : List Op} :
    IntoScratch (xs ++ ys) ↔ IntoScratch xs ∧ IntoScratch ys := by
  simp only [IntoScratch, List.mem_append]
  exact ⟨fun h => ⟨fun op ho => h op (.inl ho), fun op ho => h op (.inr ho)⟩,
    fun h op ho => ho.elim (h.1 op) (h.2 op)⟩

/-- The width of a comparison. -/
def cmpWidth (is32 : Bool) : Width := if is32 then .w32 else .w64

/-- The value a side is compared as, at the width of the comparison. -/
def sideVal (is32 signed : Bool) (x : BitVec 64) : Nat :=
  if is32 then biased (n := 31) signed (x.setWidth 32) else biased (n := 63) signed x

theorem emitSide_spec {is32 signed : Bool} {reg r : Nat}
    (h : (emitSide idx is32 signed reg).Accepts c t r t' ops) :
    t.tmpNext < numTmps ∧ r = hTmp t.tmpNext ∧ t'.tmpNext = t.tmpNext + 1 ∧ IntoScratch ops ∧
      (∀ op ∈ ops, op.Into (· = r)) ∧ ∀ (σ : State) (x : BitVec 64), σ.hdr reg = word x →
        (runOps len σ ops).hdr r = .int (cmpWidth is32) (sideVal is32 signed x) := by
  unfold emitSide at h
  obtain ⟨_, _, _, hfresh, _, h₁, rfl⟩ := accepts_bind.mp h
  obtain ⟨hlt, rfl, rfl, rfl⟩ := accepts_freshTmp.mp hfresh
  have hs := isScratch_hTmp hlt
  refine ⟨hlt, ?_⟩
  cases is32 <;> cases signed <;>
    simp only [Bool.false_eq_true, if_false, if_true, accepts_bind, accepts_cast, accepts_move,
      accepts_binop, accepts_pure] at h₁
  · obtain ⟨_, _, _, ⟨rfl, rfl⟩, _, ⟨rfl, rfl, rfl⟩, rfl⟩ := h₁
    refine ⟨rfl, rfl, by simp [moveOp, Op.Into, hs], by simp [moveOp, Op.Into], fun σ x hx => ?_⟩
    simp only [List.nil_append, List.append_nil, runOps_cons, runOps_nil]
    rw [moveOp_eval hx x.isLt]
    simp [cmpWidth, sideVal, biased]
  · obtain ⟨_, _, _, ⟨rfl, rfl⟩, _, ⟨_, _, _, ⟨rfl, rfl⟩, _, ⟨rfl, rfl, rfl⟩, rfl⟩, rfl⟩ := h₁
    refine ⟨rfl, rfl, by simp [moveOp, Op.Into, hs], by simp [moveOp, Op.Into], fun σ x hx => ?_⟩
    simp only [List.nil_append, List.append_nil, List.cons_append, runOps_cons, runOps_nil]
    rw [moveOp_eval hx x.isLt, binop64_eval (x := x) (y := 0x8000000000000000#64)
      (by simp [word]) (by rfl)]
    simp [cmpWidth, sideVal, biased, word, BinOp.bv]
  · obtain ⟨_, _, _, ⟨rfl, rfl⟩, _, ⟨rfl, rfl, rfl⟩, rfl⟩ := h₁
    refine ⟨rfl, rfl, by simp [Op.Into, hs], by simp [Op.Into], fun σ x hx => ?_⟩
    simp only [List.nil_append, List.append_nil, runOps_cons, runOps_nil]
    rw [narrow_eval hx]
    simp [cmpWidth, sideVal, biased, half]
  · obtain ⟨_, _, _, ⟨rfl, rfl⟩, _, ⟨_, _, _, ⟨rfl, rfl⟩, _, ⟨rfl, rfl, rfl⟩, rfl⟩, rfl⟩ := h₁
    refine ⟨rfl, rfl, by simp [Op.Into, hs], by simp [Op.Into], fun σ x hx => ?_⟩
    simp only [List.nil_append, List.append_nil, List.cons_append, runOps_cons, runOps_nil]
    rw [narrow_eval hx, binop32_eval (x := x.setWidth 32) (y := 0x80000000#32)
      (by simp) (by rfl)]
    simp [cmpWidth, sideVal, biased, half, BinOp.bv]

/-- The second operand of a conditional jump, sign-extended if it is an immediate. -/
def Insn.operand (i : Insn) (y : BitVec 64) : BitVec 64 :=
  if i.isImm then i.imm.signExtend 64 else y

theorem setWidth_signExtend (x : BitVec 32) : (x.signExtend 64).setWidth 32 = x := by
  apply BitVec.eq_of_toNat_eq
  have hx := x.isLt
  rw [BitVec.toNat_setWidth, BitVec.toNat_signExtend, BitVec.toNat_setWidth]
  split <;> omega

theorem imm_sideVal {is32 signed : Bool} :
    (if signed then (if is32 then i.imm32 else i.imm64) ^^^
        (if is32 then 0x80000000 else 0x8000000000000000)
      else (if is32 then i.imm32 else i.imm64)) =
      sideVal is32 signed (i.imm.signExtend 64) := by
  cases is32 <;> cases signed <;>
    simp [sideVal, biased, Insn.imm32, Insn.imm64, setWidth_signExtend]

theorem sideVal_lt (is32 signed : Bool) (x : BitVec 64) : sideVal is32 signed x < 2 ^ 64 := by
  have hx := x.isLt
  have h32 := (x.setWidth 32).isLt
  have hpow : (2 : Nat) ^ 31 < 2 ^ 32 := by decide
  have hpow' : (2 : Nat) ^ 63 < 2 ^ 64 := by decide
  cases is32 <;> cases signed <;>
    simp only [sideVal, biased, Bool.false_eq_true, if_false, if_true]
  · exact hx
  · exact Nat.xor_lt_two_pow hx hpow'
  · omega
  · have := Nat.xor_lt_two_pow h32 hpow
    omega

/-- Neither side of the comparison is the program counter. -/
theorem hReg_ne_hPc (r : Nat) : hReg r ≠ hPc := by simp only [hReg, hPc]; omega

theorem hTmp_ne_hPc (k : Nat) : hTmp k ≠ hPc := by simp only [hTmp, hPc]; omega

theorem emitSides_spec {is32 signed : Bool} {lhs : Nat} {rhs : MatchVal}
    (h : (emitSides idx i is32 signed (hReg i.dst)).Accepts c t (lhs, rhs) t' ops) :
    IntoScratch ops ∧ ∀ (σ σ' : State) (x y : BitVec 64), σ.hdr (hReg i.dst) = word x →
      (i.srcX = true → σ.hdr (hReg i.src) = word y) → (runOps len σ ops).SameBut (· = hPc) σ' →
      σ'.hdr lhs = .int (cmpWidth is32) (sideVal is32 signed x) ∧
      rhs.eval σ' = .int (cmpWidth is32) (sideVal is32 signed (i.operand y)) := by
  have hsrc : i.isImm = false → i.srcX = true := by intro h; simpa [Insn.isImm] using h
  have hne : ∀ (r : Fin 16) (k : Nat), hReg r ≠ hTmp k := by
    intro r k; simp only [hReg, hTmp]; omega
  unfold emitSides at h
  dsimp only at h
  split at h
  · -- both sides in scratch headers
    obtain ⟨tl, t₁, o₁, hl, o₂, h₁, rfl⟩ := accepts_bind.mp h
    obtain ⟨hlt, rfl, htmp, hscr, honly, hval⟩ := emitSide_spec hl
    split at h₁
    · rename_i himm
      obtain ⟨hr, rfl, rfl⟩ := accepts_pure.mp h₁
      obtain ⟨rfl, rfl⟩ := Prod.mk.inj hr
      refine ⟨by simpa using hscr, fun σ σ' x y hx _ hσ' => ⟨?_, ?_⟩⟩
      · rw [hσ'.hdr _ (hTmp_ne_hPc _)]
        simpa using hval σ x hx
      · rw [imm_sideVal, matchConst_eval (sideVal_lt _ _ _)]
        simp [Insn.operand, himm, cmpWidth]
    · rename_i himm
      have himm : i.isImm = false := by simpa using himm
      obtain ⟨tr, t₂, o₃, hr, o₄, h₂, rfl⟩ := accepts_bind.mp h₁
      obtain ⟨hlt', rfl, htmp', hscr', honly', hval'⟩ := emitSide_spec hr
      obtain ⟨hp, rfl, rfl⟩ := accepts_pure.mp h₂
      obtain ⟨rfl, rfl⟩ := Prod.mk.inj hp
      refine ⟨by simpa using ⟨hscr, hscr'⟩, fun σ σ' x y hx hy hσ' => ?_⟩
      rw [List.append_nil, runOps_append] at hσ'
      have hfst := runOps_sameBut honly len σ
      have hsnd := runOps_sameBut honly' len (runOps len σ o₁)
      constructor
      · rw [hσ'.hdr _ (hTmp_ne_hPc _), hsnd.hdr _ (by simp [hTmp, htmp])]
        exact hval σ x hx
      · simp only [matchHeader, MatchVal.eval]
        rw [hσ'.hdr _ (hTmp_ne_hPc _)]
        rw [hval' _ y (by rw [hfst.hdr _ (hne _ _)]; exact hy (hsrc himm))]
        simp [Insn.operand, himm]
  · rename_i hplain
    obtain ⟨hr, rfl, rfl⟩ := accepts_pure.mp h
    obtain ⟨rfl, rfl⟩ := Prod.mk.inj hr
    have h32 : is32 = false := by cases is32 <;> simp_all
    have hsg : signed = false := by cases signed <;> simp_all
    subst h32 hsg
    refine ⟨by simp, fun σ σ' x y hx hy hσ' => ?_⟩
    rw [runOps_nil] at hσ'
    constructor
    · rw [hσ'.hdr _ (hReg_ne_hPc _), hx]
      simp [cmpWidth, sideVal, biased, word]
    · cases himm : i.isImm with
      | true =>
        rw [if_pos rfl, matchConst_eval i.imm64_lt]
        simp [cmpWidth, sideVal, biased, Insn.operand, himm, Insn.imm64]
      | false =>
        rw [if_neg (by simp)]
        simp only [matchHeader, MatchVal.eval]
        rw [hσ'.hdr _ (hReg_ne_hPc _), hy (hsrc himm)]
        simp [cmpWidth, sideVal, biased, Insn.operand, himm, word]

/-! ## Conditions -/

/-- The second operand at 32 bits. -/
theorem operand_setWidth (y : BitVec 64) :
    (i.operand y).setWidth 32 = if i.isImm then i.imm else y.setWidth 32 := by
  unfold Insn.operand
  split
  · exact setWidth_signExtend _
  · rfl

/-- A masked test: the entry holds when the masked value is zero. -/
theorem masked_eq_zero {n : Nat} {w : Width} (v : BitVec n) :
    Cmp.eval .eq (.int w v.toNat) (.int w 0) = ((v != 0) != true) := by
  rw [Bool.eq_iff_iff]
  simp [Cmp.eval, bne, ← BitVec.toNat_inj]

theorem emitJset_spec {is32 : Bool} {e : MatchEntry} {swap : Bool}
    (h : (emitJset idx i is32 (hReg i.dst)).Accepts c t (some e, swap) t' ops) :
    IntoScratch ops ∧ ∀ (σ σ' : State) (x y : BitVec 64), σ.hdr (hReg i.dst) = word x →
      (i.srcX = true → σ.hdr (hReg i.src) = word y) → (runOps len σ ops).SameBut (· = hPc) σ' →
      e.holds σ' = ((if is32 then x.setWidth 32 &&& (i.operand y).setWidth 32 != 0
        else x &&& i.operand y != 0) != swap) := by
  have hsrc : i.isImm = false → i.srcX = true := by intro h; simpa [Insn.isImm] using h
  have hne : ∀ (r : Fin 16) (k : Nat), hReg r ≠ hTmp k := by
    intro r k; simp only [hReg, hTmp]; omega
  have hz : ∀ (w : Width) (σ : State), (matchConst 0 w).eval σ = .int w 0 := fun w σ => rfl
  unfold emitJset at h
  obtain ⟨_, _, _, hfresh, _, h₁, rfl⟩ := accepts_bind.mp h
  obtain ⟨hlt, rfl, rfl, rfl⟩ := accepts_freshTmp.mp hfresh
  have hs := isScratch_hTmp hlt
  split at h₁ <;> rename_i h32
  · obtain ⟨_, _, _, hfresh', _, h₂, rfl⟩ := accepts_bind.mp h₁
    obtain ⟨hlt', rfl, rfl, rfl⟩ := accepts_freshTmp.mp hfresh'
    have hs' := isScratch_hTmp hlt'
    obtain ⟨_, _, _, hcast, _, h₃, rfl⟩ := accepts_bind.mp h₂
    obtain ⟨rfl, rfl⟩ := accepts_cast.mp hcast
    have hne' : hTmp (t.tmpNext + 1) ≠ hTmp t.tmpNext := by simp only [hTmp]; omega
    split at h₃
    · rename_i himm
      simp only [accepts_bind, accepts_binop, accepts_pure] at h₃
      obtain ⟨_, _, _, ⟨rfl, rfl⟩, _, ⟨hr, rfl, rfl⟩, rfl⟩ := h₃
      obtain ⟨he, rfl⟩ := Prod.mk.inj hr
      obtain rfl := Option.some.inj he
      refine ⟨by simpa [Op.Into] using ⟨hs', hs⟩, fun σ σ' x y hx _ hσ' => ?_⟩
      simp only [List.nil_append, List.append_nil, List.cons_append, runOps_cons, runOps_nil] at hσ'
      rw [narrow_eval hx, binop32_eval (x := x.setWidth 32) (y := i.imm) (by simp)
        konst_imm32_eval] at hσ'
      simp only [MatchEntry.holds, cmpEntry, hz]
      rw [hσ'.hdr _ (hTmp_ne_hPc _)]
      simp only [State.setHdr_hdr, if_true, half, BinOp.bv, operand_setWidth, himm, h32]
      exact masked_eq_zero _
    · rename_i himm
      have himm : i.isImm = false := by simpa using himm
      simp only [accepts_bind, accepts_freshTmp, accepts_cast, accepts_binop, accepts_pure] at h₃
      obtain ⟨_, _, _, ⟨hlt'', rfl, rfl, rfl⟩, _, ⟨_, _, _, ⟨rfl, rfl⟩, _, ⟨_, _, _, ⟨rfl, rfl⟩, _,
        ⟨hr, rfl, rfl⟩, rfl⟩, rfl⟩, rfl⟩ := h₃
      obtain ⟨he, rfl⟩ := Prod.mk.inj hr
      obtain rfl := Option.some.inj he
      have hs'' := isScratch_hTmp hlt''
      refine ⟨by simpa [Op.Into] using ⟨hs', hs'', hs⟩, fun σ σ' x y hx hy hσ' => ?_⟩
      simp only [List.nil_append, List.append_nil, List.cons_append, runOps_cons, runOps_nil] at hσ'
      have hne₂ : hTmp (t.tmpNext + 1) ≠ hTmp (t.tmpNext + 1 + 1) := by simp only [hTmp]; omega
      rw [narrow_eval hx, narrow_eval (x := y) (by simpa [hne] using hy (hsrc himm)),
        binop32_eval (x := x.setWidth 32) (y := y.setWidth 32) (by simp [hne₂])
          (Operand.eval_hdr (by simp [half]))] at hσ'
      simp only [MatchEntry.holds, cmpEntry, hz]
      rw [hσ'.hdr _ (hTmp_ne_hPc _)]
      simp only [State.setHdr_hdr, if_true, half, BinOp.bv, operand_setWidth, himm,
        h32, Bool.false_eq_true, if_false]
      exact masked_eq_zero _
  · split at h₁
    all_goals
      rename_i himm
      simp only [accepts_bind, accepts_binop, accepts_pure] at h₁
      obtain ⟨_, _, _, ⟨rfl, rfl⟩, _, ⟨hr, rfl, rfl⟩, rfl⟩ := h₁
      obtain ⟨he, rfl⟩ := Prod.mk.inj hr
      obtain rfl := Option.some.inj he
      refine ⟨by simpa [Op.Into] using hs, fun σ σ' x y hx hy hσ' => ?_⟩
      simp only [List.nil_append, List.append_nil, runOps_cons, runOps_nil] at hσ'
    · rw [binop64_eval hx konst_imm64_eval] at hσ'
      simp only [MatchEntry.holds, cmpEntry, hz]
      rw [hσ'.hdr _ (hTmp_ne_hPc _)]
      simp only [State.setHdr_hdr, if_true, word, BinOp.bv, Insn.operand, himm, h32]
      exact masked_eq_zero _
    · have himm : i.isImm = false := by simpa using himm
      rw [binop64_eval hx (Operand.eval_hdr (hy (hsrc himm)))] at hσ'
      simp only [MatchEntry.holds, cmpEntry, hz]
      rw [hσ'.hdr _ (hTmp_ne_hPc _)]
      simp only [State.setHdr_hdr, if_true, word, BinOp.bv, Insn.operand, himm, h32,
        Bool.false_eq_true, if_false]
      exact masked_eq_zero _

/-- An accepted condition computes in scratch headers, and its entry decides as the
jump does on the values of the registers. -/
theorem emitCondition_spec {e : MatchEntry} {swap : Bool}
    (h : (emitCondition idx i).Accepts c t (some e, swap) t' ops) :
    IntoScratch ops ∧ ∀ (σ σ' : State) (x y : BitVec 64), σ.hdr (hReg i.dst) = word x →
      (i.srcX = true → σ.hdr (hReg i.src) = word y) → (runOps len σ ops).SameBut (· = hPc) σ' →
      ∃ taken, i.taken x y = some taken ∧ e.holds σ' = (taken != swap) := by
  have htaken : ∀ x y, i.taken x y = if (i.cls == .jmp32) = true then
      i.jmpOp.taken (x.setWidth 32) ((i.operand y).setWidth 32)
      else i.jmpOp.taken x (i.operand y) := by
    intro x y
    rw [operand_setWidth]
    simp [Insn.taken, Insn.operand]
  unfold emitCondition at h
  obtain ⟨_, _, _, hreset, _, h₁, rfl⟩ := accepts_bind.mp h
  obtain ⟨rfl, rfl⟩ := accepts_setTmpNext.mp hreset
  dsimp only at h₁
  split at h₁
  · rename_i hset
    obtain ⟨hscr, hval⟩ := emitJset_spec h₁
    refine ⟨by simpa using hscr, fun σ σ' x y hx hy hσ' => ?_⟩
    have hv := hval σ σ' x y hx hy (by simpa using hσ')
    rw [htaken, hset]
    cases h32 : (i.cls == .jmp32) with
    | true => exact ⟨_, rfl, by rw [hv, h32]; rfl⟩
    | false => exact ⟨_, rfl, by rw [hv, h32]; rfl⟩
  · obtain ⟨⟨lhs, rhs⟩, _, _, hsides, _, h₂, rfl⟩ := accepts_bind.mp h₁
    obtain ⟨hscr, hval⟩ := emitSides_spec hsides
    dsimp only at h₂
    split at h₂
    · simp at h₂
    rename_i cmp swap' htable
    obtain ⟨hr, rfl, rfl⟩ := accepts_pure.mp h₂
    obtain ⟨he, rfl⟩ := Prod.mk.inj hr
    obtain rfl := Option.some.inj he
    refine ⟨by simpa using hscr, fun σ σ' x y hx hy hσ' => ?_⟩
    obtain ⟨hl, hrv⟩ := hval σ σ' x y hx hy (by simpa using hσ')
    rw [htaken]
    simp only [MatchEntry.holds, cmpEntry, hl, hrv]
    cases h32 : (i.cls == .jmp32) with
    | true =>
      exact JmpOp.taken_table (n := 31) htable (x.setWidth 32) ((i.operand y).setWidth 32)
    | false => exact JmpOp.taken_table (n := 63) htable x (i.operand y)

end Sides

end Ect
