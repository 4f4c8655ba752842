-- SUMMARY: Accepted loads, stores and packet loads access the bytes the instruction names.
import Ect.Bpf.Machine
import Ect.Lowering.Registers

/-!
# Memory lowering

For every accepted load or store through a region, and every accepted packet load:
the one access the emitted operations make, and what they leave in the headers and
in the region when the access stays inside it.
-/

namespace Ect

open TransM LittleEndian Words

/-! ## Cells that hold bytes -/

theorem readCells_some (m : Nat → Byte) (off n : Nat) :
    readCells (fun k => some (m k)) off n = some (getBytes m off n) := by
  induction n generalizing off with
  | zero => rfl
  | succ n ih => simp [readCells, getBytes, ih]

theorem writeCells_some (m : Nat → Byte) (off : Nat) (bs : List Byte) :
    writeCells (fun k => some (m k)) off (bs.map some) = fun k => some (putBytes m off bs k) := by
  funext k
  simp only [writeCells, putBytes, List.length_map]
  split
  · rename_i hk
    have hlt : k - off < bs.length := by omega
    simp [List.getD, List.getElem?_eq_getElem hlt]
  · rfl

theorem leNat_getBytes_lt (m : Nat → Byte) (off n : Nat) : leNat (getBytes m off n) < 256 ^ n := by
  have h := leNat_lt (getBytes m off n)
  rwa [getBytes_length] at h

theorem Width.pow_bytes (w : Width) : 256 ^ w.bytes = 2 ^ w.bits := by cases w <;> rfl

section Eval

variable {len : Nat → Nat} {σ : State} {w : Width} {r o d n : Nat} {a : Operand}

theorem Op.eval_load {m : Nat → Byte} (ha : a.eval σ .w64 = some o) (hlen : o + w.bytes ≤ len r)
    (hm : σ.mem r = fun k => some (m k)) :
    (Op.load w r a d).eval len σ =
      (σ.addLog ⟨false, r, o, w.bytes⟩).setHdr d (.int w (leNat (getBytes m o w.bytes))) := by
  simp [Op.eval, ha, hlen, loadVal, hm, readCells_some]

theorem Op.eval_load_overrun (ha : a.eval σ .w64 = some o) (hlen : ¬o + w.bytes ≤ len r) :
    (Op.load w r a d).eval len σ = (σ.addLog ⟨false, r, o, w.bytes⟩).setHdr d .error := by
  simp [Op.eval, ha, hlen]

theorem Op.eval_store {m : Nat → Byte} {v : Operand} (ha : a.eval σ .w64 = some o)
    (hv : v.eval σ w = some n) (hlen : o + w.bytes ≤ len r) (hm : σ.mem r = fun k => some (m k)) :
    (Op.store w r a v).eval len σ = (σ.addLog ⟨true, r, o, w.bytes⟩).setMem r
      fun k => some (putBytes m o (leBytes w.bytes n) k) := by
  simp [Op.eval, ha, hv, hlen, storeCells, hm, writeCells_some]

theorem Op.eval_store_overrun {v : Operand} (ha : a.eval σ .w64 = some o)
    (hlen : ¬o + w.bytes ≤ len r) :
    (Op.store w r a v).eval len σ = σ.addLog ⟨true, r, o, w.bytes⟩ := by
  simp [Op.eval, ha, hlen]

theorem castError_eval {s : Nat} (hs : σ.hdr s = .error) :
    (Op.cast w .w64 (hdr s) d).eval len σ = σ.setHdr d .error := by
  simp [Op.eval, hdr, Operand.eval, hs, CrVal.asInt]

theorem konst_ofInt_eval (v : Int) : (konst v).eval σ .w64 = some (BitVec.ofInt 64 v).toNat := by
  rw [Operand.eval_konst, BitVec.toNat_ofInt]
  simp only [Width.bits_w64, Option.some.injEq]
  omega

/-- A loaded value, zero-extended. -/
theorem widenLoad_eval {s v : Nat} (hs : σ.hdr s = .int w v) :
    (Op.cast w .w64 (hdr s) d).eval len σ = σ.setHdr d (word (BitVec.ofNat 64 v)) := by
  rw [Op.eval_cast (Operand.eval_hdr hs), word, BitVec.toNat_ofNat]
  rfl

end Eval

/-! ## Loads and stores through a region -/

section Region

variable {len : Nat → Nat} {c : Config} {t t' : Translator} {ops : List Op} {idx : Nat} {i : Insn}
  {base : RegInfo} {st st' : AbsState}

/-- A ctx access at a known offset lies inside the region. -/
def CtxInRange (c : Config) (base : RegInfo) (off : Int) (nbytes : Nat) : Prop :=
  base.tag = .ctx → base.offKnown = true → 0 ≤ base.off + off ∧ base.off + off +
  nbytes ≤ c.ctx.length

theorem ctxAccessOk_accepts {off : Int} {nbytes : Nat} {what : String} {a : Unit}
    (h : (ctxAccessOk idx base off nbytes what).Accepts c t a t' ops) :
    t' = t ∧ ops = [] ∧ CtxInRange c base off nbytes := by
  unfold ctxAccessOk at h
  obtain ⟨_, _, _, hc, _, h₁, rfl⟩ := accepts_bind.mp h
  obtain ⟨rfl, rfl, rfl⟩ := accepts_config.mp hc
  split at h₁
  · rename_i hskip
    obtain ⟨_, rfl, rfl⟩ := accepts_pure.mp h₁
    refine ⟨rfl, rfl, fun htag hknown => ?_⟩
    rcases hskip with hne | hunknown
    · exact absurd htag hne
    · rw [hunknown] at hknown; cases hknown
  · dsimp only at h₁
    split at h₁
    · rename_i hin
      obtain ⟨_, rfl, rfl⟩ := accepts_pure.mp h₁
      exact ⟨rfl, rfl, fun _ _ => hin⟩
    · simp at h₁

theorem emitAddress_accepts {h : Nat} {off : Int} {a : Nat}
    (hacc : (emitAddress idx h off).Accepts c t a t' ops) :
    t.tmpNext < numTmps ∧ a = hTmp t.tmpNext ∧ t' = { t with tmpNext := t.tmpNext + 1 } ∧
      ops = [.stateless .add .w64 (hdr h) (konst off) a] := by
  unfold emitAddress at hacc
  simp only [accepts_bind, accepts_freshTmp, accepts_binop, accepts_pure] at hacc
  obtain ⟨_, _, _, ⟨hlt, rfl, rfl, rfl⟩, _,
    ⟨_, _, _, ⟨rfl, rfl⟩, _, ⟨rfl, rfl, rfl⟩, rfl⟩, rfl⟩ := hacc
  exact ⟨hlt, rfl, rfl, rfl⟩

/-- The address header holds the sum of the base and the offset. -/
theorem addressOp_eval {σ : State} {h d : Nat} {x : BitVec 64} (off : BitVec 16)
    (hx : σ.hdr h = word x) :
    (Op.stateless .add .w64 (hdr h) (konst off.toInt) d).eval len σ =
      σ.setHdr d (word (x + off.signExtend 64)) :=
  binop64_eval hx (konst_ofInt_eval off.toInt)

/-- An accepted load is one from the frame or one from a region. -/
theorem translateLdx_accepts (h : (translateLdx idx i st).Accepts c t st' t' ops) :
    i.src < numBpfRegs ∧
      if (st.reg i.src).tag = .stack then
        (translateLdxStack idx i (st.reg i.src) st).Accepts c t st' t' ops
      else (translateLdxRegion idx i (st.reg i.src) st).Accepts c t st' t' ops := by
  unfold translateLdx at h
  obtain ⟨_, _, _, hread, _, h₁, rfl⟩ := accepts_bind.mp h
  obtain ⟨hsrc, rfl, rfl, rfl⟩ := accepts_readReg.mp hread
  refine ⟨hsrc, ?_⟩
  rw [List.nil_append]
  split at h₁
  · rename_i htag
    rwa [if_pos htag]
  · rename_i htag
    rwa [if_neg htag]

theorem translateStore_accepts {fromReg : Bool}
    (h : (translateStore idx i st fromReg).Accepts c t st' t' ops) :
    i.dst < numBpfRegs ∧
      if (st.reg i.dst).tag = .stack then
        (translateStoreStack idx i (st.reg i.dst) st fromReg).Accepts c t st' t' ops
      else (translateStoreRegion idx i (st.reg i.dst) st fromReg).Accepts c t st' t' ops := by
  unfold translateStore at h
  obtain ⟨_, _, _, hread, _, h₁, rfl⟩ := accepts_bind.mp h
  obtain ⟨hdst, rfl, rfl, rfl⟩ := accepts_readReg.mp hread
  refine ⟨hdst, ?_⟩
  rw [List.nil_append]
  split at h₁
  · rename_i htag
    rwa [if_pos htag]
  · rename_i htag
    rwa [if_neg htag]

theorem translateLdxRegion_accepts
    (h : (translateLdxRegion idx i base st).Accepts c t st' t' ops) :
    regionOf c.maps base ≠ regionNone ∧ CtxInRange c base i.off.toInt i.width.bytes ∧
      i.dst < numBpfRegs ∧ st' = st.setReg i.dst (ldxInfo c.ctx i base) ∧
      ∃ tA tV, IsScratch tA ∧ IsScratch tV ∧
        ops = [.stateless .add .w64 (hdr (hReg i.src)) (konst i.off.toInt) tA,
          .load i.width (regionOf c.maps base) (hdr tA) tV, .cast i.width .w64 (hdr tV)
            (hReg i.dst)] := by
  unfold translateLdxRegion at h
  obtain ⟨_, _, _, hc, _, h₁, rfl⟩ := accepts_bind.mp h
  obtain ⟨rfl, rfl, rfl⟩ := accepts_config.mp hc
  dsimp only at h₁
  split at h₁
  · simp at h₁
  rename_i hne
  obtain ⟨_, _, _, hok, _, h₃, rfl⟩ := accepts_bind.mp h₁
  obtain ⟨rfl, rfl, hin⟩ := ctxAccessOk_accepts hok
  obtain ⟨_, _, _, haddr, _, h₄, rfl⟩ := accepts_bind.mp h₃
  obtain ⟨hlt, rfl, rfl, rfl⟩ := emitAddress_accepts haddr
  simp only [accepts_bind, accepts_freshTmp, accepts_load, accepts_cast, accepts_writeReg] at h₄
  obtain ⟨_, _, _, ⟨hlt', rfl, rfl, rfl⟩, _, ⟨_, _, _, ⟨rfl, rfl⟩, _, ⟨_, _, _, ⟨rfl, rfl⟩, _,
    ⟨hdst, rfl, rfl, rfl⟩, rfl⟩, rfl⟩, rfl⟩ := h₄
  exact ⟨hne, hin, hdst, rfl, _, _, isScratch_hTmp hlt, isScratch_hTmp hlt', by simp⟩

/-- The one access of a load, and what it leaves in the destination. -/
theorem ldxOps_run {σ : State} {x : BitVec 64} {m : Nat → Byte} {r tA tV d s : Nat}
    (hA : IsScratch tA) (hV : IsScratch tV) (hx : σ.hdr s = word x)
    (hm : σ.mem r = fun k => some (m k)) :
    let a : Access := ⟨false, r, Machine.address x i, i.width.bytes⟩
    let σ' := runOps len σ [.stateless .add .w64 (hdr s) (konst i.off.toInt) tA,
      .load i.width r (hdr tA) tV, .cast i.width .w64 (hdr tV) d]
    (σ.addLog a).SameBut (fun k => k = d ∨ IsScratch k) σ' ∧ (¬a.Overruns len →
      σ'.hdr d = word (BitVec.ofNat 64 (leNat (getBytes m a.off a.nbytes)))) := by
  intro a σ'
  have haddr : (hdr tA).eval (σ.setHdr tA (word (x + i.off.signExtend 64))) .w64 = some a.off :=
    Operand.eval_hdr (by simp [word, a, Machine.address])
  have hrun : σ' = (Op.cast i.width .w64 (hdr tV) d).eval len
      ((Op.load i.width r (hdr tA) tV).eval len
      (σ.setHdr tA (word (x + i.off.signExtend 64)))) := by
    simp only [σ', runOps_cons, runOps_nil, addressOp_eval i.off hx]
  have hframe : ∀ v v' v'', (σ.addLog a).SameBut (fun k => k = d ∨ IsScratch k)
      ((((σ.setHdr tA v).addLog a).setHdr tV v').setHdr d v'') := by
    intro v v' v''
    have hpool : (σ.addLog a).SameBut IsScratch (((σ.setHdr tA v).addLog a).setHdr tV v') :=
      (State.SameBut.setHdr (σ.addLog a) v hA).trans (.setHdr _ v' hV)
    exact (hpool.mono fun _ => .inr).trans (.setHdr _ v'' (.inl rfl))
  by_cases hlen : a.off + i.width.bytes ≤ len r
  · rw [hrun, Op.eval_load haddr hlen (by simpa using hm),
      widenLoad_eval (v := leNat (getBytes m a.off i.width.bytes)) (by simp)]
    exact ⟨hframe _ _ _, fun _ => by simp [a]⟩
  · rw [hrun, Op.eval_load_overrun haddr hlen]
    rw [castError_eval (by simp)]
    refine ⟨hframe _ _ _, fun hno => absurd ?_ hno⟩
    simp only [Access.Overruns, a] at hlen ⊢
    omega

/-- An accepted store materialises the address, then the value, and then stores. -/
theorem translateStoreRegion_accepts {fromReg : Bool}
    (h : (translateStoreRegion idx i base st fromReg).Accepts c t st' t' ops) :
    regionOf c.maps base ≠ regionNone ∧ CtxInRange c base i.off.toInt i.width.bytes ∧ st' = st ∧
      ∃ tA pre val, IsScratch tA ∧ (∀ op ∈ pre, op.Into fun k => IsScratch k ∧ k ≠ tA) ∧
        ops = .stateless .add .w64 (hdr (hReg i.dst)) (konst i.off.toInt) tA ::
          (pre ++ [.store i.width (regionOf c.maps base) (hdr tA) val]) ∧
        ∀ (len : Nat → Nat) (σ : State) (v : BitVec 64),
          (fromReg = true → σ.hdr (hReg i.src) = word v) →
          (fromReg = false → v = i.imm.signExtend 64) →
          val.eval (runOps len σ pre) i.width = some (v.toNat % 2 ^ i.width.bits) := by
  unfold translateStoreRegion at h
  obtain ⟨_, _, _, hc, _, h₁, rfl⟩ := accepts_bind.mp h
  obtain ⟨rfl, rfl, rfl⟩ := accepts_config.mp hc
  dsimp only at h₁
  split at h₁
  · simp at h₁
  rename_i hne
  obtain ⟨_, _, _, hok, _, h₃, rfl⟩ := accepts_bind.mp h₁
  obtain ⟨rfl, rfl, hin⟩ := ctxAccessOk_accepts hok
  obtain ⟨tA, _, _, haddr, _, h₄, rfl⟩ := accepts_bind.mp h₃
  obtain ⟨hlt, hA, rfl, rfl⟩ := emitAddress_accepts haddr
  have hsA : IsScratch tA := hA ▸ isScratch_hTmp hlt
  refine ⟨hne, hin, ?_⟩
  cases fromReg with
  | true =>
    simp only [if_true, accepts_bind, accepts_freshTmp, accepts_cast, accepts_store,
      accepts_pure] at h₄
    obtain ⟨tV, _, _, ⟨hlt', hV, rfl, rfl⟩, _, ⟨_, _, _, ⟨rfl, rfl⟩, _, ⟨_, _, _, ⟨rfl, rfl⟩, _,
      ⟨rfl, rfl, rfl⟩, rfl⟩, rfl⟩, rfl⟩ := h₄
    have hsV : IsScratch tV := hV ▸ isScratch_hTmp hlt'
    have hne' : tV ≠ tA := by rw [hA, hV]; simp [hTmp]
    refine ⟨rfl, tA, [.cast .w64 i.width (hdr (hReg i.src)) tV], hdr tV, hsA, ?_, by simp,
      fun len σ v hv _ => ?_⟩
    · simp [Op.Into, hsV, hne']
    · rw [runOps_cons, runOps_nil, Op.eval_cast (Operand.eval_hdr (hv rfl))]
      exact Operand.eval_hdr (by simp)
  | false =>
    simp only [Bool.false_eq_true, if_false, accepts_bind, accepts_store, accepts_pure] at h₄
    obtain ⟨_, _, _, ⟨rfl, rfl⟩, _, ⟨rfl, rfl, rfl⟩, rfl⟩ := h₄
    refine ⟨rfl, tA, [], konst i.imm64, hsA, by simp, by simp, fun len σ v _ hv => ?_⟩
    have hlt := (i.imm.signExtend 64).isLt
    rw [hv rfl, runOps_nil, Operand.eval_konst, Insn.imm64]
    congr 2
    omega

/-- The one access of a store, and what it leaves in the region. -/
theorem storeOps_run {σ : State} {x v : BitVec 64} {m : Nat → Byte} {r tA s : Nat} {val : Operand}
    {pre : List Op} (hA : IsScratch tA) (hx : σ.hdr s = word x)
    (hpre : ∀ op ∈ pre, op.Into fun k => IsScratch k ∧ k ≠ tA)
    (hval : ∀ σ' : State, σ.SameBut IsScratch σ' →
      val.eval (runOps len σ' pre) i.width = some (v.toNat % 2 ^ i.width.bits))
    (hm : σ.mem r = fun k => some (m k)) :
    let a : Access := ⟨true, r, Machine.address x i, i.width.bytes⟩
    let σ' := runOps len σ (.stateless .add .w64 (hdr s) (konst i.off.toInt) tA ::
      (pre ++ [.store i.width r (hdr tA) val]))
    (a.Overruns len → (σ.addLog a).SameBut IsScratch σ') ∧ (¬a.Overruns len →
      ((σ.addLog a).setMem r fun k => some (putBytes m a.off (leBytes a.nbytes v.toNat) k)).SameBut
        IsScratch σ') := by
  intro a σ'
  set σ₁ := σ.setHdr tA (word (x + i.off.signExtend 64)) with hσ₁
  set σ₂ := runOps len σ₁ pre with hσ₂
  have hto₁ : σ.SameBut IsScratch σ₁ := .setHdr _ _ hA
  have hto₂ := runOps_sameBut hpre len σ₁
  have hto : σ.SameBut IsScratch σ₂ := hto₁.trans (hto₂.mono fun _ h => h.1)
  have haddr : (hdr tA).eval σ₂ .w64 = some a.off := by
    refine Operand.eval_hdr ?_
    rw [hto₂.hdr tA (by simp)]
    simp [hσ₁, word, a, Machine.address]
  have hrun : σ' = (Op.store i.width r (hdr tA) val).eval len σ₂ := by
    simp only [σ', runOps_cons, runOps_append, runOps_nil, addressOp_eval i.off hx, hσ₂, hσ₁]
  have hmem : σ₂.mem r = fun k => some (m k) := by rw [hto.mem]; exact hm
  by_cases hlen : a.off + i.width.bytes ≤ len r
  · have hin : ¬a.Overruns len := by simp only [Access.Overruns, a] at hlen ⊢; omega
    refine ⟨fun h => absurd h hin, fun _ => ?_⟩
    rw [hrun, Op.eval_store haddr (hval σ₁ hto₁) hlen hmem, ← i.width.pow_bytes, leBytes_mod]
    refine ⟨?_, by simp [hto.log, a], fun k hk => by simpa using hto.hdr k hk⟩
    simp only [State.setMem, State.addLog, hto.mem]
    rfl
  · have hout : a.Overruns len := by simp only [Access.Overruns, a] at hlen ⊢; omega
    refine ⟨fun _ => ?_, fun h => absurd hout h⟩
    rw [hrun, Op.eval_store_overrun haddr hlen]
    exact ⟨hto.mem, by simp [hto.log, a], fun k hk => by simpa using hto.hdr k hk⟩

/-! ## Packet loads -/

/-- An accepted packet load materialises the address, loads, and swaps into `r0`. -/
theorem translateLdPkt_accepts (h : (translateLdPkt idx i st).Accepts c t st' t' ops) :
    i.width ≠ .w64 ∧ st' = (st.setReg 0 .scalar).clobber ∧
      ∃ tA tV addr swap t₁ t₂, IsScratch tA ∧ IsScratch tV ∧ IntoReg tA [addr] ∧
        (emitBswap idx tV i.width.bytes (hReg 0)).Accepts c t₁ () t₂ swap ∧
        ops = addr :: .load i.width regionPkt (hdr tA) tV :: .cast i.width .w64 (hdr tV) tV ::
          swap ∧
        ∀ (len : Nat → Nat) (σ : State) (x : BitVec 64),
          (i.mode = .ind → σ.hdr (hReg i.src) = word x) →
          addr.eval len σ = σ.setHdr tA (.int .w64 (Machine.pktAddress i x)) := by
  unfold translateLdPkt at h
  split at h
  · simp at h
  rename_i hw
  obtain ⟨tA, _, _, hfresh, _, h₁, rfl⟩ := accepts_bind.mp h
  obtain ⟨hlt, hA, rfl, rfl⟩ := accepts_freshTmp.mp hfresh
  have hsA : IsScratch tA := hA ▸ isScratch_hTmp hlt
  dsimp only at h₁
  split at h₁
  all_goals
    rename_i hmode
    simp only [accepts_bind, accepts_freshTmp, accepts_load, accepts_cast, accepts_binop,
      accepts_set, accepts_pure] at h₁
    obtain ⟨_, _, _, ⟨rfl, rfl⟩, _, ⟨tV, _, _, ⟨hlt', hV, rfl, rfl⟩, _, ⟨_, _, _, ⟨rfl, rfl⟩, _,
      ⟨_, _, _, ⟨rfl, rfl⟩, _, ⟨_, _, _, hswap, _, ⟨rfl, rfl, rfl⟩, rfl⟩, rfl⟩, rfl⟩, rfl⟩,
      rfl⟩ := h₁
    refine ⟨hw, rfl, tA, tV, _, _, _, _, hsA, hV ▸ isScratch_hTmp hlt', ?_, hswap,
      by simp; rfl, fun len σ x hx => ?_⟩
  · simp [Op.Into]
  · rw [binop64_eval (hx hmode) (konst_ofInt_eval _)]
    simp [Machine.pktAddress, hmode, word, BinOp.bv, BitVec.signExtend]
  · simp [setOp, Op.Into]
  · rw [setOp_eval i.imm64_lt]
    simp [Machine.pktAddress, hmode, Insn.imm64]

/-- The one access of a packet load, and what it leaves in `r0`. -/
theorem ldPktOps_run {σ : State} {x : BitVec 64} {m : Nat → Byte}
    (h : (translateLdPkt idx i st).Accepts c t st' t' ops)
    (hx : i.mode = .ind → σ.hdr (hReg i.src) = word x)
    (hm : σ.mem regionPkt = fun k => some (m k)) :
    let a : Access := ⟨false, regionPkt, Machine.pktAddress i x, i.width.bytes⟩
    let σ' := runOps len σ ops
    (σ.addLog a).SameBut (fun k => k = hReg 0 ∨ IsScratch k) σ' ∧ (¬a.Overruns len →
      σ'.hdr (hReg 0) =
        word (BitVec.ofNat 64 (leNat (getBytes m a.off a.nbytes).reverse))) := by
  intro a σ'
  obtain ⟨hw, -, tA, tV, addr, swap, t₁, t₂, hA, hV, hinto, hswap, rfl, haddr⟩ :=
    translateLdPkt_accepts h
  set σ₁ := σ.setHdr tA (.int .w64 a.off) with hσ₁
  have hoff : (hdr tA).eval σ₁ .w64 = some a.off := Operand.eval_hdr (by simp [hσ₁])
  have hpos : 0 < i.width.bytes := by cases i.width <;> decide
  have hle : i.width.bytes ≤ 8 := by cases i.width <;> decide
  have hv := leNat_getBytes_lt m a.off i.width.bytes
  obtain ⟨hsw, hval⟩ := emitBswap_spec hpos hle hv hswap
  have hrun : σ' = runOps len ((Op.cast i.width .w64 (hdr tV) tV).eval len
      ((Op.load i.width regionPkt (hdr tA) tV).eval len σ₁)) swap := by
    simp only [σ', runOps_cons, haddr len σ x hx, hσ₁, a]
  have hframe : ∀ v v', (σ.addLog a).SameBut (fun k => k = hReg 0 ∨ IsScratch k)
      (runOps len (((σ₁.addLog a).setHdr tV v).setHdr tV v') swap) := by
    intro v v'
    have hpool : (σ.addLog a).SameBut IsScratch (((σ₁.addLog a).setHdr tV v).setHdr tV v') :=
      ((State.SameBut.setHdr (σ.addLog a) (.int .w64 a.off) hA).trans (.setHdr _ v hV)).trans
        (.setHdr _ v' hV)
    exact (hpool.mono fun _ => .inr).trans (runOps_sameBut hsw len _)
  by_cases hlen : a.off + i.width.bytes ≤ len regionPkt
  · rw [hrun, Op.eval_load hoff hlen (by simpa [hσ₁] using hm),
      widenLoad_eval (v := leNat (getBytes m a.off i.width.bytes)) (by simp)]
    refine ⟨hframe _ _, fun _ => ?_⟩
    have hbytes : byteSwap i.width.bytes (leNat (getBytes m a.off i.width.bytes)) =
        leNat (getBytes m a.off i.width.bytes).reverse := by
      have hround := leBytes_leNat (getBytes m a.off i.width.bytes)
      rw [getBytes_length] at hround
      rw [byteSwap, hround]
    have hrev := leNat_lt (getBytes m a.off i.width.bytes).reverse
    rw [List.length_reverse, getBytes_length] at hrev
    rw [hval _ (by simp [word_ofNat (lt_of_lt_of_le hv (pow_bytes_le hle))]), hbytes,
      word_ofNat (lt_of_lt_of_le hrev (pow_bytes_le hle))]
  · rw [hrun, Op.eval_load_overrun hoff hlen]
    rw [castError_eval (by simp)]
    refine ⟨hframe _ _, fun hno => absurd ?_ hno⟩
    simp only [Access.Overruns, a] at hlen ⊢
    omega

end Region

end Ect
