-- SUMMARY: What one accepted instruction does to the abstract state and to the headers, kind by kind.
import Ect.Lowering.Memory
import Ect.Lowering.Walk
import Ect.Maps.Effects

/-!
# The effect of an instruction

Every straight-line instruction is one of eight kinds. Only a spill writes a stack
header and only a reload reads one. `Walk.invariant` turns a property that each move
preserves into one of every point of a run.
-/

namespace Ect

open TransM

/-! ## Straight-line instructions -/

/-- The stack slot a load or a store through `base` names. -/
def slotOf (base : RegInfo) (i : Insn) : Int := -(base.off + i.off.toInt)

/-- The instruction stores to the stack. -/
def Insn.isSpill (i : Insn) (st : AbsState) : Bool :=
  (i.cls == .stx || i.cls == .st) && (st.reg i.dst).tag == .stack

/-- The instruction loads from the stack. -/
def Insn.isReload (i : Insn) (st : AbsState) : Bool :=
  i.cls == .ldx && (st.reg i.src).tag == .stack

section Kinds

variable {insns : List Insn} {c : Config} {idx k : Nat} {i : Insn} {st st' : AbsState}
  {t t' : Translator} {ops : List Op}

/-- An access through the stack pointer `base` names a slot that has the header `sh`. -/
structure StackAccess (t : Translator) (base : RegInfo) (i : Insn) (sh : Nat) : Prop where
  tag : base.tag = .stack
  offKnown : base.offKnown = true
  nonneg : 0 ≤ slotOf base i
  le : slotOf base i ≤ bpfStackSize
  hdr : t.stackHdrOf (slotOf base i).toNat = some sh

/-- What an accepted instruction does: the abstract state after it, and its operations. -/
inductive InsnEffect (insns : List Insn) (c : Config) (idx : Nat) (st : AbsState) (t : Translator) :
    AbsState → Translator → List Op → Prop where
  /-- A jump over nothing, or a store to a region. -/
  | quiet {t' : Translator} {ops : List Op} (hgrows : t.Grows t') (hops : AllWrite IsScratch ops)
      (hno : (insnAt insns idx).isSpill st = false) :
      InsnEffect insns c idx st t st t' ops
  | alu {is64 : Bool} {t₀ t' : Translator} {ops : List Op} (hgrows : t.Grows t')
      (hcls : (insnAt insns idx).cls = if is64 then .alu64 else .alu)
      (h : (aluOps idx (insnAt insns idx) is64).Accepts c t₀ () t' ops) :
      InsnEffect insns c idx st t (st.setReg (insnAt insns idx).dst (aluInfo (insnAt insns idx) is64
        (st.reg (insnAt insns idx).dst) (st.reg (insnAt insns idx).src))) t' ops
  | konst {t' : Translator} {v : Nat} (hgrows : t.Grows t')
      (hld : (insnAt insns idx).isLdImm64 = true) (hv : v < 2 ^ 64) :
      InsnEffect insns c idx st t (st.setReg (insnAt insns idx).dst (scalarConst v)) t'
        [setOp (hReg (insnAt insns idx).dst) v]
  /-- A map address, or a load from a region: no constant. -/
  | forget {t' : Translator} {d : Fin 16} {info : RegInfo} {ops : List Op} (hgrows : t.Grows t')
      (hcls : (insnAt insns idx).isLdImm64 = true ∨ (insnAt insns idx).cls = .ldx)
      (hinfo : info.const = none) (hops : AllWrite (fun h => h = hReg d ∨ IsScratch h) ops) :
      InsnEffect insns c idx st t (st.setReg d info) t' ops
  | reload {t' : Translator} {sh : Nat} (hgrows : t.Grows t') (hcls : (insnAt insns idx).cls = .ldx)
      (hacc : StackAccess t' (st.reg (insnAt insns idx).src) (insnAt insns idx) sh) :
      InsnEffect insns c idx st t (st.setReg (insnAt insns idx).dst
        (st.slot (slotOf (st.reg (insnAt insns idx).src) (insnAt insns idx)).toNat)) t'
        [.cast (insnAt insns idx).width .w64 (hdr sh) (hReg (insnAt insns idx).dst)]
  | spill {t' : Translator} {sh : Nat} (hgrows : t.Grows t') (hcls : (insnAt insns idx).cls = .stx)
      (hacc : StackAccess t' (st.reg (insnAt insns idx).dst) (insnAt insns idx) sh) :
      InsnEffect insns c idx st t (st.setSlot
        (slotOf (st.reg (insnAt insns idx).dst) (insnAt insns idx)).toNat
        (st.reg (insnAt insns idx).src)) t'
        [.cast .w64 (insnAt insns idx).width (hdr (hReg (insnAt insns idx).src)) sh]
  | spillImm {t' : Translator} {sh : Nat} (hgrows : t.Grows t')
    (hcls : (insnAt insns idx).cls = .st)
      (hacc : StackAccess t' (st.reg (insnAt insns idx).dst) (insnAt insns idx) sh) :
      InsnEffect insns c idx st t (st.setSlot
        (slotOf (st.reg (insnAt insns idx).dst) (insnAt insns idx)).toNat
        (scalarConst (insnAt insns idx).imm64)) t'
        [.stateless .add (insnAt insns idx).width (Ect.konst (insnAt insns idx).imm64)
          (Ect.konst 0) sh]
  | packet {t' : Translator} {ops : List Op} (hgrows : t.Grows t')
    (hcls : (insnAt insns idx).cls = .ld)
      (hops : AllWrite IsResult ops) :
      InsnEffect insns c idx st t (st.setReg 0 .scalar).clobber t' ops

theorem InsnEffect.of_grows {t₀ : Translator} (h : InsnEffect insns c idx st t₀ st' t' ops)
    (hg : t.Grows t') : InsnEffect insns c idx st t st' t' ops := by
  cases h with
  | quiet _ hops hno => exact .quiet hg hops hno
  | alu _ hcls hops => exact .alu hg hcls hops
  | konst _ hld hv => exact .konst hg hld hv
  | forget _ hcls hinfo hops => exact .forget hg hcls hinfo hops
  | reload _ hcls hacc => exact .reload hg hcls hacc
  | spill _ hcls hacc => exact .spill hg hcls hacc
  | spillImm _ hcls hacc => exact .spillImm hg hcls hacc
  | packet _ hcls hops => exact .packet hg hcls hops

/-! ## Memory kinds -/

/-- What an accepted stack header request returns, when the request did not fail. -/
theorem stackHeader_access {base : RegInfo} {sh : Nat} (htag : base.tag = .stack)
    (hoff : base.offKnown = true) (hne : sh ≠ 0)
    (h : (stackHeader (slotOf base i)).Accepts c t sh t' ops) :
    ops = [] ∧ t.Grows t' ∧ StackAccess t' base i sh := by
  obtain ⟨rfl, hgrows, _, hslot⟩ := stackHeader_accepts h
  obtain ⟨hlo, hhi, hsome⟩ := hslot.resolve_left fun h => hne h.2
  exact ⟨rfl, hgrows, ⟨htag, hoff, hlo, hhi, hsome⟩⟩

theorem translateLdxStack_accepts {base : RegInfo} (htag : base.tag = .stack)
    (h : (translateLdxStack idx i base st).Accepts c t st' t' ops) :
    ∃ sh, StackAccess t' base i sh ∧ st' = st.setReg i.dst (st.slot (slotOf base i).toNat) ∧
      ops = [.cast i.width .w64 (hdr sh) (hReg i.dst)] := by
  unfold translateLdxStack at h
  split at h
  · simp at h
  rename_i hoff
  obtain ⟨sh, t₁, _, hsh, _, h₁, rfl⟩ := accepts_bind.mp h
  split at h₁
  · simp at h₁
  rename_i hne
  obtain ⟨rfl, _, hacc⟩ := stackHeader_access htag (by simpa using hoff) hne hsh
  simp only [accepts_bind, accepts_cast, accepts_writeReg] at h₁
  obtain ⟨_, _, _, ⟨rfl, rfl⟩, _, ⟨_, rfl, rfl, rfl⟩, rfl⟩ := h₁
  exact ⟨sh, hacc, rfl, rfl⟩

theorem translateStoreStack_accepts {base : RegInfo} {fromReg : Bool} (htag : base.tag = .stack)
    (h : (translateStoreStack idx i base st fromReg).Accepts c t st' t' ops) :
    ∃ sh, StackAccess t' base i sh ∧
      st' = st.setSlot (slotOf base i).toNat
        (if fromReg then st.reg i.src else scalarConst i.imm64) ∧
      ops = [if fromReg then .cast .w64 i.width (hdr (hReg i.src)) sh
        else .stateless .add i.width (konst i.imm64) (konst 0) sh] := by
  unfold translateStoreStack at h
  split at h
  · simp at h
  rename_i hoff
  obtain ⟨sh, t₁, _, hsh, _, h₁, rfl⟩ := accepts_bind.mp h
  split at h₁
  · simp at h₁
  rename_i hne
  obtain ⟨rfl, _, hacc⟩ := stackHeader_access htag (by simpa using hoff) hne hsh
  cases fromReg with
  | true =>
    simp only [if_true, accepts_bind, accepts_cast, accepts_readReg, accepts_pure] at h₁
    obtain ⟨_, _, _, ⟨rfl, rfl⟩, _,
      ⟨_, _, _, ⟨_, rfl, rfl, rfl⟩, _, ⟨rfl, rfl, rfl⟩, rfl⟩, rfl⟩ := h₁
    exact ⟨sh, hacc, rfl, rfl⟩
  | false =>
    simp only [Bool.false_eq_true, if_false, accepts_bind, accepts_binop, accepts_pure] at h₁
    obtain ⟨_, _, _, ⟨rfl, rfl⟩, _, ⟨rfl, rfl, rfl⟩, rfl⟩ := h₁
    exact ⟨sh, hacc, rfl, rfl⟩

theorem ldxInfo_const (ctx : CtxLayout) (base : RegInfo) : (ldxInfo ctx i base).const = none := by
  unfold ldxInfo
  split <;> rfl

theorem translateLdx_effect (hcls : (insnAt insns idx).cls = .ldx) (hg : t.Grows t')
    (h : (translateLdx idx (insnAt insns idx) st).Accepts c t st' t' ops) :
    InsnEffect insns c idx st t st' t' ops := by
  obtain ⟨_, h₁⟩ := translateLdx_accepts h
  split at h₁
  · rename_i htag
    obtain ⟨sh, hacc, rfl, rfl⟩ := translateLdxStack_accepts htag h₁
    exact .reload hg hcls hacc
  · obtain ⟨_, _, _, rfl, tA, tV, hA, hV, rfl⟩ := translateLdxRegion_accepts h₁
    exact .forget hg (.inr hcls) (ldxInfo_const _ _) (by simp [hA, hV])

theorem translateStore_effect {fromReg : Bool} (hg : t.Grows t')
    (hcls : (insnAt insns idx).cls = if fromReg then .stx else .st)
    (h : (translateStore idx (insnAt insns idx) st fromReg).Accepts c t st' t' ops) :
    InsnEffect insns c idx st t st' t' ops := by
  obtain ⟨_, h₁⟩ := translateStore_accepts h
  split at h₁
  · rename_i htag
    obtain ⟨sh, hacc, rfl, rfl⟩ := translateStoreStack_accepts htag h₁
    cases fromReg with
    | true => exact .spill hg hcls hacc
    | false => exact .spillImm hg hcls hacc
  · rename_i htag
    obtain ⟨_, _, rfl, tA, pre, val, hA, hpre, rfl, _⟩ := translateStoreRegion_accepts h₁
    refine .quiet hg ?_ (by simp [Insn.isSpill, htag])
    have hpre' : AllWrite IsScratch pre := (AllWrite.of_into hpre).mono fun _ h => h.1
    simp [hA, hpre']

theorem translateLdPkt_effect (hcls : (insnAt insns idx).cls = .ld) (hg : t.Grows t')
    (h : (translateLdPkt idx (insnAt insns idx) st).Accepts c t st' t' ops) :
    InsnEffect insns c idx st t st' t' ops := by
  obtain ⟨_, rfl, tA, tV, addr, swap, t₁, t₂, hA, hV, hinto, hswap, rfl, _⟩ :=
    translateLdPkt_accepts h
  have hle : (insnAt insns idx).width.bytes ≤ 8 := by cases (insnAt insns idx).width <;> decide
  have hswap' : AllWrite IsResult swap := AllWrite.of_into
    (@emitBswap_spec _ _ _ _ _ c.ctx.length _ _ _ 0 (insnAt insns idx).width.bytes_pos hle
      (Nat.pow_pos (by decide)) hswap).1
  have haddr : addr.Writes IsResult :=
    ((hinto addr (by simp)).writes).mono fun k hk => .inr (hk.elim (fun h => h ▸ hA) id)
  refine .packet hg hcls ?_
  simp [haddr, hswap', IsResult, hV]

theorem wide_lt (i j : Insn) : (j.imm32 <<< 32 ||| i.imm32) < 2 ^ 64 := by
  have hi := i.imm32_lt
  have hj : j.imm32 <<< 32 < 2 ^ 64 := by
    rw [Nat.shiftLeft_eq]
    have := j.imm32_lt
    omega
  exact Nat.or_lt_two_pow hj (by omega)

theorem translateLdImm64_effect (hld : (insnAt insns idx).isLdImm64 = true) (hg : t.Grows t')
    (h : (translateLdImm64 idx insns st).Accepts c { t with tmpNext := 0 } (k, st') t' ops) :
    InsnEffect insns c idx st t st' t' ops := by
  unfold translateLdImm64 at h
  dsimp only at h
  split at h
  · simp at h
  obtain ⟨_, _, _, hc, _, h₁, rfl⟩ := accepts_bind.mp h
  obtain ⟨rfl, rfl, rfl⟩ := accepts_config.mp hc
  rw [List.nil_append]
  split at h₁
  · simp only [accepts_bind, accepts_set, accepts_writeReg, accepts_pure] at h₁
    obtain ⟨_, _, _, ⟨rfl, rfl⟩, _,
      ⟨_, _, _, ⟨_, rfl, rfl, rfl⟩, _, ⟨hr, rfl, rfl⟩, rfl⟩, rfl⟩ := h₁
    obtain ⟨-, rfl⟩ := Prod.mk.inj hr
    exact .forget hg (.inl hld) rfl (by simp [setOp])
  · split at h₁
    · simp at h₁
    · simp only [accepts_bind, accepts_set, accepts_writeReg, accepts_pure] at h₁
      obtain ⟨_, _, _, ⟨rfl, rfl⟩, _, ⟨_, _, _, ⟨_, rfl, rfl, rfl⟩, _, ⟨hr, rfl, rfl⟩, rfl⟩,
        rfl⟩ := h₁
      obtain ⟨-, rfl⟩ := Prod.mk.inj hr
      exact .konst hg hld (wide_lt _ _)

theorem translatePlain_effect {t₀ : Translator} (hg : t₀.Grows t') (ht : t.Grows t')
    (h : (translatePlain idx (insnAt insns idx) st).Accepts c t₀ st' t' ops) :
    InsnEffect insns c idx st t st' t' ops := by
  unfold translatePlain at h
  split at h <;> rename_i hcls
  · obtain ⟨_, _, rfl, hops⟩ := translateAlu_accepts h
    exact .alu ht hcls hops
  · obtain ⟨_, _, rfl, hops⟩ := translateAlu_accepts h
    exact .alu ht hcls hops
  · exact (translateLdx_effect hcls hg h).of_grows ht
  · split at h
    · simp at h
    · exact (translateStore_effect hg hcls h).of_grows ht
  · exact (translateStore_effect hg hcls h).of_grows ht
  · split at h
    · exact (translateLdPkt_effect hcls hg h).of_grows ht
    · simp at h
  · simp at h

/-- An accepted instruction is of one of the kinds. -/
theorem translateOne_effect
    (h : (translateOne idx insns st).Accepts c t (k, st') t' ops) :
    InsnEffect insns c idx st t st' t' ops := by
  have hg : t.Grows t' := Grows.grows h
  rcases translateOne_cases h with ⟨hnop, _, rfl, rfl, rfl⟩ | ⟨hld, hld'⟩ | ⟨_, _, hplain⟩
  · refine .quiet hg (by simp) ?_
    have hjmp : (insnAt insns idx).isJmp = true := by
      simp only [Insn.isNopJump, Bool.and_eq_true] at hnop
      exact hnop.1.1
    simp only [Insn.isJmp, Bool.or_eq_true, beq_iff_eq] at hjmp
    rcases hjmp with hc | hc <;> simp [Insn.isSpill, hc]
  · exact translateLdImm64_effect hld hg hld'
  · have hreset : Translator.Grows { t with tmpNext := 0 } t := .of_eq rfl rfl
    exact translatePlain_effect (hreset.trans hg) hg hplain

/-- An accepted load or store is a plain instruction. -/
theorem translateOne_plain (hcls : (insnAt insns idx).cls = .ldx ∨ (insnAt insns idx).cls = .stx ∨
      (insnAt insns idx).cls = .st)
    (h : (translateOne idx insns st).Accepts c t (k, st') t' ops) :
    (translatePlain idx (insnAt insns idx) st).Accepts c { t with tmpNext := 0 } st' t' ops := by
  rcases translateOne_cases h with ⟨hnop, _⟩ | ⟨hld, _⟩ | ⟨_, _, hplain⟩
  · rcases hcls with hc | hc | hc <;> simp [Insn.isNopJump, Insn.isJmp, hc] at hnop
  · rw [Insn.cls_of_ldImm64 hld] at hcls
    rcases hcls with hc | hc | hc <;> cases hc
  · exact hplain

theorem translateOne_load (hcls : (insnAt insns idx).cls = .ldx)
    (h : (translateOne idx insns st).Accepts c t (k, st') t' ops) :
    (translateLdx idx (insnAt insns idx) st).Accepts c { t with tmpNext := 0 } st' t' ops := by
  have hplain := translateOne_plain (.inl hcls) h
  unfold translatePlain at hplain
  simpa only [hcls] using hplain

theorem translateOne_store (hcls : (insnAt insns idx).cls = .stx ∨ (insnAt insns idx).cls = .st)
    (h : (translateOne idx insns st).Accepts c t (k, st') t' ops) :
    (translateStore idx (insnAt insns idx) st ((insnAt insns idx).cls == .stx)).Accepts c
      { t with tmpNext := 0 } st' t' ops := by
  have hplain := translateOne_plain (.inr hcls) h
  unfold translatePlain at hplain
  rcases hcls with hc | hc <;> simp only [hc] at hplain ⊢
  · split at hplain
    · simp at hplain
    · exact hplain
  · exact hplain

/-- An accepted load from the stack reads the header of its slot. -/
theorem translateOne_reload (hi : insnAt insns idx = i) (hreload : i.isReload st = true)
    (h : (translateOne idx insns st).Accepts c t (k, st') t' ops) :
    ∃ sh, StackAccess t' (st.reg i.src) i sh ∧
      ops = [.cast i.width .w64 (hdr sh) (hReg i.dst)] := by
  subst hi
  simp only [Insn.isReload, Bool.and_eq_true, beq_iff_eq] at hreload
  obtain ⟨hcls, htag⟩ := hreload
  obtain ⟨_, h₁⟩ := translateLdx_accepts (translateOne_load hcls h)
  rw [if_pos htag] at h₁
  obtain ⟨sh, hacc, _, rfl⟩ := translateLdxStack_accepts htag h₁
  exact ⟨sh, hacc, rfl⟩

/-- An accepted store to the stack writes the header of its slot. -/
theorem translateOne_spill (hi : insnAt insns idx = i) (hspill : i.isSpill st = true)
    (h : (translateOne idx insns st).Accepts c t (k, st') t' ops) :
    ∃ sh, StackAccess t' (st.reg i.dst) i sh := by
  subst hi
  simp only [Insn.isSpill, Bool.and_eq_true, Bool.or_eq_true, beq_iff_eq] at hspill
  obtain ⟨hcls, htag⟩ := hspill
  obtain ⟨_, h₁⟩ := translateStore_accepts (translateOne_store hcls h)
  rw [if_pos htag] at h₁
  obtain ⟨sh, hacc, _, _⟩ := translateStoreStack_accepts htag h₁
  exact ⟨sh, hacc⟩

end Kinds

/-! ## Every point of a run -/

section Invariant

variable {insns : List Insn} {lead : Nat → Bool} {c : Config} {len : Nat → Nat}

private theorem split_singleton {p q : Point} {pre post : List Point}
    (h : [p] = pre ++ q :: post) : pre = [] ∧ q = p := by
  cases pre with
  | nil => exact ⟨rfl, (List.cons.inj h).1.symm⟩
  | cons => simp at h

/-- A property of a point and the points before it that each move keeps, as long as the
points moved from are safe, holds at every point of a walk. -/
theorem Walk.invariant {Inv Safe : List Point → Point → Prop}
    (hstep : ∀ {pre : List Point} {p q : Point} {j : Int} {st : AbsState} {t : Translator}
      {σ₁ : State}, Inv pre p → Safe pre p → Moves insns c len p j st t σ₁ → st ≤ q.st →
      t.Grows q.t → σ₁.SameOffPc q.σ → Inv (pre ++ [p]) q)
    {ps : List Point} {p : Point} {σ' : State} (hw : Walk insns lead c len ps p σ')
    {pre₀ : List Point} (hp : Inv pre₀ p) {pre post : List Point} {q : Point}
    (hps : ps = pre ++ q :: post)
    (hsafe : ∀ a b e, pre = a ++ b :: e → Safe (pre₀ ++ a) b) : Inv (pre₀ ++ pre) q := by
  induction hw generalizing pre₀ pre with
  | off => simp at hps
  | exit =>
    obtain ⟨rfl, rfl⟩ := split_singleton hps
    simpa using hp
  | lost =>
    obtain ⟨rfl, rfl⟩ := split_singleton hps
    simpa using hp
  | @hop p₁ q₁ ps₁ _ _ _ _ _ hm _ hst ht hσ _ ih =>
    cases pre with
    | nil =>
      obtain rfl : p₁ = q := by simpa using (List.cons.inj hps).1
      simpa using hp
    | cons p₂ pre =>
      obtain ⟨rfl, hrest⟩ := List.cons.inj hps
      have hinv := hstep hp (by simpa using hsafe [] p₁ pre rfl) hm hst ht hσ
      have hlast := ih hinv hrest fun a b e he => by
        simpa using hsafe (p₁ :: a) b e (by rw [he]; rfl)
      simpa using hlast

/-- A property that holds where a run of an accepted program starts, and that each move
keeps, holds at every point of the run, as long as the points before are safe. -/
theorem runPoints_invariant {Inv Safe : List Point → Point → Prop} {mem : Nat → Nat → Cell}
    {t' : Translator} {mods : List (List Rule)} {ops : List Op} (hlen : insns.length ≤ maxInsns)
    (h : (translateProgram insns).Accepts c .init mods t' ops)
    (hstart : ∀ p : Point, entryState ≤ p.st → p.t.WF → (entryRun insns mem).SameOffPc p.σ →
      Inv [] p)
    (hstep : ∀ {pre : List Point} {p q : Point} {j : Int} {st : AbsState} {t : Translator}
      {σ₁ : State}, Inv pre p → Safe pre p → Moves insns c len p j st t σ₁ → st ≤ q.st →
      t.Grows q.t → σ₁.SameOffPc q.σ → Inv (pre ++ [p]) q)
    {n : Nat} {q : Point} (hq : (runPoints insns c len mem)[n]? = some q)
    (hsafe : ∀ m p, m < n → (runPoints insns c len mem)[m]? = some p →
      Safe ((runPoints insns c len mem).take m) p) :
    Inv ((runPoints insns c len mem).take n) q := by
  have hpc : decidePc insns.length < 2 ^ 64 := by
    simp only [decidePc, maxInsns] at *
    omega
  obtain ⟨lead, p₀, _, _, hst, hwf, hentry, hw⟩ := translateProgram_walk hpc h mem
  obtain ⟨hn, rfl⟩ := List.getElem?_eq_some_iff.mp hq
  have hinv := hw.invariant hstep (hstart p₀ hst hwf hentry)
    (by rw [← List.drop_eq_getElem_cons hn, List.take_append_drop]) ?_
  · simpa using hinv
  · -- the points before the `n`-th are safe
    intro a b e he
    have hm : a.length < n := by
      have := congrArg List.length he
      simp only [List.length_take, List.length_append, List.length_cons] at this
      omega
    have ha : a = (runPoints insns c len mem).take a.length := by
      have := congrArg (List.take a.length) he
      rw [List.take_take, min_eq_left (by omega), List.take_left] at this
      exact this.symm
    have hb : (runPoints insns c len mem)[a.length]? = some b := by
      have := congrArg (fun l => l[a.length]?) he
      simpa [List.getElem?_take, hm] using this
    rw [List.nil_append, ha]
    exact hsafe a.length b hm hb

end Invariant

end Ect
