-- SUMMARY: Tracked constants are the values the run holds, as long as no step goes past what the tracking covers.
import Ect.Lowering.Frame

/-!
# Constant tracking

The translator follows constants through moves, spills and reloads. At every point of
a run a register it takes for the constant `v` holds `v`, and a slot it takes for `v`
last received `v`, unless a step before added to a tracked constant, spilled one that
does not fit, or reloaded one at another width.
-/

namespace Ect

open TransM LittleEndian

/-! ## What is tracked, and what the tracking covers -/

/-- A constant is tracked of a scalar alone, and the value is that constant. -/
def RegInfo.ConstHolds (r : RegInfo) (v : CrVal) : Prop :=
  ∀ k, r.const = some k → r.tag = .scalar ∧ k < 2 ^ 64 ∧ v = .int .w64 k

/-- The instruction does not add an immediate to a tracked constant. -/
def AddsToNoConst (i : Insn) (st : AbsState) : Prop :=
  i.cls = .alu64 → i.aluOp = .add → i.isImm = true → (st.reg i.dst).const ≠ none → i.imm = 0

/-- A constant that is spilled fits the width of the store. -/
def SpillFits (i : Insn) (st : AbsState) : Prop :=
  i.isSpill st = true → ∀ k, (if i.cls = .stx then (st.reg i.src).const else
  some i.imm64) = some k →
    k < 2 ^ i.width.bits

/-- A slot with a tracked constant is reloaded at the width it was stored at. -/
def ReloadsAtWidth (i : Insn) (st : AbsState) (stores : List FrameStore) : Prop :=
  i.isReload st = true → (st.slot (slotOf (st.reg i.src) i).toNat).const ≠ none →
    ∀ s, lastStore (slotOf (st.reg i.src) i).toNat stores = some s → s.width = i.width

/-- The step at a point is one the tracking covers. -/
structure ConstSafe (insns : List Insn) (stores : List FrameStore) (p : Point) : Prop where
  adds : AddsToNoConst (insnAt insns p.idx) p.st
  fits : SpillFits (insnAt insns p.idx) p.st
  reloads : ReloadsAtWidth (insnAt insns p.idx) p.st stores

/-- Every register holds the constant it is tracked as. -/
def ConstRegs (st : AbsState) (σ : State) : Prop :=
  ∀ r : Fin 16, (st.reg r).ConstHolds (σ.hdr (hReg r))

/-- Every slot last received the constant it is tracked as. -/
def ConstSlots (st : AbsState) (stores : List FrameStore) : Prop :=
  ∀ k v, (st.slot k).const = some v → (st.slot k).tag = .scalar ∧
    ∃ s, lastStore k stores = some s ∧ s.val = some v

/-- What the translator tracks at a point is what the run holds there. -/
structure ConstInv (insns : List Insn) (pre : List Point) (p : Point) : Prop where
  frame : FrameInv insns pre p
  reg : ConstRegs p.st p.σ
  slot : ConstSlots p.st (frameStores insns pre)

/-! ## Registers -/

section Registers

variable {st st' : AbsState} {σ σ' : State} {r r' : RegInfo} {v : CrVal}

theorem RegInfo.ConstHolds.of_none (h : r.const = none) : r.ConstHolds v := by
  intro k hk
  rw [h] at hk
  cases hk

theorem constHolds_scalar : RegInfo.scalar.ConstHolds v := .of_none rfl

theorem RegInfo.ConstHolds.mono (h : r.ConstHolds v) (hle : r ≤ r') : r'.ConstHolds v := by
  intro k hk
  obtain ⟨hconst, htag'⟩ := hle.const k hk
  obtain ⟨htag, hlt, hv⟩ := h k hconst
  exact ⟨htag'.trans htag, hlt, hv⟩

/-- What is not a scalar has no constant. -/
theorem RegInfo.ConstHolds.const_none (h : r.ConstHolds v) (hs : r.tag ≠ .scalar) :
    r.const = none := by
  cases hc : r.const with
  | none => rfl
  | some k => exact absurd (h k hc).1 hs

theorem ConstRegs.mono (h : ConstRegs st σ) (hst : st ≤ st') (hσ : σ.SameOffPc σ') :
    ConstRegs st' σ' := by
  intro r
  rw [hσ.hdr _ (hReg_ne_hPc r)]
  exact (h r).mono (hst.1 r)

theorem ConstSlots.mono {ss : List FrameStore} (h : ConstSlots st ss) (hst : st ≤ st') :
    ConstSlots st' ss := by
  intro k v hv
  obtain ⟨hconst, htag'⟩ := (hst.2 k).const v hv
  obtain ⟨htag, hlast⟩ := h k v hconst
  exact ⟨htag'.trans htag, hlast⟩

/-- The registers are left alone. -/
theorem ConstRegs.keep (h : ConstRegs st σ)
    (hhdr : ∀ r : Fin 16, σ'.hdr (hReg r) = σ.hdr (hReg r)) :
    ConstRegs st σ' := by
  intro r
  rw [hhdr r]
  exact h r

/-- One register is written. -/
theorem ConstRegs.set {d : Fin 16} {info : RegInfo} (h : ConstRegs st σ)
    (hhdr : ∀ r : Fin 16, r ≠ d → σ'.hdr (hReg r) = σ.hdr (hReg r))
    (hinfo : info.ConstHolds (σ'.hdr (hReg d))) : ConstRegs (st.setReg d info) σ' := by
  intro r
  rw [AbsState.setReg_reg]
  split
  · rename_i hr
    obtain rfl : r = d := Fin.ext hr
    exact hinfo
  · rename_i hr
    rw [hhdr r fun he => hr (congrArg Fin.val he)]
    exact h r

theorem ConstRegs.setSlot {k : Nat} {info : RegInfo} (h : ConstRegs st σ) :
    ConstRegs (st.setSlot k info) σ := h

theorem hReg_inj {r d : Fin 16} (h : hReg r = hReg d) : r = d := by
  simp only [hReg] at h
  exact Fin.ext (by omega)

/-- Operations into one register and the scratch headers. -/
theorem hdr_of_regOrScratch {len : Nat → Nat} {ops : List Op} {d : Fin 16}
    (h : AllWrite (fun k => k = hReg d ∨ IsScratch k) ops) (σ : State) {r : Fin 16} (hr : r ≠ d) :
    (runOps len σ ops).hdr (hReg r) = σ.hdr (hReg r) := by
  refine runOps_hdr h len σ ?_
  rintro (he | hs)
  · exact hr (hReg_inj he)
  · exact not_isScratch_hReg r hs

/-- Operations into the result register and the scratch headers. -/
theorem hdr_of_isResult {len : Nat → Nat} {ops : List Op} (h : AllWrite IsResult ops) (σ : State)
    {r : Fin 16} (hr : r ≠ 0) : (runOps len σ ops).hdr (hReg r) = σ.hdr (hReg r) :=
  hdr_of_regOrScratch (d := 0) h σ hr

end Registers

/-! ## The abstract effect of an ALU instruction -/

section Alu

variable {c : Config} {t t' : Translator} {ops : List Op} {idx : Nat} {i : Insn}
  {len : Nat → Nat} {st : AbsState} {σ : State}

theorem word_of_constHolds {r : RegInfo} {v : CrVal} {k : Nat} (h : r.ConstHolds v)
    (hk : r.const = some k) : v = word (BitVec.ofNat 64 k) := by
  obtain ⟨_, hlt, hv⟩ := h k hk
  rw [hv, word_ofNat hlt]

theorem constHolds_word {r : RegInfo} {x : BitVec 64} (htag : r.tag = .scalar)
    (hk : r.const = some x.toNat) : r.ConstHolds (word x) := by
  intro k hk'
  rw [hk] at hk'
  obtain rfl := Option.some.inj hk'
  exact ⟨htag, x.isLt, rfl⟩

/-- The constant an accepted ALU instruction is taken to compute is what it computes. -/
theorem alu_constHolds {is64 : Bool} (hregs : ConstRegs st σ)
    (hcls : i.cls = if is64 then .alu64 else .alu) (hsafe : AddsToNoConst i st)
    (h : (aluOps idx i is64).Accepts c t () t' ops) :
    (aluInfo i is64 (st.reg i.dst) (st.reg i.src)).ConstHolds
      ((runOps len σ ops).hdr (hReg i.dst)) := by
  have hd := hregs i.dst
  have hs := hregs i.src
  cases hop : i.aluOp
  case mov =>
    unfold aluOps at h
    simp only [hop] at h
    obtain ⟨_, hval⟩ := aluMov_spec (x := 0)
      (y := BitVec.ofNat 64 (((st.reg i.src).const).getD 0)) hop h
    simp only [aluInfo, hop]
    cases himm : i.isImm with
    | true =>
      -- an immediate is the constant
      obtain ⟨v, hv, hrun⟩ := hval σ (by simp [Insn.isImm] at himm; simp [himm])
      rw [hrun]
      simp only [Insn.aluVal, hop, AluOp.val, himm, if_true] at hv
      cases is64 <;> simp only [Bool.not_true, Bool.not_false, Bool.and_false,
        Bool.false_eq_true, if_false, if_true, reduceCtorEq] at hv ⊢
      all_goals
        obtain rfl := Option.some.inj hv
        refine constHolds_word rfl ?_
        simp [scalarConst, Insn.imm64, Insn.imm32]
      all_goals omega
    | false =>
      cases is64 with
      | false => exact .of_none rfl
      | true =>
        simp only [Bool.not_true, Bool.false_and, Bool.false_eq_true, if_false]
        intro k hk
        have hsrc := word_of_constHolds hs hk
        obtain ⟨v, hv, hrun⟩ := hval σ fun _ => by rw [hsrc, hk]; rfl
        simp only [Insn.aluVal, hop, AluOp.val, himm, if_true, Bool.false_eq_true, if_false,
          reduceCtorEq, Option.some.injEq] at hv
        rw [hk, Option.getD_some] at hv
        rw [hrun, ← hv, ← hsrc]
        exact hs k hk
  case add =>
    simp only [aluInfo, hop]
    cases is64 with
    | false => exact .of_none rfl
    | true =>
      simp only [if_true, addInfo]
      split
      · rename_i himm
        split
        · rename_i hptr
          exact .of_none (hd.const_none hptr.1)
        · split
          · rename_i hptr
            exact .of_none (hd.const_none hptr)
          · -- a scalar keeps its constant: nothing was added
            intro k hk
            have hzero : i.imm = 0 := hsafe hcls hop himm (by simp [hk])
            have hdst := word_of_constHolds hd hk
            obtain ⟨_, hval⟩ := aluOps_spec (x := BitVec.ofNat 64 k) (y := 0) h
            obtain ⟨v, hv, hrun⟩ := hval σ hdst (by simp [Insn.isImm] at himm; simp [himm])
            simp only [Insn.aluVal, hop, AluOp.val, himm, hzero, if_true, reduceCtorEq, if_false,
              Option.some.injEq] at hv
            rw [hrun, ← hv]
            have hsum : BitVec.ofNat 64 k + (0#32).signExtend 64 = BitVec.ofNat 64 k := by simp
            rw [show (0 : BitVec 32) = 0#32 from rfl, hsum, ← hdst]
            exact hd k hk
      · split
        · rename_i hptr
          exact .of_none (hd.const_none hptr.1)
        · split
          · rename_i hptr
            exact .of_none (hs.const_none hptr.2)
          · exact .of_none rfl
  all_goals
    simp only [aluInfo, hop]
    exact .of_none rfl

end Alu

/-! ## Moves -/

section Step

variable {insns : List Insn} {c : Config} {len : Nat → Nat} {pre : List Point} {p q : Point}

/-- A step that stores nothing to the stack keeps the slots. -/
theorem constSlots_quiet {st : AbsState} (h : ConstSlots p.st (frameStores insns pre))
    (hst : st.slot = p.st.slot) (hno : storeAt insns p = none) :
    ConstSlots st (frameStores insns (pre ++ [p])) := by
  rw [frameStores_quiet hno]
  intro k v hv
  rw [hst] at hv ⊢
  exact h k v hv

/-- A step that stores a value to a slot, which is the constant the slot is then tracked
as. -/
theorem constSlots_store {s : FrameStore} {info : RegInfo}
    (h : ConstSlots p.st (frameStores insns pre)) (hs : storeAt insns p = some s)
    (hinfo : ∀ v, info.const = some v → info.tag = .scalar ∧ s.val = some v) :
    ConstSlots (p.st.setSlot s.slot info) (frameStores insns (pre ++ [p])) := by
  rw [frameStores_store hs]
  intro k v hv
  rw [AbsState.setSlot_slot] at hv ⊢
  split at hv
  · rename_i hk
    subst hk
    rw [if_pos rfl]
    obtain ⟨htag, hval⟩ := hinfo v hv
    exact ⟨htag, s, lastStore_cons_self s _, hval⟩
  · rename_i hk
    rw [if_neg hk]
    obtain ⟨htag, s', hlast, hval⟩ := h k v hv
    exact ⟨htag, s', by rw [lastStore_cons_ne (Ne.symm hk), hlast], hval⟩

/-- Operations into scratch headers, and a call's, keep what is tracked. -/
theorem constRegs_call {st : AbsState} {σ σ' : State} {r : Option (List Arm)} {ops : List Op}
    (h : ConstRegs p.st σ) (heff : CallEffect p.st st r ops)
    (hhdr : ∀ r : Fin 16, r ≠ 0 → σ'.hdr (hReg r) = σ.hdr (hReg r))
    (hres : (st.reg 0).ConstHolds (σ'.hdr (hReg 0))) : ConstRegs st σ' := by
  intro k
  by_cases hk : k = 0
  · subst hk
    exact hres
  · rw [hhdr k hk]
    rcases heff.reg k fun he => hk (Fin.ext he) with hst | hst
    · rw [hst]
      exact h k
    · rw [hst]
      exact constHolds_scalar

/-- What an accepted instruction does to what is tracked. -/
theorem insn_constRegs {st : AbsState} {t : Translator} {ops : List Op}
    (hinv : ConstInv insns pre p) (hsafe : ConstSafe insns (frameStores insns pre) p)
    (heff : InsnEffect insns c p.idx p.st p.t st t ops) (hwf : t.WF) :
    ConstRegs st (runOps len p.σ ops) := by
  have hreg := hinv.reg
  cases heff with
  | quiet _ hops _ =>
    exact hreg.keep fun r => runOps_hdr hops len p.σ (not_isScratch_hReg r)
  | alu _ hcls hops =>
    obtain ⟨hinto, _⟩ := @aluOps_spec _ _ _ _ _ _ len _ 0 0 hops
    exact hreg.set (fun r hr => hdr_of_regOrScratch (AllWrite.of_into hinto) p.σ hr)
      (alu_constHolds hreg hcls hsafe.adds hops)
  | konst _ hld hv =>
    rw [runOps_cons, runOps_nil, setOp_eval hv]
    refine hreg.set (fun r hr => by simp [mt hReg_inj hr]) ?_
    intro k hk
    simp only [scalarConst, Option.some.injEq, Nat.mod_eq_of_lt hv] at hk
    subst hk
    exact ⟨rfl, hv, by simp⟩
  | forget _ _ hinfo hops =>
    exact hreg.set (fun r hr => hdr_of_regOrScratch hops p.σ hr) (.of_none hinfo)
  | @reload _ sh hg hcls hacc =>
    refine hreg.set (fun r hr => hdr_of_regOrScratch (by simp) p.σ hr) ?_
    intro k hk
    obtain ⟨htag, s, hlast, hval⟩ := hinv.slot _ k hk
    have hw := hsafe.reloads (by simp [Insn.isReload, hcls, hacc.tag]) (by simp [hk]) s hlast
    have hlt := frameStores_val_lt hlast hval
    have h64 := s.width.pow_bits_le
    obtain ⟨h, hh, hv⟩ := hinv.frame.held _ s hlast
    obtain rfl : sh = h := by
      have := hg.keeps hh
      rw [hacc.hdr] at this
      exact Option.some.inj this
    rw [FrameStore.crVal, hval, hw] at hv
    refine ⟨htag, by omega, ?_⟩
    rw [runOps_cons, runOps_nil, Op.eval_cast (Operand.eval_hdr hv), State.setHdr_hdr, if_pos rfl,
      Nat.mod_eq_of_lt (by simp only [Width.bits_w64]; omega)]
  | @spill _ sh _ _ hacc =>
    have hbase := (hwf.range hacc.hdr).1
    refine ConstRegs.setSlot (hreg.keep fun r => runOps_hdr (T := (· = sh)) (by simp) len p.σ ?_)
    have := hReg_lt_hStackBase r
    omega
  | @spillImm _ sh _ _ hacc =>
    have hbase := (hwf.range hacc.hdr).1
    refine ConstRegs.setSlot (hreg.keep fun r => runOps_hdr (T := (· = sh)) (by simp) len p.σ ?_)
    have := hReg_lt_hStackBase r
    omega
  | packet _ _ hops =>
    intro r
    rw [AbsState.clobber_reg]
    split
    · exact constHolds_scalar
    · rw [AbsState.setReg_reg]
      split
      · exact constHolds_scalar
      · rename_i hr
        rw [hdr_of_isResult hops p.σ fun he => hr (congrArg Fin.val he)]
        exact hreg r

/-- What an accepted instruction does to the slots. -/
theorem insn_constSlots {st : AbsState} {t : Translator} {ops : List Op}
    (hinv : ConstInv insns pre p) (hsafe : ConstSafe insns (frameStores insns pre) p)
    (heff : InsnEffect insns c p.idx p.st p.t st t ops) :
    ConstSlots st (frameStores insns (pre ++ [p])) := by
  have hslot := hinv.slot
  have hquiet : ∀ {st : AbsState}, st.slot = p.st.slot →
      (insnAt insns p.idx).cls ≠ .stx → (insnAt insns p.idx).cls ≠ .st →
      ConstSlots st (frameStores insns (pre ++ [p])) := fun hst hstx hst' =>
    constSlots_quiet hslot hst (storeAt_of_not_spill (notSpill_of_cls hstx hst'))
  cases heff with
  | quiet _ _ hno => exact constSlots_quiet hslot rfl (storeAt_of_not_spill hno)
  | alu _ hcls _ => refine hquiet rfl ?_ ?_ <;> rw [hcls] <;> split <;> decide
  | konst _ hld _ =>
    have hcls := Insn.cls_of_ldImm64 hld
    exact hquiet rfl (by simp [hcls]) (by simp [hcls])
  | forget _ hcls _ _ =>
    rcases hcls.imp_left Insn.cls_of_ldImm64 with hc | hc <;>
      exact hquiet rfl (by simp [hc]) (by simp [hc])
  | reload _ hcls _ => exact hquiet rfl (by simp [hcls]) (by simp [hcls])
  | packet _ hcls _ => exact hquiet rfl (by simp [hcls]) (by simp [hcls])
  | spill _ hcls hacc =>
    have hspill : (insnAt insns p.idx).isSpill p.st = true := by
      simp [Insn.isSpill, hcls, hacc.tag]
    refine constSlots_store hslot (storeAt_stx rfl hcls hacc.tag) ?_
    intro v hv
    obtain ⟨htag, _, hhdr⟩ := hinv.reg _ v hv
    have hlt := hsafe.fits hspill v (by simp [hcls, hv])
    exact ⟨htag, by simp [hhdr, Nat.mod_eq_of_lt hlt]⟩
  | spillImm _ hcls hacc =>
    have hspill : (insnAt insns p.idx).isSpill p.st = true := by
      simp [Insn.isSpill, hcls, hacc.tag]
    refine constSlots_store hslot (storeAt_st rfl hcls hacc.tag) ?_
    intro v hv
    have hlt := hsafe.fits hspill (insnAt insns p.idx).imm64 (by simp [hcls])
    have h64 := (insnAt insns p.idx).imm64_lt
    simp only [scalarConst, Option.some.injEq, Nat.mod_eq_of_lt h64] at hv
    subst hv
    exact ⟨rfl, by rw [Nat.mod_eq_of_lt hlt]⟩

/-- Every move the tracking covers keeps the invariant. -/
theorem const_step {j : Int} {st : AbsState} {t : Translator} {σ₁ : State}
    (hinv : ConstInv insns pre p) (hsafe : ConstSafe insns (frameStores insns pre) p)
    (hm : Moves insns c len p j st t σ₁) (hst : st ≤ q.st) (ht : t.Grows q.t)
    (hσ : σ₁.SameOffPc q.σ) : ConstInv insns (pre ++ [p]) q := by
  have hframe := frame_step hinv.frame hm ht hσ
  suffices h : ConstRegs st σ₁ ∧ ConstSlots st (frameStores insns (pre ++ [p])) from
    ⟨hframe, h.1.mono hst hσ, h.2.mono hst⟩
  cases hm with
  | insn h =>
    have heff := translateOne_effect h
    exact ⟨insn_constRegs hinv hsafe heff ((Grows.grows h).wf hinv.frame.wf),
      insn_constSlots hinv hsafe heff⟩
  | ja he _ => exact ⟨hinv.reg, constSlots_quiet hinv.slot rfl (storeAt_of_jmp he)⟩
  | cond hbr _ h _ =>
    obtain ⟨hscr, _⟩ := (@emitCondition_spec _ _ _ _ _ _ len) h
    have he : (insnAt insns p.idx).endsBlock = true := by
      simp only [Insn.branches, Bool.and_eq_true] at hbr
      exact hbr.1.1
    exact ⟨hinv.reg.keep fun r =>
        runOps_hdr (AllWrite.of_into hscr) len p.σ (not_isScratch_hReg r),
      constSlots_quiet hinv.slot rfl (storeAt_of_jmp he)⟩
  | call he _ h =>
    have heff := translateCall_effect h
    refine ⟨constRegs_call hinv.reg heff (fun r hr => hdr_of_isResult heff.writes p.σ hr) ?_,
      constSlots_quiet hinv.slot heff.slot (storeAt_of_jmp he)⟩
    rcases heff.result with hnone | ⟨hzero, _, hrun⟩
    · exact .of_none hnone
    · rw [hzero, hrun]
      rintro k ⟨⟩
      exact ⟨rfl, by decide, rfl⟩
  | @arms _ arm _ _ _ v he _ h harm =>
    have heff := translateCall_effect h
    have hmem := List.mem_of_find?_eq_some harm
    refine ⟨constRegs_call hinv.reg heff (fun r hr => ?_) ?_,
      constSlots_quiet hinv.slot heff.slot (storeAt_of_jmp he)⟩
    · rw [hdr_of_isResult (heff.arms _ rfl arm hmem) _ hr, State.setHdr_hdr,
        if_neg (hReg_ne_hPc r), hdr_of_isResult heff.writes p.σ hr]
    · rcases heff.result with hnone | ⟨_, hno, _⟩
      · exact .of_none hnone
      · cases hno

end Step

/-! ## Every point of a run -/

section Run

variable {insns : List Insn} {c : Config} {t' : Translator} {mods : List (List Rule)}
  {ops : List Op}

theorem constInv_at (hlen : insns.length ≤ maxInsns)
    (h : (translateProgram insns).Accepts c .init mods t' ops) {len : Nat → Nat}
    {mem : Nat → Nat → Cell} {n : Nat} {q : Point} (hq : (runPoints insns c len mem)[n]? = some q)
    (hsafe : ∀ m p, m < n → (runPoints insns c len mem)[m]? = some p →
      ConstSafe insns (storesBefore insns c len mem m) p) :
    ConstInv insns ((runPoints insns c len mem).take n) q := by
  refine runPoints_invariant hlen h
    (fun p hst hwf hσ => ⟨frameInv_entry hwf hσ, fun r => ?_, fun k v hv => ?_⟩)
    (fun hinv hsafe hm hst ht hσ => const_step hinv hsafe hm hst ht hσ) hq hsafe
  · -- the entry state tracks nothing
    refine RegInfo.ConstHolds.mono (r := entryState.reg r) (.of_none ?_) (hst.1 r)
    simp only [entryState, AbsState.setReg_reg]
    split
    · rfl
    · split <;> rfl
  · have hconst := ((hst.2 k).const v hv).1
    cases hconst

/-- The key of `n` bytes that `kp` points at is the whole of what the slot last received:
the store was wide enough, its value fits the key, and no other store touched it since. -/
def KeyCovered (kp : RegInfo) (n : Nat) (stores : List FrameStore) : Prop :=
  Undisturbed (-kp.off).toNat n stores ∧ ∀ s, lastStore (-kp.off).toNat stores = some s →
    n ≤ s.width.bytes ∧ ∀ v, s.val = some v → v < 256 ^ n

/-- In every run of an accepted program whose steps the tracking covers, a scalar tracked
as a constant holds it and a slot tracked as a constant last received it. So the flags of
an update that is not out of range are 0, and a constant key is the key in the frame. -/
theorem constants_sound (hlen : insns.length ≤ maxInsns)
    (h : (translateProgram insns).Accepts c .init mods t' ops) (len : Nat → Nat)
    (mem : Nat → Nat → Cell) {n : Nat} {q : Point}
    (hq : (runPoints insns c len mem)[n]? = some q)
    (hsafe : ∀ m p, m < n → (runPoints insns c len mem)[m]? = some p →
      ConstSafe insns (storesBefore insns c len mem m) p) :
    (∀ r v, r < numBpfRegs → (q.st.reg r).tag = .scalar → (q.st.reg r).const = some v →
      q.σ.hdr (hReg r) = .int .w64 v) ∧
    (∀ k v, (q.st.slot k).const = some v →
      ∃ s, lastStore k (storesBefore insns c len mem n) = some s ∧ s.val = some v) ∧
    (∀ idx arms st t o, (emitMapUpdate idx q.st).Accepts c q.t (arms, st) t o →
      (∃ mr k, mapOf c.maps (q.st.reg 1) = some mr ∧ mr.mi.isArray = true ∧
        constKey (q.st.reg 2) q.st = some k ∧ mr.mi.maxEntries ≤ k) ∨
      q.σ.hdr (hReg 4) = .int .w64 0) ∧
    ∀ key bytes, constKey (q.st.reg 2) q.st = some key →
      KeyCovered (q.st.reg 2) bytes (storesBefore insns c len mem n) →
      FrameHolds (storesBefore insns c len mem n) (-(q.st.reg 2).off).toNat bytes key := by
  have hinv := constInv_at hlen h hq hsafe
  have hreg : ∀ r v, r < numBpfRegs → (q.st.reg r).const = some v →
      q.σ.hdr (hReg r) = .int .w64 v := fun r v hr hv =>
    (hinv.reg ⟨r, by simp only [numBpfRegs] at hr; omega⟩ v hv).2.2
  have hslot : ∀ k v, (q.st.slot k).const = some v →
      ∃ s, lastStore k (storesBefore insns c len mem n) = some s ∧ s.val = some v :=
    fun k v hv => (hinv.slot k v hv).2
  refine ⟨fun r v hr _ hv => hreg r v hr hv, hslot, fun idx arms st t o hacc => ?_,
    fun key bytes hkey hcov => ?_⟩
  · cases emitMapUpdate_accepts hacc with
    | outOfRange hmap harray hkey hk => exact .inl ⟨_, _, hmap, harray, hkey, hk⟩
    | array _ _ _ _ _ hflags _ => exact .inr (hreg 4 0 (by decide) hflags.2)
    | hash _ _ _ hflags _ _ => exact .inr (hreg 4 0 (by decide) hflags.2)
  · unfold constKey at hkey
    split at hkey
    · cases hkey
    dsimp only at hkey
    split at hkey
    · obtain ⟨s, hlast, hval⟩ := hslot _ key hkey
      obtain ⟨hund, hwide⟩ := hcov
      obtain ⟨hn, hfits⟩ := hwide s hlast
      exact frameHolds_of_lastStore hlast hval hund hn (hfits key hval)
    · cases hkey

/-- `*(u32 *)(r10 - 4) = 7; r2 = r10; r2 += -4; r4 = 0; exit`: a key and the flags of an
update. -/
def constProgram : List Insn :=
  [⟨0x62, 10, 0, -4, 7⟩, ⟨0xbf, 2, 10, 0, 0⟩, ⟨0x07, 2, 0, 0, -4⟩, ⟨0xb7, 4, 0, 0, 0⟩,
    ⟨0x95, 0, 0, 0, 0⟩]

/-- Before the exit `r4` holds 0, the slot last received 7, and the frame holds 7 as the key of
four bytes that `r2` points at. -/
theorem constProgram_sound :
    ∃ q, (runPoints constProgram xdpConfig (fun _ => 0) fun _ _ => none)[4]? = some q ∧
      q.σ.hdr (hReg 4) = .int .w64 0 ∧
      (∃ s, lastStore 4 (storesBefore constProgram xdpConfig (fun _ => 0) (fun _ _ => none) 4) =
        some s ∧ s.val = some 7) ∧
      FrameHolds (storesBefore constProgram xdpConfig (fun _ => 0) (fun _ _ => none) 4) 4 4 7 := by
  obtain ⟨mods, hmods⟩ :
      ∃ mods, (translateProgram constProgram).result xdpConfig .init = some mods := ⟨_, rfl⟩
  obtain ⟨_, _, h⟩ := accepts_of_result hmods
  have hsound := constants_sound (by decide) h (fun _ => 0) (fun _ _ => none) (n := 4) rfl ?_
  · have hcovered : Undisturbed 4 4
        (storesBefore constProgram xdpConfig (fun _ => 0) (fun _ _ => none) 4) := by decide
    refine ⟨_, rfl, hsound.1 4 0 (by decide) (by decide) (by decide),
      hsound.2.1 4 7 (by decide), hsound.2.2.2 7 4 (by decide) ⟨hcovered, fun s hs => ?_⟩⟩
    obtain rfl := Option.some.inj hs
    exact ⟨by decide, fun v hv => by obtain rfl := Option.some.inj hv; decide⟩
  · intro m p hm hp
    obtain rfl | rfl | rfl | rfl : m = 0 ∨ m = 1 ∨ m = 2 ∨ m = 3 := by omega
    all_goals obtain rfl := Option.some.inj hp
    · exact ⟨fun hop => absurd hop (by decide), fun _ k hk => by
        obtain rfl := Option.some.inj hk; decide, fun hreload => absurd hreload (by decide)⟩
    · exact ⟨fun _ hop => absurd hop (by decide), fun hspill => absurd hspill (by decide),
        fun hreload => absurd hreload (by decide)⟩
    · exact ⟨fun _ _ _ hconst => absurd rfl hconst, fun hspill => absurd hspill (by decide),
        fun hreload => absurd hreload (by decide)⟩
    · exact ⟨fun _ hop => absurd hop (by decide), fun hspill => absurd hspill (by decide),
        fun hreload => absurd hreload (by decide)⟩

/-- `r0 = 0; r0 += 1; exit`. -/
def addConstProgram : List Insn :=
  [⟨0xb7, 0, 0, 0, 0⟩, ⟨0x07, 0, 0, 0, 1⟩, ⟨0x95, 0, 0, 0, 0⟩]

/-- Before the exit `r0` is tracked as the constant 0, and holds 1. -/
theorem addConstProgram_counterexample :
    ∃ mods, (translateProgram addConstProgram).result xdpConfig .init = some mods ∧
      ∃ q, (runPoints addConstProgram xdpConfig (fun _ => 0) fun _ _ => none)[2]? = some q ∧
        (q.st.reg 0).tag = .scalar ∧ (q.st.reg 0).const = some 0 ∧
        q.σ.hdr (hReg 0) = .int .w64 1 :=
  ⟨_, rfl, _, rfl, by decide, by decide, by decide⟩

end Run

end Ect
