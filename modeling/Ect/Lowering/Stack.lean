-- SUMMARY: The machine with a frame and the emitted chain run in lockstep, spills and reloads included.
import Ect.Bpf.StackMachine
import Ect.Lowering.Frame
import Ect.Lowering.Regions
import Ect.Maps.Contents

/-!
# Programs with a stack

The lowered program keeps a stack slot in a header, and what the slot last received in the
abstract state. Both describe the frame of the machine wherever the frame holds the whole of one
store: a value reloaded there is the value of the header, it comes from where the abstract slot
says, and a frame pointer is where its known offset says. With that the simulation of
programs with regions extends to programs that spill and reload, as long as no load mixes the
bytes of several stores.
-/

namespace Ect

open TransM PcMachine LittleEndian Spans Machine

/-! ## Frame pointers -/

/-- A frame pointer at a known offset from `r10` is at that offset. -/
def RegInfo.Placed (r : RegInfo) (v : BitVec 64) : Prop :=
  r.tag = .stack → r.offKnown = true → v = BitVec.ofInt 64 r.off

section Placed

variable {r r' d s : RegInfo} {v x y : BitVec 64} {i : Insn}

theorem placed_of_tag (h : r.tag ≠ .stack) : r.Placed v := fun htag => absurd htag h

theorem placed_of_unknown (h : r.offKnown = false) : r.Placed v := fun _ hknown => by
  rw [h] at hknown
  cases hknown

theorem RegInfo.Placed.mono (h : r.Placed v) (hle : r ≤ r') : r'.Placed v := by
  intro htag hknown
  obtain ⟨hsame, _⟩ := hle.tag_eq (by rw [htag]; decide)
  obtain ⟨hk, hoff⟩ := hle.off hknown
  rw [← hoff]
  exact h (hsame.symm.trans htag) hk

/-- Adding an immediate to a frame pointer. -/
theorem addImm_placed {k : BitVec 32} (hd : d.Placed x) :
    (addInfo true k.toInt d s).Placed (x + k.signExtend 64) := by
  unfold addInfo
  simp only [if_true]
  split
  · intro htag hknown
    rw [hd htag hknown, BitVec.signExtend, BitVec.ofInt_add]
  · split
    · exact placed_of_unknown rfl
    · rename_i hs
      apply placed_of_tag
      simp only [ne_eq, not_not] at hs
      simp [hs]

theorem addReg_placed {k : Int} : (addInfo false k d s).Placed v := by
  unfold addInfo
  simp only [Bool.false_eq_true, if_false]
  split
  · exact placed_of_unknown rfl
  · split
    · exact placed_of_unknown rfl
    · exact placed_of_tag (by decide)

/-- The abstract effect of an ALU instruction keeps frame pointers in place. -/
theorem aluInfo_placed {is64 : Bool} (hd : d.Placed x) (hs : s.Placed y)
    (hv : i.aluVal is64 x y = some v) : (aluInfo i is64 d s).Placed v := by
  unfold aluInfo
  split
  · rename_i hop
    split
    · exact placed_of_tag (by decide)
    · rename_i htrunc
      split
      · exact placed_of_tag (by simp [scalarConst])
      · -- a 64-bit move of a register
        rename_i himm
        have h64 : is64 = true := by cases is64 <;> simp_all
        subst h64
        simp only [Insn.aluVal, hop, AluOp.val, himm, if_true, reduceCtorEq, if_false,
          Bool.false_eq_true, Option.some.injEq] at hv
        rw [← hv]
        exact hs
  · rename_i hop
    split
    · rename_i h64
      subst h64
      simp only [Insn.aluVal, hop, AluOp.val, if_true, reduceCtorEq, if_false,
        Option.some.injEq] at hv
      cases himm : i.isImm with
      | true =>
        simp only [himm, if_true] at hv
        rw [← hv]
        exact addImm_placed hd
      | false => exact addReg_placed
    · exact placed_of_tag (by decide)
  · exact placed_of_tag (by decide)

theorem ldxInfo_placed (ctx : CtxLayout) (base : RegInfo) : (ldxInfo ctx i base).Placed v := by
  unfold ldxInfo
  split
  · exact placed_of_tag (by simp)
  · exact placed_of_tag (by decide)

end Placed

/-! ## The frame -/

namespace Frame

variable {f : Frame} {a b v n : Nat} {w w' : Width} {p p' : Prov}

/-- What was stored last is reloaded. -/
theorem load_store_self : (f.store a w v p).load a w = v % 2 ^ w.bits := by
  rw [load, store, getBytes_putBytes_self (leBytes_length _ _), leNat_leBytes, w.pow_bytes]

/-- Where a store starts, only its own value can be reloaded whole. -/
theorem of_whole?_store_start (h : (f.store a w v p).stores.whole? a w'.bytes = some p') :
    w' = w ∧ p' = p := by
  obtain ⟨hsize, hval⟩ := @Cover.of_whole?_write_start _ _ _ ⟨a, w.bytes, p⟩ _ _ w.bytes_pos
    w'.bytes_pos h
  refine ⟨?_, hval⟩
  change w'.bytes = w.bytes at hsize
  revert hsize
  cases w <;> cases w' <;> decide

/-- A store elsewhere leaves what is still whole as it was. -/
theorem of_whole?_store_ne (hne : a ≠ b) (h : (f.store a w v p).stores.whole? b w'.bytes = some p') :
    f.stores.whole? b w'.bytes = some p' ∧ (f.store a w v p).load b w' = f.load b w' := by
  obtain ⟨hwhole, hbeside⟩ := @Cover.of_whole?_write_ne _ _ _ ⟨a, w.bytes, p⟩ _ _ _ w.bytes_pos
    w'.bytes_pos hne h
  refine ⟨hwhole, ?_⟩
  rw [load, store, getBytes_putBytes_disjoint, load]
  rw [leBytes_length]
  exact hbeside

end Frame

/-! ## Lockstep -/

/-- Wherever the frame holds the whole of one store, the slot that starts there has a header
with the stored value, and the abstract slot describes the value. -/
def SlotsMatch (t : Translator) (st : AbsState) (f : Frame) (σ : State) : Prop :=
  ∀ k w p, k ≤ bpfStackSize → f.stores.whole? (frameIndex k) w.bytes = some p →
    let v := f.load (frameIndex k) w
    (∃ h, t.stackHdrOf k = some h ∧ σ.hdr h = .int w v) ∧
      (st.slot k).Describes p (BitVec.ofNat 64 v) ∧ (st.slot k).Placed (BitVec.ofNat 64 v)

/-- The machine and the chain agree on registers, regions and accesses, and the stack headers
and the abstract state describe the frame. -/
structure StackLockstep (insns : List Insn) (len : Nat → Nat) (t : Translator) (st : AbsState)
    (m : StackMachine) (σ : State) : Prop where
  core : Lockstep insns len st m.core σ
  placed : ∀ r, (st.reg r).Placed (m.core.regs r)
  wf : t.WF
  slots : SlotsMatch t st m.frame σ

section Lockstep

variable {insns : List Insn} {len : Nat → Nat} {t t' : Translator} {st st' : AbsState}
  {m : StackMachine} {σ σ' : State}

theorem StackLockstep.mono (h : StackLockstep insns len t st m σ) (ht : t.Grows t') (hst : st ≤ st')
    (hσ : σ.SameOffPc σ') : StackLockstep insns len t' st' m σ' where
  core := h.core.mono hst hσ
  placed r := (h.placed r).mono (hst.1 r)
  wf := ht.wf h.wf
  slots k w p hk hwhole := by
    obtain ⟨⟨sh, hsh, hv⟩, hdescribes, hplaced⟩ := h.slots k w p hk hwhole
    refine ⟨⟨sh, ht.keeps hsh, ?_⟩, hdescribes.mono (hst.2 k), hplaced.mono (hst.2 k)⟩
    rw [sameOffPc_frame hσ (h.wf.range hsh).1, hv]

/-- A step that leaves the frame, its headers and the abstract slots alone. -/
theorem StackLockstep.keep {core : Machine} (h : StackLockstep insns len t st m σ)
    (hcore : Lockstep insns len st' core σ') (hplaced : ∀ r, (st'.reg r).Placed (core.regs r))
    (ht : t.Grows t') (hslot : st'.slot = st.slot)
    (hhdr : ∀ k, hStackBase ≤ k → σ'.hdr k = σ.hdr k) :
    StackLockstep insns len t' st' { m with core } σ' where
  core := hcore
  placed := hplaced
  wf := ht.wf h.wf
  slots k w p hk hwhole := by
    obtain ⟨⟨sh, hsh, hv⟩, hknown⟩ := h.slots k w p hk hwhole
    refine ⟨⟨sh, ht.keeps hsh, ?_⟩, ?_⟩
    · rw [hhdr sh (h.wf.range hsh).1, hv]
    · rw [hslot]
      exact hknown

/-- Both sides start alike, with nothing in the frame. -/
theorem stackLockstep_entry (insns : List Insn) (mem : Nat → Nat → Byte) (ht : t.WF) :
    StackLockstep insns len t entryState (StackMachine.entry mem)
      (entryRun insns fun r k => some (mem r k)) where
  core := lockstep_entry insns mem
  placed r := by
    intro htag _
    simp only [entryState, AbsState.setReg_reg] at htag ⊢
    split at htag
    · rename_i h10
      rw [if_pos h10]
      rfl
    · split at htag <;> cases htag
  wf := ht
  slots k w p _ hwhole := by
    rw [StackMachine.entry, Frame.empty, Cover.whole?_empty] at hwhole
    cases hwhole

end Lockstep

/-! ## Accesses to the frame -/

section Access

variable {insns : List Insn} {c : Config} {len lenM : Nat → Nat} {i k : Nat} {m : StackMachine}
  {st st' : AbsState} {t t₀ t' : Translator} {ops : List Op} {σ : State}

/-- The byte an access starts at is the one its slot is named after. -/
theorem frameAt_eq {base : RegInfo} {ins : Insn} {sh : Nat} {x : BitVec 64}
    (hacc : StackAccess t base ins sh) (hx : base.Placed x) :
    StackMachine.frameAt x ins = frameIndex (slotOf base ins).toNat := by
  have hlo := hacc.nonneg
  have hhi := hacc.le
  rw [hx hacc.tag hacc.offKnown]
  have hsize : BitVec.ofNat 64 bpfStackSize = BitVec.ofInt 64 bpfStackSize := rfl
  rw [StackMachine.frameAt, address, BitVec.signExtend, hsize, ← BitVec.ofInt_add,
    ← BitVec.ofInt_add, BitVec.toNat_ofInt]
  simp only [slotOf, frameIndex, bpfStackSize] at hlo hhi ⊢
  omega

/-- No accepted access to a region goes through a pointer into the frame. -/
theorem regionNone_of_stack {base : RegInfo} {x : BitVec 64} (h : base.Describes .stack x) :
    regionOf c.maps base = regionNone := by
  by_contra hregion
  cases region_of_describes (c := c) h hregion

/-- What a step of the machine at `pc` and the step of the chain to `σ₁` do, when the
chain goes on at `q`. -/
inductive StackStepSim (insns : List Insn) (ctx : CtxLayout) (len lenM : Nat → Nat) (pc : Nat)
    (m : StackMachine) (q : Nat) (t : Translator) (st : AbsState) (σ₁ : State) : Prop where
  | next {m' : StackMachine} (hstep : StackMachine.step insns ctx lenM pc m = .next q m')
      (hsim : StackLockstep insns len t st m' σ₁)
  | fault (hstep : StackMachine.step insns ctx lenM pc m = .stop .fault)
  | narrow (h : NarrowFieldLoad insns ctx pc m.core)
  | mixed (h : StackMachine.MixedReload insns pc m)
  | overrun {a : Access} (ha : a.Overruns lenM) (hlog : σ₁.log = m.core.log ++ [a])
      (hstep : StackMachine.step insns ctx lenM pc m = .stop (.overrun (m.core.log ++ [a])))
  | passed {a : Access} {m' : StackMachine} (ha : a.Overruns len) (hlog : σ₁.log = m.core.log ++ [a])
      (hlog' : m'.core.log = m.core.log ++ [a])
      (hstep : StackMachine.step insns ctx lenM pc m = .next q m')

/-- A step without an access to the frame is the step of the machine without a frame. -/
theorem StackStepSim.of_core {ctx : CtxLayout} {q : Nat} {σ₁ : State}
    (hstep : StackMachine.step insns ctx lenM i m = m.lift (Machine.step insns ctx lenM i m.core))
    (hsim : StepSim insns ctx len lenM i m.core q st' σ₁)
    (hkeep : ∀ core, Machine.step insns ctx lenM i m.core = .next q core →
      Lockstep insns len st' core σ₁ → StackLockstep insns len t' st' { m with core } σ₁) :
    StackStepSim insns ctx len lenM i m q t' st' σ₁ := by
  cases hsim with
  | next h hcore =>
    refine .next ?_ (hkeep _ h hcore)
    rw [hstep, h]
    rfl
  | fault h =>
    apply StackStepSim.fault
    rw [hstep, h]
    rfl
  | narrow h => exact .narrow h
  | overrun ha hlog h =>
    refine .overrun ha hlog ?_
    rw [hstep, h]
    rfl
  | @passed a core ha hlog hlog' h =>
    have hpast : StackMachine.step insns ctx lenM i m = .next q { m with core } := by
      rw [hstep, h]
      rfl
    exact .passed ha hlog hlog' hpast

section Frame

variable (hsim : StackLockstep insns len t st m σ) (hg : t.Grows t')
include hsim hg

theorem reload_sim (hcls : (insnAt insns i).cls = .ldx)
    (hprov : m.core.prov (insnAt insns i).src = .stack)
    (hstep : StackMachine.step insns c.ctx lenM i m = m.reload (insnAt insns i) i)
    (h : (translateLdx i (insnAt insns i) st).Accepts c t₀ st' t' ops) :
    StackStepSim insns c.ctx len lenM i m (i + 1) t' st' (runOps len σ ops) := by
  set ins := insnAt insns i with hins
  have hbase := hsim.core.sound ins.src
  rw [hprov] at hbase
  obtain ⟨_, h₁⟩ := translateLdx_accepts h
  split at h₁
  · rename_i htag
    obtain ⟨sh, hacc, rfl, rfl⟩ := translateLdxStack_accepts htag h₁
    have hat := frameAt_eq hacc (hsim.placed ins.src)
    unfold StackMachine.reload at hstep
    rw [hat] at hstep
    dsimp only at hstep
    split at hstep
    · exact .fault hstep
    cases hwhole : m.frame.stores.whole? (frameIndex (slotOf (st.reg ins.src) ins).toNat)
        ins.width.bytes with
    | none =>
      refine .mixed ⟨hcls, hprov, ?_⟩
      change m.frame.stores.whole? (StackMachine.frameAt (m.core.regs ins.src) ins)
        ins.width.bytes = none
      rw [hat]
      exact hwhole
    | some p =>
      rw [hwhole] at hstep
      have hk : (slotOf (st.reg ins.src) ins).toNat ≤ bpfStackSize := by
        have := hacc.le
        omega
      obtain ⟨⟨sh', hsh', hv⟩, hdescribes, hplaced⟩ := hsim.slots _ _ _ hk hwhole
      -- the header that is read is the one of the slot
      obtain rfl : sh' = sh := by
        have hgrown := hg.keeps hsh'
        rw [hacc.hdr] at hgrown
        exact (Option.some.inj hgrown).symm
      rw [runOps_cons, runOps_nil, widenLoad_eval hv]
      refine .next hstep ?_
      refine hsim.keep ?_ ?_ hg rfl ?_
      · refine hsim.core.setReg (.setHdr _ _ (.inl rfl)) ?_ hdescribes
        simp
      · intro r
        simp only [AbsState.setReg_reg, Machine.setReg, Regs.set]
        split
        · exact hplaced
        · exact hsim.placed r
      · intro j hj
        rw [State.setHdr_hdr, if_neg]
        have := hReg_lt_hStackBase ins.dst
        omega
  · obtain ⟨hne, _⟩ := translateLdxRegion_accepts h₁
    exact absurd (regionNone_of_stack hbase) hne

/-- A value is stored to a slot on both sides. -/
theorem StackLockstep.store {base info : RegInfo} {ins : Insn} {sh v : Nat} {p : Prov}
    (hacc : StackAccess t' base ins sh)
    (hdescribes : info.Describes p (BitVec.ofNat 64 (v % 2 ^ ins.width.bits)))
    (hplaced : info.Placed (BitVec.ofNat 64 (v % 2 ^ ins.width.bits))) :
    StackLockstep insns len t' (st.setSlot (slotOf base ins).toNat info)
      { m with frame := m.frame.store (frameIndex (slotOf base ins).toNat) ins.width v p }
      (σ.setHdr sh (.int ins.width (v % 2 ^ ins.width.bits))) := by
  have hwf := hg.wf hsim.wf
  have hbase := (hwf.range hacc.hdr).1
  refine ⟨⟨?_, hsim.core.mem, hsim.core.log, hsim.core.inRange, hsim.core.sound⟩, hsim.placed, hwf,
    fun k w q hk hwhole => ?_⟩
  · intro r hr
    have hlt : r < numBpfRegs := by
      simp only [scanUsedRegs, Bool.and_eq_true, decide_eq_true_eq] at hr
      exact hr.1
    rw [State.setHdr_hdr, if_neg, hsim.core.regs r hr]
    simp only [hReg, numBpfRegs, hStackBase] at hlt hbase ⊢
    omega
  · rw [AbsState.setSlot_slot]
    by_cases hks : k = (slotOf base ins).toNat
    · subst hks
      obtain ⟨rfl, rfl⟩ := Frame.of_whole?_store_start hwhole
      rw [if_pos rfl, Frame.load_store_self]
      refine ⟨⟨sh, hacc.hdr, ?_⟩, hdescribes, hplaced⟩
      simp
    · have hslot := hacc.le
      have hne : frameIndex (slotOf base ins).toNat ≠ frameIndex k := by
        simp only [frameIndex]
        omega
      obtain ⟨hold, hload⟩ := Frame.of_whole?_store_ne hne hwhole
      obtain ⟨⟨sh', hsh', hv⟩, hknown⟩ := hsim.slots k w q hk hold
      have hsh'' := hg.keeps hsh'
      rw [if_neg hks, hload]
      refine ⟨⟨sh', hsh'', ?_⟩, hknown⟩
      rw [State.setHdr_hdr, if_neg, hv]
      rintro rfl
      exact hks (hwf.inj hsh'' hacc.hdr)

omit hg in
/-- What is known of a register describes what a store of it leaves, when a pointer is stored
whole or not at all. -/
theorem StackLockstep.stored {r : Nat} {w : Width} (hclob : m.core.prov r ≠ .clobbered)
    (hwhole : ¬((m.core.prov r).isPtr = true ∧ w ≠ .w64)) :
    let v := BitVec.ofNat 64 ((m.core.regs r).toNat % 2 ^ w.bits)
    (st.reg r).Describes (m.core.prov r) v ∧ (st.reg r).Placed v := by
  have hdescribes := hsim.core.sound r
  have hplaced := hsim.placed r
  intro v
  by_cases hw : w = .w64
  · subst hw
    have hv : v = m.core.regs r := by
      have hlt := (m.core.regs r).isLt
      simp only [v, Width.bits_w64]
      rw [Nat.mod_eq_of_lt hlt, BitVec.ofNat_toNat, BitVec.setWidth_eq]
    rw [hv]
    exact ⟨hdescribes, hplaced⟩
  · have hscalar : m.core.prov r = .scalar := by
      cases hp : m.core.prov r with
      | scalar => rfl
      | clobbered => exact absurd hp hclob
      | ctx | pkt | stack =>
        rw [hp] at hwhole
        exact absurd ⟨rfl, hw⟩ hwhole
    rw [hscalar] at hdescribes ⊢
    have htag : (st.reg r).tag = .scalar ∨ (st.reg r).tag = .unknown := by
      unfold RegInfo.Describes at hdescribes
      cases htag : (st.reg r).tag <;> rw [htag] at hdescribes <;> simp at hdescribes ⊢
    constructor
    · unfold RegInfo.Describes
      rcases htag with htag | htag <;> rw [htag] <;> trivial
    · apply placed_of_tag
      rcases htag with htag | htag <;> rw [htag] <;> decide

theorem spill_sim (hb : Boundary insns i) (hlt : i < insns.length) (fromReg : Bool)
    (hcls : (insnAt insns i).cls = if fromReg then .stx else .st)
    (hsrc : (insnAt insns i).src < numBpfRegs)
    (hprov : m.core.prov (insnAt insns i).dst = .stack)
    (hstep : StackMachine.step insns c.ctx lenM i m = m.spill (insnAt insns i) fromReg i)
    (h : (translateStore i (insnAt insns i) st fromReg).Accepts c t₀ st' t' ops) :
    StackStepSim insns c.ctx len lenM i m (i + 1) t' st' (runOps len σ ops) := by
  set ins := insnAt insns i with hins
  have hbase := hsim.core.sound ins.dst
  rw [hprov] at hbase
  obtain ⟨_, h₁⟩ := translateStore_accepts h
  split at h₁
  · rename_i htag
    obtain ⟨sh, hacc, rfl, rfl⟩ := translateStoreStack_accepts htag h₁
    have hat := frameAt_eq hacc (hsim.placed ins.dst)
    unfold StackMachine.spill at hstep
    rw [hat] at hstep
    dsimp only at hstep
    cases fromReg with
    | true =>
      simp only [if_true] at hstep hcls ⊢
      split at hstep
      · exact .fault hstep
      rename_i hfine
      simp only [not_or] at hfine
      obtain ⟨-, hclob, hptr⟩ := hfine
      have hld : ins.isLdImm64 = false := Insn.isLdImm64_of_cls (by simp [hcls])
      have hsrcv := hsim.core.hdr hb hlt (r := ins.src)
        (by rw [← hins]; simp [mentionedRegs, hld, hcls]) hsrc
      obtain ⟨hdescribes, hplaced⟩ := hsim.stored hclob hptr
      rw [runOps_cons, runOps_nil, Op.eval_cast (Operand.eval_hdr hsrcv)]
      exact .next hstep (hsim.store hg hacc hdescribes hplaced)
    | false =>
      simp only [Bool.false_eq_true, if_false] at hstep ⊢
      split at hstep
      · exact .fault hstep
      have hval : (Op.stateless .add ins.width (konst ins.imm64) (konst 0) sh).eval len σ =
          σ.setHdr sh (.int ins.width ((ins.imm.signExtend 64).toNat % 2 ^ ins.width.bits)) := by
        have hlt64 := ins.imm64_lt
        have hmod : ((((ins.imm64 : Nat) : Int) % 2 ^ 64).toNat) = ins.imm64 := by omega
        simp only [Op.eval, Operand.eval_konst, hmod, BinOp.eval]
        simp [Insn.imm64]
      rw [runOps_cons, runOps_nil, hval]
      refine .next hstep (hsim.store hg hacc (describes_of_scalar rfl) (placed_of_tag ?_))
      simp [scalarConst]
  · obtain ⟨hne, _⟩ := translateStoreRegion_accepts h₁
    exact absurd (regionNone_of_stack hbase) hne

end Frame

end Access

/-! ## Instructions beside the frame -/

section MachineNext

variable {i : Insn} {m m' : Machine} {pc q : Nat} {len : Nat → Nat}

theorem aluStep_next {is64 : Bool} (h : m.aluStep i is64 pc = .next q m') :
    ∃ v, i.aluVal is64 (m.regs i.dst) (m.regs i.src) = some v ∧ m'.regs = m.regs.set i.dst v := by
  unfold Machine.aluStep at h
  split at h
  · cases h
  · split at h
    · cases h
    · cases h
    · rename_i v _ hv
      cases h
      exact ⟨v, hv, rfl⟩

theorem access_next {a : Access} {k : Machine → Step Machine Halt}
    (h : m.access len a k = .next q m') : k { m with log := m.log ++ [a] } = .next q m' := by
  unfold Machine.access at h
  split at h
  · cases h
  · exact h

theorem ldxStep_next {ctx : CtxLayout} (h : m.ldxStep i ctx len pc = .next q m') :
    ∃ v, m'.regs = m.regs.set i.dst v := by
  unfold Machine.ldxStep at h
  split at h
  · cases h
  · split at h
    · cases h
    · cases access_next h
      exact ⟨_, rfl⟩

theorem storeStep_next {fromReg : Bool} (h : m.storeStep i fromReg len pc = .next q m') :
    m'.regs = m.regs := by
  unfold Machine.storeStep at h
  split at h
  · cases h
  · split at h
    · cases h
    · split at h
      · cases h
      · cases access_next h
        rfl

theorem ldPktStep_next (h : m.ldPktStep i len pc = .next q m') :
    ∃ v, m'.regs = m.regs.set 0 v := by
  unfold Machine.ldPktStep at h
  split at h
  · cases h
  · split at h
    · cases h
    · cases access_next h
      exact ⟨_, rfl⟩

theorem goto_next {target : Int} (h : Machine.goto target m = .next q m') : m' = m := by
  unfold Machine.goto at h
  split at h
  · cases h
    rfl
  · cases h

theorem jmpStep_next (h : m.jmpStep i pc = .next q m') : m'.regs = m.regs := by
  unfold Machine.jmpStep at h
  split at h
  · cases h
  · rw [goto_next h]
  · cases h
  · split at h
    · cases h
    · split at h
      · split at h
        · rw [goto_next h]
        · cases h
          rfl
      · cases h

end MachineNext

section Beside

variable {insns : List Insn} {c : Config} {len lenM : Nat → Nat} {i k q : Nat} {m : StackMachine}
  {st st' : AbsState} {t t' : Translator} {ops : List Op} {σ : State}

/-- A register is given a value its abstract value places. -/
theorem placed_set {regs : Regs} {d : Nat} {v : BitVec 64} {info : RegInfo}
    (h : ∀ r, (st.reg r).Placed (regs r)) (hinfo : info.Placed v) (r : Nat) :
    ((st.setReg d info).reg r).Placed (regs.set d v r) := by
  simp only [AbsState.setReg_reg, Regs.set]
  split
  · exact hinfo
  · exact h r

/-- What an instruction beside the frame does to the abstract state. -/
theorem insn_placed {core : Machine} (hplaced : ∀ r, (st.reg r).Placed (m.core.regs r))
    (hldx : (insnAt insns i).cls = .ldx → (st.reg (insnAt insns i).src).tag ≠ .stack)
    (hstore : (insnAt insns i).cls = .stx ∨ (insnAt insns i).cls = .st →
      (st.reg (insnAt insns i).dst).tag ≠ .stack)
    (hmaps : ∀ k, c.insnMapIdx k = none) (hlt : i < insns.length)
    (h : (translateOne i insns st).Accepts c t (k, st') t' ops)
    (hstep : Machine.step insns c.ctx lenM i m.core = .next q core) :
    (∀ r, (st'.reg r).Placed (core.regs r)) ∧ st'.slot = st.slot := by
  rcases translateOne_cases h with ⟨hnop, rfl, rfl, _, rfl⟩ | ⟨hld, h₁⟩ | ⟨hld, rfl, hplain⟩
  · -- a jump over nothing
    simp only [Insn.isNopJump, Bool.and_eq_true, beq_iff_eq] at hnop
    obtain ⟨⟨hjmp, hja⟩, hoff⟩ := hnop
    rw [Machine.step_jmp hlt hjmp, Machine.jmpStep, hja] at hstep
    dsimp only [Machine.goto] at hstep
    split at hstep
    · cases hstep
      exact ⟨hplaced, rfl⟩
    · cases hstep
  · obtain ⟨_, _, _, rfl, rfl, rfl⟩ := translateLdImm64_const (hmaps i) h₁
    rw [Machine.step_ldImm64 hlt hld] at hstep
    cases hstep
    exact ⟨placed_set hplaced (placed_of_tag (by simp [scalarConst])), rfl⟩
  · unfold translatePlain at hplain
    rw [Machine.step_plain hlt hld] at hstep
    cases hcls : (insnAt insns i).cls <;> simp only [hcls] at hplain hstep
    case alu | alu64 =>
      obtain ⟨_, _, rfl, _⟩ := translateAlu_accepts hplain
      obtain ⟨v, hv, hregs⟩ := aluStep_next hstep
      rw [hregs]
      exact ⟨placed_set hplaced (aluInfo_placed (hplaced _) (hplaced _) hv), rfl⟩
    case ldx =>
      obtain ⟨_, h₁⟩ := translateLdx_accepts hplain
      rw [if_neg (hldx hcls)] at h₁
      obtain ⟨_, _, _, rfl, _⟩ := translateLdxRegion_accepts h₁
      obtain ⟨v, hregs⟩ := ldxStep_next hstep
      rw [hregs]
      exact ⟨placed_set hplaced (ldxInfo_placed _ _), rfl⟩
    case stx | st =>
      obtain ⟨_, h₁⟩ := translateStore_accepts (translateOne_store (by simp [hcls]) h)
      rw [if_neg (hstore (by simp [hcls]))] at h₁
      obtain ⟨_, _, rfl, _⟩ := translateStoreRegion_accepts h₁
      rw [storeStep_next hstep]
      exact ⟨hplaced, rfl⟩
    case ld =>
      split at hplain
      · obtain ⟨_, rfl, _⟩ := translateLdPkt_accepts hplain
        obtain ⟨v, hregs⟩ := ldPktStep_next hstep
        refine ⟨fun r => ?_, rfl⟩
        rw [AbsState.clobber_reg, hregs]
        split
        · exact placed_of_tag (by decide)
        · exact placed_set hplaced (placed_of_tag (by decide)) r
      · simp at hplain
    all_goals simp at hplain

/-- An instruction beside the frame writes no stack header. -/
theorem insn_beside {T : Nat} (hno : (insnAt insns i).isSpill st = false)
    (h : (translateOne i insns st).Accepts c t (k, st') t' ops) (hT : hStackBase ≤ T) :
    (runOps len σ ops).hdr T = σ.hdr T := by
  have hspill : ∀ {cls : Cls}, (insnAt insns i).cls = cls → (cls = .stx ∨ cls = .st) →
      (st.reg (insnAt insns i).dst).tag = .stack → False := by
    intro cls hcls hkind htag
    rw [Insn.isSpill, htag, hcls] at hno
    rcases hkind with rfl | rfl <;> cases hno
  cases translateOne_effect h with
  | quiet _ hops => exact runOps_frame hops (fun _ => lt_hStackBase_of_isScratch) hT
  | alu _ _ hops =>
    obtain ⟨hinto, _⟩ := @aluOps_spec _ _ _ _ _ _ len _ 0 0 hops
    exact runOps_frame (AllWrite.of_into hinto) (fun _ => regOrScratch_lt) hT
  | konst =>
    exact runOps_frame (T := fun k => k = hReg (insnAt insns i).dst ∨ IsScratch k)
      (by simp [setOp]) (fun _ => regOrScratch_lt) hT
  | forget _ _ _ hops => exact runOps_frame hops (fun _ => regOrScratch_lt) hT
  | reload =>
    exact runOps_frame (T := fun k => k = hReg (insnAt insns i).dst ∨ IsScratch k)
      (by simp) (fun _ => regOrScratch_lt) hT
  | spill _ hcls hacc => exact (hspill hcls (.inl rfl) hacc.tag).elim
  | spillImm _ hcls hacc => exact (hspill hcls (.inr rfl) hacc.tag).elim
  | packet _ _ hops => exact runOps_frame hops (fun _ => isResult_lt) hT

end Beside

/-! ## One step of both -/

section Step

variable {insns : List Insn} {c : Config} {len lenM : Nat → Nat} {i k : Nat} {m : StackMachine}
  {st st' : AbsState} {t t' : Translator} {ops : List Op} {σ : State}

theorem StackMachine.step_beside {ctx : CtxLayout}
    (h : m.core.accessesFrame (insnAt insns i) = false) :
    StackMachine.step insns ctx lenM i m = m.lift (Machine.step insns ctx lenM i m.core) := by
  refine if_neg fun hacc => ?_
  rw [← insnAt, h] at hacc
  cases hacc.2

theorem StackMachine.step_frame {ctx : CtxLayout} (hlt : i < insns.length)
    (h : m.core.accessesFrame (insnAt insns i) = true) :
    StackMachine.step insns ctx lenM i m =
      if (insnAt insns i).cls = .ldx then m.reload (insnAt insns i) i
      else m.spill (insnAt insns i) ((insnAt insns i).cls == .stx) i :=
  if_pos ⟨hlt, h⟩

theorem accessesFrame_of_jmp {ins : Insn} (h : ins.isJmp = true) :
    m.core.accessesFrame ins = false := by
  simp only [Insn.isJmp, Bool.or_eq_true, beq_iff_eq] at h
  rcases h with h | h <;> simp [Machine.accessesFrame, h]

/-- The base register of an instruction beside the frame is not known as a frame pointer. -/
theorem tag_ne_stack {core : Machine} {ins : Insn} {r : Nat}
    (hacc : core.accessesFrame ins = false) (hmode : ins.mode = .mem)
    (hcls : ins.cls = .ldx ∧ r = ins.src ∨ (ins.cls = .stx ∨ ins.cls = .st) ∧ r = ins.dst)
    (hbase : (st.reg r).Describes (core.prov r) (core.regs r)) : (st.reg r).tag ≠ .stack := by
  intro htag
  simp only [RegInfo.Describes, htag] at hbase
  rcases hcls with ⟨hc, rfl⟩ | ⟨hc | hc, rfl⟩ <;>
    simp [Machine.accessesFrame, hmode, hc, hbase] at hacc

/-- A straight-line instruction. -/
theorem stack_insn_sim (hsim : StackLockstep insns len t st m σ)
    (hreg : (insnAt insns i).isRegional = true) (hmaps : ∀ k, c.insnMapIdx k = none)
    (hb : Boundary insns i) (hlt : i < insns.length)
    (h : (translateOne i insns st).Accepts c t (k, st') t' ops) :
    StackStepSim insns c.ctx len lenM i m (i + k) t' st' (runOps len σ ops) := by
  have hg : t.Grows t' := Grows.grows h
  obtain ⟨_, hsrc⟩ := Insn.isRegional_regs hreg
  cases hacc : m.core.accessesFrame (insnAt insns i) with
  | false =>
    have hmode := Insn.isRegional_mode hreg
    have hldx : (insnAt insns i).cls = .ldx → (st.reg (insnAt insns i).src).tag ≠ .stack :=
      fun hcls => tag_ne_stack hacc (hmode (.inl hcls)) (.inl ⟨hcls, rfl⟩) (hsim.core.sound _)
    have hstore : (insnAt insns i).cls = .stx ∨ (insnAt insns i).cls = .st →
        (st.reg (insnAt insns i).dst).tag ≠ .stack :=
      fun hcls => tag_ne_stack hacc (hmode (.inr hcls)) (.inr ⟨hcls, rfl⟩) (hsim.core.sound _)
    have hno : (insnAt insns i).isSpill st = false := by
      by_contra hspill
      simp only [Bool.not_eq_false, Insn.isSpill, Bool.and_eq_true, Bool.or_eq_true,
        beq_iff_eq] at hspill
      exact hstore hspill.1 hspill.2
    refine .of_core (StackMachine.step_beside hacc) (insn_sim hsim.core hreg hmaps hb hlt h)
      fun core hstep hcore => ?_
    obtain ⟨hplaced, hslot⟩ := insn_placed hsim.placed hldx hstore hmaps hlt h hstep
    exact hsim.keep hcore hplaced hg hslot fun _ => insn_beside hno h
  | true =>
    have hstep := @StackMachine.step_frame insns lenM i m c.ctx hlt hacc
    simp only [Machine.accessesFrame, Bool.and_eq_true] at hacc
    obtain ⟨-, hprov⟩ := hacc
    have hkind : (insnAt insns i).cls = .ldx ∨ (insnAt insns i).cls = .stx ∨
        (insnAt insns i).cls = .st := by
      cases hcls : (insnAt insns i).cls <;> simp [hcls] at hprov ⊢
    obtain ⟨hends, rfl, -⟩ := translateOne_accepts h hlt
    have hld : (insnAt insns i).isLdImm64 = false := by
      apply Insn.isLdImm64_of_cls
      rcases hkind with h | h | h <;> simp [h]
    rw [insnSlots_of_not_ldImm64 hld]
    rcases hkind with hcls | hcls
    · rw [if_pos hcls] at hstep
      simp only [hcls] at hprov
      exact reload_sim hsim hg hcls (by simpa using hprov) hstep (translateOne_load hcls h)
    · have hdst : m.core.prov (insnAt insns i).dst = .stack := by
        rcases hcls with hc | hc <;> simpa [hc] using hprov
      rw [if_neg (by rcases hcls with hc | hc <;> simp [hc])] at hstep
      refine spill_sim hsim hg hb hlt _ ?_ hsrc hdst hstep (translateOne_store hcls h)
      rcases hcls with hc | hc <;> simp [hc]

/-- The machine and the chain make the same step. -/
theorem stack_step_sim {p : Point} {j : Int} {q : Nat} {σ₁ : State}
    (hsim : StackLockstep insns len p.t p.st m p.σ)
    (hreg : (insnAt insns p.idx).isRegional = true) (hmaps : ∀ k, c.insnMapIdx k = none)
    (hb : Boundary insns p.idx) (hm : Moves insns c len p j st t σ₁) (hq : (q : Int) = j) :
    StackStepSim insns c.ctx len lenM p.idx m q t st σ₁ := by
  have hcore : StepSim insns c.ctx len lenM p.idx m.core q st σ₁ :=
    step_sim hsim.core hreg hmaps hb hm hq
  have hlt := hm.lt
  obtain ⟨hdst, hsrc⟩ := Insn.isRegional_regs hreg
  -- a jump leaves the registers, the abstract state and the frame alone
  have hjump : (insnAt insns p.idx).endsBlock = true → st = p.st → p.t.Grows t →
      (∀ k, hStackBase ≤ k → σ₁.hdr k = p.σ.hdr k) →
      StackStepSim insns c.ctx len lenM p.idx m q t st σ₁ := by
    intro hends hst hg hhdr
    have hjmp := Insn.isJmp_of_endsBlock hends
    refine .of_core (StackMachine.step_beside (accessesFrame_of_jmp hjmp)) hcore
      fun core hstep hcore' => ?_
    refine hsim.keep hcore' (fun r => ?_) hg (by rw [hst]) hhdr
    have hregs : core.regs = m.core.regs := by
      rw [Machine.step_jmp hlt hjmp] at hstep
      exact jmpStep_next hstep
    rw [hst, hregs]
    exact hsim.placed r
  have hcall : (insnAt insns p.idx).endsBlock = true → (insnAt insns p.idx).jmpOp ≠ .call :=
    fun hends => Insn.isCore_not_call
      (Insn.isCore_of_jmp hreg (Insn.isJmp_of_endsBlock hends)) hends
  cases hm with
  | insn h =>
    obtain rfl := Int.ofNat.inj hq
    exact stack_insn_sim hsim hreg hmaps hb hlt h
  | ja hends hop => exact hjump hends rfl (.refl _) fun _ _ => rfl
  | cond hbr hop h he =>
    have hends : (insnAt insns p.idx).endsBlock = true := by
      simp only [Insn.branches, Bool.and_eq_true] at hbr
      exact hbr.1.1
    obtain ⟨_, hsame⟩ := cond_value hb hlt hdst hsrc hbr hop h he hsim.core.regs
    refine hjump hends rfl (Grows.grows h) fun k hk => hsame.hdr k fun hscr => ?_
    have := lt_hStackBase_of_isScratch hscr
    omega
  | call hends hop => exact absurd hop (hcall hends)
  | arms hends hop => exact absurd hop (hcall hends)

end Step

end Ect
