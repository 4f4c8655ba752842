-- SUMMARY: In a state without frame pointers a translation makes none, and fills no slot of the frame.
import Ect.Lowering.RegisterChecks

/-!
# States without a frame pointer

Only `r10` on entry to the program points into the frame, and every other frame pointer is
made from one. Code that is translated from a state in which nothing is known therefore
stores to no slot, and asks that state for no registers but those its kind always does.
-/

namespace Ect

open TransM

/-- Nothing points into the frame. -/
structure AbsState.Frameless (st : AbsState) : Prop where
  reg : ∀ r, (st.reg r).tag ≠ .stack
  slot : ∀ k, (st.slot k).tag ≠ .stack

theorem RegInfo.scalar_tag_ne : RegInfo.scalar.tag ≠ .stack := by decide

theorem scalarConst_tag_ne {v : Nat} : (scalarConst v).tag ≠ .stack :=
  RegInfo.scalar_tag_ne

theorem mapPointer_tag_ne {tag : Tag} {off m : Int} (h : tag ≠ .stack) :
    (mapPointer tag off m).tag ≠ .stack := h

namespace AbsState.Frameless

variable {st src : AbsState}

theorem init : AbsState.init.Frameless :=
  ⟨fun _ => RegInfo.scalar_tag_ne, fun _ => RegInfo.scalar_tag_ne⟩

theorem setReg (h : st.Frameless) (r : Nat) {v : RegInfo} (hv : v.tag ≠ .stack) :
    (st.setReg r v).Frameless := by
  refine ⟨fun r' => ?_, h.slot⟩
  rw [AbsState.setReg_reg]
  split
  · exact hv
  · exact h.reg r'

theorem clobber (h : st.Frameless) : st.clobber.Frameless := by
  refine ⟨fun r => ?_, h.slot⟩
  rw [AbsState.clobber_reg]
  split
  · exact nofun
  · exact h.reg r

theorem joinReg {a b : RegInfo} (h : a.tag ≠ .stack) : (joinReg a b).tag ≠ .stack := by
  unfold Ect.joinReg
  split
  · exact nofun
  · exact h

theorem joinFrom (h : st.Frameless) (hsrc : src.Frameless) : (st.joinFrom src).Frameless := by
  unfold AbsState.joinFrom
  split
  · exact h
  · split
    · exact ⟨hsrc.reg, hsrc.slot⟩
    · exact ⟨fun r => joinReg (h.reg r), fun k => joinReg (h.slot k)⟩

/-- Where a block ends without frame pointers, it leaves none to the blocks after it. -/
theorem propagate {blockIn : Nat → AbsState} {flow : Flow} {b : Nat} (h : st.Frameless)
    (hb : (blockIn b).Frameless) : (propagate blockIn st flow b).Frameless := by
  have hinto : ∀ (blockIn : Nat → AbsState) (succ : Option Nat), (blockIn b).Frameless →
      (joinInto blockIn { st with live := true } succ b).Frameless := by
    intro blockIn succ hb
    unfold joinInto
    split
    · exact hb
    · split
      · rename_i heq
        exact joinFrom (heq ▸ hb) ⟨h.reg, h.slot⟩
      · exact hb
  exact hinto _ _ (hinto _ _ hb)

end AbsState.Frameless

section Insn

variable {idx : Nat} {i : Insn} {st : AbsState} {insns : List Insn}

theorem addInfo_frameless {isImm : Bool} {imm : Int} {d s : RegInfo} (hd : d.tag ≠ .stack)
    (hs : s.tag ≠ .stack) : (addInfo isImm imm d s).tag ≠ .stack := by
  unfold addInfo
  split
  · split
    · exact hd
    · split <;> exact hd
  · split
    · exact hd
    · split
      · exact hs
      · exact nofun

theorem aluInfo_frameless {is64 : Bool} {d s : RegInfo} (hd : d.tag ≠ .stack)
    (hs : s.tag ≠ .stack) : (aluInfo i is64 d s).tag ≠ .stack := by
  unfold aluInfo
  split
  · split
    · exact nofun
    · split
      · exact nofun
      · exact hs
  · split
    · exact addInfo_frameless hd hs
    · exact nofun
  · exact nofun

theorem ldxInfo_frameless {ctx : CtxLayout} {base : RegInfo} :
    (ldxInfo ctx i base).tag ≠ .stack := by
  unfold ldxInfo
  split <;> exact nofun

theorem readReg_gives {r : Nat} : (readReg st r).Gives (· = st.reg r) := by
  unfold readReg
  split
  · exact gives_pure rfl
  · rintro _ _ _ _ _ ⟨⟩

theorem writeReg_frameless {r : Nat} {v : RegInfo} (h : st.Frameless) (hv : v.tag ≠ .stack) :
    (writeReg st r v).Gives AbsState.Frameless := by
  unfold writeReg
  split
  · exact gives_pure (h.setReg r hv)
  · rintro _ _ _ _ _ ⟨⟩

theorem translateLdx_frameless (h : st.Frameless) :
    (translateLdx idx i st).Gives AbsState.Frameless := by
  refine readReg_gives.bind fun base hbase => ?_
  subst hbase
  rw [if_neg (h.reg _)]
  have hrest : ∀ (c : Config) region, (do
      ctxAccessOk idx (st.reg i.src) i.off.toInt i.width.bytes "load"
      let tAddr ← emitAddress idx (hReg i.src) i.off.toInt
      let tVal ← freshTmp idx
      load i.width region (hdr tAddr) tVal
      TransM.cast i.width .w64 (hdr tVal) (hReg i.dst)
      writeReg st i.dst (ldxInfo c.ctx i (st.reg i.src))).Gives AbsState.Frameless :=
    fun _ _ => .after _ fun _ => .after _ fun _ => .after _ fun _ => .after _ fun _ =>
      .after _ fun _ => writeReg_frameless h ldxInfo_frameless
  exact .after _ fun c => .ite (.after _ fun _ => hrest c _) (hrest c _)

/-- A store in such a state goes to no slot. -/
theorem translateStore_frameless {fromReg : Bool} (h : st.Frameless) :
    (translateStore idx i st fromReg).Gives AbsState.Frameless := by
  refine readReg_gives.bind fun base hbase => ?_
  subst hbase
  rw [if_neg (h.reg _)]
  have hrest : ∀ region, (do
      ctxAccessOk idx (st.reg i.dst) i.off.toInt i.width.bytes "store"
      let tAddr ← emitAddress idx (hReg i.dst) i.off.toInt
      if fromReg then do
        let tVal ← freshTmp idx
        TransM.cast .w64 i.width (hdr (hReg i.src)) tVal
        store i.width region (hdr tAddr) (hdr tVal)
      else store i.width region (hdr tAddr) (konst i.imm64)
      pure st : TransM AbsState).Gives AbsState.Frameless := fun _ =>
    .after _ fun _ => .after _ fun _ => .ite
      (.after _ fun _ => .after _ fun _ => .after _ fun _ => gives_pure h)
      (.after _ fun _ => gives_pure h)
  exact .after _ fun _ => .ite (.after _ fun _ => hrest _) (hrest _)

theorem translateLdPkt_frameless (h : st.Frameless) :
    (translateLdPkt idx i st).Gives AbsState.Frameless := by
  have hret : (st.setReg 0 .scalar).clobber.Frameless := (h.setReg 0 RegInfo.scalar_tag_ne).clobber
  unfold translateLdPkt
  refine .ite (.after _ fun _ => gives_pure h) (.after _ fun _ => .ite ?_ ?_)
  all_goals
    exact .after _ fun _ => .after _ fun _ => .after _ fun _ => .after _ fun _ => .after _ fun _ =>
      gives_pure hret

theorem translatePlain_frameless (h : st.Frameless) :
    (translatePlain idx i st).Gives AbsState.Frameless := by
  have halu : ∀ is64, (translateAlu idx i is64 st).Gives AbsState.Frameless := fun is64 =>
    .ite (.after _ fun _ => gives_pure h) (.after _ fun _ =>
      gives_pure (h.setReg _ (aluInfo_frameless (h.reg _) (h.reg _))))
  unfold translatePlain
  split
  · exact halu true
  · exact halu false
  · exact translateLdx_frameless h
  · exact .ite (.after _ fun _ => gives_pure h) (translateStore_frameless h)
  · exact translateStore_frameless h
  · exact .ite (translateLdPkt_frameless h) (.after _ fun _ => gives_pure h)
  · exact .after _ fun _ => gives_pure h

theorem translateLdImm64_frameless (h : st.Frameless) :
    (translateLdImm64 idx insns st).Gives fun p => p.2.Frameless := by
  have hwrite : ∀ v : RegInfo, v.tag ≠ .stack →
      (do pure (2, ← writeReg st (insnAt insns idx).dst v) : TransM (Nat × AbsState)).Gives
        fun p => p.2.Frameless := fun v hv =>
    (writeReg_frameless h hv).bind fun _ hst => gives_pure hst
  unfold translateLdImm64
  refine .ite (.after _ fun _ => gives_pure h) (.after _ fun c => ?_)
  split
  · exact .after _ fun _ => hwrite _ (mapPointer_tag_ne (by decide))
  · exact .ite (.after _ fun _ => .after _ fun _ => hwrite _ scalarConst_tag_ne)
      (.after _ fun _ => hwrite _ scalarConst_tag_ne)

theorem translateOne_frameless (h : st.Frameless) :
    (translateOne idx insns st).Gives fun p => p.2.Frameless := by
  unfold translateOne
  exact .after _ fun _ => .ite (gives_pure h) (.ite (translateLdImm64_frameless h)
    ((translatePlain_frameless h).bind fun _ hst => gives_pure hst))

theorem emitMapLookup_frameless (h : st.Frameless) :
    (emitMapLookup idx st).Gives fun p => p.2.Frameless := by
  have hst (m : Int) : (st.setReg 0 (mapPointer .mapval 0 m)).clobber.Frameless :=
    (h.setReg 0 (mapPointer_tag_ne (by decide))).clobber
  unfold emitMapLookup
  refine .after _ fun c => ?_
  dsimp only
  split
  · exact .after _ fun _ => gives_pure h
  · refine .after _ fun _ => .ite (gives_pure h) (.ite (.after _ fun _ => gives_pure h)
      (.after _ fun _ => .after _ fun _ => .ite (.after _ fun arms => ?_)
        (.after _ fun arms => ?_)))
    all_goals
      cases arms with
      | none => exact gives_pure h
      | some _ => exact gives_pure (hst _)

theorem emitMapWrite_frameless {mr : MapRef} {kp vp : RegInfo} (h : st.Frameless) :
    (emitMapWrite idx mr kp vp st).Gives fun p => p.2.Frameless := by
  have harray : ∀ kw, (emitArrayUpdate idx mr kp vp st kw).Gives AbsState.Frameless := by
    intro kw
    unfold emitArrayUpdate
    refine .after _ fun slot => ?_
    split
    · exact gives_pure h.clobber
    · exact .after _ fun _ => .after _ fun _ => .after _ fun _ => .after _ fun _ =>
        .ite (.after _ fun _ => gives_pure (h.clobber.setReg 0 RegInfo.scalar_tag_ne))
          (gives_pure h.clobber)
  unfold emitMapWrite
  refine .after _ fun _ => .after _ fun _ => .ite
    ((harray _).bind fun _ hst => gives_pure hst) (.after _ fun arms => ?_)
  split
  · exact gives_pure h.clobber
  · exact gives_pure (h.clobber.setReg 0 RegInfo.scalar_tag_ne)

theorem emitMapUpdate_frameless (h : st.Frameless) :
    (emitMapUpdate idx st).Gives fun p => p.2.Frameless := by
  have hstop : ∀ x : TransM Unit, (x >>= fun _ => pure (none, st) :
      TransM (Option (List Arm) × AbsState)).Gives fun p => p.2.Frameless := fun x =>
    .after x fun _ => gives_pure h
  unfold emitMapUpdate
  refine .after _ fun c => ?_
  dsimp only
  split
  · exact hstop _
  · refine .after _ fun _ => .ite (gives_pure h) (.ite (hstop _) ?_)
    split
    all_goals
      refine .after _ fun _ => .ite (gives_pure h) (.ite (hstop _) (.ite ?_ (.ite (hstop _)
        (.ite (hstop _) (emitMapWrite_frameless h)))))
      exact .after _ fun _ => gives_pure (h.setReg 0 RegInfo.scalar_tag_ne).clobber

theorem translateCall_frameless (h : st.Frameless) :
    (translateCall idx i st).Gives fun p => p.2.Frameless := by
  unfold translateCall
  exact .ite (.after _ fun _ => gives_pure h) (.ite (emitMapLookup_frameless h)
    (.ite (emitMapUpdate_frameless h) (.after _ fun _ => gives_pure h)))

theorem translateTerm_frameless {lead : Nat → Bool} {e : Nat} (h : st.Frameless) :
    (translateTerm insns lead e st).Gives fun p => p.2.Frameless := by
  unfold translateTerm
  refine .ite (gives_pure h) ?_
  refine .ite (.after _ fun p => ?_) (.after _ fun p => ?_)
  all_goals
    cases (insnAt insns (e - 1)).jmpOp
    case call => exact (translateCall_frameless h).bind fun _ hst => gives_pure hst
    all_goals exact gives_pure h

/-- A store in such a state asks for no source. -/
theorem indexedIn_frameless (h : st.Frameless) : i.indexedIn st = i.indexed := by
  have hfill : i.fillsSlot st = false := by simp [Insn.fillsSlot, h.reg]
  simp [Insn.indexedIn, hfill]

end Insn

/-! ## The straight line of a block -/

section Body

variable {insns : List Insn} {e : Nat} {c : Config}

theorem bodyVisits_frameless {fuel : Nat} {v w : Visit} (h : v.st.Frameless)
    (hw : w ∈ bodyVisits insns c e fuel v) : w.st.Frameless := by
  induction fuel generalizing v with
  | zero => simp [bodyVisits] at hw
  | succ fuel ih =>
    unfold bodyVisits at hw
    split at hw
    · rcases List.mem_cons.mp hw with rfl | hw
      · exact h
      · split at hw
        · rename_i hone
          exact ih (v := ⟨_, _, _⟩) (translateOne_frameless h _ _ _ _ _ hone) hw
        · cases hw
    · cases hw

theorem translateBody_frameless {fuel i : Nat} {st : AbsState} (h : st.Frameless) :
    (translateBody insns e fuel i st).Gives AbsState.Frameless := by
  induction fuel generalizing i st with
  | zero => exact gives_pure h
  | succ fuel ih =>
    exact .ite ((translateOne_frameless h).bind fun _ hst => ih hst) (gives_pure h)

/-- From a state without frame pointers a straight line raises nothing if it asks for
existing registers only. -/
theorem translateBody_frameless_ok (he : e ≤ insns.length) {s fuel : Nat} {st : AbsState}
    {t : Translator} (hst : st.Frameless)
    (h : ∀ k, WalkTo insns e s k →
      Truncated insns k ∨ ∀ r ∈ (insnAt insns k).indexed, r < numBpfRegs) :
    ∃ r, translateBody insns e fuel s st c t = .ok r := by
  refine translateBody_ok (v := ⟨s, st, t⟩) fun w hw => ?_
  unfold Visit.InRange
  rw [indexedIn_frameless (bodyVisits_frameless (v := ⟨s, st, t⟩) hst hw)]
  exact h w.idx (bodyVisits_walkTo he hw)

end Body

end Ect
