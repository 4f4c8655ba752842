-- SUMMARY: What an accepted helper call leaves alone: the frame, and every register but the clobbered ones.
import Ect.Maps.Shapes

/-!
# The effect of a map call

An accepted call writes scratch headers and `r0`, on every arm. The translator
forgets `r1` to `r5` and keeps what it knows of the stack.
-/

namespace Ect

open TransM

variable {c : Config} {t t' : Translator} {ops : List Op} {idx : Nat} {kw : Width}
  {st st' : AbsState}

/-- The header of `r0`, or a scratch header. -/
def IsResult (h : Nat) : Prop := h = hReg 0 ∨ IsScratch h

theorem AllWrite.result (h : AllWrite IsScratch ops) : AllWrite IsResult ops :=
  h.mono fun _ => .inr

@[simp] theorem setOp_writes {v : Int} : (setOp (hReg 0) v).Writes IsResult := .inl rfl
@[simp] theorem constOp_writes {v : Int} : (constOp (hReg 0) v).Writes IsResult := .inl rfl
@[simp] theorem zeroOp_writes : (zeroOp (hReg 0)).Writes IsResult := .inl rfl
@[simp] theorem assignOp_writes {s : Nat} : (assignOp (hReg 0) s).Writes IsResult := .inl rfl

/-- What an accepted call does to the abstract state, and which headers it writes. -/
structure CallEffect (st st' : AbsState) (r : Option (List Arm)) (ops : List Op) : Prop where
  slot : st'.slot = st.slot
  reg : ∀ k, k ≠ 0 → st'.reg k = st.reg k ∨ st'.reg k = .scalar
  /-- The only constant a call leaves in `r0` is 0, and then `r0` holds it. -/
  result : (st'.reg 0).const = none ∨ st'.reg 0 = scalarConst 0 ∧ r = none ∧
    ∀ (len : Nat → Nat) (σ : State), (runOps len σ ops).hdr (hReg 0) = .int .w64 0
  writes : AllWrite IsResult ops
  arms : ∀ arms, r = some arms → ∀ arm ∈ arms, AllWrite IsResult arm.2

theorem clobber_cases (st : AbsState) (k : Nat) :
    st.clobber.reg k = st.reg k ∨ st.clobber.reg k = .scalar := by
  rw [AbsState.clobber_reg]
  split
  · exact .inr rfl
  · exact .inl rfl

/-! ## Arms -/

theorem arrayArms_writes {mi : MapInfo} {key : Option Nat} {tSlot tVp tKey : Nat} :
    ∀ arm ∈ arrayArms mi key tSlot tVp tKey, AllWrite IsResult arm.2 := by
  simp [arrayArms]

theorem lookupArms_writes {mi : MapInfo} {tKey b : Nat} :
    ∀ arm ∈ lookupArms mi tKey b, AllWrite IsResult arm.2 := by
  intro arm harm
  rcases List.mem_append.mp harm with h | h
  · obtain ⟨i, _, rfl⟩ := List.mem_map.mp h
    simp
  · rw [List.mem_singleton.mp h]
    simp

theorem slotOps_writes {mr : MapRef} {tTag i : Nat} {insert : Bool} {copy : List Op}
    (h : AllWrite IsScratch copy) : AllWrite IsResult (slotOps mr kw tTag insert i copy) := by
  cases insert <;> simp [slotOps, h.result]

theorem armsOf_writes {mr : MapRef} {vp : RegInfo} {tTag mark : Nat} {insert : Bool}
    {entries : Nat → List MatchEntry} {is : List Nat} {os : List (List Op)}
    (h : SlotArms c t mr vp kw tTag mark insert is os) :
    ∀ arm ∈ armsOf entries is os, AllWrite IsResult arm.2 := by
  induction h with
  | nil => simp [armsOf]
  | cons hfirst hrest ih =>
    obtain ⟨_, _, copy, _, _, hcopy, rfl⟩ := hfirst
    intro arm harm
    simp only [armsOf, List.zipWith_cons_cons, List.mem_cons] at harm ih
    rcases harm with rfl | harm
    · exact slotOps_writes hcopy.writes
    · exact ih arm harm

theorem updateArms_writes {mr : MapRef} {vp : RegInfo} {tTag mark tKey b : Nat}
    {overs inserts : List (List Op)}
    (hovers : SlotArms c t mr vp kw tTag mark false (List.range mr.mi.nslots) overs)
    (hinserts : SlotArms c t mr vp kw tTag mark true (List.range mr.mi.nslots) inserts) :
    ∀ arm ∈ updateArms mr.mi tKey b overs inserts, AllWrite IsResult arm.2 := by
  intro arm harm
  simp only [updateArms, List.mem_append, List.mem_cons, List.not_mem_nil, or_false] at harm
  rcases harm with h | rfl | h | rfl
  · exact armsOf_writes hovers arm h
  · simp
  · exact armsOf_writes hinserts arm h
  · simp

/-! ## Blocks -/

theorem SlotRead.writes {mi : MapInfo} {kp : RegInfo} (h : SlotRead c mi kp st kw t t' ops)
    (ht : t.tmpNext < numTmps) : AllWrite IsScratch ops := by
  have htmp := isScratch_hTmp ht
  cases h with
  | const => simp [setOp, htmp]
  | computed _ hlt hread =>
    exact allWrite_append.mpr ⟨hread.writes hlt, by simp [htmp]⟩

theorem valueOffOps_writes {mi : MapInfo} {tSlot tVp : Nat} (h : IsScratch tVp) :
    AllWrite IsScratch (valueOffOps mi tSlot tVp) := by
  simp [valueOffOps, h]

theorem updateScanOps_writes {mr : MapRef} {tKey b : Nat}
    (hb : b + 4 + 2 * mr.mi.nslots ≤ numTmps) :
    AllWrite IsScratch (updateScanOps mr kw tKey b) := by
  refine allWrite_append.mpr ⟨scanOps_writes (by omega), ?_⟩
  simp [isScratch_hTmp (show b + 1 + 2 * mr.mi.nslots < numTmps by omega),
    isScratch_hTmp (show b + 2 + 2 * mr.mi.nslots < numTmps by omega),
    isScratch_hTmp (show b + 3 + 2 * mr.mi.nslots < numTmps by omega)]

/-! ## Calls -/

theorem LookupCall.effect {mr : MapRef} {arms : List Arm}
    (h : LookupCall c idx st t t' ops mr arms) :
    AllWrite IsResult ops ∧ ∀ arm ∈ arms, AllWrite IsResult arm.2 := by
  have hscan := h.scan
  split at hscan
  · obtain ⟨t₁, slotOps, hlt, hread, _, _, hlt₁, hlt₂, rfl, rfl⟩ := emitArrayLookup_accepts hscan
    refine ⟨AllWrite.result (allWrite_append.mpr ⟨allWrite_append.mpr ⟨hread.writes hlt,
      valueOffOps_writes (isScratch_hTmp hlt₁)⟩, ?_⟩), arrayArms_writes⟩
    split
    · rename_i hkey
      simp [isScratch_hTmp (hlt₂ hkey)]
    · simp
  · obtain ⟨t₁, keyOps, hlt, hread, hb, rfl, rfl⟩ := emitTaggedLookup_accepts hscan
    exact ⟨AllWrite.result (allWrite_append.mpr ⟨hread.writes hlt, scanOps_writes hb⟩),
      lookupArms_writes⟩

theorem UpdateCall.effect {r : Option (List Arm)} (h : UpdateCall c idx st t r st' t' ops) :
    CallEffect st st' r ops := by
  cases h with
  | outOfRange =>
    refine ⟨rfl, fun k hk => ?_, .inl ?_, by simp, by simp⟩
    · rcases clobber_cases (st.setReg 0 .scalar) k with h | h
      · exact .inl (by simp [h, hk])
      · exact .inr h
    · simp [AbsState.clobber_reg, RegInfo.scalar]
  | array _ _ _ _ _ _ hscan =>
    obtain ⟨t₁, slotOps, copy, hlt, hread, hlt₁, hcopy, rfl, rfl⟩ := emitArrayUpdate_accepts hscan
    refine ⟨rfl, fun k hk => by simpa [hk] using clobber_cases st k,
      .inr ⟨by simp, rfl, fun len σ => ?_⟩, ?_, by simp⟩
    · rw [runOps_append, runOps_cons, runOps_nil]
      simp [setOp, Op.eval, Operand.eval, BinOp.eval, konst]
    · simp only [allWrite_append, allWrite_cons, allWrite_nil, setOp_writes, and_true]
      exact ⟨⟨(hread.writes hlt).result, (valueOffOps_writes (isScratch_hTmp hlt₁)).result⟩,
        hcopy.writes.result⟩
  | hash _ _ _ _ hscan =>
    obtain ⟨t₁, keyOps, overs, inserts, hlt, hread, hb, rfl, rfl, hovers, hinserts⟩ :=
      emitTaggedUpdate_accepts hscan
    refine ⟨rfl, fun k hk => by simpa [hk] using clobber_cases st k,
      .inl (by simp [RegInfo.scalar]),
      AllWrite.result (allWrite_append.mpr ⟨hread.writes hlt, updateScanOps_writes hb⟩), ?_⟩
    intro arms harms
    obtain rfl := Option.some.inj harms
    exact updateArms_writes hovers hinserts

/-- An accepted call is one of the two helpers. -/
theorem translateCall_accepts {i : Insn} {r : Option (List Arm)}
    (h : (translateCall idx i st).Accepts c t (r, st') t' ops) :
    (i.imm.toInt = bpfFuncMapLookupElem ∧ ∃ mr arms, r = some arms ∧
        LookupCall c idx st t t' ops mr arms ∧
        st' = (st.setReg 0 (mapPointer .mapval 0 mr.m)).clobber) ∨
      (i.imm.toInt = bpfFuncMapUpdateElem ∧ UpdateCall c idx st t r st' t' ops) := by
  unfold translateCall at h
  split at h
  · simp at h
  · split at h
    · rename_i himm
      exact .inl ⟨himm, emitMapLookup_accepts h⟩
    · split at h
      · rename_i himm
        exact .inr ⟨himm, emitMapUpdate_accepts h⟩
      · simp at h

theorem translateCall_effect {i : Insn} {r : Option (List Arm)}
    (h : (translateCall idx i st).Accepts c t (r, st') t' ops) : CallEffect st st' r ops := by
  rcases translateCall_accepts h with ⟨_, mr, arms, rfl, hcall, rfl⟩ | ⟨_, hcall⟩
  · obtain ⟨hops, harms⟩ := hcall.effect
    refine ⟨rfl, fun k hk => ?_, .inl ?_, hops, ?_⟩
    · rcases clobber_cases (st.setReg 0 (mapPointer .mapval 0 mr.m)) k with h | h
      · exact .inl (by simp [h, hk])
      · exact .inr h
    · simp [AbsState.clobber_reg, mapPointer]
    · rintro _ ⟨⟩
      exact harms
  · exact hcall.effect

end Ect
