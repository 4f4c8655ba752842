-- SUMMARY: The operations and arms of accepted map helper calls, written out.
import Mathlib.Data.List.Forall2
import Ect.Lowering.Alu
import Ect.Maps.Calls

/-!
# The shape of a map call

What the helpers emit, as explicit lists: the key, the scan of the slots, and the arms
of a lookup and of an update. Every operation writes scratch headers and `r0` alone.
-/

namespace Ect

open TransM

variable {c : Config} {t t' : Translator} {ops : List Op} {idx : Nat} {kw : Width}
  {st st' : AbsState}

/-! ## What the parts write -/

theorem KeyRead.writes {kp : RegInfo} (h : KeyRead c t kp kw t' ops) (ht : t.tmpNext < numTmps) :
    AllWrite IsScratch ops := by
  cases h with
  | stack => simp [isScratch_hTmp ht]
  | region _ _ htmp => simp [isScratch_hTmp ht, isScratch_hTmp htmp]

/-! ## The scan -/

/-- Loads of the cells at `offs`, widened into the scratch headers from `k` on. -/
def widenOps (w : Width) (region tRaw : Nat) : Nat → List Nat → List Op
  | _, [] => []
  | k, off :: offs =>
    .load w region (konstN off) tRaw :: .cast w .w64 (hdr tRaw) (hTmp k) ::
      widenOps w region tRaw (k + 1) offs

theorem emitWidened_accepts {w : Width} {region tRaw : Nat} {offs ts : List Nat}
    (h : (emitWidened idx w region tRaw offs).Accepts c t ts t' ops) :
    ts = (List.range' t.tmpNext offs.length).map hTmp ∧
      t' = { t with tmpNext := t.tmpNext + offs.length } ∧
      (offs ≠ [] → t.tmpNext + offs.length ≤ numTmps) ∧
      ops = widenOps w region tRaw t.tmpNext offs := by
  induction offs generalizing t ts t' ops with
  | nil =>
    obtain ⟨rfl, rfl, rfl⟩ := accepts_pure.mp h
    exact ⟨rfl, rfl, by simp, rfl⟩
  | cons off offs ih =>
    unfold emitWidened at h
    simp only [accepts_bind, accepts_freshTmp, accepts_load, accepts_cast] at h
    obtain ⟨_, _, _, ⟨hlt, rfl, rfl, rfl⟩, _, ⟨_, _, _, ⟨rfl, rfl⟩, _, ⟨_, _, _, ⟨rfl, rfl⟩, _,
      ⟨_, _, _, hrest, _, hret, rfl⟩, rfl⟩, rfl⟩, rfl⟩ := h
    obtain ⟨rfl, rfl, rfl⟩ := accepts_pure.mp hret
    obtain ⟨rfl, rfl, hle, rfl⟩ := ih hrest
    refine ⟨by simp [List.range'_succ], ?_, fun _ => ?_, by simp [widenOps]⟩
    · simp only [List.length_cons, Nat.add_assoc, Nat.add_comm 1]
    · rcases offs with _ | ⟨off', offs⟩
      · simp only [List.length_cons, List.length_nil]; omega
      · have := hle (by simp)
        simp only [List.length_cons] at this ⊢
        omega

/-- The presence bytes and the tags, from the scratch header `b` on: the raw load
target, `nslots` presence bytes, `nslots` tags. -/
def scanOps (mr : MapRef) (kw : Width) (b : Nat) : List Op :=
  widenOps .w8 mr.region (hTmp b) (b + 1) (List.range mr.mi.nslots) ++
    widenOps kw mr.region (hTmp b) (b + 1 + mr.mi.nslots)
      ((List.range mr.mi.nslots).map mr.mi.tagOff)

theorem widenOps_writes {w : Width} {region tRaw k : Nat} {offs : List Nat} (hraw : IsScratch tRaw)
    (hk : k + offs.length ≤ numTmps) : AllWrite IsScratch (widenOps w region tRaw k offs) := by
  induction offs generalizing k with
  | nil => simp [widenOps]
  | cons off offs ih =>
    rw [List.length_cons] at hk
    simp [widenOps, hraw, isScratch_hTmp (show k < numTmps by omega),
      ih (show k + 1 + offs.length ≤ numTmps by omega)]

theorem scanOps_writes {mr : MapRef} {b : Nat} (hb : b + 1 + 2 * mr.mi.nslots ≤ numTmps) :
    AllWrite IsScratch (scanOps mr kw b) := by
  have hraw : IsScratch (hTmp b) := isScratch_hTmp (by omega)
  exact allWrite_append.mpr ⟨widenOps_writes hraw (by simp; omega),
    widenOps_writes hraw (by simp; omega)⟩

/-- The headers of the presence bytes and of the tags. -/
def presHdrs (mi : MapInfo) (b : Nat) : List Nat := (List.range' (b + 1) mi.nslots).map hTmp

def tagHdrs (mi : MapInfo) (b : Nat) : List Nat :=
  (List.range' (b + 1 + mi.nslots) mi.nslots).map hTmp

theorem emitSlotHeaders_accepts {mr : MapRef} {p : List Nat × List Nat}
    (h : (emitSlotHeaders idx mr kw).Accepts c t p t' ops) :
    p = (presHdrs mr.mi t.tmpNext, tagHdrs mr.mi t.tmpNext) ∧
      t' = { t with tmpNext := t.tmpNext + 1 + 2 * mr.mi.nslots } ∧
      t.tmpNext + 1 + 2 * mr.mi.nslots ≤ numTmps ∧ ops = scanOps mr kw t.tmpNext := by
  unfold emitSlotHeaders at h
  obtain ⟨_, _, _, hfresh, _, h₁, rfl⟩ := accepts_bind.mp h
  obtain ⟨hlt, rfl, rfl, rfl⟩ := accepts_freshTmp.mp hfresh
  obtain ⟨pres, _, _, hpres, _, h₂, rfl⟩ := accepts_bind.mp h₁
  obtain ⟨rfl, rfl, _, rfl⟩ := emitWidened_accepts hpres
  obtain ⟨tags, _, _, htags, _, h₃, rfl⟩ := accepts_bind.mp h₂
  obtain ⟨rfl, rfl, hle, rfl⟩ := emitWidened_accepts htags
  obtain ⟨rfl, rfl, rfl⟩ := accepts_pure.mp h₃
  simp only [List.length_range, List.length_map] at hle ⊢
  refine ⟨rfl, by simp only [Nat.add_assoc, Nat.two_mul], ?_, by simp [scanOps]⟩
  by_cases hn : mr.mi.nslots = 0
  · omega
  · have := hle (by simp [hn])
    omega

/-! ## Array maps -/

/-- The slot of an array access: a constant, or the key modulo the slots. -/
inductive SlotRead (c : Config) (mi : MapInfo) (kp : RegInfo) (st : AbsState) (kw : Width)
    (t : Translator) : Translator → List Op → Prop where
  | const {k : Nat} (hkey : constKey kp st = some k) :
      SlotRead c mi kp st kw t { t with tmpNext := t.tmpNext + 1 }
        [setOp (hTmp t.tmpNext) (k % mi.nslots : Nat)]
  | computed {t' : Translator} {keyOps : List Op} (hkey : constKey kp st = none)
      (htmp : t.tmpNext + 1 < numTmps)
      (hread : KeyRead c { t with tmpNext := t.tmpNext + 1 } kp kw t' keyOps) :
      SlotRead c mi kp st kw t t' (keyOps ++
        [.stateless .mod .w64 (hdr (hTmp (t.tmpNext + 1))) (konstN mi.nslots) (hTmp t.tmpNext)])

theorem emitSlot_accepts {mi : MapInfo} {kp : RegInfo} {r : Option (Nat × Option Nat)}
    (h : (emitSlot idx mi kp st kw).Accepts c t r t' ops) :
    t.tmpNext < numTmps ∧ r = some (hTmp t.tmpNext, constKey kp st) ∧
      SlotRead c mi kp st kw t t' ops := by
  unfold emitSlot at h
  obtain ⟨_, _, _, hfresh, _, h₁, rfl⟩ := accepts_bind.mp h
  obtain ⟨hlt, rfl, rfl, rfl⟩ := accepts_freshTmp.mp hfresh
  split at h₁
  · rename_i k hkey
    simp only [accepts_bind, accepts_set, accepts_pure] at h₁
    obtain ⟨_, _, _, ⟨rfl, rfl⟩, _, ⟨rfl, rfl, rfl⟩, rfl⟩ := h₁
    exact ⟨hlt, by rw [hkey], .const hkey⟩
  · rename_i hkey
    obtain ⟨_, t₁, keyOps, hkeyOps, _, h₂, rfl⟩ := accepts_bind.mp h₁
    obtain ⟨hlt', rfl, hread⟩ := readMapKey_accepts hkeyOps
    simp only [accepts_bind, accepts_binop, accepts_pure] at h₂
    obtain ⟨_, _, _, ⟨rfl, rfl⟩, _, ⟨rfl, rfl, rfl⟩, rfl⟩ := h₂
    exact ⟨hlt, by rw [hkey], by simpa using SlotRead.computed hkey hlt' hread⟩

/-- From the slot in `tSlot` to the offset of its value, in `tVp`. -/
def valueOffOps (mi : MapInfo) (tSlot tVp : Nat) : List Op :=
  [.stateless .mul .w64 (hdr tSlot) (konstN mi.valueSize) tVp,
    .stateless .add .w64 (hdr tVp) (konstN mi.valueBase) tVp]

/-- What decides an array lookup: the slot against the constant it was set to, or the
slot, copied, against the number of entries. -/
def arrayArms (mi : MapInfo) (key : Option Nat) (tSlot tVp tKey : Nat) : List Arm :=
  let cond := match key with
    | some k => cmpEntry tSlot .eq (matchConst (k % mi.nslots : Nat) .w64)
    | none => cmpEntry tKey .lt (matchConst mi.maxEntries .w64)
  [([cond], [assignOp (hReg 0) tVp]), ([], [zeroOp (hReg 0)])]

theorem emitArrayLookup_accepts {mi : MapInfo} {kp : RegInfo} {arms : List Arm}
    (h : (emitArrayLookup idx mi kp st kw).Accepts c t (some arms) t' ops) :
    ∃ t₁ slotOps, t.tmpNext < numTmps ∧ SlotRead c mi kp st kw t t₁ slotOps ∧
      (constKey kp st = none → mi.maxEntries ≤ mi.nslots) ∧
      (∀ k, constKey kp st = some k → k < mi.nslots) ∧ t₁.tmpNext < numTmps ∧
      (constKey kp st = none → t₁.tmpNext + 1 < numTmps) ∧
      ops = slotOps ++ valueOffOps mi (hTmp t.tmpNext) (hTmp t₁.tmpNext) ++
        (if constKey kp st = none then
          [.cast .w64 .w64 (hdr (hTmp t.tmpNext)) (hTmp (t₁.tmpNext + 1))] else []) ∧
      arms = arrayArms mi (constKey kp st) (hTmp t.tmpNext) (hTmp t₁.tmpNext)
        (hTmp (t₁.tmpNext + 1)) := by
  unfold emitArrayLookup at h
  obtain ⟨_, _, _, hcheck, _, h₁, rfl⟩ := accepts_bind.mp h
  obtain ⟨rfl, rfl, rfl, hnone, hsome⟩ := checkArrayKey_accepts hcheck
  rw [if_neg (by decide)] at h₁
  obtain ⟨_, t₁, slotOps, hslot, _, h₂, rfl⟩ := accepts_bind.mp h₁
  obtain ⟨hlt, rfl, hread⟩ := emitSlot_accepts hslot
  dsimp only at h₂
  simp only [accepts_bind, accepts_freshTmp, accepts_binop] at h₂
  obtain ⟨_, _, _, ⟨hlt₁, rfl, rfl, rfl⟩, _, ⟨_, _, _, ⟨rfl, rfl⟩, _, ⟨_, _, _, ⟨rfl, rfl⟩, _, h₃,
    rfl⟩, rfl⟩, rfl⟩ := h₂
  cases hkey : constKey kp st with
  | some k =>
    rw [hkey] at h₃
    obtain ⟨harms, rfl, rfl⟩ := accepts_pure.mp h₃
    exact ⟨t₁, slotOps, hlt, hread, by simp, by simpa [hkey] using hsome, hlt₁, by simp,
      by simp [valueOffOps], by simpa [arrayArms] using harms⟩
  | none =>
    rw [hkey] at h₃
    simp only [accepts_bind, accepts_freshTmp, accepts_cast, accepts_pure] at h₃
    obtain ⟨_, _, _, ⟨hlt₂, rfl, rfl, rfl⟩, _, ⟨_, _, _, ⟨rfl, rfl⟩, _, ⟨harms, rfl, rfl⟩, rfl⟩,
      rfl⟩ := h₃
    exact ⟨t₁, slotOps, hlt, hread, fun _ => hnone hkey, by simp, hlt₁, fun _ => hlt₂,
      by simp [valueOffOps], by simpa [arrayArms] using harms⟩

theorem emitArrayUpdate_accepts {mr : MapRef} {kp vp : RegInfo}
    (h : (emitArrayUpdate idx mr kp vp st kw).Accepts c t st' t' ops) :
    ∃ t₁ slotOps copy, t.tmpNext < numTmps ∧ SlotRead c mr.mi kp st kw t t₁ slotOps ∧
      t₁.tmpNext < numTmps ∧
      ValueCopy c { t₁ with tmpNext := t₁.tmpNext + 1 } vp mr (hdr (hTmp t₁.tmpNext)) t' copy ∧
      ops = slotOps ++ valueOffOps mr.mi (hTmp t.tmpNext) (hTmp t₁.tmpNext) ++ copy ++
        [setOp (hReg 0) 0] ∧
      st' = st.clobber.setReg 0 (scalarConst 0) := by
  unfold emitArrayUpdate at h
  obtain ⟨_, t₁, slotOps, hslot, _, h₁, rfl⟩ := accepts_bind.mp h
  obtain ⟨hlt, rfl, hread⟩ := emitSlot_accepts hslot
  dsimp only at h₁
  simp only [accepts_bind, accepts_freshTmp, accepts_binop] at h₁
  obtain ⟨_, _, _, ⟨hlt₁, rfl, rfl, rfl⟩, _, ⟨_, _, _, ⟨rfl, rfl⟩, _, ⟨_, _, _, ⟨rfl, rfl⟩, _,
    ⟨_, _, copy, hcopy, _, h₂, rfl⟩, rfl⟩, rfl⟩, rfl⟩ := h₁
  obtain ⟨rfl, hval⟩ := copyMapValue_accepts hcopy
  simp only [if_true, accepts_bind, accepts_set, accepts_pure] at h₂
  obtain ⟨_, _, _, ⟨rfl, rfl⟩, _, ⟨rfl, rfl, rfl⟩, rfl⟩ := h₂
  exact ⟨t₁, slotOps, copy, hlt, hread, hlt₁, hval, by simp [valueOffOps], rfl⟩

/-! ## Lookup -/

/-- The arms of a tagged lookup: a hit for each slot, then the miss. -/
def lookupArms (mi : MapInfo) (tKey b : Nat) : List Arm :=
  ((List.range mi.nslots).map fun i =>
    (hitEntries (presHdrs mi b) (tagHdrs mi b) tKey i, [constOp (hReg 0) (mi.valueOff i)])) ++
    [([], [zeroOp (hReg 0)])]

theorem emitTaggedLookup_accepts {mr : MapRef} {kp : RegInfo} {arms : List Arm}
    (h : (emitTaggedLookup idx mr kp kw).Accepts c t (some arms) t' ops) :
    ∃ t₁ keyOps, t.tmpNext < numTmps ∧ KeyRead c t kp kw t₁ keyOps ∧
      t₁.tmpNext + 1 + 2 * mr.mi.nslots ≤ numTmps ∧ ops = keyOps ++ scanOps mr kw t₁.tmpNext ∧
      arms = lookupArms mr.mi (hTmp t.tmpNext) t₁.tmpNext := by
  unfold emitTaggedLookup at h
  obtain ⟨_, t₁, keyOps, hkey, _, h₁, rfl⟩ := accepts_bind.mp h
  obtain ⟨hlt, rfl, hread⟩ := readMapKey_accepts hkey
  obtain ⟨_, _, _, hscan, _, h₂, rfl⟩ := accepts_bind.mp h₁
  obtain ⟨rfl, rfl, hle, rfl⟩ := emitSlotHeaders_accepts hscan
  obtain ⟨harms, rfl, rfl⟩ := accepts_pure.mp h₂
  obtain rfl := Option.some.inj harms
  exact ⟨t₁, keyOps, hlt, hread, hle, by simp, rfl⟩

/-! ## Update -/

/-- A byte-wise copy. -/
def copyBytesOps (srcRegion dstRegion : Nat) (dst : Operand) (tSa tDa tB : Nat) (is : List Nat) :
    List Op :=
  is.flatMap fun i =>
    [.stateless .add .w64 (hdr (hReg 3)) (konstN i) tSa, .stateless .add .w64 dst (konstN i) tDa,
      .load .w8 srcRegion (hdr tSa) tB, .store .w8 dstRegion (hdr tDa) (hdr tB)]

theorem emitCopyBytes_accepts {srcRegion dstRegion tSa tDa tB : Nat} {dst : Operand}
    {is : List Nat} (h : (emitCopyBytes srcRegion dstRegion dst tSa tDa tB is).Accepts c t () t'
      ops) :
    t' = t ∧ ops = copyBytesOps srcRegion dstRegion dst tSa tDa tB is := by
  induction is generalizing t t' ops with
  | nil =>
    obtain ⟨_, rfl, rfl⟩ := accepts_pure.mp h
    exact ⟨rfl, rfl⟩
  | cons i is ih =>
    unfold emitCopyBytes emitCopyByte at h
    simp only [accepts_bind, accepts_binop, accepts_load, accepts_store] at h
    obtain ⟨_, _, _, ⟨_, _, _, ⟨rfl, rfl⟩, _, ⟨_, _, _, ⟨rfl, rfl⟩, _, ⟨_, _, _, ⟨rfl, rfl⟩, _,
      ⟨rfl, rfl⟩, rfl⟩, rfl⟩, rfl⟩, _, hrest, rfl⟩ := h
    obtain ⟨rfl, rfl⟩ := ih hrest
    exact ⟨rfl, by simp [copyBytesOps]⟩

theorem copyBytesOps_writes {srcRegion dstRegion tSa tDa tB : Nat} {dst : Operand} {is : List Nat}
    (hSa : IsScratch tSa) (hDa : IsScratch tDa) (hB : IsScratch tB) :
    AllWrite IsScratch (copyBytesOps srcRegion dstRegion dst tSa tDa tB is) := by
  induction is with
  | nil => simp [copyBytesOps]
  | cons i is ih =>
    simp only [copyBytesOps, List.flatMap_cons] at ih ⊢
    simp [hSa, hDa, hB, ih]

theorem ValueCopy.writes {vp : RegInfo} {mr : MapRef} {dst : Operand}
    (h : ValueCopy c t vp mr dst t' ops) : AllWrite IsScratch ops := by
  cases h with
  | stack => simp
  | wide _ _ _ htmp => simp [isScratch_hTmp htmp]
  | bytes _ _ _ _ htmp hops =>
    obtain ⟨_, rfl⟩ := emitCopyBytes_accepts hops
    exact copyBytesOps_writes (isScratch_hTmp (by omega)) (isScratch_hTmp (by omega))
      (isScratch_hTmp htmp)

/-- What an arm does: claim the slot if it inserts, copy the value, return 0. -/
def slotOps (mr : MapRef) (kw : Width) (tTag : Nat) (insert : Bool) (i : Nat)
    (copy : List Op) : List Op :=
  (if insert then [.store kw mr.region (konstN (mr.mi.tagOff i)) (hdr tTag),
    .store .w8 mr.region (konstN i) (konst 1)] else []) ++ copy ++ [setOp (hReg 0) 0]

theorem armOps_accepts {mr : MapRef} {vp : RegInfo} {tTag mark : Nat} {insert : Bool} {i : Nat}
    {o : List Op} (h : (armOps idx mr vp kw tTag mark insert i).Accepts c t (some o) t' ops) :
    ops = [] ∧ ∃ copy, ValueCopy c { t with tmpNext := mark } vp mr (konstN (mr.mi.valueOff i)) t'
      copy ∧ o = slotOps mr kw tTag insert i copy := by
  unfold armOps at h
  obtain ⟨_, _, _, hreset, _, h₁, rfl⟩ := accepts_bind.mp h
  obtain ⟨rfl, rfl⟩ := accepts_setTmpNext.mp hreset
  obtain ⟨⟨ok, o'⟩, _, _, hcap, _, h₂, rfl⟩ := accepts_bind.mp h₁
  obtain ⟨hrun, rfl⟩ := accepts_capture.mp hcap
  obtain ⟨ho, rfl, rfl⟩ := accepts_pure.mp h₂
  refine ⟨rfl, ?_⟩
  dsimp only at hrun ho
  cases insert with
  | true =>
    simp only [if_true, accepts_bind, accepts_store] at hrun
    obtain ⟨_, _, _, ⟨rfl, rfl⟩, _, ⟨_, _, _, ⟨rfl, rfl⟩, _, ⟨_, _, copy, hcopy, _, h₃, rfl⟩,
      rfl⟩, rfl⟩ := hrun
    obtain ⟨rfl, hval⟩ := copyMapValue_accepts hcopy
    simp only [if_true, accepts_bind, accepts_set, accepts_pure] at h₃
    obtain ⟨_, _, _, ⟨rfl, rfl⟩, _, ⟨rfl, rfl, rfl⟩, rfl⟩ := h₃
    refine ⟨copy, hval, ?_⟩
    rw [Option.some.inj ho]
    simp [slotOps]
  | false =>
    simp only [Bool.false_eq_true, if_false, accepts_bind] at hrun
    obtain ⟨_, _, copy, hcopy, _, h₃, rfl⟩ := hrun
    obtain ⟨rfl, hval⟩ := copyMapValue_accepts hcopy
    simp only [if_true, accepts_bind, accepts_set, accepts_pure] at h₃
    obtain ⟨_, _, _, ⟨rfl, rfl⟩, _, ⟨rfl, rfl, rfl⟩, rfl⟩ := h₃
    refine ⟨copy, hval, ?_⟩
    rw [Option.some.inj ho]
    simp [slotOps]

/-- The arms of the slots in turn, with the operations of each. -/
def armsOf (entries : Nat → List MatchEntry) (is : List Nat) (os : List (List Op)) : List Arm :=
  List.zipWith (fun i o => (entries i, o)) is os

/-- The arms of a family: one per slot, each an accepted copy with the scratch pool back
at `mark`. -/
def SlotArms (c : Config) (t : Translator) (mr : MapRef) (vp : RegInfo) (kw : Width)
    (tTag mark : Nat) (insert : Bool) (is : List Nat) (os : List (List Op)) : Prop :=
  List.Forall₂ (fun i o => ∃ t₁ t₂ copy, t.Grows t₁ ∧ t₁.tmpNext = mark ∧
    ValueCopy c t₁ vp mr (konstN (mr.mi.valueOff i)) t₂ copy ∧
    o = slotOps mr kw tTag insert i copy) is os

theorem SlotArms.grows {mr : MapRef} {vp : RegInfo} {tTag mark : Nat} {insert : Bool}
    {is : List Nat} {os : List (List Op)} (h : SlotArms c t' mr vp kw tTag mark insert is os)
    (hg : t.Grows t') : SlotArms c t mr vp kw tTag mark insert is os :=
  List.Forall₂.imp (fun _ _ ⟨t₁, t₂, copy, h₁, hrest⟩ => ⟨t₁, t₂, copy, hg.trans h₁, hrest⟩) h

theorem slotArms_accepts {mr : MapRef} {vp : RegInfo} {tTag mark : Nat} {insert : Bool}
    {entries : Nat → List MatchEntry} {is : List Nat} {arms : List Arm}
    (h : (slotArms (armOps idx mr vp kw tTag mark insert) entries is).Accepts c t (some arms) t'
      ops) :
    ops = [] ∧ ∃ os, arms = armsOf entries is os ∧ SlotArms c t mr vp kw tTag
    mark insert is os := by
  induction is generalizing t t' ops arms with
  | nil =>
    obtain ⟨harms, rfl, rfl⟩ := accepts_pure.mp h
    obtain rfl := Option.some.inj harms
    exact ⟨rfl, [], rfl, .nil⟩
  | cons i is ih =>
    unfold slotArms at h
    obtain ⟨_, t₁, _, hfirst, _, h₁, rfl⟩ := accepts_bind.mp h
    obtain ⟨o, rfl⟩ := armOps_accepts_some hfirst
    have hgrows := Grows.grows hfirst
    obtain ⟨rfl, copy, hcopy, ho⟩ := armOps_accepts hfirst
    obtain ⟨_, _, _, hrest, _, h₂, rfl⟩ := accepts_bind.mp h₁
    obtain ⟨arms', rfl⟩ := slotArms_accepts_some armOps_accepts_some hrest
    obtain ⟨harms, rfl, rfl⟩ := accepts_pure.mp h₂
    obtain rfl := Option.some.inj harms
    obtain ⟨rfl, os, rfl, hos⟩ := ih hrest
    exact ⟨rfl, o :: os, rfl, .cons
      ⟨{ t with tmpNext := mark }, _, copy, .of_eq rfl rfl, rfl, hcopy, ho⟩ (hos.grows hgrows)⟩

/-- The arms of a tagged update, in first-match order: overwrite, full, insert, out of
slots. -/
def updateArms (mi : MapInfo) (tKey b : Nat) (overs inserts : List (List Op)) : List Arm :=
  armsOf (hitEntries (presHdrs mi b) (tagHdrs mi b) tKey) (List.range mi.nslots) overs ++
    ([cmpEntry (hTmp (b + 3 + 2 * mi.nslots)) .eq (matchConst 1 .w64)],
      [constOp (hReg 0) (-e2big)]) ::
    (armsOf (fun i => [cmpEntry ((presHdrs mi b).getD i 0) .eq (matchConst 0 .w64)])
      (List.range mi.nslots) inserts ++ [([], [constOp (hReg 0) (-e2big)])])

/-- The scan of an update: the slots, the key narrowed to the tag's width, and the
capacity byte. -/
def updateScanOps (mr : MapRef) (kw : Width) (tKey b : Nat) : List Op :=
  scanOps mr kw b ++
    [.cast .w64 kw (hdr tKey) (hTmp (b + 1 + 2 * mr.mi.nslots)),
      .load .w8 mr.region (konstN mr.mi.fullOff) (hTmp (b + 2 + 2 * mr.mi.nslots)),
      .cast .w8 .w64 (hdr (hTmp (b + 2 + 2 * mr.mi.nslots))) (hTmp (b + 3 + 2 * mr.mi.nslots))]

theorem emitTaggedUpdate_accepts {mr : MapRef} {kp vp : RegInfo} {arms : List Arm}
    (h : (emitTaggedUpdate idx mr kp vp kw).Accepts c t (some arms) t' ops) :
    ∃ t₁ keyOps overs inserts, t.tmpNext < numTmps ∧ KeyRead c t kp kw t₁ keyOps ∧
      t₁.tmpNext + 4 + 2 * mr.mi.nslots ≤ numTmps ∧
      ops = keyOps ++ updateScanOps mr kw (hTmp t.tmpNext) t₁.tmpNext ∧
      arms = updateArms mr.mi (hTmp t.tmpNext) t₁.tmpNext overs inserts ∧
      SlotArms c t₁ mr vp kw (hTmp (t₁.tmpNext + 1 + 2 * mr.mi.nslots))
        (t₁.tmpNext + 4 + 2 * mr.mi.nslots) false (List.range mr.mi.nslots) overs ∧
      SlotArms c t₁ mr vp kw (hTmp (t₁.tmpNext + 1 + 2 * mr.mi.nslots))
        (t₁.tmpNext + 4 + 2 * mr.mi.nslots) true (List.range mr.mi.nslots) inserts := by
  unfold emitTaggedUpdate at h
  obtain ⟨_, t₁, keyOps, hkey, _, h₁, rfl⟩ := accepts_bind.mp h
  obtain ⟨hlt, rfl, hread⟩ := readMapKey_accepts hkey
  obtain ⟨_, _, _, hscan, _, h₂, rfl⟩ := accepts_bind.mp h₁
  obtain ⟨rfl, rfl, hle, rfl⟩ := emitSlotHeaders_accepts hscan
  dsimp only at h₂
  obtain ⟨_, _, _, hfresh, _, h₃, rfl⟩ := accepts_bind.mp h₂
  obtain ⟨_, rfl, rfl, rfl⟩ := accepts_freshTmp.mp hfresh
  obtain ⟨_, _, _, hcast, _, h₄, rfl⟩ := accepts_bind.mp h₃
  obtain ⟨rfl, rfl⟩ := accepts_cast.mp hcast
  obtain ⟨_, _, _, hfresh', _, h₅, rfl⟩ := accepts_bind.mp h₄
  obtain ⟨_, rfl, rfl, rfl⟩ := accepts_freshTmp.mp hfresh'
  obtain ⟨_, _, _, hfresh'', _, h₆, rfl⟩ := accepts_bind.mp h₅
  obtain ⟨hlt', rfl, rfl, rfl⟩ := accepts_freshTmp.mp hfresh''
  obtain ⟨_, _, _, hload, _, h₇, rfl⟩ := accepts_bind.mp h₆
  obtain ⟨rfl, rfl⟩ := accepts_load.mp hload
  obtain ⟨_, _, _, hcast', _, h₈, rfl⟩ := accepts_bind.mp h₇
  obtain ⟨rfl, rfl⟩ := accepts_cast.mp hcast'
  obtain ⟨_, _, _, hget, _, h₉, rfl⟩ := accepts_bind.mp h₈
  obtain ⟨rfl, rfl, rfl⟩ := accepts_get.mp hget
  obtain ⟨_, _, _, hover, _, h₁₀, rfl⟩ := accepts_bind.mp h₉
  obtain ⟨overwrites, rfl⟩ := slotArms_accepts_some armOps_accepts_some hover
  obtain ⟨_, _, _, hins, _, h₁₁, rfl⟩ := accepts_bind.mp h₁₀
  obtain ⟨inserts, rfl⟩ := slotArms_accepts_some armOps_accepts_some hins
  obtain ⟨harms, rfl, rfl⟩ := accepts_pure.mp h₁₁
  obtain rfl := Option.some.inj harms
  have hgrows := Grows.grows hover
  obtain ⟨rfl, overs, rfl, hovers⟩ := slotArms_accepts hover
  obtain ⟨rfl, inss, rfl, hinss⟩ := slotArms_accepts hins
  -- the scratch headers in turn
  have hraw : t₁.tmpNext + 1 + 2 * mr.mi.nslots + 1 = t₁.tmpNext + 2 + 2 * mr.mi.nslots := by omega
  have hfull : t₁.tmpNext + 2 + 2 * mr.mi.nslots + 1 = t₁.tmpNext + 3 + 2 * mr.mi.nslots := by omega
  have hmark : t₁.tmpNext + 3 + 2 * mr.mi.nslots + 1 = t₁.tmpNext + 4 + 2 * mr.mi.nslots := by omega
  simp only [hraw, hfull, hmark] at hovers hinss hlt' ⊢
  refine ⟨t₁, keyOps, overs, inss, hlt, hread, by omega, by simp [updateScanOps],
    by simp [updateArms], hovers.grows (.of_eq rfl rfl), ?_⟩
  exact (hinss.grows hgrows).grows (.of_eq rfl rfl)

end Ect
