-- SUMMARY: When a lookup in an array map yields what the map holds at the key.
import Ect.Lowering.Walk
import Ect.Maps.Effects
import Ect.Maps.Values

/-!
# Array lookups

An array holds the keys below `max_entries`. The lookup's decide transformer compares the
slot, which is the key modulo the slots, and so takes the hit arm for every key.
-/

namespace Ect

open TransM LittleEndian

variable {c : Config} {len : Nat → Nat} {σ : State} {t t' : Translator} {ops : List Op} {idx : Nat}
  {kw : Width} {st : AbsState} {kp : RegInfo} {key : Nat} {mr : MapRef}

/-- What a lookup in an array leaves in `r0`: the value pointer, or NULL. -/
def arrayResult (mi : MapInfo) (key : Nat) : CrVal :=
  .int .w64 (if key < mi.maxEntries then mi.valueBase + key * mi.valueSize else 0)

/-- The sizes of a map are `u32` fields of its definition. -/
structure MapInfo.FitsU32 (mi : MapInfo) : Prop where
  maxEntries : mi.maxEntries < 2 ^ 32
  valueSize : mi.valueSize < 2 ^ 32

/-! ## Layout -/

theorem MapInfo.nslots_le {mi : MapInfo} (h : 1 ≤ mi.maxEntries) : mi.nslots ≤ mi.maxEntries := by
  unfold MapInfo.nslots
  split <;> omega

theorem MapInfo.valueBase_of_isArray {mi : MapInfo} (h : mi.isArray = true) :
    mi.valueBase = mi.nslots := by
  have hf : mi.family = some .array := by simpa [MapInfo.isArray] using h
  simp [MapInfo.valueBase, MapInfo.tagged, hf]

theorem MapInfo.FitsU32.valueOff_lt {mi : MapInfo} (h : mi.FitsU32) (hmax : 1 ≤ mi.maxEntries)
    (harray : mi.isArray = true) {k : Nat} (hk : k < mi.maxEntries) : mi.valueOff k < 2 ^ 64 := by
  have hslots := MapInfo.nslots_le hmax
  have hmul : k * mi.valueSize ≤ (2 ^ 32 - 1) * (2 ^ 32 - 1) :=
    Nat.mul_le_mul (by have := h.maxEntries; omega) (by have := h.valueSize; omega)
  have := h.maxEntries
  rw [MapInfo.valueOff, MapInfo.valueBase_of_isArray harray]
  omega

/-! ## The block and its arms -/

theorem assignOp_eval {d s n : Nat} (hs : σ.hdr s = .int .w64 n) (hn : n < 2 ^ 64) :
    (assignOp d s).eval len σ = σ.setHdr d (.int .w64 n) := by
  have hval : (Operand.header s).eval σ .w64 = some n := Operand.eval_hdr hs
  rw [assignOp, Op.eval_stateless hval (m := 0) rfl]
  simp only [BinOp.eval, Nat.add_zero, Width.bits_w64, Nat.mod_eq_of_lt hn]

/-- The slot of an array access is one of the map's, and so below `max_entries`. -/
theorem MapInfo.mod_nslots_lt {mi : MapInfo} (k : Nat) (hpos : 0 < mi.nslots)
    (hmax : 1 ≤ mi.maxEntries) : k % mi.nslots < mi.maxEntries :=
  Nat.lt_of_lt_of_le (Nat.mod_lt _ hpos) (MapInfo.nslots_le hmax)

/-- The hit arm is taken: its comparison holds of the slot, whatever the key. -/
theorem arrayArms_hit {mi : MapInfo} {tracked : Option Nat} {tSlot tVp tKey s : Nat}
    (hslot : σ.hdr tSlot = .int .w64 s) (hcopy : tracked = none → σ.hdr tKey = .int .w64 s)
    (htracked : ∀ k, tracked = some k → k % mi.nslots = s) (hlt : s < mi.maxEntries)
    (hmax : mi.maxEntries < 2 ^ 64) :
    (arrayArms mi tracked tSlot tVp tKey).find? (fun a => a.1.all (MatchEntry.holds σ)) =
      some ((arrayArms mi tracked tSlot tVp tKey).headD ([], [])) := by
  cases tracked with
  | some k =>
    obtain rfl := htracked k rfl
    have hval := matchConst_eval (σ := σ) (w := .w64) (Nat.lt_trans hlt hmax)
    simp only [arrayArms, List.find?_cons, List.all_cons, List.all_nil, MatchEntry.holds, cmpEntry,
      hslot, hval, Cmp.eval, beq_self_eq_true, Bool.and_true, List.headD_cons]
  | none =>
    have hval := matchConst_eval (σ := σ) (w := .w64) hmax
    simp only [arrayArms, List.find?_cons, List.all_cons, List.all_nil, MatchEntry.holds, cmpEntry,
      hcopy rfl, hval, Cmp.eval, beq_self_eq_true, hlt, decide_true, Bool.and_true, List.headD_cons]

/-- Where the read of a computed key gave an error, the comparison fails. -/
theorem arrayArms_miss {mi : MapInfo} {tSlot tVp tKey : Nat} (hcopy : σ.hdr tKey = .error) :
    (arrayArms mi none tSlot tVp tKey).find? (fun a => a.1.all (MatchEntry.holds σ)) =
      some ([], [zeroOp (hReg 0)]) := by
  simp only [arrayArms, List.find?_cons, List.all_cons, List.all_nil, MatchEntry.holds, cmpEntry,
    hcopy, Cmp.eval, Bool.false_and]

/-- After the operations of an array lookup: the slot, the offset of its value, and the copy
of the slot that a computed key is compared through. -/
theorem arrayLookup_headers {mi : MapInfo} {t₁ : Translator} {slotOps : List Op}
    (hread : SlotRead c mi kp st kw t t₁ slotOps) {s : Nat}
    (hs : (runOps len σ slotOps).hdr (hTmp t.tmpNext) = .int .w64 s) (hs64 : s < 2 ^ 64)
    (hvs : mi.valueSize < 2 ^ 64) (hfit : mi.valueOff s < 2 ^ 64) {copy : List Op}
    (hcopy : copy = if constKey kp st = none then
      [.cast .w64 .w64 (hdr (hTmp t.tmpNext)) (hTmp (t₁.tmpNext + 1))] else []) :
    let σ' := runOps len σ (slotOps ++ valueOffOps mi (hTmp t.tmpNext) (hTmp t₁.tmpNext) ++ copy)
    σ'.hdr (hTmp t.tmpNext) = .int .w64 s ∧ σ'.hdr (hTmp t₁.tmpNext) = .int .w64 (mi.valueOff s) ∧
      (constKey kp st = none → σ'.hdr (hTmp (t₁.tmpNext + 1)) = .int .w64 s) := by
  have hlt := hread.tmpNext_lt
  have hVp : hTmp t.tmpNext ≠ hTmp t₁.tmpNext := fun heq => by
    have := hTmp_inj.mp heq
    omega
  have hKey : hTmp t.tmpNext ≠ hTmp (t₁.tmpNext + 1) := fun heq => by
    have := hTmp_inj.mp heq
    omega
  have hKeyVp : hTmp t₁.tmpNext ≠ hTmp (t₁.tmpNext + 1) := fun heq =>
    Nat.succ_ne_self _ (hTmp_inj.mp heq).symm
  dsimp only
  rw [runOps_append, runOps_append, valueOffOps_eval hs hvs hfit, hcopy]
  split
  · rename_i hnone
    rw [runOps_cons, runOps_nil, Op.eval_cast (Operand.eval_hdr (n := s) (by simp [hVp, hs]))]
    simpa [hVp, hKey, hKeyVp, hs] using fun _ => hs64
  · rename_i hsome
    simp [hVp, hs, hsome]

/-- After the operations of an array lookup that read no number: an error in the copy. -/
theorem arrayLookup_error {mi : MapInfo} {t₁ : Translator} {slotOps : List Op}
    (hread : SlotRead c mi kp st kw t t₁ slotOps)
    (hs : (runOps len σ slotOps).hdr (hTmp t.tmpNext) = .error) :
    (runOps len σ (slotOps ++ valueOffOps mi (hTmp t.tmpNext) (hTmp t₁.tmpNext) ++
      [.cast .w64 .w64 (hdr (hTmp t.tmpNext)) (hTmp (t₁.tmpNext + 1))])).hdr
        (hTmp (t₁.tmpNext + 1)) = .error := by
  have hlt := hread.tmpNext_lt
  have hkept : AllWrite (· = hTmp t₁.tmpNext)
      (valueOffOps mi (hTmp t.tmpNext) (hTmp t₁.tmpNext)) := by simp [valueOffOps]
  have hs' := (runOps_hdr hkept len (runOps len σ slotOps) fun heq => by
    have := hTmp_inj.mp heq
    omega).trans hs
  rw [runOps_append, runOps_append, runOps_cons, runOps_nil, cast_eval, hs']
  rfl

/-- What an emitted lookup leaves in `r0` when it goes by this number: where the value of
the number's slot is, or NULL if there is no number. -/
def lookedUp (mi : MapInfo) : Option Nat → CrVal
  | some k => .int .w64 (mi.valueOff (k % mi.nslots))
  | none => .int .w64 0

/-- An array with an entry whose lookup is accepted has a slot. -/
theorem emitArrayLookup_nslots_pos {mi : MapInfo} {kp : RegInfo} {arms : List Arm}
    (h : (emitArrayLookup idx mi kp st kw).Accepts c t (some arms) t' ops)
    (hmax : 1 ≤ mi.maxEntries) : 0 < mi.nslots := by
  obtain ⟨_, _, _, _, hnone, hsome, _⟩ := emitArrayLookup_accepts h
  cases hkey : constKey kp st with
  | none => exact Nat.lt_of_lt_of_le hmax (hnone hkey)
  | some k => exact Nat.lt_of_le_of_lt (Nat.zero_le k) (hsome k hkey)

/-- A lookup in an array goes by the number the access uses. -/
theorem arrayLookup_value {arms : List Arm} {arm : Arm} {v : CrVal}
    (h : (emitArrayLookup idx mr.mi kp st kw).Accepts c t (some arms) t' ops)
    (hmax : 1 ≤ mr.mi.maxEntries) (hsize : mr.mi.FitsU32) (harray : mr.mi.isArray = true)
    (harm : arms.find? (fun a => a.1.all (MatchEntry.holds ((runOps len σ ops).setHdr hPc v))) =
      some arm) :
    (runOps len ((runOps len σ ops).setHdr hPc v) arm.2).hdr (hReg 0) =
      lookedUp mr.mi (usedKey c t len σ st kp kw) := by
  have hpos := emitArrayLookup_nslots_pos h hmax
  obtain ⟨t₁, slotOps, _, hread, _, _, _, _, hops, rfl⟩ := emitArrayLookup_accepts h
  have hmax64 : mr.mi.maxEntries < 2 ^ 64 := Nat.lt_trans hsize.maxEntries (by decide)
  have hslotVal := hread.value len σ hpos
    (Nat.lt_of_le_of_lt (MapInfo.nslots_le hmax) hmax64)
  -- the program counter is none of these headers
  have hpc : ∀ k, hTmp k ≠ hPc := fun k => by simp only [hTmp, hPc]; omega
  cases hused : usedKey c t len σ st kp kw with
  | some k =>
    rw [hused] at hslotVal
    have hlt := MapInfo.mod_nslots_lt k hpos hmax
    have hfit := hsize.valueOff_lt hmax harray hlt
    have htracked : ∀ k', constKey kp st = some k' → k' % mr.mi.nslots = k % mr.mi.nslots := by
      intro k' hk'
      rw [usedKey, hk', Option.some_or] at hused
      rw [Option.some.inj hused]
    obtain ⟨hslot, hVp, hcopy⟩ := arrayLookup_headers hread hslotVal
      (Nat.lt_trans hlt hmax64) (Nat.lt_trans hsize.valueSize (by decide)) hfit rfl
    rw [← hops] at hslot hVp hcopy
    rw [arrayArms_hit (by simpa [hpc] using hslot) (fun hk => by simpa [hpc] using hcopy hk)
      htracked hlt hmax64] at harm
    obtain rfl := Option.some.inj harm
    simp only [arrayArms, List.headD_cons, runOps_cons, runOps_nil]
    rw [assignOp_eval (by simpa [hpc] using hVp) hfit]
    simp [lookedUp]
  | none =>
    rw [hused] at hslotVal
    have hconst : constKey kp st = none := (Option.or_eq_none_iff.mp hused).1
    rw [if_pos hconst] at hops
    have hcopy := arrayLookup_error hread hslotVal
    rw [← hops] at hcopy
    rw [hconst, arrayArms_miss (by simpa [hpc] using hcopy)] at harm
    obtain rfl := Option.some.inj harm
    simp only [runOps_cons, runOps_nil, zeroOp]
    simp [constOp, Op.eval, Operand.eval, BinOp.eval, konst, lookedUp]

/-! ## Exactness -/

/-- A lookup that goes by this number is right for `key`: the key is in range and the
number's slot is the key's, or there is no number and the key is out of range. -/
def MapInfo.Serves (mi : MapInfo) : Option Nat → Nat → Prop
  | some k, key => key < mi.maxEntries ∧ mi.valueOff (k % mi.nslots) = mi.valueOff key
  | none, key => mi.maxEntries ≤ key

/-- A value pointer of an array is not NULL. -/
theorem MapInfo.valueOff_pos {mi : MapInfo} (harray : mi.isArray = true) (hpos : 0 < mi.nslots)
    (k : Nat) : 0 < mi.valueOff k := by
  rw [MapInfo.valueOff, MapInfo.valueBase_of_isArray harray]
  omega

theorem lookedUp_eq_iff {mi : MapInfo} {used : Option Nat} (harray : mi.isArray = true)
    (hpos : 0 < mi.nslots) : lookedUp mi used = arrayResult mi key ↔ mi.Serves used key := by
  have hvalue : mi.valueBase + key * mi.valueSize = mi.valueOff key := rfl
  have hne := MapInfo.valueOff_pos harray hpos
  cases used with
  | some k =>
    have := hne (k % mi.nslots)
    by_cases hkey : key < mi.maxEntries
    · simp [lookedUp, arrayResult, MapInfo.Serves, hkey, hvalue]
    · simp [lookedUp, arrayResult, MapInfo.Serves, hkey]
      omega
  | none =>
    have := hne key
    by_cases hkey : key < mi.maxEntries
    · simp [lookedUp, arrayResult, MapInfo.Serves, hkey, hvalue]
      omega
    · simp [lookedUp, arrayResult, MapInfo.Serves, hkey]
      omega

/-- A computed key that is held at its own width is served when it is in range. -/
theorem KeyPassed.serves_iff {mi : MapInfo} (hkey : KeyPassed c t len σ kp kw key)
    (hconst : constKey kp st = none) (hslots : mi.maxEntries ≤ mi.nslots) :
    mi.Serves (usedKey c t len σ st kp kw) key ↔ key < mi.maxEntries := by
  rw [usedKey, hconst, Option.none_or, hkey.heldKey, MapInfo.Serves, and_iff_left_iff_imp]
  exact fun hlt => by rw [Nat.mod_eq_of_lt (Nat.lt_of_lt_of_le hlt hslots)]

/-- The call looks a key up. -/
def Insn.isLookup (i : Insn) : Bool := i.jmpOp == .call && i.imm.toInt == bpfFuncMapLookupElem

/-- For every accepted block that ends with a lookup in an array, and every key: the block and
its decide transformer leave the right result for the key in `r0` exactly when the constant
tracked for it, or else the number held where `r2` points, serves the key. -/
theorem array_lookup_exact_iff {insns : List Insn} {lead : Nat → Bool} {b start end_ : Nat}
    {blockIn blockIn' : Nat → AbsState} {mods : List (List Rule)} {p : Point}
    (hlen : insns.length ≤ maxInsns) (hb : IsBlock insns lead b start end_)
    (h : (translateBlock insns lead b blockIn).Accepts c t (mods, blockIn') t' ops)
    (hσ : σ.hdr hPc = .int .w64 (blockPc start))
    (hp : p ∈ termPoints insns c len end_
      ⟨start, if (blockIn b).live then blockIn b else .init, t, σ⟩)
    (hcall : (insnAt insns p.idx).isLookup = true) (hmap : mapOf c.maps (p.st.reg 1) = some mr)
    (harray : mr.mi.isArray = true) (hmax : 1 ≤ mr.mi.maxEntries) (hsize : mr.mi.FitsU32) :
    (runModules len σ mods).hdr (hReg 0) = arrayResult mr.mi key ↔
      mr.mi.Serves (usedKey c p.t len p.σ p.st (p.st.reg 2) (widthName mr.mi.keySize)) key := by
  simp only [Insn.isLookup, Bool.and_eq_true, beq_iff_eq] at hcall
  obtain ⟨hidx, hends, flow, st', hrun⟩ := termPoint_run
    (by simp only [decidePc, maxInsns] at *; omega)
    hb h hσ hp
  cases hrun with
  | exit hop => rw [hcall.1] at hop; cases hop
  | goes hm hσ' =>
    cases hm with
    | insn hone =>
      rw [(translateOne_accepts hone hidx).1] at hends
      cases hends
    | ja _ hop => rw [hcall.1] at hop; cases hop
    | cond hbr => simp [Insn.branches, hcall.1] at hbr
    | call _ _ hc =>
      rcases translateCall_accepts hc with ⟨_, _, _, hr, _⟩ | ⟨himm, _⟩
      · cases hr
      · rw [hcall.2] at himm; cases himm
    | @arms arms arm _ _ _ v _ _ hc harm =>
      rcases translateCall_accepts hc with ⟨_, mr', _, hr, hlook, _⟩ | ⟨himm, _⟩
      · obtain rfl := Option.some.inj hr
        obtain rfl : mr' = mr := Option.some.inj (hlook.map.symm.trans hmap)
        have hscan := hlook.scan
        rw [if_pos harray] at hscan
        rw [hσ'.hdr _ (by decide), arrayLookup_value hscan hmax hsize harray harm]
        exact lookedUp_eq_iff harray (emitArrayLookup_nslots_pos hscan hmax)
      · rw [hcall.2] at himm; cases himm

/-- `r2 = ctx->ingress_ifindex; *(u32 *)(r10 - 4) = r2; r2 = r10 - 4;
r0 = bpf_map_lookup_elem(map, r2); exit`. -/
def lookupProgram : List Insn :=
  [⟨0x61, 2, 1, 12, 0⟩, ⟨0x63, 10, 2, -4, 0⟩, ⟨0xbf, 2, 10, 0, 0⟩, ⟨0x07, 2, 0, 0, -4⟩,
    ⟨0x18, 1, 1, 0, 0⟩, ⟨0, 0, 0, 0, 0⟩, ⟨0x85, 0, 0, 0, 1⟩, ⟨0x95, 0, 0, 0, 0⟩]

/-- An array of four 8-byte values. -/
def lookupArray : MapInfo := ⟨"counters", 2, 4, 8, 4, 4⟩

def lookupConfig : Config := ⟨ctxXdpMd, [lookupArray], fun i => if i = 4 then some 0 else none⟩

/-- The entry of `lookupProgram` on an interface of this index. -/
def lookupEntry (ifindex : Byte) : State :=
  runRules (regionLen (declaredRegions lookupConfig))
    (State.initial fun _ k => some (if k = 12 then ifindex else 0))
      (preamble (scanUsedRegs lookupProgram))

/-- Before the call. -/
def lookupPoint (ifindex : Byte) : Point :=
  (termPoints lookupProgram lookupConfig (regionLen (declaredRegions lookupConfig)) 7
    ⟨0, entryState, .init, lookupEntry ifindex⟩).headD
      ⟨0, .init, .init, State.initial fun _ _ => none⟩

theorem lookupProgram_isBlock :
    IsBlock lookupProgram (fun k => k == 0 || k == 7) 0 0 7 where
  start_eq := rfl
  end_eq := rfl
  start_lead := rfl
  start_lt := by decide
  end_le := by decide
  end_lead := fun _ => ⟨rfl, rfl⟩
  inner k hlo hhi := by
    simp only [Bool.or_eq_false_iff, beq_eq_false_iff_ne]
    omega

/-- The lookup of interface 1 finds the value at offset 12. -/
theorem lookupProgram_exact :
    ∃ mods, ((translateBlock lookupProgram (fun k => k == 0 || k == 7) 0 entryStates).result
        lookupConfig .init).map Prod.fst = some mods ∧
      (runModules (regionLen (declaredRegions lookupConfig)) (lookupEntry 1) mods).hdr (hReg 0) =
        arrayResult lookupArray 1 := by
  obtain ⟨⟨mods, blockIn'⟩, hres⟩ : ∃ r, (translateBlock lookupProgram
      (fun k => k == 0 || k == 7) 0 entryStates).result lookupConfig .init = some r := ⟨_, rfl⟩
  obtain ⟨_, _, h⟩ := accepts_of_result hres
  have hpassed : KeyPassed lookupConfig (lookupPoint 1).t
      (regionLen (declaredRegions lookupConfig)) (lookupPoint 1).σ ((lookupPoint 1).st.reg 2)
      .w32 1 := .stack rfl rfl rfl (by decide)
  exact ⟨mods, by rw [hres]; rfl, (array_lookup_exact_iff (p := lookupPoint 1)
    (by decide) lookupProgram_isBlock h rfl (List.mem_of_getElem? (i := 0) rfl) rfl rfl rfl
    (by decide) ⟨by decide, by decide⟩).mpr
    ((hpassed.serves_iff rfl (by decide)).mpr (by decide))⟩

/-- The points of the run of `lookupProgram` on an interface of this index. -/
def lookupPoints (ifindex : Byte) : List Point :=
  runPoints lookupProgram lookupConfig (regionLen (declaredRegions lookupConfig))
    fun _ k => some (if k = 12 then ifindex else 0)

/-- The call on interface 5. -/
def lookupCall : Point := ((lookupPoints 5)[5]?).get (by decide +kernel)

/-- Where the call has returned. -/
def lookupDone : Point := ((lookupPoints 5)[6]?).get (by decide +kernel)

/-- The lookup of interface 5 finds the value of key 1, where the array has no key 5. -/
theorem lookupProgram_counterexample :
    ∃ mods, (translateProgram lookupProgram).result lookupConfig .init = some mods ∧
      ∃ p q, (lookupPoints 5)[5]? = some p ∧ (lookupPoints 5)[6]? = some q ∧
        (insnAt lookupProgram p.idx).isLookup = true ∧
        mapOf lookupConfig.maps (p.st.reg 1) = some ⟨0, lookupArray⟩ ∧
        KeyPassed lookupConfig p.t (regionLen (declaredRegions lookupConfig)) p.σ
          (p.st.reg 2) .w32 5 ∧
        q.σ.hdr (hReg 0) = .int .w64 12 ∧ arrayResult lookupArray 5 = .int .w64 0 ∧
        arrayResult lookupArray 1 = .int .w64 12 := by
  have hres : ((translateProgram lookupProgram).result lookupConfig .init).isSome := by
    decide +kernel
  exact ⟨_, (Option.some_get hres).symm, lookupCall, lookupDone,
    (Option.some_get (by decide +kernel)).symm, (Option.some_get (by decide +kernel)).symm,
    by decide +kernel, rfl, .stack (by decide +kernel) rfl (by decide +kernel) (by decide),
    by decide +kernel, by decide, by decide⟩

end Ect
