-- SUMMARY: The region of a hash map implements a finite map: what the emitted lookup and update do to it.
import Ect.Maps.ArrayLookup
import Ect.Maps.SlotCopy

/-!
# Hash maps

A region of a hash map is a table of slots, and the table stands for a map. A lookup finds
the value the map holds, and an update changes the map at the key or is refused.
-/

namespace Ect

open TransM LittleEndian Ranges Slots

variable {c : Config} {len : Nat → Nat} {σ σ' : State} {t t' : Translator} {ops : List Op}
  {idx : Nat} {kw : Width} {st st' : AbsState} {kp : RegInfo} {mr : MapRef} {R : Nat → Byte}
  {key : Nat} {v : List Byte}

/-! ## The region of a map -/

/-- A configured map's region is declared with the map's length. -/
theorem regionLen_map {m : Nat} {mi : MapInfo} (h : c.maps[m]? = some mi) :
    regionLen (declaredRegions c) (regionMap m) = mi.length := by
  obtain ⟨hm, hmi⟩ := List.getElem?_eq_some_iff.mp h
  have hzip : c.maps.zipIdx = (c.maps.zipIdx.take m) ++ (mi, m) :: c.maps.zipIdx.drop (m + 1) := by
    have hlen : m < c.maps.zipIdx.length := by simpa using hm
    have hget : c.maps.zipIdx[m] = (mi, m) := by
      rw [List.getElem_zipIdx, hmi, Nat.zero_add]
    rw [← hget, List.cons_getElem_drop_succ, List.take_append_drop]
  have hlook : (declaredRegions c).lookup (regionMap m) = some mi.length := by
    refine List.lookup_eq_some_iff.mpr ⟨[(regionCtx, c.ctx.length), (regionPkt, pktLen)] ++
      (c.maps.zipIdx.take m).map fun p => (regionMap p.2, p.1.length),
      (c.maps.zipIdx.drop (m + 1)).map fun p => (regionMap p.2, p.1.length), ?_, ?_⟩
    · rw [declaredRegions]
      conv_lhs => rw [hzip]
      simp
    · intro p hp
      simp only [List.cons_append, List.nil_append, List.mem_cons, List.mem_map] at hp
      have hne : regionMap m ≠ p.1 := by
        rcases hp with rfl | rfl | ⟨⟨mi', j⟩, hj, rfl⟩
        · simp only [regionMap, regionCtx]; omega
        · simp only [regionMap, regionPkt]; omega
        · obtain ⟨k, hk, hkj⟩ := List.mem_take_iff_getElem.mp hj
          rw [List.getElem_zipIdx] at hkj
          obtain ⟨_, rfl⟩ := Prod.mk.inj hkj
          simp only [regionMap]
          omega
      simpa using hne
  rw [regionLen, hlook, Option.getD_some]

/-- The cells of a map whose sizes are those of a map definition are addressable. -/
theorem addressable_of_mapOf {mp : RegInfo} (h : mapOf c.maps mp = some mr)
    (hsize : keySizeModelled mr.mi = true) (hvalue : mr.mi.valueSize < 2 ^ 32)
    (hslots : mr.mi.nslots ≤ numTmps) : Addressable (regionLen (declaredRegions c)) mr where
  len := (regionLen_map (mapOf_some h).2.2).ge
  lt := by
    have hkey := (keySize_of_modelled hsize).2
    simp only [numTmps] at hslots
    have h₁ : mr.mi.nslots * mr.mi.keySize ≤ 64 * 8 := Nat.mul_le_mul hslots hkey
    have h₂ : mr.mi.nslots * mr.mi.valueSize ≤ 64 * 2 ^ 32 := Nat.mul_le_mul hslots (by omega)
    simp only [MapInfo.length, MapInfo.fullOff, MapInfo.valueBase]
    split <;> omega

theorem MapInfo.valueOff_ne_zero {mi : MapInfo} {i : Nat} (hi : i < mi.nslots) :
    mi.valueOff i ≠ 0 := by
  simp only [MapInfo.valueOff, MapInfo.valueBase]
  omega

/-! ## Calls -/

theorem KeyRead.mem (h : KeyRead c t kp kw t' ops) : (runOps len σ ops).mem = σ.mem := by
  refine runOps_mem fun op hop => ?_
  cases h with
  | stack =>
    obtain rfl := List.mem_singleton.mp hop
    rfl
  | region =>
    simp only [List.mem_cons, List.not_mem_nil, or_false] at hop
    rcases hop with rfl | rfl <;> rfl

theorem KeyRead.grows (h : KeyRead c t kp kw t' ops) : t.Grows t' := by
  cases h with
  | stack _ _ _ _ _ _ hgrows => exact hgrows
  | region => exact .of_eq rfl rfl

theorem constOp_eval {d : Nat} {n : Int} :
    (constOp d n).eval len σ = σ.setHdr d (.int .w64 (n % 2 ^ 64).toNat) := by
  have hn : (n % 2 ^ 64).toNat < 2 ^ 64 := by omega
  have hzero : (Operand.const 0).eval σ .w64 = some 0 := rfl
  rw [constOp, Op.eval_stateless (Operand.eval_konst (w := .w64) n) hzero]
  simp only [BinOp.eval, Width.bits_w64, Nat.mod_eq_of_lt hn, Nat.add_zero]

/-- The arms read the scan whatever the program counter is. -/
theorem Scanned.setPc {mi : MapInfo} {k b : Nat} {pc : CrVal}
    (h : Scanned mi R key (hTmp k) b σ) : Scanned mi R key (hTmp k) b (σ.setHdr hPc pc) := by
  have hne : ∀ j, hTmp j ≠ hPc := fun j => by simp only [hTmp, hPc]; omega
  exact h.congr (by simp [hne]) fun j _ => by simp [hne]

/-- A lookup changes no cell, and returns where the value of the key is, or NULL. -/
theorem LookupCall.hash_run {arms : List Arm} (h : LookupCall c idx st t t' ops mr arms)
    (htag : mr.mi.tagged = true) (hvalue : mr.mi.valueSize < 2 ^ 32) (hR : σ.Holds mr R)
    (hlen : len = regionLen (declaredRegions c))
    (hkey : KeyPassed c t len σ (st.reg 2) (widthName mr.mi.keySize) key)
    (hrun : CallRun len σ ops (some arms) σ') :
    σ'.mem = σ.mem ∧
      ((∃ i, (mr.mi.table R).hit key = some i ∧ σ'.hdr (hReg 0) = .int .w64 (mr.mi.valueOff i)) ∨
        (mr.mi.table R).hit key = none ∧ σ'.hdr (hReg 0) = .int .w64 0) := by
  obtain ⟨pc, arm, harm, rfl⟩ := hrun
  have hscan := h.scan
  rw [if_neg (by simp [isArray_eq_false_of_tagged htag])] at hscan
  obtain ⟨t₁, keyOps, _, hread, hle, rfl, rfl⟩ := emitTaggedLookup_accepts hscan
  have ha : Addressable len mr :=
    hlen ▸ addressable_of_mapOf h.map h.keySize hvalue (by omega)
  obtain ⟨hmem, hscanned⟩ := scanOps_eval h.keySize htag (hR.of_mem hread.mem) ha hread.tmpNext_lt
    (hread.value_passed (hkey.grows (t.called_grows mr.m)))
  rw [← runOps_append] at hmem hscanned
  rcases lookupArms_find? hscanned.setPc harm with ⟨i, hhit, harm⟩ | ⟨hmiss, harm⟩
  · have hoff : mr.mi.valueOff i < 2 ^ 64 := by
      have hi : i < mr.mi.nslots := (SlotTable.hit_eq_some.mp hhit).2.1
      have hend : mr.mi.valueOff i + mr.mi.valueSize ≤ mr.mi.length :=
        Part.end_le (p := .value i) hi
      have hfit : mr.mi.length < 2 ^ 64 := ha.lt
      omega
    have hmod : ((mr.mi.valueOff i : Int) % 2 ^ 64).toNat = mr.mi.valueOff i := by omega
    rw [harm, runOps_cons, runOps_nil, constOp_eval, hmod]
    exact ⟨hmem.trans hread.mem, .inl ⟨i, hhit, by simp⟩⟩
  · rw [harm, runOps_cons, runOps_nil, zeroOp, constOp_eval]
    exact ⟨hmem.trans hread.mem, .inr ⟨hmiss, by simp⟩⟩

/-- A lookup that finds no number of the key's width where `r2` points misses, whatever the
region holds. -/
theorem LookupCall.error_run {arms : List Arm} (h : LookupCall c idx st t t' ops mr arms)
    (htag : mr.mi.tagged = true)
    (hheld : heldKey c t len σ (st.reg 2) (widthName mr.mi.keySize) = none)
    (hrun : CallRun len σ ops (some arms) σ') : σ'.hdr (hReg 0) = .int .w64 0 := by
  obtain ⟨pc, arm, harm, rfl⟩ := hrun
  have hscan := h.scan
  rw [if_neg (by simp [isArray_eq_false_of_tagged htag])] at hscan
  obtain ⟨t₁, keyOps, _, hread, _, rfl, rfl⟩ := emitTaggedLookup_accepts hscan
  have hkey : (runOps len σ keyOps).hdr (hTmp (t.called mr.m).tmpNext) = .error :=
    (hread.value _ _).trans (congrArg CrVal.ofNumber hheld)
  have hne : hTmp (t.called mr.m).tmpNext ≠ hPc := by simp only [hTmp, hPc]; omega
  have herror : ((runOps len σ (keyOps ++ scanOps mr (widthName mr.mi.keySize)
      t₁.tmpNext)).setHdr hPc pc).hdr (hTmp (t.called mr.m).tmpNext) = .error := by
    rw [State.setHdr_hdr, if_neg hne, runOps_append, runOps_hdr scanOps_writes_from len _
      (not_isTmpFrom_hTmp hread.tmpNext_lt), hkey]
  rw [lookupArms_find?_error herror harm, runOps_cons, runOps_nil, zeroOp, constOp_eval]
  simp

/-- The scan of an update also leaves the key at the tag's width, and the capacity byte. -/
theorem updateScanOps_eval {k b : Nat} (hsize : keySizeModelled mr.mi = true)
    (htag : mr.mi.tagged = true) (hR : σ.Holds mr R) (ha : Addressable len mr) (hk : k < b)
    (hkey : σ.hdr (hTmp k) = .int .w64 key) (hlt : key < 2 ^ (widthName mr.mi.keySize).bits) :
    let σ' := runOps len σ (updateScanOps mr (widthName mr.mi.keySize) (hTmp k) b)
    σ'.mem = σ.mem ∧ Scanned mr.mi R key (hTmp k) b σ' ∧
      σ'.hdr (hTmp (b + 1 + 2 * mr.mi.nslots)) = .int (widthName mr.mi.keySize) key ∧
      σ'.hdr (hTmp (b + 3 + 2 * mr.mi.nslots)) = .int .w64 (R mr.mi.fullOff).toNat := by
  obtain ⟨hmem, hscanned⟩ := scanOps_eval hsize htag hR ha hk hkey
  have hlen := ha.len
  have hlt64 := ha.lt
  have hfull : mr.mi.fullOff + 1 ≤ mr.mi.length := Part.end_le (p := .capacity) htag
  dsimp only
  rw [updateScanOps, runOps_append]
  set σ₁ := runOps len σ (scanOps mr (widthName mr.mi.keySize) b)
  set n := mr.mi.nslots
  -- the key at the tag's width
  rw [runOps_cons, Op.eval_cast (Operand.eval_hdr hscanned.key), Nat.mod_eq_of_lt hlt]
  set σ₂ := σ₁.setHdr (hTmp (b + 1 + 2 * n)) (.int (widthName mr.mi.keySize) key) with hσ₂
  -- the capacity byte
  have hload : (Op.load .w8 mr.region (konstN mr.mi.fullOff) (hTmp (b + 2 + 2 * n))).eval len σ₂ =
      (σ₂.addLog ⟨false, mr.region, mr.mi.fullOff, 1⟩).setHdr (hTmp (b + 2 + 2 * n))
        (.int .w8 (R mr.mi.fullOff).toNat) := by
    have hread : readCells (σ₂.mem mr.region) mr.mi.fullOff 1 = some [R mr.mi.fullOff] :=
      (hR.of_mem hmem).read hfull
    rw [load_eval (Operand.eval_konstN (w := .w64) (by rw [Width.bits_w64]; omega))
      (by rw [Width.bytes_w8]; omega) hread]
    simp
  rw [runOps_cons, hload, runOps_cons, runOps_nil, Op.eval_cast (Operand.eval_hdr
    ((State.setHdr_hdr _ _ _ _).trans (if_pos rfl)))]
  have hbyte : (R mr.mi.fullOff).toNat % 2 ^ 64 = (R mr.mi.fullOff).toNat :=
    Nat.mod_eq_of_lt (Nat.lt_trans (R mr.mi.fullOff).isLt (by decide))
  refine ⟨hmem, hscanned.congr ?_ fun j hj => ?_, ?_, ?_⟩
  · simp [hσ₂, hTmp_inj, show k ≠ b + 1 + 2 * n by omega, show k ≠ b + 2 + 2 * n by omega,
      show k ≠ b + 3 + 2 * n by omega]
  · simp [hσ₂, hTmp_inj, show j ≠ b + 1 + 2 * n by omega, show j ≠ b + 2 + 2 * n by omega,
      show j ≠ b + 3 + 2 * n by omega]
  · simp [hσ₂, hTmp_inj]
  · rw [State.setHdr_hdr, if_pos rfl, Width.bits_w64, hbyte]

/-- An update writes the slot the table names, or is refused and changes no cell. -/
theorem UpdateCall.hash_run {r : Option (List Arm)} (h : UpdateCall c idx st t r st' t' ops)
    (hmap : mapOf c.maps (st.reg 1) = some mr) (htag : mr.mi.tagged = true)
    (hvalue : mr.mi.valueSize < 2 ^ 32) (hwf : t.WF) (hR : σ.Holds mr R)
    (hlen : len = regionLen (declaredRegions c))
    (hkey : KeyPassed c t len σ (st.reg 2) (widthName mr.mi.keySize) key)
    (hv : v.length = mr.mi.valueSize) (hpass : ValuePassed c t len σ (st.reg 3) v)
    (hapart : ∀ i, (mr.mi.table R).dest (mr.mi.closed R) key = some i →
      SourceApart c mr σ (st.reg 3) (mr.mi.valueOff i) (mr.mi.InSlot i))
    (hrun : CallRun len σ ops r σ') :
    (∃ i, (mr.mi.table R).dest (mr.mi.closed R) key = some i ∧
        Wrote mr (mr.mi.writeSlot R i key v) σ σ') ∨
      (mr.mi.table R).dest (mr.mi.closed R) key = none ∧ σ'.mem = σ.mem ∧
        σ'.hdr (hReg 0) = .int .w64 (2 ^ 64 - 7) := by
  have harray := isArray_eq_false_of_tagged htag
  cases h with
  | outOfRange hmap' harray' =>
    obtain rfl := Option.some.inj (hmap.symm.trans hmap')
    rw [harray] at harray'
    cases harray'
  | array hmap' harray' =>
    obtain rfl := Option.some.inj (hmap.symm.trans hmap')
    rw [harray] at harray'
    cases harray'
  | hash hmap' hfamily hsize _ hscan =>
    obtain rfl := Option.some.inj (hmap.symm.trans hmap')
    obtain ⟨pc, arm, harm, rfl⟩ := hrun
    obtain ⟨t₁, keyOps, overs, inserts, hlt, hread, hle, rfl, rfl, hovers, hinserts⟩ :=
      emitTaggedUpdate_accepts hscan
    have ha : Addressable len mr := hlen ▸ addressable_of_mapOf hmap hsize hvalue (by omega)
    have hcalled := t.called_grows mr.m
    obtain ⟨hmem, hscanned, htTag, hfull⟩ := updateScanOps_eval hsize htag
      (hR.of_mem hread.mem) ha hread.tmpNext_lt (hread.value_passed (hkey.grows hcalled)) hkey.lt_pow_bits
    rw [← runOps_append] at hmem hscanned htTag hfull
    have hwrites : AllWrite IsScratch (keyOps ++ updateScanOps mr (widthName mr.mi.keySize)
        (hTmp (t.called mr.m).tmpNext) t₁.tmpNext) :=
      allWrite_append.mpr ⟨hread.writes hlt, updateScanOps_writes (by omega)⟩
    generalize hops : keyOps ++ updateScanOps mr (widthName mr.mi.keySize)
      (hTmp (t.called mr.m).tmpNext) t₁.tmpNext = ops at hmem hscanned htTag hfull hwrites harm ⊢
    set σ₁ := (runOps len σ ops).setHdr hPc pc with hσ₁
    have hmem₁ : σ₁.mem = σ.mem := hmem.trans hread.mem
    have hne : ∀ j, hTmp j ≠ hPc := fun j => by simp only [hTmp, hPc]; omega
    have hreg : σ₁.hdr (hReg 3) = σ.hdr (hReg 3) := by
      rw [hσ₁, State.setHdr_hdr, if_neg (by decide)]
      exact runOps_hdr hwrites len σ (not_isScratch_hReg 3)
    -- the header of a stack slot is none the scan writes
    have hstack : ∀ slot sh, t.stackHdrOf slot = some sh → σ₁.hdr sh = σ.hdr sh := by
      intro slot sh hsh
      have hbase := (hwf.range hsh).1
      rw [hσ₁, State.setHdr_hdr, if_neg (by simp only [hPc, hStackBase] at *; omega)]
      exact runOps_hdr hwrites len σ fun hs => by
        simp only [IsScratch, hStackBase] at hs hbase
        omega
    have hpass₁ : ValuePassed c t len σ₁ (st.reg 3) v :=
      hpass.congr hstack hreg fun _ _ _ _ _ _ => by rw [hmem₁]
    rcases updateArms_find? hscanned.setPc (by simpa [hσ₁, hne] using hfull) hovers hinserts harm
      with ⟨i, insert, t₂, t₃, copy, hdest, hhit, hgrows, _, hcopy, harm⟩ | ⟨hdest, harm⟩
    · have hi : i < mr.mi.nslots := SlotTable.dest_lt hdest
      have htTag₁ : σ₁.hdr (hTmp (t₁.tmpNext + 1 + 2 * mr.mi.nslots)) =
          .int (widthName mr.mi.keySize) key := by simpa [hσ₁, hne] using htTag
      have hwrote := slotOps_wrote hsize htag ha hi (hR.of_mem hmem₁) htTag₁
        (fun hins => (SlotTable.hit_eq_some.mp (hhit hins)).1) hcopy hv
        (hpass₁.grows ((hcalled.trans hread.grows).trans hgrows)) ((hapart i hdest).congr hreg)
      refine .inl ⟨i, hdest, ?_⟩
      rw [harm]
      exact ⟨hwrote.holds, fun r hr => (hwrote.other r hr).trans (by rw [hmem₁]), hwrote.result⟩
    · refine .inr ⟨hdest, ?_⟩
      rw [harm, runOps_cons, runOps_nil, constOp_eval]
      exact ⟨hmem₁, by simp [e2big]⟩

/-! ## Blocks -/

/-- The call updates a map. -/
def Insn.isUpdate (i : Insn) : Bool := i.jmpOp == .call && i.imm.toInt == bpfFuncMapUpdateElem

/-- A run of the modules of an accepted block reaches its terminator at `p`, and ends in
`σ'`. -/
inductive BlockReaches (insns : List Insn) (c : Config) (len : Nat → Nat) (p : Point)
    (σ' : State) : Prop where
  | mk {lead : Nat → Bool} {b start end_ : Nat} {blockIn blockIn' : Nat → AbsState}
      {t t' : Translator} {mods : List (List Rule)} {ops : List Op} {σ : State} (hwf : t.WF)
      (hblock : IsBlock insns lead b start end_)
      (haccepts : (translateBlock insns lead b blockIn).Accepts c t (mods, blockIn') t' ops)
      (hentry : σ.hdr hPc = .int .w64 (blockPc start))
      (hpoint : p ∈ termPoints insns c len end_
        ⟨start, if (blockIn b).live then blockIn b else .init, t, σ⟩)
      (hrun : σ' = runModules len σ mods)

theorem termPoints_wf {insns : List Insn} {end_ : Nat} {q p : Point} (hwf : q.t.WF)
    (h : p ∈ termPoints insns c len end_ q) : p.t.WF := by
  unfold termPoints at h
  split at h
  · split at h
    · rename_i hbody
      obtain rfl := List.mem_singleton.mp h
      exact (grows_of_ok hbody).wf hwf
    · cases h
  · cases h

/-- What the modules of a block that ends with a call do: the call's operations and arm. -/
theorem BlockReaches.call {insns : List Insn} {p : Point} (hlen : insns.length ≤ maxInsns)
    (h : BlockReaches insns c len p σ') (hcall : (insnAt insns p.idx).jmpOp = .call) :
    p.t.WF ∧ ∃ r st' t' ops σ₁,
      (translateCall p.idx (insnAt insns p.idx) p.st).Accepts c p.t (r, st') t' ops ∧
      CallRun len p.σ ops r σ₁ ∧ σ₁.SameOffPc σ' := by
  obtain ⟨hwf, hblock, haccepts, hentry, hpoint, rfl⟩ := h
  refine ⟨termPoints_wf hwf hpoint, ?_⟩
  obtain ⟨hidx, hends, flow, st', hrun⟩ := termPoint_run
    (by simp only [decidePc, maxInsns] at *; omega) hblock haccepts hentry hpoint
  cases hrun with
  | exit hop => rw [hcall] at hop; cases hop
  | goes hm hσ' =>
    cases hm with
    | insn hone =>
      rw [(translateOne_accepts hone hidx).1] at hends
      cases hends
    | ja _ hop => rw [hcall] at hop; cases hop
    | cond hbr => simp [Insn.branches, hcall] at hbr
    | call _ _ hc => exact ⟨_, _, _, _, _, hc, rfl, hσ'⟩
    | arms _ _ hc harm => exact ⟨_, _, _, _, _, hc, ⟨_, _, harm, rfl⟩, hσ'⟩

/-- A reached lookup in a hash map misses where no number of the key's width is held. -/
theorem BlockReaches.lookup_error {insns : List Insn} {p : Point}
    (h : BlockReaches insns c len p σ') (hlen : insns.length ≤ maxInsns)
    (hlookup : (insnAt insns p.idx).isLookup = true) (hmap : mapOf c.maps (p.st.reg 1) = some mr)
    (htag : mr.mi.tagged = true)
    (hheld : heldKey c p.t len p.σ (p.st.reg 2) (widthName mr.mi.keySize) = none) :
    σ'.hdr (hReg 0) = .int .w64 0 := by
  simp only [Insn.isLookup, Bool.and_eq_true, beq_iff_eq] at hlookup
  obtain ⟨_, r, st', t', ops, σ₁, hacc, hrun, hσ'⟩ := h.call hlen hlookup.1
  rcases translateCall_accepts hacc with ⟨_, mr', arms, rfl, hcall, _⟩ | ⟨himm, _⟩
  · obtain rfl : mr' = mr := Option.some.inj (hcall.map.symm.trans hmap)
    rw [hσ'.hdr _ (by decide), hcall.error_run htag hheld hrun]
  · rw [hlookup.2] at himm; cases himm

/-- An accepted block ends with a call on the hash map `mr`, reached at `p`, that passes
`key` while the map's region holds the bytes `R`; its modules end in `σ'`. -/
structure HashCall (insns : List Insn) (c : Config) (p : Point) (mr : MapRef) (R : Nat → Byte)
    (key : Nat) (σ' : State) : Prop where
  length : insns.length ≤ maxInsns
  reached : BlockReaches insns c (regionLen (declaredRegions c)) p σ'
  map : mapOf c.maps (p.st.reg 1) = some mr
  hash : mr.mi.tagged = true
  valueSize : mr.mi.valueSize < 2 ^ 32
  bytes : p.σ.Holds mr R
  key : KeyPassed c p.t (regionLen (declaredRegions c)) p.σ (p.st.reg 2)
    (widthName mr.mi.keySize) key

/-- What a lookup leaves: every cell as it was, and in `r0` where the value of the key is,
or NULL where the map has none. -/
inductive LookupResult (mr : MapRef) (R : Nat → Byte) (key : Nat) (σ σ' : State) : Prop where
  | hit {i : Nat} {v : List Byte} (hmem : σ'.mem = σ.mem)
      (hslot : (mr.mi.table R).hit key = some i) (hget : (mr.mi.table R).get key = some v)
      (hr0 : σ'.hdr (hReg 0) = .int .w64 (mr.mi.valueOff i)) (hne : mr.mi.valueOff i ≠ 0)
      (hvalue : readCells (σ'.mem mr.region) (mr.mi.valueOff i) mr.mi.valueSize = some v)
  | miss (hmem : σ'.mem = σ.mem) (hget : (mr.mi.table R).get key = none)
      (hr0 : σ'.hdr (hReg 0) = .int .w64 0)

theorem LookupResult.mem (h : LookupResult mr R key σ σ') : σ'.mem = σ.mem := by
  cases h with
  | hit hmem => exact hmem
  | miss hmem => exact hmem

/-- What an update leaves: one slot of the table written, and with it the map changed at
the key, and 0 in `r0`; or every cell as it was, and `-E2BIG` in `r0`. -/
inductive UpdateResult (mr : MapRef) (R : Nat → Byte) (key : Nat) (v : List Byte) (σ σ' : State) :
    Prop where
  | stored {i : Nat} {R' : Nat → Byte}
      (hdest : (mr.mi.table R).dest (mr.mi.closed R) key = some i) (hbytes : σ'.Holds mr R')
      (htable : mr.mi.table R' = (mr.mi.table R).put i key v)
      (hget : (mr.mi.table R').get = Function.update (mr.mi.table R).get key (some v))
      (hclosed : mr.mi.closed R' = mr.mi.closed R)
      (hother : ∀ r, r ≠ mr.region → σ'.mem r = σ.mem r)
      (hr0 : σ'.hdr (hReg 0) = .int .w64 0)
  | refused (hdest : (mr.mi.table R).dest (mr.mi.closed R) key = none) (hmem : σ'.mem = σ.mem)
      (hr0 : σ'.hdr (hReg 0) = .int .w64 (2 ^ 64 - 7))

/-- The tagged region implements a finite map. A lookup in a hash map, whatever the presence
bytes are, leaves the region alone and yields where the value of the key is. An update, whose
source does not partially overlap the slot it writes, overwrites the slot that holds the key,
or claims the lowest free slot unless the capacity byte is 1, and changes the map at the key
alone; otherwise it returns `-E2BIG` and changes no cell. -/
theorem hash_map_refines {insns : List Insn} {p : Point} (h : HashCall insns c p mr R key σ') :
    ((insnAt insns p.idx).isLookup = true → LookupResult mr R key p.σ σ') ∧
    ((insnAt insns p.idx).isUpdate = true → ∀ v, v.length = mr.mi.valueSize →
      ValuePassed c p.t (regionLen (declaredRegions c)) p.σ (p.st.reg 3) v →
      (∀ i, (mr.mi.table R).dest (mr.mi.closed R) key = some i →
        SourceApart c mr p.σ (p.st.reg 3) (mr.mi.valueOff i) (mr.mi.InSlot i)) →
      UpdateResult mr R key v p.σ σ') := by
  have hpc : hReg 0 ≠ hPc := by decide
  refine ⟨fun hlookup => ?_, fun hupdate v hv hpass hapart => ?_⟩
  · simp only [Insn.isLookup, Bool.and_eq_true, beq_iff_eq] at hlookup
    obtain ⟨_, r, st', t', ops, σ₁, hacc, hrun, hσ'⟩ := h.reached.call h.length hlookup.1
    rcases translateCall_accepts hacc with ⟨_, mr', arms, rfl, hcall, _⟩ | ⟨himm, _⟩
    · obtain rfl : mr' = mr := Option.some.inj (hcall.map.symm.trans h.map)
      obtain ⟨hmem, hres⟩ := hcall.hash_run h.hash h.valueSize h.bytes rfl h.key hrun
      rw [← hσ'.mem] at hmem
      rw [← hσ'.hdr _ hpc] at hres
      rcases hres with ⟨i, hhit, hr0⟩ | ⟨hmiss, hr0⟩
      · obtain ⟨v, hslot, hget⟩ := SlotTable.hit_value hhit
        have hi : i < mr'.mi.nslots := (SlotTable.hit_eq_some.mp hhit).2.1
        have hread : readCells (σ'.mem mr'.region) (mr'.mi.valueOff i) mr'.mi.valueSize =
            some (mr'.mi.valueOf R i) :=
          (h.bytes.of_mem hmem).read (Part.end_le (p := .value i) hi)
        rw [MapInfo.table_slot hi] at hslot
        exact .hit hmem hhit hget hr0 (MapInfo.valueOff_ne_zero hi)
          (hread.trans (congrArg some (MapInfo.valueOf_of_slotOf hslot)))
      · exact .miss hmem (SlotTable.get_eq_none.mpr hmiss) hr0
    · rw [hlookup.2] at himm; cases himm
  · simp only [Insn.isUpdate, Bool.and_eq_true, beq_iff_eq] at hupdate
    obtain ⟨hwf, r, st', t', ops, σ₁, hacc, hrun, hσ'⟩ := h.reached.call h.length hupdate.1
    have hsize := translateCall_keySize hacc h.map
    rcases translateCall_accepts hacc with ⟨himm, _⟩ | ⟨_, hcall⟩
    · rw [hupdate.2] at himm; cases himm
    · have hkey : key < 256 ^ mr.mi.keySize := by
        have := h.key.lt_pow_bits
        rwa [Width.pow_bits, widthName_bytes hsize] at this
      rcases hcall.hash_run h.map h.hash h.valueSize hwf h.bytes rfl h.key hv hpass hapart hrun with
        ⟨i, hdest, hwrote⟩ | ⟨hdest, hmem, hr0⟩
      · have hi : i < mr.mi.nslots := SlotTable.dest_lt hdest
        have htable := MapInfo.table_writeSlot (R := R) h.hash hi hv hkey
        refine .stored hdest (hwrote.holds.of_mem hσ'.mem) htable ?_
          (MapInfo.closed_writeSlot h.hash hi hv) (fun r hr => ?_) ?_
        · rw [htable, SlotTable.get_put hdest]
        · rw [hσ'.mem, hwrote.other r hr]
        · rw [hσ'.hdr _ hpc, hwrote.result]
      · exact .refused hdest (hσ'.mem.trans hmem) ((hσ'.hdr _ hpc).trans hr0)

/-- The entry of `updateProgram`, on regions of zeros. -/
def updateEntry : State :=
  runRules (regionLen (declaredRegions oneSlotConfig)) (State.initial fun _ _ => some 0)
    (preamble (scanUsedRegs updateProgram))

/-- Before the call of `updateProgram`. -/
def updatePoint : Point :=
  (termPoints updateProgram oneSlotConfig (regionLen (declaredRegions oneSlotConfig)) 6
    ⟨0, entryState, .init, updateEntry⟩).headD ⟨0, .init, .init, State.initial fun _ _ => none⟩

theorem updateProgram_isBlock : IsBlock updateProgram (fun k => k == 0 || k == 6) 0 0 6 where
  start_eq := rfl
  end_eq := rfl
  start_lead := rfl
  start_lt := by decide
  end_le := by decide
  end_lead := fun _ => ⟨rfl, rfl⟩
  inner k hlo hhi := by
    simp only [Bool.or_eq_false_iff, beq_eq_false_iff_ne]
    omega

/-- The update of an empty slot: it claims the slot, and the map then holds the value. -/
theorem updateProgram_refines :
    ∃ mods, ((translateBlock updateProgram (fun k => k == 0 || k == 6) 0 entryStates).result
        oneSlotConfig .init).map Prod.fst = some mods ∧
      UpdateResult oneSlotRef (fun _ => 0) 0 [0, 0, 0, 0, 0, 0, 0, 0] updatePoint.σ
        (runModules (regionLen (declaredRegions oneSlotConfig)) updateEntry mods) := by
  obtain ⟨⟨mods, blockIn'⟩, hres⟩ : ∃ r, (translateBlock updateProgram
      (fun k => k == 0 || k == 6) 0 entryStates).result oneSlotConfig .init = some r := ⟨_, rfl⟩
  obtain ⟨_, _, h⟩ := accepts_of_result hres
  refine ⟨mods, by rw [hres]; rfl, (hash_map_refines (p := updatePoint) (c := oneSlotConfig)
    ⟨by decide, ⟨Translator.init_wf, updateProgram_isBlock, h, rfl,
      List.mem_of_getElem? (i := 0) rfl, rfl⟩, rfl, rfl, by decide, fun x _ => rfl,
      .region (by decide) (show _ = CrVal.int .w64 0 from rfl) (by decide) rfl rfl⟩).2 rfl _ rfl
      (.region (by decide) (show _ = CrVal.int .w64 0 from rfl) (by decide) (by decide) rfl)
      fun i _ _ hr => ?_⟩
  cases hr

end Ect
