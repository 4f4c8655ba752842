-- SUMMARY: What the scan of a hash map leaves in scratch headers, and the arm the scan selects.
import Mathlib.Data.List.Find
import Ect.Lowering.Memory
import Ect.Maps.Accesses
import Ect.Maps.Contents

/-!
# The scan of the slots

After the scan each presence byte and each tag is in a header of its own. The entries of
an arm then say of a slot what the table of the region says of it, so the arm that fires
is the slot a lookup finds, or the one an update writes.
-/

namespace Ect

open LittleEndian Ranges Slots

variable {c : Config} {len : Nat → Nat} {σ : State} {t t' : Translator} {ops : List Op} {kw : Width}
  {mr : MapRef} {kp vp : RegInfo} {R : Nat → Byte} {key tKey b : Nat}

/-- The map's region holds the bytes `R`. -/
def State.Holds (σ : State) (mr : MapRef) (R : Nat → Byte) : Prop :=
  ∀ x < mr.mi.length, σ.mem mr.region x = some (R x)

theorem State.Holds.read (h : σ.Holds mr R) {off n : Nat} (hin : off + n ≤ mr.mi.length) :
    readCells (σ.mem mr.region) off n = some (getBytes R off n) :=
  (readCells_congr fun x _ hhi => h x (by omega)).trans (readCells_some R off n)

theorem State.Holds.of_mem {σ' : State} (h : σ.Holds mr R) (hmem : σ'.mem = σ.mem) :
    σ'.Holds mr R := fun x hx => by rw [hmem, h x hx]

/-- The region is declared with all its cells, and they are addressable. -/
structure Addressable (len : Nat → Nat) (mr : MapRef) : Prop where
  len : mr.mi.length ≤ len mr.region
  lt : mr.mi.length < 2 ^ 64

/-! ## Loading cells -/

/-- A scratch header from the `b`-th on. -/
def IsTmpFrom (b h : Nat) : Prop := ∃ j, b ≤ j ∧ h = hTmp j

theorem isTmpFrom_hTmp {j : Nat} (h : b ≤ j) : IsTmpFrom b (hTmp j) := ⟨j, h, rfl⟩

theorem not_isTmpFrom_hTmp {j : Nat} (h : j < b) : ¬IsTmpFrom b (hTmp j) := by
  rintro ⟨k, hk, heq⟩
  have := hTmp_inj.mp heq
  omega

theorem widenOps_writes_from {w : Width} {region tRaw k : Nat} {offs : List Nat}
    {T : Nat → Prop} (hraw : T tRaw) (hk : ∀ j, k ≤ j → T (hTmp j)) :
    AllWrite T (widenOps w region tRaw k offs) := by
  induction offs generalizing k with
  | nil => simp [widenOps]
  | cons off offs ih =>
    have hrest := ih (k := k + 1) fun j hj => hk j (by omega)
    simp [widenOps, hraw, hk k (Nat.le_refl k), hrest]

theorem widenOps_eval {w : Width} {tRaw k : Nat} {offs : List Nat}
    (hraw : ∀ j, k ≤ j → tRaw ≠ hTmp j) (hR : σ.Holds mr R) (ha : Addressable len mr)
    (hoffs : ∀ off ∈ offs, off + w.bytes ≤ mr.mi.length) :
    (runOps len σ (widenOps w mr.region tRaw k offs)).mem = σ.mem ∧
      ∀ j (hj : j < offs.length), (runOps len σ (widenOps w mr.region tRaw k offs)).hdr
        (hTmp (k + j)) = .int .w64 (leNat (getBytes R offs[j] w.bytes)) := by
  induction offs generalizing σ k with
  | nil => exact ⟨rfl, by simp⟩
  | cons off offs ih =>
    have hin := hoffs off (by simp)
    have hlen := ha.len
    have hlt := ha.lt
    have hpos := w.bytes_pos
    set n := leNat (getBytes R off w.bytes) with hn
    have hn64 : n % 2 ^ 64 = n := Nat.mod_eq_of_lt
      (Nat.lt_of_lt_of_le (leNat_lt_pow_bits (getBytes_length _ _ _)) w.pow_bits_le)
    have hload : (Op.load w mr.region (konstN off) tRaw).eval len σ =
        (σ.addLog ⟨false, mr.region, off, w.bytes⟩).setHdr tRaw (.int w n) :=
      load_eval (Operand.eval_konstN (w := .w64) (by rw [Width.bits_w64]; omega)) (by omega)
        (hR.read hin)
    set σ₁ := (σ.addLog ⟨false, mr.region, off, w.bytes⟩).setHdr tRaw (.int w n) with hσ₁
    have hcast : (Op.cast w .w64 (hdr tRaw) (hTmp k)).eval len σ₁ =
        σ₁.setHdr (hTmp k) (.int .w64 n) := by
      rw [Op.eval_cast (Operand.eval_hdr (show σ₁.hdr tRaw = .int w n by simp [hσ₁])),
        Width.bits_w64, hn64]
    rw [widenOps, runOps_cons, hload, runOps_cons, hcast]
    obtain ⟨hmem, hvals⟩ := @ih (σ₁.setHdr (hTmp k) (.int .w64 n)) (k + 1)
      (fun j hj => hraw j (by omega)) hR fun o ho => hoffs o (by simp [ho])
    refine ⟨hmem, fun j hj => ?_⟩
    cases j with
    | zero =>
      -- the later loads use other headers
      have hwrites : AllWrite (fun h => h = tRaw ∨ IsTmpFrom (k + 1) h)
          (widenOps w mr.region tRaw (k + 1) offs) :=
        widenOps_writes_from (.inl rfl) fun j hj => .inr (isTmpFrom_hTmp hj)
      have hkept := @runOps_hdr _ _ hwrites len (σ₁.setHdr (hTmp k) (.int .w64 n)) (hTmp k)
        fun h => h.elim (fun he => hraw k (Nat.le_refl k) he.symm)
          (not_isTmpFrom_hTmp (Nat.lt_succ_self k))
      exact hkept.trans (by simp [hn])
    | succ j =>
      have := hvals j (by simpa using hj)
      rw [show k + (j + 1) = k + 1 + j by omega, this, List.getElem_cons_succ]

/-! ## The scan -/

/-- The scratch headers from `b` on hold the presence bytes and the tags, and `tKey` the
key. -/
structure Scanned (mi : MapInfo) (R : Nat → Byte) (key tKey b : Nat) (σ : State) : Prop where
  presence : ∀ i < mi.nslots, σ.hdr (hTmp (b + 1 + i)) = .int .w64 (R i).toNat
  tag : ∀ i < mi.nslots, σ.hdr (hTmp (b + 1 + mi.nslots + i)) = .int .w64 (mi.tagOf R i)
  key : σ.hdr tKey = .int .w64 key

theorem Scanned.congr {mi : MapInfo} {σ' : State} (h : Scanned mi R key tKey b σ)
    (hkey : σ'.hdr tKey = σ.hdr tKey)
    (htmp : ∀ j < b + 1 + 2 * mi.nslots, σ'.hdr (hTmp j) = σ.hdr (hTmp j)) :
    Scanned mi R key tKey b σ' where
  presence i hi := by rw [htmp _ (by omega), h.presence i hi]
  tag i hi := by rw [htmp _ (by omega), h.tag i hi]
  key := hkey.trans h.key

theorem keySize_of_modelled {mi : MapInfo} (h : keySizeModelled mi = true) :
    0 < mi.keySize ∧ mi.keySize ≤ 8 := by
  simp only [keySizeModelled, Bool.or_eq_true, beq_iff_eq] at h
  omega

theorem scanOps_writes_from : AllWrite (IsTmpFrom b) (scanOps mr kw b) :=
  allWrite_append.mpr
    ⟨widenOps_writes_from (isTmpFrom_hTmp (Nat.le_refl b)) fun j hj => isTmpFrom_hTmp (by omega),
      widenOps_writes_from (isTmpFrom_hTmp (Nat.le_refl b)) fun j hj => isTmpFrom_hTmp (by omega)⟩

/-- The scan reads every presence byte and every tag. -/
theorem scanOps_eval {k : Nat} (hsize : keySizeModelled mr.mi = true) (htag : mr.mi.tagged = true)
    (hR : σ.Holds mr R) (ha : Addressable len mr) (hk : k < b)
    (hkey : σ.hdr (hTmp k) = .int .w64 key) :
    (runOps len σ (scanOps mr (widthName mr.mi.keySize) b)).mem = σ.mem ∧
      Scanned mr.mi R key (hTmp k) b (runOps len σ (scanOps mr (widthName mr.mi.keySize) b)) := by
  have hbytes := widthName_bytes hsize
  have hraw : ∀ {k}, b + 1 ≤ k → ∀ j, k ≤ j → hTmp b ≠ hTmp j := fun hk j hj heq => by
    have := hTmp_inj.mp heq
    omega
  have hpart : ∀ {p : Part}, p.Of mr.mi → (p.range mr.mi).off + (p.range mr.mi).size ≤
    mr.mi.length := Part.end_le
  obtain ⟨hmem₁, hpres⟩ := @widenOps_eval len σ mr R .w8 (hTmp b) (b + 1)
    (List.range mr.mi.nslots) (hraw (Nat.le_refl _)) hR ha fun i hi => by
      simpa [Part.range] using @hpart (.presence i) (List.mem_range.mp hi)
  set σ₁ := runOps len σ (widenOps .w8 mr.region (hTmp b) (b + 1) (List.range mr.mi.nslots))
  obtain ⟨hmem₂, htags⟩ := @widenOps_eval len σ₁ mr R (widthName mr.mi.keySize) (hTmp b)
    (b + 1 + mr.mi.nslots) ((List.range mr.mi.nslots).map mr.mi.tagOff) (hraw (by omega))
    (hR.of_mem hmem₁) ha fun off hoff => by
      obtain ⟨i, hi, rfl⟩ := List.mem_map.mp hoff
      simpa [Part.range, hbytes] using @hpart (.tag i) ⟨htag, List.mem_range.mp hi⟩
  have hwrites₁ : AllWrite (IsTmpFrom b) (widenOps .w8 mr.region (hTmp b) (b + 1)
      (List.range mr.mi.nslots)) :=
    widenOps_writes_from (isTmpFrom_hTmp (Nat.le_refl b)) fun j hj => isTmpFrom_hTmp (by omega)
  have hwrites₂ : AllWrite (fun h => h = hTmp b ∨ IsTmpFrom (b + 1 + mr.mi.nslots) h)
      (widenOps (widthName mr.mi.keySize) mr.region (hTmp b) (b + 1 + mr.mi.nslots)
        ((List.range mr.mi.nslots).map mr.mi.tagOff)) :=
    widenOps_writes_from (.inl rfl) fun j hj => .inr (isTmpFrom_hTmp hj)
  -- the loads of the tags keep what is below them
  have hkeep : ∀ j, j ≠ b → j < b + 1 + mr.mi.nslots →
      ¬(hTmp j = hTmp b ∨ IsTmpFrom (b + 1 + mr.mi.nslots) (hTmp j)) := fun j hne hlt h =>
    h.elim (fun he => hne (hTmp_inj.mp he)) (not_isTmpFrom_hTmp hlt)
  rw [scanOps, runOps_append]
  refine ⟨hmem₂.trans hmem₁, fun i hi => ?_, fun i hi => ?_, ?_⟩
  · rw [runOps_hdr hwrites₂ _ _ (hkeep _ (by omega) (by omega)), hpres i (by simpa using hi)]
    simp [getBytes]
  · rw [htags i (by simpa using hi)]
    simp [MapInfo.tagOf, hbytes]
  · rw [runOps_hdr hwrites₂ _ _ (hkeep k (by omega) (by omega)),
      runOps_hdr hwrites₁ _ _ (not_isTmpFrom_hTmp hk), hkey]

/-! ## Arms -/

section Arms

variable {mi : MapInfo} {i : Nat}

theorem presHdrs_getD (hi : i < mi.nslots) : (presHdrs mi b).getD i 0 = hTmp (b + 1 + i) := by
  simp [presHdrs, List.getD, List.getElem?_range' (by omega : i < mi.nslots)]

theorem tagHdrs_getD (hi : i < mi.nslots) :
    (tagHdrs mi b).getD i 0 = hTmp (b + 1 + mi.nslots + i) := by
  simp [tagHdrs, List.getD, List.getElem?_range' (by omega : i < mi.nslots)]

/-- A byte in a header compares as the byte does. -/
theorem byteEntry_holds {h : Nat} {x : Byte} (k : Byte) (hx : σ.hdr h = .int .w64 x.toNat) :
    (cmpEntry h .eq (matchConst (k.toNat : Nat) .w64)).holds σ = decide (x = k) := by
  have hk : k.toNat < 2 ^ 64 := Nat.lt_trans k.isLt (by decide)
  simp only [MatchEntry.holds, cmpEntry, hx, matchConst_eval hk, Cmp.eval, beq_self_eq_true,
    Bool.true_and]
  rw [Bool.eq_iff_iff, beq_iff_eq, decide_eq_true_iff, BitVec.toNat_inj]

/-- The entries of a hit hold when the slot holds the key. -/
theorem hitEntries_all (h : Scanned mi R key tKey b σ) (hi : i < mi.nslots) :
    (hitEntries (presHdrs mi b) (tagHdrs mi b) tKey i).all (MatchEntry.holds σ) =
      ((mi.table R).slot i).holds key := by
  have hpres : (cmpEntry (hTmp (b + 1 + i)) .eq (matchConst 1 .w64)).holds σ = decide (R i = 1) :=
    byteEntry_holds 1 (h.presence i hi)
  have htag : (cmpEntry (hTmp (b + 1 + mi.nslots + i)) .eq (matchHeader tKey)).holds σ =
      decide (mi.tagOf R i = key) := by
    simp only [MatchEntry.holds, cmpEntry, h.tag i hi, matchHeader, MatchVal.eval, h.key, Cmp.eval,
      beq_self_eq_true, Bool.true_and]
    rw [Bool.eq_iff_iff, beq_iff_eq, decide_eq_true_iff]
  rw [hitEntries, presHdrs_getD hi, tagHdrs_getD hi, MapInfo.table_slot hi, MapInfo.slotOf_holds]
  simp only [List.all_cons, List.all_nil, Bool.and_true, hpres, htag]

/-- The entry of an insert holds when the slot is free. -/
theorem freeEntries_all (h : Scanned mi R key tKey b σ) (hi : i < mi.nslots) :
    [cmpEntry ((presHdrs mi b).getD i 0) .eq (matchConst 0 .w64)].all (MatchEntry.holds σ) =
      ((mi.table R).slot i).isFree := by
  have hpres : (cmpEntry (hTmp (b + 1 + i)) .eq (matchConst 0 .w64)).holds σ = decide (R i = 0) :=
    byteEntry_holds 0 (h.presence i hi)
  rw [presHdrs_getD hi, MapInfo.table_slot hi, MapInfo.slotOf_isFree]
  simp only [List.all_cons, List.all_nil, Bool.and_true, hpres]

/-- The arm of a lookup is that of the slot found, or the miss. -/
theorem lookupArms_find? {arm : Arm} (h : Scanned mi R key tKey b σ)
    (harm : (lookupArms mi tKey b).find? (fun a => a.1.all (MatchEntry.holds σ)) = some arm) :
    (∃ i, (mi.table R).hit key = some i ∧ arm.2 = [constOp (hReg 0) (mi.valueOff i)]) ∨
      (mi.table R).hit key = none ∧ arm.2 = [zeroOp (hReg 0)] := by
  have hfind : (List.range mi.nslots).find? (fun i =>
      (hitEntries (presHdrs mi b) (tagHdrs mi b) tKey i).all (MatchEntry.holds σ)) =
        (mi.table R).hit key :=
    List.find?_congr fun i hi => hitEntries_all h (List.mem_range.mp hi)
  rw [lookupArms, List.find?_append, List.find?_map] at harm
  simp only [Function.comp_def, hfind] at harm
  cases hhit : (mi.table R).hit key with
  | some i =>
    rw [hhit] at harm
    obtain rfl := Option.some.inj harm
    exact .inl ⟨i, rfl, rfl⟩
  | none =>
    rw [hhit] at harm
    obtain rfl := Option.some.inj harm
    exact .inr ⟨rfl, rfl⟩

/-- Where the read of the key gave an error, no slot matches: the arm of a lookup is the
miss. -/
theorem lookupArms_find?_error {arm : Arm} (hkey : σ.hdr tKey = .error)
    (harm : (lookupArms mi tKey b).find? (fun a => a.1.all (MatchEntry.holds σ)) = some arm) :
    arm.2 = [zeroOp (hReg 0)] := by
  have hhits : ((List.range mi.nslots).map fun i =>
      (hitEntries (presHdrs mi b) (tagHdrs mi b) tKey i, [constOp (hReg 0) (mi.valueOff i)])).find?
        (fun a => a.1.all (MatchEntry.holds σ)) = none := by
    refine List.find?_eq_none.mpr fun a ha => ?_
    obtain ⟨i, _, rfl⟩ := List.mem_map.mp ha
    have htag : ∀ v, Cmp.eval .eq v .error = false := fun v => by cases v <;> rfl
    simp [hitEntries, MatchEntry.holds, cmpEntry, matchHeader, MatchVal.eval, hkey, htag]
  rw [lookupArms, List.find?_append, hhits, Option.none_or] at harm
  obtain rfl := Option.some.inj harm
  rfl

/-- The first arm of a family whose entries hold, where `q` says which do. -/
theorem armsOf_find? {P : Nat → List Op → Prop} {entries : Nat → List MatchEntry} {is : List Nat}
    {os : List (List Op)} {q : Nat → Bool} (h : List.Forall₂ P is os)
    (hq : ∀ i ∈ is, (entries i).all (MatchEntry.holds σ) = q i) :
    is.find? q = none ∧
        (armsOf entries is os).find? (fun a => a.1.all (MatchEntry.holds σ)) = none ∨
      ∃ i o, is.find? q = some i ∧ P i o ∧
        (armsOf entries is os).find? (fun a => a.1.all (MatchEntry.holds σ)) =
          some (entries i, o) := by
  induction h with
  | nil => exact .inl ⟨rfl, rfl⟩
  | @cons i o is os hfirst _ ih =>
    simp only [armsOf, List.zipWith_cons_cons, List.find?_cons, hq i (by simp)]
    cases q i with
    | true => exact .inr ⟨i, o, rfl, hfirst, rfl⟩
    | false => exact ih fun j hj => hq j (by simp [hj])

end Arms

/-- The arm of an update is that of the slot the update writes, or a refusal. -/
theorem updateArms_find? {mark tTag : Nat} {overs inserts : List (List Op)} {arm : Arm}
    (h : Scanned mr.mi R key tKey b σ)
    (hfull : σ.hdr (hTmp (b + 3 + 2 * mr.mi.nslots)) = .int .w64 (R mr.mi.fullOff).toNat)
    (hovers : SlotArms c t mr vp kw tTag mark false (List.range mr.mi.nslots) overs)
    (hinserts : SlotArms c t mr vp kw tTag mark true (List.range mr.mi.nslots) inserts)
    (harm : (updateArms mr.mi tKey b overs inserts).find?
      (fun a => a.1.all (MatchEntry.holds σ)) = some arm) :
    (∃ i insert t₁ t₂ copy, (mr.mi.table R).dest (mr.mi.closed R) key = some i ∧
        (insert = false → (mr.mi.table R).hit key = some i) ∧ t.Grows t₁ ∧ t₁.tmpNext = mark ∧
        ValueCopy c t₁ vp mr (konstN (mr.mi.valueOff i)) t₂ copy ∧
        arm.2 = slotOps mr kw tTag insert i copy) ∨
      (mr.mi.table R).dest (mr.mi.closed R) key = none ∧ arm.2 = [constOp (hReg 0) (-e2big)] := by
  have hcap : [cmpEntry (hTmp (b + 3 + 2 * mr.mi.nslots)) .eq (matchConst 1 .w64)].all
      (MatchEntry.holds σ) = mr.mi.closed R := by
    have : (cmpEntry (hTmp (b + 3 + 2 * mr.mi.nslots)) .eq (matchConst 1 .w64)).holds σ =
        decide (R mr.mi.fullOff = 1) := byteEntry_holds 1 hfull
    simp [this, MapInfo.closed]
  rw [updateArms, List.find?_append] at harm
  rcases armsOf_find? hovers fun i hi => hitEntries_all h (List.mem_range.mp hi) with
    ⟨hmiss, hnone⟩ | ⟨i, o, hhit, ⟨t₁, t₂, copy, hg, hmark, hcopy, rfl⟩, hsome⟩
  · -- no slot holds the key: the capacity byte decides, then the free slots
    have hdest : (mr.mi.table R).dest (mr.mi.closed R) key =
        if mr.mi.closed R then none else (mr.mi.table R).firstFree := SlotTable.dest_of_miss hmiss
    rw [hnone, Option.none_or, List.find?_cons, hcap] at harm
    cases hclosed : mr.mi.closed R with
    | true =>
      rw [hclosed] at harm hdest
      obtain rfl := Option.some.inj harm
      exact .inr ⟨hdest, rfl⟩
    | false =>
      rw [hclosed] at harm hdest
      rw [List.find?_append] at harm
      rcases armsOf_find? hinserts fun i hi => freeEntries_all h (List.mem_range.mp hi) with
        ⟨hfree, hnone⟩ | ⟨i, o, hfree, ⟨t₁, t₂, copy, hg, hmark, hcopy, rfl⟩, hsome⟩
      · rw [hnone] at harm
        obtain rfl := Option.some.inj harm
        exact .inr ⟨hdest.trans hfree, rfl⟩
      · rw [hsome] at harm
        obtain rfl := Option.some.inj harm
        exact .inl ⟨i, true, t₁, t₂, copy, hdest.trans hfree, by simp, hg, hmark, hcopy, rfl⟩
  · rw [hsome] at harm
    obtain rfl := Option.some.inj harm
    exact .inl ⟨i, false, t₁, t₂, copy, SlotTable.dest_of_hit hhit, fun _ => hhit, hg, hmark,
      hcopy, rfl⟩

end Ect
