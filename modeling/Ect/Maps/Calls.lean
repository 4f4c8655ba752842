-- SUMMARY: Accepted map helper calls, taken apart: which map, which checks passed, and which arms.
import Ect.Ir.Semantics
import Ect.Translate.Growth

/-!
# Accepted map calls

The two helpers refuse a call in many ways. An accepted call names a modelled map,
passed every check, and has arms that end with one that always holds.
-/

namespace Ect

open TransM

variable {c : Config} {t t' : Translator} {ops : List Op} {idx : Nat} {kw : Width}
  {st st' : AbsState}

/-- The state a helper starts emitting from: the scratch pool is reset and the call
site counted. -/
def Translator.called (t : Translator) (m : Nat) : Translator :=
  { t with
    tmpNext := 0
    mapSites := fun m' => if m' = m then t.mapSites m + 1 else t.mapSites m' }

theorem Translator.called_grows (t : Translator) (m : Nat) : t.Grows (t.called m) := .of_eq rfl rfl

/-! ## Checks -/

theorem checkMapModelled_accepts {mi : MapInfo} {b : Bool}
    (h : (checkMapModelled idx mi).Accepts c t b t' ops) :
    b = true ∧ t' = t ∧ ops = [] ∧ (mi.family = some .array ∨ mi.family = some .hash) := by
  unfold checkMapModelled at h
  split at h
  · simp at h
  · simp at h
  · rename_i f hf hlru
    obtain ⟨rfl, rfl, rfl⟩ := accepts_pure.mp h
    refine ⟨rfl, rfl, rfl, ?_⟩
    cases f with
    | array => exact .inl hlru
    | hash => exact .inr hlru
    | lru => exact absurd rfl hf

theorem checkArrayKey_accepts {mi : MapInfo} {key : Option Nat} {b : Bool}
    (h : (checkArrayKey idx mi key).Accepts c t b t' ops) :
    b = true ∧ t' = t ∧ ops = [] ∧ (key = none → mi.maxEntries ≤ mi.nslots) ∧
      ∀ k, key = some k → k < mi.nslots := by
  unfold checkArrayKey at h
  split at h
  · split at h
    · simp at h
    · rename_i hle
      obtain ⟨rfl, rfl, rfl⟩ := accepts_pure.mp h
      exact ⟨rfl, rfl, rfl, fun _ => by omega, by simp⟩
  · split at h
    · simp at h
    · rename_i hlt
      obtain ⟨rfl, rfl, rfl⟩ := accepts_pure.mp h
      exact ⟨rfl, rfl, rfl, by simp, fun k hk => by simp at hk; omega⟩

/-- The map of a known map pointer is one of the configured maps. -/
theorem mapOf_some {maps : List MapInfo} {mp : RegInfo} {mr : MapRef}
    (h : mapOf maps mp = some mr) :
    mp.tag = .map ∧ mp.mapidx = mr.m ∧ maps[mr.m]? = some mr.mi := by
  unfold mapOf at h
  split at h
  · cases h
  · rename_i hmap
    simp only [not_or, not_not, not_lt] at hmap
    obtain ⟨mi, hmi, rfl⟩ := Option.map_eq_some_iff.mp h
    exact ⟨hmap.1, by simp; omega, hmi⟩

/-! ## Keys -/

/-- Where an accepted call reads its key. -/
inductive KeyRead (c : Config) (t : Translator) (kp : RegInfo) (kw : Width) :
    Translator → List Op → Prop where
  /-- From the header of a stack slot. -/
  | stack {t' : Translator} {sh : Nat} (htag : kp.tag = .stack) (hoff : kp.offKnown = true)
      (hlo : 0 ≤ -kp.off) (hhi : -kp.off ≤ bpfStackSize)
      (hsh : t'.stackHdrOf (-kp.off).toNat = some sh) (hne : sh ≠ 0)
      (hgrows : t.Grows t') (htmp : t'.tmpNext = t.tmpNext + 1)
      (hslot : sh = t.slotHdr (-kp.off).toNat) :
      KeyRead c t kp kw t' [.cast kw .w64 (hdr sh) (hTmp t.tmpNext)]
  /-- From a region. -/
  | region (htag : kp.tag ≠ .stack) (hregion : regionOf c.maps kp ≠ regionNone)
      (htmp : t.tmpNext + 1 < numTmps) :
      KeyRead c t kp kw { t with tmpNext := t.tmpNext + 2 }
        [.load kw (regionOf c.maps kp) (hdr (hReg 2)) (hTmp (t.tmpNext + 1)),
          .cast kw .w64 (hdr (hTmp (t.tmpNext + 1))) (hTmp t.tmpNext)]

theorem readMapKey_accepts {kp : RegInfo} {r : Option Nat}
    (h : (readMapKey idx kp kw).Accepts c t r t' ops) :
    t.tmpNext < numTmps ∧ r = some (hTmp t.tmpNext) ∧ KeyRead c t kp kw t' ops := by
  unfold readMapKey at h
  obtain ⟨_, _, _, hfresh, _, h₁, rfl⟩ := accepts_bind.mp h
  obtain ⟨hlt, rfl, rfl, rfl⟩ := accepts_freshTmp.mp hfresh
  split at h₁
  · rename_i htag
    split at h₁
    · simp at h₁
    · rename_i hoff
      obtain ⟨sh, t₁, _, hsh, _, h₂, rfl⟩ := accepts_bind.mp h₁
      obtain ⟨rfl, hgrows, htmp, hslot⟩ := stackHeader_accepts hsh
      split at h₂
      · simp at h₂
      · rename_i hne
        simp only [accepts_bind, accepts_cast, accepts_pure] at h₂
        obtain ⟨_, _, _, ⟨rfl, rfl⟩, _, ⟨rfl, rfl, rfl⟩, rfl⟩ := h₂
        obtain ⟨hlo, hhi, hsome⟩ := hslot.resolve_left (fun h => hne h.2)
        have hfirst : t.Grows { t with tmpNext := t.tmpNext + 1 } := .of_eq rfl rfl
        have hhdr : sh = t.slotHdr (-kp.off).toNat := (stackHeader_slotHdr hsh hlo hhi :)
        exact ⟨hlt, rfl, .stack htag (by simpa using hoff) hlo hhi hsome hne
          (hfirst.trans hgrows) (by simpa using htmp) hhdr⟩
  · rename_i htag
    obtain ⟨_, _, _, hc, _, h₂, rfl⟩ := accepts_bind.mp h₁
    obtain ⟨rfl, rfl, rfl⟩ := accepts_config.mp hc
    dsimp only at h₂
    split at h₂
    · simp at h₂
    · rename_i hregion
      simp only [accepts_bind, accepts_freshTmp, accepts_load, accepts_cast, accepts_pure] at h₂
      obtain ⟨_, _, _, ⟨hlt', rfl, rfl, rfl⟩, _, ⟨_, _, _, ⟨rfl, rfl⟩, _, ⟨_, _, _, ⟨rfl, rfl⟩, _,
        ⟨rfl, rfl, rfl⟩, rfl⟩, rfl⟩, rfl⟩ := h₂
      exact ⟨hlt, rfl, .region htag hregion hlt'⟩

/-! ## Arms that end with a default -/

/-- The arms end with one that always holds. -/
def HasDefault (arms : List Arm) : Prop := ∃ pre ops, arms = pre ++ [([], ops)]

theorem HasDefault.singleton (ops : List Op) : HasDefault [([], ops)] := ⟨[], ops, rfl⟩

theorem HasDefault.append (pre : List Arm) {arms : List Arm} (h : HasDefault arms) :
    HasDefault (pre ++ arms) := by
  obtain ⟨pre', ops, rfl⟩ := h
  exact ⟨pre ++ pre', ops, (List.append_assoc _ _ _).symm⟩

/-- Whatever the state, some arm is taken. -/
theorem HasDefault.find? {arms : List Arm} (h : HasDefault arms) (σ : State) :
    ∃ arm, arms.find? (fun a => a.1.all (MatchEntry.holds σ)) = some arm := by
  obtain ⟨pre, ops, rfl⟩ := h
  simp only [List.find?_append]
  cases pre.find? (fun a => a.1.all (MatchEntry.holds σ)) with
  | some arm => exact ⟨arm, rfl⟩
  | none => exact ⟨([], ops), rfl⟩

theorem emitSlot_accepts_some {mi : MapInfo} {kp : RegInfo} {r : Option (Nat × Option Nat)}
    (h : (emitSlot idx mi kp st kw).Accepts c t r t' ops) : ∃ p, r = some p := by
  unfold emitSlot at h
  obtain ⟨_, _, _, h⟩ := h.tail
  split at h
  · obtain ⟨_, _, _, h⟩ := h.tail
    exact ⟨_, (accepts_pure.mp h).1⟩
  · obtain ⟨_, _, _, hkey, _, h, _⟩ := accepts_bind.mp h
    obtain ⟨_, rfl, _⟩ := readMapKey_accepts hkey
    obtain ⟨_, _, _, h⟩ := h.tail
    exact ⟨_, (accepts_pure.mp h).1⟩

theorem emitArrayLookup_accepts_some {mi : MapInfo} {kp : RegInfo} {r : Option (List Arm)}
    (h : (emitArrayLookup idx mi kp st kw).Accepts c t r t' ops) :
    ∃ arms, r = some arms ∧ HasDefault arms := by
  unfold emitArrayLookup at h
  obtain ⟨_, _, _, hcheck, _, h, _⟩ := accepts_bind.mp h
  obtain ⟨rfl, _⟩ := checkArrayKey_accepts hcheck
  rw [if_neg (by decide)] at h
  obtain ⟨_, _, _, hslot, _, h, _⟩ := accepts_bind.mp h
  obtain ⟨⟨tSlot, const⟩, rfl⟩ := emitSlot_accepts_some hslot
  obtain ⟨_, _, _, h⟩ := h.tail
  obtain ⟨_, _, _, h⟩ := h.tail
  obtain ⟨_, _, _, h⟩ := h.tail
  cases const with
  | some key => exact ⟨_, (accepts_pure.mp h).1, .append [_] (.singleton _)⟩
  | none =>
    obtain ⟨_, _, _, h⟩ := h.tail
    obtain ⟨_, _, _, h⟩ := h.tail
    exact ⟨_, (accepts_pure.mp h).1, .append [_] (.singleton _)⟩

theorem emitTaggedLookup_accepts_some {mr : MapRef} {kp : RegInfo} {r : Option (List Arm)}
    (h : (emitTaggedLookup idx mr kp kw).Accepts c t r t' ops) :
    ∃ arms, r = some arms ∧ HasDefault arms := by
  unfold emitTaggedLookup at h
  obtain ⟨_, _, _, hkey, _, h, _⟩ := accepts_bind.mp h
  obtain ⟨_, rfl, _⟩ := readMapKey_accepts hkey
  obtain ⟨_, _, _, h⟩ := h.tail
  exact ⟨_, (accepts_pure.mp h).1, .append _ (.singleton _)⟩

/-! ## Lookup calls -/

/-- An accepted lookup call on the map `mr`, and its arms. -/
structure LookupCall (c : Config) (idx : Nat) (st : AbsState) (t t' : Translator) (ops : List Op)
    (mr : MapRef) (arms : List Arm) : Prop where
  map : mapOf c.maps (st.reg 1) = some mr
  family : mr.mi.family = some .array ∨ mr.mi.family = some .hash
  keySize : keySizeModelled mr.mi = true
  scan : (if mr.mi.isArray then emitArrayLookup idx mr.mi (st.reg 2) st (widthName mr.mi.keySize)
    else emitTaggedLookup idx mr (st.reg 2) (widthName mr.mi.keySize)).Accepts c
      (t.called mr.m) (some arms) t' ops
  default : HasDefault arms

theorem emitMapLookup_accepts {r : Option (List Arm)}
    (h : (emitMapLookup idx st).Accepts c t (r, st') t' ops) :
    ∃ mr arms, r = some arms ∧ LookupCall c idx st t t' ops mr arms ∧
      st' = (st.setReg 0 (mapPointer .mapval 0 mr.m)).clobber := by
  unfold emitMapLookup at h
  obtain ⟨_, _, _, hc, _, h₁, rfl⟩ := accepts_bind.mp h
  obtain ⟨rfl, rfl, rfl⟩ := accepts_config.mp hc
  dsimp only at h₁
  split at h₁
  · simp at h₁
  · rename_i mr hmap
    obtain ⟨_, _, _, hcheck, _, h₂, rfl⟩ := accepts_bind.mp h₁
    obtain ⟨rfl, rfl, rfl, hfamily⟩ := checkMapModelled_accepts hcheck
    rw [if_neg (by decide)] at h₂
    split at h₂
    · simp at h₂
    · rename_i hks
      have hks : keySizeModelled mr.mi = true := by simpa using hks
      obtain ⟨_, _, _, hreset, _, h₃, rfl⟩ := accepts_bind.mp h₂
      obtain ⟨rfl, rfl⟩ := accepts_setTmpNext.mp hreset
      obtain ⟨_, _, _, hcount, _, h₄, rfl⟩ := accepts_bind.mp h₃
      obtain ⟨rfl, rfl⟩ := accepts_modify.mp hcount
      split at h₄ <;> rename_i harray <;>
        obtain ⟨_, _, _, hscan, _, h₅, rfl⟩ := accepts_bind.mp h₄
      · obtain ⟨arms, rfl, hdef⟩ := emitArrayLookup_accepts_some hscan
        obtain ⟨hr, rfl, rfl⟩ := accepts_pure.mp h₅
        obtain ⟨rfl, rfl⟩ := Prod.mk.inj hr
        refine ⟨mr, arms, rfl, ⟨hmap, hfamily, hks, ?_, hdef⟩, rfl⟩
        rw [if_pos harray]
        simpa [Translator.called] using hscan
      · obtain ⟨arms, rfl, hdef⟩ := emitTaggedLookup_accepts_some hscan
        obtain ⟨hr, rfl, rfl⟩ := accepts_pure.mp h₅
        obtain ⟨rfl, rfl⟩ := Prod.mk.inj hr
        refine ⟨mr, arms, rfl, ⟨hmap, hfamily, hks, ?_, hdef⟩, rfl⟩
        rw [if_neg harray]
        simpa [Translator.called] using hscan

/-! ## Update calls -/

/-- The source of an accepted copy and its shape. -/
inductive ValueCopy (c : Config) (t : Translator) (vp : RegInfo) (mr : MapRef) (dst : Operand) :
    Translator → List Op → Prop where
  /-- A stack slot is written out in one store. -/
  | stack {t' : Translator} {sh : Nat} (htag : vp.tag = .stack)
      (hsize : copySizeModelled mr.mi.valueSize = true) (hoff : vp.offKnown = true)
      (hlo : 0 ≤ -vp.off) (hhi : -vp.off ≤ bpfStackSize)
      (hsh : t'.stackHdrOf (-vp.off).toNat = some sh) (hgrows : t.Grows t')
      (htmp : t'.tmpNext = t.tmpNext) :
      ValueCopy c t vp mr dst t' [.store (widthName mr.mi.valueSize) mr.region dst (hdr sh)]
  /-- A region source of an access width is one load and one store. -/
  | wide (htag : vp.tag ≠ .stack) (hregion : regionOf c.maps vp ≠ regionNone)
      (hsize : copySizeModelled mr.mi.valueSize = true) (htmp : t.tmpNext < numTmps) :
      ValueCopy c t vp mr dst { t with tmpNext := t.tmpNext + 1 }
        [.load (widthName mr.mi.valueSize) (regionOf c.maps vp) (hdr (hReg 3)) (hTmp t.tmpNext),
          .store (widthName mr.mi.valueSize) mr.region dst (hdr (hTmp t.tmpNext))]
  /-- Anything wider is copied a byte at a time. -/
  | bytes {ops : List Op} {t' : Translator} (htag : vp.tag ≠ .stack)
      (hregion : regionOf c.maps vp ≠ regionNone)
      (hsize : copySizeModelled mr.mi.valueSize = false) (hmax : mr.mi.valueSize ≤ mapMaxValueCopy)
      (htmp : t.tmpNext + 2 < numTmps)
      (hops : (emitCopyBytes (regionOf c.maps vp) mr.region dst (hTmp t.tmpNext)
        (hTmp (t.tmpNext + 1)) (hTmp (t.tmpNext + 2)) (List.range mr.mi.valueSize)).Accepts c
          { t with tmpNext := t.tmpNext + 3 } () t' ops) :
      ValueCopy c t vp mr dst t' ops

theorem copyMapValue_accepts {vp : RegInfo} {mr : MapRef} {dst : Operand} {b : Bool}
    (h : (copyMapValue idx vp mr dst).Accepts c t b t' ops) :
    b = true ∧ ValueCopy c t vp mr dst t' ops := by
  unfold copyMapValue at h
  obtain ⟨_, _, _, hc, _, h₁, rfl⟩ := accepts_bind.mp h
  obtain ⟨rfl, rfl, rfl⟩ := accepts_config.mp hc
  dsimp only at h₁
  split at h₁
  · rename_i htag
    split at h₁
    · simp at h₁
    · rename_i hsize
      split at h₁
      · simp at h₁
      · rename_i hoff
        obtain ⟨sh, t₁, _, hsh, _, h₂, rfl⟩ := accepts_bind.mp h₁
        obtain ⟨rfl, hgrows, htmp, hslot⟩ := stackHeader_accepts hsh
        split at h₂
        · simp at h₂
        · rename_i hne
          simp only [accepts_bind, accepts_store, accepts_pure] at h₂
          obtain ⟨_, _, _, ⟨rfl, rfl⟩, _, ⟨rfl, rfl, rfl⟩, rfl⟩ := h₂
          obtain ⟨hlo, hhi, hsome⟩ := hslot.resolve_left (fun h => hne h.2)
          exact ⟨rfl, .stack htag (by simpa using hsize) (by simpa using hoff) hlo hhi hsome
            hgrows htmp⟩
  · rename_i htag
    split at h₁
    · simp at h₁
    · rename_i hregion
      split at h₁
      · rename_i hsize
        simp only [accepts_bind, accepts_freshTmp, accepts_load, accepts_store, accepts_pure] at h₁
        obtain ⟨_, _, _, ⟨hlt, rfl, rfl, rfl⟩, _, ⟨_, _, _, ⟨rfl, rfl⟩, _, ⟨_, _, _, ⟨rfl, rfl⟩, _,
          ⟨rfl, rfl, rfl⟩, rfl⟩, rfl⟩, rfl⟩ := h₁
        exact ⟨rfl, .wide htag hregion hsize hlt⟩
      · rename_i hsize
        split at h₁
        · simp at h₁
        · rename_i hmax
          simp only [accepts_bind, accepts_freshTmp, accepts_pure] at h₁
          obtain ⟨_, _, _, ⟨_, rfl, rfl, rfl⟩, _, ⟨_, _, _, ⟨_, rfl, rfl, rfl⟩, _, ⟨_, _, _,
            ⟨hlt, rfl, rfl, rfl⟩, _, ⟨⟨⟩, _, _, hops, _, ⟨rfl, rfl, rfl⟩, rfl⟩,
            rfl⟩, rfl⟩, rfl⟩ := h₁
          exact ⟨rfl, .bytes htag hregion (by simpa using hsize) (by omega) hlt
            (by simpa using hops)⟩

theorem armOps_accepts_some {mr : MapRef} {vp : RegInfo} {tTag mark : Nat} {insert : Bool} {i : Nat}
    {r : Option (List Op)} (h : (armOps idx mr vp kw tTag mark insert i).Accepts c t r t' ops) :
    ∃ o, r = some o := by
  unfold armOps at h
  obtain ⟨_, _, _, h₁⟩ := h.tail
  obtain ⟨⟨ok, o⟩, _, _, hcap, _, h₂, _⟩ := accepts_bind.mp h₁
  obtain ⟨hrun, _⟩ := accepts_capture.mp hcap
  have hok : ok = true := by
    dsimp only at hrun
    split at hrun
    · obtain ⟨_, _, _, h₃⟩ := hrun.tail
      obtain ⟨_, _, _, h₄⟩ := h₃.tail
      obtain ⟨_, _, _, hcopy, _, h₅, _⟩ := accepts_bind.mp h₄
      obtain ⟨rfl, _⟩ := copyMapValue_accepts hcopy
      obtain ⟨_, _, _, h₆⟩ := h₅.tail
      exact (accepts_pure.mp h₆).1
    · obtain ⟨_, _, _, hcopy, _, h₅, _⟩ := accepts_bind.mp hrun
      obtain ⟨rfl, _⟩ := copyMapValue_accepts hcopy
      obtain ⟨_, _, _, h₆⟩ := h₅.tail
      exact (accepts_pure.mp h₆).1
  subst hok
  exact ⟨o, (accepts_pure.mp h₂).1⟩

theorem slotArms_accepts_some {arm : Nat → TransM (Option (List Op))}
    {entries : Nat → List MatchEntry} {is : List Nat} {r : Option (List Arm)}
    (harm : ∀ {i t r t' ops}, (arm i).Accepts c t r t' ops → ∃ o, r = some o)
    (h : (slotArms arm entries is).Accepts c t r t' ops) : ∃ arms, r = some arms := by
  induction is generalizing t t' r ops with
  | nil => exact ⟨[], (accepts_pure.mp h).1⟩
  | cons i is ih =>
    unfold slotArms at h
    obtain ⟨_, _, _, hfirst, _, h₁, _⟩ := accepts_bind.mp h
    obtain ⟨o, rfl⟩ := harm hfirst
    obtain ⟨_, _, _, hrest, _, h₂, _⟩ := accepts_bind.mp h₁
    obtain ⟨arms, rfl⟩ := ih hrest
    exact ⟨_, (accepts_pure.mp h₂).1⟩

theorem emitTaggedUpdate_accepts_some {mr : MapRef} {kp vp : RegInfo} {r : Option (List Arm)}
    (h : (emitTaggedUpdate idx mr kp vp kw).Accepts c t r t' ops) :
    ∃ arms, r = some arms ∧ HasDefault arms := by
  unfold emitTaggedUpdate at h
  obtain ⟨_, _, _, hkey, _, h₁, _⟩ := accepts_bind.mp h
  obtain ⟨_, rfl, _⟩ := readMapKey_accepts hkey
  obtain ⟨⟨pres, tags⟩, _, _, h₂⟩ := h₁.tail
  dsimp only at h₂
  iterate 7 (replace h₂ := h₂.tail; obtain ⟨_, _, _, h₂⟩ := h₂)
  obtain ⟨_, _, _, hover, _, h₃, _⟩ := accepts_bind.mp h₂
  obtain ⟨overwrites, rfl⟩ := slotArms_accepts_some armOps_accepts_some hover
  obtain ⟨_, _, _, hins, _, h₄, _⟩ := accepts_bind.mp h₃
  obtain ⟨inserts, rfl⟩ := slotArms_accepts_some armOps_accepts_some hins
  exact ⟨_, (accepts_pure.mp h₄).1, .append overwrites
    (.append [_] (.append inserts (.singleton _)))⟩

/-- An accepted update call: its arms, and the state after it. -/
inductive UpdateCall (c : Config) (idx : Nat) (st : AbsState) (t : Translator) :
    Option (List Arm) → AbsState → Translator → List Op → Prop where
  /-- A constant key outside an array: nothing is written. -/
  | outOfRange {mr : MapRef} {k : Nat} (hmap : mapOf c.maps (st.reg 1) = some mr)
      (harray : mr.mi.isArray = true) (hkey : constKey (st.reg 2) st = some k)
      (hk : mr.mi.maxEntries ≤ k) :
      UpdateCall c idx st t none (st.setReg 0 .scalar).clobber t [setOp (hReg 0) (-e2big)]
  | array {mr : MapRef} {k : Nat} {st' : AbsState} {t' : Translator} {ops : List Op}
      (hmap : mapOf c.maps (st.reg 1) = some mr) (harray : mr.mi.isArray = true)
      (hkey : constKey (st.reg 2) st = some k) (hk : k < mr.mi.maxEntries)
        (hslot : k < mr.mi.nslots)
      (hflags : (st.reg 4).tag = .scalar ∧ (st.reg 4).const = some 0)
      (hscan : (emitArrayUpdate idx mr (st.reg 2) (st.reg 3) st (widthName mr.mi.keySize)).Accepts c
        (t.called mr.m) st' t' ops) :
      UpdateCall c idx st t none st' t' ops
  | hash {mr : MapRef} {arms : List Arm} {t' : Translator} {ops : List Op}
      (hmap : mapOf c.maps (st.reg 1) = some mr) (hfamily : mr.mi.family = some .hash)
      (hsize : keySizeModelled mr.mi = true)
      (hflags : (st.reg 4).tag = .scalar ∧ (st.reg 4).const = some 0)
      (hscan : (emitTaggedUpdate idx mr (st.reg 2) (st.reg 3) (widthName mr.mi.keySize)).Accepts c
        (t.called mr.m) (some arms) t' ops)
      (hdef : HasDefault arms) :
      UpdateCall c idx st t (some arms) (st.clobber.setReg 0 .scalar) t' ops

theorem emitMapUpdate_accepts {r : Option (List Arm)}
    (h : (emitMapUpdate idx st).Accepts c t (r, st') t' ops) :
    UpdateCall c idx st t r st' t' ops := by
  unfold emitMapUpdate at h
  obtain ⟨_, _, _, hc, _, h₁, rfl⟩ := accepts_bind.mp h
  obtain ⟨rfl, rfl, rfl⟩ := accepts_config.mp hc
  dsimp only at h₁
  split at h₁
  · simp at h₁
  rename_i mr hmap
  obtain ⟨_, _, _, hcheck, _, h₂, rfl⟩ := accepts_bind.mp h₁
  obtain ⟨rfl, rfl, rfl, hfamily⟩ := checkMapModelled_accepts hcheck
  rw [if_neg (by decide)] at h₂
  split at h₂
  · simp at h₂
  rename_i hks
  have hks : keySizeModelled mr.mi = true := by simpa using hks
  split at h₂
  · -- an array map: the key is a constant that has a slot
    rename_i harray
    obtain ⟨_, _, _, hkey, _, h₃, rfl⟩ := accepts_bind.mp h₂
    obtain ⟨rfl, rfl, rfl, _, hslot⟩ := checkArrayKey_accepts hkey
    rw [if_neg (by decide)] at h₃
    split at h₃
    · simp at h₃
    rename_i hconst
    obtain ⟨k, hk⟩ : ∃ k, constKey (st.reg 2) st = some k := by
      cases hck : constKey (st.reg 2) st with
      | none => exact absurd ⟨harray, hck⟩ hconst
      | some k => exact ⟨k, rfl⟩
    split at h₃
    · rename_i hmax
      simp only [accepts_bind, accepts_set, accepts_pure] at h₃
      obtain ⟨_, _, _, ⟨rfl, rfl⟩, _, ⟨hr, rfl, rfl⟩, rfl⟩ := h₃
      obtain ⟨rfl, rfl⟩ := Prod.mk.inj hr
      exact .outOfRange hmap harray hk (by simpa [hk] using hmax.2)
    rename_i hmax
    split at h₃
    · simp at h₃
    split at h₃
    · simp at h₃
    rename_i hflag hzero
    have hflags : (st.reg 4).tag = .scalar ∧ (st.reg 4).const = some 0 := by
      simp only [not_or, not_not] at hflag hzero
      exact ⟨hflag.1, hzero⟩
    unfold emitMapWrite at h₃
    simp only [accepts_bind, accepts_setTmpNext] at h₃
    obtain ⟨_, _, _, ⟨rfl, rfl⟩, _, ⟨_, _, _, hcount, _, h₄, rfl⟩, rfl⟩ := h₃
    obtain ⟨rfl, rfl⟩ := accepts_modify.mp hcount
    rw [if_pos harray] at h₄
    obtain ⟨_, _, _, hscan, _, h₅, rfl⟩ := accepts_bind.mp h₄
    obtain ⟨hr, rfl, rfl⟩ := accepts_pure.mp h₅
    obtain ⟨rfl, rfl⟩ := Prod.mk.inj hr
    refine .array hmap harray hk ?_ (hslot k hk) hflags (by simpa [Translator.called] using hscan)
    simp only [hk, Option.getD_some, not_and, not_le] at hmax
    exact hmax harray
  · -- a hash map
    rename_i harray
    obtain ⟨_, _, _, hkey, _, h₃, rfl⟩ := accepts_bind.mp h₂
    obtain ⟨rfl, rfl, rfl⟩ := accepts_pure.mp hkey
    rw [if_neg (by decide)] at h₃
    rw [if_neg (by simp [harray]), if_neg (by simp [harray])] at h₃
    split at h₃
    · simp at h₃
    split at h₃
    · simp at h₃
    rename_i hflag hzero
    have hflags : (st.reg 4).tag = .scalar ∧ (st.reg 4).const = some 0 := by
      simp only [not_or, not_not] at hflag hzero
      exact ⟨hflag.1, hzero⟩
    unfold emitMapWrite at h₃
    simp only [accepts_bind, accepts_setTmpNext] at h₃
    obtain ⟨_, _, _, ⟨rfl, rfl⟩, _, ⟨_, _, _, hcount, _, h₄, rfl⟩, rfl⟩ := h₃
    obtain ⟨rfl, rfl⟩ := accepts_modify.mp hcount
    rw [if_neg harray] at h₄
    obtain ⟨_, _, _, hscan, _, h₅, rfl⟩ := accepts_bind.mp h₄
    obtain ⟨arms, rfl, hdef⟩ := emitTaggedUpdate_accepts_some hscan
    obtain ⟨hr, rfl, rfl⟩ := accepts_pure.mp h₅
    obtain ⟨rfl, rfl⟩ := Prod.mk.inj hr
    have hhash : mr.mi.family = some .hash := by
      rcases hfamily with hf | hf
      · simp [MapInfo.isArray, hf] at harray
      · exact hf
    exact .hash hmap hhash hks hflags (by simpa [Translator.called] using hscan) hdef

/-! ## Calls -/

theorem translateCall_default {i : Insn} {arms : List Arm}
    (h : (translateCall idx i st).Accepts c t (some arms, st') t' ops) : HasDefault arms := by
  unfold translateCall at h
  split at h
  · simp at h
  · split at h
    · obtain ⟨_, _, hr, hcall, _⟩ := emitMapLookup_accepts h
      obtain rfl := Option.some.inj hr
      exact hcall.default
    · split at h
      · cases emitMapUpdate_accepts h with
        | hash _ _ _ _ _ hdef => exact hdef
      · simp at h

end Ect
