-- SUMMARY: How many slots a map gets does not change which maps a program uses, or how often.
import Ect.Translate.Growth
import Mathlib.Data.List.Forall2

/-!
# Slot budgets

The slots of a tagged map decide how many headers a helper call takes and how many arms it
has. They decide nothing about the abstract states, so two translations that differ in them
alone count the same uses of every map.
-/

namespace Ect

open TransM

/-! ## Maps of other sizes -/

/-- The map has slots, and another number of them only if it is tagged. -/
structure MapInfo.Resized (mi mi' : MapInfo) : Prop where
  same : mi' = { mi with slotsBudget := mi'.slotsBudget }
  fixed : mi.tagged = false → mi' = mi
  budget : 0 < mi.slotsBudget
  budget' : 0 < mi'.slotsBudget

structure Config.Resized (c c' : Config) : Prop where
  ctx : c'.ctx = c.ctx
  insnMapIdx : c'.insnMapIdx = c.insnMapIdx
  maps : List.Forall₂ MapInfo.Resized c.maps c'.maps

namespace MapInfo

variable {mi mi' : MapInfo}

namespace Resized

variable (h : mi.Resized mi')

include h

theorem family : mi'.family = mi.family := by rw [h.same]; rfl
theorem keySize : mi'.keySize = mi.keySize := by rw [h.same]
theorem valueSize : mi'.valueSize = mi.valueSize := by rw [h.same]
theorem isArray : mi'.isArray = mi.isArray := by rw [MapInfo.isArray, h.family]; rfl

/-- An array map keeps its slots. -/
theorem of_isArray (harr : mi.isArray = true) : mi' = mi := by
  refine h.fixed ?_
  rw [MapInfo.isArray, beq_iff_eq] at harr
  rw [tagged, harr]
  rfl

end Resized

end MapInfo

section Maps

variable {c c' : Config} (hc : c.Resized c')

include hc

theorem regionOf_resized (r : RegInfo) : regionOf c'.maps r = regionOf c.maps r := by
  rw [regionOf, regionOf, hc.maps.length_eq]

/-- A register that points at a map points at its resized one. -/
theorem mapOf_resized (r : RegInfo) :
    mapOf c.maps r = none ∧ mapOf c'.maps r = none ∨
      ∃ m mi mi', mapOf c.maps r = some ⟨m, mi⟩ ∧ mapOf c'.maps r = some ⟨m, mi'⟩ ∧
        mi.Resized mi' := by
  rw [mapOf, mapOf]
  split
  · exact .inl ⟨rfl, rfl⟩
  · rcases hlt : c.maps[r.mapidx.toNat]? with _ | mi
    · have hge := List.getElem?_eq_none_iff.mp hlt
      rw [hc.maps.length_eq] at hge
      rw [List.getElem?_eq_none_iff.mpr hge]
      exact .inl ⟨rfl, rfl⟩
    · obtain ⟨hi, rfl⟩ := List.getElem?_eq_some_iff.mp hlt
      have hi' : r.mapidx.toNat < c'.maps.length := hc.maps.length_eq ▸ hi
      rw [List.getElem?_eq_getElem hi']
      exact .inr ⟨_, _, _, rfl, rfl, hc.maps.get hi hi'⟩

end Maps

/-! ## Methods that count nothing -/

namespace TransM

/-- The law that a method counts no use of a map. -/
def uncounted : Law where
  Holds m := ∀ c t a t' o, m c t = .ok (a, t', o) → t'.mapSites = t.mapSites
  pure a := by
    rintro c t _ _ _ ⟨⟩
    rfl
  bind hx hf := by
    intro c t b t' o h
    obtain ⟨a, t₁, _, _, h₁, h₂, _⟩ := ok_bind h
    exact (hf a _ _ _ _ _ h₂).trans (hx _ _ _ _ _ h₁)
  capture hx := by
    intro c t b t' o h
    obtain ⟨_, h, _⟩ := ok_capture h
    exact hx _ _ _ _ _ h
  config := by
    rintro c t _ _ _ ⟨⟩
    rfl
  get := by
    rintro c t _ _ _ ⟨⟩
    rfl
  emit op := by
    rintro c t _ _ _ ⟨⟩
    rfl
  unsupported idx msg := by
    rintro c t _ _ _ ⟨⟩
    rfl
  freshTmp idx := by
    intro c t b t' o h
    obtain ⟨_, _, _, _, ⟨⟩, h, _⟩ := ok_bind h
    split at h
    · obtain ⟨_, _, _, _, ⟨⟩, h, _⟩ := ok_bind h
      obtain ⟨_, _, _, _, ⟨⟩, ⟨⟩, _⟩ := ok_bind h
      rfl
    · obtain ⟨_, _, _, _, ⟨⟩, ⟨⟩, _⟩ := ok_bind h
      rfl
  setTmpNext k := by
    rintro c t _ _ _ ⟨⟩
    rfl
  stackHeader slot := by
    intro c t b t' o h
    obtain ⟨_, _, _, _, ⟨⟩, h, _⟩ := ok_bind h
    by_cases hout : slot < 0 ∨ slot > bpfStackSize
    · rw [if_pos hout] at h
      cases h
      rfl
    · rw [if_neg hout] at h
      cases hk : t.stackHdrOf slot.toNat with
      | some sh =>
        rw [hk] at h
        cases h
        rfl
      | none =>
        rw [hk] at h
        obtain ⟨_, _, _, _, ⟨⟩, ⟨⟩, _⟩ := ok_bind h
        rfl

instance : uncounted.AllowsRaise where
  raise _ := by rintro _ _ _ _ _ ⟨⟩

/-! ## Two runs side by side -/

variable {α β γ δ : Type} {c c' : Config} {R : α → β → Prop} {S : γ → δ → Prop}

/-- Runs of the two methods that return, from the same counts, return related values and leave the
same counts. -/
def AgreeTo (c c' : Config) (R : α → β → Prop) (x : TransM α) (x' : TransM β) : Prop :=
  ∀ ⦃t t' a t₁ o a' t₁' o'⦄, t.WF → t'.WF → t'.mapSites = t.mapSites →
    x c t = .ok (a, t₁, o) → x' c' t' = .ok (a', t₁', o') →
      R a a' ∧ t₁'.mapSites = t₁.mapSites

namespace AgreeTo

theorem pure {a : α} {a' : β} (h : R a a') :
    AgreeTo c c' R (Pure.pure a : TransM α) (Pure.pure a' : TransM β) := by
  rintro t t' _ _ _ _ _ _ _ _ hsites ⟨⟩ ⟨⟩
  exact ⟨h, hsites⟩

theorem bind {x : TransM α} {x' : TransM β} {f : α → TransM γ} {f' : β → TransM δ}
    [Obeys growth x] [Obeys growth x'] (hx : AgreeTo c c' R x x')
    (hf : ∀ a a', R a a' → AgreeTo c c' S (f a) (f' a')) :
    AgreeTo c c' S (x >>= f) (x' >>= f') := by
  intro t t' b t₂ o b' t₂' o' hwf hwf' hsites h h'
  obtain ⟨a, t₁, _, _, h₁, h₂, _⟩ := ok_bind h
  obtain ⟨a', t₁', _, _, h₁', h₂', _⟩ := ok_bind h'
  obtain ⟨hR, hsites₁⟩ := hx hwf hwf' hsites h₁ h₁'
  exact hf a a' hR ((grows_of_ok h₁).wf hwf) ((grows_of_ok h₁').wf hwf') hsites₁ h₂ h₂'

theorem imp {R' : α → β → Prop} {x : TransM α} {x' : TransM β} (hx : AgreeTo c c' R x x')
    (hR : ∀ a a', R a a' → R' a a') : AgreeTo c c' R' x x' := by
  intro t t' a t₁ o a' t₁' o' hwf hwf' hsites h h'
  obtain ⟨hr, hsites₁⟩ := hx hwf hwf' hsites h h'
  exact ⟨hR _ _ hr, hsites₁⟩

/-- Whatever is returned, nothing is counted. -/
theorem of_uncounted {x : TransM α} {x' : TransM β} [hx : Obeys uncounted x]
    [hx' : Obeys uncounted x'] : AgreeTo c c' (fun _ _ => True) x x' := by
  intro t t' a t₁ o a' t₁' o' _ _ hsites h h'
  exact ⟨trivial, by rw [hx.holds _ _ _ _ _ h, hx'.holds _ _ _ _ _ h', hsites]⟩

/-- The values of methods that count nothing are not looked at. -/
theorem after {x : TransM α} {x' : TransM β} {f : α → TransM γ} {f' : β → TransM δ}
    [Obeys growth x] [Obeys growth x'] [Obeys uncounted x] [Obeys uncounted x']
    (hf : ∀ a a', AgreeTo c c' S (f a) (f' a')) : AgreeTo c c' S (x >>= f) (x' >>= f') :=
  of_uncounted.bind fun a a' _ => hf a a'

theorem config {f : Config → TransM γ} {f' : Config → TransM δ}
    (h : AgreeTo c c' S (f c) (f' c')) :
    AgreeTo c c' S (TransM.config >>= f) (TransM.config >>= f') := by
  intro t t' b t₂ o b' t₂' o' hwf hwf' hsites hrun hrun'
  obtain ⟨_, _, _, _, ⟨⟩, h₂, _⟩ := ok_bind hrun
  obtain ⟨_, _, _, _, ⟨⟩, h₂', _⟩ := ok_bind hrun'
  exact h hwf hwf' hsites h₂ h₂'

theorem capture {x : TransM α} {x' : TransM β} (hx : AgreeTo c c' R x x') :
    AgreeTo c c' (fun p p' => R p.1 p'.1) (TransM.capture x) (TransM.capture x') := by
  intro t t' p t₁ o p' t₁' o' hwf hwf' hsites h h'
  obtain ⟨_, h, _⟩ := ok_capture h
  obtain ⟨_, h', _⟩ := ok_capture h'
  exact hx hwf hwf' hsites h h'

theorem ite_iff {p p' : Prop} [Decidable p] [Decidable p'] {x y : TransM γ} {x' y' : TransM δ}
    (hp : p ↔ p') (hx : p → AgreeTo c c' S x x') (hy : ¬p → AgreeTo c c' S y y') :
    AgreeTo c c' S (if p then x else y) (if p' then x' else y') := by
  by_cases h : p
  · rw [if_pos h, if_pos (hp.mp h)]
    exact hx h
  · rw [if_neg h, if_neg fun h' => h (hp.mpr h')]
    exact hy h

theorem ite {p : Prop} [Decidable p] {x y : TransM γ} {x' y' : TransM δ}
    (hx : AgreeTo c c' S x x') (hy : AgreeTo c c' S y y') :
    AgreeTo c c' S (if p then x else y) (if p then x' else y') :=
  .ite_iff .rfl (fun _ => hx) fun _ => hy

end AgreeTo

/-! ## What one run returns -/

/-- Every run of the method that returns, from a well-formed table, returns a value with the
property. -/
def Leaves (c : Config) (P : α → Prop) (x : TransM α) : Prop :=
  ∀ ⦃t a t' o⦄, t.WF → x c t = .ok (a, t', o) → P a

namespace Leaves

variable {P : α → Prop} {Q : γ → Prop}

theorem pure {a : α} (h : P a) : Leaves c P (Pure.pure a) := by
  rintro _ _ _ _ _ ⟨⟩
  exact h

theorem bind {x : TransM α} {f : α → TransM γ} [Obeys growth x] (hx : Leaves c P x)
    (hf : ∀ a, P a → Leaves c Q (f a)) : Leaves c Q (x >>= f) := by
  intro t b t' o hwf h
  obtain ⟨a, t₁, _, _, h₁, h₂, _⟩ := ok_bind h
  exact hf a (hx hwf h₁) ((grows_of_ok h₁).wf hwf) h₂

theorem after {x : TransM α} {f : α → TransM γ} [Obeys growth x]
    (hf : ∀ a, Leaves c Q (f a)) : Leaves c Q (x >>= f) :=
  bind (P := fun _ => True) (fun _ _ _ _ _ _ => trivial) fun a _ => hf a

theorem config {f : Config → TransM γ} (h : Leaves c Q (f c)) :
    Leaves c Q (TransM.config >>= f) := by
  intro t b t' o hwf hrun
  obtain ⟨_, _, _, _, ⟨⟩, h₂, _⟩ := ok_bind hrun
  exact h hwf h₂

theorem ite {p : Prop} [Decidable p] {x y : TransM γ} (hx : p → Leaves c Q x)
    (hy : ¬p → Leaves c Q y) : Leaves c Q (if p then x else y) := by
  split
  · exact hx ‹_›
  · exact hy ‹_›

theorem capture {x : TransM α} (hx : Leaves c P x) :
    Leaves c (fun p => P p.1) (TransM.capture x) := by
  intro t p t' o hwf h
  obtain ⟨_, h, _⟩ := ok_capture h
  exact hx hwf h

/-- Two methods that count nothing, each with what its runs return. -/
theorem agreeTo {x : TransM α} {x' : TransM β} {P' : β → Prop} [Obeys uncounted x]
    [Obeys uncounted x'] (h : Leaves c P x) (h' : Leaves c' P' x') :
    AgreeTo c c' (fun a a' => P a ∧ P' a') x x' := by
  intro t t' a t₁ o a' t₁' o' hwf hwf' hsites hrun hrun'
  exact ⟨⟨h hwf hrun, h' hwf' hrun'⟩, (AgreeTo.of_uncounted hwf hwf' hsites hrun hrun').2⟩

end Leaves

/-- A slot outside the frame, and no other, has header 0. -/
theorem stackHeader_leaves {slot : Int} :
    Leaves c (fun sh => sh = 0 ↔ slot < 0 ∨ (bpfStackSize : Int) < slot) (stackHeader slot) := by
  intro t sh t' o hwf h
  obtain ⟨h', t₁, hacc⟩ := stackHeader_returns c t slot
  cases h.symm.trans hacc
  obtain ⟨-, hgrows, -, hcases⟩ := stackHeader_accepts hacc
  rcases hcases with ⟨hout, rfl⟩ | ⟨hlo, hhi, hsome⟩
  · exact ⟨fun _ => hout, fun _ => rfl⟩
  · have hbase := ((hgrows.wf hwf).range hsome).1
    have hpos : 0 < hStackBase := by decide
    constructor
    · intro h; omega
    · intro h; omega

theorem stackHeader_agrees {slot : Int} :
    AgreeTo c c' (fun sh sh' => sh = 0 ↔ sh' = 0) (stackHeader slot) (stackHeader slot) :=
  (stackHeader_leaves.agreeTo stackHeader_leaves).imp fun _ _ h => h.1.trans h.2.symm

theorem readReg_agrees {st : AbsState} {r : Nat} :
    AgreeTo c c' Eq (readReg st r) (readReg st r) := by
  unfold readReg
  refine .ite (.pure rfl) ?_
  rintro _ _ _ _ _ _ _ _ _ _ _ ⟨⟩

theorem writeReg_agrees {st : AbsState} {r : Nat} {v : RegInfo} :
    AgreeTo c c' Eq (writeReg st r v) (writeReg st r v) := by
  unfold writeReg
  refine .ite (.pure rfl) ?_
  rintro _ _ _ _ _ _ _ _ _ _ _ ⟨⟩

end TransM

/-! ## Instructions -/

section Instructions

variable {c c' : Config} {idx : Nat} {i : Insn} {st : AbsState}

theorem translateAlu_agrees {is64 : Bool} :
    AgreeTo c c' Eq (translateAlu idx i is64 st) (translateAlu idx i is64 st) := by
  unfold translateAlu
  exact .ite (.after fun _ _ => .pure rfl) (.after fun _ _ => .pure rfl)

theorem translateLdPkt_agrees :
    AgreeTo c c' Eq (translateLdPkt idx i st) (translateLdPkt idx i st) := by
  unfold translateLdPkt
  refine .ite (.after fun _ _ => .pure rfl) (.after fun _ _ => ?_)
  refine .ite ?_ ?_ <;>
  · repeat refine .after fun _ _ => ?_
    exact .pure rfl

variable (hc : c.Resized c')

include hc

theorem translateLdx_agrees :
    AgreeTo c c' Eq (translateLdx idx i st) (translateLdx idx i st) := by
  unfold translateLdx
  refine readReg_agrees.bind fun base base' heq => ?_
  subst heq
  refine .ite ?_ ?_
  · unfold translateLdxStack
    refine .ite (.after fun _ _ => writeReg_agrees) (stackHeader_agrees.bind fun _ _ hsh => ?_)
    exact .ite_iff hsh (fun _ => .after fun _ _ => writeReg_agrees)
      fun _ => .after fun _ _ => writeReg_agrees
  · unfold translateLdxRegion
    refine .config ?_
    rw [hc.ctx, regionOf_resized hc]
    refine .ite ?_ ?_ <;>
    · repeat refine .after fun _ _ => ?_
      exact writeReg_agrees

theorem translateStore_agrees {fromReg : Bool} :
    AgreeTo c c' Eq (translateStore idx i st fromReg) (translateStore idx i st fromReg) := by
  unfold translateStore
  refine readReg_agrees.bind fun base base' heq => ?_
  subst heq
  refine .ite ?_ ?_
  · unfold translateStoreStack
    refine .ite (.after fun _ _ => .pure rfl) (stackHeader_agrees.bind fun _ _ hsh => ?_)
    refine .ite_iff hsh (fun _ => .after fun _ _ => .pure rfl) fun _ =>
      .ite (.after fun _ _ => ?_) (.after fun _ _ => .pure rfl)
    refine readReg_agrees.bind fun s s' heq => ?_
    subst heq
    exact .pure rfl
  · unfold translateStoreRegion
    refine .config ?_
    rw [regionOf_resized hc]
    refine .ite ?_ ?_ <;>
    · repeat refine .after fun _ _ => ?_
      refine .ite ?_ ?_ <;>
      · repeat refine .after fun _ _ => ?_
        exact .pure rfl

theorem translateLdImm64_agrees {insns : List Insn} :
    AgreeTo c c' Eq (translateLdImm64 idx insns st) (translateLdImm64 idx insns st) := by
  unfold translateLdImm64
  refine .ite (.after fun _ _ => .pure rfl) (.config ?_)
  rw [hc.insnMapIdx]
  have hwrite : ∀ v, AgreeTo c c' Eq
      (do pure (2, ← writeReg st (insnAt insns idx).dst v) : TransM (Nat × AbsState))
      (do pure (2, ← writeReg st (insnAt insns idx).dst v)) := by
    intro v
    refine writeReg_agrees.bind fun a a' heq => ?_
    subst heq
    exact .pure rfl
  cases c.insnMapIdx idx with
  | some m => exact .after fun _ _ => hwrite _
  | none =>
    refine .ite ?_ ?_
    · refine .after fun _ _ => ?_
      exact .after fun _ _ => hwrite _
    · exact .after fun _ _ => hwrite _

theorem translatePlain_agrees :
    AgreeTo c c' Eq (translatePlain idx i st) (translatePlain idx i st) := by
  unfold translatePlain
  split
  · exact translateAlu_agrees
  · exact translateAlu_agrees
  · exact translateLdx_agrees hc
  · exact .ite (.after fun _ _ => .pure rfl) (translateStore_agrees hc)
  · exact translateStore_agrees hc
  · exact .ite translateLdPkt_agrees (.after fun _ _ => .pure rfl)
  · exact .after fun _ _ => .pure rfl

theorem translateOne_agrees {insns : List Insn} :
    AgreeTo c c' Eq (translateOne idx insns st) (translateOne idx insns st) := by
  unfold translateOne
  refine .after fun _ _ => .ite (.pure rfl) (.ite (translateLdImm64_agrees hc) ?_)
  refine (translatePlain_agrees hc).bind fun a a' heq => ?_
  subst heq
  exact .pure rfl

theorem translateBody_agrees {insns : List Insn} {bodyEnd fuel k : Nat} :
    AgreeTo c c' Eq (translateBody insns bodyEnd fuel k st)
      (translateBody insns bodyEnd fuel k st) := by
  induction fuel generalizing k st with
  | zero => exact .pure rfl
  | succ fuel ih =>
    unfold translateBody
    refine .ite ((translateOne_agrees hc).bind fun p p' heq => ?_) (.pure rfl)
    subst heq
    exact ih

end Instructions

/-! ## Map helpers -/

/-- Where a helper can read what an argument points at. -/
def Readable (maps : List MapInfo) (p : RegInfo) : Prop :=
  if p.tag = .stack then p.offKnown = true ∧ ¬(-p.off < 0 ∨ (bpfStackSize : Int) < -p.off)
  else regionOf maps p ≠ regionNone

/-- Where an update can copy a value of that many bytes. -/
def Copyable (maps : List MapInfo) (vs : Nat) (vp : RegInfo) : Prop :=
  Readable maps vp ∧ (copySizeModelled vs = true ∨ vp.tag ≠ .stack ∧ vs ≤ mapMaxValueCopy)

/-- Where the slot of a key can be told. -/
def KeyTold (maps : List MapInfo) (kp : RegInfo) (st : AbsState) : Prop :=
  (constKey kp st).isSome ∨ Readable maps kp

/-- Where no two keys of an array share a slot. -/
def KeyFits (mi : MapInfo) : Option Nat → Prop
  | none => mi.maxEntries ≤ mi.nslots
  | some key => key < mi.nslots

section Helpers

variable {c : Config} {idx : Nat} {st : AbsState}

theorem readMapKey_leaves {kp : RegInfo} {kw : Width} :
    Leaves c (fun r => r.isSome ↔ Readable c.maps kp) (readMapKey idx kp kw) := by
  unfold readMapKey Readable
  refine .after fun _ => .ite (fun hstack => ?_) fun hstack => .config ?_
  · rw [if_pos hstack]
    refine .ite (fun hoff => .after fun _ => .pure (by simp [hoff])) fun hoff => ?_
    have hoff : kp.offKnown = true := by simpa using hoff
    refine stackHeader_leaves.bind fun sh hsh => .ite (fun h => ?_) fun h => ?_
    · exact .after fun _ => .pure (iff_of_false Bool.false_ne_true fun hr => hr.2 (hsh.mp h))
    · exact .after fun _ => .pure (iff_of_true rfl ⟨hoff, mt hsh.mpr h⟩)
  · rw [if_neg hstack]
    refine .ite (fun h => .after fun _ => .pure (by simp [h])) fun h => ?_
    exact .after fun _ => .after fun _ => .after fun _ => .pure (iff_of_true rfl h)

theorem checkArrayKey_leaves {mi : MapInfo} {key : Option Nat} :
    Leaves c (fun b => b = true ↔ KeyFits mi key) (checkArrayKey idx mi key) := by
  unfold checkArrayKey
  cases key with
  | none =>
    refine .ite (fun h => .after fun _ => .pure ?_) fun h => .pure ?_
    · exact iff_of_false Bool.false_ne_true (Nat.not_le.mpr h)
    · exact iff_of_true rfl (Nat.not_lt.mp h)
  | some key =>
    refine .ite (fun h => .after fun _ => .pure ?_) fun h => .pure ?_
    · exact iff_of_false Bool.false_ne_true (Nat.not_lt.mpr h)
    · exact iff_of_true rfl (Nat.not_le.mp h)

theorem emitSlot_leaves {mi : MapInfo} {kp : RegInfo} {kw : Width} :
    Leaves c (fun r => r.isSome ↔ KeyTold c.maps kp st) (emitSlot idx mi kp st kw) := by
  unfold emitSlot KeyTold
  refine .after fun _ => ?_
  cases constKey kp st with
  | some key => exact .after fun _ => .pure (iff_of_true rfl (.inl rfl))
  | none =>
    refine readMapKey_leaves.bind fun r hr => ?_
    cases r with
    | none => exact .pure (by simpa using hr)
    | some tKey => exact .after fun _ => .pure (iff_of_true rfl (.inr (hr.mp rfl)))

theorem emitArrayLookup_leaves {mi : MapInfo} {kp : RegInfo} {kw : Width} :
    Leaves c (fun r => r.isSome ↔ KeyFits mi (constKey kp st) ∧ KeyTold c.maps kp st)
      (emitArrayLookup idx mi kp st kw) := by
  unfold emitArrayLookup
  refine checkArrayKey_leaves.bind fun b hb => .ite (fun h => .pure ?_) fun h => ?_
  · rw [h] at hb
    exact iff_of_false Bool.false_ne_true fun hr => Bool.false_ne_true (hb.mpr hr.1)
  · have hfits : KeyFits mi (constKey kp st) := hb.mp (by simpa using h)
    refine emitSlot_leaves.bind fun r hr => ?_
    cases r with
    | none => exact .pure (iff_of_false Bool.false_ne_true fun h => Bool.false_ne_true (hr.mpr h.2))
    | some p =>
      have hret : ∀ arms : List Arm, Leaves c
          (fun r => r.isSome ↔ KeyFits mi (constKey kp st) ∧ KeyTold c.maps kp st)
          (pure (some arms)) := fun arms => .pure (iff_of_true rfl ⟨hfits, hr.mp rfl⟩)
      refine .after fun _ => .after fun _ => .after fun _ => ?_
      dsimp only
      split
      · exact hret _
      · exact .after fun _ => .after fun _ => hret _

theorem emitTaggedLookup_leaves {mr : MapRef} {kp : RegInfo} {kw : Width} :
    Leaves c (fun r => r.isSome ↔ Readable c.maps kp) (emitTaggedLookup idx mr kp kw) := by
  unfold emitTaggedLookup
  refine readMapKey_leaves.bind fun r hr => ?_
  cases r with
  | none => exact .pure hr
  | some tKey => exact .after fun _ => .pure hr

theorem copyMapValue_leaves {vp : RegInfo} {mr : MapRef} {dst : Operand} :
    Leaves c (fun b => b = true ↔ Copyable c.maps mr.mi.valueSize vp)
      (copyMapValue idx vp mr dst) := by
  unfold copyMapValue Copyable Readable
  refine .config (.ite (fun hstack => ?_) fun hstack => ?_)
  · rw [if_pos hstack]
    refine .ite (fun h => .after fun _ => .pure (by simp [h, hstack])) fun h => ?_
    refine .ite (fun hoff => .after fun _ => .pure (by simp [hoff])) fun hoff => ?_
    have hsize : copySizeModelled mr.mi.valueSize = true := by simpa using h
    have hoff : vp.offKnown = true := by simpa using hoff
    refine stackHeader_leaves.bind fun sh hsh => .ite (fun h => ?_) fun h => ?_
    · exact .after fun _ => .pure (iff_of_false Bool.false_ne_true fun hc => hc.1.2 (hsh.mp h))
    · exact .after fun _ => .pure (iff_of_true rfl ⟨⟨hoff, mt hsh.mpr h⟩, .inl hsize⟩)
  · rw [if_neg hstack]
    refine .ite (fun h => .after fun _ => .pure (by simp [h])) fun hregion => ?_
    refine .ite (fun h => ?_) fun h => .ite (fun hbig => .after fun _ => .pure ?_) fun hbig => ?_
    · exact .after fun _ => .after fun _ => .after fun _ => .pure
        (iff_of_true rfl ⟨hregion, .inl h⟩)
    · refine iff_of_false Bool.false_ne_true ?_
      rintro ⟨-, hsize | ⟨-, hle⟩⟩
      · exact h hsize
      · omega
    · exact .after fun _ => .after fun _ => .after fun _ => .after fun _ => .pure
        (iff_of_true rfl ⟨hregion, .inr ⟨hstack, Nat.not_lt.mp hbig⟩⟩)

theorem armOps_leaves {mr : MapRef} {vp : RegInfo} {kw : Width} {tTag mark : Nat} {insert : Bool}
    {i : Nat} : Leaves c (fun r => r.isSome ↔ Copyable c.maps mr.mi.valueSize vp)
      (armOps idx mr vp kw tTag mark insert i) := by
  unfold armOps
  refine .after fun _ => ?_
  have hcopy : Leaves c (fun b => b = true ↔ Copyable c.maps mr.mi.valueSize vp) (do
      if (← copyMapValue idx vp mr (konstN (mr.mi.valueOff i))) then do
        set_ (hReg 0) 0
        pure true
      else pure false) := by
    refine copyMapValue_leaves.bind fun b hb => .ite (fun h => ?_) fun h => .pure ?_
    · exact .after fun _ => .pure (iff_of_true rfl (hb.mp h))
    · exact iff_of_false Bool.false_ne_true fun hc => h (hb.mpr hc)
  refine Leaves.bind (@Leaves.capture _ _ (fun b => b = true ↔ Copyable c.maps mr.mi.valueSize vp)
    _ (.ite (fun _ => ?_) fun _ => ?_)) fun p hp => .pure ?_
  · exact .after fun _ => .after fun _ => hcopy
  · exact hcopy
  · rw [← hp]
    cases p.1 <;> rfl

theorem slotArms_leaves {arm : Nat → TransM (Option (List Op))} {P : Prop}
    [∀ i, Obeys growth (arm i)] (harm : ∀ i, Leaves c (fun r => r.isSome ↔ P) (arm i))
    {entries : Nat → List MatchEntry} {is : List Nat} :
    Leaves c (fun r => r.isSome ↔ is = [] ∨ P) (slotArms arm entries is) := by
  induction is with
  | nil => exact .pure (by simp)
  | cons i is ih =>
    unfold slotArms
    refine (harm i).bind fun r hr => ?_
    cases r with
    | none => exact .pure (by simpa using hr)
    | some ops =>
      refine ih.bind fun r' hr' => ?_
      have hP : P := hr.mp rfl
      cases r' with
      | none => exact .pure (by simp [hP] at hr')
      | some arms => exact .pure (by simp [hP])

theorem emitTaggedUpdate_leaves {mr : MapRef} {kp vp : RegInfo} {kw : Width}
    (hslots : 0 < mr.mi.nslots) :
    Leaves c (fun r => r.isSome ↔ Readable c.maps kp ∧ Copyable c.maps mr.mi.valueSize vp)
      (emitTaggedUpdate idx mr kp vp kw) := by
  have hne : List.range mr.mi.nslots ≠ [] := by
    rw [Ne, List.range_eq_nil]
    omega
  have harms : ∀ {tTag mark insert entries}, Leaves c
      (fun r => r.isSome ↔ Copyable c.maps mr.mi.valueSize vp)
      (slotArms (armOps idx mr vp kw tTag mark insert) entries (List.range mr.mi.nslots)) := by
    intro tTag mark insert entries t r t' o hwf hrun
    simpa only [hne, false_or] using slotArms_leaves (fun _ => armOps_leaves) hwf hrun
  unfold emitTaggedUpdate
  refine readMapKey_leaves.bind fun r hr => ?_
  cases r with
  | none => exact .pure (iff_of_false Bool.false_ne_true fun h => Bool.false_ne_true (hr.mpr h.1))
  | some tKey =>
    have hkey : Readable c.maps kp := hr.mp rfl
    iterate 8 refine .after fun _ => ?_
    refine harms.bind fun r hover => ?_
    cases r with
    | none =>
      exact .pure (iff_of_false Bool.false_ne_true fun h => Bool.false_ne_true (hover.mpr h.2))
    | some overwrites =>
      refine harms.bind fun r hinsert => ?_
      cases r with
      | none =>
        exact .pure (iff_of_false Bool.false_ne_true fun h => Bool.false_ne_true (hinsert.mpr h.2))
      | some inserts => exact .pure (iff_of_true rfl ⟨hkey, hinsert.mp rfl⟩)

/-- The state after an array update, which knows of `r0` only where the write was emitted. -/
theorem emitArrayUpdate_leaves {mr : MapRef} {kp vp : RegInfo} {kw : Width} :
    Leaves c (fun st' =>
      (KeyTold c.maps kp st ∧ Copyable c.maps mr.mi.valueSize vp →
        st' = st.clobber.setReg 0 (scalarConst 0)) ∧
      (¬(KeyTold c.maps kp st ∧ Copyable c.maps mr.mi.valueSize vp) → st' = st.clobber))
      (emitArrayUpdate idx mr kp vp st kw) := by
  unfold emitArrayUpdate
  refine emitSlot_leaves.bind fun r hr => ?_
  cases r with
  | none => exact .pure ⟨fun h => absurd (hr.mpr h.1) Bool.false_ne_true, fun _ => rfl⟩
  | some p =>
    have hkey : KeyTold c.maps kp st := hr.mp rfl
    iterate 3 refine .after fun _ => ?_
    refine copyMapValue_leaves.bind fun b hb => .ite (fun h => ?_) fun h => ?_
    · exact .after fun _ => .pure ⟨fun _ => rfl, fun hno => absurd ⟨hkey, hb.mp h⟩ hno⟩
    · exact .pure ⟨fun hyes => absurd (hb.mpr hyes.2) h, fun _ => rfl⟩

end Helpers

/-- Where a block goes and what is known at its end. -/
structure EndsAlike (p p' : Flow × AbsState) : Prop where
  exit : p.2 = p'.2
  fallBlk : p.1.fallBlk = p'.1.fallBlk
  takeBlk : p.1.takeBlk = p'.1.takeBlk

section Calls

variable {c c' : Config} {idx : Nat} {st : AbsState} {α β γ δ : Type}

/-- The call is counted on both sides. -/
theorem countMapSite_agrees {m : Nat} :
    AgreeTo c c' (fun _ _ => True) (countMapSite m) (countMapSite m) := by
  rintro t t' _ _ _ _ _ _ _ _ hsites ⟨⟩ ⟨⟩
  refine ⟨trivial, ?_⟩
  simp only [hsites]

theorem checkMapModelled_agrees {mi mi' : MapInfo} (h : mi.Resized mi') :
    AgreeTo c c' Eq (checkMapModelled idx mi) (checkMapModelled idx mi') := by
  unfold checkMapModelled
  rw [h.family]
  split
  · exact .after fun _ _ => .pure rfl
  · exact .after fun _ _ => .pure rfl
  · exact .pure rfl

/-- A value that is there on both sides or on neither decides how both go on. -/
theorem AgreeTo.option {x : TransM (Option α)} {x' : TransM (Option β)} {S : γ → δ → Prop}
    {k : Option α → TransM γ} {k' : Option β → TransM δ} [Obeys growth x] [Obeys growth x']
    (hx : AgreeTo c c' (fun r r' => r.isSome ↔ r'.isSome) x x')
    (hnone : AgreeTo c c' S (k none) (k' none))
    (hsome : ∀ a a', AgreeTo c c' S (k (some a)) (k' (some a'))) :
    AgreeTo c c' S (x >>= k) (x' >>= k') := by
  refine hx.bind fun r r' h => ?_
  cases r with
  | none =>
    cases r' with
    | none => exact hnone
    | some a' => exact absurd (h.mpr rfl) Bool.false_ne_true
  | some a =>
    cases r' with
    | none => exact absurd (h.mp rfl) Bool.false_ne_true
    | some a' => exact hsome a a'

variable (hc : c.Resized c')

include hc

theorem readable_resized (p : RegInfo) : Readable c'.maps p ↔ Readable c.maps p := by
  rw [Readable, Readable, regionOf_resized hc]

theorem copyable_resized (vs : Nat) (vp : RegInfo) :
    Copyable c'.maps vs vp ↔ Copyable c.maps vs vp := by
  rw [Copyable, Copyable, readable_resized hc]

theorem keyTold_resized (kp : RegInfo) : KeyTold c'.maps kp st ↔ KeyTold c.maps kp st := by
  rw [KeyTold, KeyTold, readable_resized hc]

/-- The state a call leaves. -/
theorem emitMapLookup_agrees :
    AgreeTo c c' (fun p p' => p.2 = p'.2) (emitMapLookup idx st) (emitMapLookup idx st) := by
  unfold emitMapLookup
  refine .config ?_
  dsimp only
  rcases mapOf_resized hc (st.reg 1) with ⟨h, h'⟩ | ⟨m, mi, mi', h, h', hmi⟩
  · rw [h, h']
    exact .after fun _ _ => .pure rfl
  · rw [h, h']
    dsimp only
    refine (checkMapModelled_agrees hmi).bind fun b b' heq => ?_
    subst heq
    have hsize : keySizeModelled mi' = keySizeModelled mi := by
      rw [keySizeModelled, keySizeModelled, hmi.keySize]
    refine .ite (.pure rfl)
      (.ite_iff (by rw [hsize]) (fun _ => .after fun _ _ => .pure rfl) fun _ => ?_)
    refine .after fun _ _ => countMapSite_agrees.bind fun _ _ _ => ?_
    refine .ite_iff (by rw [hmi.isArray]) (fun harr => ?_) fun _ => ?_
    · rw [hmi.of_isArray harr]
      refine AgreeTo.option ?_ (.pure rfl) fun _ _ => .pure rfl
      refine (emitArrayLookup_leaves.agreeTo emitArrayLookup_leaves).imp fun r r' h => ?_
      rw [h.1, h.2, keyTold_resized hc]
    · refine AgreeTo.option ?_ (.pure rfl) fun _ _ => .pure rfl
      refine (emitTaggedLookup_leaves.agreeTo emitTaggedLookup_leaves).imp fun r r' h => ?_
      rw [h.1, h.2, readable_resized hc]

/-- The state a write leaves. -/
theorem emitMapWrite_agrees {m : Nat} {mi mi' : MapInfo} (h : mi.Resized mi') {kp vp : RegInfo} :
    AgreeTo c c' (fun p p' => p.2 = p'.2) (emitMapWrite idx ⟨m, mi⟩ kp vp st)
      (emitMapWrite idx ⟨m, mi'⟩ kp vp st) := by
  unfold emitMapWrite
  refine .after fun _ _ => countMapSite_agrees.bind fun _ _ _ => ?_
  refine .ite_iff (by rw [h.isArray]) (fun harr => ?_) fun _ => ?_
  · rw [h.of_isArray harr]
    refine (emitArrayUpdate_leaves.agreeTo emitArrayUpdate_leaves).bind fun s s' hs => .pure ?_
    rw [keyTold_resized hc, copyable_resized hc] at hs
    by_cases hwritten : KeyTold c.maps kp st ∧ Copyable c.maps mi.valueSize vp
    · exact (hs.1.1 hwritten).trans (hs.2.1 hwritten).symm
    · exact (hs.1.2 hwritten).trans (hs.2.2 hwritten).symm
  · refine AgreeTo.option ?_ (.pure rfl) fun _ _ => .pure rfl
    refine ((emitTaggedUpdate_leaves (MapInfo.nslots_pos h.budget)).agreeTo
      (emitTaggedUpdate_leaves (MapInfo.nslots_pos h.budget'))).imp fun r r' hr => ?_
    rw [hr.1, hr.2, readable_resized hc, copyable_resized hc, h.valueSize]

theorem emitMapUpdate_agrees :
    AgreeTo c c' (fun p p' => p.2 = p'.2) (emitMapUpdate idx st) (emitMapUpdate idx st) := by
  unfold emitMapUpdate
  refine .config ?_
  dsimp only
  rcases mapOf_resized hc (st.reg 1) with ⟨h, h'⟩ | ⟨m, mi, mi', h, h', hmi⟩
  · rw [h, h']
    exact .after fun _ _ => .pure rfl
  · rw [h, h']
    dsimp only
    refine (checkMapModelled_agrees hmi).bind fun b b' heq => ?_
    subst heq
    have hsize : keySizeModelled mi' = keySizeModelled mi := by
      rw [keySizeModelled, keySizeModelled, hmi.keySize]
    have hmax : mi'.maxEntries = mi.maxEntries := by rw [hmi.same]
    rw [hsize, hmax, hmi.isArray]
    refine .ite (.pure rfl) (.ite (.after fun _ _ => .pure rfl) ?_)
    have hkey : AgreeTo c c' Eq (checkArrayKey idx mi (constKey (st.reg 2) st))
        (checkArrayKey idx mi (constKey (st.reg 2) st)) :=
      (checkArrayKey_leaves.agreeTo checkArrayKey_leaves).imp fun b b' hb =>
        Bool.eq_iff_iff.mpr (hb.1.trans hb.2.symm)
    have htrue : AgreeTo c c' Eq (pure true : TransM Bool) (pure true) := .pure rfl
    refine .ite_iff .rfl (fun harr => ?_) fun _ => ?_
    · rw [hmi.of_isArray harr]
      refine hkey.bind fun b b' heq => ?_
      subst heq
      refine .ite (.pure rfl) (.ite (.after fun _ _ => .pure rfl) (.ite
        (.after fun _ _ => .pure rfl) (.ite (.after fun _ _ => .pure rfl) (.ite
        (.after fun _ _ => .pure rfl) ?_))))
      exact emitMapWrite_agrees hc (hmi.of_isArray harr ▸ hmi)
    · refine htrue.bind fun b b' heq => ?_
      subst heq
      refine .ite (.pure rfl) (.ite (.after fun _ _ => .pure rfl) (.ite
        (.after fun _ _ => .pure rfl) (.ite (.after fun _ _ => .pure rfl) (.ite
        (.after fun _ _ => .pure rfl) ?_))))
      exact emitMapWrite_agrees hc hmi

theorem translateCall_agrees {term : Insn} :
    AgreeTo c c' (fun p p' => p.2 = p'.2) (translateCall idx term st)
      (translateCall idx term st) := by
  unfold translateCall
  exact .ite (.after fun _ _ => .pure rfl) (.ite (emitMapLookup_agrees hc)
    (.ite (emitMapUpdate_agrees hc) (.after fun _ _ => .pure rfl)))

theorem translateTerm_agrees {insns : List Insn} {lead : Nat → Bool} {end_ : Nat} :
    AgreeTo c c' EndsAlike (translateTerm insns lead end_ st)
      (translateTerm insns lead end_ st) := by
  unfold translateTerm
  dsimp only
  refine .ite (.pure ⟨rfl, rfl, rfl⟩) (.ite (.after fun _ _ => ?_) (.after fun _ _ => ?_)) <;>
  · split
    · exact .pure ⟨rfl, rfl, rfl⟩
    · exact (translateCall_agrees hc).bind fun p p' h => .pure ⟨h, rfl, rfl⟩
    · exact .pure ⟨rfl, rfl, rfl⟩
    · exact .pure ⟨rfl, rfl, rfl⟩

end Calls

/-! ## Programs -/

section Programs

variable {c c' : Config} {insns : List Insn} {lead : Nat → Bool}

theorem leaderStep_agrees {k : Nat} :
    AgreeTo c c' Eq (leaderStep insns k lead) (leaderStep insns k lead) := by
  unfold leaderStep
  refine .ite (.pure rfl) (.ite (.pure rfl) (.ite (.after fun _ _ => .pure rfl) (.ite ?_ ?_)))
  · exact .after fun _ _ => .pure rfl
  · exact .pure rfl

theorem findLeaders_agrees : AgreeTo c c' Eq (findLeaders insns) (findLeaders insns) := by
  have hloop : ∀ is lead, AgreeTo c c' Eq (leaderLoop insns is lead)
      (leaderLoop insns is lead) := by
    intro is
    induction is with
    | nil => exact fun lead => .pure rfl
    | cons i is ih =>
      intro lead
      unfold leaderLoop
      refine leaderStep_agrees.bind fun lead lead' heq => ?_
      subst heq
      exact ih lead
  exact hloop _ _

variable (hc : c.Resized c')

include hc

theorem translateBlock_agrees {b : Nat} {blockIn : Nat → AbsState} :
    AgreeTo c c' (fun p p' => p.2 = p'.2) (translateBlock insns lead b blockIn)
      (translateBlock insns lead b blockIn) := by
  unfold translateBlock
  refine (AgreeTo.capture (R := EndsAlike) ((translateBody_agrees hc).bind
    fun st st' heq => ?_)).bind fun p p' h => .pure ?_
  · subst heq
    exact translateTerm_agrees hc
  · simp only [propagate, h.exit, h.fallBlk, h.takeBlk]

theorem translateBlocks_agrees {bs : List Nat} {blockIn : Nat → AbsState} :
    AgreeTo c c' (fun _ _ => True) (translateBlocks insns lead bs blockIn)
      (translateBlocks insns lead bs blockIn) := by
  induction bs generalizing blockIn with
  | nil => exact .pure trivial
  | cons b bs ih =>
    unfold translateBlocks
    refine (translateBlock_agrees hc).bind fun p p' h => ?_
    obtain ⟨mods, blockIn⟩ := p
    obtain ⟨mods', blockIn'⟩ := p'
    obtain rfl : blockIn = blockIn' := h
    exact ih.bind fun _ _ _ => .pure trivial

/-- Two translations of a program that differ in the slots of tagged maps count the same uses. -/
theorem translateProgram_counts {mods mods' : List (List Rule)} {t t' : Translator} {o o' : Out}
    (h : translateProgram insns c .init = .ok (mods, t, o))
    (h' : translateProgram insns c' .init = .ok (mods', t', o')) : t'.mapSites = t.mapSites := by
  have hagrees : AgreeTo c c' (fun _ _ => True) (translateProgram insns)
      (translateProgram insns) := by
    unfold translateProgram
    refine findLeaders_agrees.bind fun lead lead' heq => ?_
    subst heq
    exact (translateBlocks_agrees hc).bind fun _ _ _ => .pure trivial
  exact (hagrees Translator.init_wf Translator.init_wf rfl h h').2

end Programs

end Ect
