-- SUMMARY: Properties of methods that sequencing keeps, and that every method of the translator has them.
import Ect.Translate.Program

/-!
# Laws of methods

A law is a property of methods that `pure` and `>>=` keep and that the primitives the
methods are built from have. Every method of the translator obeys every law that allows
an exception and a count; the methods that never index the register file with a number of
the instruction obey the others too, and so do those that count no map site.
-/

namespace Ect

open TransM

namespace TransM

structure Law where
  Holds : {α : Type} → TransM α → Prop
  pure {α : Type} (a : α) : Holds (Pure.pure a)
  bind {α β : Type} {x : TransM α} {f : α → TransM β} (hx : Holds x) (hf : ∀ a, Holds (f a)) :
    Holds (x >>= f)
  capture {α : Type} {x : TransM α} (hx : Holds x) : Holds (capture x)
  config : Holds config
  get : Holds get
  emit (op : Op) : Holds (emit op)
  unsupported (idx : Nat) (msg : String) : Holds (unsupported idx msg)
  freshTmp (idx : Nat) : Holds (freshTmp idx)
  setTmpNext (k : Nat) : Holds (setTmpNext k)
  stackHeader (slot : Int) : Holds (stackHeader slot)

/-- The law holds of a method that raises. -/
class Law.AllowsRaise (L : Law) : Prop where
  raise {α : Type} (e : PyErr) : L.Holds (raise e : TransM α)

/-- The law holds of the method that counts a use of a map. -/
class Law.AllowsCount (L : Law) : Prop where
  countMapSite (m : Nat) : L.Holds (countMapSite m)

/-- A class, so that the property of a method is found from those of the methods it
calls. -/
class Obeys (L : Law) {α : Type} (m : TransM α) : Prop where
  holds : L.Holds m

section Rules

variable {L : Law} {α β : Type}

instance {a : α} : Obeys L (pure a : TransM α) := ⟨L.pure a⟩

theorem Obeys.bind {x : TransM α} {f : α → TransM β} (hx : Obeys L x) (hf : ∀ a, Obeys L (f a)) :
    Obeys L (x >>= f) :=
  ⟨L.bind hx.holds fun a => (hf a).holds⟩

instance {x : TransM α} {f : α → TransM β} [Obeys L x] [∀ a, Obeys L (f a)] : Obeys L (x >>= f) :=
  .bind inferInstance inferInstance

theorem Obeys.ite {p : Prop} [Decidable p] {x y : TransM α} (hx : Obeys L x) (hy : Obeys L y) :
    Obeys L (if p then x else y) := by
  split <;> assumption

instance {p : Prop} [Decidable p] {x y : TransM α} [Obeys L x] [Obeys L y] :
    Obeys L (if p then x else y) :=
  .ite inferInstance inferInstance

instance {x : TransM α} [hx : Obeys L x] : Obeys L (capture x) := ⟨L.capture hx.holds⟩

instance : Obeys L config := ⟨L.config⟩

instance : Obeys L get := ⟨L.get⟩

instance {op : Op} : Obeys L (emit op) := ⟨L.emit op⟩

instance {idx : Nat} {msg : String} : Obeys L (unsupported idx msg) := ⟨L.unsupported idx msg⟩

instance {idx : Nat} : Obeys L (freshTmp idx) := ⟨L.freshTmp idx⟩

instance {k : Nat} : Obeys L (setTmpNext k) := ⟨L.setTmpNext k⟩

instance [L.AllowsCount] {m : Nat} : Obeys L (countMapSite m) := ⟨Law.AllowsCount.countMapSite m⟩

instance {slot : Int} : Obeys L (stackHeader slot) := ⟨L.stackHeader slot⟩

variable [L.AllowsRaise]

instance {e : PyErr} : Obeys L (raise e : TransM α) := ⟨Law.AllowsRaise.raise e⟩

instance {st : AbsState} {r : Nat} : Obeys L (readReg st r) := by
  unfold readReg; infer_instance

instance {st : AbsState} {r : Nat} {v : RegInfo} : Obeys L (writeReg st r v) := by
  unfold writeReg; infer_instance

end Rules

/-! ## What a method returns -/

section Gives

variable {α β : Type}

/-- What the parts of a run that returns did. -/
theorem ok_bind {x : TransM α} {f : α → TransM β} {c : Config} {t t' : Translator} {b : β} {o : Out}
    (h : (x >>= f) c t = .ok (b, t', o)) :
    ∃ a t₁ o₁ o₂, x c t = .ok (a, t₁, o₁) ∧ f a c t₁ = .ok (b, t', o₂) ∧ o = o₁.append o₂ := by
  simp only [Bind.bind, TransM.bind] at h
  split at h
  · cases h
  · rename_i a t₁ o₁ hx
    split at h
    · cases h
    · rename_i b' t₂ o₂ hf
      cases h
      exact ⟨a, t₁, o₁, o₂, hx, hf, rfl⟩

/-- What a captured run that returns did. -/
theorem ok_capture {x : TransM α} {c : Config} {t t' : Translator} {p : α × List Op} {o : Out}
    (h : capture x c t = .ok (p, t', o)) :
    ∃ o', x c t = .ok (p.1, t', o') ∧ p.2 = o'.ops ∧ o = ⟨[], o'.diags⟩ := by
  simp only [capture] at h
  split at h
  · cases h
  · rename_i a t₁ o' hx
    cases h
    exact ⟨o', hx, rfl, rfl⟩

/-- Whatever the method returns has the property. -/
def Gives (m : TransM α) (P : α → Prop) : Prop :=
  ∀ c t a t' o, m c t = .ok (a, t', o) → P a

theorem gives_pure {P : α → Prop} {a : α} (h : P a) : (pure a : TransM α).Gives P := by
  rintro _ _ _ _ _ ⟨⟩
  exact h

theorem Gives.bind {P : α → Prop} {Q : β → Prop} {x : TransM α} {f : α → TransM β}
    (hx : x.Gives P) (hf : ∀ a, P a → (f a).Gives Q) : (x >>= f).Gives Q := by
  intro c t b t' o h
  obtain ⟨a, _, _, _, hfirst, hrest, _⟩ := ok_bind h
  exact hf a (hx _ _ _ _ _ hfirst) _ _ _ _ _ hrest

theorem Gives.after {P : β → Prop} {f : α → TransM β} (x : TransM α)
    (hf : ∀ a, (f a).Gives P) : (x >>= f).Gives P :=
  .bind (P := fun _ => True) (fun _ _ _ _ _ _ => trivial) fun a _ => hf a

theorem Gives.ite {P : α → Prop} {p : Prop} [Decidable p] {x y : TransM α} (hx : x.Gives P)
    (hy : y.Gives P) : (if p then x else y).Gives P := by
  split <;> assumption

end Gives

end TransM

/-! ## The methods -/

section Methods

variable {L : Law} {idx : Nat} {i : Insn} {st : AbsState}

instance {f : BinOp} {w : Width} {a1 a2 : Operand} {target : Nat} :
    Obeys L (binop f w a1 a2 target) := by
  unfold binop; infer_instance

instance {frm into : Width} {arg : Operand} {target : Nat} :
    Obeys L (TransM.cast frm into arg target) := by
  unfold TransM.cast; infer_instance

instance {w : Width} {region : Nat} {off : Operand} {target : Nat} :
    Obeys L (load w region off target) := by
  unfold load; infer_instance

instance {w : Width} {region : Nat} {off val : Operand} : Obeys L (store w region off val) := by
  unfold store; infer_instance

instance {target : Nat} {v : Int} : Obeys L (set_ target v) := by
  unfold set_; infer_instance

instance {target src : Nat} : Obeys L (move target src) := by
  unfold move; infer_instance

instance {reg k widthBits : Nat} : Obeys L (emitArshConst idx reg k widthBits) := by
  unfold emitArshConst; infer_instance

instance {nbytes tSrc tAcc tB : Nat} {is : List Nat} :
    Obeys L (emitBswapBytes nbytes tSrc tAcc tB is) := by
  induction is with
  | nil => unfold emitBswapBytes; infer_instance
  | cons i is ih => unfold emitBswapBytes emitBswapByte; infer_instance

instance {src nbytes target : Nat} : Obeys L (emitBswap idx src nbytes target) := by
  unfold emitBswap; infer_instance

instance {is64 : Bool} : Obeys L (aluOps idx i is64) := by
  unfold aluOps
  cases i.aluOp <;>
    simp only [aluMov, aluNeg, aluShift, aluShiftBy, aluEnd, aluBinop] <;>
    (try split) <;> infer_instance

instance {is64 : Bool} : Obeys L (translateAlu idx i is64 st) := by
  unfold translateAlu; infer_instance

instance {base : RegInfo} {insnOff : Int} {nbytes : Nat} {what : String} :
    Obeys L (ctxAccessOk idx base insnOff nbytes what) := by
  unfold ctxAccessOk; infer_instance

instance {baseHdr : Nat} {off : Int} : Obeys L (emitAddress idx baseHdr off) := by
  unfold emitAddress; infer_instance

instance {mi : MapInfo} : Obeys L (checkMapModelled idx mi) := by
  unfold checkMapModelled; split <;> infer_instance

instance {mi : MapInfo} {key : Option Nat} : Obeys L (checkArrayKey idx mi key) := by
  unfold checkArrayKey; split <;> infer_instance

instance {kp : RegInfo} {kw : Width} : Obeys L (readMapKey idx kp kw) := by
  unfold readMapKey; infer_instance

instance {mi : MapInfo} {kp : RegInfo} {kw : Width} : Obeys L (emitSlot idx mi kp st kw) := by
  unfold emitSlot
  refine .bind inferInstance fun _ => ?_
  split
  · infer_instance
  · refine .bind inferInstance fun _ => ?_
    split <;> infer_instance

instance {w : Width} {region tRaw : Nat} {offs : List Nat} :
    Obeys L (emitWidened idx w region tRaw offs) := by
  induction offs with
  | nil => unfold emitWidened; infer_instance
  | cons off offs ih => unfold emitWidened; infer_instance

instance {mr : MapRef} {kw : Width} : Obeys L (emitSlotHeaders idx mr kw) := by
  unfold emitSlotHeaders; infer_instance

instance {mi : MapInfo} {kp : RegInfo} {kw : Width} :
    Obeys L (emitArrayLookup idx mi kp st kw) := by
  unfold emitArrayLookup
  refine .bind inferInstance fun _ => ?_
  split
  · infer_instance
  · refine .bind inferInstance fun _ => ?_
    split
    · infer_instance
    · refine .bind inferInstance fun _ => .bind inferInstance fun _ =>
        .bind inferInstance fun _ => ?_
      dsimp only
      split <;> infer_instance

instance {mr : MapRef} {kp : RegInfo} {kw : Width} : Obeys L (emitTaggedLookup idx mr kp kw) := by
  unfold emitTaggedLookup
  refine .bind inferInstance fun _ => ?_
  split <;> infer_instance

instance [L.AllowsCount] : Obeys L (emitMapLookup idx st) := by
  unfold emitMapLookup
  refine .bind inferInstance fun c => ?_
  dsimp only
  split
  · infer_instance
  · refine .bind inferInstance fun _ => ?_
    have harms : ∀ (mr : MapRef) (arms : Option (List Arm)), Obeys L (match arms with
        | none => pure (none, st)
        | some arms => pure (some arms, (st.setReg 0 (mapPointer .mapval 0 mr.m)).clobber) :
        TransM (Option (List Arm) × AbsState)) := by
      intro mr arms
      split <;> infer_instance
    infer_instance

instance {src dst : Nat} {d : Operand} {tSa tDa tB : Nat} {is : List Nat} :
    Obeys L (emitCopyBytes src dst d tSa tDa tB is) := by
  induction is with
  | nil => unfold emitCopyBytes; infer_instance
  | cons i is ih => unfold emitCopyBytes emitCopyByte; infer_instance

instance {vp : RegInfo} {mr : MapRef} {dst : Operand} : Obeys L (copyMapValue idx vp mr dst) := by
  unfold copyMapValue; infer_instance

instance {mr : MapRef} {vp : RegInfo} {kw : Width} {tTag mark : Nat} {insert : Bool} {i : Nat} :
    Obeys L (armOps idx mr vp kw tTag mark insert i) := by
  unfold armOps; dsimp only
  refine .bind inferInstance fun _ => .bind ?_ fun _ => inferInstance
  infer_instance

instance {arm : Nat → TransM (Option (List Op))} [∀ i, Obeys L (arm i)]
    {entries : Nat → List MatchEntry} {is : List Nat} : Obeys L (slotArms arm entries is) := by
  induction is with
  | nil => unfold slotArms; infer_instance
  | cons i is ih =>
    unfold slotArms
    refine .bind inferInstance fun _ => ?_
    split
    · infer_instance
    · refine .bind inferInstance fun _ => ?_
      split <;> infer_instance

instance {mr : MapRef} {kp vp : RegInfo} {kw : Width} :
    Obeys L (emitTaggedUpdate idx mr kp vp kw) := by
  unfold emitTaggedUpdate
  refine .bind inferInstance fun _ => ?_
  split
  · infer_instance
  · refine .bind inferInstance fun _ => ?_
    have hinserts : ∀ (overwrites : List Arm) (full : Arm) (inserts : Option (List Arm)),
        Obeys L (match inserts with
          | none => pure none
          | some inserts =>
            pure (some (overwrites ++ full :: (inserts ++ [([], [constOp (hReg 0) (-e2big)])]))) :
          TransM (Option (List Arm))) := by
      intro overwrites full inserts
      split <;> infer_instance
    dsimp only
    iterate 7 refine .bind inferInstance fun _ => ?_
    refine .bind inferInstance fun _ => ?_
    split <;> infer_instance

instance {mr : MapRef} {kp vp : RegInfo} {kw : Width} :
    Obeys L (emitArrayUpdate idx mr kp vp st kw) := by
  unfold emitArrayUpdate
  refine .bind inferInstance fun _ => ?_
  split <;> infer_instance

instance [L.AllowsCount] {mr : MapRef} {kp vp : RegInfo} :
    Obeys L (emitMapWrite idx mr kp vp st) := by
  unfold emitMapWrite
  have hwrite : Obeys L (do
      match ← emitTaggedUpdate idx mr kp vp (widthName mr.mi.keySize) with
      | none => pure (none, st.clobber)
      | some arms => pure (some arms, st.clobber.setReg 0 .scalar) :
      TransM (Option (List Arm) × AbsState)) := by
    refine .bind inferInstance fun _ => ?_
    split <;> infer_instance
  infer_instance

instance [L.AllowsCount] : Obeys L (emitMapUpdate idx st) := by
  unfold emitMapUpdate
  refine .bind inferInstance fun c => ?_
  dsimp only
  split
  · infer_instance
  · refine .bind inferInstance fun _ => .ite inferInstance (.ite inferInstance (.ite ?_ ?_)) <;>
      infer_instance

instance : Obeys L (translateLdPkt idx i st) := by
  unfold translateLdPkt; infer_instance

instance {is32 : Bool} {lhs : Nat} : Obeys L (emitJset idx i is32 lhs) := by
  unfold emitJset; infer_instance

instance {is32 signed : Bool} {reg : Nat} : Obeys L (emitSide idx is32 signed reg) := by
  unfold emitSide; infer_instance

instance {is32 signed : Bool} {lhs : Nat} : Obeys L (emitSides idx i is32 signed lhs) := by
  unfold emitSides; infer_instance

instance : Obeys L (emitCondition idx i) := by
  unfold emitCondition
  refine .bind inferInstance fun _ => .ite inferInstance (.bind inferInstance fun _ => ?_)
  dsimp only
  split <;> infer_instance

instance [L.AllowsCount] : Obeys L (translateCall idx i st) := by
  unfold translateCall; infer_instance

instance [L.AllowsCount] {insns : List Insn} {lead : Nat → Bool} {end_ : Nat} :
    Obeys L (translateTerm insns lead end_ st) := by
  unfold translateTerm
  dsimp only
  refine .ite inferInstance (.ite ?_ ?_) <;>
  · refine .bind inferInstance fun _ => ?_
    split <;> infer_instance

instance {insns : List Insn} {k : Nat} {lead : Nat → Bool} : Obeys L (leaderStep insns k lead) := by
  unfold leaderStep; infer_instance

instance {insns : List Insn} {is : List Nat} {lead : Nat → Bool} :
    Obeys L (leaderLoop insns is lead) := by
  induction is generalizing lead with
  | nil => unfold leaderLoop; infer_instance
  | cons i is ih => unfold leaderLoop; infer_instance

instance {insns : List Insn} : Obeys L (findLeaders insns) := by
  unfold findLeaders; infer_instance

/-! ## The methods that index the register file -/

variable [L.AllowsRaise]

instance : Obeys L (translateLdx idx i st) := by
  unfold translateLdx translateLdxStack translateLdxRegion; infer_instance

instance {fromReg : Bool} : Obeys L (translateStore idx i st fromReg) := by
  unfold translateStore translateStoreStack translateStoreRegion; infer_instance

instance {insns : List Insn} : Obeys L (translateLdImm64 idx insns st) := by
  unfold translateLdImm64
  dsimp only
  have hwide : ∀ (c : Config) (i j : Insn), Obeys L (match c.insnMapIdx idx with
      | some m => do
        set_ (hReg i.dst) 0
        pure (2, ← writeReg st i.dst (mapPointer .map 0 m))
      | none => do
        if i.src ≠ 0 then
          unsupported idx s!"LD_IMM64 with src_reg={i.src.val} (map/pseudo immediate)"
        else pure ()
        let v := j.imm32 <<< 32 ||| i.imm32
        set_ (hReg i.dst) v
        pure (2, ← writeReg st i.dst (scalarConst v))) := by
    intro c i j
    split <;> infer_instance
  infer_instance

instance : Obeys L (translatePlain idx i st) := by
  unfold translatePlain
  split <;> infer_instance

instance {insns : List Insn} : Obeys L (translateOne idx insns st) := by
  unfold translateOne
  infer_instance

instance {insns : List Insn} {bodyEnd fuel k : Nat} :
    Obeys L (translateBody insns bodyEnd fuel k st) := by
  induction fuel generalizing k st with
  | zero => unfold translateBody; infer_instance
  | succ fuel ih => unfold translateBody; infer_instance

instance [L.AllowsCount] {insns : List Insn} {lead : Nat → Bool} {b : Nat}
    {blockIn : Nat → AbsState} : Obeys L (translateBlock insns lead b blockIn) := by
  unfold translateBlock; infer_instance

instance [L.AllowsCount] {insns : List Insn} {lead : Nat → Bool} {bs : List Nat}
    {blockIn : Nat → AbsState} : Obeys L (translateBlocks insns lead bs blockIn) := by
  induction bs generalizing blockIn with
  | nil => unfold translateBlocks; infer_instance
  | cons b bs ih => unfold translateBlocks; infer_instance

end Methods

end Ect
