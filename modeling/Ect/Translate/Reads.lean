-- SUMMARY: Which registers the operations a method emits may read.
import Ect.Translate.Growth

/-!
# Registers that are read

The headers an operation names as operands, or a match entry on either side, are what it
reads. `ReadsIn` says of a method that the operations it emits read no register but those of
a set, and something of what it returns; `Confined` is the first half alone, found from that
of the methods it calls. Scratch headers and the headers of stack slots are no registers'.
-/

namespace Ect

open TransM

/-! ## What is read -/

def Operand.Names (h : Nat) : Operand → Prop
  | .const _ => False
  | .header h' => h' = h

/-- The operation reads the header. -/
def Op.Reads (h : Nat) : Op → Prop
  | .stateless _ _ a1 a2 _ => a1.Names h ∨ a2.Names h
  | .cast _ _ arg _ => arg.Names h
  | .load _ _ off _ => off.Names h
  | .store _ _ off val => off.Names h ∨ val.Names h

def MatchVal.Names (h : Nat) : MatchVal → Prop
  | .const _ _ => False
  | .header h' => h' = h

def MatchEntry.Reads (h : Nat) (e : MatchEntry) : Prop := e.lhs = h ∨ e.rhs.Names h

def Rule.Reads (h : Nat) (r : Rule) : Prop :=
  (∃ e ∈ r.entries, e.Reads h) ∨ ∃ op ∈ r.ops, op.Reads h

/-! ## Within a set of registers -/

/-- A header that is no register's, or that of a register of the set. A class, so that it is
found from the way the header is named. -/
class Allowed (S : Nat → Prop) (h : Nat) : Prop where
  reg : ∀ r : Fin 16, h = hReg r → S r

class AllowedOperand (S : Nat → Prop) (a : Operand) : Prop where
  names : ∀ r : Fin 16, a.Names (hReg r) → S r

class AllowedOp (S : Nat → Prop) (op : Op) : Prop where
  reads : ∀ r : Fin 16, op.Reads (hReg r) → S r

/-- The entry reads registers of the set alone. -/
def AllowedEntry (S : Nat → Prop) (e : MatchEntry) : Prop := ∀ r : Fin 16, e.Reads (hReg r) → S r

section Allowed

variable {S : Nat → Prop}

instance {k : Nat} : Allowed S (hTmp k) := ⟨fun r h => by unfold hTmp hReg at h; omega⟩

theorem Allowed.of_reg {r : Nat} (h : S r) : Allowed S (hReg r) :=
  ⟨fun r' heq => by unfold hReg at heq; rwa [show (r' : Nat) = r by omega]⟩

theorem Allowed.of_stack {h : Nat} (hh : h = 0 ∨ hStackBase ≤ h) : Allowed S h :=
  ⟨fun r heq => by unfold hStackBase at hh; unfold hReg at heq; omega⟩

instance {h : Nat} [hh : Allowed S h] : AllowedOperand S (hdr h) := ⟨hh.reg⟩
instance {h : Nat} [hh : Allowed S h] : AllowedOperand S (.header h) := ⟨hh.reg⟩
instance {v : Int} : AllowedOperand S (konst v) := ⟨fun _ => False.elim⟩
instance {v : Nat} : AllowedOperand S (konstN v) := ⟨fun _ => False.elim⟩
instance {v : Nat} : AllowedOperand S (.const v) := ⟨fun _ => False.elim⟩

instance {p : Prop} [Decidable p] {a b : Operand} [AllowedOperand S a] [AllowedOperand S b] :
    AllowedOperand S (if p then a else b) := by
  split <;> assumption

instance {f : BinOp} {w : Width} {a1 a2 : Operand} {target : Nat} [h1 : AllowedOperand S a1]
    [h2 : AllowedOperand S a2] : AllowedOp S (.stateless f w a1 a2 target) :=
  ⟨fun r h => h.elim (h1.names r) (h2.names r)⟩
instance {frm into : Width} {arg : Operand} {target : Nat} [h1 : AllowedOperand S arg] :
    AllowedOp S (.cast frm into arg target) := ⟨h1.names⟩
instance {w : Width} {region : Nat} {off : Operand} {target : Nat} [h1 : AllowedOperand S off] :
    AllowedOp S (.load w region off target) := ⟨h1.names⟩
instance {w : Width} {region : Nat} {off val : Operand} [h1 : AllowedOperand S off]
    [h2 : AllowedOperand S val] : AllowedOp S (.store w region off val) :=
  ⟨fun r h => h.elim (h1.names r) (h2.names r)⟩

theorem allowedEntry_const {h : Nat} {cmp : Cmp} {k : Int} {w : Width} (hh : Allowed S h) :
    AllowedEntry S (cmpEntry h cmp (matchConst k w)) :=
  fun r hr => hr.elim (hh.reg r) False.elim

theorem allowedEntry_header {h h' : Nat} {cmp : Cmp} (hh : Allowed S h) (hh' : Allowed S h') :
    AllowedEntry S (cmpEntry h cmp (matchHeader h')) :=
  fun r hr => hr.elim (hh.reg r) (hh'.reg r)

end Allowed

/-! ## Methods -/

/-- Every run that returns emits operations on registers of the set alone, and returns
something with the property. -/
def ReadsIn {α : Type} (S : Nat → Prop) (m : TransM α) (P : α → Prop) : Prop :=
  ∀ c t a t' o, t.WF → m c t = .ok (a, t', o) → t'.WF ∧ P a ∧ ∀ op ∈ o.ops, AllowedOp S op

section ReadsIn

variable {α β : Type} {S : Nat → Prop} {P : α → Prop} {Q : β → Prop}

theorem ReadsIn.pure {a : α} (h : P a) : ReadsIn S (pure a) P := by
  rintro c t _ _ _ hwf ⟨⟩
  exact ⟨hwf, h, by simp [Out.empty]⟩

theorem ReadsIn.bind {x : TransM α} {f : α → TransM β} (hx : ReadsIn S x P)
    (hf : ∀ a, P a → ReadsIn S (f a) Q) : ReadsIn S (x >>= f) Q := by
  intro c t b t' o hwf h
  obtain ⟨a, t₁, o₁, o₂, h₁, h₂, rfl⟩ := ok_bind h
  obtain ⟨hwf₁, hP, hops₁⟩ := hx _ _ _ _ _ hwf h₁
  obtain ⟨hwf₂, hQ, hops₂⟩ := hf a hP _ _ _ _ _ hwf₁ h₂
  refine ⟨hwf₂, hQ, fun op hop => ?_⟩
  rcases List.mem_append.mp hop with hop | hop
  · exact hops₁ op hop
  · exact hops₂ op hop

theorem ReadsIn.ite {p : Prop} [Decidable p] {x y : TransM α} (hx : p → ReadsIn S x P)
    (hy : ¬p → ReadsIn S y P) : ReadsIn S (if p then x else y) P := by
  split
  · exact hx ‹_›
  · exact hy ‹_›

theorem ReadsIn.capture {x : TransM α} (hx : ReadsIn S x P) :
    ReadsIn S (capture x) fun p => P p.1 ∧ ∀ op ∈ p.2, AllowedOp S op := by
  intro c t p t' o hwf h
  obtain ⟨o', hrun, hops, rfl⟩ := ok_capture h
  obtain ⟨hwf', hP, hin⟩ := hx _ _ _ _ _ hwf hrun
  exact ⟨hwf', ⟨hP, hops ▸ hin⟩, by simp⟩

/-- What is known of the result besides. -/
theorem ReadsIn.gives {x : TransM α} {P' : α → Prop} (hx : ReadsIn S x P) (hg : x.Gives P') :
    ReadsIn S x fun a => P a ∧ P' a := by
  intro c t a t' o hwf hrun
  obtain ⟨hwf', hP, hops⟩ := hx _ _ _ _ _ hwf hrun
  exact ⟨hwf', ⟨hP, hg _ _ _ _ _ hrun⟩, hops⟩

end ReadsIn

/-- The operations the method emits read registers of the set alone. A class, as `Obeys` is. -/
class Confined {α : Type} (S : Nat → Prop) (m : TransM α) : Prop where
  reads : ReadsIn S m fun _ => True

section Rules

variable {α β : Type} {S : Nat → Prop}

instance {a : α} : Confined S (pure a : TransM α) := ⟨.pure trivial⟩

instance {x : TransM α} {f : α → TransM β} [hx : Confined S x] [hf : ∀ a, Confined S (f a)] :
    Confined S (x >>= f) :=
  ⟨hx.reads.bind fun a _ => (hf a).reads⟩

instance {p : Prop} [Decidable p] {x y : TransM α} [hx : Confined S x] [hy : Confined S y] :
    Confined S (if p then x else y) :=
  ⟨.ite (fun _ => hx.reads) fun _ => hy.reads⟩

/-- First a method of which only what it emits matters. -/
theorem Confined.then {x : TransM α} (hx : Confined S x) {f : α → TransM β} {Q : β → Prop}
    (hf : ∀ a, ReadsIn S (f a) Q) : ReadsIn S (x >>= f) Q :=
  hx.reads.bind fun a _ => hf a

/-- A method that emits nothing and keeps the table. -/
theorem Confined.of_silent {x : TransM α} [Obeys growth x]
    (h : ∀ c t a t' o, x c t = .ok (a, t', o) → o.ops = []) : Confined S x := by
  refine ⟨fun c t a t' o hwf hrun => ⟨(grows_of_ok hrun).wf hwf, trivial, ?_⟩⟩
  rw [h _ _ _ _ _ hrun]
  simp

instance : Confined S config := .of_silent (by rintro _ _ _ _ _ ⟨⟩; rfl)
instance : Confined S get := .of_silent (by rintro _ _ _ _ _ ⟨⟩; rfl)
instance {idx : Nat} {msg : String} : Confined S (unsupported idx msg) :=
  .of_silent (by rintro _ _ _ _ _ ⟨⟩; rfl)
instance {k : Nat} : Confined S (setTmpNext k) := .of_silent (by rintro _ _ _ _ _ ⟨⟩; rfl)
instance {m : Nat} : Confined S (countMapSite m) := .of_silent (by rintro _ _ _ _ _ ⟨⟩; rfl)
instance {e : PyErr} : Confined S (raise e : TransM α) := ⟨by rintro _ _ _ _ _ _ ⟨⟩⟩

instance {op : Op} [h : AllowedOp S op] : Confined S (emit op) where
  reads := by
    rintro c t _ _ _ hwf ⟨⟩
    refine ⟨hwf, trivial, fun op' hop => ?_⟩
    obtain rfl := List.mem_singleton.mp hop
    exact h

instance {st : AbsState} {r : Nat} : Confined S (readReg st r) := by
  unfold readReg; infer_instance

instance {st : AbsState} {r : Nat} {v : RegInfo} : Confined S (writeReg st r v) := by
  unfold writeReg; infer_instance

/-- A fresh scratch header is no register's. -/
theorem freshTmp_reads {idx : Nat} : ReadsIn S (freshTmp idx) fun h => ∃ k, h = hTmp k := by
  intro c t a t' o hwf h
  refine ⟨(grows_of_ok h).wf hwf, ?_⟩
  unfold freshTmp at h
  obtain ⟨_, _, _, _, ⟨⟩, h₁, rfl⟩ := ok_bind h
  split at h₁
  · obtain ⟨_, _, _, _, ⟨⟩, h₂, rfl⟩ := ok_bind h₁
    obtain ⟨_, _, _, _, ⟨⟩, ⟨⟩, rfl⟩ := ok_bind h₂
    exact ⟨⟨_, rfl⟩, by simp [Out.append, Out.empty]⟩
  · obtain ⟨_, _, _, _, ⟨⟩, ⟨⟩, rfl⟩ := ok_bind h₁
    exact ⟨⟨_, rfl⟩, by simp [Out.append, Out.empty]⟩

theorem fresh_reads {idx : Nat} {f : Nat → TransM β} {Q : β → Prop}
    (h : ∀ k, ReadsIn S (f (hTmp k)) Q) : ReadsIn S (freshTmp idx >>= f) Q := by
  refine freshTmp_reads.bind ?_
  rintro _ ⟨k, rfl⟩
  exact h k

instance {idx : Nat} {f : Nat → TransM β} [h : ∀ k, Confined S (f (hTmp k))] :
    Confined S (freshTmp idx >>= f) :=
  ⟨fresh_reads fun k => (h k).reads⟩

/-- Nor is the header of a stack slot. -/
theorem stackHeader_reads {slot : Int} : ReadsIn S (stackHeader slot) (Allowed S) := by
  intro c t h t' o hwf hrun
  obtain ⟨h', t₁, hacc⟩ := stackHeader_returns c t slot
  cases hrun.symm.trans hacc
  obtain ⟨_, hg, _, hslot⟩ := stackHeader_accepts hacc
  refine ⟨hg.wf hwf, .of_stack ?_, by simp⟩
  rcases hslot with ⟨_, h0⟩ | ⟨_, _, hk⟩
  · exact .inl h0
  · exact .inr ((hg.wf hwf).range hk).1

instance {slot : Int} {f : Nat → TransM β} [hf : ∀ h [Allowed S h], Confined S (f h)] :
    Confined S (stackHeader slot >>= f) :=
  ⟨stackHeader_reads.bind fun h _ => (hf h).reads⟩

end Rules

/-! ## Straight-line instructions -/

section Straight

set_option synthInstance.maxSize 1024

variable {S : Nat → Prop} {idx : Nat} {i : Insn} {st : AbsState}

instance {f : BinOp} {w : Width} {a1 a2 : Operand} {target : Nat} [AllowedOperand S a1]
    [AllowedOperand S a2] : Confined S (binop f w a1 a2 target) := by
  unfold binop; infer_instance

instance {frm into : Width} {arg : Operand} {target : Nat} [AllowedOperand S arg] :
    Confined S (TransM.cast frm into arg target) := by
  unfold TransM.cast; infer_instance

instance {w : Width} {region : Nat} {off : Operand} {target : Nat} [AllowedOperand S off] :
    Confined S (load w region off target) := by
  unfold load; infer_instance

instance {w : Width} {region : Nat} {off val : Operand} [AllowedOperand S off]
    [AllowedOperand S val] : Confined S (store w region off val) := by
  unfold store; infer_instance

instance {target : Nat} {v : Int} : Confined S (set_ target v) := by
  unfold set_ setOp; infer_instance

instance {target src : Nat} [Allowed S src] : Confined S (move target src) := by
  unfold move moveOp; infer_instance

instance {reg k bits : Nat} [Allowed S reg] : Confined S (emitArshConst idx reg k bits) := by
  unfold emitArshConst; dsimp only; infer_instance

instance {nbytes tSrc tAcc tB : Nat} {is : List Nat} [Allowed S tSrc]
    [Allowed S tAcc] [Allowed S tB] :
    Confined S (emitBswapBytes nbytes tSrc tAcc tB is) := by
  induction is with
  | nil => unfold emitBswapBytes; infer_instance
  | cons i is ih => unfold emitBswapBytes emitBswapByte; infer_instance

instance {src nbytes target : Nat} [Allowed S src] :
    Confined S (emitBswap idx src nbytes target) := by
  unfold emitBswap; infer_instance

theorem aluOps_reads {is64 : Bool} (hdst : S i.dst) (hsrc : i.isImm = false → S i.src) :
    Confined S (aluOps idx i is64) := by
  have := Allowed.of_reg hdst
  unfold aluOps
  cases himm : i.isImm with
  | true =>
    cases i.aluOp <;>
      simp only [aluMov, aluNeg, aluShift, aluShiftBy, aluEnd, aluBinop, himm, if_true] <;>
      (try split) <;> infer_instance
  | false =>
    have := Allowed.of_reg (hsrc himm)
    cases i.aluOp <;>
      simp only [aluMov, aluNeg, aluShift, aluShiftBy, aluEnd, aluBinop, himm] <;>
      (try split) <;> infer_instance

/-- A plain integer, which names no map. -/
def RegInfo.Plain (v : RegInfo) : Prop := v.tag = .scalar ∧ v.mapidx = -1

/-- What is no plain integer was made by an instruction that mentions the register, but for
the frame pointer. -/
def TagsSeen (S : Nat → Prop) (st : AbsState) : Prop :=
  ∀ r, ¬(st.reg r).Plain → S r ∨ r = 10

theorem TagsSeen.setReg (h : TagsSeen S st) {r : Nat} {v : RegInfo} (hr : S r ∨ v.Plain) :
    TagsSeen S (st.setReg r v) := by
  intro r' hr'
  rw [AbsState.setReg_reg] at hr'
  split at hr'
  · rename_i heq
    subst heq
    exact .inl (hr.resolve_right hr')
  · exact h r' hr'

theorem TagsSeen.setSlot (h : TagsSeen S st) (k : Nat) (v : RegInfo) :
    TagsSeen S (st.setSlot k v) := h

theorem TagsSeen.clobber (h : TagsSeen S st) : TagsSeen S st.clobber := by
  intro r hr
  rw [AbsState.clobber_reg] at hr
  split at hr
  · exact absurd ⟨rfl, rfl⟩ hr
  · exact h r hr

theorem readReg_then {α : Type} {r : Nat} {f : RegInfo → TransM α} {Q : α → Prop}
    (h : ReadsIn S (f (st.reg r)) Q) : ReadsIn S (readReg st r >>= f) Q := by
  have hread : ReadsIn S (readReg st r) (· = st.reg r) := by
    unfold readReg
    split
    · exact .pure rfl
    · rintro _ _ _ _ _ _ ⟨⟩
  exact hread.bind fun a ha => ha ▸ h

theorem writeReg_reads {r : Nat} {v : RegInfo} (hst : TagsSeen S st) (hr : S r ∨ v.Plain) :
    ReadsIn S (writeReg st r v) (TagsSeen S) := by
  unfold writeReg
  split
  · exact .pure (hst.setReg hr)
  · rintro _ _ _ _ _ _ ⟨⟩

theorem translateAlu_reads {is64 : Bool} (hst : TagsSeen S st) (hdst : S i.dst)
    (hsrc : i.isImm = false → S i.src) : ReadsIn S (translateAlu idx i is64 st) (TagsSeen S) := by
  have hops : Confined S (aluOps idx i is64) := aluOps_reads hdst hsrc
  exact .ite (fun _ => Confined.then inferInstance fun _ => .pure hst)
    fun _ => hops.then fun _ => .pure (hst.setReg (.inl hdst))

/-! ## Loads and stores -/

instance {base : RegInfo} {off : Int} {nbytes : Nat} {what : String} :
    Confined S (ctxAccessOk idx base off nbytes what) := by
  unfold ctxAccessOk; dsimp only; infer_instance

theorem address_reads {α : Type} {hd : Nat} {off : Int} [Allowed S hd]
    {f : Nat → TransM α} {Q : α → Prop}
    (h : ∀ k, ReadsIn S (f (hTmp k)) Q) : ReadsIn S (emitAddress idx hd off >>= f) Q := by
  have haddr : ReadsIn S (emitAddress idx hd off) fun a => ∃ k, a = hTmp k :=
    fresh_reads fun k => Confined.then inferInstance fun _ => .pure ⟨k, rfl⟩
  refine haddr.bind ?_
  rintro _ ⟨k, rfl⟩
  exact h k

theorem translateLdx_reads (hst : TagsSeen S st) (hdst : S i.dst) (hsrc : S i.src) :
    ReadsIn S (translateLdx idx i st) (TagsSeen S) := by
  have := Allowed.of_reg hsrc
  have hwrite : ∀ v, ReadsIn S (writeReg st i.dst v) (TagsSeen S) := fun v =>
    writeReg_reads hst (.inl hdst)
  refine readReg_then (.ite (fun _ => ?_) fun _ => ?_)
  · refine .ite (fun _ => Confined.then inferInstance fun _ => hwrite _) fun _ =>
      stackHeader_reads.bind fun sh hsh => .ite
        (fun _ => Confined.then inferInstance fun _ => hwrite _)
        fun _ => Confined.then inferInstance fun _ => hwrite _
  · have hrest : ∀ c : Config, ReadsIn S (do
        ctxAccessOk idx (st.reg i.src) i.off.toInt i.width.bytes "load"
        let tAddr ← emitAddress idx (hReg i.src) i.off.toInt
        let tVal ← freshTmp idx
        load i.width (regionOf c.maps (st.reg i.src)) (hdr tAddr) tVal
        TransM.cast i.width .w64 (hdr tVal) (hReg i.dst)
        writeReg st i.dst (ldxInfo c.ctx i (st.reg i.src))) (TagsSeen S) := fun c =>
      Confined.then inferInstance fun _ => address_reads fun k => fresh_reads fun k' =>
        Confined.then inferInstance fun _ => Confined.then inferInstance fun _ => hwrite _
    exact Confined.then inferInstance fun c => .ite
      (fun _ => Confined.then inferInstance fun _ => hrest c) fun _ => hrest c

theorem translateStore_reads {fromReg : Bool} (hst : TagsSeen S st) (hdst : S i.dst)
    (hsrc : fromReg = true → S i.src) :
    ReadsIn S (translateStore idx i st fromReg) (TagsSeen S) := by
  have := Allowed.of_reg hdst
  refine readReg_then (.ite (fun _ => ?_) fun _ => ?_)
  · refine .ite (fun _ => Confined.then inferInstance fun _ => .pure hst) fun _ =>
      stackHeader_reads.bind fun sh hsh => .ite
        (fun _ => Confined.then inferInstance fun _ => .pure hst)
        fun _ => .ite (fun hreg => ?_) fun _ => Confined.then inferInstance fun _ =>
          .pure (hst.setSlot _ _)
    have := Allowed.of_reg (hsrc hreg)
    exact Confined.then inferInstance fun _ => readReg_then (.pure (hst.setSlot _ _))
  · have hrest : ∀ c : Config, ReadsIn S (do
        ctxAccessOk idx (st.reg i.dst) i.off.toInt i.width.bytes "store"
        let tAddr ← emitAddress idx (hReg i.dst) i.off.toInt
        if fromReg then do
          let tVal ← freshTmp idx
          TransM.cast .w64 i.width (hdr (hReg i.src)) tVal
          store i.width (regionOf c.maps (st.reg i.dst)) (hdr tAddr) (hdr tVal)
        else store i.width (regionOf c.maps (st.reg i.dst)) (hdr tAddr) (konst i.imm64)
        pure st) (TagsSeen S) := by
      refine fun c => Confined.then inferInstance fun _ => address_reads fun k =>
        .ite (fun hreg => ?_) fun _ => Confined.then inferInstance fun _ => .pure hst
      have := Allowed.of_reg (hsrc hreg)
      exact fresh_reads fun k' => Confined.then inferInstance fun _ =>
        Confined.then inferInstance fun _ => .pure hst
    exact Confined.then inferInstance fun c => .ite
      (fun _ => Confined.then inferInstance fun _ => hrest c) fun _ => hrest c

theorem translateLdPkt_reads (hst : TagsSeen S st) (hsrc : i.mode = .ind → S i.src) :
    ReadsIn S (translateLdPkt idx i st) (TagsSeen S) := by
  have hret : ReadsIn S (pure (st.setReg 0 .scalar).clobber) (TagsSeen S) :=
    .pure (hst.setReg (.inr ⟨rfl, rfl⟩)).clobber
  have hrest : ∀ k, ReadsIn S (do
      let tVal ← freshTmp idx
      load i.width regionPkt (hdr (hTmp k)) tVal
      TransM.cast i.width .w64 (hdr tVal) tVal
      emitBswap idx tVal i.width.bytes (hReg 0)
      pure (st.setReg 0 .scalar).clobber) (TagsSeen S) := fun k =>
    fresh_reads fun k' => Confined.then inferInstance fun _ => Confined.then inferInstance fun _ =>
      Confined.then inferInstance fun _ => hret
  refine .ite (fun _ => Confined.then inferInstance fun _ => .pure hst) fun _ =>
    fresh_reads fun k => .ite (fun hind => ?_) fun _ => Confined.then inferInstance fun _ => hrest k
  have := Allowed.of_reg (hsrc hind)
  exact Confined.then inferInstance fun _ => hrest k

/-! ## One instruction -/

theorem translatePlain_reads (hld : i.isLdImm64 = false) (hst : TagsSeen S st)
    (h : ∀ r ∈ mentionedRegs i, S r) : ReadsIn S (translatePlain idx i st) (TagsSeen S) := by
  have hsrcX : i.isImm = false → i.srcX = true := by intro h; simpa [Insn.isImm] using h
  unfold translatePlain
  simp only [mentionedRegs, hld, Bool.false_eq_true, if_false] at h
  have halu : ∀ is64, (∀ r ∈ if i.srcX = true then [(i.dst : Nat), i.src] else [i.dst], S r) →
      ReadsIn S (translateAlu idx i is64 st) (TagsSeen S) := by
    intro is64 h
    refine translateAlu_reads hst (h _ (by split <;> simp)) fun himm => h _ ?_
    rw [if_pos (hsrcX himm)]
    simp
  cases hcls : i.cls <;> simp only [hcls] at h ⊢
  case alu64 => exact halu true h
  case alu => exact halu false h
  case ldx => exact translateLdx_reads hst (h _ (by simp)) (h _ (by simp))
  case stx =>
    exact .ite (fun _ => Confined.then inferInstance fun _ => .pure hst) fun _ =>
      translateStore_reads hst (h _ (by simp)) fun _ => h _ (by simp)
  case st => exact translateStore_reads hst (h _ (by simp)) (by simp)
  case ld =>
    refine .ite (fun _ => translateLdPkt_reads hst fun hind => h _ ?_) fun _ =>
      Confined.then inferInstance fun _ => .pure hst
    rw [if_pos hind]
    simp
  all_goals exact Confined.then inferInstance fun _ => .pure hst

theorem translateOne_reads {insns : List Insn} (hst : TagsSeen S st)
    (h : ∀ r ∈ mentionedRegs (insnAt insns idx), S r) :
    ReadsIn S (translateOne idx insns st) fun p => TagsSeen S p.2 := by
  refine Confined.then inferInstance fun _ => .ite (fun _ => .pure hst) fun _ =>
    .ite (fun hld => ?_) fun hld => ?_
  · have hdst : S (insnAt insns idx).dst := h _ (by simp [mentionedRegs, hld])
    refine .ite (fun _ => Confined.then inferInstance fun _ => .pure hst) fun _ =>
      Confined.then inferInstance fun c => ?_
    dsimp only
    split
    · exact Confined.then inferInstance fun _ => (writeReg_reads hst (.inl hdst)).bind
        fun _ hst => .pure hst
    · have hrest : ReadsIn S (do
          set_ (hReg (insnAt insns idx).dst)
            ((insnAt insns (idx + 1)).imm32 <<< 32 ||| (insnAt insns idx).imm32)
          pure (2, ← writeReg st (insnAt insns idx).dst
            (scalarConst ((insnAt insns (idx + 1)).imm32 <<< 32 ||| (insnAt insns idx).imm32))))
          fun p => TagsSeen S p.2 :=
        Confined.then inferInstance fun _ => (writeReg_reads hst (.inl hdst)).bind
          fun _ hst => .pure hst
      exact .ite (fun _ => Confined.then inferInstance fun _ => hrest) fun _ => hrest
  · exact (translatePlain_reads (by simpa using hld) hst h).bind fun _ hst => .pure hst

end Straight

end Ect
