-- SUMMARY: The translator's state and the monad its methods run in, with the decomposition of accepted runs.
import Ect.Ir.Syntax
import Ect.Translate.Provenance

/-!
# The translator monad

A method of `Translator` reads and updates the object's state, may append
operations to the op list being built, may report diagnostics, and may raise a
Python exception. `had_error` is set by every diagnostic and by nothing else, so
it is read off as "some diagnostic was reported".

`TransM.Accepts` is a run that raises nothing and reports nothing. It decomposes
through `bind`, so an accepted translation is accepted at every step.
-/

namespace Ect

/-- The exceptions a method can raise: an index outside `st.reg`. -/
inductive PyErr where
  | indexError
  deriving DecidableEq, Repr

/-- The attributes that are in place before `translate_program` and that no method
it calls updates. -/
structure Config where
  ctx : CtxLayout
  /-- Sorted by name before use. -/
  maps : List MapInfo
  /-- Instruction index to map index. -/
  insnMapIdx : Nat → Option Nat

/-- An XDP program without maps. -/
def xdpConfig : Config := ⟨ctxXdpMd, [], fun _ => none⟩

/-- The attributes the methods update, other than the op list of the block being
translated, which is the output of `TransM`, and the module list, which the block
loop returns. -/
structure Translator where
  /-- Slot to header id. -/
  stackHdrOf : Nat → Option Nat
  nextStackHdr : Nat
  /-- Scratch pool cursor. -/
  tmpNext : Nat
  /-- Map index to the helper calls on it. -/
  mapSites : Nat → Nat

def Translator.init : Translator where
  stackHdrOf := fun _ => none
  nextStackHdr := hStackBase
  tmpNext := 0
  mapSites := fun _ => 0

/-- What a method puts out: operations appended, and diagnostics reported. -/
structure Out where
  ops : List Op
  diags : List String
  deriving DecidableEq, Repr

def Out.empty : Out := ⟨[], []⟩

def Out.append (a b : Out) : Out := ⟨a.ops ++ b.ops, a.diags ++ b.diags⟩

def TransM (α : Type) : Type := Config → Translator → Except PyErr (α × Translator × Out)

namespace TransM

protected def pure {α : Type} (a : α) : TransM α := fun _ t => .ok (a, t, .empty)

protected def bind {α β : Type} (x : TransM α) (f : α → TransM β) : TransM β := fun c t =>
  match x c t with
  | .error e => .error e
  | .ok (a, t₁, o₁) =>
    match f a c t₁ with
    | .error e => .error e
    | .ok (b, t₂, o₂) => .ok (b, t₂, o₁.append o₂)

instance : Monad TransM where
  pure := TransM.pure
  bind := TransM.bind

def config : TransM Config := fun c t => .ok (c, t, .empty)

def get : TransM Translator := fun _ t => .ok (t, t, .empty)

def modify (f : Translator → Translator) : TransM Unit := fun _ t => .ok ((), f t, .empty)

def raise {α : Type} (e : PyErr) : TransM α := fun _ _ => .error e

def emit (op : Op) : TransM Unit := fun _ t => .ok ((), t, ⟨[op], []⟩)

/-- Run a method on an op list of its own, and hand that list back. -/
def capture {α : Type} (x : TransM α) : TransM (α × List Op) := fun c t =>
  match x c t with
  | .error e => .error e
  | .ok (a, t', o) => .ok ((a, o.ops), t', ⟨[], o.diags⟩)

/-! ## Accepted runs -/

/-- The method returns `a`, leaves `t'`, appends `ops`, and reports nothing. -/
def Accepts {α : Type} (m : TransM α) (c : Config) (t : Translator) (a : α) (t' : Translator)
    (ops : List Op) : Prop :=
  m c t = .ok (a, t', ⟨ops, []⟩)

/-- What an accepted run returns. -/
def result {α : Type} (m : TransM α) (c : Config) (t : Translator) : Option α :=
  match m c t with
  | .ok (a, _, o) => if o.diags = [] then some a else none
  | .error _ => none

section Accepts

variable {α β : Type} {c : Config} {t t' : Translator} {ops : List Op}

theorem accepts_of_result {m : TransM α} {a : α} (h : m.result c t = some a) :
    ∃ t' ops, m.Accepts c t a t' ops := by
  unfold result at h
  split at h
  · rename_i a' t' o hrun
    split at h
    · rename_i hd
      obtain rfl := Option.some.inj h
      obtain ⟨ops, diags⟩ := o
      obtain rfl : diags = [] := hd
      exact ⟨t', ops, hrun⟩
    · cases h
  · cases h

@[simp] theorem accepts_pure {a b : α} :
    (pure a : TransM α).Accepts c t b t' ops ↔ b = a ∧ t' = t ∧ ops = [] := by
  simp only [Accepts, pure, TransM.pure, Out.empty]
  constructor
  · intro h; simp at h; tauto
  · rintro ⟨rfl, rfl, rfl⟩; rfl

/-- An accepted sequence is an accepted first part followed by an accepted rest. -/
@[simp] theorem accepts_bind {x : TransM α} {f : α → TransM β} {b : β} :
    (x >>= f).Accepts c t b t' ops ↔
      ∃ a t₁ o₁, x.Accepts c t a t₁ o₁ ∧ ∃ o₂, (f a).Accepts c t₁ b t' o₂ ∧ ops = o₁ ++ o₂ := by
  simp only [Accepts, bind, TransM.bind]
  constructor
  · intro h
    split at h
    · cases h
    · rename_i a t₁ o₁ hx
      split at h
      · cases h
      · rename_i b' t₂ o₂ hf
        simp only [Out.append, Except.ok.injEq, Prod.mk.injEq, Out.mk.injEq,
          List.append_eq_nil_iff] at h
        obtain ⟨rfl, rfl, rfl, h₁, h₂⟩ := h
        refine ⟨a, t₁, o₁.ops, ?_, o₂.ops, ?_, rfl⟩
        · rw [hx, ← h₁]
        · rw [hf, ← h₂]
  · rintro ⟨a, t₁, o₁, hx, o₂, hf, rfl⟩
    simp [hx, hf, Out.append]

/-- The rest of an accepted sequence is accepted. -/
theorem Accepts.tail {x : TransM α} {f : α → TransM β} {b : β}
    (h : (x >>= f).Accepts c t b t' ops) : ∃ a t₁ o₂, (f a).Accepts c t₁ b t' o₂ := by
  obtain ⟨a, t₁, _, _, o₂, h, _⟩ := accepts_bind.mp h
  exact ⟨a, t₁, o₂, h⟩

@[simp] theorem accepts_config {a : Config} :
    config.Accepts c t a t' ops ↔ a = c ∧ t' = t ∧ ops = [] := by
  simp only [Accepts, config, Out.empty]
  constructor
  · intro h; simp at h; tauto
  · rintro ⟨rfl, rfl, rfl⟩; rfl

@[simp] theorem accepts_get {a : Translator} :
    get.Accepts c t a t' ops ↔ a = t ∧ t' = t ∧ ops = [] := by
  simp only [Accepts, get, Out.empty]
  constructor
  · intro h; simp at h; tauto
  · rintro ⟨rfl, rfl, rfl⟩; rfl

@[simp] theorem accepts_modify {f : Translator → Translator} {a : Unit} :
    (modify f).Accepts c t a t' ops ↔ t' = f t ∧ ops = [] := by
  simp only [Accepts, modify, Out.empty]
  constructor
  · intro h; simp at h; tauto
  · rintro ⟨rfl, rfl⟩; rfl

@[simp] theorem accepts_raise {e : PyErr} {a : α} :
    ¬ (raise e : TransM α).Accepts c t a t' ops := by
  simp [Accepts, raise]

@[simp] theorem accepts_emit {op : Op} {a : Unit} :
    (emit op).Accepts c t a t' ops ↔ t' = t ∧ ops = [op] := by
  simp only [Accepts, emit]
  constructor
  · intro h; simp at h; tauto
  · rintro ⟨rfl, rfl⟩; rfl

@[simp] theorem accepts_capture {x : TransM α} {p : α × List Op} :
    (capture x).Accepts c t p t' ops ↔ x.Accepts c t p.1 t' p.2 ∧ ops = [] := by
  obtain ⟨a, o⟩ := p
  simp only [Accepts, capture]
  constructor
  · intro h
    split at h
    · cases h
    · rename_i a' t₁ out hx
      simp only [Except.ok.injEq, Prod.mk.injEq, Out.mk.injEq] at h
      obtain ⟨⟨rfl, rfl⟩, rfl, rfl, hd⟩ := h
      exact ⟨by rw [hx, ← hd], rfl⟩
  · rintro ⟨hx, rfl⟩
    rw [hx]

end Accepts

/-! ## Diagnostics, scratch headers and registers -/

def unsupported (idx : Nat) (msg : String) : TransM Unit := fun _ t =>
  .ok ((), t, ⟨[], [s!"bpf_to_ir: insn {idx}: unsupported: {msg}"]⟩)

def error (msg : String) : TransM Unit := fun _ t => .ok ((), t, ⟨[], [s!"bpf_to_ir: {msg}"]⟩)

/-- The next scratch header of the pool, which wraps when it runs out. -/
def freshTmp (idx : Nat) : TransM Nat := do
  let t ← get
  if t.tmpNext ≥ numTmps then
    unsupported idx "ran out of scratch headers"
    modify fun t => { t with tmpNext := 1 }
    pure (hTmp 0)
  else
    modify fun t => { t with tmpNext := t.tmpNext + 1 }
    pure (hTmp t.tmpNext)

def setTmpNext (k : Nat) : TransM Unit := modify fun t => { t with tmpNext := k }

/-- `st.reg[r]`, an `IndexError` outside the register file. -/
def readReg (st : AbsState) (r : Nat) : TransM RegInfo :=
  if r < numBpfRegs then pure (st.reg r) else raise .indexError

/-- `st.reg[r] = v`, an `IndexError` outside the register file. -/
def writeReg (st : AbsState) (r : Nat) (v : RegInfo) : TransM AbsState :=
  if r < numBpfRegs then pure (st.setReg r v) else raise .indexError

/-- Allocated on first use, in source order; 0 for a slot outside the frame. -/
def stackHeader (slot : Int) : TransM Nat := do
  let t ← get
  if slot < 0 ∨ slot > bpfStackSize then pure 0
  else
    match t.stackHdrOf slot.toNat with
    | some h => pure h
    | none =>
      modify fun t => { t with
        stackHdrOf := fun k => if k = slot.toNat then some t.nextStackHdr else t.stackHdrOf k
        nextStackHdr := t.nextStackHdr + 1 }
      pure t.nextStackHdr

def binop (f : BinOp) (w : Width) (a1 a2 : Operand) (target : Nat) : TransM Unit :=
  emit (.stateless f w a1 a2 target)

def cast (frm into : Width) (arg : Operand) (target : Nat) : TransM Unit :=
  emit (.cast frm into arg target)

def load (w : Width) (region : Nat) (off : Operand) (target : Nat) : TransM Unit :=
  emit (.load w region off target)

def store (w : Width) (region : Nat) (off val : Operand) : TransM Unit :=
  emit (.store w region off val)

/-- `dst := imm`, at u64. -/
def set_ (target : Nat) (v : Int) : TransM Unit := emit (setOp target v)

/-- `dst := src`, at u64. -/
def move (target src : Nat) : TransM Unit := emit (moveOp target src)

section Accepts

variable {c : Config} {t t' : Translator} {ops : List Op}

@[simp] theorem accepts_unsupported {idx : Nat} {msg : String} {a : Unit} :
    ¬ (unsupported idx msg).Accepts c t a t' ops := by
  simp [Accepts, unsupported]

@[simp] theorem accepts_error {msg : String} {a : Unit} :
    ¬ (error msg).Accepts c t a t' ops := by
  simp [Accepts, error]

@[simp] theorem accepts_freshTmp {idx a : Nat} :
    (freshTmp idx).Accepts c t a t' ops ↔
      t.tmpNext < numTmps ∧ a = hTmp t.tmpNext ∧
        t' = { t with tmpNext := t.tmpNext + 1 } ∧ ops = [] := by
  simp only [freshTmp, accepts_bind, accepts_get]
  constructor
  · rintro ⟨_, _, _, ⟨rfl, rfl, rfl⟩, _, h, rfl⟩
    split at h
    · simp at h
    · rename_i hlt
      simp only [accepts_bind, accepts_modify, accepts_pure] at h
      obtain ⟨_, _, _, ⟨rfl, rfl⟩, _, ⟨rfl, rfl, rfl⟩, rfl⟩ := h
      exact ⟨by omega, rfl, rfl, rfl⟩
  · rintro ⟨hlt, rfl, rfl, rfl⟩
    refine ⟨_, _, _, ⟨rfl, rfl, rfl⟩, [], ?_, rfl⟩
    rw [if_neg (by omega)]
    exact accepts_bind.mpr ⟨(), _, [], accepts_modify.mpr ⟨rfl, rfl⟩, [],
      accepts_pure.mpr ⟨rfl, rfl, rfl⟩, rfl⟩

@[simp] theorem accepts_setTmpNext {k : Nat} {a : Unit} :
    (setTmpNext k).Accepts c t a t' ops ↔ t' = { t with tmpNext := k } ∧ ops = [] := by
  simp [setTmpNext]

@[simp] theorem accepts_readReg {st : AbsState} {r : Nat} {v : RegInfo} :
    (readReg st r).Accepts c t v t' ops ↔
      r < numBpfRegs ∧ v = st.reg r ∧ t' = t ∧ ops = [] := by
  unfold readReg
  split <;> simp [*]

@[simp] theorem accepts_writeReg {st st' : AbsState} {r : Nat} {v : RegInfo} :
    (writeReg st r v).Accepts c t st' t' ops ↔
      r < numBpfRegs ∧ st' = st.setReg r v ∧ t' = t ∧ ops = [] := by
  unfold writeReg
  split <;> simp [*]

@[simp] theorem accepts_binop {f : BinOp} {w : Width} {a1 a2 : Operand} {target : Nat} {a : Unit} :
    (binop f w a1 a2 target).Accepts c t a t' ops ↔
      t' = t ∧ ops = [.stateless f w a1 a2 target] := by
  simp [binop]

@[simp] theorem accepts_cast {frm into : Width} {arg : Operand} {target : Nat} {a : Unit} :
    (cast frm into arg target).Accepts c t a t' ops ↔
      t' = t ∧ ops = [.cast frm into arg target] := by
  simp [cast]

@[simp] theorem accepts_load {w : Width} {region : Nat} {off : Operand} {target : Nat} {a : Unit} :
    (load w region off target).Accepts c t a t' ops ↔
      t' = t ∧ ops = [.load w region off target] := by
  simp [load]

@[simp] theorem accepts_store {w : Width} {region : Nat} {off val : Operand} {a : Unit} :
    (store w region off val).Accepts c t a t' ops ↔
      t' = t ∧ ops = [.store w region off val] := by
  simp [store]

@[simp] theorem accepts_set {target : Nat} {v : Int} {a : Unit} :
    (set_ target v).Accepts c t a t' ops ↔ t' = t ∧ ops = [setOp target v] := by
  simp [set_]

@[simp] theorem accepts_move {target src : Nat} {a : Unit} :
    (move target src).Accepts c t a t' ops ↔ t' = t ∧ ops = [moveOp target src] := by
  simp [move]

end Accepts

end TransM

end Ect
