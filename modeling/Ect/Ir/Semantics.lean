-- SUMMARY: Evaluation of the IR: typed values, regions, rules, and the transformer chain.
import Ect.Base.LittleEndian
import Ect.Ir.Syntax

/-!
# IR semantics

The evaluator the emitted program is run on. A header holds a typed value: an
integer at a width, `ErrorVal`, or nothing yet. A region is an array of byte
cells; an access of width `w` covers `w.bytes` consecutive cells, little-endian.

An operation whose operand does not hold an integer of the operation's width
yields `ErrorVal`. Every access is logged. An access outside the declared region
yields `ErrorVal` when it is a load and changes nothing when it is a store, and
it rejects the run at the sink (`State.Rejects`).
-/

namespace Ect

open LittleEndian

/-- A typed value (`CrVal`). -/
inductive CrVal where
  | uninit
  | error
  | int (w : Width) (n : Nat)
  deriving DecidableEq, Repr

/-- The integer a value holds, if it holds one of width `w`. -/
def CrVal.asInt (w : Width) : CrVal → Option Nat
  | .int w' n => if w' = w then some n else none
  | _ => none

@[simp] theorem CrVal.asInt_int (w : Width) (n : Nat) : (CrVal.int w n).asInt w = some n := by
  simp [CrVal.asInt]

theorem CrVal.asInt_eq_some {v : CrVal} {w : Width} {n : Nat} :
    v.asInt w = some n ↔ v = .int w n := by
  cases v with
  | int w' m =>
    by_cases h : w' = w
    · subst h; simp [CrVal.asInt]
    · simp [CrVal.asInt, h]
  | _ => simp [CrVal.asInt]

/-- A cell of a region: a byte, or `none` for a cell that is no proper byte. -/
abbrev Cell := Option Byte

/-- One access to a region: `nbytes` cells from `off`. -/
structure Access where
  isStore : Bool
  region : Nat
  off : Nat
  nbytes : Nat
  deriving DecidableEq, Repr

/-- The access leaves the region, given the regions' lengths. -/
def Access.Overruns (len : Nat → Nat) (a : Access) : Prop := len a.region < a.off + a.nbytes

instance (len : Nat → Nat) (a : Access) : Decidable (a.Overruns len) :=
  inferInstanceAs (Decidable (_ < _))

/-- The state a chain runs on: the header map, the regions, and the accesses
made so far, oldest first. -/
structure State where
  hdr : Nat → CrVal
  mem : Nat → Nat → Cell
  log : List Access

namespace State

def setHdr (σ : State) (h : Nat) (v : CrVal) : State :=
  { σ with hdr := fun h' => if h' = h then v else σ.hdr h' }

def setMem (σ : State) (r : Nat) (m : Nat → Cell) : State :=
  { σ with mem := fun r' => if r' = r then m else σ.mem r' }

def addLog (σ : State) (a : Access) : State := { σ with log := σ.log ++ [a] }

@[simp] theorem setHdr_hdr (σ : State) (h h' : Nat) (v : CrVal) :
    (σ.setHdr h v).hdr h' = if h' = h then v else σ.hdr h' := rfl
@[simp] theorem setHdr_mem (σ : State) (h : Nat) (v : CrVal) : (σ.setHdr h v).mem = σ.mem := rfl
@[simp] theorem setHdr_log (σ : State) (h : Nat) (v : CrVal) : (σ.setHdr h v).log = σ.log := rfl
@[simp] theorem setMem_hdr (σ : State) (r : Nat) (m : Nat → Cell) : (σ.setMem r m).hdr = σ.hdr :=
  rfl
@[simp] theorem setMem_mem (σ : State) (r r' : Nat) (m : Nat → Cell) :
    (σ.setMem r m).mem r' = if r' = r then m else σ.mem r' := rfl
@[simp] theorem setMem_log (σ : State) (r : Nat) (m : Nat → Cell) : (σ.setMem r m).log = σ.log :=
  rfl
@[simp] theorem addLog_hdr (σ : State) (a : Access) : (σ.addLog a).hdr = σ.hdr := rfl
@[simp] theorem addLog_mem (σ : State) (a : Access) : (σ.addLog a).mem = σ.mem := rfl
@[simp] theorem addLog_log (σ : State) (a : Access) : (σ.addLog a).log = σ.log ++ [a] := rfl

end State

/-! ## Operations -/

/-- Arithmetic modulo `2 ^ w`, with `x / 0 = 0` and `x % 0 = x`. -/
def BinOp.eval (f : BinOp) (w : Width) (x y : Nat) : Nat :=
  (match f with
    | .add => x + y
    | .sub => 2 ^ w.bits - y + x
    | .and => x &&& y
    | .or => x ||| y
    | .xor => x ^^^ y
    | .mul => x * y
    | .div => x / y
    | .mod => x % y) % 2 ^ w.bits

/-- A constant operand adopts the operation's width. -/
def Operand.eval (σ : State) (w : Width) : Operand → Option Nat
  | .const k => some (k % 2 ^ w.bits)
  | .header h => (σ.hdr h).asInt w

/-- The value at `w` of the cells from `off`, when all of them are bytes. -/
def readCells (m : Nat → Cell) (off : Nat) : Nat → Option (List Byte)
  | 0 => some []
  | k + 1 => do
    let b ← m off
    let bs ← readCells m (off + 1) k
    some (b :: bs)

/-- The cells after the byte string `bs` is written at `off`. -/
def writeCells (m : Nat → Cell) (off : Nat) (cs : List Cell) : Nat → Cell :=
  fun i => if off ≤ i ∧ i < off + cs.length then cs.getD (i - off) none else m i

def loadVal (m : Nat → Cell) (w : Width) (off : Nat) : CrVal :=
  match readCells m off w.bytes with
  | some bs => .int w (leNat bs)
  | none => .error

/-- The cells a store of `v` at width `w` leaves: the bytes of an integer of
that width, and no proper bytes for anything else. -/
def storeCells (w : Width) (v : Option Nat) : List Cell :=
  match v with
  | some n => (leBytes w.bytes n).map some
  | none => List.replicate w.bytes none

def Op.eval (len : Nat → Nat) (σ : State) : Op → State
  | .stateless f w a1 a2 t =>
    match a1.eval σ w, a2.eval σ w with
    | some x, some y => σ.setHdr t (.int w (f.eval w x y))
    | _, _ => σ.setHdr t .error
  | .cast frm into a t =>
    match a.eval σ frm with
    | some x => σ.setHdr t (.int into (x % 2 ^ into.bits))
    | none => σ.setHdr t .error
  | .load w r off t =>
    match off.eval σ .w64 with
    | none => σ.setHdr t .error
    | some o =>
      let σ' := σ.addLog ⟨false, r, o, w.bytes⟩
      if o + w.bytes ≤ len r then σ'.setHdr t (loadVal (σ.mem r) w o) else σ'.setHdr t .error
  | .store w r off v =>
    match off.eval σ .w64 with
    | none => σ
    | some o =>
      let σ' := σ.addLog ⟨true, r, o, w.bytes⟩
      if o + w.bytes ≤ len r then
        σ'.setMem r (writeCells (σ.mem r) o (storeCells w (v.eval σ w)))
      else σ'

def runOps (len : Nat → Nat) (σ : State) (ops : List Op) : State := ops.foldl (Op.eval len) σ

@[simp] theorem runOps_nil (len : Nat → Nat) (σ : State) : runOps len σ [] = σ := rfl
@[simp] theorem runOps_cons (len : Nat → Nat) (σ : State) (o : Op) (os : List Op) :
    runOps len σ (o :: os) = runOps len (o.eval len σ) os := rfl
@[simp] theorem runOps_append (len : Nat → Nat) (σ : State) (xs ys : List Op) :
    runOps len σ (xs ++ ys) = runOps len (runOps len σ xs) ys := by
  simp [runOps]

/-! ## Frames -/

/-- `σ'` differs from `σ` in the headers that satisfy `T` alone. -/
structure State.SameBut (T : Nat → Prop) (σ σ' : State) : Prop where
  mem : σ'.mem = σ.mem
  log : σ'.log = σ.log
  hdr : ∀ h, ¬T h → σ'.hdr h = σ.hdr h

namespace State.SameBut

variable {T : Nat → Prop} {σ₁ σ₂ σ₃ : State}

theorem refl (σ : State) : σ.SameBut T σ := ⟨rfl, rfl, fun _ _ => rfl⟩

theorem trans (h₁ : σ₁.SameBut T σ₂) (h₂ : σ₂.SameBut T σ₃) : σ₁.SameBut T σ₃ :=
  ⟨h₂.mem.trans h₁.mem, h₂.log.trans h₁.log, fun h hT => (h₂.hdr h hT).trans (h₁.hdr h hT)⟩

theorem mono {T' : Nat → Prop} (h : σ₁.SameBut T σ₂) (hT : ∀ h, T h → T' h) : σ₁.SameBut T' σ₂ :=
  ⟨h.mem, h.log, fun k hk => h.hdr k fun hTk => hk (hT k hTk)⟩

theorem setHdr (σ : State) {h : Nat} (v : CrVal) (hT : T h) : σ.SameBut T (σ.setHdr h v) := by
  refine ⟨rfl, rfl, fun k hk => ?_⟩
  have hne : k ≠ h := by rintro rfl; exact hk hT
  simp [hne]

end State.SameBut

/-- The operation computes into a header that satisfies `T`. -/
def Op.Into (T : Nat → Prop) : Op → Prop
  | .stateless _ _ _ _ t => T t
  | .cast _ _ _ t => T t
  | .load .. => False
  | .store .. => False

theorem Op.Into.mono {T T' : Nat → Prop} {op : Op} (h : op.Into T)
    (hT : ∀ h, T h → T' h) : op.Into T' := by
  cases op with
  | stateless | cast => exact hT _ h
  | load | store => exact h.elim

theorem Op.Into.sameBut {T : Nat → Prop} {op : Op} (h : op.Into T) (len : Nat → Nat) (σ : State) :
    σ.SameBut T (op.eval len σ) := by
  cases op with
  | stateless f w a1 a2 t =>
    simp only [Op.eval]
    split <;> exact .setHdr σ _ h
  | cast frm into a t =>
    simp only [Op.eval]
    split <;> exact .setHdr σ _ h
  | load => exact h.elim
  | store => exact h.elim

theorem runOps_sameBut {T : Nat → Prop} {ops : List Op} (h : ∀ op ∈ ops, op.Into T)
    (len : Nat → Nat) (σ : State) : σ.SameBut T (runOps len σ ops) := by
  induction ops generalizing σ with
  | nil => exact .refl σ
  | cons op ops ih =>
    have hop := (h op (by simp)).sameBut len σ
    exact hop.trans (ih (fun op hop => h op (by simp [hop])) _)

/-- The operation writes no header but one that satisfies `T`. Unlike `Op.Into`, it may
access a region. -/
def Op.Writes (T : Nat → Prop) : Op → Prop
  | .stateless _ _ _ _ t => T t
  | .cast _ _ _ t => T t
  | .load _ _ _ t => T t
  | .store .. => True

@[simp] theorem Op.writes_stateless {T : Nat → Prop} {f : BinOp} {w : Width}
    {a b : Operand} {t : Nat} :
    (Op.stateless f w a b t).Writes T ↔ T t := .rfl
@[simp] theorem Op.writes_cast {T : Nat → Prop} {frm into : Width} {a : Operand} {t : Nat} :
    (Op.cast frm into a t).Writes T ↔ T t := .rfl
@[simp] theorem Op.writes_load {T : Nat → Prop} {w : Width} {r : Nat} {a : Operand} {t : Nat} :
    (Op.load w r a t).Writes T ↔ T t := .rfl
@[simp] theorem Op.writes_store {T : Nat → Prop} {w : Width} {r : Nat} {a v : Operand} :
    (Op.store w r a v).Writes T ↔ True := .rfl

theorem Op.Into.writes {T : Nat → Prop} {op : Op} (h : op.Into T) : op.Writes T := by
  cases op <;> first | exact h | trivial

theorem Op.Writes.mono {T T' : Nat → Prop} {op : Op} (h : op.Writes T) (hT : ∀ k, T k → T' k) :
    op.Writes T' := by
  cases op <;> first | exact hT _ h | trivial

theorem Op.Writes.hdr {T : Nat → Prop} {op : Op} (h : op.Writes T) (len : Nat → Nat) (σ : State)
    {k : Nat} (hk : ¬T k) : (op.eval len σ).hdr k = σ.hdr k := by
  have hne : ∀ {t}, T t → k ≠ t := fun ht he => hk (he ▸ ht)
  cases op <;> simp only [Op.eval, Op.Writes] at h ⊢ <;> (repeat' split) <;>
    first | rfl | simp [hne h]

/-- No operation of the list writes a header but those that satisfy `T`. -/
def AllWrite (T : Nat → Prop) (ops : List Op) : Prop := ∀ op ∈ ops, op.Writes T

section AllWrite

variable {T : Nat → Prop} {ops : List Op}

@[simp] theorem allWrite_nil : AllWrite T [] := by simp [AllWrite]

@[simp] theorem allWrite_cons {op : Op} :
    AllWrite T (op :: ops) ↔ op.Writes T ∧ AllWrite T ops := by simp [AllWrite]

@[simp] theorem allWrite_append {xs ys : List Op} :
    AllWrite T (xs ++ ys) ↔ AllWrite T xs ∧ AllWrite T ys := by
  simp only [AllWrite, List.mem_append, or_imp, forall_and]

theorem AllWrite.of_into (h : ∀ op ∈ ops, op.Into T) : AllWrite T ops := fun op hop =>
  (h op hop).writes

theorem AllWrite.mono {T' : Nat → Prop} (h : AllWrite T ops) (hT : ∀ k, T k → T' k) :
    AllWrite T' ops := fun op hop => (h op hop).mono hT

theorem runOps_hdr (h : AllWrite T ops) (len : Nat → Nat) (σ : State) {k : Nat} (hk : ¬T k) :
    (runOps len σ ops).hdr k = σ.hdr k := by
  induction ops generalizing σ with
  | nil => rfl
  | cons op ops ih =>
    obtain ⟨hop, hops⟩ := allWrite_cons.mp h
    rw [runOps_cons, ih hops, hop.hdr len σ hk]

end AllWrite

/-! ## Match patterns and transformers -/

/-- Comparisons are unsigned, and false unless both sides are integers of one
width. -/
def Cmp.eval (c : Cmp) : CrVal → CrVal → Bool
  | .int w x, .int w' y =>
    w == w' && (match c with
      | .eq => x == y
      | .gt => y < x
      | .lt => x < y)
  | _, _ => false

def MatchVal.eval (σ : State) : MatchVal → CrVal
  | .const k w => .int w k
  | .header h => σ.hdr h

def MatchEntry.holds (σ : State) (e : MatchEntry) : Bool := e.cmp.eval (σ.hdr e.lhs) (e.rhs.eval σ)

def Rule.fires (σ : State) (r : Rule) : Bool := r.entries.all (MatchEntry.holds σ)

/-- Only the first rule whose pattern holds on entry runs. -/
def runRules (len : Nat → Nat) (σ : State) : List Rule → State
  | [] => σ
  | r :: rs => if r.fires σ then runOps len σ r.ops else runRules len σ rs

def Transformer.run (len : Nat → Nat) (σ : State) (t : Transformer) : State :=
  runRules len σ t.rules

/-- The chain runs its transformers one after the other. -/
def runChain (len : Nat → Nat) (σ : State) (ts : List Transformer) : State :=
  ts.foldl (Transformer.run len) σ

@[simp] theorem runChain_nil (len : Nat → Nat) (σ : State) : runChain len σ [] = σ := rfl
@[simp] theorem runChain_cons (len : Nat → Nat) (σ : State) (t : Transformer)
    (ts : List Transformer) : runChain len σ (t :: ts) = runChain len (t.run len σ) ts := rfl
@[simp] theorem runChain_append (len : Nat → Nat) (σ : State) (xs ys : List Transformer) :
    runChain len σ (xs ++ ys) = runChain len (runChain len σ xs) ys := by
  simp [runChain]

/-- The chain of the transformers with the given rules. -/
def runModules (len : Nat → Nat) (σ : State) (mods : List (List Rule)) : State :=
  mods.foldl (runRules len) σ

@[simp] theorem runModules_nil (len : Nat → Nat) (σ : State) : runModules len σ [] = σ := rfl
@[simp] theorem runModules_cons (len : Nat → Nat) (σ : State) (m : List Rule)
    (ms : List (List Rule)) : runModules len σ (m :: ms) = runModules len (runRules len σ m) ms :=
      rfl
@[simp] theorem runModules_append (len : Nat → Nat) (σ : State) (xs ys : List (List Rule)) :
    runModules len σ (xs ++ ys) = runModules len (runModules len σ xs) ys := by
  simp [runModules]

theorem runChain_eq_runModules (len : Nat → Nat) (σ : State) (ts : List Transformer) :
    runChain len σ ts = runModules len σ (ts.map Transformer.rules) := by
  simp only [runChain, runModules, List.foldl_map]
  rfl

/-- The declared length of a region, 0 for an undeclared one. -/
def regionLen (regions : List (Nat × Nat)) (r : Nat) : Nat := (regions.lookup r).getD 0

/-! ## What a run shows -/

/-- An overrun rejects the run at the sink. -/
def State.Rejects (len : Nat → Nat) (σ : State) : Prop := ∃ a ∈ σ.log, a.Overruns len

instance (len : Nat → Nat) (σ : State) : Decidable (σ.Rejects len) :=
  inferInstanceAs (Decidable (∃ a ∈ σ.log, a.Overruns len))

/-- The deparser emits the low 32 bits of a header. -/
def State.emit32 (σ : State) (h : Nat) : Option Nat := (σ.hdr h).asInt .w64 |>.map (· % 2 ^ 32)

/-- How far into a region the run reached: one past the highest cell accessed. -/
def State.extent (σ : State) (r : Nat) : Nat :=
  (σ.log.filter (·.region = r)).foldl (fun m a => max m (a.off + a.nbytes)) 0

/-- The state every run starts from: no header holds anything, the regions hold
whatever they hold, and nothing was accessed. -/
def State.initial (mem : Nat → Nat → Cell) : State := ⟨fun _ => .uninit, mem, []⟩

end Ect
