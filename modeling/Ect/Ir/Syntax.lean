-- SUMMARY: The operations, match patterns and modules of the IR the translator emits.
import Mathlib.Tactic.Ring

/-!
# IR syntax

What `pybpf/ir.py` builds, as data rather than as text. A program is a chain of
transformer modules; a transformer is a list of rules; a rule is a match pattern
and the operations it runs.
-/

namespace Ect

/-- The widths an operation can have, `W8` to `W64`. -/
inductive Width where
  | w8 | w16 | w32 | w64
  deriving DecidableEq, Repr

namespace Width

def bytes : Width → Nat
  | w8 => 1
  | w16 => 2
  | w32 => 4
  | w64 => 8

def bits (w : Width) : Nat := 8 * w.bytes

@[simp] theorem bits_w8 : bits w8 = 8 := rfl
@[simp] theorem bits_w16 : bits w16 = 16 := rfl
@[simp] theorem bits_w32 : bits w32 = 32 := rfl
@[simp] theorem bits_w64 : bits w64 = 64 := rfl

@[simp] theorem bytes_w8 : bytes w8 = 1 := rfl
@[simp] theorem bytes_w16 : bytes w16 = 2 := rfl
@[simp] theorem bytes_w32 : bytes w32 = 4 := rfl
@[simp] theorem bytes_w64 : bytes w64 = 8 := rfl

theorem bytes_pos (w : Width) : 0 < w.bytes := by cases w <;> decide

theorem pow_bits (w : Width) : 2 ^ w.bits = 256 ^ w.bytes := by cases w <;> rfl

theorem bits_pos (w : Width) : 0 < w.bits := by cases w <;> decide

theorem bits_le (w : Width) : w.bits ≤ 64 := by cases w <;> decide

theorem pow_bits_le (w : Width) : 2 ^ w.bits ≤ 2 ^ 64 := by
  exact Nat.pow_le_pow_right (by decide) w.bits_le

end Width

/-- An operand of an operation: a constant or a header. -/
inductive Operand where
  | const (v : Nat)
  | header (h : Nat)
  deriving DecidableEq, Repr

/-- Coq's `uint64` is an integer; constants are emitted already reduced mod `2^64`. -/
def konst (v : Int) : Operand := .const (v % 2 ^ 64).toNat

/-- A non-negative constant. -/
def konstN (v : Nat) : Operand := konst v

def hdr (h : Nat) : Operand := .header h

/-- The stateless binary operators. -/
inductive BinOp where
  | add | sub | and | or | xor | mul | div | mod
  deriving DecidableEq, Repr

inductive Op where
  | stateless (f : BinOp) (w : Width) (a1 a2 : Operand) (target : Nat)
  | cast (frm into : Width) (arg : Operand) (target : Nat)
  | load (w : Width) (region : Nat) (off : Operand) (target : Nat)
  | store (w : Width) (region : Nat) (off val : Operand)
  deriving DecidableEq, Repr

/-- The comparisons a match pattern can make. -/
inductive Cmp where
  | eq | gt | lt
  deriving DecidableEq, Repr

inductive MatchVal where
  | const (k : Nat) (w : Width)
  | header (h : Nat)
  deriving DecidableEq, Repr

/-- One entry of a match pattern: header `cmp` value. -/
structure MatchEntry where
  lhs : Nat
  cmp : Cmp
  rhs : MatchVal
  deriving DecidableEq, Repr

def matchConst (k : Int) (w : Width) : MatchVal := .const (k % 2 ^ 64).toNat w

def matchHeader (h : Nat) : MatchVal := .header h

def cmpEntry (lhs : Nat) (cmp : Cmp) (rhs : MatchVal) : MatchEntry := ⟨lhs, cmp, rhs⟩

structure Rule where
  entries : List MatchEntry
  ops : List Op
  deriving DecidableEq, Repr

/-- Every transformer ends with an empty-pattern default rule; it does nothing,
so a state whose pc names no block passes through untouched. -/
def defaultRule : Rule := ⟨[], []⟩

/-- A `TransformerModule`: its module id and its rules, tried in order. -/
structure Transformer where
  id : Nat
  rules : List Rule
  deriving DecidableEq, Repr

/-! ## Operations the translator writes often -/

/-- `dst := imm`, at u64. -/
def setOp (target : Nat) (v : Int) : Op := .stateless .add .w64 (konst v) (konst 0) target

/-- `dst := src`, at u64. -/
def moveOp (target src : Nat) : Op := .stateless .add .w64 (hdr src) (konst 0) target

def setPcOp (pc hPc : Nat) : Op := .stateless .add .w64 (.const pc) (.const 0) hPc

def assignOp (target srcHdr : Nat) : Op :=
  .stateless .add .w64 (.header srcHdr) (.const 0) target

/-- `dst := v`, at u64. The arms of a map scan assign a literal value pointer. -/
def constOp (target : Nat) (v : Int) : Op :=
  .stateless .add .w64 (konst v) (.const 0) target

def zeroOp (target : Nat) : Op := constOp target 0

end Ect
