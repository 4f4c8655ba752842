-- SUMMARY: The evaluator the tests run printed operations with, and that it computes what the IR does.
import Ect.Ir.Text
import Ect.Lowering.Synthesized

/-!
# The tests' evaluator

`tests/opeval.py` reads the operations the translator printed and runs them over a mapping
from headers to values. It has no types and no memory: widths only mask. On operations that
load nothing it keeps, for every header the IR leaves an integer in, that integer.
-/

namespace Ect.Opeval

open Sexp

/-- What the evaluator can fail with: the reader's exceptions, an operation it does not know,
and a term of another shape than the translator prints. -/
inductive Exn where
  | reader (e : Struct.Exn)
  | assertion
  | shape
  deriving DecidableEq, Repr

abbrev Regs : Type := Nat → Option Nat

/-- `int(s)` of decimal digits. -/
def int : Tree → Except Exn Nat
  | .atom s => if s ≠ [] ∧ s.all Char.isDigit then .ok (ofDigits s) else .error .shape
  | .list _ => .error .shape

/-- `_BITS[w]` -/
def bitsOf (w : Tree) : Except Exn Nat :=
  match w with
  | .atom s =>
    if s = "W8".toList then .ok 8
    else if s = "W16".toList then .ok 16
    else if s = "W32".toList then .ok 32
    else if s = "W64".toList then .ok 64
    else .error .shape
  | .list _ => .error .shape

/-- `v & ((1 << bits) - 1)` -/
def mask (v : Int) (bits : Nat) : Nat := (v % 2 ^ bits).toNat

def operand (regs : Regs) : Tree → Except Exn Nat
  | .list (.atom k :: v :: _) =>
    if k = "OpConst".toList then int v
    else if k = "OpHeader".toList then do return (regs (← int v)).getD 0
    else .error .assertion
  | _ => .error .shape

/-- Division and remainder follow BPF and the IR: `x/0 = 0` and `x%0 = x`. -/
def arith (f : Tok) (x y : Nat) : Except Exn Int :=
  if f = "AddOp".toList then .ok (x + y)
  else if f = "SubOp".toList then .ok (x - y)
  else if f = "AndOp".toList then .ok (x &&& y : Nat)
  else if f = "OrOp".toList then .ok (x ||| y : Nat)
  else if f = "XorOp".toList then .ok (x ^^^ y : Nat)
  else if f = "MulOp".toList then .ok (x * y)
  else if f = "DivOp".toList then .ok (if y = 0 then 0 else (x / y : Nat))
  else if f = "ModOp".toList then .ok (if y = 0 then x else (x % y : Nat))
  else .error .assertion

def set (regs : Regs) (h v : Nat) : Regs := fun h' => if h' = h then some v else regs h'

/-- The fields of a `StatelessOp`. -/
def evalStateless (regs : Regs) : List Tree → Except Exn Regs
  | [.atom f, w, a1, a2, target] => do
    let x ← operand regs a1
    let y ← operand regs a2
    let bits ← bitsOf w
    let r ← arith f (mask x bits) (mask y bits)
    return set regs (← int target) (mask r bits)
  | _ => .error .shape

/-- The fields of a `CastHeaderOp`. -/
def evalCast (regs : Regs) : List Tree → Except Exn Regs
  | [frm, into, arg, target] => do
    let x ← operand regs arg
    let low := mask x (← bitsOf frm)
    return set regs (← int target) (mask low (← bitsOf into))
  | _ => .error .shape

/-- One operation. Memory is not modelled here. -/
def evalNode (regs : Regs) : Tree → Except Exn Regs
  | .list (.atom k :: rest) =>
    if k = "StatelessOp".toList then evalStateless regs rest
    else if k = "CastHeaderOp".toList then evalCast regs rest
    else if k = "LoadOp".toList ∨ k = "StoreOp".toList then .ok regs
    else .error .assertion
  | _ => .error .assertion

/-- `_parse(op)` -/
def parseOp (limit : Nat) (op : String) : Except Exn Tree :=
  match node limit (tokenize op.toList) with
  | .ok (x, _) => .ok x
  | .error e => .error (.reader e)

/-- `eval_ops(ops, regs)` -/
def evalOps (limit : Nat) : List String → Regs → Except Exn Regs
  | [], regs => .ok regs
  | op :: ops, regs => do evalOps limit ops (← evalNode regs (← parseOp limit op))

/-! ## Reading what was printed -/

theorem int_num (n : Nat) : int (num n) = .ok n := by
  have hdigits : (toString n).toList ≠ [] ∧ (toString n).toList.all Char.isDigit = true := by
    rw [Nat.toString_eq_repr, Nat.toList_repr, List.all_eq_true]
    exact ⟨Nat.toDigits_ne_nil,
      fun c hc => Nat.isDigit_of_mem_toDigits (by decide) (by decide) hc⟩
  rw [num, int, if_pos hdigits, ofDigits_toString]

theorem bitsOf_name (w : Width) : bitsOf (ident w.name) = .ok w.bits := by
  cases w <;> rfl

/-- Every operation nests three levels deep. -/
theorem depth_op (op : Op) : op.tree.depth = 3 := by
  have hdepth (a : Operand) : a.tree.depth = 2 := by
    cases a <;> rfl
  cases op <;> simp [Op.tree, ident, num, Tree.depth, maxDepth, hdepth]

theorem parseOp_text {limit : Nat} (hlimit : 3 ≤ limit) (op : Op) :
    parseOp limit op.text = .ok op.tree := by
  have hread := node_toks limit [] op.tree op.prints.worded
  rw [List.append_nil, if_pos (by rw [depth_op]; exact hlimit)] at hread
  rw [parseOp, op.prints.toks, hread]

/-! ## Agreement with the IR -/

/-- Every integer of the state is below its width's bound, and the mapping holds it. -/
def Agrees (regs : Regs) (σ : State) : Prop :=
  ∀ h w n, σ.hdr h = .int w n → n < 2 ^ w.bits ∧ regs h = some n

variable {regs : Regs} {σ : State}

theorem mask_of_lt {n bits : Nat} (h : n < 2 ^ bits) : mask n bits = n := by
  have hcast : ((n : Int) % 2 ^ bits) = ((n % 2 ^ bits : Nat) : Int) := by push_cast; rfl
  rw [mask, hcast, Int.toNat_natCast, Nat.mod_eq_of_lt h]

theorem mask_nat (n bits : Nat) : mask n bits = n % 2 ^ bits := by
  have hcast : ((n : Int) % 2 ^ bits) = ((n % 2 ^ bits : Nat) : Int) := by push_cast; rfl
  rw [mask, hcast, Int.toNat_natCast]

theorem mask_lt (v : Int) (bits : Nat) : mask v bits < 2 ^ bits := by
  have hpos : (0 : Int) < 2 ^ bits := Int.pow_pos (by decide)
  rw [mask, Int.toNat_lt (Int.emod_nonneg v hpos.ne')]
  push_cast
  exact Int.emod_lt_of_pos v hpos

/-- The evaluator's operand, masked, is the IR's. -/
theorem operand_agrees (hag : Agrees regs σ) {w : Width} {a : Operand} {n : Nat}
    (h : a.eval σ w = some n) :
    n < 2 ^ w.bits ∧ ∃ v, operand regs a.tree = .ok v ∧ mask v w.bits = n := by
  cases a with
  | const k =>
    have hn : k % 2 ^ w.bits = n := by simpa [Operand.eval] using h
    refine ⟨hn ▸ Nat.mod_lt _ (Nat.two_pow_pos _), k, ?_, ?_⟩
    · rw [Operand.tree, ident, operand, if_pos rfl, int_num]
    · rw [mask_nat, hn]
  | header h' =>
    have hint : σ.hdr h' = .int w n := CrVal.asInt_eq_some.mp h
    obtain ⟨hlt, hreg⟩ := hag h' w n hint
    refine ⟨hlt, n, ?_, mask_of_lt hlt⟩
    rw [Operand.tree, ident, operand, if_neg (by decide), if_pos rfl, int_num]
    simp only [bind, Except.bind, pure, Except.pure, hreg, Option.getD_some]

theorem operand_total (regs : Regs) (a : Operand) : ∃ v, operand regs a.tree = .ok v := by
  cases a with
  | const k => exact ⟨k, by rw [Operand.tree, ident, operand, if_pos rfl, int_num]⟩
  | header h =>
    refine ⟨(regs h).getD 0, ?_⟩
    rw [Operand.tree, ident, operand, if_neg (by decide), if_pos rfl, int_num]
    rfl

/-- The masked result is the IR's. -/
theorem arith_agrees (f : BinOp) (w : Width) {x y : Nat} (hy : y < 2 ^ w.bits) :
    ∃ r, arith f.name.toList x y = .ok r ∧ mask r w.bits = f.eval w x y := by
  cases f with
  | sub =>
    refine ⟨(x : Int) - y, rfl, ?_⟩
    have hcast : ((x : Int) - y) % 2 ^ w.bits = ((2 ^ w.bits - y + x : Nat) : Int) % 2 ^ w.bits := by
      rw [Int.natCast_add, Int.natCast_sub hy.le]
      push_cast
      rw [show (2 : Int) ^ w.bits - y + x = (x : Int) - y + 2 ^ w.bits by ring,
        Int.add_emod_right]
    rw [mask, hcast, BinOp.eval]
    exact mask_nat _ _
  | add => exact ⟨_, rfl, mask_nat (x + y) _⟩
  | and => exact ⟨_, rfl, mask_nat (x &&& y) _⟩
  | or => exact ⟨_, rfl, mask_nat (x ||| y) _⟩
  | xor => exact ⟨_, rfl, mask_nat (x ^^^ y) _⟩
  | mul => exact ⟨_, rfl, mask_nat (x * y) _⟩
  | div =>
    refine ⟨_, rfl, ?_⟩
    rcases Nat.eq_zero_or_pos y with rfl | hpos
    · simp [mask, BinOp.eval]
    · rw [if_neg hpos.ne']
      exact mask_nat (x / y) _
  | mod =>
    refine ⟨_, rfl, ?_⟩
    rcases Nat.eq_zero_or_pos y with rfl | hpos
    · rw [if_pos rfl, mask_nat, BinOp.eval, Nat.mod_zero]
    · rw [if_neg hpos.ne']
      exact mask_nat (x % y) _

theorem agrees_set (hag : Agrees regs σ) {t n m : Nat} {w : Width} (hn : n < 2 ^ w.bits)
    (hm : m = n) : Agrees (set regs t m) (σ.setHdr t (.int w n)) := by
  intro h w' n' hh
  by_cases heq : h = t
  · simp only [State.setHdr_hdr, heq, if_true, CrVal.int.injEq] at hh
    obtain ⟨rfl, rfl⟩ := hh
    simp [set, heq, hm, hn]
  · simp only [State.setHdr_hdr, heq, if_false] at hh
    simpa [set, heq] using hag h w' n' hh

theorem agrees_error (hag : Agrees regs σ) (t m : Nat) :
    Agrees (set regs t m) (σ.setHdr t .error) := by
  intro h w n hh
  by_cases heq : h = t
  · simp [heq] at hh
  · simp only [State.setHdr_hdr, heq, if_false] at hh
    simpa [set, heq] using hag h w n hh

theorem evalNode_stateless {f : BinOp} {w : Width} {a1 a2 : Operand} {t x y : Nat} {r : Int}
    (hx : operand regs a1.tree = .ok x) (hy : operand regs a2.tree = .ok y)
    (hr : arith f.name.toList (mask x w.bits) (mask y w.bits) = .ok r) :
    evalNode regs (Op.tree (.stateless f w a1 a2 t)) = .ok (set regs t (mask r w.bits)) := by
  rw [Op.tree, ident, evalNode, if_pos rfl, ident, evalStateless]
  simp only [bind, Except.bind, pure, Except.pure, hx, hy, bitsOf_name, hr, int_num]

theorem evalNode_cast {frm into : Width} {a : Operand} {t x : Nat}
    (hx : operand regs a.tree = .ok x) :
    evalNode regs (Op.tree (.cast frm into a t)) =
      .ok (set regs t (mask (mask x frm.bits) into.bits)) := by
  rw [Op.tree, ident, evalNode, if_neg (by decide), if_pos rfl, evalCast]
  simp only [bind, Except.bind, pure, Except.pure, hx, bitsOf_name, int_num]

theorem evalNode_store (w : Width) (r : Nat) (off v : Operand) :
    evalNode regs (Op.tree (.store w r off v)) = .ok regs := by
  rw [Op.tree, ident, evalNode, if_neg (by decide), if_neg (by decide), if_pos (by decide)]

/-- One operation that is no load keeps the agreement, and is understood. -/
theorem evalNode_agrees (len : Nat → Nat) (hag : Agrees regs σ) {op : Op}
    (hload : ∀ w r off t, op ≠ .load w r off t) :
    ∃ regs', evalNode regs op.tree = .ok regs' ∧ Agrees regs' (op.eval len σ) := by
  cases op with
  | load w r off t => exact absurd rfl (hload w r off t)
  | store w r off v =>
    refine ⟨regs, evalNode_store w r off v, fun h w' n hh => hag h w' n ?_⟩
    -- A store leaves every header as it was.
    have hsame : (Op.eval len σ (.store w r off v)).hdr = σ.hdr := by
      simp only [Op.eval]
      split
      · rfl
      · split <;> rfl
    exact hsame ▸ hh
  | cast frm into a t =>
    obtain ⟨v, hv⟩ := operand_total regs a
    refine ⟨_, evalNode_cast hv, ?_⟩
    simp only [Op.eval]
    cases ha : a.eval σ frm with
    | none => exact agrees_error hag _ _
    | some x =>
      obtain ⟨hx, v', hv', hmask⟩ := operand_agrees hag ha
      obtain rfl := Except.ok.inj (hv.symm.trans hv')
      apply agrees_set hag (Nat.mod_lt _ (Nat.two_pow_pos _))
      rw [hmask, mask_nat]
  | stateless f w a1 a2 t =>
    obtain ⟨v₁, hv₁⟩ := operand_total regs a1
    obtain ⟨v₂, hv₂⟩ := operand_total regs a2
    obtain ⟨r, hr, hval⟩ := arith_agrees f w (x := mask v₁ w.bits) (mask_lt v₂ w.bits)
    refine ⟨_, evalNode_stateless hv₁ hv₂ hr, ?_⟩
    simp only [Op.eval]
    cases h₁ : a1.eval σ w with
    | none => exact agrees_error hag _ _
    | some x =>
      cases h₂ : a2.eval σ w with
      | none => exact agrees_error hag _ _
      | some y =>
        obtain ⟨_, u₁, hu₁, hmask₁⟩ := operand_agrees hag h₁
        obtain ⟨_, u₂, hu₂, hmask₂⟩ := operand_agrees hag h₂
        obtain rfl := Except.ok.inj (hv₁.symm.trans hu₁)
        obtain rfl := Except.ok.inj (hv₂.symm.trans hu₂)
        apply agrees_set hag (Nat.mod_lt _ (Nat.two_pow_pos _))
        rw [hval, hmask₁, hmask₂]
        rfl

/-- Running the printed operations, none of which loads, keeps the agreement: nothing is
misread, and every header the IR leaves an integer in has that integer. -/
theorem evalOps_agrees {limit : Nat} (hlimit : 3 ≤ limit) (len : Nat → Nat) {ops : List Op}
    (hload : ∀ op ∈ ops, ∀ w r off t, op ≠ .load w r off t) (hag : Agrees regs σ) :
    ∃ regs', evalOps limit (ops.map Op.text) regs = .ok regs' ∧
      Agrees regs' (runOps len σ ops) := by
  induction ops generalizing regs σ with
  | nil => exact ⟨regs, rfl, hag⟩
  | cons op ops ih =>
    obtain ⟨regs₁, hone, hag₁⟩ := evalNode_agrees len hag (hload op List.mem_cons_self)
    obtain ⟨regs', hrest, hag'⟩ := ih (fun o ho => hload o (List.mem_cons_of_mem _ ho)) hag₁
    refine ⟨regs', ?_, hag'⟩
    rw [List.map_cons, evalOps, parseOp_text hlimit]
    simp only [bind, Except.bind, hone, hrest]

/-! ## The tests of the synthesized operators -/

open TransM Words

/-- A mapping of one header. -/
def single (h v : Nat) : Regs := set (fun _ => none) h v

/-- The state it agrees with. -/
theorem agrees_single {h v : Nat} {w : Width} (hv : v < 2 ^ w.bits) :
    Agrees (single h v) ((State.initial fun _ _ => none).setHdr h (.int w v)) :=
  agrees_set (fun _ _ _ hh => by cases hh) hv rfl

/-- Operations that only compute are run without an error, and what they leave in a header as
an integer is what the evaluator reports there. -/
theorem evalOps_reports {limit : Nat} (hlimit : 3 ≤ limit) {T : Nat → Prop} {ops : List Op}
    (hinto : ∀ op ∈ ops, op.Into T) (hag : Agrees regs σ) {h n : Nat} {w : Width}
    (hval : (runOps (fun _ => 0) σ ops).hdr h = .int w n) :
    ∃ regs', evalOps limit (ops.map Op.text) regs = .ok regs' ∧ regs' h = some n := by
  have hload : ∀ op ∈ ops, ∀ w r off t, op ≠ .load w r off t := by
    rintro op hop w r off t rfl
    exact hinto _ hop
  obtain ⟨regs', hrun, hag'⟩ := evalOps_agrees hlimit (fun _ => 0) hload hag
  exact ⟨regs', hrun, (hag' h w n hval).2⟩

/-- What `TestBswap` and `TestArsh` assert, for every value: the printed byte swap of 2 to 8
bytes gives the value's low bytes in reverse order, also in place, and the printed shift of
either width by any count gives the arithmetic shift. -/
theorem synthesized_tests_hold {limit : Nat} (hlimit : 3 ≤ limit) (c : Config) :
    (∀ n src dst v, 2 ≤ n → n ≤ 8 → v < 2 ^ 64 →
      ∃ t' ops, (emitBswap 0 src n dst).Accepts c .init () t' ops ∧
        ∃ regs', evalOps limit (ops.map Op.text) (single src v) = .ok regs' ∧
          regs' dst = some (byteSwap n v)) ∧
    ∀ is64 dst k, ∀ x : BitVec (opWidth is64).bits, 0 < k → k < (opWidth is64).bits →
      dst ≠ hTmp 0 → dst ≠ hTmp 1 →
      ∃ t' ops, (emitArshConst 0 dst k (if is64 then 64 else 32)).Accepts c .init () t' ops ∧
        ∃ regs', evalOps limit (ops.map Op.text) (single dst x.toNat) = .ok regs' ∧
          regs' dst = some (x.sshiftRight k).toNat := by
  constructor
  · intro n src dst v hlo hhi hv
    obtain ⟨ops, h⟩ := @emitBswap_emits c .init 0 n src dst hlo (by decide)
    obtain ⟨_, hinto, hval⟩ := @emitBswap_wide c .init _ ops 0 (fun _ => 0) n src dst v hlo hhi hv h
    refine ⟨_, ops, h, evalOps_reports hlimit hinto (agrees_single (w := .w64) hv) (hval _ ?_)⟩
    simp
  · intro is64 dst k x hk hkw h₀ h₁
    obtain ⟨ops, h⟩ := @emitArshConst_emits c .init 0 is64 dst k hk hkw (by decide)
    obtain ⟨_, rfl⟩ := emitArshConst_accepts hk hkw h
    have hinto : ∀ op ∈ arshOps (opWidth is64) dst (hTmp 0) (hTmp 1) k,
        op.Into fun h => h = dst ∨ h = hTmp 0 ∨ h = hTmp 1 := by
      simp [arshOps, Op.Into]
    refine ⟨_, _, h, evalOps_reports hlimit hinto (agrees_single (w := opWidth is64) x.isLt)
      (arshOps_value ?_ hk hkw h₀.symm h₁.symm)⟩
    simp

/-- The first value of the swap test, eight bytes. -/
theorem synthesized_tests_hold_bytes : ∃ t' ops,
    (emitBswap 0 60 8 61).Accepts xdpConfig .init () t' ops ∧
      ∃ regs', evalOps 3 (ops.map Op.text) (single 60 0x0102030405060708) = .ok regs' ∧
        regs' 61 = some 0x0807060504030201 :=
  (synthesized_tests_hold (Nat.le_refl 3) xdpConfig).1 8 60 61 0x0102030405060708 (by decide)
    (by decide) (by decide)

end Ect.Opeval
