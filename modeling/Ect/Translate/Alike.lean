-- SUMMARY: The same method run for two programs, at positions and with stack headers numbered differently.
import Ect.Translate.Growth
import Mathlib.Data.List.Forall2

/-!
# The same code in two programs

The code of a block may stand in two programs, at different positions and after different
code, so that the translator has handed out other headers for the stack slots. What it
emits for the block is then the same up to the header of each slot, and it reports the
same diagnostics at the corresponding instructions. `Alike` says so of a pair of methods
that return the same value; it is closed under sequencing.
-/

namespace Ect

open TransM

/-! ## The same up to the numbering of stack slots -/

/-- The same header, or the header of the same stack slot. -/
def SameHdr (t t' : Translator) (h h' : Nat) : Prop :=
  h < hStackBase ∧ h' = h ∨ ∃ slot, t.stackHdrOf slot = some h ∧ t'.stackHdrOf slot = some h'

inductive SameOperand (t t' : Translator) : Operand → Operand → Prop where
  | const (v : Nat) : SameOperand t t' (.const v) (.const v)
  | header {h h' : Nat} (hh : SameHdr t t' h h') : SameOperand t t' (.header h) (.header h')

inductive SameOp (t t' : Translator) : Op → Op → Prop where
  | stateless {f : BinOp} {w : Width} {a1 a1' a2 a2' : Operand} {target target' : Nat}
      (h1 : SameOperand t t' a1 a1') (h2 : SameOperand t t' a2 a2')
      (ht : SameHdr t t' target target') :
      SameOp t t' (.stateless f w a1 a2 target) (.stateless f w a1' a2' target')
  | cast {frm into : Width} {arg arg' : Operand} {target target' : Nat}
      (h1 : SameOperand t t' arg arg') (ht : SameHdr t t' target target') :
      SameOp t t' (.cast frm into arg target) (.cast frm into arg' target')
  | load {w : Width} {region : Nat} {off off' : Operand} {target target' : Nat}
      (h1 : SameOperand t t' off off') (ht : SameHdr t t' target target') :
      SameOp t t' (.load w region off target) (.load w region off' target')
  | store {w : Width} {region : Nat} {off off' val val' : Operand}
      (h1 : SameOperand t t' off off') (h2 : SameOperand t t' val val') :
      SameOp t t' (.store w region off val) (.store w region off' val')

inductive SameMatchVal (t t' : Translator) : MatchVal → MatchVal → Prop where
  | const (k : Nat) (w : Width) : SameMatchVal t t' (.const k w) (.const k w)
  | header {h h' : Nat} (hh : SameHdr t t' h h') : SameMatchVal t t' (.header h) (.header h')

structure SameEntry (t t' : Translator) (e e' : MatchEntry) : Prop where
  lhs : SameHdr t t' e.lhs e'.lhs
  cmp : e'.cmp = e.cmp
  rhs : SameMatchVal t t' e.rhs e'.rhs

/-- The diagnostic of one instruction. -/
def insnDiag (idx : Nat) (msg : String) : String := s!"bpf_to_ir: insn {idx}: unsupported: {msg}"

/-- The same message about the instruction as far from `pos'` as the other is from `pos`. -/
def SameDiag (pos pos' : Nat) (d d' : String) : Prop :=
  ∃ j msg, d = insnDiag (pos + j) msg ∧ d' = insnDiag (pos' + j) msg

/-- A header that is no stack slot's. -/
class Low (h : Nat) : Prop where
  lt : h < hStackBase

instance {k : Fin numTmps} : Low (hTmp k) :=
  ⟨by unfold hTmp hStackBase; have := k.isLt; unfold numTmps at this; omega⟩
instance {r : Fin 16} : Low (hReg r) := ⟨by unfold hReg hStackBase; omega⟩
instance : Low (hReg 0) := ⟨by decide⟩
instance : Low (hReg 2) := ⟨by decide⟩
instance : Low (hReg 3) := ⟨by decide⟩

/-- An operand that is no stack slot's header. -/
class LowOperand (a : Operand) : Prop where
  same : ∀ t t', SameOperand t t' a a

theorem SameHdr.of_low {t t' : Translator} {h : Nat} (hh : Low h) : SameHdr t t' h h :=
  .inl ⟨hh.lt, rfl⟩

instance {h : Nat} [hh : Low h] : LowOperand (hdr h) := ⟨fun _ _ => .header (.of_low hh)⟩
instance {v : Int} : LowOperand (konst v) := ⟨fun _ _ => .const _⟩
instance {v : Nat} : LowOperand (konstN v) := ⟨fun _ _ => .const _⟩
instance {p : Prop} [Decidable p] {a b : Operand} [ha : LowOperand a] [hb : LowOperand b] :
    LowOperand (if p then a else b) := by
  split <;> assumption

/-- An operation on no stack slot's header. -/
class LowOp (op : Op) : Prop where
  same : ∀ t t', SameOp t t' op op

instance {f : BinOp} {w : Width} {a1 a2 : Operand} {target : Nat} [h1 : LowOperand a1]
    [h2 : LowOperand a2] [ht : Low target] : LowOp (.stateless f w a1 a2 target) :=
  ⟨fun _ _ => .stateless (h1.same _ _) (h2.same _ _) (.of_low ht)⟩
instance {frm into : Width} {arg : Operand} {target : Nat} [h1 : LowOperand arg]
    [ht : Low target] : LowOp (.cast frm into arg target) :=
  ⟨fun _ _ => .cast (h1.same _ _) (.of_low ht)⟩
instance {w : Width} {region : Nat} {off : Operand} {target : Nat} [h1 : LowOperand off]
    [ht : Low target] : LowOp (.load w region off target) :=
  ⟨fun _ _ => .load (h1.same _ _) (.of_low ht)⟩
instance {w : Width} {region : Nat} {off val : Operand} [h1 : LowOperand off]
    [h2 : LowOperand val] : LowOp (.store w region off val) :=
  ⟨fun _ _ => .store (h1.same _ _) (h2.same _ _)⟩

instance {target : Nat} {v : Int} [Low target] : LowOp (setOp target v) := by
  unfold setOp; infer_instance

/-- A match entry on no stack slot's header. -/
def LowEntry (e : MatchEntry) : Prop := ∀ t t', SameEntry t t' e e

theorem lowEntry_const {h : Nat} {cmp : Cmp} {k : Int} {w : Width} (hh : Low h) :
    LowEntry (cmpEntry h cmp (matchConst k w)) :=
  fun _ _ => ⟨.of_low hh, rfl, .const _ _⟩

theorem lowEntry_header {h h' : Nat} {cmp : Cmp} (hh : Low h) (hh' : Low h') :
    LowEntry (cmpEntry h cmp (matchHeader h')) :=
  fun _ _ => ⟨.of_low hh, rfl, .header (.of_low hh')⟩

/-! ## Tables that keep their headers -/

theorem SameHdr.keeps {t t' u u' : Translator} {h h' : Nat} (hh : SameHdr t t' h h')
    (hk : t.Grows u) (hk' : t'.Grows u') : SameHdr u u' h h' := by
  rcases hh with hh | ⟨slot, h₁, h₂⟩
  · exact .inl hh
  · exact .inr ⟨slot, hk.keeps h₁, hk'.keeps h₂⟩

theorem SameOperand.keeps {t t' u u' : Translator} {a a' : Operand} (h : SameOperand t t' a a')
    (hk : t.Grows u) (hk' : t'.Grows u') : SameOperand u u' a a' := by
  cases h with
  | const v => exact .const v
  | header hh => exact .header (hh.keeps hk hk')

theorem SameEntry.keeps {t t' u u' : Translator} {e e' : MatchEntry} (h : SameEntry t t' e e')
    (hk : t.Grows u) (hk' : t'.Grows u') : SameEntry u u' e e' := by
  refine ⟨h.lhs.keeps hk hk', h.cmp, ?_⟩
  have hrhs := h.rhs
  generalize e.rhs = v at hrhs
  generalize e'.rhs = v' at hrhs
  cases hrhs with
  | const k w => exact .const k w
  | header hh => exact .header (hh.keeps hk hk')

theorem SameOp.keeps {t t' u u' : Translator} {op op' : Op} (h : SameOp t t' op op')
    (hk : t.Grows u) (hk' : t'.Grows u') : SameOp u u' op op' := by
  cases h with
  | stateless h1 h2 ht => exact .stateless (h1.keeps hk hk') (h2.keeps hk hk') (ht.keeps hk hk')
  | cast h1 ht => exact .cast (h1.keeps hk hk') (ht.keeps hk hk')
  | load h1 ht => exact .load (h1.keeps hk hk') (ht.keeps hk hk')
  | store h1 h2 => exact .store (h1.keeps hk hk') (h2.keeps hk hk')

def SameOps (t t' : Translator) : List Op → List Op → Prop := List.Forall₂ (SameOp t t')

theorem SameOps.keeps {t t' u u' : Translator} {ops ops' : List Op} (h : SameOps t t' ops ops')
    (hk : t.Grows u) (hk' : t'.Grows u') : SameOps u u' ops ops' :=
  h.imp fun _ _ h => h.keeps hk hk'

/-! ## Two runs -/

/-- A block of one program, and the same block in another with other relocations. -/
structure Twin where
  c : Config
  insnMapIdx' : Nat → Option Nat
  pos : Nat
  pos' : Nat

/-- The configuration of the other program. -/
abbrev Twin.c' (w : Twin) : Config := { w.c with insnMapIdx := w.insnMapIdx' }

variable {α β : Type}

/-- Two translators at the start of the same block. -/
structure Twin.Started (t t' : Translator) : Prop where
  wf : t.WF
  wf' : t'.WF

/-- Two translators within the same instruction: their scratch pools are at one cursor. -/
structure Twin.Aligned (t t' : Translator) : Prop extends Twin.Started t t' where
  tmpNext : t'.tmpNext = t.tmpNext

/-- What two runs from `t` and `t'` have in common. -/
structure Twin.Result (w : Twin) (A : Translator → Translator → Prop) (t t' : Translator)
    (R : Translator → Translator → α → α → Prop) (a : α) (t₁ : Translator) (o : Out) (a' : α)
    (t₁' : Translator) (o' : Out) : Prop where
  value : R t₁ t₁' a a'
  aligned : A t₁ t₁'
  grows : t.Grows t₁
  grows' : t'.Grows t₁'
  ops : SameOps t₁ t₁' o.ops o'.ops
  diags : List.Forall₂ (SameDiag w.pos w.pos') o.diags o'.diags

/-- Both methods raise, or both return, with values related by `R` in the states they
leave, which are as `A` has it. -/
def Twin.RunsTo (w : Twin) (A : Translator → Translator → Prop) (t t' : Translator)
    (x x' : TransM α) (R : Translator → Translator → α → α → Prop) : Prop :=
  (∃ e e', x w.c t = .error e ∧ x' w.c' t' = .error e') ∨
    ∃ a t₁ o a' t₁' o', x w.c t = .ok (a, t₁, o) ∧ x' w.c' t' = .ok (a', t₁', o') ∧
      w.Result A t t' R a t₁ o a' t₁' o'

abbrev Twin.Runs (w : Twin) (t t' : Translator) (x x' : TransM α)
    (R : Translator → Translator → α → α → Prop) : Prop :=
  w.RunsTo Twin.Aligned t t' x x' R

namespace Twin

variable {w : Twin} {A B : Translator → Translator → Prop} {t t' : Translator}
  {R : Translator → Translator → α → α → Prop} {S : Translator → Translator → β → β → Prop}

theorem RunsTo.pure {a a' : α} (hal : A t t') (h : R t t' a a') :
    w.RunsTo A t t' (pure a) (pure a') R :=
  .inr ⟨a, t, _, a', t', _, rfl, rfl, h, hal, .refl _, .refl _, .nil, .nil⟩

theorem RunsTo.bind {x x' : TransM α} {f f' : α → TransM β} (hx : w.RunsTo A t t' x x' R)
    (hf : ∀ t₁ t₁' a a', A t₁ t₁' → t.Grows t₁ → t'.Grows t₁' → R t₁ t₁' a a' →
      w.RunsTo B t₁ t₁' (f a) (f' a') S) :
    w.RunsTo B t t' (x >>= f) (x' >>= f') S := by
  rcases hx with ⟨e, e', h, h'⟩ | ⟨a, t₁, o, a', t₁', o', h, h', hr⟩
  · exact .inl ⟨e, e', by simp only [Bind.bind, TransM.bind, h],
      by simp only [Bind.bind, TransM.bind, h']⟩
  · rcases hf t₁ t₁' a a' hr.aligned hr.grows hr.grows' hr.value with
      ⟨e, e', g, g'⟩ | ⟨b, t₂, p, b', t₂', p', g, g', hs⟩
    · exact .inl ⟨e, e', by simp only [Bind.bind, TransM.bind, h, g],
        by simp only [Bind.bind, TransM.bind, h', g']⟩
    · refine .inr ⟨b, t₂, o.append p, b', t₂', o'.append p',
        by simp only [Bind.bind, TransM.bind, h, g], by simp only [Bind.bind, TransM.bind, h', g'],
        hs.value, hs.aligned, hr.grows.trans hs.grows, hr.grows'.trans hs.grows', ?_, ?_⟩
      · exact List.rel_append (hr.ops.keeps hs.grows hs.grows') hs.ops
      · exact List.rel_append hr.diags hs.diags

theorem RunsTo.imp {R' : Translator → Translator → α → α → Prop} {x x' : TransM α}
    (h : w.RunsTo A t t' x x' R) (hA : ∀ {t₁ t₁'}, A t₁ t₁' → B t₁ t₁')
    (hR : ∀ t₁ t₁' a a', A t₁ t₁' → R t₁ t₁' a a' → R' t₁ t₁' a a') :
    w.RunsTo B t t' x x' R' := by
  rcases h with h | ⟨a, t₁, o, a', t₁', o', h, h', hr⟩
  · exact .inl h
  · exact .inr ⟨a, t₁, o, a', t₁', o', h, h', hR _ _ _ _ hr.aligned hr.value, hA
      hr.aligned, hr.grows,
      hr.grows', hr.ops, hr.diags⟩

theorem RunsTo.ite {p : Prop} [Decidable p] {x x' y y' : TransM α}
    (hx : p → w.RunsTo A t t' x x' R) (hy : ¬p → w.RunsTo A t t' y y' R) :
    w.RunsTo A t t' (if p then x else y) (if p then x' else y') R := by
  split
  · exact hx ‹_›
  · exact hy ‹_›

theorem RunsTo.emit {op op' : Op} (hal : A t t') (h : SameOp t t' op op') :
    w.RunsTo A t t' (emit op) (TransM.emit op') fun _ _ _ _ => True :=
  .inr ⟨(), t, _, (), t', _, rfl, rfl, trivial, hal, .refl _, .refl _, .cons h .nil, .nil⟩

theorem RunsTo.unsupported {j : Nat} {msg : String} (hal : A t t') :
    w.RunsTo A t t' (unsupported (w.pos + j) msg) (TransM.unsupported (w.pos' + j) msg)
      fun _ _ _ _ => True :=
  .inr ⟨(), _, _, (), _, _, rfl, rfl, trivial, hal, .refl _, .refl _, .nil, .cons ⟨j, msg, rfl, rfl⟩
    .nil⟩

theorem RunsTo.config {f f' : Config → TransM β} (h : w.RunsTo A t t' (f w.c) (f' w.c') S) :
    w.RunsTo A t t' (config >>= f) (TransM.config >>= f') S := by
  rcases h with ⟨e, e', g, g'⟩ | ⟨b, t₂, p, b', t₂', p', g, g', hs⟩
  · exact .inl ⟨e, e', by simp only [Bind.bind, TransM.bind, TransM.config, g],
      by simp only [Bind.bind, TransM.bind, TransM.config, g']⟩
  · exact .inr ⟨b, t₂, p, b', t₂', p', by simp only [Bind.bind, TransM.bind, TransM.config, g]; rfl,
      by simp only [Bind.bind, TransM.bind, TransM.config, g']; rfl, hs⟩

theorem RunsTo.capture {x x' : TransM α} (h : w.RunsTo A t t' x x' R) :
    w.RunsTo A t t' (capture x) (TransM.capture x')
      fun t₁ t₁' a a' => R t₁ t₁' a.1 a'.1 ∧ SameOps t₁ t₁' a.2 a'.2 := by
  rcases h with ⟨e, e', h, h'⟩ | ⟨a, t₁, o, a', t₁', o', h, h', hr⟩
  · exact .inl ⟨e, e', by simp only [TransM.capture, h], by simp only [TransM.capture, h']⟩
  · refine .inr ⟨(a, o.ops), t₁, ⟨[], o.diags⟩, (a', o'.ops), t₁', ⟨[], o'.diags⟩,
      by simp only [TransM.capture, h], by simp only [TransM.capture, h'], ?_⟩
    exact ⟨⟨hr.value, hr.ops⟩, hr.aligned, hr.grows, hr.grows', .nil, hr.diags⟩

/-- Resetting the scratch pool lines two translators up. -/
theorem Started.setTmpNext {k : Nat} (h : Started t t') :
    w.Runs t t' (setTmpNext k) (TransM.setTmpNext k) fun _ _ _ _ => True := by
  have hg : t.Grows { t with tmpNext := k } := .of_eq rfl rfl
  have hg' : t'.Grows { t' with tmpNext := k } := .of_eq rfl rfl
  exact .inr ⟨(), _, _, (), _, _, rfl, rfl, trivial,
    ⟨⟨hg.wf h.wf, hg'.wf h.wf'⟩, rfl⟩, hg, hg', .nil,
    .nil⟩

theorem Runs.loose {x x' : TransM α} (h : w.Runs t t' x x' R) : w.RunsTo Started t t' x x' R :=
  h.imp (·.toStarted) fun _ _ _ _ _ h => h

end Twin

/-! ## Methods that return the same value -/

/-- The two methods do the same from any two translators between the same instructions. A
class, as `Obeys` is. -/
class Alike (w : Twin) (x x' : TransM α) : Prop where
  runs : ∀ {t t'}, Twin.Aligned t t' → w.Runs t t' x x' fun _ _ a a' => a' = a

section Rules

variable {w : Twin} {j : Nat}

instance {a : α} : Alike w (pure a : TransM α) (pure a) := ⟨fun hal => .pure hal rfl⟩

theorem Alike.bind {x x' : TransM α} {f f' : α → TransM β} (hx : Alike w x x')
    (hf : ∀ a, Alike w (f a) (f' a)) : Alike w (x >>= f) (x' >>= f') := by
  refine ⟨fun hal => (hx.runs hal).bind fun t₁ t₁' a a' hal₁ _ _ heq => ?_⟩
  subst heq
  exact (hf a').runs hal₁

instance {x x' : TransM α} {f f' : α → TransM β} [Alike w x x'] [∀ a, Alike w (f a) (f' a)] :
    Alike w (x >>= f) (x' >>= f') :=
  .bind inferInstance inferInstance

theorem Alike.ite {p : Prop} [Decidable p] {x x' y y' : TransM α} (hx : Alike w x x')
    (hy : Alike w y y') : Alike w (if p then x else y) (if p then x' else y') := by
  split <;> assumption

instance {p : Prop} [Decidable p] {x x' y y' : TransM α} [Alike w x x'] [Alike w y y'] :
    Alike w (if p then x else y) (if p then x' else y') :=
  .ite inferInstance inferInstance

instance {f f' : Config → TransM β} [h : Alike w (f w.c) (f' w.c')] :
    Alike w (config >>= f) (config >>= f') where
  runs hal := .config (h.runs hal)

instance {op : Op} [h : LowOp op] : Alike w (emit op) (emit op) where
  runs hal := (Twin.RunsTo.emit hal (h.same _ _)).imp id fun _ _ _ _ _ _ => rfl

instance {e : PyErr} : Alike w (raise e : TransM α) (raise e) where
  runs _ := .inl ⟨e, e, rfl, rfl⟩

instance {msg : String} : Alike w (unsupported (w.pos + j) msg) (unsupported (w.pos' + j) msg) where
  runs hal := (Twin.RunsTo.unsupported hal).imp id fun _ _ _ _ _ _ => rfl

instance {k : Nat} : Alike w (setTmpNext k) (setTmpNext k) where
  runs hal := hal.setTmpNext.imp id fun _ _ _ _ _ _ => rfl

instance {m : Nat} : Alike w (countMapSite m) (countMapSite m) where
  runs {t t'} hal := by
    have hg : t.Grows { t with
        mapSites := fun m' => if m' = m then t.mapSites m + 1 else t.mapSites m' } := .of_eq rfl rfl
    have hg' : t'.Grows { t' with
        mapSites := fun m' => if m' = m then t'.mapSites m + 1 else t'.mapSites m' } := .of_eq rfl
          rfl
    exact .inr ⟨(), _, _, (), _, _, rfl, rfl, rfl,
      ⟨⟨hg.wf hal.wf, hg'.wf hal.wf'⟩, hal.tmpNext⟩, hg, hg',
      .nil, .nil⟩

/-- Two scratch pools at the same cursor hand out the same scratch header. -/
theorem freshTmp_runs {t t' : Translator} (hal : Twin.Aligned t t') :
    w.Runs t t' (freshTmp (w.pos + j)) (freshTmp (w.pos' + j))
      fun _ _ a a' => a' = a ∧ ∃ k : Fin numTmps, a = hTmp k := by
  have hwf := fun k => (@Translator.Grows.of_eq t { t with tmpNext := k } rfl rfl)
  have hwf' := fun k => (@Translator.Grows.of_eq t' { t' with tmpNext := k } rfl rfl)
  by_cases h : t.tmpNext ≥ numTmps
  · have h' : t'.tmpNext ≥ numTmps := hal.tmpNext ▸ h
    refine .inr ⟨_, { t with tmpNext := 1 },
      ⟨[], [insnDiag (w.pos + j) "ran out of scratch headers"]⟩,
      _, { t' with tmpNext := 1 }, ⟨[], [insnDiag (w.pos' + j) "ran out of scratch headers"]⟩,
      by simp only [freshTmp, Bind.bind, TransM.bind, TransM.get, if_pos h]; rfl,
      by simp only [freshTmp, Bind.bind, TransM.bind, TransM.get, if_pos h']; rfl, ?_⟩
    exact ⟨⟨rfl, ⟨0, by decide⟩, rfl⟩,
      ⟨⟨(hwf 1).wf hal.wf, (hwf' 1).wf hal.wf'⟩, rfl⟩, hwf 1, hwf' 1,
      .nil, .cons ⟨j, _, rfl, rfl⟩ .nil⟩
  · have h' : ¬t'.tmpNext ≥ numTmps := hal.tmpNext ▸ h
    refine .inr ⟨_, { t with tmpNext := t.tmpNext + 1 }, ⟨[], []⟩, _,
      { t' with tmpNext := t'.tmpNext + 1 }, ⟨[], []⟩,
      by simp only [freshTmp, Bind.bind, TransM.bind, TransM.get, if_neg h]; rfl,
      by simp only [freshTmp, Bind.bind, TransM.bind, TransM.get, if_neg h']; rfl, ?_⟩
    exact ⟨⟨by rw [hal.tmpNext], ⟨t.tmpNext, by omega⟩, rfl⟩,
      ⟨⟨(hwf _).wf hal.wf, (hwf' _).wf hal.wf'⟩, by simp [hal.tmpNext]⟩, hwf _, hwf' _, .nil, .nil⟩

theorem fresh_runs {t t' : Translator} {f f' : Nat → TransM β}
    {S : Translator → Translator → β → β → Prop} (hal : Twin.Aligned t t')
    (h : ∀ (k : Fin numTmps) t₁ t₁', Twin.Aligned t₁ t₁' →
      w.Runs t₁ t₁' (f (hTmp k)) (f' (hTmp k)) S) :
    w.Runs t t' (freshTmp (w.pos + j) >>= f) (freshTmp (w.pos' + j) >>= f') S := by
  refine (freshTmp_runs hal).bind fun t₁ t₁' a a' hal₁ _ _ ⟨heq, k, hk⟩ => ?_
  subst heq hk
  exact h k t₁ t₁' hal₁

instance {f f' : Nat → TransM β} [h : ∀ k : Fin numTmps, Alike w (f (hTmp k)) (f' (hTmp k))] :
    Alike w (freshTmp (w.pos + j) >>= f) (freshTmp (w.pos' + j) >>= f') where
  runs hal := fresh_runs hal fun k _ _ hal₁ => (h k).runs hal₁

/-- First a method that is the same, then two that need only agree on its value. -/
theorem Alike.then {x x' : TransM α} [hx : Alike w x x'] {t t' : Translator} {f f' : α → TransM β}
    {S : Translator → Translator → β → β → Prop} (hal : Twin.Aligned t t')
    (h : ∀ a t₁ t₁', Twin.Aligned t₁ t₁' → w.Runs t₁ t₁' (f a) (f' a) S) :
    w.Runs t t' (x >>= f) (x' >>= f') S := by
  refine (hx.runs hal).bind fun t₁ t₁' a a' hal₁ _ _ heq => ?_
  subst heq
  exact h a' t₁ t₁' hal₁

instance {st : AbsState} {r : Nat} : Alike w (readReg st r) (readReg st r) := by
  unfold readReg; infer_instance

instance {st : AbsState} {r : Nat} {v : RegInfo} : Alike w (writeReg st r v) (writeReg st r v) := by
  unfold writeReg; infer_instance

end Rules

/-! ## The methods that name no stack slot -/

section Methods

set_option synthInstance.maxSize 1024

variable {w : Twin} {j : Nat} {i : Insn} {st : AbsState}

instance {f : BinOp} {width : Width} {a1 a2 : Operand} {target : Nat} [LowOperand a1]
    [LowOperand a2] [Low target] :
    Alike w (binop f width a1 a2 target) (binop f width a1 a2 target) := by
  unfold binop; infer_instance

instance {frm into : Width} {arg : Operand} {target : Nat} [LowOperand arg] [Low target] :
    Alike w (TransM.cast frm into arg target) (TransM.cast frm into arg target) := by
  unfold TransM.cast; infer_instance

instance {width : Width} {region : Nat} {off : Operand} {target : Nat} [LowOperand off]
    [Low target] : Alike w (load width region off target) (load width region off target) := by
  unfold load; infer_instance

instance {width : Width} {region : Nat} {off val : Operand} [LowOperand off] [LowOperand val] :
    Alike w (store width region off val) (store width region off val) := by
  unfold store; infer_instance

instance {target : Nat} {v : Int} [Low target] : Alike w (set_ target v) (set_ target v) := by
  unfold set_; infer_instance

instance {target src : Nat} [Low target] [Low src] : Alike w (move target src)
    (move target src) := by
  unfold move moveOp; infer_instance

instance {reg k bits : Nat} [Low reg] :
    Alike w (emitArshConst (w.pos + j) reg k bits) (emitArshConst (w.pos' + j) reg k bits) := by
  unfold emitArshConst; dsimp only; infer_instance

instance {nbytes tSrc tAcc tB : Nat} {is : List Nat} [Low tSrc] [Low tAcc] [Low tB] :
    Alike w (emitBswapBytes nbytes tSrc tAcc tB is) (emitBswapBytes nbytes tSrc tAcc tB is) := by
  induction is with
  | nil => unfold emitBswapBytes; infer_instance
  | cons i is ih => unfold emitBswapBytes emitBswapByte; infer_instance

instance {src nbytes target : Nat} [Low src] [Low target] :
    Alike w (emitBswap (w.pos + j) src nbytes target)
    (emitBswap (w.pos' + j) src nbytes target) := by
  unfold emitBswap; infer_instance

instance {is64 : Bool} : Alike w (aluOps (w.pos + j) i is64) (aluOps (w.pos' + j) i is64) := by
  unfold aluOps
  cases i.aluOp <;>
    simp only [aluMov, aluNeg, aluShift, aluShiftBy, aluEnd, aluBinop] <;>
    (try split) <;> infer_instance

instance {is64 : Bool} :
    Alike w (translateAlu (w.pos + j) i is64 st) (translateAlu (w.pos' + j) i is64 st) := by
  unfold translateAlu; infer_instance

instance {base : RegInfo} {off : Int} {nbytes : Nat} {what : String} :
    Alike w (ctxAccessOk (w.pos + j) base off nbytes what)
      (ctxAccessOk (w.pos' + j) base off nbytes what) := by
  unfold ctxAccessOk; dsimp only; infer_instance

/-! ## Loads and stores -/

/-- No header for a slot outside the frame, else the slot's. -/
def SameSlot (t t' : Translator) (h h' : Nat) : Prop :=
  h = 0 ∧ h' = 0 ∨ h ≠ 0 ∧ h' ≠ 0 ∧ SameHdr t t' h h'

theorem stackHeader_runs {t t' : Translator} {slot : Int} (hal : Twin.Aligned t t') :
    w.Runs t t' (stackHeader slot) (stackHeader slot) SameSlot := by
  obtain ⟨h, t₁, hrun⟩ := stackHeader_returns w.c t slot
  obtain ⟨h', t₁', hrun'⟩ := stackHeader_returns w.c' t' slot
  obtain ⟨_, hg, htmp, hslot⟩ := stackHeader_accepts hrun
  obtain ⟨_, hg', htmp', hslot'⟩ := stackHeader_accepts hrun'
  refine .inr ⟨h, t₁, ⟨[], []⟩, h', t₁', ⟨[], []⟩, hrun, hrun', ?_,
    ⟨⟨hg.wf hal.wf, hg'.wf hal.wf'⟩, by rw [htmp, htmp', hal.tmpNext]⟩, hg, hg', .nil, .nil⟩
  rcases hslot with ⟨hout, rfl⟩ | ⟨h0, hle, hk⟩ <;> rcases hslot' with
    ⟨hout', rfl⟩ | ⟨h0', hle', hk'⟩
  · exact .inl ⟨rfl, rfl⟩
  · omega
  · omega
  · -- headers of slots start at `hStackBase`
    have hpos := (hg.wf hal.wf).range hk
    have hpos' := (hg'.wf hal.wf').range hk'
    unfold hStackBase at hpos hpos'
    exact .inr ⟨by omega, by omega, .inr ⟨_, hk, hk'⟩⟩

/-- A header of a slot, and what both programs do with it. -/
theorem withSlot_runs {t t' : Translator} {slot : Int} {R : Translator → Translator → α → α → Prop}
    {none none' : TransM α} {some some' : Nat → TransM α} (hal : Twin.Aligned t t')
    (hnone : ∀ t₁ t₁', Twin.Aligned t₁ t₁' → w.Runs t₁ t₁' none none' R)
    (hsome : ∀ t₁ t₁' h h', Twin.Aligned t₁ t₁' → SameHdr t₁ t₁' h h' →
      w.Runs t₁ t₁' (some h) (some' h') R) :
    w.Runs t t' (do let sh ← stackHeader slot; if sh = 0 then none else some sh)
      (do let sh ← stackHeader slot; if sh = 0 then none' else some' sh) R := by
  refine (stackHeader_runs hal).bind fun t₁ t₁' h h' hal₁ _ _ hslot => ?_
  rcases hslot with ⟨rfl, rfl⟩ | ⟨hne, hne', hsame⟩
  · exact hnone t₁ t₁' hal₁
  · rw [if_neg hne, if_neg hne']
    exact hsome t₁ t₁' h h' hal₁ hsame

instance {base : RegInfo} : Alike w (translateLdxStack (w.pos + j) i base st)
    (translateLdxStack (w.pos' + j) i base st) where
  runs hal := by
    unfold translateLdxStack
    refine .ite (fun _ => Alike.runs hal) fun _ => withSlot_runs hal
      (fun _ _ hal₁ => Alike.runs hal₁) ?_
    intro t₁ t₁' h h' hal₁ hsame
    exact (Twin.RunsTo.emit hal₁ (.cast (.header hsame) (.of_low inferInstance))).bind
      fun _ _ _ _ hal₂ _ _ _ => Alike.runs hal₂

instance {hd : Nat} {off : Int} [Low hd] {f f' : Nat → TransM β}
    [h : ∀ k : Fin numTmps, Alike w (f (hTmp k)) (f' (hTmp k))] :
    Alike w (emitAddress (w.pos + j) hd off >>= f) (emitAddress (w.pos' + j) hd off >>= f') where
  runs hal := by
    have haddr : ∀ {t t'}, Twin.Aligned t t' → w.Runs t t' (emitAddress (w.pos + j) hd off)
        (emitAddress (w.pos' + j) hd off)
        fun _ _ a a' => a' = a ∧ ∃ k : Fin numTmps, a = hTmp k := by
      intro t t' hal
      refine (freshTmp_runs hal).bind fun t₁ t₁' a a' hal₁ _ _ ⟨heq, k, hk⟩ => ?_
      subst heq hk
      refine Twin.RunsTo.bind (Alike.runs hal₁) fun t₂ t₂' _ _ hal₂ _ _ _ => ?_
      exact .pure hal₂ ⟨rfl, k, rfl⟩
    refine (haddr hal).bind fun t₁ t₁' a a' hal₁ _ _ ⟨heq, k, hk⟩ => ?_
    subst heq hk
    exact (h k).runs hal₁

instance {base : RegInfo} : Alike w (translateLdxRegion (w.pos + j) i base st)
    (translateLdxRegion (w.pos' + j) i base st) := by
  unfold translateLdxRegion; dsimp only; infer_instance

instance : Alike w (translateLdx (w.pos + j) i st) (translateLdx (w.pos' + j) i st) := by
  unfold translateLdx; infer_instance

instance {base : RegInfo} {fromReg : Bool} :
    Alike w (translateStoreStack (w.pos + j) i base st fromReg)
      (translateStoreStack (w.pos' + j) i base st fromReg) where
  runs hal := by
    unfold translateStoreStack
    refine .ite (fun _ => Alike.runs hal) fun _ => withSlot_runs hal
      (fun _ _ hal₁ => Alike.runs hal₁) ?_
    intro t₁ t₁' h h' hal₁ hsame
    refine .ite (fun _ => ?_) fun _ => ?_
    · exact (Twin.RunsTo.emit hal₁ (.cast (.header (.of_low inferInstance)) hsame)).bind
        fun _ _ _ _ hal₂ _ _ _ => Alike.runs hal₂
    · exact (Twin.RunsTo.emit hal₁ (.stateless (.const _) (.const _) hsame)).bind
        fun _ _ _ _ hal₂ _ _ _ => Alike.runs hal₂

instance {base : RegInfo} {fromReg : Bool} :
    Alike w (translateStoreRegion (w.pos + j) i base st fromReg)
      (translateStoreRegion (w.pos' + j) i base st fromReg) := by
  unfold translateStoreRegion; dsimp only; infer_instance

instance {fromReg : Bool} : Alike w (translateStore (w.pos + j) i st fromReg)
    (translateStore (w.pos' + j) i st fromReg) := by
  unfold translateStore; infer_instance

instance : Alike w (translateLdPkt (w.pos + j) i st) (translateLdPkt (w.pos' + j) i st) := by
  unfold translateLdPkt; infer_instance

/-! ## Conditions -/

/-- The same entry, or none on both sides; and the same arm for it. -/
def SameCond (t t' : Translator) (a a' : Option MatchEntry × Bool) : Prop :=
  Option.Rel (SameEntry t t') a.1 a'.1 ∧ a'.2 = a.2

theorem SameCond.of_low {t t' : Translator} {e : MatchEntry} {swap : Bool} (h : LowEntry e) :
    SameCond t t' (some e, swap) (some e, swap) :=
  ⟨.some (h t t'), rfl⟩

theorem emitJset_runs {t t' : Translator} {is32 : Bool} {lhs : Nat} [Low lhs]
    (hal : Twin.Aligned t t') :
    w.Runs t t' (emitJset (w.pos + j) i is32 lhs) (emitJset (w.pos' + j) i is32 lhs) SameCond := by
  have hlow : ∀ (k : Fin numTmps) (width : Width),
      LowEntry (cmpEntry (hTmp k) .eq (matchConst 0 width)) :=
    fun k width => lowEntry_const inferInstance
  refine fresh_runs hal fun k _ _ hal => .ite (fun _ => ?_) fun _ => ?_
  · exact fresh_runs hal fun k2 _ _ hal => Alike.then hal fun _ _ _ hal => .ite
      (fun _ => Alike.then hal fun _ _ _ hal => .pure hal (.of_low (hlow k _)))
      fun _ => fresh_runs hal fun k3 _ _ hal => Alike.then hal fun _ _ _ hal =>
        Alike.then hal fun _ _ _ hal => .pure hal (.of_low (hlow k _))
  · exact .ite (fun _ => Alike.then hal fun _ _ _ hal => .pure hal (.of_low (hlow k _)))
      fun _ => Alike.then hal fun _ _ _ hal => .pure hal (.of_low (hlow k _))

theorem side_runs {t t' : Translator} {is32 signed : Bool} {reg : Nat} [Low reg]
    {f f' : Nat → TransM β} {S : Translator → Translator → β → β → Prop} (hal : Twin.Aligned t t')
    (h : ∀ (k : Fin numTmps) t₁ t₁', Twin.Aligned t₁ t₁' →
      w.Runs t₁ t₁' (f (hTmp k)) (f' (hTmp k)) S) :
    w.Runs t t' (emitSide (w.pos + j) is32 signed reg >>= f)
      (emitSide (w.pos' + j) is32 signed reg >>= f') S := by
  have hside : w.Runs t t' (emitSide (w.pos + j) is32 signed reg)
      (emitSide (w.pos' + j) is32 signed reg)
      fun _ _ a a' => a' = a ∧ ∃ k : Fin numTmps, a = hTmp k := by
    refine fresh_runs hal fun k _ _ hal => ?_
    -- narrowed or not, and then biased or not
    refine .ite (fun _ => Alike.then hal fun _ _ _ hal => ?_)
      fun _ => Alike.then hal fun _ _ _ hal => ?_
    all_goals
      dsimp only
      exact .ite (fun _ => Alike.then hal fun _ _ _ hal => .pure hal ⟨rfl, k, rfl⟩)
        fun _ => .pure hal ⟨rfl, k, rfl⟩
  refine hside.bind fun t₁ t₁' a a' hal₁ _ _ ⟨heq, k, hk⟩ => ?_
  subst heq hk
  exact h k t₁ t₁' hal₁

theorem emitSides_runs {t t' : Translator} {is32 signed : Bool} {lhs : Nat} [hl : Low lhs]
    (hal : Twin.Aligned t t') :
    w.Runs t t' (emitSides (w.pos + j) i is32 signed lhs) (emitSides (w.pos' + j) i is32 signed lhs)
      fun _ _ a a' => a' = a ∧ ∀ cmp, LowEntry (cmpEntry a.1 cmp a.2) := by
  refine .ite (fun _ => side_runs hal fun k _ _ hal => .ite (fun _ => ?_) fun _ => ?_) fun _ => ?_
  · exact .pure hal ⟨rfl, fun _ => lowEntry_const inferInstance⟩
  · exact side_runs hal fun k2 _ _ hal =>
      .pure hal ⟨rfl, fun _ => lowEntry_header inferInstance inferInstance⟩
  · refine .pure hal ⟨rfl, fun _ => ?_⟩
    dsimp only
    split
    · exact lowEntry_const hl
    · exact lowEntry_header hl inferInstance

theorem emitCondition_runs {t t' : Translator} (hst : Twin.Started t t') :
    w.Runs t t' (emitCondition (w.pos + j) i) (emitCondition (w.pos' + j) i) SameCond := by
  unfold emitCondition
  refine hst.setTmpNext.bind fun _ _ _ _ hal _ _ _ =>
    .ite (fun _ => emitJset_runs hal) fun _ => ?_
  refine (emitSides_runs hal).bind fun _ _ a a' hal _ _ ⟨heq, hlow⟩ => ?_
  subst heq
  cases htable : i.jmpOp.table with
  | none => exact Alike.then hal fun _ _ _ hal => .pure hal ⟨.none, rfl⟩
  | some p => exact .pure hal (.of_low (hlow p.1))

end Methods

end Ect
