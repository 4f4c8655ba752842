-- SUMMARY: What the modules of one block do to the chain, and the inversion of an accepted block.
import Ect.Ir.Semantics
import Ect.Lowering.Blocks

/-!
# One block of the chain

A block's modules run only when the pc header holds the block's guard, and leave
the state alone otherwise. `BlockLowered` is an accepted block taken apart: its
body, its terminator, and what control does next.
-/

namespace Ect

open TransM

/-! ## Program counters -/

theorem setPcOp_eval {len : Nat → Nat} {σ : State} {pc h : Nat} (hpc : pc < 2 ^ 64) :
    (setPcOp pc h).eval len σ = σ.setHdr h (.int .w64 pc) := by
  have hmod : pc % 18446744073709551616 = pc := Nat.mod_eq_of_lt hpc
  simp [setPcOp, Op.eval, Operand.eval, BinOp.eval, hmod]

theorem matchConst_eval {σ : State} {k : Nat} {w : Width} (hk : k < 2 ^ 64) :
    (matchConst k w).eval σ = .int w k := by
  simp only [matchConst, MatchVal.eval, CrVal.int.injEq, true_and]
  omega

theorem pcEntry_holds {σ : State} {p q : Nat} (hσ : σ.hdr hPc = .int .w64 q) (hp : p < 2 ^ 64) :
    (pcEntry p).holds σ = (q == p) := by
  simp [pcEntry, cmpEntry, MatchEntry.holds, hσ, matchConst_eval hp, Cmp.eval]

theorem blockPc_inj {i j : Nat} : blockPc i = blockPc j ↔ i = j := by
  simp [blockPc]

theorem blockPc_ne_decidePc (i j : Nat) : blockPc i ≠ decidePc j := by
  simp only [blockPc, decidePc]; omega

theorem blockPc_ne_halt (i : Nat) : blockPc i ≠ pcHalt := by simp [blockPc, pcHalt]

theorem decidePc_ne_halt (i : Nat) : decidePc i ≠ pcHalt := by simp [decidePc, pcHalt]

/-! ## Running a block's modules -/

section Modules

variable {len : Nat → Nat} {σ : State}

theorem runRules_closed_hit {p : Nat} {ops : List Op} (hσ : σ.hdr hPc = .int .w64 p)
    (hp : p < 2 ^ 64) :
    runRules len σ (closeRules [⟨[pcEntry p], ops⟩]) = runOps len σ ops := by
  simp [closeRules, runRules, Rule.fires, pcEntry_holds hσ hp]

/-- Rules that all wait for another pc leave the state alone. -/
theorem runRules_closed_miss {p q : Nat} {rules : List Rule} (hσ : σ.hdr hPc = .int .w64 q)
    (hp : p < 2 ^ 64) (hne : q ≠ p)
    (hrules : ∀ r ∈ rules, r.entries.head? = some (pcEntry p)) :
    runRules len σ (closeRules rules) = σ := by
  induction rules with
  | nil => simp [closeRules, runRules, Rule.fires, defaultRule]
  | cons r rs ih =>
    have hr := hrules r (by simp)
    have hfires : r.fires σ = false := by
      obtain ⟨es, hes⟩ : ∃ es, r.entries = pcEntry p :: es := by
        cases hent : r.entries with
        | nil => simp [hent] at hr
        | cons e es => simp [hent] at hr; exact ⟨es, by rw [hr]⟩
      simp [Rule.fires, hes, pcEntry_holds hσ hp, hne]
    have hrec := ih (fun r hr => hrules r (by simp [hr]))
    simp only [closeRules, List.cons_append, runRules, hfires] at hrec ⊢
    exact hrec

/-- The rule list of a decide transformer. -/
def decideRules (start : Nat) (arms : List (List MatchEntry × List Op × Nat)) : List Rule :=
  arms.map fun a => ⟨pcEntry (decidePc start) :: a.1, a.2.1 ++ [setPcOp a.2.2 hPc]⟩

theorem blockModules_of_arms {start : Nat} {flow : Flow} {ops : List Op}
    {arms : List (List MatchEntry × List Op × Nat)} (h : flow.arms = some arms) :
    blockModules start flow ops =
      [closeRules [⟨[pcEntry (blockPc start)], ops ++ [setPcOp (decidePc start) hPc]⟩],
        closeRules (decideRules start arms)] := by
  simp [blockModules, h, decideRules]

/-- The pc a block without arms continues at. -/
def Flow.nextPc (flow : Flow) : Nat := if flow.takeBlk.isSome then flow.takePc else flow.fallPc

theorem blockModules_of_no_arms {start : Nat} {flow : Flow} {ops : List Op}
    (h : flow.arms = none) :
    blockModules start flow ops =
      [closeRules [⟨[pcEntry (blockPc start)], ops ++ [setPcOp flow.nextPc hPc]⟩]] := by
  simp [blockModules, h, Flow.nextPc]

/-- A block whose guards do not hold leaves the state alone. -/
theorem runModules_miss {start q : Nat} {flow : Flow} {ops : List Op}
    (hσ : σ.hdr hPc = .int .w64 q) (hstart : decidePc start < 2 ^ 64)
    (hb : q ≠ blockPc start) (hd : q ≠ decidePc start) :
    runModules len σ (blockModules start flow ops) = σ := by
  have hp : blockPc start < 2 ^ 64 := by simp only [decidePc, blockPc] at *; omega
  have h₁ : ∀ ops, runRules len σ (closeRules [⟨[pcEntry (blockPc start)], ops⟩]) = σ := by
    intro ops
    exact runRules_closed_miss hσ hp hb (by simp)
  cases harms : flow.arms with
  | none => simp [blockModules_of_no_arms harms, h₁]
  | some arms =>
    have h₂ : runRules len σ (closeRules (decideRules start arms)) = σ := by
      apply runRules_closed_miss hσ hstart hd
      intro r hr
      obtain ⟨a, _, rfl⟩ := List.mem_map.mp hr
      rfl
    simp [blockModules_of_arms harms, h₁, h₂]

/-- A block without arms runs its operations and goes on at its next pc. -/
theorem runModules_hit {start : Nat} {flow : Flow} {ops : List Op}
    (hσ : σ.hdr hPc = .int .w64 (blockPc start)) (hstart : decidePc start < 2 ^ 64)
    (hnext : flow.nextPc < 2 ^ 64) (harms : flow.arms = none) :
    runModules len σ (blockModules start flow ops) =
      (runOps len σ ops).setHdr hPc (.int .w64 flow.nextPc) := by
  have hp : blockPc start < 2 ^ 64 := by simp only [decidePc, blockPc] at *; omega
  simp [blockModules_of_no_arms harms, runRules_closed_hit hσ hp, setPcOp_eval hnext]

/-- The first arm whose entries hold. -/
def chooseArm (σ : State) (arms : List (List MatchEntry × List Op × Nat)) :
    Option (List Op × Nat) :=
  (arms.find? fun a => a.1.all (MatchEntry.holds σ)).map (·.2)

theorem runRules_decide {start : Nat} {arms : List (List MatchEntry × List Op × Nat)}
    {ops : List Op} {pc : Nat} (hσ : σ.hdr hPc = .int .w64 (decidePc start))
    (hstart : decidePc start < 2 ^ 64) (hchoose : chooseArm σ arms = some (ops, pc))
    (hpc : pc < 2 ^ 64) :
    runRules len σ (closeRules (decideRules start arms)) =
      (runOps len σ ops).setHdr hPc (.int .w64 pc) := by
  induction arms with
  | nil => simp [chooseArm] at hchoose
  | cons a as ih =>
    have hfires : (Rule.mk (pcEntry (decidePc start) :: a.1) (a.2.1 ++ [setPcOp a.2.2 hPc])).fires σ
        = a.1.all (MatchEntry.holds σ) := by
      simp [Rule.fires, pcEntry_holds hσ hstart]
    simp only [chooseArm, List.find?_cons] at hchoose
    simp only [closeRules, decideRules, List.map_cons, List.cons_append, runRules, hfires] at ih ⊢
    cases hall : a.1.all (MatchEntry.holds σ) with
    | true =>
      simp only [hall, Option.map_some, Option.some.injEq] at hchoose
      simp [hchoose, setPcOp_eval hpc]
    | false =>
      simp only [hall] at hchoose
      exact ih hchoose

/-- A block with arms runs its operations, and then the first arm whose entries
hold on the result. -/
theorem runModules_arms {start pc : Nat} {flow : Flow} {ops armOps : List Op}
    {arms : List (List MatchEntry × List Op × Nat)}
    (hσ : σ.hdr hPc = .int .w64 (blockPc start)) (hstart : decidePc start < 2 ^ 64)
    (harms : flow.arms = some arms)
    (hchoose : chooseArm ((runOps len σ ops).setHdr hPc (.int .w64 (decidePc start))) arms =
      some (armOps, pc))
    (hpc : pc < 2 ^ 64) :
    runModules len σ (blockModules start flow ops) =
      (runOps len ((runOps len σ ops).setHdr hPc (.int .w64 (decidePc start))) armOps).setHdr hPc
        (.int .w64 pc) := by
  have hp : blockPc start < 2 ^ 64 := by simp only [decidePc, blockPc] at *; omega
  simp only [blockModules_of_arms harms, runModules_cons, runModules_nil,
    runRules_closed_hit hσ hp, runOps_append, runOps_cons, runOps_nil, setPcOp_eval hstart]
  exact runRules_decide (by simp) hstart hchoose hpc

end Modules

/-! ## Accepted blocks -/

variable {insns : List Insn} {lead : Nat → Bool} {c : Config}

/-- Where the straight-line part of a block ends. -/
def bodyEnd (insns : List Insn) (end_ : Nat) : Nat :=
  if (insnAt insns (end_ - 1)).endsBlock then end_ - 1 else end_

/-- An accepted block, taken apart. -/
structure BlockLowered (insns : List Insn) (lead : Nat → Bool) (c : Config) (start end_ : Nat)
    (st : AbsState) (t t' : Translator) (st' : AbsState) (flow : Flow) (ops : List Op) : Prop where
  lowered : ∃ st₁ t₁ o₁ o₂,
    (translateBody insns (bodyEnd insns end_) (bodyEnd insns end_ - start) start st).Accepts
      c t st₁ t₁ o₁ ∧
    (translateTerm insns lead end_ st₁).Accepts c t₁ (flow, st') t' o₂ ∧
    ops = o₁ ++ o₂

theorem translateBlock_accepts {t t' : Translator} {ops : List Op} {b start end_ : Nat}
    {blockIn blockIn' : Nat → AbsState} {mods : List (List Rule)}
    (hb : IsBlock insns lead b start end_)
    (h : (translateBlock insns lead b blockIn).Accepts c t (mods, blockIn') t' ops) :
    ops = [] ∧ ∃ st' flow o,
      BlockLowered insns lead c start end_ (if (blockIn b).live then blockIn b else .init)
        t t' st' flow o ∧
      mods = blockModules start flow o ∧ blockIn' = propagate blockIn st' flow := by
  have hstart : (blockStarts insns.length lead).getD b 0 = start := by
    simp [List.getD, hb.start_eq]
  simp only [translateBlock, hstart, hb.end_eq, accepts_bind, accepts_capture, accepts_pure] at h
  obtain ⟨⟨⟨flow, st'⟩, o⟩, t₂, _, ⟨⟨st₁, t₁, o₁, hbody, o₂, hterm, rfl⟩, rfl⟩, _, ⟨hres, rfl, rfl⟩,
    rfl⟩ := h
  obtain ⟨rfl, rfl⟩ := Prod.mk.inj hres
  exact ⟨rfl, st', flow, _, ⟨st₁, t₁, o₁, o₂, hbody, hterm, rfl⟩, rfl, rfl⟩

/-! ## Accepted terminators -/

/-- Where a block falls through to. -/
def fallTo (insns : List Insn) (lead : Nat → Bool) (k : Nat) : Option Nat × Nat :=
  if k < insns.length then (some (blockOf lead k), blockPc k) else (none, pcHalt)

/-- Where a block jumps to. -/
def jumpTo (insns : List Insn) (lead : Nat → Bool) (target : Int) : Option Nat × Nat :=
  if 0 ≤ target ∧ target < insns.length then
    (some (blockOf lead target.toNat), blockPc target.toNat)
  else (none, pcHalt)

/-- The shapes an accepted terminator has. `term` is the last instruction of the
block and `end_` the position after it. -/
inductive TermLowered (insns : List Insn) (lead : Nat → Bool) (c : Config) (end_ : Nat)
    (st : AbsState) (t : Translator) : Flow → AbsState → Translator → List Op → Prop where
  | fall (h : (insnAt insns (end_ - 1)).endsBlock = false) :
      TermLowered insns lead c end_ st t
        ⟨none, false, none, (fallTo insns lead end_).2, pcHalt, (fallTo insns lead end_).1, none⟩
        st t []
  | exit (h : (insnAt insns (end_ - 1)).endsBlock = true)
      (hop : (insnAt insns (end_ - 1)).jmpOp = .exit) :
      TermLowered insns lead c end_ st t ⟨none, false, none, pcHalt, pcHalt, none, none⟩ st t []
  | call {arms : Option (List Arm)} {st' : AbsState} {t' : Translator} {ops : List Op}
      (h : (insnAt insns (end_ - 1)).endsBlock = true)
      (hop : (insnAt insns (end_ - 1)).jmpOp = .call)
      (hcall : (translateCall (end_ - 1) (insnAt insns (end_ - 1)) st).Accepts c t (arms, st')
        t' ops) :
      TermLowered insns lead c end_ st t
        ⟨none, false, arms, (fallTo insns lead end_).2, (fallTo insns lead end_).2,
          (fallTo insns lead end_).1, none⟩ st' t' ops
  | ja (h : (insnAt insns (end_ - 1)).endsBlock = true)
      (hop : (insnAt insns (end_ - 1)).jmpOp = .ja) :
      TermLowered insns lead c end_ st t
        ⟨none, false, none, pcHalt,
          (jumpTo insns lead (end_ + (insnAt insns (end_ - 1)).off.toInt)).2, none,
          (jumpTo insns lead (end_ + (insnAt insns (end_ - 1)).off.toInt)).1⟩ st t []
  | cond {e : MatchEntry} {swap : Bool} {t' : Translator} {ops : List Op}
      (h : (insnAt insns (end_ - 1)).branches = true)
      (hop : (insnAt insns (end_ - 1)).jmpOp ≠ .ja)
      (hcond : (emitCondition (end_ - 1) (insnAt insns (end_ - 1))).Accepts c t (some e, swap)
        t' ops) :
      TermLowered insns lead c end_ st t
        ⟨some e, swap, none, (fallTo insns lead end_).2,
          (jumpTo insns lead (end_ + (insnAt insns (end_ - 1)).off.toInt)).2,
          (fallTo insns lead end_).1,
          (jumpTo insns lead (end_ + (insnAt insns (end_ - 1)).off.toInt)).1⟩ st t' ops

/-- An accepted condition has an entry: an operation without one is reported. -/
theorem emitCondition_accepts_some {t t' : Translator} {ops : List Op} {idx : Nat} {i : Insn}
    {r : Option MatchEntry × Bool} (h : (emitCondition idx i).Accepts c t r t' ops) :
    ∃ e, r = (some e, r.2) := by
  unfold emitCondition at h
  obtain ⟨_, _, _, h⟩ := h.tail
  split at h
  · unfold emitJset at h
    obtain ⟨_, _, _, h⟩ := h.tail
    split at h
    · obtain ⟨_, _, _, h⟩ := h.tail
      obtain ⟨_, _, _, h⟩ := h.tail
      split at h
      · obtain ⟨_, _, _, h⟩ := h.tail
        exact ⟨_, (accepts_pure.mp h).1.trans (by rw [(accepts_pure.mp h).1])⟩
      · obtain ⟨_, _, _, h⟩ := h.tail
        obtain ⟨_, _, _, h⟩ := h.tail
        obtain ⟨_, _, _, h⟩ := h.tail
        exact ⟨_, (accepts_pure.mp h).1.trans (by rw [(accepts_pure.mp h).1])⟩
    · split at h <;>
      · obtain ⟨_, _, _, h⟩ := h.tail
        exact ⟨_, (accepts_pure.mp h).1.trans (by rw [(accepts_pure.mp h).1])⟩
  · obtain ⟨⟨_, _⟩, _, _, h⟩ := h.tail
    dsimp only at h
    split at h
    · simp at h
    · exact ⟨_, (accepts_pure.mp h).1.trans (by rw [(accepts_pure.mp h).1])⟩

theorem translateTerm_accepts {t t' : Translator} {ops : List Op} {end_ : Nat}
    {st st' : AbsState} {flow : Flow}
    (h : (translateTerm insns lead end_ st).Accepts c t (flow, st') t' ops) :
    TermLowered insns lead c end_ st t flow st' t' ops := by
  have hends : ((insnAt insns (end_ - 1)).isJmp && !(insnAt insns (end_ - 1)).isNopJump)
      = (insnAt insns (end_ - 1)).endsBlock := rfl
  have hfb : (if end_ < insns.length then some (blockOf lead end_) else none)
      = (fallTo insns lead end_).1 := by unfold fallTo; split <;> rfl
  have hfp : (if end_ < insns.length then blockPc end_ else pcHalt)
      = (fallTo insns lead end_).2 := by unfold fallTo; split <;> rfl
  have hjb : ∀ x : Int, (if 0 ≤ x ∧ x < insns.length then some (blockOf lead x.toNat) else none)
      = (jumpTo insns lead x).1 := by intro x; unfold jumpTo; split <;> rfl
  have hjp : ∀ x : Int, (if 0 ≤ x ∧ x < insns.length then blockPc x.toNat else pcHalt)
      = (jumpTo insns lead x).2 := by intro x; unfold jumpTo; split <;> rfl
  simp only [translateTerm, hends, hfb, hfp, hjb, hjp] at h
  split at h
  · rename_i hno
    obtain ⟨hr, rfl, rfl⟩ := accepts_pure.mp h
    obtain ⟨rfl, rfl⟩ := Prod.mk.inj hr
    exact .fall (by simpa using hno)
  · rename_i hyes
    have hyes : (insnAt insns (end_ - 1)).endsBlock = true := by simpa using hyes
    have hjmp : (insnAt insns (end_ - 1)).isJmp = true := by
      simp only [Insn.endsBlock, Bool.and_eq_true] at hyes; exact hyes.1
    split at h
    · -- a conditional jump
      rename_i hc
      simp only [jmpIsConditional, Bool.and_eq_true, bne_iff_ne, ne_eq] at hc
      obtain ⟨⟨⟨_, hja⟩, hexit⟩, hcall⟩ := hc
      obtain ⟨⟨cond, swap⟩, t₁, o₁, hcond, o₂, h, rfl⟩ := accepts_bind.mp h
      obtain ⟨e, he⟩ := emitCondition_accepts_some hcond
      obtain ⟨rfl, _⟩ := Prod.mk.inj he
      split at h
      · contradiction
      · contradiction
      · contradiction
      · obtain ⟨hr, rfl, rfl⟩ := accepts_pure.mp h
        obtain ⟨rfl, rfl⟩ := Prod.mk.inj hr
        simpa using TermLowered.cond (by simp [Insn.branches, hyes, hexit, hcall]) hja hcond
    · rename_i hc
      obtain ⟨⟨cond, swap⟩, t₁, o₁, hnone, o₂, h, rfl⟩ := accepts_bind.mp h
      obtain ⟨hn, rfl, rfl⟩ := accepts_pure.mp hnone
      obtain ⟨rfl, rfl⟩ := Prod.mk.inj hn
      split at h
      · rename_i hop
        obtain ⟨hr, rfl, rfl⟩ := accepts_pure.mp h
        obtain ⟨rfl, rfl⟩ := Prod.mk.inj hr
        exact .exit hyes hop
      · rename_i hop
        obtain ⟨⟨arms, st₁⟩, t₂, o₃, hcall, o₄, hret, rfl⟩ := accepts_bind.mp h
        obtain ⟨hr, rfl, rfl⟩ := accepts_pure.mp hret
        obtain ⟨rfl, rfl⟩ := Prod.mk.inj hr
        simpa using TermLowered.call hyes hop hcall
      · rename_i hop
        obtain ⟨hr, rfl, rfl⟩ := accepts_pure.mp h
        obtain ⟨rfl, rfl⟩ := Prod.mk.inj hr
        exact .ja hyes hop
      · rename_i hexit hcall hja
        have hcond : jmpIsConditional (insnAt insns (end_ - 1)) = true := by
          simp only [jmpIsConditional, Bool.and_eq_true, bne_iff_ne, ne_eq]
          exact ⟨⟨⟨hjmp, hja⟩, hexit⟩, hcall⟩
        exact absurd hcond hc

end Ect
