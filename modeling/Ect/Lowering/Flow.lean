-- SUMMARY: Where the blocks of a program flow, which are reachable, and the run of each through the translator.
import Ect.Lowering.RegisterChecks
import Ect.Translate.AlikeCalls

/-!
# The flow between blocks

Where control goes after a block is read off its last instruction. The translator joins
the state at the end of each block into the blocks it flows to, in block order, so what it
knows on entry to a block is the join over the blocks before it that flow there.
-/

namespace Ect

open TransM

/-! ## Edges -/

/-- The position the block that ends before `e` falls through to. -/
def fallPos (insns : List Insn) (e : Nat) : Option Nat :=
  let term := insnAt insns (e - 1)
  if term.endsBlock ∧ (term.jmpOp = .exit ∨ term.jmpOp = .ja) then none
  else if e < insns.length then some e else none

/-- The position the block that ends before `e` jumps to. -/
def takePos (insns : List Insn) (e : Nat) : Option Nat :=
  let term := insnAt insns (e - 1)
  let t : Int := e + term.off.toInt
  if term.branches ∧ 0 ≤ t ∧ t < insns.length then some t.toNat else none

/-- The block from `s` to `e` flows to the position. -/
def FlowsTo (insns : List Insn) (e k : Nat) : Prop :=
  fallPos insns e = some k ∨ takePos insns e = some k

/-- The block that starts at `s` flows into the one that starts at `s'`. -/
def Edge (insns : List Insn) (s s' : Nat) : Prop :=
  ∃ e k e', BlockSpan insns s e ∧ FlowsTo insns e k ∧ BlockSpan insns s' e' ∧ s' ≤ k ∧ k < e'

/-- There is a path from the first instruction to the block that starts at `s`. -/
inductive Reachable (insns : List Insn) : Nat → Prop where
  | entry {e : Nat} (h : BlockSpan insns 0 e) : Reachable insns 0
  | step {s s' : Nat} (hs : Reachable insns s) (h : Edge insns s s') : Reachable insns s'

/-- No block jumps back. -/
def ForwardOnly (insns : List Insn) : Prop :=
  ∀ s e k, BlockSpan insns s e → FlowsTo insns e k → e ≤ k

/-! ## Runs of blocks -/

/-- The flow of a block, as far as its last instruction decides it. -/
structure FlowOf (insns : List Insn) (lead : Nat → Bool) (e : Nat) (flow : Flow) : Prop where
  fallBlk : flow.fallBlk = (fallPos insns e).map (blockOf lead)
  takeBlk : flow.takeBlk = (takePos insns e).map (blockOf lead)
  fallPc : flow.fallPc = ((fallPos insns e).map blockPc).getD pcHalt
  takePc : (insnAt insns (e - 1)).jmpOp ≠ .call →
    flow.takePc = ((takePos insns e).map blockPc).getD pcHalt

section Term

variable {insns : List Insn} {lead : Nat → Bool}

theorem translateTerm_flow {e : Nat} {st : AbsState} :
    (translateTerm insns lead e st).Gives fun p => FlowOf insns lead e p.1 := by
  have hfb : ∀ k, (if k < insns.length then some (blockOf lead k) else none)
      = (if k < insns.length then some k else none).map (blockOf lead) := by
    intro k; split <;> rfl
  have hfp : ∀ k, (if k < insns.length then blockPc k else pcHalt)
      = ((if k < insns.length then some k else none).map blockPc).getD pcHalt := by
    intro k; split <;> rfl
  have htb : ∀ x : Int, (if 0 ≤ x ∧ x < insns.length then some (blockOf lead x.toNat) else none)
      = (if 0 ≤ x ∧ x < insns.length then some x.toNat else none).map (blockOf lead) := by
    intro x; split <;> rfl
  have htp : ∀ x : Int, (if 0 ≤ x ∧ x < insns.length then blockPc x.toNat else pcHalt)
      = ((if 0 ≤ x ∧ x < insns.length then some x.toNat else none).map blockPc).getD pcHalt := by
    intro x; split <;> rfl
  have hends : ((insnAt insns (e - 1)).isJmp && !(insnAt insns (e - 1)).isNopJump)
      = (insnAt insns (e - 1)).endsBlock := rfl
  unfold translateTerm
  simp only [hends, hfb, hfp, htb, htp]
  split
  · rename_i hno
    have hno : (insnAt insns (e - 1)).endsBlock = false := by simpa using hno
    exact gives_pure ⟨by simp [fallPos, hno], by simp [takePos, Insn.branches, hno],
      by simp [fallPos, hno], by simp [takePos, Insn.branches, hno]⟩
  · rename_i hyes
    have hyes : (insnAt insns (e - 1)).endsBlock = true := by simpa using hyes
    -- what the condition leaves is in no field that the flow is about
    refine .ite (.after _ fun p => ?_) (.after _ fun p => ?_)
    all_goals
      cases hop : (insnAt insns (e - 1)).jmpOp
      case call =>
        refine .after _ fun _ => gives_pure ?_
        exact ⟨by simp [fallPos, hop], by simp [takePos, Insn.branches, hop],
          by simp [fallPos, hop], by simp [hop]⟩
      all_goals
        refine gives_pure ⟨?_, ?_, ?_, ?_⟩ <;>
          simp [fallPos, takePos, Insn.branches, hyes, hop]

end Term

/-- What one block is translated to, before its modules are made and its state passed on. -/
def runBlock (insns : List Insn) (lead : Nat → Bool) (b : Nat) (blockIn : Nat → AbsState) :
    TransM ((Flow × AbsState) × List Op) :=
  let starts := blockStarts insns.length lead
  let start := starts.getD b 0
  let end_ := blockEnd insns starts b
  let st := if (blockIn b).live then blockIn b else .init
  capture do
    let st ← translateBody insns (bodyEnd insns end_) (bodyEnd insns end_ - start) start st
    translateTerm insns lead end_ st

/-- One block of a translation. -/
structure BlockTrace where
  /-- Its number. -/
  b : Nat
  start : Nat
  entry : AbsState
  exit : AbsState
  flow : Flow
  ops : List Op
  diags : List String
  /-- The translator after it. -/
  t : Translator

section Runs

variable (insns : List Insn) (c : Config) (lead : Nat → Bool)

/-- The blocks of a translation, up to one that raises. -/
def blockTraces : List Nat → (Nat → AbsState) → Translator → List BlockTrace
  | [], _, _ => []
  | b :: bs, blockIn, t =>
    match runBlock insns lead b blockIn c t with
    | .error _ => []
    | .ok (((flow, st), ops), t', o) =>
      ⟨b, (blockStarts insns.length lead).getD b 0, blockIn b, st, flow, ops, o.diags, t'⟩ ::
        blockTraces bs (propagate blockIn st flow) t'

/-- The blocks of the translation of a program. -/
def programTraces : List BlockTrace :=
  match findLeaders insns c .init with
  | .error _ => []
  | .ok (lead, t, _) =>
    blockTraces insns c lead (List.range (blockStarts insns.length lead).length) entryStates t

end Runs

/-- The transformers of a block. -/
def BlockTrace.modules (r : BlockTrace) : List (List Rule) := blockModules r.start r.flow r.ops

/-! ## What flows into a block -/

/-- The state at the end of the block, once for each of its edges to block `b`. -/
def BlockTrace.edgesTo (q : BlockTrace) (b : Nat) : List AbsState :=
  (if q.flow.fallBlk = some b then [q.exit] else []) ++
    (if q.flow.takeBlk = some b then [q.exit] else [])

/-- The join of the states at the ends of blocks into another. -/
def joinAll (st : AbsState) (exits : List AbsState) : AbsState :=
  exits.foldl (fun st x => st.joinFrom { x with live := true }) st

theorem joinAll_append {st : AbsState} {xs ys : List AbsState} :
    joinAll st (xs ++ ys) = joinAll (joinAll st xs) ys := List.foldl_append

theorem propagate_eq_joinAll {blockIn : Nat → AbsState} {q : BlockTrace} {b : Nat} :
    propagate blockIn q.exit q.flow b = joinAll (blockIn b) (q.edgesTo b) := by
  have hinto : ∀ (blockIn : Nat → AbsState) (succ : Option Nat),
      joinInto blockIn { q.exit with live := true } succ b =
        joinAll (blockIn b) (if succ = some b then [q.exit] else []) := by
    intro blockIn succ
    cases succ with
    | none => rfl
    | some s =>
      simp only [joinInto, Option.some.injEq]
      by_cases hb : b = s
      · subst hb
        simp [joinAll]
      · rw [if_neg hb, if_neg (Ne.symm hb)]
        rfl
  simp only [propagate, hinto, BlockTrace.edgesTo, joinAll_append]

section Traces

variable {insns : List Insn} {c : Config} {lead : Nat → Bool}

theorem blockTraces_cons {b : Nat} {bs : List Nat} {blockIn : Nat → AbsState} {t : Translator}
    {q : BlockTrace} {qs : List BlockTrace}
    (h : blockTraces insns c lead (b :: bs) blockIn t = q :: qs) :
    ∃ o, runBlock insns lead b blockIn c t = .ok (((q.flow, q.exit), q.ops), q.t, o) ∧ q.b = b ∧
      q.start = (blockStarts insns.length lead).getD b 0 ∧ q.entry = blockIn b ∧ q.diags = o.diags ∧
      qs = blockTraces insns c lead bs (propagate blockIn q.exit q.flow) q.t := by
  unfold blockTraces at h
  split at h
  · cases h
  · rename_i flow st ops t' o hrun
    obtain ⟨rfl, rfl⟩ := List.cons.inj h
    exact ⟨o, hrun, rfl, rfl, rfl, rfl, rfl⟩

/-- What the translator knows on entry to a block: the join of what flows there from the
blocks before it. -/
theorem blockTraces_entry {bs : List Nat} {blockIn : Nat → AbsState} {t : Translator}
    {pre post : List BlockTrace} {r : BlockTrace}
    (h : blockTraces insns c lead bs blockIn t = pre ++ r :: post) :
    r.entry = joinAll (blockIn r.b) (pre.flatMap (·.edgesTo r.b)) := by
  induction pre generalizing bs blockIn t with
  | nil =>
    cases bs with
    | nil => cases h
    | cons b bs =>
      obtain ⟨_, _, rfl, _, hentry, _⟩ := blockTraces_cons h
      exact hentry
  | cons q pre ih =>
    cases bs with
    | nil => cases h
    | cons b bs =>
      obtain ⟨_, _, _, _, _, _, hrest⟩ := blockTraces_cons h
      rw [ih hrest.symm, propagate_eq_joinAll, List.flatMap_cons, joinAll_append]

theorem runBlock_flow {b s e : Nat} {blockIn : Nat → AbsState} {t t' : Translator} {flow : Flow}
    {st : AbsState} {ops : List Op} {o : Out} (hb : IsBlock insns lead b s e)
    (h : runBlock insns lead b blockIn c t = .ok (((flow, st), ops), t', o)) :
    FlowOf insns lead e flow := by
  unfold runBlock at h
  obtain ⟨_, hcap, _⟩ := ok_capture h
  obtain ⟨_, _, _, _, _, hterm, _⟩ := ok_bind hcap
  rw [hb.end_eq] at hterm
  exact translateTerm_flow _ _ _ _ _ hterm

/-- The blocks come in order, and each flows as its last instruction has it. -/
theorem blockTraces_blocks {m b : Nat} {blockIn : Nat → AbsState} {t : Translator}
    (hm : b + m = (blockStarts insns.length lead).length) :
    (blockTraces insns c lead (List.range' b m) blockIn t).Pairwise (·.b < ·.b) ∧
      ∀ r ∈ blockTraces insns c lead (List.range' b m) blockIn t, b ≤ r.b ∧
        ∃ e, IsBlock insns lead r.b r.start e ∧ FlowOf insns lead e r.flow := by
  induction m generalizing b blockIn t with
  | zero => simp [blockTraces]
  | succ m ih =>
    rw [List.range'_succ]
    cases htr : blockTraces insns c lead (b :: List.range' (b + 1) m) blockIn t with
    | nil => simp
    | cons q qs =>
      obtain ⟨o, hrun, hb, hstart, _, _, hqs⟩ := blockTraces_cons htr
      obtain ⟨s, e, hblock⟩ := @isBlock insns lead b (by omega)
      have hs : (blockStarts insns.length lead).getD b 0 = s := by simp [List.getD, hblock.start_eq]
      obtain ⟨hpair, hmem⟩ := ih (b := b + 1) (t := q.t)
        (by omega)
      rw [← hqs] at hpair hmem
      have hflow := runBlock_flow hblock hrun
      refine ⟨List.pairwise_cons.mpr ⟨fun r hr => ?_, hpair⟩, fun r hr => ?_⟩
      · have := (hmem r hr).1
        omega
      · rcases List.mem_cons.mp hr with rfl | hr
        · refine ⟨by omega, e, ?_, hflow⟩
          rw [hb, hstart, hs]
          exact hblock
        · obtain ⟨hle, hrest⟩ := hmem r hr
          exact ⟨by omega, hrest⟩

/-- The transformers and diagnostics of a translation that finishes are those of its
blocks, in order. -/
theorem translateBlocks_traces {bs : List Nat} {blockIn : Nat → AbsState} {t t' : Translator}
    {mods : List (List Rule)} {o : Out}
    (h : translateBlocks insns lead bs blockIn c t = .ok (mods, t', o)) :
    mods = (blockTraces insns c lead bs blockIn t).flatMap BlockTrace.modules ∧
      o.diags = (blockTraces insns c lead bs blockIn t).flatMap (·.diags) := by
  induction bs generalizing blockIn t mods o with
  | nil =>
    cases h
    exact ⟨rfl, rfl⟩
  | cons b bs ih =>
    unfold translateBlocks at h
    obtain ⟨⟨bmods, blockIn'⟩, t₁, o₁, o₂, hblock, h₁, rfl⟩ := ok_bind h
    obtain ⟨rest, t₂, o₃, o₄, hrest, h₂, rfl⟩ := ok_bind h₁
    cases h₂
    have hblock' : (runBlock insns lead b blockIn >>= fun r =>
        pure (blockModules ((blockStarts insns.length lead).getD b 0) r.1.1 r.2,
          propagate blockIn r.1.2 r.1.1)) c t = .ok ((bmods, blockIn'), t₁, o₁) := hblock
    obtain ⟨⟨⟨flow, st⟩, ops⟩, t₃, o₅, o₆, hrun, h₃, rfl⟩ := ok_bind hblock'
    cases h₃
    obtain ⟨hmods, hdiags⟩ := ih hrest
    unfold blockTraces
    rw [hrun]
    refine ⟨?_, ?_⟩
    · rw [List.flatMap_cons, ← hmods]
      rfl
    · simp only [List.flatMap_cons, ← hdiags, Out.append, Out.empty, List.append_nil]

end Traces

/-! ## The program -/

section Program

variable {insns : List Insn} {c : Config}

theorem programTraces_eq : ∃ lead t, (∀ k, k < insns.length → (lead k = true ↔ IsLeader insns k)) ∧
    findLeaders insns c .init = .ok (lead, .init, t) ∧
    programTraces insns c = blockTraces insns c lead
      (List.range' 0 (blockStarts insns.length lead).length) entryStates .init := by
  obtain ⟨lead, hyields, hlead⟩ := findLeaders_yields insns
  obtain ⟨o, hrun⟩ := hyields c .init
  refine ⟨lead, o, hlead, hrun, ?_⟩
  unfold programTraces
  rw [hrun, ← List.range_eq_range']

theorem BlockSpan.unique {s e e' : Nat} (h : BlockSpan insns s e) (h' : BlockSpan insns s e') :
    e = e' := by
  have := h.start_lt
  have := h'.start_lt
  have := h.end_le
  have := h'.end_le
  rcases Nat.lt_trichotomy e e' with hlt | heq | hlt
  · exact absurd (h.end_leader (by omega)) (h'.inner e (by omega) hlt)
  · exact heq
  · exact absurd (h'.end_leader (by omega)) (h.inner e' (by omega) hlt)

/-- The block of a position is the one whose span has it. -/
theorem blockOf_of_mem {lead : Nat → Bool} {b s e k : Nat}
    (h : IsBlock insns lead b s e) (hs : s ≤ k) (he : k < e) : blockOf lead k = b := by
  have hcount : ∀ k, s ≤ k → k < e → leadersBelow lead (k + 1) = leadersBelow lead (s + 1) := by
    intro k hs he
    induction k, hs using Nat.le_induction with
    | base => rfl
    | succ k hs ih =>
      rw [leadersBelow_succ, h.inner (k + 1) (by omega) he, ih (by omega)]
      simp
  have hb := blockOf_starts h.start_eq
  have hk := hcount k hs he
  simp only [blockOf, leadersBelow] at hb hk ⊢
  rw [hk]
  exact hb

end Program

end Ect
