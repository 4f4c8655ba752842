-- SUMMARY: The run of an emitted chain as a walk over the program's instructions.
import Ect.Lowering.Chain
import Ect.Maps.Calls

/-!
# Walks

A run of the emitted chain passes through points: an instruction of the program,
what the translator knows there, and the state of the chain. `runPoints` computes
the points of a run. `Moves` is what one instruction does to a point, and `Walk`
chains moves together up to the end of the run. The run of an accepted program is
a walk, so a property of all its points is shown one move at a time.
-/

namespace Ect

open TransM

/-! ## The emitted chain -/

/-- The run of an emitted program on the given region contents. -/
def Program.run (p : Program) (mem : Nat → Nat → Cell) : State :=
  runChain (regionLen p.regions) (State.initial mem) p.modules

theorem emitProgram_run (c : Config) (mods : List (List Rule)) (mem : Nat → Nat → Cell) :
    (emitProgram c mods).run mem =
      runModules (regionLen (declaredRegions c)) (State.initial mem) mods := by
  have hrules : (emitProgram c mods).modules.map Transformer.rules = mods := by
    simp [emitProgram, numberModules, Function.comp_def]
  rw [Program.run, runChain_eq_runModules, hrules]
  rfl

/-! ## Points -/

/-- The instruction a run is about to execute, what the translator knows there, and
the state of the chain. -/
structure Point where
  idx : Nat
  st : AbsState
  t : Translator
  σ : State

section Points

variable (insns : List Insn) (c : Config) (len : Nat → Nat)

/-- The points of the straight-line part of a block. -/
def bodyPoints (bodyEnd : Nat) : Nat → Point → List Point
  | 0, _ => []
  | fuel + 1, p =>
    if p.idx < bodyEnd then
      p :: match translateOne p.idx insns p.st c p.t with
        | .ok ((k, st), t, o) => bodyPoints bodyEnd fuel ⟨p.idx + k, st, t, runOps len p.σ o.ops⟩
        | .error _ => []
    else []

/-- The point before the terminator, if the block has one. -/
def termPoints (end_ : Nat) (p : Point) : List Point :=
  if (insnAt insns (end_ - 1)).endsBlock then
    match translateBody insns (end_ - 1) (end_ - 1 - p.idx) p.idx p.st c p.t with
    | .ok (st, t, o) => [⟨end_ - 1, st, t, runOps len p.σ o.ops⟩]
    | .error _ => []
  else []

/-- The points of a block that starts at `p` and ends before `end_`. -/
def blockPoints (end_ : Nat) (p : Point) : List Point :=
  bodyPoints insns c len (bodyEnd insns end_) (bodyEnd insns end_ - p.idx) p ++
    termPoints insns c len end_ p

/-- The points of the blocks whose guard holds when the chain reaches them. -/
def blocksPoints (lead : Nat → Bool) : List Nat → (Nat → AbsState) → Translator → State → List Point
  | [], _, _, _ => []
  | b :: bs, blockIn, t, σ =>
    match translateBlock insns lead b blockIn c t with
    | .error _ => []
    | .ok ((mods, blockIn'), t', _) =>
      let starts := blockStarts insns.length lead
      let start := starts.getD b 0
      let st := if (blockIn b).live then blockIn b else .init
      (if σ.hdr hPc = .int .w64 (blockPc start) then
          blockPoints insns c len (blockEnd insns starts b) ⟨start, st, t, σ⟩
        else []) ++ blocksPoints lead bs blockIn' t' (runModules len σ mods)

/-- The points of a run on the given region contents, in order. -/
def runPoints (mem : Nat → Nat → Cell) : List Point :=
  match findLeaders insns c .init with
  | .error _ => []
  | .ok (lead, t, _) =>
    blocksPoints insns c len lead (List.range (blockStarts insns.length lead).length) entryStates t
      (runRules len (State.initial mem) (preamble (scanUsedRegs insns)))

end Points

/-! ## Moves -/

/-- Two states that differ in the program counter alone. -/
abbrev State.SameOffPc (σ σ' : State) : Prop := σ.SameBut (· = hPc) σ'

/-- What the instruction at a point does: the position control goes to, the state
of the translator after it, and the state of the chain up to the program counter. -/
inductive Moves (insns : List Insn) (c : Config) (len : Nat → Nat) (p : Point) :
    Int → AbsState → Translator → State → Prop where
  | insn {k : Nat} {st : AbsState} {t : Translator} {ops : List Op}
      (h : (translateOne p.idx insns p.st).Accepts c p.t (k, st) t ops) :
      Moves insns c len p (p.idx + k : Nat) st t (runOps len p.σ ops)
  | ja (hends : (insnAt insns p.idx).endsBlock = true) (hop : (insnAt insns p.idx).jmpOp = .ja) :
      Moves insns c len p (jumpTarget p.idx (insnAt insns p.idx)) p.st p.t p.σ
  | cond {e : MatchEntry} {swap taken : Bool} {t : Translator} {ops : List Op} {v : CrVal}
      (hbr : (insnAt insns p.idx).branches = true) (hop : (insnAt insns p.idx).jmpOp ≠ .ja)
      (h : (emitCondition p.idx (insnAt insns p.idx)).Accepts c p.t (some e, swap) t ops)
      (he : e.holds ((runOps len p.σ ops).setHdr hPc v) = (taken != swap)) :
      Moves insns c len p
        (if taken then jumpTarget p.idx (insnAt insns p.idx) else (p.idx + 1 : Nat))
        p.st t (runOps len p.σ ops)
  | call {st : AbsState} {t : Translator} {ops : List Op}
      (hends : (insnAt insns p.idx).endsBlock = true) (hop : (insnAt insns p.idx).jmpOp = .call)
      (h : (translateCall p.idx (insnAt insns p.idx) p.st).Accepts c p.t (none, st) t ops) :
      Moves insns c len p (p.idx + 1 : Nat) st t (runOps len p.σ ops)
  | arms {arms : List Arm} {arm : Arm} {st : AbsState} {t : Translator} {ops : List Op} {v : CrVal}
      (hends : (insnAt insns p.idx).endsBlock = true) (hop : (insnAt insns p.idx).jmpOp = .call)
      (h : (translateCall p.idx (insnAt insns p.idx) p.st).Accepts c p.t (some arms, st) t ops)
      (harm : arms.find? (fun a => a.1.all (MatchEntry.holds ((runOps len p.σ ops).setHdr hPc v))) =
        some arm) :
      Moves insns c len p (p.idx + 1 : Nat) st t
        (runOps len ((runOps len p.σ ops).setHdr hPc v) arm.2)

/-- Control goes to `j`, and the run continues at `k`: the same position, but for a
wide immediate whose second slot starts or ends a block. -/
def Continues (insns : List Insn) (lead : Nat → Bool) (i : Nat) (j : Int) (k : Nat) : Prop :=
  (k : Int) = j ∨ (k = i + 1 ∧ (insnAt insns i).isLdImm64 = true ∧
    (lead k = true ∨ (insnAt insns k).endsBlock = true))

/-- The run from a point passes through the given points and ends in the given
state. -/
inductive Walk (insns : List Insn) (lead : Nat → Bool) (c : Config) (len : Nat → Nat) :
    List Point → Point → State → Prop where
  /-- Past the last instruction. -/
  | off {p : Point} {σ' : State} (h : p.idx = insns.length) (hσ : p.σ.SameOffPc σ') :
      Walk insns lead c len [] p σ'
  | exit {p : Point} {σ' : State} (hends : (insnAt insns p.idx).endsBlock = true)
      (hop : (insnAt insns p.idx).jmpOp = .exit) (hσ : p.σ.SameOffPc σ') :
      Walk insns lead c len [p] p σ'
  /-- A jump to where no later block starts. -/
  | lost {p : Point} {j : Int} {st : AbsState} {t : Translator} {σ₁ σ' : State}
      (hends : (insnAt insns p.idx).endsBlock = true) (hm : Moves insns c len p j st t σ₁)
      (hlost : ∀ k : Nat, (k : Int) = j → p.idx < k →
        k ≠ insns.length ∧ (k < insns.length → lead k = false))
      (hσ : σ₁.SameOffPc σ') :
      Walk insns lead c len [p] p σ'
  | hop {p q : Point} {ps : List Point} {j : Int} {st : AbsState} {t : Translator} {σ₁ σ' : State}
      (hm : Moves insns c len p j st t σ₁) (hj : Continues insns lead p.idx j q.idx)
      (hst : st ≤ q.st) (ht : t.Grows q.t) (hσ : σ₁.SameOffPc q.σ)
      (hw : Walk insns lead c len ps q σ') :
      Walk insns lead c len (p :: ps) p σ'

/-! ## The straight-line part -/

section Body

variable {insns : List Insn} {lead : Nat → Bool} {c : Config} {len : Nat → Nat}

theorem translatePlain_accepts_cls {idx : Nat} {i : Insn} {st st' : AbsState} {t t' : Translator}
    {ops : List Op} (h : (translatePlain idx i st).Accepts c t st' t' ops) : i.isJmp = false := by
  unfold translatePlain at h
  split at h <;> rename_i hcls
  all_goals first
    | (simp [Insn.isJmp, hcls]; done)
    | simp at h

/-- What an accepted instruction is: a jump over nothing, a wide immediate, or one of
the other instructions. The scratch pool is free again before each. -/
theorem translateOne_cases {i k : Nat} {st st' : AbsState} {t t' : Translator} {ops : List Op}
    (h : (translateOne i insns st).Accepts c t (k, st') t' ops) :
    ((insnAt insns i).isNopJump = true ∧ k = 1 ∧ st' = st ∧ t' = { t with tmpNext := 0 } ∧
        ops = []) ∨
      ((insnAt insns i).isLdImm64 = true ∧
        (translateLdImm64 i insns st).Accepts c { t with tmpNext := 0 } (k, st') t' ops) ∨
      ((insnAt insns i).isLdImm64 = false ∧ k = 1 ∧
        (translatePlain i (insnAt insns i) st).Accepts c { t with tmpNext := 0 } st' t' ops) := by
  unfold translateOne at h
  obtain ⟨_, _, _, hset, _, h₁, rfl⟩ := accepts_bind.mp h
  obtain ⟨rfl, rfl⟩ := accepts_setTmpNext.mp hset
  rw [List.nil_append]
  split at h₁
  · rename_i hnop
    obtain ⟨hr, rfl, rfl⟩ := accepts_pure.mp h₁
    obtain ⟨rfl, rfl⟩ := Prod.mk.inj hr
    exact .inl ⟨hnop, rfl, rfl, rfl, rfl⟩
  · split at h₁
    · rename_i hld
      exact .inr (.inl ⟨hld, h₁⟩)
    · rename_i hld
      obtain ⟨_, _, _, hplain, _, hret, rfl⟩ := accepts_bind.mp h₁
      obtain ⟨hr, rfl, rfl⟩ := accepts_pure.mp hret
      obtain ⟨rfl, rfl⟩ := Prod.mk.inj hr
      exact .inr (.inr ⟨by simpa using hld, rfl, by simpa using hplain⟩)

/-- An accepted instruction does not end a block, and it takes the slots it has. -/
theorem translateOne_accepts {i k : Nat} {st st' : AbsState} {t t' : Translator} {ops : List Op}
    (h : (translateOne i insns st).Accepts c t (k, st') t' ops) (hi : i < insns.length) :
    (insnAt insns i).endsBlock = false ∧ k = insnSlots (insnAt insns i) ∧ i + k ≤ insns.length := by
  unfold translateOne at h
  obtain ⟨_, _, _, h⟩ := h.tail
  split at h
  · rename_i hnop
    obtain ⟨hr, _, _⟩ := accepts_pure.mp h
    have hj : (insnAt insns i).isJmp = true := by
      simp only [Insn.isNopJump, Bool.and_eq_true] at hnop; exact hnop.1.1
    have hld := Insn.isLdImm64_eq_false_of_isJmp hj
    obtain ⟨rfl, rfl⟩ := Prod.mk.inj hr
    exact ⟨by simp [Insn.endsBlock, hnop], (insnSlots_of_not_ldImm64 hld).symm, hi⟩
  · split at h
    · rename_i hld
      have hj : (insnAt insns i).isJmp = false := by
        cases hj : (insnAt insns i).isJmp with
        | false => rfl
        | true => simp [Insn.isLdImm64_eq_false_of_isJmp hj] at hld
      refine ⟨by simp [Insn.endsBlock, hj], ?_⟩
      rw [insnSlots_of_ldImm64 hld]
      unfold translateLdImm64 at h
      dsimp only at h
      split at h
      · simp at h
      · obtain ⟨_, _, _, h⟩ := h.tail
        have hk : k = 2 := by
          split at h
          · obtain ⟨_, _, _, h⟩ := h.tail
            obtain ⟨_, _, _, h⟩ := h.tail
            exact (Prod.mk.inj (accepts_pure.mp h).1).1
          · split at h
            · simp at h
            · obtain ⟨_, _, _, h⟩ := h.tail
              obtain ⟨_, _, _, h⟩ := h.tail
              exact (Prod.mk.inj (accepts_pure.mp h).1).1
        exact ⟨hk, by omega⟩
    · rename_i hld
      obtain ⟨st₁, _, _, hplain, _, h, _⟩ := accepts_bind.mp h
      obtain ⟨hr, _, _⟩ := accepts_pure.mp h
      obtain ⟨rfl, rfl⟩ := Prod.mk.inj hr
      refine ⟨by simp [Insn.endsBlock, translatePlain_accepts_cls hplain], ?_, hi⟩
      exact (insnSlots_of_not_ldImm64 (by simpa using hld)).symm

/-- A walk from where the straight-line part ends extends to a walk from where it
starts. -/
theorem Walk.body {e fuel : Nat} {p q : Point} {st' : AbsState} {t' : Translator} {ops : List Op}
    {ps : List Point} {σ' : State}
    (h : (translateBody insns e fuel p.idx p.st).Accepts c p.t st' t' ops)
    (hlt : p.idx < e) (hfuel : e ≤ p.idx + fuel) (he : e ≤ insns.length)
    (hstop : e = insns.length ∨ lead e = true ∨ (insnAt insns e).endsBlock = true)
    (hq : q.idx = e) (hst : st' ≤ q.st) (ht : t'.Grows q.t)
    (hσ : (runOps len p.σ ops).SameOffPc q.σ) (hw : Walk insns lead c len ps q σ') :
    Walk insns lead c len (bodyPoints insns c len e fuel p ++ ps) p σ' := by
  induction fuel generalizing p ops with
  | zero => omega
  | succ fuel ih =>
    simp only [translateBody, if_pos hlt] at h
    obtain ⟨⟨k, st₁⟩, t₁, o₁, hone, o₂, hrest, rfl⟩ := accepts_bind.mp h
    obtain ⟨_, hk, hlen⟩ := translateOne_accepts hone (by omega)
    have hpos := insnSlots_pos (insnAt insns p.idx)
    have hslots := insnSlots_le (insnAt insns p.idx)
    have hpts : bodyPoints insns c len e (fuel + 1) p =
        p :: bodyPoints insns c len e fuel ⟨p.idx + k, st₁, t₁, runOps len p.σ o₁⟩ := by
      have hone' : translateOne p.idx insns p.st c p.t = .ok ((k, st₁), t₁, ⟨o₁, []⟩) := hone
      simp [bodyPoints, hlt, hone']
    rw [hpts, List.cons_append]
    dsimp only at hrest
    by_cases hin : p.idx + k < e
    · -- the next instruction is in the block
      have hw' := ih (p := ⟨p.idx + k, st₁, t₁, runOps len p.σ o₁⟩) hrest hin (by simp; omega)
        (by simpa using hσ)
      exact .hop (.insn hone) (.inl rfl) (le_refl _) (.refl _) (.refl _) hw'
    · -- the straight-line part ends here
      have hend : st' = st₁ ∧ t' = t₁ ∧ o₂ = [] := by
        cases fuel with
        | zero => exact accepts_pure.mp hrest
        | succ fuel =>
          simp only [translateBody, if_neg hin] at hrest
          exact accepts_pure.mp hrest
      obtain ⟨rfl, rfl, rfl⟩ := hend
      have hnil : bodyPoints insns c len e fuel ⟨p.idx + k, st', t', runOps len p.σ o₁⟩ = [] := by
        cases fuel with
        | zero => rfl
        | succ fuel => simp [bodyPoints, hin]
      rw [hnil, List.nil_append]
      refine .hop (.insn hone) ?_ hst ht (by simpa using hσ) hw
      rw [hq]
      rcases Nat.eq_or_lt_of_le (Nat.le_of_not_lt hin) with heq | hover
      · exact .inl (by omega)
      · right
        have hwide : (insnAt insns p.idx).isLdImm64 = true := by
          cases hl : (insnAt insns p.idx).isLdImm64 with
          | true => rfl
          | false => rw [insnSlots_of_not_ldImm64 hl] at hk; omega
        exact ⟨by omega, hwide, hstop.resolve_left (by omega)⟩

end Body

/-! ## Blocks -/

section Block

variable {insns : List Insn} {lead : Nat → Bool} {c : Config} {len : Nat → Nat}

/-- What one block does to a run that reaches it: the run ends, at a pc no later
block waits for, or goes on at the position the last move names. -/
inductive TermRun (insns : List Insn) (lead : Nat → Bool) (c : Config) (len : Nat → Nat) (p : Point)
    (flow : Flow) (st' : AbsState) (t' : Translator) (σ' : State) : Prop where
  | exit (hop : (insnAt insns p.idx).jmpOp = .exit) (hσ : p.σ.SameOffPc σ')
      (hpc : σ'.hdr hPc = .int .w64 pcHalt)
  | goes {j : Int} {σ₁ : State} (hm : Moves insns c len p j st' t' σ₁) (hσ : σ₁.SameOffPc σ')
      (hpc : σ'.hdr hPc = .int .w64 (jumpTo insns lead j).2)
      (hblk : ∀ s, (jumpTo insns lead j).1 = some s → flow.fallBlk = some s ∨ flow.takeBlk = some s)

theorem fallTo_eq (k : Nat) : fallTo insns lead k = jumpTo insns lead k := by
  simp [fallTo, jumpTo]

theorem jumpTo_lt (hlen : decidePc insns.length < 2 ^ 64) (j : Int) :
    (jumpTo insns lead j).2 < 2 ^ 64 := by
  simp only [jumpTo, blockPc, decidePc, pcHalt] at *
  split <;> dsimp only <;> omega

/-- The terminator of a block, run at the point before it. -/
theorem termRun {start end_ : Nat} {p : Point} {σ₀ : State} {flow : Flow} {st' : AbsState}
    {t' : Translator} {o₁ o₂ : List Op} (hlen : decidePc insns.length < 2 ^ 64)
    (hstart : start < end_) (hend : end_ ≤ insns.length)
    (hσ₀ : σ₀.hdr hPc = .int .w64 (blockPc start)) (hidx : p.idx + 1 = end_)
    (hσ : p.σ = runOps len σ₀ o₁) (hends : (insnAt insns p.idx).endsBlock = true)
    (hterm : TermLowered insns lead c end_ p.st p.t flow st' t' o₂) :
    TermRun insns lead c len p flow st' t'
      (runModules len σ₀ (blockModules start flow (o₁ ++ o₂))) := by
  have hdec : decidePc start < 2 ^ 64 := by simp only [decidePc] at *; omega
  have hpos : end_ - 1 = p.idx := by omega
  have htarget : ∀ i : Insn, (end_ : Int) + i.off.toInt = jumpTarget p.idx i := by
    intro i; simp only [jumpTarget]; omega
  cases hterm with
  | fall h => rw [hpos] at h; simp [hends] at h
  | exit h hop =>
    rw [hpos] at hop
    rw [runModules_hit hσ₀ hdec (by decide) rfl]
    refine .exit hop ?_ (by simp [Flow.nextPc])
    simpa [hσ] using State.SameBut.setHdr (T := (· = hPc)) _ _ rfl
  | @call arms _ _ _ h hop hcall =>
    rw [hpos] at hop hcall
    rw [fallTo_eq]
    have hnext := @jumpTo_lt _ lead hlen end_
    cases arms with
    | none =>
      rw [runModules_hit hσ₀ hdec (by simpa [Flow.nextPc] using hnext) rfl]
      refine .goes (.call hends hop hcall) ?_ ?_ ?_
      · simpa [hσ] using State.SameBut.setHdr (T := (· = hPc)) _ _ rfl
      · simp [Flow.nextPc, hidx]
      · intro s hs; left; rw [hidx] at hs; exact hs
    | some arms =>
      have hdef := translateCall_default hcall
      obtain ⟨arm, harm⟩ := hdef.find?
        ((runOps len p.σ o₂).setHdr hPc (.int .w64 (decidePc start)))
      rw [runModules_arms hσ₀ hdec rfl ?_ hnext]
      · refine .goes (.arms hends hop hcall harm) ?_ ?_ ?_
        · simpa [hσ] using State.SameBut.setHdr (T := (· = hPc)) _ _ rfl
        · simp [hidx]
        · intro s hs; left; rw [hidx] at hs; exact hs
      · have hcomp : (fun a : List MatchEntry × List Op × Nat => a.1.all (MatchEntry.holds
            ((runOps len σ₀ (o₁ ++ o₂)).setHdr hPc (.int .w64 (decidePc start))))) ∘
            (fun a : Arm => (a.1, a.2, (jumpTo insns lead end_).2)) =
            fun a : Arm => a.1.all (MatchEntry.holds
              ((runOps len p.σ o₂).setHdr hPc (.int .w64 (decidePc start)))) := by
          funext a; simp [hσ]
        simp only [chooseArm, List.find?_map, hcomp, harm, Option.map_some]
  | ja h hop =>
    rw [hpos] at hop
    rw [htarget, hpos]
    have hnext := @jumpTo_lt _ lead hlen (jumpTarget p.idx (insnAt insns p.idx))
    have hpc : (Flow.nextPc ⟨none, false, none, pcHalt,
        (jumpTo insns lead (jumpTarget p.idx (insnAt insns p.idx))).2, none,
        (jumpTo insns lead (jumpTarget p.idx (insnAt insns p.idx))).1⟩) =
        (jumpTo insns lead (jumpTarget p.idx (insnAt insns p.idx))).2 := by
      simp only [Flow.nextPc, jumpTo]
      split <;> simp
    rw [runModules_hit hσ₀ hdec (by rw [hpc]; exact hnext) rfl, hpc]
    refine .goes (.ja hends hop) ?_ (by simp) (fun s hs => .inr hs)
    simpa [hσ] using State.SameBut.setHdr (T := (· = hPc)) _ _ rfl
  | @cond e swap _ _ h hop hcond =>
    rw [hpos] at h hop hcond
    rw [fallTo_eq, htarget, hpos]
    set target := jumpTarget p.idx (insnAt insns p.idx) with htgt
    set σd := (runOps len p.σ o₂).setHdr hPc (.int .w64 (decidePc start)) with hσd
    have hσd' : (runOps len σ₀ (o₁ ++ o₂)).setHdr hPc (.int .w64 (decidePc start)) = σd := by
      simp [hσd, hσ]
    -- the entry holds exactly when the jump is not taken, if the arms are swapped
    set taken := (e.holds σd != swap) with htaken
    have hpcs : chooseArm σd
        [([e], [], if swap then (jumpTo insns lead end_).2 else (jumpTo insns lead target).2),
          ([], [], if swap then (jumpTo insns lead target).2 else (jumpTo insns lead end_).2)] =
        some ([], (jumpTo insns lead (if taken then target else (end_ : Int))).2) := by
      cases hh : e.holds σd <;> cases swap <;> simp [chooseArm, hh, htaken]
    have hnext := @jumpTo_lt _ lead hlen (if taken then target else (end_ : Int))
    rw [runModules_arms hσ₀ hdec rfl (by rw [hσd']; exact hpcs) hnext]
    have he : e.holds σd = (taken != swap) := by
      cases hh : e.holds σd <;> cases swap <;> simp [htaken, hh]
    have hm := Moves.cond h hop hcond he
    rw [← htgt, hidx] at hm
    refine .goes hm ?_ (by simp) ?_
    · simp only [runOps_nil, hσd']
      exact ⟨by simp [hσd], by simp [hσd], fun h hne => by simp [hσd, hne]⟩
    · intro s hs
      cases htk : taken with
      | true => right; simpa [htk] using hs
      | false => left; simpa [htk] using hs

/-- No block from position `k` on waits for this pc. -/
def Idle (lead : Nat → Bool) (k pc : Nat) : Prop :=
  ∀ s, lead s = true → k ≤ s → pc ≠ blockPc s ∧ pc ≠ decidePc s

theorem idle_halt (k : Nat) : Idle lead k pcHalt := fun s _ _ =>
  ⟨(blockPc_ne_halt s).symm, (decidePc_ne_halt s).symm⟩

theorem idle_blockPc {j k : Nat} (h : k ≤ j → lead j = false) : Idle lead k (blockPc j) := by
  intro s hs hks
  refine ⟨fun heq => ?_, blockPc_ne_decidePc j s⟩
  obtain rfl := blockPc_inj.mp heq
  rw [h hks] at hs
  cases hs

/-- What one accepted block does to a run that reaches it. -/
inductive BlockRun (insns : List Insn) (lead : Nat → Bool) (c : Config) (len : Nat → Nat)
    (end_ : Nat) (p : Point) (flow : Flow) (st' : AbsState) (t' : Translator) (σ' : State) :
    Prop where
  | ends {pc : Nat} (hpc : σ'.hdr hPc = .int .w64 pc) (hidle : Idle lead end_ pc)
      (hw : Walk insns lead c len (blockPoints insns c len end_ p) p σ')
  | goes {j : Nat} (hj : end_ ≤ j) (hlead : j = insns.length ∨ lead j = true ∧ j < insns.length)
      (hpc : σ'.hdr hPc = .int .w64 (jumpTo insns lead j).2)
      (hblk : ∀ s, (jumpTo insns lead j).1 = some s → flow.fallBlk = some s ∨ flow.takeBlk = some s)
      (hw : ∀ {q ps σ''}, q.idx = j → st' ≤ q.st → t'.Grows q.t → q.σ = σ' →
        Walk insns lead c len ps q σ'' →
        Walk insns lead c len (blockPoints insns c len end_ p ++ ps) p σ'')

theorem blockRun {b start end_ : Nat} {st st' : AbsState} {t t' : Translator} {σ : State}
    {flow : Flow} {ops : List Op} (hlen : decidePc insns.length < 2 ^ 64)
    (hb : IsBlock insns lead b start end_)
    (hlow : BlockLowered insns lead c start end_ st t t' st' flow ops)
    (hσ : σ.hdr hPc = .int .w64 (blockPc start)) :
    BlockRun insns lead c len end_ ⟨start, st, t, σ⟩ flow st' t'
      (runModules len σ (blockModules start flow ops)) := by
  obtain ⟨st₁, t₁, o₁, o₂, hbody, hterm, rfl⟩ := hlow
  have hterm := translateTerm_accepts hterm
  have hstart := hb.start_lt
  have hend := hb.end_le
  by_cases hends : (insnAt insns (end_ - 1)).endsBlock = true
  · -- the block has a terminator, at the point `q`
    have he : bodyEnd insns end_ = end_ - 1 := by simp [bodyEnd, hends]
    rw [he] at hbody
    set q : Point := ⟨end_ - 1, st₁, t₁, runOps len σ o₁⟩ with hq
    have hbody' : translateBody insns (end_ - 1) (end_ - 1 - start) start st c t =
        .ok (st₁, t₁, ⟨o₁, []⟩) := hbody
    have hterms : termPoints insns c len end_ ⟨start, st, t, σ⟩ = [q] := by
      simp [termPoints, hends, hbody', hq]
    have hpts : blockPoints insns c len end_ ⟨start, st, t, σ⟩ =
        bodyPoints insns c len (end_ - 1) (end_ - 1 - start) ⟨start, st, t, σ⟩ ++ [q] := by
      simp only [blockPoints, he, hterms]
    have hlead_in : ∀ {ps σ''}, Walk insns lead c len ps q σ'' →
        Walk insns lead c len
          (bodyPoints insns c len (end_ - 1) (end_ - 1 - start) ⟨start, st, t, σ⟩ ++ ps)
          ⟨start, st, t, σ⟩ σ'' := by
      intro ps σ'' hw
      rcases Nat.eq_or_lt_of_le (Nat.le_sub_one_of_lt hstart) with heq | hlt
      · -- nothing before the terminator
        rw [← heq, Nat.sub_self] at hbody ⊢
        obtain ⟨h₁, h₂, h₃⟩ := accepts_pure.mp hbody
        have : q = ⟨start, st, t, σ⟩ := by simp [hq, ← heq, h₁, h₂, h₃]
        rw [← this]
        simpa [bodyPoints] using hw
      · exact Walk.body hbody hlt (by dsimp only; omega) (by omega) (.inr (.inr hends)) rfl
          (le_refl _) (.refl _) (.refl _) hw
    have hrun := termRun (p := q) hlen hstart hend hσ
      (by simp only [hq]; omega) rfl (by simpa [hq] using hends) hterm
    cases hrun with
    | exit hop hσ' hpc =>
      refine .ends hpc (idle_halt _) ?_
      rw [hpts]
      exact hlead_in (.exit (by simpa [hq] using hends) hop hσ')
    | @goes j σ₁ hm hσ' hpc hblk =>
      by_cases hland : ∃ k : Nat, (k : Int) = j ∧ end_ ≤ k ∧
          (k = insns.length ∨ lead k = true ∧ k < insns.length)
      · obtain ⟨k, rfl, hk, hlead⟩ := hland
        refine .goes hk hlead hpc hblk ?_
        intro r ps σ'' hidx hst ht hrσ hw
        rw [hpts, List.append_assoc]
        refine hlead_in (.hop hm (.inl (by rw [hidx])) hst ht ?_ hw)
        rw [hrσ]; exact hσ'
      · have hno : ∀ k : Nat, (k : Int) = j → end_ ≤ k →
            k ≠ insns.length ∧ (k < insns.length → lead k = false) := by
          intro k hk hle
          refine ⟨fun h => hland ⟨k, hk, hle, .inl h⟩, fun hlt => ?_⟩
          by_contra hlead
          exact hland ⟨k, hk, hle, .inr ⟨by simpa using hlead, hlt⟩⟩
        refine .ends hpc ?_ ?_
        · unfold jumpTo
          split
          · rename_i hj
            exact idle_blockPc fun hle => (hno j.toNat (by omega) hle).2 (by omega)
          · exact idle_halt _
        · rw [hpts]
          refine hlead_in (.lost (by simpa [hq] using hends) hm ?_ hσ')
          intro k hk hlt
          exact hno k hk (by simp only [hq] at hlt; omega)
  · -- control falls through
    have hends : (insnAt insns (end_ - 1)).endsBlock = false := by simpa using hends
    have he : bodyEnd insns end_ = end_ := by simp [bodyEnd, hends]
    rw [he] at hbody
    have hpts : blockPoints insns c len end_ ⟨start, st, t, σ⟩ =
        bodyPoints insns c len end_ (end_ - start) ⟨start, st, t, σ⟩ := by
      simp [blockPoints, he, termPoints, hends]
    cases hterm with
    | exit h | call h | ja h => simp [hends] at h
    | cond h => simp [Insn.branches, hends] at h
    | fall h =>
      rw [fallTo_eq]
      have hdec : decidePc start < 2 ^ 64 := by simp only [decidePc] at *; omega
      have hnext := @jumpTo_lt _ lead hlen end_
      rw [runModules_hit hσ hdec (by simpa [Flow.nextPc] using hnext) rfl]
      have hstop : end_ = insns.length ∨ lead end_ = true ∧ end_ < insns.length := by
        rcases Nat.eq_or_lt_of_le hend with h | h
        · exact .inl h
        · exact .inr ⟨(hb.end_lead h).1, h⟩
      refine .goes (Nat.le_refl _) hstop (by simp [Flow.nextPc]) (fun s hs => .inl hs) ?_
      intro q ps σ'' hidx hst ht hqσ hw
      rw [hpts]
      refine Walk.body hbody hstart (by dsimp only; omega) hend ?_ hidx hst ht ?_ hw
      · rcases hstop with h | h
        · exact .inl h
        · exact .inr (.inl h.1)
      · rw [hqσ]; simpa using State.SameBut.setHdr (T := (· = hPc)) _ _ rfl

/-- What the modules of an accepted block do to a run that reaches its terminator at `p`. -/
theorem termPoint_run {b start end_ : Nat} {blockIn blockIn' : Nat → AbsState} {t t' : Translator}
    {mods : List (List Rule)} {ops : List Op} {σ : State} {p : Point}
    (hlen : decidePc insns.length < 2 ^ 64) (hb : IsBlock insns lead b start end_)
    (h : (translateBlock insns lead b blockIn).Accepts c t (mods, blockIn') t' ops)
    (hσ : σ.hdr hPc = .int .w64 (blockPc start))
    (hp : p ∈ termPoints insns c len end_
      ⟨start, if (blockIn b).live then blockIn b else .init, t, σ⟩) :
    p.idx < insns.length ∧ (insnAt insns p.idx).endsBlock = true ∧
      ∃ flow st', TermRun insns lead c len p flow st' t' (runModules len σ mods) := by
  obtain ⟨_, st', flow, _, ⟨st₁, t₁, o₁, o₂, hbody, hterm, rfl⟩, rfl, _⟩ :=
    translateBlock_accepts hb h
  have hstart := hb.start_lt
  unfold termPoints at hp
  split at hp
  · rename_i hends
    rw [show bodyEnd insns end_ = end_ - 1 from if_pos hends] at hbody
    have hbody' : translateBody insns (end_ - 1) (end_ - 1 - start) start
        (if (blockIn b).live then blockIn b else .init) c t = .ok (st₁, t₁, ⟨o₁, []⟩) := hbody
    dsimp only at hp
    rw [hbody'] at hp
    obtain rfl := List.mem_singleton.mp hp
    have hend := hb.end_le
    exact ⟨by dsimp only; omega, hends, flow, st', termRun hlen hstart hend hσ
      (Nat.sub_add_cancel (by omega)) rfl hends (translateTerm_accepts hterm)⟩
  · cases hp

end Block

/-! ## The chain -/

section Chain

variable {insns : List Insn} {lead : Nat → Bool} {c : Config} {len : Nat → Nat}

theorem propagate_le_left {blockIn : Nat → AbsState} {st : AbsState} {flow : Flow} {k : Nat}
    (h : (blockIn k).live = true) :
    blockIn k ≤ propagate blockIn st flow k ∧ (propagate blockIn st flow k).live = true := by
  have hjoin : ∀ {bi : Nat → AbsState} {st : AbsState} {succ : Option Nat}, (bi k).live = true →
      bi k ≤ joinInto bi st succ k ∧ (joinInto bi st succ k).live = true := by
    intro bi st succ hlive
    cases succ with
    | none => exact ⟨le_refl _, hlive⟩
    | some s =>
      simp only [joinInto]
      split
      · rename_i heq; subst heq; exact AbsState.le_joinFrom_left _ hlive
      · exact ⟨le_refl _, hlive⟩
  obtain ⟨h₁, hl₁⟩ := hjoin h
  obtain ⟨h₂, hl₂⟩ := hjoin hl₁
  exact ⟨le_trans h₁ h₂, hl₂⟩

theorem propagate_le_right {blockIn : Nat → AbsState} {st : AbsState} {flow : Flow} {k : Nat}
    (h : flow.fallBlk = some k ∨ flow.takeBlk = some k) :
    st ≤ propagate blockIn st flow k ∧ (propagate blockIn st flow k).live = true := by
  have hst : st ≤ { st with live := true } := ⟨fun r => le_refl _, fun s => le_refl _⟩
  have hjoin : ∀ bi : Nat → AbsState, { st with live := true } ≤
      joinInto bi { st with live := true } (some k) k ∧
      (joinInto bi { st with live := true } (some k) k).live = true := by
    intro bi
    simpa [joinInto] using AbsState.le_joinFrom_right (bi k) rfl
  rcases h with h | h
  · -- joined first, and then possibly joined into again
    obtain ⟨h₁, hl₁⟩ := hjoin blockIn
    simp only [propagate, h]
    cases htk : flow.takeBlk with
    | none => exact ⟨le_trans hst h₁, hl₁⟩
    | some s =>
      simp only [joinInto]
      split
      · rename_i heq
        subst heq
        simp only [joinInto, if_true] at h₁ hl₁ ⊢
        obtain ⟨h₂, hl₂⟩ := AbsState.le_joinFrom_left { st with live := true } hl₁
        exact ⟨le_trans hst (le_trans h₁ h₂), hl₂⟩
      · simp only [joinInto, if_true] at h₁ hl₁ ⊢
        exact ⟨le_trans hst h₁, hl₁⟩
  · simp only [propagate, h]
    exact ⟨le_trans hst (hjoin _).1, (hjoin _).2⟩

theorem blocksPoints_cons {b : Nat} {bs : List Nat} {blockIn blockIn' : Nat → AbsState}
    {t t' : Translator} {σ : State} {mods : List (List Rule)} {start end_ : Nat}
    (hb : IsBlock insns lead b start end_)
    (h : (translateBlock insns lead b blockIn).Accepts c t (mods, blockIn') t' []) :
    blocksPoints insns c len lead (b :: bs) blockIn t σ =
      (if σ.hdr hPc = .int .w64 (blockPc start) then
          blockPoints insns c len end_
            ⟨start, if (blockIn b).live then blockIn b else .init, t, σ⟩
        else []) ++ blocksPoints insns c len lead bs blockIn' t' (runModules len σ mods) := by
  have h' : translateBlock insns lead b blockIn c t = .ok ((mods, blockIn'), t', ⟨[], []⟩) := h
  have hstart : (blockStarts insns.length lead).getD b 0 = start := by
    simp [List.getD, hb.start_eq]
  simp only [blocksPoints, h', hstart, hb.end_eq]

variable (hlen : decidePc insns.length < 2 ^ 64)
include hlen

/-- The blocks from `b` on leave a run alone whose pc none of them waits for. -/
theorem blocks_idle {m b k pc : Nat} (hm : b + m = (blockStarts insns.length lead).length)
    (hk : ∀ s, lead s = true → s < insns.length → b ≤ blockOf lead s → k ≤ s)
    {blockIn : Nat → AbsState} {t t' : Translator} {mods : List (List Rule)} {ops : List Op}
    (h : (translateBlocks insns lead (List.range' b m) blockIn).Accepts c t mods t' ops) {σ : State}
    (hσ : σ.hdr hPc = .int .w64 pc) (hidle : Idle lead k pc) :
    runModules len σ mods = σ ∧
      blocksPoints insns c len lead (List.range' b m) blockIn t σ = [] := by
  induction m generalizing b blockIn t mods ops with
  | zero =>
    obtain ⟨rfl, _, _⟩ := accepts_pure.mp h
    exact ⟨rfl, rfl⟩
  | succ m ih =>
    rw [List.range'_succ] at h ⊢
    unfold translateBlocks at h
    obtain ⟨⟨bmods, blockIn'⟩, t₁, o₁, hblock, _, h₁, rfl⟩ := accepts_bind.mp h
    obtain ⟨rest, t₂, o₂, hrest, _, h₂, rfl⟩ := accepts_bind.mp h₁
    obtain ⟨rfl, rfl, rfl⟩ := accepts_pure.mp h₂
    obtain ⟨start, end_, hb⟩ := @isBlock insns lead b (by omega)
    obtain ⟨rfl, st', flow, o, _, rfl, rfl⟩ := translateBlock_accepts hb hblock
    have hks : k ≤ start := hk start hb.start_lead
      (by have := hb.start_lt; have := hb.end_le; omega)
      (by rw [blockOf_starts hb.start_eq])
    obtain ⟨hne₁, hne₂⟩ := hidle start hb.start_lead hks
    have hdec : decidePc start < 2 ^ 64 := by
      have := hb.start_lt; have := hb.end_le
      simp only [decidePc] at *; omega
    have hmiss : runModules len σ (blockModules start flow o) = σ :=
      runModules_miss hσ hdec hne₁ hne₂
    obtain ⟨hrun, hpts⟩ := ih (by omega) (fun s hs hlt hbs => hk s hs hlt (by omega)) hrest
    rw [blocksPoints_cons hb hblock, runModules_append, hmiss, hrun, hpts, hσ]
    exact ⟨rfl, by simp [hne₁]⟩

/-- A run at the start of the block of `k` walks through the blocks from there on. -/
theorem blocks_walk {m b k : Nat} (hm : b + m = (blockStarts insns.length lead).length)
    {blockIn : Nat → AbsState} {t t' : Translator} {mods : List (List Rule)} {ops : List Op}
    (h : (translateBlocks insns lead (List.range' b m) blockIn).Accepts c t mods t' ops) {σ : State}
    (hσ : σ.hdr hPc = .int .w64 (blockPc k)) (hk : lead k = true) (hlt : k < insns.length)
    (hbk : b ≤ blockOf lead k) (hlive : (blockIn (blockOf lead k)).live = true) :
    ∃ q, q.idx = k ∧ blockIn (blockOf lead k) ≤ q.st ∧ t.Grows q.t ∧ q.σ = σ ∧
      Walk insns lead c len (blocksPoints insns c len lead (List.range' b m) blockIn t σ) q
        (runModules len σ mods) := by
  induction m generalizing b k blockIn t mods ops σ with
  | zero =>
    have hs := starts_blockOf hk hlt
    obtain ⟨hbound, _⟩ := List.getElem?_eq_some_iff.mp hs
    omega
  | succ m ih =>
    rw [List.range'_succ] at h ⊢
    unfold translateBlocks at h
    obtain ⟨⟨bmods, blockIn'⟩, t₁, o₁, hblock, _, h₁, rfl⟩ := accepts_bind.mp h
    obtain ⟨rest, t₂, o₂, hrest, _, h₂, rfl⟩ := accepts_bind.mp h₁
    obtain ⟨rfl, rfl, rfl⟩ := accepts_pure.mp h₂
    obtain ⟨start, end_, hb⟩ := @isBlock insns lead b (by omega)
    obtain ⟨rfl, st', flow, o, hlow, rfl, rfl⟩ := translateBlock_accepts hb hblock
    have hstart := hb.start_lt
    have hend := hb.end_le
    have hgrows : t.Grows t₁ := Grows.grows hblock
    have hks := starts_blockOf hk hlt
    rw [blocksPoints_cons hb hblock, runModules_append, hσ]
    by_cases hbb : blockOf lead k = b
    · -- the run is at this block
      obtain rfl : start = k := by
        rw [hbb, hb.start_eq] at hks
        exact Option.some.inj hks
      rw [hbb] at hlive ⊢
      rw [if_pos rfl, if_pos hlive]
      rw [if_pos hlive] at hlow
      refine ⟨⟨start, blockIn b, t, σ⟩, rfl, le_refl _, .refl _, rfl, ?_⟩
      -- the leaders of the remaining blocks lie past this one
      have hlater : ∀ s, lead s = true → s < insns.length → b + 1 ≤ blockOf lead s → end_ ≤ s := by
        intro s hs hslt hbs
        by_contra hlt'
        rcases Nat.lt_trichotomy start s with hss | rfl | hss
        · have := hb.inner s hss (by omega)
          rw [hs] at this; cases this
        · omega
        · have hs' := starts_blockOf hs hslt
          have := (starts_lt hs' hb.start_eq).mpr hss
          omega
      cases blockRun hlen hb hlow hσ with
      | ends hpc hidle hw =>
        obtain ⟨hrun, hpts⟩ := blocks_idle hlen (by omega) hlater hrest hpc hidle
        rw [hrun, hpts, List.append_nil]
        exact hw
      | @goes j hj hlead hpc hblk hw =>
        rcases hlead with hn | ⟨hjlead, hjlt⟩
        · -- past the last instruction
          subst hn
          have hjump : jumpTo insns lead (insns.length : Nat) = (none, pcHalt) := by
            simp [jumpTo]
          rw [hjump] at hpc
          obtain ⟨hrun, hpts⟩ := blocks_idle hlen (by omega) hlater hrest hpc
            (idle_halt _)
          rw [hrun, hpts]
          exact hw (q := ⟨insns.length, st', t₁, _⟩) rfl (le_refl _) (.refl _) rfl
            (.off rfl (.refl _))
        · have hjump : jumpTo insns lead j = (some (blockOf lead j), blockPc j) := by
            simp [jumpTo, hjlt]
          rw [hjump] at hpc
          have hin := hblk (blockOf lead j) (by rw [hjump])
          obtain ⟨hle, hlive'⟩ := propagate_le_right hin
          have hbj : b + 1 ≤ blockOf lead j := by
            have hjs := starts_blockOf hjlead hjlt
            have := (starts_lt hb.start_eq hjs).mpr (by omega)
            omega
          obtain ⟨q, hidx, hst, ht, hqσ, hwalk⟩ := ih (by omega) hrest hpc hjlead hjlt hbj hlive'
          exact hw hidx (le_trans hle hst) ht hqσ hwalk
    · -- the run waits for a later block
      have hne : start ≠ k := by
        rintro rfl
        exact hbb (blockOf_starts hb.start_eq)
      have hdec : decidePc start < 2 ^ 64 := by simp only [decidePc] at *; omega
      have hmiss : runModules len σ (blockModules start flow o) = σ :=
        runModules_miss hσ hdec (fun h => hne (blockPc_inj.mp h).symm) (blockPc_ne_decidePc k start)
      rw [if_neg (by simpa [blockPc] using hne.symm), hmiss, List.nil_append]
      obtain ⟨hle, hlive'⟩ := propagate_le_left hlive
      obtain ⟨q, hidx, hst, ht, hqσ, hwalk⟩ := ih (by omega) hrest hσ hk hlt (by omega) hlive'
      exact ⟨q, hidx, le_trans hle hst, hgrows.trans ht, hqσ, hwalk⟩

omit hlen

/-! ## The whole program -/

/-- The state after the preamble: the registers the program mentions hold 0, and
control is at the first block. -/
def entryRun (insns : List Insn) (mem : Nat → Nat → Cell) : State :=
  { State.initial mem with
    hdr := fun h =>
      if h = hPc then .int .w64 (blockPc 0)
      else if 10 ≤ h ∧ scanUsedRegs insns (h - 10) then .int .w64 0
      else .uninit }

theorem runOps_zeroRegs {rs : List Nat} {σ : State} :
    runOps len σ (rs.map fun r => setOp (hReg r) 0) =
      { σ with hdr := fun h => if 10 ≤ h ∧ h - 10 ∈ rs then .int .w64 0 else σ.hdr h } := by
  induction rs generalizing σ with
  | nil => simp
  | cons r rs ih =>
    have hset : (setOp (hReg r) 0).eval len σ = σ.setHdr (hReg r) (.int .w64 0) := by
      simp [setOp, Op.eval, Operand.eval, BinOp.eval, konst]
    rw [List.map_cons, runOps_cons, hset, ih]
    simp only [State.setHdr, State.mk.injEq, and_true, List.mem_cons]
    funext h
    have hreg : h = hReg r ↔ 10 ≤ h ∧ h - 10 = r := by unfold hReg; omega
    by_cases hmem : 10 ≤ h ∧ h - 10 ∈ rs
    · simp [hmem]
    · by_cases hr : h = hReg r
      · obtain ⟨h₁, h₂⟩ := hreg.mp hr
        rw [if_neg hmem, if_pos hr, if_pos ⟨h₁, .inl h₂⟩]
      · rw [if_neg hmem, if_neg hr, if_neg]
        rintro ⟨h₁, h₂ | h₂⟩
        · exact hr (hreg.mpr ⟨h₁, h₂⟩)
        · exact hmem ⟨h₁, h₂⟩

theorem preamble_run (mem : Nat → Nat → Cell) :
    runRules len (State.initial mem) (preamble (scanUsedRegs insns)) = entryRun insns mem := by
  have hpc : ∀ σ : State, (setPcOp (blockPc 0) hPc).eval len σ =
      σ.setHdr hPc (.int .w64 (blockPc 0)) := fun _ => setPcOp_eval (by decide)
  simp only [preamble, runRules, Rule.fires, List.all_nil, if_true, runOps_append, runOps_zeroRegs,
    runOps_cons, runOps_nil]
  rw [show (State.initial mem).hdr = fun _ => CrVal.uninit from rfl]
  rw [hpc]
  simp only [entryRun, State.setHdr, State.mk.injEq, and_true]
  funext h
  by_cases hp : h = hPc
  · simp [hp]
  · have hused : h - 10 < numBpfRegs ∧ scanUsedRegs insns (h - 10) = true ↔
        scanUsedRegs insns (h - 10) = true := by
      simp only [and_iff_right_iff_imp]
      intro hu
      simp only [scanUsedRegs, Bool.and_eq_true, decide_eq_true_eq] at hu
      exact hu.1
    simp [hp, hused]

/-- The run of an accepted program is a walk from its first instruction. -/
theorem translateProgram_walk {t' : Translator} {mods : List (List Rule)} {ops : List Op}
    (hlen : decidePc insns.length < 2 ^ 64)
    (h : (translateProgram insns).Accepts c .init mods t' ops) (mem : Nat → Nat → Cell) :
    ∃ lead q, Leaders insns lead ∧ q.idx = 0 ∧ entryState ≤ q.st ∧ q.t.WF ∧
      (entryRun insns mem).SameOffPc q.σ ∧
      Walk insns lead c len (runPoints insns c len mem) q
        (runModules len (State.initial mem) mods) := by
  unfold translateProgram at h
  obtain ⟨lead, t₀, o₀, hfind, _, h₁, rfl⟩ := accepts_bind.mp h
  obtain ⟨rest, t₁, o₁, hblocks, _, h₂, rfl⟩ := accepts_bind.mp h₁
  obtain ⟨rfl, rfl, rfl⟩ := accepts_pure.mp h₂
  have hfind' : findLeaders insns c .init = .ok (lead, t₀, ⟨o₀, []⟩) := hfind
  obtain ⟨rfl, rfl, hleaders⟩ := findLeaders_accepts hfind
  have hpts : runPoints insns c len mem = blocksPoints insns c len lead
      (List.range (blockStarts insns.length lead).length) entryStates .init
      (entryRun insns mem) := by
    simp only [runPoints, hfind', preamble_run]
  rw [hpts, runModules_cons, preamble_run, List.range_eq_range'] at *
  have hlead0 : lead 0 = true := (hleaders.iff 0).mpr (.inl rfl)
  have hpc : (entryRun insns mem).hdr hPc = .int .w64 (blockPc 0) := by simp [entryRun]
  rcases Nat.eq_zero_or_pos insns.length with hn | hn
  · -- no instruction, no block
    have hstarts : (blockStarts insns.length lead).length = 0 := by simp [hn, blockStarts]
    rw [hstarts] at hblocks ⊢
    obtain ⟨rfl, _, _⟩ := accepts_pure.mp hblocks
    exact ⟨lead, ⟨0, entryState, .init, entryRun insns mem⟩, hleaders, rfl, le_refl _,
      Translator.init_wf, .refl _, .off hn.symm (.refl _)⟩
  · have hblk0 : blockOf lead 0 = 0 := by
      rw [blockOf_leader hlead0]; rfl
    obtain ⟨q, hidx, hst, ht, hqσ, hwalk⟩ := blocks_walk hlen (by omega) hblocks hpc
      hlead0 hn (by omega) (by rw [hblk0]; rfl)
    rw [hblk0] at hst
    refine ⟨lead, q, hleaders, hidx, hst, ht.wf Translator.init_wf, ?_, hwalk⟩
    rw [hqσ]; exact .refl _

end Chain

end Ect
