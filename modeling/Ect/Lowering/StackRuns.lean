-- SUMMARY: Whole runs of programs with a stack: the machine with a frame and the emitted program show the same.
import Ect.Lowering.PacketLoads
import Ect.Lowering.Stack

/-!
# Runs with a stack

The lockstep of the machine with a frame and the emitted chain, over whole runs. A run of the
machine that does not fault, loads the packet fields of the context as words and reloads from the
frame only what one store left there makes the same accesses as the emitted program, and ends
with the same result and the same bytes in every region.
-/

namespace Ect

open TransM PcMachine LittleEndian Machine

/-! ## Accesses of a run -/

section Log

variable {insns : List Insn} {ctx : CtxLayout} {len : Nat → Nat} {pc pc' : Nat}
  {m m' : StackMachine}

/-- A step on the machine without a frame. -/
def StackMachine.coreStep : Step StackMachine Halt → Step Machine Halt
  | .next pc m => .next pc m.core
  | .exit m => .exit m.core
  | .stop o => .stop o

theorem StackMachine.step_outcome (pc : Nat) (m : StackMachine) :
    Outcome (fun _ => True) len m.core (coreStep (StackMachine.step insns ctx len pc m)) := by
  unfold StackMachine.step
  dsimp only
  split
  · split
    · unfold StackMachine.reload
      dsimp only
      split
      · trivial
      · exact .inl rfl
    · unfold StackMachine.spill
      dsimp only
      split_ifs
      · trivial
      · exact .inl rfl
      · trivial
      · exact .inl rfl
  · have hout := @Machine.step_outcome insns ctx len pc m.core
    cases hstep : Machine.step insns ctx len pc m.core with
    | next | exit | stop =>
      rw [hstep] at hout
      exact hout

theorem stack_reaches_log (hr : Reaches (StackMachine.step insns ctx len) pc m pc' m')
    (h : ∀ a ∈ m.core.log, ¬a.Overruns len) : ∀ a ∈ m'.core.log, ¬a.Overruns len := by
  refine hr.invariant (P := fun m => ∀ a ∈ m.core.log, ¬a.Overruns len) ?_ h
  intro pc s pc' s' hs hstep
  have hout := @StackMachine.step_outcome insns ctx len pc s
  rw [hstep] at hout
  rcases hout with hlog | ⟨b, _, hin, hlog⟩
  · rw [hlog]
    exact hs
  · intro a ha
    rw [hlog, List.mem_append, List.mem_singleton] at ha
    rcases ha with ha | rfl
    · exact hs a ha
    · exact hin

/-- What stops at an overrun has accessed nothing else outside the regions. -/
theorem stack_overrun_log {fuel : Nat} {log : List Access}
    (h : runFor (StackMachine.step insns ctx len) fuel pc m = some (.stop (.overrun log)))
    (hm : ∀ a ∈ m.core.log, ¬a.Overruns len) :
    ∃ log' a, log = log' ++ [a] ∧ a.Overruns len ∧ ∀ b ∈ log', ¬b.Overruns len := by
  obtain ⟨pc₁, m₁, hr, hlast⟩ := runFor_last h
  have hout := @StackMachine.step_outcome insns ctx len pc₁ m₁
  rw [hlast] at hout
  obtain ⟨a, _, hover, hlog⟩ := hout
  exact ⟨m₁.core.log, a, hlog, hover, stack_reaches_log hr hm⟩

end Log

/-- What runs in lockstep with the machine has accessed the regions alone. -/
theorem Lockstep.not_rejects {insns : List Insn} {len : Nat → Nat} {st : AbsState} {m : Machine}
    {σ : State} (h : Lockstep insns len st m σ) : ¬σ.Rejects len := by
  rintro ⟨a, ha, hout⟩
  exact h.inRange a (h.log ▸ ha) hout

/-! ## Whole runs -/

section Runs

variable {insns : List Insn} {lead : Nat → Bool} {c : Config} {len lenM : Nat → Nat}

/-- How the run of the machine from `m` and the run of the chain that ends in `σ'`
compare. -/
inductive StackRunSim (insns : List Insn) (ctx : CtxLayout) (len lenM : Nat → Nat) (pc : Nat)
    (m : StackMachine) (σ' : State) : Prop where
  | exit {st : AbsState} {m' : StackMachine}
      (hend : Ends (StackMachine.step insns ctx lenM) (insns.length + 1 - pc) pc m (.exit m'))
      (hsim : Lockstep insns len st m'.core σ') (hused : scanUsedRegs insns 0 = true)
  | off {st : AbsState} {m' : Machine}
      (hend : Ends (StackMachine.step insns ctx lenM) (insns.length + 1 - pc) pc m
        (.stop (.off m')))
      (hsim : Lockstep insns len st m' σ')
  | fault
      (hend : Ends (StackMachine.step insns ctx lenM) (insns.length + 1 - pc) pc m (.stop .fault))
  | overrun {log : List Access} {a : Access}
      (hend : Ends (StackMachine.step insns ctx lenM) (insns.length + 1 - pc) pc m
        (.stop (.overrun (log ++ [a]))))
      (ha : a.Overruns lenM) (hlog : log ++ [a] <+: σ'.log)
  /-- The machine comes to a packet field it does not load as a word, or to a reload of what
  several stores left. -/
  | unfair {pc' : Nat} {m' : StackMachine}
      (hr : Reaches (StackMachine.step insns ctx lenM) pc m pc' m')
      (h : NarrowFieldLoad insns ctx pc' m'.core ∨ StackMachine.MixedReload insns pc' m')
  /-- The machine goes on after an access that leaves the chain's region. -/
  | passed {pc' : Nat} {m' : StackMachine} {a : Access}
      (hr : Reaches (StackMachine.step insns ctx lenM) pc m pc' m') (ha : a.Overruns len)
      (hm : a ∈ m'.core.log)

/-- A step of the machine before a comparison of runs. -/
theorem StackRunSim.step {ctx : CtxLayout} {pc q : Nat} {m m₁ : StackMachine} {σ' : State}
    (hstep : StackMachine.step insns ctx lenM pc m = .next q m₁) (hfwd : pc < q)
    (hle : q ≤ insns.length) (h : StackRunSim insns ctx len lenM q m₁ σ') :
    StackRunSim insns ctx len lenM pc m σ' := by
  have hn : insns.length + 1 - q + 1 ≤ insns.length + 1 - pc := by omega
  cases h with
  | exit hend hsim hused => exact .exit ((Ends.of_next hstep hend).mono hn) hsim hused
  | off hend hsim => exact .off ((Ends.of_next hstep hend).mono hn) hsim
  | fault hend => exact .fault ((Ends.of_next hstep hend).mono hn)
  | overrun hend ha hlog => exact .overrun ((Ends.of_next hstep hend).mono hn) ha hlog
  | unfair hr h => exact .unfair (.next hstep hr) h
  | passed hr ha hm => exact .passed (.next hstep hr) ha hm

section Walk

variable (hl : Leaders insns lead) (hwide : WideSlots insns)
  (hlead : ∀ k, lead k = true → k < insns.length → (insnAt insns k).code ≠ 0#8)
include hl hwide hlead

/-- The machine and the chain run alike along a walk. -/
theorem stack_run_sim {ps : List Point} {p : Point} {σ' : State} {m : StackMachine}
    (hprog : isProgramOf Insn.isRegional insns = true) (hmaps : ∀ k, c.insnMapIdx k = none)
    (hw : Walk insns lead c len ps p σ') (hb : p.idx = insns.length ∨ Boundary insns p.idx)
    (hsim : StackLockstep insns len p.t p.st m p.σ) :
    StackRunSim insns c.ctx len lenM p.idx m σ' := by
  induction hw generalizing m with
  | @off p σ' h hσ =>
    have hstep : StackMachine.step insns c.ctx lenM p.idx m = .stop (.off m.core) := by
      refine (if_neg fun hlt => ?_).trans ?_
      · omega
      · rw [Machine.step, if_pos (by omega)]
        rfl
    exact .off ((Ends.of_stop hstep).mono (by omega)) (hsim.core.mono (le_refl _) hσ)
  | @exit p σ' hends hop hσ =>
    have hlt := lt_of_endsBlock hends
    have hjmp := Insn.isJmp_of_endsBlock hends
    have hstep : StackMachine.step insns c.ctx lenM p.idx m = .exit m := by
      rw [StackMachine.step_beside (accessesFrame_of_jmp hjmp), Machine.step_jmp hlt hjmp]
      simp only [Machine.jmpStep, hop]
      rfl
    exact .exit ((Ends.of_exit hstep).mono (by omega)) (hsim.core.mono (le_refl _) hσ)
      (used_of_exit (hb.resolve_left (by omega)) hlt hends hop)
  | lost hends hm hlost _ =>
    have hlt := hm.lt
    exact (hm.not_lost hl hends hlost (hb.resolve_left (by omega))).elim
  | @hop p q ps j st t σ₁ σ' hm hj hst ht hσ hw ih =>
    have hlt := hm.lt
    have hbp := hb.resolve_left (by omega)
    obtain ⟨hqj, hfwd, hle, hbq⟩ := hm.continues hl hwide hlead hj hbp
    have hlog : σ₁.log <+: σ'.log := hσ.log ▸ Path.log_prefix (hw.path hl hwide hlead hbq)
    cases stack_step_sim hsim (isProgramOf_at hprog hbp hlt).1 hmaps hbp hm hqj with
    | next hstep hsim' => exact .step hstep hfwd hle (ih hbq (hsim'.mono ht hst hσ))
    | fault hstep => exact .fault ((Ends.of_stop hstep).mono (by omega))
    | narrow h => exact .unfair (.refl _ _) (.inl h)
    | mixed h => exact .unfair (.refl _ _) (.inr h)
    | overrun ha hlog₁ hstep =>
      exact .overrun ((Ends.of_stop hstep).mono (by omega)) ha (hlog₁ ▸ hlog)
    | @passed a m' ha _ hlog' hstep =>
      exact .passed (.next hstep (.refl _ _)) ha (by simp [hlog'])

end Walk

/-- The run of the machine and the run of the emitted chain on the same bytes. -/
theorem translateProgram_stack_sim {t' : Translator} {mods : List (List Rule)} {ops : List Op}
    (hprog : isProgramOf Insn.isRegional insns = true) (hmaps : ∀ k, c.insnMapIdx k = none)
    (hlen : decidePc insns.length < 2 ^ 64)
    (h : (translateProgram insns).Accepts c .init mods t' ops) (mem : Nat → Nat → Byte) :
    StackRunSim insns c.ctx (regionLen (declaredRegions c)) lenM 0 (StackMachine.entry mem)
      ((emitProgram c mods).run fun r k => some (mem r k)) := by
  obtain ⟨lead, q, hl, hidx, hst, hwf, hσ, hw⟩ :=
    translateProgram_walk hlen h fun r k => some (mem r k)
  have hwide := wideSlots_of_isProgramOf hprog
  rw [emitProgram_run, ← hidx]
  refine stack_run_sim hl hwide (translateProgram_leaders h hl) hprog hmaps hw
    (.inr (by rw [hidx]; exact .zero)) ?_
  exact (stackLockstep_entry insns mem hwf).mono (.refl _) hst hσ

end Runs

/-! ## Memory and stack -/

/-- Lowering preserves what a program with a stack shows: on every run of the machine that does
not fault, loads the packet fields of the context as words only, and reloads from the frame only
what one store left there. -/
theorem stack_lowering_sound {insns : List Insn} {c : Config} {t' : Translator}
    {mods : List (List Rule)} {ops : List Op} (hprog : isProgramOf Insn.isRegional insns = true)
    (hmaps : ∀ k, c.insnMapIdx k = none) (hlen : decidePc insns.length < 2 ^ 64)
    (h : (translateProgram insns).Accepts c .init mods t' ops) (mem : Nat → Nat → Byte)
    (hfault : ¬Ends (StackMachine.step insns c.ctx (regionLen (emitProgram c mods).regions))
      (insns.length + 1) 0 (StackMachine.entry mem) (.stop .fault))
    (hfair : ∀ pc m, Reaches (StackMachine.step insns c.ctx
        (regionLen (emitProgram c mods).regions)) 0 (StackMachine.entry mem) pc m →
      StackMachine.FairAt insns c.ctx pc m) :
    ∃ e, Ends (StackMachine.step insns c.ctx (regionLen (emitProgram c mods).regions))
        (insns.length + 1) 0 (StackMachine.entry mem) e ∧
      SameRun (emitProgram c mods) (StackMachine.coreEnd e)
        ((emitProgram c mods).run fun r k => some (mem r k)) := by
  have hentry : ∀ a ∈ (StackMachine.entry mem).core.log,
      ¬a.Overruns (regionLen (declaredRegions c)) := by simp [StackMachine.entry, Machine.entry]
  cases translateProgram_stack_sim hprog hmaps hlen h mem with
  | exit hend hsim hused =>
    exact ⟨_, hend, hsim.log, hsim.not_rejects, emit32_of_regsMatch hsim.regs hused, hsim.mem⟩
  | off hend hsim => exact ⟨_, hend, hsim.log, hsim.not_rejects, hsim.mem⟩
  | fault hend => exact absurd hend hfault
  | overrun hend ha hlog =>
    obtain ⟨log', b, hlog', hb, hin⟩ := stack_overrun_log (hend _ le_rfl) hentry
    exact ⟨_, hend, log', b, hlog', hb, hin, hlog⟩
  | unfair hr h =>
    obtain ⟨hnarrow, hmixed⟩ := hfair _ _ hr
    exact (h.elim hnarrow hmixed).elim
  | passed hr ha hm => exact absurd ha (stack_reaches_log hr hentry _ hm)

/-- Spill the context pointer, reload it, and load a packet field through it:
`*(u64 *)(r10 - 8) = r1; r2 = *(u64 *)(r10 - 8); r3 = *(u32 *)(r2 + 0); r0 = *(u8 *)(r3 + 12);
exit`. -/
def spillCtxProgram : List Insn :=
  [⟨0x7b, 10, 1, -8, 0⟩, ⟨0x79, 2, 10, -8, 0⟩, ⟨0x61, 3, 2, 0, 0⟩, ⟨0x71, 0, 3, 12, 0⟩,
    ⟨0x95, 0, 0, 0, 0⟩]

theorem spillCtxProgram_sound :
    ∃ mods e, Ends (StackMachine.step spillCtxProgram ctxXdpMd
        (regionLen (emitProgram xdpConfig mods).regions)) 6 0 (StackMachine.entry fun _ _ => 0) e ∧
      SameRun (emitProgram xdpConfig mods) (StackMachine.coreEnd e)
        ((emitProgram xdpConfig mods).run fun _ _ => some 0) := by
  obtain ⟨mods, hmods⟩ :
      ∃ mods, (translateProgram spillCtxProgram).result xdpConfig .init = some mods := ⟨_, rfl⟩
  obtain ⟨t', ops, h⟩ := accepts_of_result hmods
  refine ⟨mods, stack_lowering_sound (by decide) (fun _ => rfl) (by decide) h (fun _ _ => 0) ?_ ?_⟩
  · intro hfault
    have hrun := hfault 6 le_rfl
    cases hrun
  · intro pc m hr
    have hall : allReached (StackMachine.step spillCtxProgram ctxXdpMd
        (regionLen (emitProgram xdpConfig mods).regions))
        (fun pc m => decide (StackMachine.FairAt spillCtxProgram ctxXdpMd pc m)) 6 0
        (StackMachine.entry fun _ _ => 0) = true := by rfl
    exact of_decide_eq_true (hr.of_allReached hall)

/-! ## Two programs -/

/-- What a checker sees of a run of an emitted program: nothing where it rejects, and else the
value it emits, the contents of the regions and how far the run reached into each. -/
def Program.observe (p : Program) (mem : Nat → Nat → Cell) :
    Option (Option Nat × (Nat → Nat → Cell) × (Nat → Nat)) :=
  let σ := p.run mem
  if σ.Rejects (regionLen p.regions) then none
  else some (σ.emit32 p.emitHdr, σ.mem, σ.extent)

theorem differ_iff_observe {p₁ p₂ : Program} {mem : Nat → Nat → Cell} :
    Differ p₁ p₂ mem ↔ p₁.observe mem ≠ p₂.observe mem := by
  unfold Differ Program.observe
  by_cases h₁ : (p₁.run mem).Rejects (regionLen p₁.regions) <;>
    by_cases h₂ : (p₂.run mem).Rejects (regionLen p₂.regions)
  · simp [h₁, h₂]
  · simp [h₁, h₂]
  · simp [h₁, h₂]
  · simp only [h₁, h₂, not_false_eq_true, and_true, true_and, false_or, if_false, ne_eq,
      Option.some.injEq, Prod.mk.injEq, not_and_or, funext_iff, not_forall]

/-- What a run of the machine shows: nothing where it leaves a region, and else the value it
returns, the bytes it leaves and how far it reached into each region. -/
def StackMachine.shows : End StackMachine Halt → Option (Nat × (Nat → Nat → Byte) × (Nat → Nat))
  | .exit m => some ((m.core.regs 0).toNat % 2 ^ 32, m.core.mem,
      (State.extent ⟨fun _ => .uninit, fun _ _ => none, m.core.log⟩))
  | .stop _ => none

/-- The run on `mem` exits or leaves a region, and is one the emitted program can follow. -/
structure CleanRun (insns : List Insn) (ctx : CtxLayout) (len : Nat → Nat)
    (mem : Nat → Nat → Byte) (e : End StackMachine Halt) : Prop where
  ends : Ends (StackMachine.step insns ctx len) (insns.length + 1) 0 (StackMachine.entry mem) e
  ended : (∃ m, e = .exit m) ∨ ∃ log, e = .stop (.overrun log)
  fair : ∀ pc m, Reaches (StackMachine.step insns ctx len) 0 (StackMachine.entry mem) pc m →
    StackMachine.FairAt insns ctx pc m

/-- A run whose configurations are gone through one by one. -/
theorem CleanRun.of_run {insns : List Insn} {ctx : CtxLayout} {len : Nat → Nat}
    {mem : Nat → Nat → Byte} {m : StackMachine}
    (hrun : runFor (StackMachine.step insns ctx len) (insns.length + 1) 0 (StackMachine.entry mem) =
      some (.exit m))
    (hfair : allReached (StackMachine.step insns ctx len)
      (fun pc m => decide (StackMachine.FairAt insns ctx pc m)) (insns.length + 1) 0
      (StackMachine.entry mem) = true) :
    CleanRun insns ctx len mem (.exit m) where
  ends := .of_runFor hrun
  ended := .inl ⟨m, rfl⟩
  fair _ _ hr := of_decide_eq_true (hr.of_allReached hfair)

section Pair

variable {insns insns₁ insns₂ : List Insn} {c c₁ c₂ : Config} {t' t₁ t₂ : Translator}
  {mods mods₁ mods₂ : List (List Rule)} {ops ops₁ ops₂ : List Op} {mem : Nat → Nat → Byte}
  {e e₁ e₂ : End StackMachine Halt}

/-- The emitted program shows what a clean run of the machine shows. -/
theorem CleanRun.observe (hclean : CleanRun insns c.ctx (regionLen (declaredRegions c)) mem e)
    (hprog : isProgramOf Insn.isRegional insns = true) (hmaps : ∀ k, c.insnMapIdx k = none)
    (hlen : decidePc insns.length < 2 ^ 64)
    (h : (translateProgram insns).Accepts c .init mods t' ops) :
    (emitProgram c mods).observe (fun r k => some (mem r k)) =
      (StackMachine.shows e).map fun x => (some x.1, fun r k => some (x.2.1 r k), x.2.2) := by
  have hentry : ∀ a ∈ (StackMachine.entry mem).core.log,
      ¬a.Overruns (regionLen (declaredRegions c)) := by simp [StackMachine.entry, Machine.entry]
  have hended : ∀ {e'}, Ends (StackMachine.step insns c.ctx (regionLen (declaredRegions c)))
      (insns.length + 1) 0 (StackMachine.entry mem) e' → e' = e := fun hend =>
    hclean.ends.unique (hend _ le_rfl)
  cases @translateProgram_stack_sim insns c (regionLen (declaredRegions c)) _ _ _ hprog hmaps hlen
    h mem with
  | exit hend hsim hused =>
    obtain rfl := hended hend
    have hrejects : ¬((emitProgram c mods).run fun r k => some (mem r k)).Rejects
        (regionLen (emitProgram c mods).regions) := hsim.not_rejects
    have hemit := emit32_of_regsMatch hsim.regs hused
    rw [Program.observe, if_neg hrejects, StackMachine.shows, Option.map_some]
    refine congrArg some (Prod.ext hemit (Prod.ext hsim.mem ?_))
    funext r
    simp only [State.extent, hsim.log]
  | off hend =>
    rcases hclean.ended with ⟨m, rfl⟩ | ⟨log, rfl⟩ <;> cases hended hend
  | fault hend =>
    rcases hclean.ended with ⟨m, rfl⟩ | ⟨log, rfl⟩ <;> cases hended hend
  | overrun hend ha hlog =>
    obtain rfl := hended hend
    obtain ⟨suffix, hsuffix⟩ := hlog
    refine if_pos ⟨_, ?_, ha⟩
    rw [← hsuffix]
    simp
  | unfair hr h => exact (h.elim (hclean.fair _ _ hr).1 (hclean.fair _ _ hr).2).elim
  | passed hr ha hm => exact absurd ha (stack_reaches_log hr hentry _ hm)

/-- Of two accepted programs, the emitted ones are told apart on a memory exactly when the
machine's runs on it show something different. -/
theorem stack_programs_differ_iff
    (hclean₁ : CleanRun insns₁ c₁.ctx (regionLen (declaredRegions c₁)) mem e₁)
    (hclean₂ : CleanRun insns₂ c₂.ctx (regionLen (declaredRegions c₂)) mem e₂)
    (hprog₁ : isProgramOf Insn.isRegional insns₁ = true)
    (hprog₂ : isProgramOf Insn.isRegional insns₂ = true)
    (hmaps₁ : ∀ k, c₁.insnMapIdx k = none) (hmaps₂ : ∀ k, c₂.insnMapIdx k = none)
    (hlen₁ : decidePc insns₁.length < 2 ^ 64) (hlen₂ : decidePc insns₂.length < 2 ^ 64)
    (h₁ : (translateProgram insns₁).Accepts c₁ .init mods₁ t₁ ops₁)
    (h₂ : (translateProgram insns₂).Accepts c₂ .init mods₂ t₂ ops₂) :
    Differ (emitProgram c₁ mods₁) (emitProgram c₂ mods₂) (fun r k => some (mem r k)) ↔
      StackMachine.shows e₁ ≠ StackMachine.shows e₂ := by
  rw [differ_iff_observe, hclean₁.observe hprog₁ hmaps₁ hlen₁ h₁,
    hclean₂.observe hprog₂ hmaps₂ hlen₂ h₂]
  refine not_congr (Option.map_injective fun x y hxy => ?_).eq_iff
  obtain ⟨hval, hmem, hreach⟩ := by simpa only [Prod.mk.injEq] using hxy
  refine Prod.ext (Option.some.inj hval) (Prod.ext ?_ hreach)
  funext r k
  exact Option.some.inj (congrFun (congrFun hmem r) k)

end Pair

/-- The packet byte of `spillCtxProgram` without the frame:
`r3 = *(u32 *)(r1 + 0); r0 = *(u8 *)(r3 + 12); exit`. -/
def directCtxProgram : List Insn :=
  [⟨0x61, 3, 1, 0, 0⟩, ⟨0x71, 0, 3, 12, 0⟩, ⟨0x95, 0, 0, 0, 0⟩]

/-- A spill and its reload are not seen. -/
theorem spillCtxProgram_alike :
    ∃ mods₁ mods₂, (translateProgram spillCtxProgram).result xdpConfig .init = some mods₁ ∧
      (translateProgram directCtxProgram).result xdpConfig .init = some mods₂ ∧
      ¬Differ (emitProgram xdpConfig mods₁) (emitProgram xdpConfig mods₂) fun _ _ => some 0 := by
  obtain ⟨mods₁, hmods₁⟩ :
      ∃ mods, (translateProgram spillCtxProgram).result xdpConfig .init = some mods := ⟨_, rfl⟩
  obtain ⟨mods₂, hmods₂⟩ :
      ∃ mods, (translateProgram directCtxProgram).result xdpConfig .init = some mods := ⟨_, rfl⟩
  obtain ⟨_, _, h₁⟩ := accepts_of_result hmods₁
  obtain ⟨_, _, h₂⟩ := accepts_of_result hmods₂
  refine ⟨mods₁, mods₂, hmods₁, hmods₂, fun hdiffer => ?_⟩
  refine (stack_programs_differ_iff (.of_run rfl rfl) (.of_run rfl rfl) (by decide) (by decide)
    (fun _ => rfl) (fun _ => rfl) (by decide) (by decide) h₁ h₂).mp hdiffer ?_
  rfl

end Ect
