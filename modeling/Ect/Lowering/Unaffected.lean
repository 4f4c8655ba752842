-- SUMMARY: Two programs with the same reachable code are translated alike there.
import Ect.Lowering.Frameless
import Ect.Lowering.Unreachable

/-!
# Programs with the same reachable code

Two programs may differ in the code that no path from the entry reaches, and so in where
the rest of the code stands. The translator goes over both in block order; it steps over
the unreachable blocks of either one alone, and over the reachable ones of both together.
-/

namespace Ect

open TransM

/-- The position where `k` is in the other program, in which the block that starts at `s`
starts at `φ s`. -/
def Moved (insns : List Insn) (φ : Nat → Nat) (k k' : Nat) : Prop :=
  ∃ s e, BlockSpan insns s e ∧ s ≤ k ∧ k < e ∧ k' = φ s + (k - s)

/-- The jump at `i` goes to no position, nor to the one past the end. -/
def OutOfRange (insns : List Insn) (i : Nat) : Prop :=
  jumpTarget i (insnAt insns i) < 0 ∨ (insns.length : Int) < jumpTarget i (insnAt insns i)

instance {insns : List Insn} {i : Nat} : Decidable (OutOfRange insns i) := by
  unfold OutOfRange; infer_instance

/-- The same reachable code: what no path reaches may be altered, deleted or added. The
block at `s` is at `φ s` in the other program, the blocks stay in order, and each flows to
the same blocks. -/
structure SameReachable (c c' : Config) (insns insns' : List Insn) (φ : Nat → Nat) : Prop where
  ctx : c'.ctx = c.ctx
  maps : c'.maps = c.maps
  entry : φ 0 = 0
  mono : ∀ s s', Reachable insns s → Reachable insns s' → s < s' → φ s < φ s'
  onto : ∀ s', Reachable insns' s' → ∃ s, Reachable insns s ∧ φ s = s'
  block : ∀ s e, Reachable insns s → BlockSpan insns s e → BlockSpan insns' (φ s) (φ s + (e - s))
  code : ∀ s e j, Reachable insns s → BlockSpan insns s e → j < e - s →
    SameInsn (insnAt insns (s + j)) (insnAt insns' (φ s + j)) ∧
      c'.insnMapIdx (φ s + j) = c.insnMapIdx (s + j)
  fall : ∀ s e, Reachable insns s → BlockSpan insns s e →
    Option.Rel (Moved insns φ) (fallPos insns e) (fallPos insns' (φ s + (e - s)))
  take : ∀ s e, Reachable insns s → BlockSpan insns s e →
    Option.Rel (Moved insns φ) (takePos insns e) (takePos insns' (φ s + (e - s)))
  range : ∀ s e, Reachable insns s → BlockSpan insns s e → (insnAt insns (e - 1)).branches = true →
    (OutOfRange insns (e - 1) ↔ OutOfRange insns' (φ s + (e - s) - 1))
  scan : ∀ s e j, Reachable insns s → BlockSpan insns s e → j < e - s →
    (Boundary insns (s + j) ↔ Boundary insns' (φ s + j))

/-- The same pc, up to where the block it names starts. -/
def SamePc (insns : List Insn) (φ : Nat → Nat) (pc pc' : Nat) : Prop :=
  pc = pcHalt ∧ pc' = pcHalt ∨ ∃ k k', Moved insns φ k k' ∧ pc = blockPc k ∧ pc' = blockPc k'

/-- The same block in two translations, up to the numbering of blocks and stack headers. -/
structure SameTrace (insns : List Insn) (φ : Nat → Nat) (r r' : BlockTrace) : Prop where
  start : r'.start = φ r.start
  entry : r'.entry = r.entry
  exit : r'.exit = r.exit
  ops : SameOps r.t r'.t r.ops r'.ops
  cond : SameCond r.t r'.t (r.flow.cond, r.flow.condSwap) (r'.flow.cond, r'.flow.condSwap)
  arms : SameOptArms r.t r'.t r.flow.mapArms r'.flow.mapArms
  takes : r'.flow.takeBlk.isSome = r.flow.takeBlk.isSome
  fallPc : SamePc insns φ r.flow.fallPc r'.flow.fallPc
  takePc : r.flow.takeBlk.isSome = true → SamePc insns φ r.flow.takePc r'.flow.takePc
  diags : List.Forall₂ (SameDiag r.start r'.start) r.diags r'.diags

/-- A position lies in one block. -/
theorem BlockSpan.start_eq {insns : List Insn} {s e s' e' k : Nat} (h : BlockSpan insns s e)
    (h' : BlockSpan insns s' e') (hs : s ≤ k) (he : k < e) (hs' : s' ≤ k)
    (he' : k < e') : s = s' := by
  rcases Nat.lt_trichotomy s s' with hlt | heq | hlt
  · exact absurd h'.leader (h.inner s' hlt (by omega))
  · exact heq
  · exact absurd h.leader (h'.inner s hlt (by omega))

namespace SameReachable

variable {c c' : Config} {insns insns' : List Insn} {φ : Nat → Nat}

/-- The block at `s` in the two programs. -/
def twin (c c' : Config) (φ : Nat → Nat) (s : Nat) : Twin := ⟨c, c'.insnMapIdx, s, φ s⟩

theorem twin_config (h : SameReachable c c' insns insns' φ) (s : Nat) :
    (twin c c' φ s).c' = c' := by
  obtain ⟨ctx, maps, idx⟩ := c'
  obtain ⟨rfl, rfl⟩ := And.intro h.ctx h.maps
  rfl

/-- A block that a reachable one flows to is reachable. -/
theorem reachable_of_flow {s e k s₁ e₁ : Nat} (hs : Reachable insns s) (hb : BlockSpan insns s e)
    (hk : FlowsTo insns e k) (hb₁ : BlockSpan insns s₁ e₁) (hle : s₁ ≤ k) (hlt : k < e₁) :
    Reachable insns s₁ :=
  .step hs ⟨e, k, e₁, hb, hk, hb₁, hle, hlt⟩

theorem span_of_reachable {s : Nat} (h : Reachable insns s) : ∃ e, BlockSpan insns s e := by
  cases h with
  | entry hb => exact ⟨_, hb⟩
  | step _ hedge =>
    obtain ⟨_, _, e', _, _, hb, _⟩ := hedge
    exact ⟨e', hb⟩

theorem reachable' (h : SameReachable c c' insns insns' φ) {s : Nat} (hs : Reachable insns s) :
    Reachable insns' (φ s) := by
  induction hs with
  | entry hb =>
    have hb' := h.block _ _ (.entry hb) hb
    rw [h.entry] at hb' ⊢
    exact .entry hb'
  | @step s s₁ hs hedge ih =>
    obtain ⟨e, k, e₁, hb, hk, hb₁, hle, hlt⟩ := hedge
    have hs₁ := reachable_of_flow hs hb hk hb₁ hle hlt
    have hmoved : ∃ k', FlowsTo insns' (φ s + (e - s)) k' ∧ Moved insns φ k k' := by
      rcases hk with hk | hk
      · have hrel := h.fall s e hs hb
        rw [hk] at hrel
        cases hrel' : fallPos insns' (φ s + (e - s)) with
        | none => rw [hrel'] at hrel; cases hrel
        | some k' =>
          rw [hrel'] at hrel
          cases hrel with
          | some hm => exact ⟨k', .inl hrel', hm⟩
      · have hrel := h.take s e hs hb
        rw [hk] at hrel
        cases hrel' : takePos insns' (φ s + (e - s)) with
        | none => rw [hrel'] at hrel; cases hrel
        | some k' =>
          rw [hrel'] at hrel
          cases hrel with
          | some hm => exact ⟨k', .inr hrel', hm⟩
    obtain ⟨k', hk', s₂, e₂, hb₂, hle₂, hlt₂, rfl⟩ := hmoved
    -- both spans hold `k`
    obtain rfl : s₂ = s₁ := hb₂.start_eq hb₁ hle₂ hlt₂ hle hlt
    have := h.block _ _ hs₁ hb₂
    exact .step ih ⟨_, _, _, h.block s e hs hb, hk', this, by omega, by omega⟩

theorem inj (h : SameReachable c c' insns insns' φ) {s s₁ : Nat} (hs : Reachable insns s)
    (hs₁ : Reachable insns s₁) (heq : φ s = φ s₁) : s = s₁ := by
  rcases Nat.lt_trichotomy s s₁ with hlt | he | hlt
  · have := h.mono s s₁ hs hs₁ hlt; omega
  · exact he
  · have := h.mono s₁ s hs₁ hs hlt; omega

/-- The code of a reachable block is the same in both programs. -/
theorem sameCode (h : SameReachable c c' insns insns' φ) {s e : Nat} (hs : Reachable insns s)
    (hb : BlockSpan insns s e) : SameCode (twin c c' φ s) insns insns' (e - s) := by
  have hlt := hb.start_lt
  have hle := hb.end_le
  have hb' := h.block s e hs hb
  have hle' := hb'.end_le
  refine ⟨fun j hj => (h.code s e j hs hb hj).1, fun j hj => (h.code s e j hs hb hj).2, ?_⟩
  intro j hj hwide
  dsimp only [twin] at hwide ⊢
  by_cases hin : j + 1 < e - s
  · -- both slots are in the block
    refine ⟨by omega, fun _ => ?_⟩
    rw [Nat.add_assoc, Nat.add_assoc]
    exact (h.code s e (j + 1) hs hb hin).1.imm
  · -- the second slot starts the next block
    obtain rfl : j = e - s - 1 := by omega
    have hpos : s + (e - s - 1) = e - 1 := by omega
    have hpos' : φ s + (e - s - 1) + 1 = φ s + (e - s) := by omega
    rw [hpos] at hwide
    have hends : (insnAt insns (e - 1)).endsBlock = false := by
      cases hj : (insnAt insns (e - 1)).isJmp with
      | false => simp [Insn.endsBlock, hj]
      | true => simp [Insn.isLdImm64_eq_false_of_isJmp hj] at hwide
    have hends' : (insnAt insns' (φ s + (e - s) - 1)).endsBlock = false := by
      rw [show φ s + (e - s) - 1 = φ s + (e - s - 1) by omega,
        (h.code s e (e - s - 1) hs hb (by omega)).1.ends, hpos, hends]
    have hfall := h.fall s e hs hb
    simp only [fallPos, hends, hends', Bool.false_eq_true, false_and, if_false] at hfall
    rw [hpos', hpos, show e - 1 + 1 = e by omega]
    by_cases hn : e < insns.length
    · rw [if_pos hn] at hfall
      by_cases hn' : φ s + (e - s) < insns'.length
      · rw [if_pos hn'] at hfall
        refine ⟨by omega, fun _ => ?_⟩
        obtain ⟨s₁, e₁, hb₁, hle₁, hlt₁, heq⟩ : Moved insns φ e (φ s + (e - s)) := by
          cases hfall with
          | some hm => exact hm
        have hleader := hb.end_leader hn
        obtain rfl : s₁ = e := by
          rcases Nat.eq_or_lt_of_le hle₁ with heq | hlt
          · exact heq
          · exact absurd hleader (hb₁.inner e hlt hlt₁)
        have hfe : FlowsTo insns s₁ s₁ := .inl (by simp [fallPos, hends, hn])
        have hr := reachable_of_flow hs hb hfe hb₁ hle₁ hlt₁
        rw [heq, Nat.sub_self, Nat.add_zero]
        exact (h.code s₁ e₁ 0 hr hb₁ (by omega)).1.imm
      · rw [if_neg hn'] at hfall
        cases hfall
    · refine ⟨?_, fun hn' => absurd hn' hn⟩
      rw [if_neg hn] at hfall
      by_cases hn' : φ s + (e - s) < insns'.length
      · rw [if_pos hn'] at hfall
        cases hfall
      · omega

section Simulation

variable {lead lead' : Nat → Bool}
  (hlead : ∀ k, k < insns.length → (lead k = true ↔ IsLeader insns k))
  (hlead' : ∀ k, k < insns'.length → (lead' k = true ↔ IsLeader insns' k))

include hlead

omit hlead in
theorem blockOf_eq_iff {b b₁ s e s₁ e₁ k : Nat} (hb : IsBlock insns lead b s e)
    (hb₁ : IsBlock insns lead b₁ s₁ e₁) (hs : s ≤ k) (he : k < e) :
    blockOf lead k = blockOf lead s₁ ↔ s = s₁ := by
  rw [blockOf_of_mem hb hs he, blockOf_starts hb₁.start_eq]
  constructor
  · rintro rfl
    exact Option.some.inj (hb.start_eq.symm.trans hb₁.start_eq)
  · rintro rfl
    exact (blockOf_starts hb.start_eq).symm.trans (blockOf_starts hb₁.start_eq)

include hlead'

/-- The blocks a reachable block flows to have corresponding numbers. -/
theorem flow_iff (h : SameReachable c c' insns insns' φ) {e s s₁ : Nat} {p p' : Option Nat}
    (hs : Reachable insns s) (hb : BlockSpan insns s e) (hp : ∀ k, p = some k → FlowsTo insns e k)
    (hrel : Option.Rel (Moved insns φ) p p') (hs₁ : Reachable insns s₁) :
    p'.map (blockOf lead') = some (blockOf lead' (φ s₁)) ↔
      p.map (blockOf lead) = some (blockOf lead s₁) := by
  cases hrel with
  | none => simp
  | @some k k' hm =>
    obtain ⟨s₂, e₂, hb₂, hle, hlt, rfl⟩ := hm
    have hs₂ := reachable_of_flow hs hb (hp k rfl) hb₂ hle hlt
    obtain ⟨e₁, hb₁⟩ := span_of_reachable hs₁
    obtain ⟨_, _, hblk₁⟩ := hb₁.isBlock hlead
    obtain ⟨_, _, hblk₂⟩ := hb₂.isBlock hlead
    obtain ⟨_, _, hblk₁'⟩ := (h.block s₁ e₁ hs₁ hb₁).isBlock hlead'
    obtain ⟨_, _, hblk₂'⟩ := (h.block s₂ e₂ hs₂ hb₂).isBlock hlead'
    simp only [Option.map_some, Option.some.injEq]
    rw [blockOf_eq_iff hblk₂ hblk₁ hle hlt, blockOf_eq_iff hblk₂' hblk₁' (by omega) (by omega)]
    exact ⟨fun heq => h.inj hs₂ hs₁ heq, fun heq => by rw [heq]⟩

end Simulation

end SameReachable

/-! ## The blocks of both -/

section Walk

variable {insns : List Insn} {c : Config} {lead : Nat → Bool}

theorem runBlock_frameless {b s e : Nat} {blockIn : Nat → AbsState} {t : Translator}
    (hb : IsBlock insns lead b s e) (hin : (blockIn b).Frameless)
    (h : ∀ k, WalkTo insns (bodyEnd insns e) s k →
      Truncated insns k ∨ ∀ r ∈ (insnAt insns k).indexed, r < numBpfRegs) :
    ∃ flow st ops t' o, runBlock insns lead b blockIn c t = .ok (((flow, st), ops), t', o) ∧
      st.Frameless := by
  have hs : (blockStarts insns.length lead).getD b 0 = s := by simp [List.getD, hb.start_eq]
  have hst : (if (blockIn b).live then blockIn b else .init).Frameless := by
    split
    · exact hin
    · exact .init
  obtain ⟨⟨⟨⟨flow, st⟩, ops⟩, t', o⟩, hrun⟩ : ∃ r, runBlock insns lead b blockIn c t = .ok r := by
    unfold runBlock
    simp only [hs, hb.end_eq]
    exact capture_ok (bind_ok (translateBody_frameless_ok (bodyEnd_le hb.end_le) hst h)
      fun _ => inferInstance)
  refine ⟨flow, st, ops, t', o, hrun, ?_⟩
  unfold runBlock at hrun
  obtain ⟨_, hcap, _⟩ := ok_capture hrun
  exact (translateBody_frameless hst).bind (fun _ => translateTerm_frameless) _ _ _ _ _ hcap

instance {L : Law} [L.AllowsRaise] [L.AllowsCount] {b : Nat} {blockIn : Nat → AbsState} :
    Obeys L (runBlock insns lead b blockIn) := by
  unfold runBlock; infer_instance

/-- No unreachable block is entered with a frame pointer. -/
def DeadFrameless (insns : List Insn) (lead : Nat → Bool) (blockIn : Nat → AbsState) : Prop :=
  ∀ b s e, IsBlock insns lead b s e → ¬Reachable insns s → (blockIn b).Frameless

variable (hlead : ∀ k, k < insns.length → (lead k = true ↔ IsLeader insns k))

include hlead

/-- A reachable block leaves what is known on entry to the unreachable ones as it is. -/
theorem DeadFrameless.propagate {q : BlockTrace} {e : Nat} {blockIn : Nat → AbsState}
    (h : DeadFrameless insns lead blockIn) (hq : IsBlock insns lead q.b q.start e)
    (hflow : FlowOf insns lead e q.flow) (hs : Reachable insns q.start) :
    DeadFrameless insns lead (propagate blockIn q.exit q.flow) := by
  intro b₁ s₁ e₁ hb₁ hdead
  have hnone : q.edgesTo b₁ = [] := by
    by_contra hne
    exact hdead (.step hs (edge_of_edgesTo hlead hq hflow hne hb₁))
  rw [propagate_eq_joinAll, hnone]
  exact h b₁ s₁ e₁ hb₁ hdead

/-- The first block is the entry. -/
theorem DeadFrameless.entry : DeadFrameless insns lead entryStates := by
  intro b s e hb hdead
  unfold entryStates
  split
  · rename_i hzero
    subst hzero
    have hlt := hb.start_lt
    have hle := hb.end_le
    obtain ⟨b₀, s₀, e₀, hb₀, hs₀, he₀⟩ :=
      exists_block ((hlead 0 (by omega)).mpr (.inl rfl)) (show 0 < insns.length by omega)
    obtain rfl : s₀ = 0 := by omega
    obtain rfl : b₀ = 0 := by
      have : (blockStarts (0 + 1) lead).length ≤ 1 := List.length_filter_le _ _
      have := blockOf_starts hb₀.start_eq
      unfold blockOf at this
      omega
    obtain rfl := Option.some.inj (hb.start_eq.symm.trans hb₀.start_eq)
    exact absurd (.entry (hb.span hlead)) hdead
  · exact .init

/-- A reachable block and its number. -/
theorem isBlock_of_reachable {s : Nat} (hs : Reachable insns s) :
    ∃ e, BlockSpan insns s e ∧ IsBlock insns lead (blockOf lead s) s e := by
  obtain ⟨e, hspan⟩ := SameReachable.span_of_reachable hs
  obtain ⟨b, _, hb⟩ := hspan.isBlock hlead
  rw [blockOf_starts hb.start_eq]
  exact ⟨e, hspan, hb⟩

/-- An unreachable block of an isolated program returns, and leaves what is known on entry
to the reachable ones as it is. -/
theorem blockTraces_dead (hiso : Isolated insns) {b s e : Nat} (hb : IsBlock insns lead b s e)
    (hdead : ¬Reachable insns s) {bs : List Nat} {blockIn : Nat → AbsState} {t : Translator}
    (hwf : t.WF) (hin : DeadFrameless insns lead blockIn) :
    ∃ blockIn₁ t₁, t₁.WF ∧ DeadFrameless insns lead blockIn₁ ∧ (∀ s₁, Reachable insns s₁ →
        blockIn₁ (blockOf lead s₁) = blockIn (blockOf lead s₁)) ∧
      reached insns (blockTraces insns c lead (b :: bs) blockIn t) =
        reached insns (blockTraces insns c lead bs blockIn₁ t₁) := by
  have hspan := hb.span hlead
  obtain ⟨flow, st, ops, t₁, o, hrun, hst⟩ :=
    runBlock_frameless (c := c) (t := t) hb (hin b s e hb hdead) fun k =>
      hiso.registers s e k hspan hdead
  have hstart : (blockStarts insns.length lead).getD b 0 = s := by simp [List.getD, hb.start_eq]
  refine ⟨propagate blockIn st flow, t₁, (grows_of_ok hrun).wf hwf,
    fun b₁ s₁ e₁ hb₁ hdead₁ => hst.propagate (hin b₁ s₁ e₁ hb₁ hdead₁), fun s₁ hs₁ => ?_, ?_⟩
  · obtain ⟨e₁, _, hb₁⟩ := isBlock_of_reachable hlead hs₁
    let q : BlockTrace := ⟨b, s, blockIn b, st, flow, ops, o.diags, t₁⟩
    have hnone : q.edgesTo (blockOf lead s₁) = [] := by
      by_contra hne
      exact hdead (hiso.flow s s₁
        (edge_of_edgesTo (q := q) hlead hb (runBlock_flow hb hrun) hne hb₁) hs₁)
    have := @propagate_eq_joinAll blockIn q (blockOf lead s₁)
    rw [hnone] at this
    exact this
  · rw [blockTraces, hrun]
    simp only [reached, hstart]
    rw [List.filter_cons_of_neg (by simpa using hdead)]

/-- The next block is not reachable, so none of the reachable ones is it. -/
theorem le_iff_lt_of_dead {b s e s₁ : Nat} (hb : IsBlock insns lead b s e)
    (hdead : ¬Reachable insns s) (hs₁ : Reachable insns s₁) : b ≤ blockOf lead s₁ ↔ b + 1 ≤ blockOf lead s₁ := by
  have hne : b ≠ blockOf lead s₁ := by
    rintro rfl
    obtain ⟨_, _, hb₁⟩ := isBlock_of_reachable hlead hs₁
    obtain rfl := Option.some.inj (hb.start_eq.symm.trans hb₁.start_eq)
    exact hdead hs₁
  omega

end Walk

namespace SameReachable

variable {c c' : Config} {insns insns' : List Insn} {φ : Nat → Nat} {lead lead' : Nat → Bool}

/-- The two translations are before the same reachable block, and know the same on entry to
every reachable block. -/
structure Abreast (insns insns' : List Insn) (φ : Nat → Nat) (lead lead' : Nat → Bool) (b b' : Nat)
    (blockIn blockIn' : Nat → AbsState) (t t' : Translator) : Prop where
  started : Twin.Started t t'
  next : ∀ s, Reachable insns s → (b ≤ blockOf lead s ↔ b' ≤ blockOf lead' (φ s))
  entry : ∀ s, Reachable insns s → blockIn' (blockOf lead' (φ s)) = blockIn (blockOf lead s)
  dead : DeadFrameless insns lead blockIn
  dead' : DeadFrameless insns' lead' blockIn'

theorem samePc {insns : List Insn} {φ : Nat → Nat} {p p' : Option Nat}
    (h : Option.Rel (Moved insns φ) p p') :
    SamePc insns φ ((p.map blockPc).getD pcHalt) ((p'.map blockPc).getD pcHalt) := by
  cases h with
  | none => exact .inl ⟨rfl, rfl⟩
  | some hm => exact .inr ⟨_, _, hm, rfl, rfl⟩

theorem isSome_rel {r : Nat → Nat → Prop} {p p' : Option Nat} (h : Option.Rel r p p') :
    p'.isSome = p.isSome := by
  cases h <;> rfl

section Step

variable {b b' : Nat} {blockIn blockIn' : Nat → AbsState} {t t' : Translator}

/-- The same block is next in both: its traces are the same, and so is what is known
afterwards on entry to the reachable blocks. -/
theorem blockTraces_both (h : SameReachable c c' insns insns' φ)
    (hlead : ∀ k, k < insns.length → (lead k = true ↔ IsLeader insns k))
    (hlead' : ∀ k, k < insns'.length → (lead' k = true ↔ IsLeader insns' k)) {s e : Nat}
    (hs : Reachable insns s) (hb : IsBlock insns lead b s e)
    (hb' : IsBlock insns' lead' b' (φ s) (φ s + (e - s)))
    (ha : Abreast insns insns' φ lead lead' b b' blockIn blockIn' t t') (bs bs' : List Nat) :
    (blockTraces insns c lead (b :: bs) blockIn t = [] ∧
      blockTraces insns' c' lead' (b' :: bs') blockIn' t' = []) ∨
    ∃ q q',
      blockTraces insns c lead (b :: bs) blockIn t =
        q :: blockTraces insns c lead bs (propagate blockIn q.exit q.flow) q.t ∧
      blockTraces insns' c' lead' (b' :: bs') blockIn' t' =
        q' :: blockTraces insns' c' lead' bs' (propagate blockIn' q'.exit q'.flow) q'.t ∧
      q.start = s ∧ SameTrace insns φ q q' ∧
      Abreast insns insns' φ lead lead' (b + 1) (b' + 1) (propagate blockIn q.exit q.flow)
        (propagate blockIn' q'.exit q'.flow) q.t q'.t := by
  have hspan := hb.span hlead
  have hlt := hb.start_lt
  have hlen : s + (e - s) = e := by omega
  have hof : blockOf lead s = b := blockOf_starts hb.start_eq
  have hof' : blockOf lead' (φ s) = b' := blockOf_starts hb'.start_eq
  have hin : blockIn' b' = blockIn b := by
    rw [← hof, ← hof']
    exact ha.entry s hs
  have hruns := runBlock_runs (w := twin c c' φ s) (h.sameCode hs hspan) (by omega)
    (by rw [show (twin c c' φ s).pos = s from rfl, hlen]; exact hb) hb' hin ha.started
  rw [Twin.RunsTo, h.twin_config] at hruns
  rw [blockTraces, blockTraces]
  rcases hruns with ⟨x, x', herr, herr'⟩ |
    ⟨⟨⟨flow, st⟩, ops⟩, t₁, o, ⟨⟨flow', st'⟩, ops'⟩, t₁', o', hrun, hrun', hres⟩
  · rw [show runBlock insns lead b blockIn c t = _ from herr, herr']
    exact .inl ⟨rfl, rfl⟩
  have hflow := runBlock_flow hb hrun
  have hflow' := runBlock_flow hb' hrun'
  have hfall := h.fall s e hs hspan
  have htake := h.take s e hs hspan
  obtain ⟨⟨hcond, harms, (hst : st' = st)⟩, hops⟩ := hres.value
  have hstart : (blockStarts insns.length lead).getD b 0 = s := by simp [List.getD, hb.start_eq]
  have hstart' : (blockStarts insns'.length lead').getD b' 0 = φ s := by
    simp [List.getD, hb'.start_eq]
  rw [show runBlock insns lead b blockIn c t = _ from hrun, hrun']
  simp only [hstart, hstart']
  refine .inr ⟨⟨b, s, blockIn b, st, flow, ops, o.diags, t₁⟩,
    ⟨b', φ s, blockIn' b', st', flow', ops', o'.diags, t₁'⟩, rfl, rfl, rfl, ?_, ?_⟩
  · refine ⟨rfl, hin, hst, hops, hcond, harms, ?_, ?_, ?_, hres.diags⟩
    · rw [hflow.takeBlk, hflow'.takeBlk, Option.isSome_map, Option.isSome_map, isSome_rel htake]
    · rw [hflow.fallPc, hflow'.fallPc]
      exact samePc hfall
    · intro hsome
      -- a block that jumps does not end in a call
      have hcall : ∀ {insns : List Insn} {e : Nat}, (takePos insns e).isSome = true →
          (insnAt insns (e - 1)).jmpOp ≠ .call := by
        intro insns e htp hop
        simp [takePos, Insn.branches, hop] at htp
      dsimp only at hsome ⊢
      rw [hflow.takeBlk, Option.isSome_map] at hsome
      rw [hflow.takePc (hcall hsome), hflow'.takePc (hcall (by rw [isSome_rel htake, hsome]))]
      exact samePc htake
  · refine ⟨hres.aligned, fun s₁ hs₁ => ?_, fun s₁ hs₁ => ?_,
      ha.dead.propagate hlead (q := ⟨b, s, blockIn b, st, flow, ops, o.diags, t₁⟩) hb hflow hs,
      ha.dead'.propagate hlead' (q := ⟨b', φ s, blockIn' b', st', flow', ops', o'.diags, t₁'⟩)
        hb' hflow' (h.reachable' hs)⟩
    · -- later blocks are after this one in both
      obtain ⟨e₁, hspan₁, hb₁⟩ := isBlock_of_reachable hlead hs₁
      obtain ⟨e₁', _, hb₁'⟩ := isBlock_of_reachable hlead' (h.reachable' hs₁)
      have hiff := starts_lt hb.start_eq hb₁.start_eq
      have hiff' := starts_lt hb'.start_eq hb₁'.start_eq
      have hmono : s < s₁ ↔ φ s < φ s₁ := by
        refine ⟨h.mono s s₁ hs hs₁, fun hφ => ?_⟩
        rcases Nat.lt_trichotomy s s₁ with hlt | rfl | hgt
        · exact hlt
        · omega
        · have := h.mono s₁ s hs₁ hs hgt
          omega
      omega
    · dsimp only
      have hp := @propagate_eq_joinAll blockIn ⟨b, s, blockIn b, st, flow, ops, o.diags, t₁⟩
        (blockOf lead s₁)
      have hp' := @propagate_eq_joinAll blockIn'
        ⟨b', φ s, blockIn' b', st', flow', ops', o'.diags, t₁'⟩ (blockOf lead' (φ s₁))
      have hfallIff := h.flow_iff hlead hlead' hs hspan (fun k hk => .inl hk) hfall hs₁
      have htakeIff := h.flow_iff hlead hlead' hs hspan (fun k hk => .inr hk) htake hs₁
      rw [← hflow.fallBlk, ← hflow'.fallBlk] at hfallIff
      rw [← hflow.takeBlk, ← hflow'.takeBlk] at htakeIff
      rw [hp, hp', ha.entry s₁ hs₁]
      simp only [BlockTrace.edgesTo, hfallIff, htakeIff, hst]

/-- Where neither has an unreachable block next, either nothing is left or the same
reachable block is next in both. -/
theorem Abreast.head (h : SameReachable c c' insns insns' φ)
    (hlead : ∀ k, k < insns.length → (lead k = true ↔ IsLeader insns k))
    (hlead' : ∀ k, k < insns'.length → (lead' k = true ↔ IsLeader insns' k))
    (ha : Abreast insns insns' φ lead lead' b b' blockIn blockIn' t t')
    (hhead : b < (blockStarts insns.length lead).length →
      ∃ s e, IsBlock insns lead b s e ∧ Reachable insns s)
    (hhead' : b' < (blockStarts insns'.length lead').length →
      ∃ s e, IsBlock insns' lead' b' s e ∧ Reachable insns' s) :
    (blockStarts insns.length lead).length ≤ b ∧ (blockStarts insns'.length lead').length ≤ b' ∨
      ∃ s e, Reachable insns s ∧ IsBlock insns lead b s e ∧
        IsBlock insns' lead' b' (φ s) (φ s + (e - s)) := by
  by_cases hb : b < (blockStarts insns.length lead).length
  · obtain ⟨s, e, hblock, hs⟩ := hhead hb
    have hle := (ha.next s hs).mp (blockOf_starts hblock.start_eq).ge
    obtain ⟨e₁, _, hφ⟩ := isBlock_of_reachable hlead' (h.reachable' hs)
    have hlt := (List.getElem?_eq_some_iff.mp hφ.start_eq).1
    obtain ⟨_, e', hblock', hr'⟩ := hhead' (by omega)
    obtain ⟨s', hs', rfl⟩ := h.onto _ hr'
    have hle' := (ha.next s' hs').mpr (blockOf_starts hblock'.start_eq).ge
    obtain ⟨_, _, hb₁⟩ := isBlock_of_reachable hlead hs'
    -- neither comes before the other
    have horder := starts_lt hb₁.start_eq hblock.start_eq
    have horder' := starts_lt hφ.start_eq hblock'.start_eq
    obtain rfl : s = s' := by
      rcases Nat.lt_trichotomy s s' with hlt | heq | hgt
      · have := h.mono s s' hs hs' hlt
        omega
      · exact heq
      · omega
    have hspan := hblock.span hlead
    obtain rfl := (h.block s e hs hspan).unique (hblock'.span hlead')
    exact .inr ⟨s, e, hs, hblock, hblock'⟩
  · refine .inl ⟨by omega, ?_⟩
    by_contra hb'
    obtain ⟨_, e', hblock', hr'⟩ := hhead' (by omega)
    obtain ⟨s, hs, rfl⟩ := h.onto _ hr'
    have hle := (ha.next s hs).mpr (blockOf_starts hblock'.start_eq).ge
    obtain ⟨_, _, hb₁⟩ := isBlock_of_reachable hlead hs
    have := (List.getElem?_eq_some_iff.mp hb₁.start_eq).1
    omega

/-- The rest of both translations goes alike over the reachable blocks. The induction is on
the blocks left in the two together: a step takes an unreachable block of either one, or
the same reachable block of both. -/
theorem blockTraces_same (h : SameReachable c c' insns insns' φ) (hiso : Isolated insns)
    (hiso' : Isolated insns') (hlead : ∀ k, k < insns.length → (lead k = true ↔ IsLeader insns k))
    (hlead' : ∀ k, k < insns'.length → (lead' k = true ↔ IsLeader insns' k)) {m m' : Nat}
    (hm : b + m = (blockStarts insns.length lead).length)
    (hm' : b' + m' = (blockStarts insns'.length lead').length)
    (ha : Abreast insns insns' φ lead lead' b b' blockIn blockIn' t t') :
    List.Forall₂ (SameTrace insns φ)
      (reached insns (blockTraces insns c lead (List.range' b m) blockIn t))
      (reached insns' (blockTraces insns' c' lead' (List.range' b' m') blockIn' t')) := by
  generalize hn : m + m' = n
  induction n using Nat.strong_induction_on generalizing m m' b b' blockIn blockIn' t t' with
  | _ n ih =>
    subst hn
    by_cases hdead : ∃ k s e, m = k + 1 ∧ IsBlock insns lead b s e ∧ ¬Reachable insns s
    · obtain ⟨k, s, e, rfl, hb, hdead⟩ := hdead
      obtain ⟨blockIn₁, t₁, hwf, hnone, hin, heq⟩ := blockTraces_dead (c := c)
        hlead hiso hb hdead ha.started.wf ha.dead
      rw [List.range'_succ, heq]
      refine ih _ (by omega) (by omega) hm'
        ⟨⟨hwf, ha.started.wf'⟩, fun s₁ hs₁ => ?_, fun s₁ hs₁ => ?_, hnone, ha.dead'⟩ rfl
      · rw [← le_iff_lt_of_dead hlead hb hdead hs₁]
        exact ha.next s₁ hs₁
      · rw [hin s₁ hs₁]
        exact ha.entry s₁ hs₁
    by_cases hdead' : ∃ k s e, m' = k + 1 ∧ IsBlock insns' lead' b' s e ∧ ¬Reachable insns' s
    · obtain ⟨k, s, e, rfl, hb, hdead'⟩ := hdead'
      obtain ⟨blockIn₁, t₁, hwf, hnone, hin, heq⟩ := blockTraces_dead (c := c')
        hlead' hiso' hb hdead' ha.started.wf' ha.dead'
      rw [List.range'_succ, heq]
      refine ih _ (by omega) hm (by omega)
        ⟨⟨ha.started.wf, hwf⟩, fun s₁ hs₁ => ?_, fun s₁ hs₁ => ?_, ha.dead, hnone⟩ rfl
      · rw [← le_iff_lt_of_dead hlead' hb hdead' (h.reachable' hs₁)]
        exact ha.next s₁ hs₁
      · rw [hin _ (h.reachable' hs₁)]
        exact ha.entry s₁ hs₁
    have hhead : b < (blockStarts insns.length lead).length →
        ∃ s e, IsBlock insns lead b s e ∧ Reachable insns s := by
      intro hlt
      obtain ⟨s, e, hb⟩ := isBlock hlt
      by_contra hne
      exact hdead ⟨m - 1, s, e, by omega, hb, fun hs => hne ⟨s, e, hb, hs⟩⟩
    have hhead' : b' < (blockStarts insns'.length lead').length →
        ∃ s e, IsBlock insns' lead' b' s e ∧ Reachable insns' s := by
      intro hlt
      obtain ⟨s, e, hb⟩ := isBlock hlt
      by_contra hne
      exact hdead' ⟨m' - 1, s, e, by omega, hb, fun hs => hne ⟨s, e, hb, hs⟩⟩
    rcases ha.head h hlead hlead' hhead hhead' with ⟨hend, hend'⟩ | ⟨s, e, hs, hb, hb'⟩
    · obtain ⟨rfl, rfl⟩ : m = 0 ∧ m' = 0 := by omega
      exact .nil
    have hlt := (List.getElem?_eq_some_iff.mp hb.start_eq).1
    have hlt' := (List.getElem?_eq_some_iff.mp hb'.start_eq).1
    obtain ⟨k, rfl⟩ : ∃ k, m = k + 1 := ⟨m - 1, by omega⟩
    obtain ⟨k', rfl⟩ : ∃ k', m' = k' + 1 := ⟨m' - 1, by omega⟩
    rw [List.range'_succ, List.range'_succ]
    rcases blockTraces_both h hlead hlead' hs hb hb' ha (List.range' (b + 1) k)
      (List.range' (b' + 1) k')
      with ⟨heq, heq'⟩ | ⟨q, q', heq, heq', hq, hsame, hnext⟩
    · rw [heq, heq']
      exact .nil
    · have hqr : Reachable insns q.start := hq ▸ hs
      have hqr' : Reachable insns' q'.start := hsame.start ▸ h.reachable' hqr
      rw [heq, heq', reached, reached, List.filter_cons_of_pos (by simpa using hqr),
        List.filter_cons_of_pos (by simpa using hqr')]
      exact .cons hsame (ih _ (by omega) (by omega) (by omega) hnext rfl)

end Step

theorem reachable_zero {insns : List Insn} {s : Nat} (h : Reachable insns s) :
    Reachable insns 0 := by
  induction h with
  | entry hb => exact .entry hb
  | step _ _ ih => exact ih

/-- The first block is the entry. -/
theorem blockOf_eq_zero {insns : List Insn} {lead : Nat → Bool}
    (hlead : ∀ k, k < insns.length → (lead k = true ↔ IsLeader insns k)) {s : Nat}
    (hs : Reachable insns s) : blockOf lead s = 0 ↔ s = 0 := by
  obtain ⟨_, _, h0⟩ := isBlock_of_reachable hlead (reachable_zero hs)
  obtain ⟨_, _, hb⟩ := isBlock_of_reachable hlead hs
  have hfirst := starts_lt h0.start_eq hb.start_eq
  have hzero : blockOf lead 0 = 0 := by
    have : (blockStarts (0 + 1) lead).length ≤ 1 := List.length_filter_le _ _
    unfold blockOf
    omega
  constructor
  · intro h
    omega
  · rintro rfl
    exact hzero

theorem abreast_entry (h : SameReachable c c' insns insns' φ)
    (hlead : ∀ k, k < insns.length → (lead k = true ↔ IsLeader insns k))
    (hlead' : ∀ k, k < insns'.length → (lead' k = true ↔ IsLeader insns' k)) :
    Abreast insns insns' φ lead lead' 0 0 entryStates entryStates .init .init := by
  refine ⟨⟨Translator.init_wf, Translator.init_wf⟩, fun s _ => by simp, fun s hs => ?_,
    .entry hlead, .entry hlead'⟩
  have hzero : φ s = 0 ↔ s = 0 := by
    constructor
    · intro hφ
      by_contra hne
      have := h.mono 0 s (reachable_zero hs) hs (by omega)
      omega
    · rintro rfl
      exact h.entry
  have hiff := blockOf_eq_zero hlead hs
  have hiff' := blockOf_eq_zero hlead' (h.reachable' hs)
  unfold entryStates
  simp only [hiff, hiff', hzero]

/-- The split into blocks complains about the same reachable instructions. -/
theorem goesForward_iff (h : SameReachable c c' insns insns' φ) (hfwd : ForwardOnly insns)
    (hfwd' : ForwardOnly insns') {s e j : Nat} (hs : Reachable insns s) (hb : BlockSpan insns s e)
    (hj : j < e - s) :
    Boundary insns (s + j) ∧ ¬goesForward insns (s + j) ↔
      Boundary insns' (φ s + j) ∧ ¬goesForward insns' (φ s + j) := by
  have hlt := hb.start_lt
  have hle := hb.end_le
  have hb' := h.block s e hs hb
  have hle' := hb'.end_le
  have hsame := (h.code s e j hs hb hj).1
  have hbranches : (insnAt insns' (φ s + j)).branches = (insnAt insns (s + j)).branches := by
    unfold Insn.branches
    rw [hsame.ends, hsame.eq]
    rfl
  rw [h.scan s e j hs hb hj]
  refine and_congr_right fun hbound => not_congr ?_
  cases hbr : (insnAt insns (s + j)).branches with
  | false => simp [goesForward, hbranches, hbr]
  | true =>
    -- a jump that the scan comes to ends its block
    have hends : (insnAt insns (s + j)).endsBlock = true := by
      simp only [Insn.branches, Bool.and_eq_true] at hbr
      exact hbr.1.1
    obtain rfl : j = e - s - 1 := by
      by_contra hne
      refine hb.inner (s + j + 1) (by omega) (by omega)
        (.inr ⟨s + j, ?_, by omega, .inl ⟨hends, by omega, rfl⟩⟩)
      exact (h.scan s e j hs hb hj).mpr hbound
    have hpos : s + (e - s - 1) = e - 1 := by omega
    have hpos' : φ s + (e - s - 1) = φ s + (e - s) - 1 := by omega
    have hrange := h.range s e hs hb (hpos ▸ hbr)
    -- in a program without jumps back, only a target that is out of range is complained about
    have hiff : ∀ {insns : List Insn} {s e : Nat}, ForwardOnly insns → BlockSpan insns s e →
        (insnAt insns (e - 1)).branches = true →
        (goesForward insns (e - 1) ↔ ¬OutOfRange insns (e - 1)) := by
      intro insns s e hfwd hb hbr
      have hlt := hb.start_lt
      have htarget : jumpTarget (e - 1) (insnAt insns (e - 1)) =
          e + (insnAt insns (e - 1)).off.toInt := by
        unfold jumpTarget
        omega
      have hflow : ∀ k : Nat, (k : Int) = jumpTarget (e - 1) (insnAt insns (e - 1)) →
          k < insns.length → e ≤ k := by
        intro k hk hn
        refine hfwd s e k hb (.inr ?_)
        simp only [takePos, hbr, true_and]
        rw [if_pos (by omega)]
        exact congrArg some (by omega)
      have := hb.end_le
      simp only [goesForward, hbr, forall_const, OutOfRange]
      constructor
      · omega
      · intro hin
        refine ⟨?_, by omega⟩
        by_contra hback
        have := hflow (jumpTarget (e - 1) (insnAt insns (e - 1))).toNat (by omega) (by omega)
        omega
    rw [hpos, hpos', hiff hfwd hb (hpos ▸ hbr), hiff hfwd' hb'
      (hpos' ▸ hbranches.trans hbr), hrange]

end SameReachable

/-! ## What the split into blocks reports -/

/-- What is reported about the instruction at `i` when the blocks are split. -/
def leaderDiags (insns : List Insn) (i : Nat) : List String :=
  let target := jumpTarget i (insnAt insns i)
  if (insnAt insns i).branches then
    if target < 0 ∨ target > insns.length then [insnDiag i s!"jump target {target} is out of range"]
    else if target ≤ i then [insnDiag i s!"backward jump to {target} (loops are not modelled)"]
    else []
  else []

theorem leaderDiags_eq_nil {insns : List Insn} {i : Nat} :
    leaderDiags insns i = [] ↔ goesForward insns i := by
  unfold leaderDiags goesForward
  dsimp only
  cases (insnAt insns i).branches with
  | false => simp
  | true =>
    simp only [if_true, forall_const]
    split
    · simp
      omega
    · split
      · simp
        omega
      · simp
        omega

section Reports

variable {insns : List Insn} {c : Config} {t t' : Translator} {o : Out}

theorem leaderStep_diags {i : Nat} {lead lead' : Nat → Bool}
    (h : leaderStep insns i lead c t = .ok (lead', t', o)) : o.diags = leaderDiags insns i := by
  have hld := @Insn.isLdImm64_eq_false_of_isJmp (insnAt insns i)
  have htarget : (i : Int) + 1 + (insnAt insns i).off.toInt = jumpTarget i (insnAt insns i) := rfl
  unfold leaderStep at h
  simp only [htarget] at h
  unfold leaderDiags
  split at h
  · -- not the end of a block
    rename_i hskip
    have hbr : (insnAt insns i).branches = false := by
      unfold Insn.branches Insn.endsBlock
      cases hj : (insnAt insns i).isJmp <;> simp_all
    cases h
    simp [hbr, Out.empty]
  · rename_i hskip
    have hends : (insnAt insns i).endsBlock = true := by
      simp only [Bool.or_eq_true, not_or, Bool.not_eq_true, Bool.not_eq_false'] at hskip
      simp [Insn.endsBlock, hskip]
    split at h
    · rename_i hop
      have hbr : (insnAt insns i).branches = false := by
        rcases hop with hop | hop <;> simp [Insn.branches, hop]
      cases h
      simp [hbr, Out.empty]
    · rename_i hop
      have hbr : (insnAt insns i).branches = true := by
        simp only [not_or] at hop
        simp [Insn.branches, hends, hop]
      simp only [hbr, if_true]
      split at h
      · rename_i hrange
        cases h
        rw [if_pos hrange]
        rfl
      · rename_i hrange
        rw [if_neg hrange]
        split at h
        · rename_i hback
          cases h
          rw [if_pos hback]
          rfl
        · rename_i hfwd
          cases h
          rw [if_neg hfwd]
          rfl

theorem leaderLoop_diags {is : List Nat} {lead lead' : Nat → Bool}
    (h : leaderLoop insns is lead c t = .ok (lead', t', o)) :
    o.diags = is.flatMap (leaderDiags insns) := by
  induction is generalizing lead t o with
  | nil =>
    cases h
    rfl
  | cons i is ih =>
    unfold leaderLoop at h
    obtain ⟨lead₁, t₁, o₁, o₂, hstep, hrest, rfl⟩ := ok_bind h
    rw [List.flatMap_cons, ← leaderStep_diags hstep, ← ih hrest]
    rfl

/-- The split reports on the instructions the scan comes to, in order. -/
theorem findLeaders_diags {lead : Nat → Bool} (h : findLeaders insns c t = .ok (lead, t', o)) :
    o.diags = (scanFrom insns insns.length 0).flatMap (leaderDiags insns) := leaderLoop_diags h

/-- The split into blocks reports something about the instruction. -/
def Complains (insns : List Insn) (i : Nat) : Prop :=
  i ∈ scanFrom insns insns.length 0 ∧ leaderDiags insns i ≠ []

theorem complains_iff {i : Nat} (hi : i < insns.length) :
    Complains insns i ↔ Boundary insns i ∧ ¬goesForward insns i := by
  rw [Complains, mem_scan, ne_eq, leaderDiags_eq_nil]
  simp [hi]

/-- The transformers are the preamble and those of the blocks, and the diagnostics those of the
split and those of the blocks, in order. -/
structure Assembled (insns : List Insn) (blocks : List BlockTrace) (mods : List (List Rule))
    (diags : List String) : Prop where
  modules : mods = preamble (scanUsedRegs insns) :: blocks.flatMap BlockTrace.modules
  diags : diags = (scanFrom insns insns.length 0).flatMap (leaderDiags insns) ++
    blocks.flatMap (·.diags)

/-- A translation that finishes is made of its blocks. -/
theorem translateProgram_assembled {mods : List (List Rule)}
    (h : translateProgram insns c .init = .ok (mods, t, o)) :
    Assembled insns (programTraces insns c) mods o.diags := by
  unfold translateProgram at h
  obtain ⟨lead, t₁, o₁, o₂, hfind, h₁, rfl⟩ := ok_bind h
  obtain ⟨rest, t₂, o₃, o₄, hblocks, h₂, rfl⟩ := ok_bind h₁
  cases h₂
  obtain ⟨hmods, hdiags⟩ := translateBlocks_traces hblocks
  have htraces : programTraces insns c = blockTraces insns c lead
      (List.range (blockStarts insns.length lead).length) entryStates t₁ := by
    simp only [programTraces, hfind]
  rw [htraces]
  refine ⟨by rw [← hmods], ?_⟩
  simp only [← hdiags, ← findLeaders_diags hfind, Out.append, Out.empty, List.append_nil]

end Reports

/-! ## The blocks of a given program -/

section Given

variable {insns : List Insn}

instance {i k : Nat} : Decidable (marks insns i k) := by
  unfold marks; infer_instance

instance {k : Nat} : Decidable (IsLeader insns k) :=
  decidable_of_iff (k = 0 ∨ ∃ i ∈ scanFrom insns insns.length 0, marks insns i k) (by
    simp only [IsLeader, mem_scan, and_assoc])

instance {s e : Nat} : Decidable (BlockSpan insns s e) :=
  decidable_of_iff (IsLeader insns s ∧ s < e ∧ e ≤ insns.length ∧
    (e < insns.length → IsLeader insns e) ∧
    ∀ k, k < e → s < k → ¬IsLeader insns k)
    ⟨fun ⟨h₁, h₂, h₃, h₄, h₅⟩ => ⟨h₁, h₂, h₃, h₄, fun k hs he => h₅ k he hs⟩,
      fun h => ⟨h.leader, h.start_lt, h.end_le, h.end_leader, fun k he hs => h.inner k hs he⟩⟩

instance {e k : Nat} : Decidable (FlowsTo insns e k) := by
  unfold FlowsTo; infer_instance

theorem forwardOnly_of_flowsTo
    (h : ∀ e, e < insns.length + 1 → ∀ k, k < e → ¬FlowsTo insns e k) : ForwardOnly insns := by
  intro s e k hb hk
  have := hb.end_le
  by_contra hlt
  exact h e (by omega) k (by omega) hk

instance {s s' : Nat} : Decidable (Edge insns s s') :=
  decidable_of_iff (∃ e, e < insns.length + 1 ∧ BlockSpan insns s e ∧ ∃ k, k < insns.length ∧
      FlowsTo insns e k ∧ ∃ e', e' < insns.length + 1 ∧ BlockSpan insns s' e' ∧ s' ≤ k ∧ k < e') (by
    constructor
    · rintro ⟨e, _, hb, k, _, hk, e', _, hb', hs, he⟩
      exact ⟨e, k, e', hb, hk, hb', hs, he⟩
    · rintro ⟨e, k, e', hb, hk, hb', hs, he⟩
      exact ⟨e, Nat.lt_succ_of_le hb.end_le, hb, k, flowsTo_lt hk, hk, e',
        Nat.lt_succ_of_le hb'.end_le, hb', hs, he⟩)

/-- Starts of blocks that include the first, and all that a block of theirs flows to, include
every reachable one. -/
theorem Reachable.mem {starts : List Nat} (h₀ : 0 ∈ starts)
    (hstep : ∀ s ∈ starts, ∀ s', s' < insns.length → Edge insns s s' → s' ∈ starts)
    {s : Nat} (h : Reachable insns s) : s ∈ starts := by
  induction h with
  | entry => exact h₀
  | step _ hedge ih =>
    refine hstep _ ih _ ?_ hedge
    obtain ⟨e, k, e', hb, hk, hb', hs, he⟩ := hedge
    have := flowsTo_lt hk
    omega

end Given

/-! ## Unreachable code -/

/-- In a program that jumps forward only, where no unreachable block flows into a reachable
one, each reachable block is entered with the join over the reachable blocks before it; and
altering or deleting what no path reaches changes neither what is emitted for the reachable
blocks nor what is reported about them. Both translations, where they finish, are made of their
blocks. -/
theorem unreachable_unaffected {c c' : Config} {insns insns' : List Insn} {φ : Nat → Nat}
    (hfwd : ForwardOnly insns) (hfwd' : ForwardOnly insns') (hiso : Isolated insns)
    (hiso' : Isolated insns') (h : SameReachable c c' insns insns' φ) :
    EntryJoins c insns ∧
      List.Forall₂ (SameTrace insns φ) (reached insns (programTraces insns c))
        (reached insns' (programTraces insns' c')) ∧
      (∀ s e j, Reachable insns s → BlockSpan insns s e → j < e - s →
        (Complains insns (s + j) ↔ Complains insns' (φ s + j))) ∧
      (∀ mods t o, translateProgram insns c .init = .ok (mods, t, o) →
        Assembled insns (programTraces insns c) mods o.diags) ∧
      ∀ mods t o, translateProgram insns' c' .init = .ok (mods, t, o) →
        Assembled insns' (programTraces insns' c') mods o.diags := by
  refine ⟨entryJoins c hfwd hiso.flow, ?_, fun s e j hs hb hj => ?_,
    fun _ _ _ hrun => translateProgram_assembled hrun,
    fun _ _ _ hrun => translateProgram_assembled hrun⟩
  · obtain ⟨lead, t, hlead, _, htraces⟩ := programTraces_eq (c := c)
    obtain ⟨lead', t', hlead', _, htraces'⟩ := programTraces_eq (c := c')
    rw [htraces, htraces']
    exact SameReachable.blockTraces_same h hiso hiso' hlead hlead' (by omega) (by omega)
      (SameReachable.abreast_entry h hlead hlead')
  · have := hb.end_le
    have := (h.block s e hs hb).end_le
    rw [complains_iff (by omega), complains_iff (by omega)]
    exact SameReachable.goesForward_iff h hfwd hfwd' hs hb hj

/-- `goto +1; r1 = 0; r0 = *(u32 *)(r1 + 0); exit`: the second instruction, which nothing
reaches, falls through to the third. -/
def leakyProgram : List Insn :=
  [⟨0x05, 0, 0, 1, 0⟩, ⟨0xb7, 1, 0, 0, 0⟩, ⟨0x61, 0, 1, 0, 0⟩, ⟨0x95, 0, 0, 0, 0⟩]

private theorem leakyProgram_reachable_two : Reachable leakyProgram 2 :=
  .step (.entry (e := 1) (by decide)) (by decide +kernel)

private theorem leakyProgram_not_reachable_one : ¬Reachable leakyProgram 1 := by
  intro h
  have hmem : 1 ∈ [0, 2] := h.mem (by decide) (by decide +kernel)
  exact absurd hmem (by decide)

/-- The unreachable block spoils what is known of `r1` where the load is reached. -/
theorem leakyProgram_counterexample :
    ForwardOnly leakyProgram ∧ ¬EntryJoins xdpConfig leakyProgram := by
  refine ⟨forwardOnly_of_flowsTo (by decide), fun h => ?_⟩
  have hlen : (programTraces leakyProgram xdpConfig).length = 3 := by decide +kernel
  obtain ⟨q₀, q₁, q₂, htr⟩ := List.length_eq_three.mp hlen
  have hstart : (programTraces leakyProgram xdpConfig).map (·.start) =
    [0, 1, 2] := by decide +kernel
  have hb : (programTraces leakyProgram xdpConfig).map (·.b) = [0, 1, 2] := by decide +kernel
  have hentry : (programTraces leakyProgram xdpConfig).map (fun q => (q.entry.reg 1).tag) =
      [.ctx, .scalar, .unknown] := by decide +kernel
  have hexit : (programTraces leakyProgram xdpConfig).map
      (fun q => ((joinAll (entryStates 2) (q.edgesTo 2)).reg 1).tag) =
      [.ctx, .scalar, .scalar] := by
    decide +kernel
  have hlast : (programTraces leakyProgram xdpConfig).map
    (fun q => (q.edgesTo 2).length) = [1, 1, 0] := by
    decide +kernel
  rw [htr] at hstart hb hentry hexit hlast
  simp only [List.map_cons, List.map_nil, List.cons.injEq, and_true] at hstart hb hentry hexit hlast
  have hreach : Reachable leakyProgram q₀.start ∧ ¬Reachable leakyProgram q₁.start ∧
      Reachable leakyProgram q₂.start := by
    rw [hstart.1, hstart.2.1, hstart.2.2]
    exact ⟨.entry (e := 1) (by decide), leakyProgram_not_reachable_one, leakyProgram_reachable_two⟩
  have hjoin := h q₂ (by rw [htr]; simp) hreach.2.2
  rw [htr, reached, List.filter_cons_of_pos (by simpa using hreach.1),
    List.filter_cons_of_neg (by simpa using hreach.2.1),
    List.filter_cons_of_pos (by simpa using hreach.2.2), hb.2.2] at hjoin
  simp only [List.filter_nil, List.flatMap_cons, List.flatMap_nil,
    List.length_eq_zero_iff.mp hlast.2.2, List.append_nil] at hjoin
  rw [hjoin, hexit.1] at hentry
  exact absurd hentry.2.2 (by decide)

/-- `goto +2; r0 = *(u32 *)pkt[r11]; exit; r0 = 0; exit`. -/
def fencedProgram : List Insn :=
  [⟨0x05, 0, 0, 2, 0⟩, ⟨0x40, 0, 11, 0, 0⟩, ⟨0x95, 0, 0, 0, 0⟩, ⟨0xb7, 0, 0, 0, 0⟩,
    ⟨0x95, 0, 0, 0, 0⟩]

/-- The same without the load. -/
def fencedProgram' : List Insn :=
  [⟨0x05, 0, 0, 1, 0⟩, ⟨0x95, 0, 0, 0, 0⟩, ⟨0xb7, 0, 0, 0, 0⟩, ⟨0x95, 0, 0, 0, 0⟩]

private theorem reachable_fencedProgram {s : Nat} : Reachable fencedProgram s ↔ s ∈ [0, 3] := by
  refine ⟨fun h => h.mem (by decide) (by decide +kernel), fun h => ?_⟩
  have h₀ : Reachable fencedProgram 0 := .entry (e := 1) (by decide)
  rcases List.mem_pair.mp h with rfl | rfl
  · exact h₀
  · exact .step h₀ (by decide +kernel)

private theorem reachable_fencedProgram' {s : Nat} : Reachable fencedProgram' s ↔ s ∈ [0, 2] := by
  refine ⟨fun h => h.mem (by decide) (by decide +kernel), fun h => ?_⟩
  have h₀ : Reachable fencedProgram' 0 := .entry (e := 1) (by decide)
  rcases List.mem_pair.mp h with rfl | rfl
  · exact h₀
  · exact .step h₀ (by decide +kernel)

private theorem fencedProgram_span {s e : Nat} (hs : Reachable fencedProgram s)
    (hb : BlockSpan fencedProgram s e) : s = 0 ∧ e = 1 ∨ s = 3 ∧ e = 5 := by
  rcases List.mem_pair.mp (reachable_fencedProgram.mp hs) with rfl | rfl
  · exact .inl ⟨rfl, hb.unique (show BlockSpan fencedProgram 0 1 by decide)⟩
  · exact .inr ⟨rfl, hb.unique (show BlockSpan fencedProgram 3 5 by decide)⟩

private theorem isolated_of_starts {insns : List Insn} {starts : List Nat}
    (hreach : ∀ {s}, Reachable insns s ↔ s ∈ starts)
    (hflow : ∀ s, s < insns.length → ∀ s' ∈ starts, Edge insns s s' → s ∈ starts)
    (hregs : ∀ k, k < insns.length → ∀ r ∈ (insnAt insns k).indexed, r < numBpfRegs) :
    Isolated insns := by
  refine ⟨fun s s' hedge hs' => ?_, fun s e k hb _ hw => .inr fun r hr => ?_⟩
  · have hlt : s < insns.length := by
      obtain ⟨e, _, _, hb, _⟩ := hedge
      have := hb.start_lt
      have := hb.end_le
      omega
    exact hreach.mpr (hflow s hlt s' (hreach.mp hs') hedge)
  · have := hw.lt
    have := bodyEnd_le hb.end_le
    exact hregs k (by omega) r hr

/-- Where the blocks of `fencedProgram` are without the load. -/
def fencedMove (s : Nat) : Nat := s - 1

private theorem fencedProgram_same :
    SameReachable xdpConfig xdpConfig fencedProgram fencedProgram' fencedMove where
  ctx := rfl
  maps := rfl
  entry := rfl
  mono s s' hs hs' hlt := by
    rcases List.mem_pair.mp (reachable_fencedProgram.mp hs) with rfl | rfl <;>
      rcases List.mem_pair.mp (reachable_fencedProgram.mp hs') with rfl | rfl <;> revert hlt <;>
        decide
  onto s' hs' := by
    rcases List.mem_pair.mp (reachable_fencedProgram'.mp hs') with rfl | rfl
    · exact ⟨0, reachable_fencedProgram.mpr (by decide), rfl⟩
    · exact ⟨3, reachable_fencedProgram.mpr (by decide), rfl⟩
  block s e hs hb := by
    rcases fencedProgram_span hs hb with ⟨rfl, rfl⟩ | ⟨rfl, rfl⟩ <;> decide
  code s e j hs hb hj := by
    rcases fencedProgram_span hs hb with ⟨rfl, rfl⟩ | ⟨rfl, rfl⟩
    · obtain rfl : j = 0 := by omega
      exact ⟨⟨by decide, by decide, by decide, by decide, by decide, by decide⟩, rfl⟩
    · obtain rfl | rfl : j = 0 ∨ j = 1 := by omega
      all_goals exact ⟨⟨by decide, by decide, by decide, by decide, by decide, by decide⟩, rfl⟩
  fall s e hs hb := by
    rcases fencedProgram_span hs hb with ⟨rfl, rfl⟩ | ⟨rfl, rfl⟩ <;> exact .none
  take s e hs hb := by
    rcases fencedProgram_span hs hb with ⟨rfl, rfl⟩ | ⟨rfl, rfl⟩
    · exact .some ⟨3, 5, by decide, by decide, by decide, by decide⟩
    · exact .none
  range s e hs hb _ := by
    rcases fencedProgram_span hs hb with ⟨rfl, rfl⟩ | ⟨rfl, rfl⟩ <;> decide
  scan s e j hs hb hj := by
    have hscan : ∀ {insns : List Insn} {i : Nat}, i ∈ scanFrom insns insns.length 0 →
        Boundary insns i :=
      fun h => (mem_scan.mp h).1
    rcases fencedProgram_span hs hb with ⟨rfl, rfl⟩ | ⟨rfl, rfl⟩
    · obtain rfl : j = 0 := by omega
      exact iff_of_true (hscan (by decide)) (hscan (by decide))
    · obtain rfl | rfl : j = 0 ∨ j = 1 := by omega
      all_goals exact iff_of_true (hscan (by decide)) (hscan (by decide))

/-- What is known of the last block does not change when the load goes. -/
theorem fencedProgram_unaffected : EntryJoins xdpConfig fencedProgram ∧
    List.Forall₂ (SameTrace fencedProgram fencedMove)
      (reached fencedProgram (programTraces fencedProgram xdpConfig))
      (reached fencedProgram' (programTraces fencedProgram' xdpConfig)) ∧
    (∀ s e j, Reachable fencedProgram s → BlockSpan fencedProgram s e → j < e - s →
      (Complains fencedProgram (s + j) ↔ Complains fencedProgram' (fencedMove s + j))) ∧
    (∀ mods t o, translateProgram fencedProgram xdpConfig .init = .ok (mods, t, o) →
      Assembled fencedProgram (programTraces fencedProgram xdpConfig) mods o.diags) ∧
    ∀ mods t o, translateProgram fencedProgram' xdpConfig .init = .ok (mods, t, o) →
      Assembled fencedProgram' (programTraces fencedProgram' xdpConfig) mods o.diags :=
  unreachable_unaffected (forwardOnly_of_flowsTo (by decide +kernel))
    (forwardOnly_of_flowsTo (by decide +kernel))
    (isolated_of_starts reachable_fencedProgram (by decide +kernel) (by decide))
    (isolated_of_starts reachable_fencedProgram' (by decide +kernel) (by decide)) fencedProgram_same

end Ect
